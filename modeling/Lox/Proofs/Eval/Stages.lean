import Lox.Proofs.Eval.Asking
import Lox.Run

/-! # Tasks in progress

While a task is performed, those that led to it are in progress. Every stack of the machine can be
read off them: there is an environment to return to for each body that is being run, and a callee
for each call that has been entered.
-/
namespace Lox
open Machine Exec

/-- A task with the bound and the machine that it is performed with. -/
structure Stage where
  bound : Nat
  task : Task
  machine : Machine

/-- The stages in progress at a stage, innermost first. Each has asked for the one before it. -/
inductive Stage.Active (start : Stage) : List Stage → Stage → Prop
  | itself : Active start [] start
  | asked {stages n t m u k} : Active start stages ⟨n + 1,t,m⟩ →
      Asks (fun E => t.perform E m) (evaluator n) u k → Active start (⟨n + 1,t,m⟩ :: stages) ⟨n,u,k⟩

/-- The environment to which a task returns from the body that it runs. -/
def Task.left? (m : Machine) : Task → Option Ref
  | .invoke _ _ _ | .execute (.block _ _ _) => some m.current
  | _ => none

/-- The callee of a call that has been entered. -/
def Task.callee? : Task → Option Value
  | .call f _ => some f
  | _ => none

/-- The environments to return to, for stages in progress. -/
def Stage.lefts (stages : List Stage) : List Ref := stages.filterMap fun s => s.task.left? s.machine

def Stage.callees (stages : List Stage) : List Value := stages.filterMap (·.task.callee?)

/-! ## What asking does to the stacks -/

/-- How the stacks have grown where a task is asked for. -/
structure Task.Stacks (t : Task) (m : Machine) (u : Task) (j : Machine) : Prop where
  heap : Heap.Grows m.heap j.heap
  current : t.left? m = none → j.current = m.current
  saved : j.saved = (t.left? m).toList ++ m.saved
  frames : j.frames = u.callee?.toList ++ m.frames
  depth : j.calls.depth = u.callee?.toList.length + m.calls.depth
  limit : j.calls.limit = m.calls.limit
  within : m.calls.depth ≤ m.calls.limit → j.calls.depth ≤ j.calls.limit

section
variable {E : Evaluator} {t u : Task} {m k j : Machine}

theorem Machine.Carries.stacks (carries : Carries m j) (stays : t.left? m = none)
    (outside : u.callee? = none) : t.Stacks m u j := by
  constructor
  · exact carries.heap
  · exact fun _ => carries.current
  · rw [stays,carries.saved,Option.toList_none,List.nil_append]
  · rw [outside,carries.frames,Option.toList_none,List.nil_append]
  · rw [outside,carries.depth,Option.toList_none,List.length_nil,Nat.zero_add]
  · exact carries.limit
  · intro within
    rwa [carries.depth,carries.limit]

/-- A body is run behind one environment more to return to. -/
theorem Machine.Carries.stacks_body (carries : Carries m k) (returns : t.left? m = some m.current)
    (outside : u.callee? = none) (env : Ref) :
    t.Stacks m u { k with current := env, saved := k.current :: k.saved } := by
  have inner : (k.saved = m.saved ∧ k.current = m.current) ∧ k.frames = m.frames :=
    ⟨⟨carries.saved,carries.current⟩,carries.frames⟩
  constructor
  · exact carries.heap
  · exact fun stays => nomatch returns.symm.trans stays
  · rw [returns,inner.1.1,inner.1.2]
    rfl
  · rw [outside]
    exact inner.2
  · rw [outside]
    exact carries.depth.trans (Nat.zero_add _).symm
  · exact carries.limit
  · intro within
    show (k.calls.depth : Int) ≤ k.calls.limit
    rwa [carries.depth,carries.limit]

theorem enterCall_eq_ok {pos : Pos} (e : enterCall pos m = .ok () k) :
    k = { m with calls := k.calls } ∧ k.calls.limit = m.calls.limit ∧
      k.calls.depth = m.calls.depth + 1 ∧ (k.calls.depth : Int) ≤ m.calls.limit := by
  simp only [enterCall] at e
  cases entered : m.calls.enter with
  | mk refused calls =>
    rw [entered] at e
    cases refused with
    | some o => cases e
    | none =>
      cases e
      have within := CallDepth.depth_le_limit entered
      simp only [CallDepth.enter] at entered
      split at entered
      · cases entered
      · cases entered
        exact ⟨rfl,rfl,rfl,within⟩

theorem leads_beginNode (name : String) : Leads Resumes (beginNode name) :=
  (spends_tick (leads_trace _ _)).resumes

section
variable (balanced : Balanced E)
include balanced

theorem Balanced.prepare (callee : Expr) (paren : Pos) (args : List Expr) :
    Leads Carries (E.prepare callee paren args) :=
  .bind (balanced.evaluate callee).resumes.carries fun f => .bind (leads_keep f) fun _ =>
    .bind (balanced.evaluateAll args) fun _ => .bind (leads_trace _ _).carries fun _ =>
    .bind (leads_checkCall _ _ _).carries fun _ => .pure _

/-- What a task asks for is performed with its stacks, and with one entry more where a call has been
entered or a body is run. -/
theorem Task.Gives.stacks (gives : t.Gives E m u j) : t.Stacks m u j := by
  have begins : ∀ {name m k}, beginNode name m = .ok () k → Carries m k := fun e =>
    (leads_beginNode _).carries.ok e
  have evaluates : ∀ {e m k x}, E (.evaluate e) m = .ok x k → Carries m k := fun e =>
    (balanced.evaluate _).resumes.carries.ok e
  have executes : ∀ {s m k a}, E (.execute s) m = .ok a k → Carries m k := fun e =>
    (balanced.execute _).resumes.carries.ok e
  have traces : ∀ {level message m k}, trace level message m = .ok () k → Carries m k := fun e =>
    (leads_trace _ _).carries.ok e
  have allocates : ∀ {o m k r}, allocate o m = .ok r k → Carries m k := fun e =>
    (leads_allocate _).carries.ok e
  have keeps : ∀ m x, Carries m { m with temps := x :: m.temps } := fun m x => leads_keep x m
  cases gives with
  | inner b | assigned b | operand b | left b | first b | object b | target b | expression b | printed b
  | initial b | condition b | rounds b | returned b => exact (begins b).stacks rfl rfl
  | right b e => exact (((begins b).trans (evaluates e)).trans (keeps _ _)).stacks rfl rfl
  | second b e => exact ((begins b).trans (evaluates e)).stacks rfl rfl
  | callee b c => exact ((begins b).trans (traces c)).stacks rfl rfl
  | arguments b c e =>
    exact ((((begins b).trans (traces c)).trans (evaluates e)).trans (keeps _ _)).stacks rfl rfl
  | entered b c p e l =>
    have before := ((begins b).trans (traces c)).trans ((balanced.prepare _ _ _).ok p)
    have after := (leads_traceCall _).ok l
    obtain ⟨same,limit,depth,within⟩ := enterCall_eq_ok e
    constructor
    · have entered : Heap.Grows _ _ := before.heap
      rw [← congrArg Machine.heap same] at entered
      exact IsTrans.trans _ _ _ entered after.heap
    · exact fun _ => after.current.trans ((congrArg Machine.current same).trans before.current)
    · exact after.saved.trans ((congrArg Machine.saved same).trans before.saved)
    · refine after.frames.trans (congrArg (_ :: ·) ?_)
      exact (congrArg Machine.frames same).trans before.frames
    · rw [after.depth]
      show _ = 1 + _
      rw [depth,before.depth,Nat.add_comm]
    · exact after.limit.trans (limit.trans before.limit)
    · intro _
      rw [after.depth,after.limit]
      exact limit ▸ within
  | value b e => exact (((begins b).trans (evaluates e)).trans (keeps _ _)).stacks rfl rfl
  | argument | statement | test => exact (Carries.refl _).stacks rfl rfl
  | furtherArguments e => exact ((evaluates e).trans (keeps _ _)).stacks rfl rfl
  | bound | klass | function | plain => exact (Carries.refl _).stacks rfl rfl
  | method _ a d => exact ((allocates a).trans ((leads_define _ _ _).carries.ok d)).stacks rfl rfl
  | initializer a => exact ((allocates a).trans (keeps _ _)).stacks rfl rfl
  | content a p =>
    exact ((allocates a).trans ((leads_bindParameters _ _ _).carries.ok p)).stacks_body rfl rfl _
  | block b c a => exact (((begins b).trans (traces c)).trans (allocates a)).stacks_body rfl rfl _
  | yes b e | no b e => exact ((begins b).trans (evaluates e)).stacks rfl rfl
  | superclass b c | declared b c => exact ((begins b).trans (traces c)).stacks rfl rfl
  | derived b c e s =>
    exact ((((begins b).trans (traces c)).trans (evaluates e)).trans
      ((leads_checkSuperclass _ _).ok s)).stacks rfl rfl
  | furtherStatements e => exact (executes e).stacks rfl rfl
  | body e => exact (evaluates e).stacks rfl rfl
  | increment e _ s | again e _ s => exact ((evaluates e).trans (executes s)).stacks rfl rfl
  | incremented e _ s _ i =>
    exact (((evaluates e).trans (executes s)).trans (executes i)).stacks rfl rfl

end

end

/-! ## The stacks of a stage -/

/-- The stacks are those of the start, with an entry for each body that is being run and each call that
has been entered. -/
theorem Stage.Active.stacks {start stage : Stage} {stages : List Stage}
    (active : start.Active stages stage) (outside : start.task.callee? = none) :
    stage.machine.saved = lefts stages ++ start.machine.saved ∧
      stage.machine.frames = callees (stage :: stages) ++ start.machine.frames ∧
      stage.machine.calls.depth = (callees (stage :: stages)).length + start.machine.calls.depth ∧
      stage.machine.calls.limit = start.machine.calls.limit ∧
      (start.machine.calls.depth ≤ start.machine.calls.limit →
        stage.machine.calls.depth ≤ stage.machine.calls.limit) := by
  induction active with
  | itself =>
    have none : callees [start] = [] := List.filterMap_cons_none outside
    rw [none]
    exact ⟨rfl,rfl,(Nat.zero_add _).symm,rfl,id⟩
  | @asked stages n t m u k _ asks ih =>
    obtain ⟨saved,frames,depth,limit,within⟩ := ih
    have grown := (gives_of_asks asks).stacks (balanced n)
    have left : lefts (⟨n + 1,t,m⟩ :: stages) = (t.left? m).toList ++ lefts stages := by
      cases e : t.left? m <;> simp [lefts,e]
    have callee : callees (⟨n,u,k⟩ :: ⟨n + 1,t,m⟩ :: stages) =
        u.callee?.toList ++ callees (⟨n + 1,t,m⟩ :: stages) := by
      cases e : u.callee? <;> simp [callees,e]
    refine ⟨?_,?_,?_,grown.limit.trans limit,fun h => grown.within (within h)⟩
    · rw [grown.saved,saved,left,List.append_assoc]
    · rw [grown.frames,frames,callee,List.append_assoc]
    · rw [grown.depth,depth,callee,List.length_append,Nat.add_assoc]

/-- The heap has grown from the start to any stage. -/
theorem Stage.Active.grows {start stage : Stage} {stages : List Stage}
    (active : start.Active stages stage) : Heap.Grows start.machine.heap stage.machine.heap := by
  induction active with
  | itself => exact Heap.grows_refl _
  | @asked _ n _ _ _ _ _ asks ih =>
    exact IsTrans.trans _ _ _ ih ((gives_of_asks asks).stacks (balanced n)).heap

/-- A stage of a task that is asked for is one of the task that asks. -/
theorem Stage.Active.under {n : Nat} {t u : Task} {m k : Machine} {stages : List Stage} {stage : Stage}
    (asks : Asks (fun E => t.perform E m) (evaluator n) u k) (active : Active ⟨n,u,k⟩ stages stage) :
    ∃ before, Active ⟨n + 1,t,m⟩ before stage := by
  induction active with
  | itself => exact ⟨_,.asked .itself asks⟩
  | asked _ later ih =>
    obtain ⟨before,active⟩ := ih
    exact ⟨_,.asked active later⟩

/-- Nothing goes on when a stage breaks off. -/
theorem Stage.Active.breaks {start stage : Stage} {stages : List Stage}
    (active : start.Active stages stage) {h : Halt} {k : Machine}
    (broken : evaluator stage.bound stage.task stage.machine = .error h k) :
    ∃ l, evaluator start.bound start.task start.machine = .error h l := by
  induction active generalizing k with
  | itself => exact ⟨k,broken⟩
  | @asked stages n t m u j _ asks ih =>
    obtain ⟨l,e⟩ := (orderly_perform t m).breaks asks broken
    refine ih (k := l) ?_
    show evaluator (n + 1) t m = _
    rwa [evaluator_succ]

/-! ## The stages of a run -/

namespace Machine

/-- A statement of a program is executed at a machine, once the statements before it have been. -/
inductive Begins (bound : Nat) : Program → Machine → Stmt → Machine → Prop
  | first {s rest m} : Begins bound (s :: rest) m s m
  | later {s t rest a m k j} : execute bound t m = .ok a k → Begins bound rest k s j →
      Begins bound (t :: rest) m s j

/-- A stage of the run of a program, with the stages in progress. -/
def Progress (steps : Nat) (p : Program) (m : Machine) (stages : List Stage) (stage : Stage) : Prop :=
  ∃ k s j, trace .normal (fun _ => s!"run: {p.length} statements")
      { m with current := m.globals, steps } = .ok () k ∧
    Begins (nesting steps) p k s j ∧ Stage.Active ⟨nesting steps,.execute s,j⟩ stages stage

variable {m k j : Machine} {p : Program} {s : Stmt}

/-- A statement of a program finds the machine as the run found it. -/
theorem Begins.resumes {bound : Nat} (begins : Begins bound p m s j) : Resumes m j := by
  induction begins with
  | first => exact .refl _
  | later executed _ ih => exact (((balanced bound).execute _).resumes.ok executed).trans ih

theorem Progress.resumes {steps : Nat} {stages : List Stage} {stage : Stage}
    (progress : m.Progress steps p stages stage) :
    ∃ s j, Resumes { m with current := m.globals, steps } j ∧
      Stage.Active ⟨nesting steps,.execute s,j⟩ stages stage := by
  obtain ⟨k,s,j,traced,begins,active⟩ := progress
  exact ⟨s,j,((leads_trace _ _).ok traced).trans begins.resumes,active⟩

end Machine
end Lox
