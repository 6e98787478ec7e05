import Lox.Proofs.Eval.Signals

/-! # What becomes of signals

A signal ends one statement after another with nothing done in between, until the innermost loop
consumes a jump or the innermost call a return. A loop that is told to go on runs its increment first.
-/
namespace Lox
open Machine Exec

/-- The machine behind a body: the environment is the one around the body again. -/
def Machine.back (k m : Machine) : Machine := { k with current := m.current, saved := m.saved }

/-- Statements that are executed at a stage end with a signal or without one. -/
def Stage.Ends : Stage → Option Signal → Machine → Prop
  | ⟨n,.execute s,m⟩ => fun a k => execute n s m = .ok a k
  | ⟨n,.executeAll ss,m⟩ => fun a k => executeAll n ss m = .ok a k
  | ⟨n,.loop e s i,m⟩ => fun a k => loop n e s i m = .ok a k
  | _ => fun _ _ => False

def Task.IsLoop : Task → Prop
  | .loop _ _ _ => True
  | _ => False

/-- A task that runs the body of a routine. -/
def Task.RunsRoutine : Task → Prop
  | .invoke _ _ _ => True
  | _ => False

/-- What a loop does behind a body that has ended with a signal. -/
def loopBehind (n : Nat) (condition : Expr) (body : Stmt) (increment : Option Expr) :
    Signal → Exec (Option Signal)
  | .leave => return none
  | .return x => return some (.return x)
  | .next =>
    match increment with
    | some e => do
      let _ ← execute n (.expression e)
      loop n condition body increment
    | none => loop n condition body increment

section
variable {n : Nat} {m k : Machine} {σ : Signal} {x : Value} {a : Option Signal}

theorem Machine.Resumes.back_eq (resumes : Resumes m k) : k.back m = k := by
  have current := resumes.current
  have saved := resumes.saved
  cases k
  simp only [Machine.back]
  cases current
  cases saved
  rfl

theorem Machine.Resumes.back {l : Machine} (resumes : Resumes m k) : l.back k = l.back m := by
  simp only [Machine.back,resumes.current,resumes.saved]

theorem inEnvironment_eq_ok {α : Type} {r : Ref} {y : Exec α} {b : α}
    (ran : y { m with current := r, saved := m.current :: m.saved } = .ok b k) :
    inEnvironment r y m = .ok b (k.back m) := by
  simp only [inEnvironment,afterwards,ran]
  rfl

theorem Stage.Ends.resumes {stage : Stage} (ends : stage.Ends a k) : Resumes stage.machine k := by
  obtain ⟨n,t,m⟩ := stage
  cases t with
  | execute s => exact ((balanced n).execute s).resumes.ok ends
  | executeAll ss => exact ((balanced n).executeAll ss).ok ends
  | loop e s i => exact ((balanced n).loop e s i).ok ends
  | _ => exact ends.elim

/-- A node that has been begun does its work. -/
theorem begun_eq_ok {α : Type} {name : String} {x : Exec α} {b : α} {l : Machine}
    (begun : beginNode name m = .ok () k) (rest : x k = .ok b l) :
    (do tick; traceNode name; x) m = .ok b l := by
  obtain ⟨_,_,ticked,traced⟩ := bind_eq_ok.mp begun
  exact bind_eq_ok.mpr ⟨_,_,ticked,bind_eq_ok.mpr ⟨_,_,traced,rest⟩⟩

/-- A loop whose body has ended with a signal goes on from there. -/
theorem loop_of_body {e : Expr} {s : Stmt} {i : Option Expr} {j : Machine}
    (tested : evaluate n e m = .ok x j) (truthy : x.isTruthy = true)
    (executed : execute n s j = .ok (some σ) k) : loop (n + 1) e s i m = loopBehind n e s i σ k := by
  rw [loop.eq_def]
  simp only [Bind.bind,EStateM.bind,tested,truthy,if_true,executed]
  cases σ <;> cases i <;> rfl

/-- A call answers with the value that its body returns. -/
theorem invoke_of_body {r : Routine} {c : Option Ref} {xs : List Value} {env : Ref} {l j : Machine}
    (made : newEnvironment c m = .ok env l) (bound : bindParameters env r.params xs l = .ok () j)
    (executed : executeAll n r.body { j with current := env, saved := j.current :: j.saved } =
      .ok (some (.return x)) k) : invoke (n + 1) r c xs m = .ok x (k.back m) := by
  have resumes : Resumes m j := ((leads_allocate _).ok made).trans ((leads_bindParameters _ _ _).ok bound)
  have ran := inEnvironment_eq_ok executed
  rw [resumes.back] at ran
  rw [invoke]
  exact bind_eq_ok.mpr ⟨env,l,made,bind_eq_ok.mpr ⟨(),j,bound,bind_eq_ok.mpr ⟨_,_,ran,rfl⟩⟩⟩

/-- A statement whose part has ended with a signal ends with it too and does nothing else, unless it is
a loop and the part its body. -/
theorem signal_passes {t u : Task} {j : Machine} (gives : t.Gives (evaluator n) m u j)
    (ends : Stage.Ends ⟨n,u,j⟩ (some σ) k) :
    Stage.Ends ⟨n + 1,t,m⟩ (some σ) (k.back m) ∨
      (∃ e s i x, t = .loop e s i ∧ u = .execute s ∧ evaluate n e m = .ok x j ∧ x.isTruthy = true) ∨
      ∃ r c xs, t = .invoke r c xs ∧ u = .executeAll r.body ∧ ∀ x, σ = .return x →
        invoke (n + 1) r c xs m = .ok x (k.back m) := by
  have whole : ∀ {a}, Stage.Ends ⟨n + 1,t,m⟩ a k → Stage.Ends ⟨n + 1,t,m⟩ a (k.back m) := fun e => by
    rwa [e.resumes.back_eq]
  have performed : ∀ {t : Task} {a : t.Answer} {l}, t.perform (evaluator n) m = .ok a l →
      evaluator (n + 1) t m = .ok a l := fun e => by rwa [evaluator_succ]
  cases gives with
  | block begun traced made =>
    refine .inl (performed (t := .execute _) (begun_eq_ok begun ?_))
    have resumes := (((leads_beginNode _).ok begun).trans ((leads_trace _ _).ok traced)).trans
      ((leads_allocate _).ok made)
    have ran := inEnvironment_eq_ok (y := evaluator n (.executeAll _)) ends
    rw [resumes.back] at ran
    exact bind_eq_ok.mpr ⟨_,_,traced,bind_eq_ok.mpr ⟨_,_,rfl,bind_eq_ok.mpr ⟨_,_,made,ran⟩⟩⟩
  | yes begun tested truthy =>
    refine .inl (whole (performed (t := .execute _) (begun_eq_ok begun ?_)))
    refine bind_eq_ok.mpr ⟨_,_,tested,?_⟩
    rw [if_pos truthy]
    exact ends
  | no begun tested falsy =>
    refine .inl (whole (performed (t := .execute _) (begun_eq_ok begun ?_)))
    refine bind_eq_ok.mpr ⟨_,_,tested,?_⟩
    rw [if_neg (by simp [falsy])]
    exact ends
  | rounds begun => exact .inl (whole (performed (t := .execute _) (begun_eq_ok begun ends)))
  | statement =>
    refine .inl (whole (performed (t := .executeAll (_ :: _)) ?_))
    exact bind_eq_ok.mpr ⟨_,_,ends,rfl⟩
  | furtherStatements executed =>
    refine .inl (whole (performed (t := .executeAll (_ :: _)) ?_))
    exact bind_eq_ok.mpr ⟨_,_,executed,ends⟩
  | body tested truthy => exact .inr (.inl ⟨_,_,_,_,rfl,rfl,tested,truthy⟩)
  | increment =>
    have silent := (signals n).execute (s := .expression _) (a := false) (b := false) trivial _ _ _ ends
    cases σ <;> cases silent
  | again tested truthy executed goes =>
    refine .inl (whole (performed (t := .loop _ _ none) ?_))
    refine bind_eq_ok.mpr ⟨_,_,tested,?_⟩
    rw [if_pos truthy]
    refine bind_eq_ok.mpr ⟨_,_,executed,?_⟩
    rcases goes with rfl | rfl <;> exact ends
  | incremented tested truthy executed goes incremented =>
    refine .inl (whole (performed (t := .loop _ _ (some _)) ?_))
    refine bind_eq_ok.mpr ⟨_,_,tested,?_⟩
    rw [if_pos truthy]
    refine bind_eq_ok.mpr ⟨_,_,executed,?_⟩
    rcases goes with rfl | rfl <;> exact bind_eq_ok.mpr ⟨_,_,incremented,ends⟩
  | content made bound =>
    refine .inr (.inr ⟨_,_,_,rfl,rfl,fun x same => ?_⟩)
    subst same
    exact invoke_of_body made bound ends
  | _ => exact ends.elim

end

/-! ## What surrounds a stage -/

/-- Whether a stage is in a loop of the routine that is being run, for the stages in progress. -/
def Stage.inLoop (stages : List Stage) : Bool := stages.foldr (fun s outside => s.task.inLoop outside) false

def Stage.inRoutine (stages : List Stage) : Bool :=
  stages.foldr (fun s outside => s.task.inRoutine outside) false

/-- A jump ends the statements around it, none of them a loop, and leaves them the machine as it is. The
loop around them goes on behind its body. -/
def Stage.EndsInLoop (stages : List Stage) (σ : Signal) (k : Machine) : Prop :=
  ∃ inner n e s i j outer, stages = inner ++ ⟨n + 1,.loop e s i,j⟩ :: outer ∧
    (∀ t ∈ inner, ¬t.task.IsLoop ∧ t.Ends (some σ) (k.back t.machine)) ∧
    loop (n + 1) e s i j = loopBehind n e s i σ (k.back j)

/-- A return ends the statements around it, loops too, and leaves them the machine as it is. The call
around them answers with the value. -/
def Stage.EndsInCall (stages : List Stage) (x : Value) (k : Machine) : Prop :=
  ∃ inner n r c xs j outer, stages = inner ++ ⟨n + 1,.invoke r c xs,j⟩ :: outer ∧
    (∀ t ∈ inner, t.Ends (some (.return x)) (k.back t.machine)) ∧
    invoke (n + 1) r c xs j = .ok x (k.back j)

section
variable {start stage : Stage} {stages : List Stage} {k : Machine} {σ : Signal}

/-- What a statement may signal by the rules of scope, it may signal where it is executed. -/
theorem Stage.Active.obeys (active : start.Active stages stage) (obeys : start.task.Obeys false false)
    (founded : start.task.Founded start.machine) (holds : start.machine.heap.Obeys) :
    stage.task.Obeys (inLoop stages) (inRoutine stages) := by
  induction active with
  | itself => exact obeys
  | asked active asks ih =>
    obtain ⟨-,-,heap,-⟩ := kept_obeys.active active ⟨_,_,obeys⟩ founded holds
    exact (gives_of_asks asks).obeys heap ih

theorem Stage.Ends.admitted {a b : Bool} (ends : stage.Ends (some σ) k) (obeys : stage.task.Obeys a b) :
    Signal.Admitted a b (some σ) := by
  obtain ⟨n,t,m⟩ := stage
  cases t with
  | execute s => exact (signals n).execute obeys _ _ _ ends
  | executeAll ss => exact (signals n).executeAll obeys _ _ _ ends
  | loop e s i => exact ((signals n).loop obeys _ _ _ ends).in_loop
  | _ => exact ends.elim

variable (active : start.Active stages stage) (obeys : start.task.Obeys false false)
  (founded : start.task.Founded start.machine) (holds : start.machine.heap.Obeys)
include active obeys founded holds

theorem Stage.Active.jumps (jump : σ = .leave ∨ σ = .next) (ends : stage.Ends (some σ) k) :
    EndsInLoop stages σ k := by
  induction active generalizing k with
  | itself =>
    have admitted := ends.admitted obeys
    rcases jump with rfl | rfl <;> cases admitted
  | @asked stages n t m u j active asks ih =>
    have gives := gives_of_asks asks
    have surrounded := active.obeys obeys founded holds
    rcases signal_passes gives ends with passed | ⟨e,s,i,x,rfl,rfl,tested,truthy⟩ | ⟨r,c,xs,rfl,rfl,-⟩
    · have other : ¬t.IsLoop := fun isLoop => by
        cases t with
        | loop e s i =>
          have admitted := (signals (n + 1)).loop surrounded _ _ _ passed
          rcases jump with rfl | rfl <;> cases admitted
        | _ => exact isLoop
      obtain ⟨inner,l,e,s,i,o,outer,same,inside,behind⟩ := ih passed
      refine ⟨⟨n + 1,t,m⟩ :: inner,l,e,s,i,o,outer,by rw [same,List.cons_append],?_,behind⟩
      exact List.forall_mem_cons.mpr ⟨⟨other,passed⟩,inside⟩
    · refine ⟨[],n,e,s,i,m,stages,rfl,fun _ h => absurd h List.not_mem_nil,?_⟩
      have resumes := (((balanced n).evaluate e).resumes.ok tested).trans ends.resumes
      rw [resumes.back_eq]
      exact loop_of_body tested truthy ends
    · have admitted := (signals n).executeAll (Routine.Obeys.body surrounded) _ _ _ ends
      rcases jump with rfl | rfl <;> cases admitted

omit founded holds in
theorem Stage.Active.returns {x : Value} (ends : stage.Ends (some (.return x)) k) :
    EndsInCall stages x k := by
  induction active generalizing k with
  | itself => cases ends.admitted obeys
  | @asked stages n t m u j active asks ih =>
    have gives := gives_of_asks asks
    have further : Stage.Ends ⟨n + 1,t,m⟩ (some (.return x)) (k.back m) →
        EndsInCall (⟨n + 1,t,m⟩ :: stages) x k := fun passed => by
      obtain ⟨inner,l,r,c,xs,o,outer,same,inside,behind⟩ := ih passed
      exact ⟨⟨n + 1,t,m⟩ :: inner,l,r,c,xs,o,outer,by rw [same,List.cons_append],
        List.forall_mem_cons.mpr ⟨passed,inside⟩,behind⟩
    rcases signal_passes gives ends with passed | ⟨e,s,i,_,rfl,rfl,tested,truthy⟩ | ⟨r,c,xs,rfl,rfl,answers⟩
    · exact further passed
    · refine further ?_
      have resumes := (((balanced n).evaluate e).resumes.ok tested).trans ends.resumes
      rw [resumes.back_eq]
      exact loop_of_body tested truthy ends
    · exact ⟨[],n,r,c,xs,m,stages,rfl,fun _ h => absurd h List.not_mem_nil,answers x rfl⟩

end
end Lox
