import Lox.Proofs.Eval.CopiedTasks
import Lox.Proofs.Eval.Safety
import Lox.Proofs.Heap.Respelled

/-! # Tasks that fit

A machine is a copy of itself if what it deals with has the roles of a world. Whatever a task that
fits asks for fits too: a task that does not would make the whole break off in a way in which no
task on a copy does. Environments are known to be made for what some task of a history opens them
for, where a history holds every task that one of its tasks asks for.
-/
namespace Lox
open Machine Exec

namespace Guise

/-- Copies that look like the originals. -/
def plainly (use : Context → Expr → Prop) (made : Ref → Origin → Prop) : Guise where
  move := id
  ascending := strictMono_id
  spelling := .asWritten
  plain _ := rfl
  this _ := rfl
  super _ := rfl
  use
  named _ := True
  assigned _ := trivial
  made

end Guise

namespace Copying

/-- A way of copying that changes nothing, with what is asked for of programs and environments. -/
def known (use : Context → Expr → Prop) (made : Ref → Origin → Prop) : Copying :=
  inPlace (.plainly use made) fun _ => rfl

variable {use : Context → Expr → Prop} {made : Ref → Origin → Prop} {W : World} {Γ : Context}
  {m k : Machine}

theorem ref_known : (known use made).ref = id := rfl

theorem value_known : (known use made).value = id := funext (Guise.value_eq fun _ => rfl)

theorem copy_known (R : Role) (o : Object Value) : (Guise.plainly use made).copy R o = o := by
  have values : (Guise.plainly use made).value = id := funext (Guise.value_eq fun _ => rfl)
  have refs : (Guise.plainly use made).ref = id := rfl
  have names : ∀ f : Frame, ⇑((Guise.plainly use made).spelling.inScope f.origin) = id :=
    fun _ => rfl
  have routines : ∀ os r, Routine.respell (Guise.plainly use made).spelling os r = r :=
    Routine.respell_asWritten
  cases R <;> cases o <;> simp [Guise.copy,refs,values,names,routines]

theorem Expr.respell_known (os : List Origin) (e : Expr) :
    e.respell (known use made).spelling os = e := e.respell_asWritten os

theorem respellArguments_known (os : List Origin) (es : List Expr) :
    respellArguments (known use made).spelling os es = es := respellArguments_asWritten os es

theorem Stmt.respell_known (os : List Origin) (s : Stmt) :
    s.respell (known use made).spelling os = s := s.respell_asWritten os

theorem Routine.respell_known (os : List Origin) (r : Routine) :
    r.respell (known use made).spelling os = r := r.respell_asWritten os

theorem respellAll_known (os : List Origin) (ss : List Stmt) :
    respellAll (known use made).spelling os ss = ss := respellAll_asWritten os ss

theorem respellMethods_known (os : List Origin) (rs : List Routine) :
    respellMethods (known use made).spelling os rs = rs := respellMethods_asWritten os rs

theorem respell_option_known (os : List Origin) (e : Option Expr) :
    e.map (·.respell (known use made).spelling os) = e := by
  simp only [Expr.respell_known,Option.map_id']

theorem eq_of_heaps {h g : Heap Value} (held : (known use made).heaps W h g) : g = h := by
  have cells : g.cells = h.cells := Array.ext_getElem? fun i => by
    have like := held.1.cells i
    generalize h.cells[i]? = c,g.cells[i]? = d at like
    cases like with
    | none => rfl
    | @some c d like =>
      have object : d.object = c.object := by
        have related := like.object
        simp only [Guise.related] at related
        split at related
        · exact related
        · exact related.1.trans (copy_known _ _)
      cases c
      cases d
      simpa using ⟨object,like.slot,like.marked,like.freed⟩
  rw [held.1.rest,cells]

/-- The copy is the machine itself. -/
theorem Pair.eq_known (pair : (known use made).Pair W Γ m k) : k = m := by
  have refs : (known use made).ref = id := rfl
  have heap := eq_of_heaps pair.heaps
  have globals := pair.globals_eq
  have current := pair.current_eq
  have worlds := pair.worlds_eq trivial
  have saved := pair.saved_eq
  have temps := pair.temps_eq
  have frames := pair.frames_eq
  have calls := pair.calls_eq trivial
  have level := pair.level_eq
  have steps := pair.steps_eq
  have clock := pair.clock_eq
  have output := pair.output_eq
  have log := pair.log_eq ⟨trivial,rfl⟩
  rw [value_known,List.map_id] at temps frames
  rw [refs,List.map_id] at saved
  cases k
  subst heap globals current worlds saved temps frames calls level steps clock output log
  rfl

end Copying

/-- What a task is about fits the environment at hand and is known to be what it has to be. -/
def Task.Fits (C : Copying) (W : World) (Γ : Context) : Task → Prop
  | .evaluate e => e.Fits (C.use Γ) Γ
  | .evaluateAll es => ArgumentsFit (C.use Γ) Γ es
  | .call f xs => W.Holds f ∧ (∀ x ∈ xs, W.Holds x) ∧ W.Takes f xs.length
  | .callFunction f xs => W.IsFunction f xs.length ∧ ∀ x ∈ xs, W.Holds x
  | .callBound f r xs => W.IsMethod f xs.length ∧ W.IsObject r ∧ ∀ x ∈ xs, W.Holds x
  | .instantiate c xs => W.IsClass c xs.length ∧ ∀ x ∈ xs, W.Holds x
  | .invoke r closure xs => ∃ e Θ, closure = some e ∧ W.Provides e Θ ∧
      r.Fits C.spelling C.use (Θ.ofRoutine r) ∧ r.arity = xs.length ∧ ∀ x ∈ xs, W.Holds x
  | .execute s => s.Fits C.spelling C.use Γ
  | .executeAll ss => BodyFits C.spelling C.use Γ ss
  | .loop e s i => e.Fits (C.use Γ) Γ ∧ s.Fits C.spelling C.use Γ ∧ ∀ e ∈ i, e.Fits (C.use Γ) Γ
  | .declareClass name superclass rs =>
    C.spelling.own Γ.origins name.text = name.text ∧
      MethodsFit C.spelling C.use ((Γ.declare name.text).ofClass name superclass) rs ∧
      ∀ c ∈ superclass, ∃ n, W.IsClass c n

/-- An answer and its copy. -/
def Task.Copied (C : Copying) : (t : Task) → World → t.Answer → t.Answer → Prop
  | .evaluate _ | .call _ _ | .callFunction _ _ | .callBound _ _ _ | .instantiate _ _
  | .invoke _ _ _ => C.Copied
  | .evaluateAll _ => C.CopiedAll
  | .execute _ | .executeAll _ | .loop _ _ _ => C.Signalled
  | .declareClass _ _ _ => fun _ _ _ => True

/-- The context behind a task. -/
def Task.leaves (Γ : Context) : Task → Context
  | .execute s => Γ.afterStmt s
  | .declareClass name _ _ => Γ.declare name.text
  | _ => Γ

namespace Copying

theorem Ends.unbroken {C : Copying} {α : Type} {W : World} {rel : World → α → α → Prop}
    {post : α → Context} {x y : EStateM.Result Halt Machine α} (ends : C.Ends W rel post x y)
    (m : Machine) : x ≠ .error (.fault .unresolved) m := by
  rintro rfl
  cases ends with
  | error _ halts _ =>
    generalize e : Halt.fault .unresolved = h at halts
    cases halts with
    | failure pos fails =>
      cases fails with
      | fault scoping =>
        cases e
        cases scoping
      | cause => cases e
      | undefined => cases e
    | cut => cases e

section
variable (use : Context → Expr → Prop) (made : Ref → Origin → Prop)

/-- A machine that can perform a task, for all that is known. -/
def Ready (t : Task) (m : Machine) : Prop :=
  ∃ W Γ, t.Fits (known use made) W Γ ∧ (known use made).Pair W Γ m m

variable {use made} {W : World} {Γ : Context} {m k : Machine} {E : Evaluator} {t : Task}

theorem Faithful.ends_perform (h : (known use made).Faithful E)
    (fits : t.Fits (known use made) W Γ) (allows : t.Starts 1 m → (known use made).Allows t m)
    (pair : (known use made).Pair W Γ m m) :
    (known use made).Ends W (t.Copied (known use made)) (fun _ => t.leaves Γ) (t.perform E m)
      (t.perform E m) := by
  cases t with
  | evaluate e =>
    have ends := h.evaluate_perform fits pair
    rwa [Expr.respell_known] at ends
  | evaluateAll es =>
    have ends := h.evaluateAll_perform fits pair
    rwa [respellArguments_known] at ends
  | call f xs =>
    have ends := h.call_perform fits.1 fits.2.1 fits.2.2 pair
    rwa [value_known,List.map_id] at ends
  | callFunction f xs =>
    have ends := h.callFunction_perform fits.1 fits.2 pair
    rwa [value_known,List.map_id] at ends
  | callBound f r xs =>
    have ends := h.callBound_perform fits.1 fits.2.1 fits.2.2 (allows Nat.one_pos) pair
    rwa [value_known,List.map_id] at ends
  | instantiate c xs =>
    have ends := h.instantiate_perform fits.1 fits.2 pair
    rwa [value_known,List.map_id] at ends
  | invoke r closure xs =>
    obtain ⟨e,Θ,rfl,around,fits,arity,hold⟩ := fits
    have ends := h.invoke_perform around fits arity hold (allows Nat.one_pos) pair
    rwa [value_known,List.map_id,Routine.respell_known] at ends
  | execute s =>
    have ends := h.execute_perform fits (fun left => allows ⟨Nat.one_pos,left⟩) pair
    rwa [Stmt.respell_known] at ends
  | executeAll ss =>
    have ends := h.executeAll_perform fits pair
    rwa [respellAll_known] at ends
  | loop e s i =>
    have ends := h.loop_perform fits.1 fits.2.1 fits.2.2 pair
    rwa [Expr.respell_known,Stmt.respell_known,respell_option_known] at ends
  | declareClass name superclass rs =>
    have made : superclass.isSome →
        (known use made).made ⟨m.heap.cells.size⟩ (.superclass name) := fun some => by
      cases superclass with
      | none => cases some
      | some c => exact allows trivial _ rfl
    have ends := ends_declareClass fits.1 fits.2.1 fits.2.2 made pair
    rwa [respellMethods_known,ref_known,Option.map_id] at ends

theorem faithful_of_tasks (all : ∀ t W Γ m, t.Fits (known use made) W Γ →
    (known use made).Pair W Γ m m → (known use made).Ends W (t.Copied (known use made))
      (fun _ => t.leaves Γ) (E t m) (E t m)) : (known use made).Faithful E := by
  constructor
  case evaluate =>
    intro W Γ e m k fits pair
    obtain rfl := pair.eq_known
    rw [Expr.respell_known]
    exact all (.evaluate e) W Γ _ fits pair
  case evaluateAll =>
    intro W Γ es m k fits pair
    obtain rfl := pair.eq_known
    rw [respellArguments_known]
    exact all (.evaluateAll es) W Γ _ fits pair
  case call =>
    intro W Γ f xs m k hf hxs takes pair
    obtain rfl := pair.eq_known
    rw [value_known,List.map_id]
    exact all (.call f xs) W Γ _ ⟨hf,hxs,takes⟩ pair
  case callFunction =>
    intro W Γ f xs m k hf hxs pair
    obtain rfl := pair.eq_known
    rw [value_known,List.map_id]
    exact all (.callFunction f xs) W Γ _ ⟨hf,hxs⟩ pair
  case callBound =>
    intro W Γ f r xs m k hf hr hxs pair
    obtain rfl := pair.eq_known
    rw [value_known,List.map_id]
    exact all (.callBound f r xs) W Γ _ ⟨hf,hr,hxs⟩ pair
  case instantiate =>
    intro W Γ c xs m k hc hxs pair
    obtain rfl := pair.eq_known
    rw [value_known,List.map_id]
    exact all (.instantiate c xs) W Γ _ ⟨hc,hxs⟩ pair
  case invoke =>
    intro W Γ Θ r closure xs m k around fits arity hxs pair
    obtain rfl := pair.eq_known
    rw [value_known,List.map_id,Routine.respell_known]
    exact all (.invoke r (some closure) xs) W Γ _ ⟨_,Θ,rfl,around,fits,arity,hxs⟩ pair
  case execute =>
    intro W Γ s m k fits pair
    obtain rfl := pair.eq_known
    rw [Stmt.respell_known]
    exact all (.execute s) W Γ _ fits pair
  case executeAll =>
    intro W Γ ss m k fits pair
    obtain rfl := pair.eq_known
    rw [respellAll_known]
    exact all (.executeAll ss) W Γ _ fits pair
  case loop =>
    intro W Γ e s i m k condition body increment pair
    obtain rfl := pair.eq_known
    rw [Expr.respell_known,Stmt.respell_known,respell_option_known]
    exact all (.loop e s i) W Γ _ ⟨condition,body,increment⟩ pair
  case declareClass =>
    intro W Γ name superclass rs m k keeps fit classes pair
    obtain rfl := pair.eq_known
    rw [respellMethods_known,ref_known,Option.map_id]
    exact all (.declareClass name superclass rs) W Γ _ ⟨keeps,fit,classes⟩ pair

variable (use made) in
/-- Tasks with their bounds and machines, among them all that they ask for. The environments that
they open have been made for what they open them for. -/
structure History (H : Nat → Task → Machine → Prop) : Prop where
  asks {n t m u j} : H (n + 1) t m → Asks (fun E => t.perform E m) (evaluator n) u j → H n u j
  opens {n t m} : H n t m → t.Starts n m → (known use made).Allows t m

variable (use made) in
/-- The evaluator as far as a history goes, if what it is given fits. -/
noncomputable abbrev within (H : Nat → Task → Machine → Prop) (n : Nat) : Evaluator :=
  (evaluator n).confined (H n) (Ready use made) (.fault .unresolved)

namespace History
variable {H : Nat → Task → Machine → Prop} (history : History use made H) {n : Nat}
include history

theorem allows (arose : H (n + 1) t m) (starts : t.Starts 1 m) : (known use made).Allows t m := by
  refine history.opens arose ?_
  cases t with
  | evaluate | execute => exact ⟨Nat.succ_pos n,starts.2⟩
  | declareClass => trivial
  | _ => exact Nat.succ_pos n

omit history in
theorem ends_within (fits : t.Fits (known use made) W Γ) (pair : (known use made).Pair W Γ m m)
    {rel : World → t.Answer → t.Answer → Prop} {post : t.Answer → Context}
    (ends : H n t m → (known use made).Ends W rel post (evaluator n t m) (evaluator n t m)) :
    (known use made).Ends W rel post (within use made H n t m) (within use made H n t m) := by
  have ready : Ready use made t m := ⟨W,Γ,fits,pair⟩
  by_cases arose : H n t m
  · simp only [within,Evaluator.confined,if_pos ready,if_pos arose]
    exact ends arose
  · simp only [within,Evaluator.confined,if_pos ready,if_neg arose]
    exact .error (.refl W) .cut pair

/-- What a task in the history asks for on the next level fits if the task does. -/
theorem confines (h : (known use made).Faithful (within use made H n)) (ready : Ready use made t m)
    (arose : H (n + 1) t m) : evaluator (n + 1) t m = t.perform (within use made H n) m ∧
      ∀ u j, Asks (fun E => t.perform E m) (evaluator n) u j → Ready use made u j := by
  have allows := history.allows arose
  obtain ⟨W,Γ,fits,pair⟩ := ready
  have ends := h.ends_perform fits allows pair
  have confined := (orderly_perform t m).confined (fun u j => history.asks arose) ends.unbroken
  exact ⟨(evaluator_succ n t ▸ confined.1.symm : _),confined.2⟩

theorem faithful_within (n : Nat) : (known use made).Faithful (within use made H n) := by
  induction n with
  | zero =>
    refine faithful_of_tasks fun t W Γ m fits pair => ends_within fits pair fun arose => ?_
    cases t with
    | declareClass name superclass rs =>
      have made : superclass.isSome →
          (known use made).made ⟨m.heap.cells.size⟩ (.superclass name) := fun some => by
        cases superclass with
        | none => cases some
        | some c => exact history.opens arose trivial _ rfl
      have ends := ends_declareClass fits.1 fits.2.1 fits.2.2 made pair
      rwa [respellMethods_known,ref_known,Option.map_id] at ends
    | _ => exact .error (.refl W) .cut pair
  | succ n ih =>
    refine faithful_of_tasks fun t W Γ m fits pair => ends_within fits pair fun arose => ?_
    rw [(history.confines ih ⟨W,Γ,fits,pair⟩ arose).1]
    exact ih.ends_perform fits (history.allows arose) pair

/-- Whatever a task that fits asks for fits too. -/
theorem ready_of_asks {u : Task} {j : Machine} (arose : H (n + 1) t m) (ready : Ready use made t m)
    (asks : Asks (fun E => t.perform E m) (evaluator n) u j) : Ready use made u j :=
  (history.confines (history.faithful_within n) ready arose).2 u j asks

end History

end

end Copying
end Lox
