import Lox.Proofs.Eval.Keeping
import Lox.Proofs.Heap.Allocation
import Lox.Proofs.Heap.Permanence
import Lox.Proofs.Machine.Twins

/-! # Evaluation and what lasts

Programs bind `this` only in a new environment of a call and `super` only in a new environment of a
class. So nothing that lasts is changed by the tasks of a program whose names are ordinary.
-/
namespace Lox
open Machine Exec

/-- The names that a task declares and the variables that it uses are as is asked for. -/
def Task.Named (ok : String → Prop) : Task → Prop
  | .evaluate e => e.Named ok
  | .evaluateAll es => ArgumentsNamed ok es
  | .invoke r _ _ => r.Named ok
  | .execute s => s.Named ok
  | .executeAll ss => BodyNamed ok ss
  | .loop e s i => e.Named ok ∧ s.Named ok ∧ ∀ d ∈ i, d.Named ok
  | .declareClass name _ rs => ok name.text ∧ MethodsNamed ok rs
  | _ => True

theorem MethodsNamed.mem {ok : String → Prop} {rs : List Routine} (named : MethodsNamed ok rs) {r : Routine}
    (hr : r ∈ rs) : r.Named ok := by
  induction rs with
  | nil => cases hr
  | cons q rest ih => exact (List.mem_cons.mp hr).elim (fun e => e ▸ named.1) (ih named.2)

theorem Routine.Named.name {ok : String → Prop} {r : Routine} (named : r.Named ok) : ok r.name.text := by
  cases r
  exact named.1

theorem Routine.Named.params {ok : String → Prop} {r : Routine} (named : r.Named ok) :
    ∀ p ∈ r.params, ok p.text := by
  cases r
  exact named.2.1

theorem Routine.Named.body {ok : String → Prop} {r : Routine} (named : r.Named ok) : BodyNamed ok r.body := by
  cases r
  exact named.2.2

/-- What a task asks for has names of the same kind, if the functions of the heap do. -/
theorem Task.Gives.named {ok : String → Prop} {E : Evaluator} {t u : Task} {m j : Machine}
    (gives : t.Gives E m u j) (heap : m.heap.Routines (Routine.Named ok)) (named : t.Named ok) :
    u.Named ok := by
  cases gives with
  | plain found | method found => exact heap _ _ (Heap.function_eq_ok found) _ _ rfl
  | content => exact Routine.Named.body named
  | @condition _ _ _ _ _ no | @yes _ _ _ _ _ no =>
    cases no with
    | none => first | exact named.1 | exact named.2.1
    | some no => first | exact named.1 | exact named.2.1
  | no => exact named.2.2.2.1
  | rounds => exact ⟨named.1,named.2.1,named.2.2.2⟩
  | initial => exact named.2 _ rfl
  | returned => exact named _ rfl
  | superclass => exact named.2.1 _ rfl
  | declared | derived => exact ⟨named.1,named.2.2⟩
  | body => exact named.2.1
  | increment => exact named.2.2 _ rfl
  | _ => first | trivial | exact named | exact named.1 | exact named.2

/-! ## New environments -/

/-- A new environment that binds one name. -/
def environmentWith (enclosing : Option Ref) (name : String) (x : Value) : Exec Ref := do
  let env ← newEnvironment enclosing
  define env name x
  return env

theorem receiverEnvironment_eq (closure : Option Ref) (receiver : Ref) :
    receiverEnvironment closure receiver = environmentWith closure "this" (.object receiver) := rfl

theorem methodEnvironment_some (c : Ref) : methodEnvironment (some c) = (do
    let env ← currentEnvironment
    let inner ← environmentWith (some env) "super" (.object c)
    keep (.object inner)
    return inner) := by
  simp only [methodEnvironment,environmentWith,bind_assoc,pure_bind]

theorem allocate_eq_ok {o : Object Value} {r : Ref} {m k : Machine} (e : allocate o m = .ok r k) :
    r = ⟨m.heap.cells.size⟩ := by
  rw [allocate_eq,Heap.place_eq] at e
  split at e
  · next placed =>
    split at placed
    · cases placed
      cases e
      rfl
    · cases placed
  · cases e

section
variable (E : Evaluator) (h : Heap Value)

theorem stable_lasts : Heap.Stable h.Lasts :=
  fun _ _ tidied lasts => lasts.trans (Heap.lasts_of_tidied tidied)

theorem keeps_lasts_allocate (o : Object Value) : Keeps h.Lasts E fun _ => allocate o :=
  (stable_lasts h).allocate fun k lasts => lasts.trans (Heap.lasts_create o k)

/-- Whatever is bound in a new environment. -/
theorem keeps_lasts_environmentWith (enclosing : Option Ref) (name : String) (x : Value) :
    Keeps h.Lasts E fun _ => environmentWith enclosing name x := by
  refine keeps_const fun m lasts => ?_
  have made := (keeps_lasts_allocate E h (.environment {} enclosing)).state lasts
  simp only [environmentWith,newEnvironment,Bind.bind,EStateM.bind]
  cases e : allocate (.environment {} enclosing) m with
  | error t k =>
    rw [e] at made
    exact made
  | ok env k =>
    rw [e] at made
    have new : h.cells.size ≤ env.index := allocate_eq_ok e ▸ lasts.size
    simp only [define,onHeap,Heap.define]
    cases k.heap.environment env with
    | error f => exact made
    | ok found => exact made.setObject_new new _

theorem keeps_lasts_newMethods (closure : Ref) (rs : List Routine) (made : Bindings Ref) :
    Keeps h.Lasts E fun _ => newMethods closure rs made :=
  (stable_lasts h).newMethods (fun _ _ _ lasts => lasts.trans (Heap.lasts_create _ _)) made

theorem keeps_lasts_methodEnvironment (superclass : Option Ref) :
    Keeps h.Lasts E fun _ => methodEnvironment superclass := by
  have q := quiet_keeps h.Lasts E
  cases superclass with
  | none => exact q.currentEnvironment.bind fun env => q.pure env
  | some c =>
    rw [methodEnvironment_some]
    exact q.currentEnvironment.bind fun env =>
      (keeps_lasts_environmentWith E h (some env) "super" (.object c)).bind fun inner =>
        (q.keep _).bind fun _ => q.pure inner

end

/-! ## Tasks with ordinary names -/

theorem bindable_lasts {name : String} (ordinary : Ordinary name) (h : Heap Value) :
    Heap.Bindable h.Lasts name := by
  intro k r values enclosing x found lasts
  obtain ⟨c,hc,-,object⟩ := Heap.environment_eq_ok found
  refine lasts.trans (Heap.lasts_setObject fun d hd => ?_)
  cases hc.symm.trans hd
  rw [object]
  exact ordinary.lasts values enclosing x

/-- Tasks with ordinary names change nothing that lasts. -/
theorem stays_lasts (h : Heap Value) (apt : Task → Machine → Prop) :
    Stays h.Lasts (Task.Named Ordinary) apt where
  tidied := stable_lasts h
  environment _ _ lasts := lasts.trans (Heap.lasts_create _ _)
  instanceOf _ _ lasts := lasts.trans (Heap.lasts_create _ _)
  field name x live same lasts := by
    obtain ⟨hc,-⟩ := Heap.live_eq_ok live
    refine lasts.trans (Heap.lasts_setObject fun d hd => ?_)
    cases hc.symm.trans hd
    rw [same]
    exact .instanceOf
  receiver closure r _ lasts :=
    (keeps_lasts_environmentWith (evaluator 0) h closure "this" (.object r)).state lasts
  var named := bindable_lasts named.1 h
  assigned named := bindable_lasts named.1 h
  parameter named hp := bindable_lasts (Routine.Named.params named _ hp) h
  function named := ⟨bindable_lasts (Routine.Named.name named) h,
    fun _ _ lasts => lasts.trans (Heap.lasts_create _ _)⟩
  declared {name superclass rs m} named _ lasts := by
    have q := quiet_keeps h.Lasts (evaluator 0)
    have declares : Keeps h.Lasts (evaluator 0) fun _ => declareClass name superclass rs :=
      (keeps_lasts_methodEnvironment _ h superclass).bind fun env =>
        (keeps_lasts_newMethods _ h env rs {}).bind fun _ =>
          (keeps_lasts_allocate _ h _).bind fun _ => q.currentEnvironment.bind fun env =>
            keeps_define (bindable_lasts named.1 h) env _
    exact declares.state lasts

/-- The routines of a heap have ordinary names. -/
abbrev Heap.Ordinary (h : Heap Value) : Prop := h.Routines (Routine.Named Lox.Ordinary)

theorem stays_ordinary (apt : Task → Machine → Prop) :
    Stays Heap.Ordinary (Task.Named Lox.Ordinary) apt :=
  stays_routines (fun named => named) fun named hr => named.2.mem hr

theorem kept_lasts (h : Heap Value) :
    Kept (fun k => k.Ordinary ∧ h.Lasts k) (Task.Named Ordinary) fun _ _ => True where
  toStays := (stays_ordinary _).and (stays_lasts h _)
  gives gives holds := gives.named holds.1
  asked _ _ _ _ := trivial

end Lox
