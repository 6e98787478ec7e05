import Lox.Proofs.Scope.Jumps
import Lox.Proofs.Session.Keeping

/-! # Signals

A statement signals no more than what surrounds it allows: a jump in a loop, a return in a routine. The
routines of the heap obey the same rules, so what surrounds a statement in its program also surrounds
it while it is executed.
-/
namespace Lox
open Machine Exec

/-! ## Routines that obey -/

/-- The routine of a function obeys the rules on jumps and returns. -/
def Object.Obeys (o : Object Value) : Prop :=
  ∀ routine closure, o = .function routine closure → routine.Obeys

abbrev Heap.Obeys (h : Heap Value) : Prop := h.Every fun _ o => o.Obeys

/-- What a task executes obeys the rules, with what surrounds the task. -/
def Task.Obeys (inLoop inRoutine : Bool) : Task → Prop
  | .invoke r _ _ => r.Obeys
  | .execute s => s.Obeys inLoop inRoutine
  | .executeAll ss => BodyObeys inLoop inRoutine ss
  | .loop _ s _ => s.Obeys true inRoutine
  | .declareClass _ _ methods => MethodsObey methods
  | _ => True

/-- Whether what a task asks for is in a loop, if the task itself is or is not. -/
def Task.inLoop (outside : Bool) : Task → Bool
  | .loop _ _ _ => true
  | .invoke _ _ _ => false
  | _ => outside

def Task.inRoutine (outside : Bool) : Task → Bool
  | .invoke _ _ _ => true
  | _ => outside

theorem Task.Gives.obeys {E : Evaluator} {t u : Task} {m j : Machine} {a b : Bool}
    (gives : t.Gives E m u j) (heap : m.heap.Obeys) (obeys : t.Obeys a b) :
    u.Obeys (t.inLoop a) (t.inRoutine b) := by
  cases gives with
  | plain found | method found => exact heap _ _ (Heap.function_eq_ok found) _ _ rfl
  | content => exact Routine.Obeys.body obeys
  | @yes _ _ _ _ _ no =>
    cases no with
    | none => exact obeys
    | some no => exact obeys.1
  | _ => first | trivial | exact obeys | exact obeys.1 | exact obeys.2

/-- Evaluation makes functions of nothing but routines that obey. -/
theorem kept_obeys : Kept Heap.Obeys (fun t => ∃ a b, t.Obeys a b) fun t m => t.Founded m where
  toStays := stays_routines (P := Routine.Obeys) (fun ⟨_,_,obeys⟩ => obeys)
    fun ⟨_,_,obey⟩ hr => MethodsObey.mem obey hr
  gives gives holds := fun ⟨_,_,obeys⟩ => ⟨_,_,gives.obeys holds obeys⟩
  asked _ _ _ asks := (gives_of_asks asks).founded

theorem BodyObeys.mem {a b : Bool} {ss : List Stmt} (obeys : BodyObeys a b ss) {s : Stmt} (hs : s ∈ ss) :
    s.Obeys a b := by
  induction ss with
  | nil => cases hs
  | cons t rest ih => exact (List.mem_cons.mp hs).elim (fun e => e ▸ obeys.1) (ih obeys.2)

theorem lasting_obeys : Lasting Heap.Obeys fun t => ∃ a b, t.Obeys a b where
  toKept := kept_obeys
  empty := Heap.every_empty
  native f := bindable_routines Routine.Obeys f.name
  compiled clean _ hs := ⟨false,false,(obeys_of_compile clean).mem hs⟩

/-! ## Signals of statements -/

/-- What a statement may answer, with what surrounds it. -/
def Signal.Admitted (inLoop inRoutine : Bool) : Option Signal → Prop
  | none => True
  | some .leave | some .next => inLoop = true
  | some (.return _) => inRoutine = true

section
variable {α β : Type} {P : α → Prop} {Q : β → Prop}

/-- Whatever a computation answers is as is asked for. -/
def Exec.Yields (P : α → Prop) (x : Exec α) : Prop := ∀ m a k, x m = .ok a k → P a

theorem yields_pure {a : α} (h : P a) : Yields P (pure a : Exec α) := fun _ _ _ e => by
  cases e
  exact h

theorem Exec.Yields.bind {x : Exec α} {f : α → Exec β} (hx : Yields P x)
    (hf : ∀ a, P a → Yields Q (f a)) : Yields Q (x >>= f) := fun m b k e => by
  obtain ⟨a,l,first,e⟩ := bind_eq_ok.mp e
  exact hf a (hx m a l first) l b k e

theorem yields_bind {x : Exec α} {f : α → Exec β} (hf : ∀ a, Yields Q (f a)) : Yields Q (x >>= f) :=
  Yields.bind (P := fun _ => True) (fun _ _ _ _ => trivial) fun a _ => hf a

theorem Exec.Yields.afterwards {x : Exec α} (h : Yields P x) (f : Machine → Machine) :
    Yields P (afterwards x f) := fun m a k e => by
  simp only [Exec.afterwards] at e
  split at e
  · next e' =>
    cases e
    exact h m _ _ e'
  · cases e

theorem Exec.Yields.inEnvironment {x : Exec α} (h : Yields P x) (r : Ref) : Yields P (inEnvironment r x) :=
  fun _ => h.afterwards _ _

theorem Exec.Yields.releasing {x : Exec α} (h : Yields P x) : Yields P (releasing x) :=
  fun _ => h.afterwards _ _

end

/-- Statements answer with nothing but the signals that what surrounds them allows, and loops consume
jumps. -/
structure Evaluator.Signals (E : Evaluator) : Prop where
  execute {s a b} : s.Obeys a b → Yields (Signal.Admitted a b) (E (.execute s))
  executeAll {ss a b} : BodyObeys a b ss → Yields (Signal.Admitted a b) (E (.executeAll ss))
  loop {e s i b} : s.Obeys true b → Yields (Signal.Admitted false b) (E (.loop e s i))

theorem Signal.Admitted.in_loop {a b : Bool} {x : Option Signal} (h : Admitted false b x) :
    Admitted a b x := by
  rcases x with _ | _ | _ | _
  · trivial
  · cases h
  · cases h
  · exact h

section
variable {E : Evaluator} (h : E.Signals) {a b : Bool}
include h

theorem Evaluator.Signals.perform_execute {s : Stmt} (obeys : s.Obeys a b) :
    Yields (Signal.Admitted a b) ((Task.execute s).perform E) := by
  refine yields_bind fun _ => yields_bind fun _ => ?_
  cases s with
  | expression => exact yields_bind fun _ => yields_pure trivial
  | print => exact yields_bind fun _ => yields_bind fun _ => yields_bind fun _ => yields_pure trivial
  | var name init =>
    cases init <;> exact yields_bind fun _ => yields_bind fun _ => yields_bind fun _ => yields_pure trivial
  | block pos form body =>
    exact yields_bind fun _ => yields_bind fun _ => yields_bind fun env =>
      (h.executeAll obeys).inEnvironment env
  | branch pos condition yes no =>
    refine yields_bind fun x => ?_
    cases no with
    | none =>
      split
      · exact h.execute obeys
      · exact yields_pure trivial
    | some no =>
      split
      · exact h.execute obeys.1
      · exact h.execute obeys.2
  | loop pos form condition body increment =>
    exact fun m x k e => (h.loop obeys m x k e).in_loop
  | jump pos way => cases way <;> exact yields_pure obeys
  | leave pos value =>
    cases value with
    | none => exact yields_pure obeys
    | some e => exact yields_bind fun x => yields_pure obeys
  | function => exact yields_bind fun _ => yields_bind fun _ => yields_pure trivial
  | klass name superclass methods =>
    refine yields_bind fun _ => Yields.releasing ?_
    cases superclass with
    | none => exact yields_bind fun _ => yields_bind fun _ => yields_pure trivial
    | some r =>
      exact yields_bind fun _ => yields_bind fun _ => yields_bind fun _ => yields_pure trivial

theorem Evaluator.Signals.perform_executeAll {ss : List Stmt} (obeys : BodyObeys a b ss) :
    Yields (Signal.Admitted a b) ((Task.executeAll ss).perform E) := by
  cases ss with
  | nil => exact yields_pure trivial
  | cons s rest =>
    refine (h.execute obeys.1).bind fun x admitted => ?_
    cases x with
    | none => exact h.executeAll obeys.2
    | some signal => exact yields_pure admitted

theorem Evaluator.Signals.perform_loop {e : Expr} {s : Stmt} {i : Option Expr} (obeys : s.Obeys true b) :
    Yields (Signal.Admitted false b) ((Task.loop e s i).perform E) := by
  refine yields_bind fun x => ?_
  split
  · refine (h.execute obeys).bind fun x admitted => ?_
    split
    · exact yields_pure admitted
    · exact yields_pure trivial
    · cases i with
      | none => exact h.loop obeys
      | some i => exact yields_bind fun _ => h.loop obeys
  · exact yields_pure trivial

end

theorem signals (n : Nat) : (evaluator n).Signals := by
  induction n with
  | zero => constructor <;> exact fun _ _ _ _ e => nomatch e
  | succ n ih =>
    constructor
    · intro s a b obeys
      rw [evaluator_succ]
      exact ih.perform_execute obeys
    · intro ss a b obeys
      rw [evaluator_succ]
      exact ih.perform_executeAll obeys
    · intro e s i b obeys
      rw [evaluator_succ]
      exact ih.perform_loop obeys

end Lox
