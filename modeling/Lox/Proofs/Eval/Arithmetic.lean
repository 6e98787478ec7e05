import Lox.Proofs.Eval.Uniform
import Lox.Proofs.Heap.Thresholds

/-! # Arithmetic

No evaluation breaks off on arithmetic, unless a collection has left the heap with a live count for which
there is no next threshold. So none does where the heap never collects of its own accord.
-/
namespace Lox
open Machine Exec

/-- A computation that breaks off on arithmetic leaves an overgrown heap behind, which collects of its own
accord. -/
def Exec.Measured {α : Type} (x : Exec α) : Prop := ∀ m f k, x m = .error (.fault f) k →
  f.isArithmetic → (∃ e, f = .threshold e) ∧ k.heap.Overgrown ∧ k.heap.rules.automatic

section
variable {α β : Type}

theorem measured_never {x : Exec α} (never : ∀ m f k, x m = .error (.fault f) k → f.isArithmetic = false) :
    Measured x := fun m f k failed broken => by
  rw [never m f k failed] at broken
  cases broken

theorem Exec.Measured.bind {x : Exec α} {f : α → Exec β} (hx : Measured x) (hf : ∀ a, Measured (f a)) :
    Measured (x >>= f) := fun m e k failed broken => by
  rcases bind_eq_error failed with first | ⟨a,l,-,later⟩
  · exact hx m e k first broken
  · exact hf a l e k later broken

/-- What stands in a bracket that leaves the heap alone. -/
theorem Exec.Measured.bracket {x : Exec α} (h : Measured x) (into : Machine → Machine)
    (back : Machine → Machine → Machine) (same : ∀ m k, (back m k).heap = k.heap) :
    Measured fun m => afterwards x (back m) (into m) := fun m e k failed broken => by
  simp only [afterwards] at failed
  split at failed
  · cases failed
  · next inner =>
    cases failed
    rw [same]
    exact h _ _ _ inner broken

theorem measured_onHeap (pos : Pos) {op : HeapM Value α} {C : RuntimeError.Cause → Prop}
    (tame : Heap.TameM C op) :
    Measured (onHeap pos op) := measured_never fun m f k failed => by
  simp only [onHeap] at failed
  split at failed
  · cases failed
  · next e heap spoiled =>
    cases tame _ _ _ spoiled with
    | fault f calm =>
      cases failed
      exact calm
    | cause => cases failed

theorem measured_registerObject (r : Ref) : Measured (registerObject r) := fun m f k failed broken => by
  have grows := Heap.grows_register r (if m.heap.due then m.roots else []) m.heap
  simp only [registerObject] at failed
  split at failed
  · cases failed
  · next e heap spoiled =>
    cases e with
    | cause c => cases failed
    | fault g =>
      simp only [Failure.halt] at failed
      cases failed
      obtain ⟨strained,grown⟩ := Heap.overgrown_register spoiled broken
      rw [spoiled] at grows
      have automatic : heap.rules.automatic := grows.rules ▸ Heap.automatic_of_register spoiled broken
      refine ⟨strained,?_⟩
      simp only [logJournal]
      split <;> exact ⟨grown,automatic⟩

theorem uniform_measured (E : Evaluator) :
    Uniform (fun _ => True) fun {α} (x : Evaluator → Exec α) => Measured (x E) where
  pure _ := measured_never fun _ _ _ failed => nomatch failed
  raise _ _ := measured_never fun _ _ _ failed => nomatch failed
  fault f calm := measured_never fun _ _ _ failed => by
    cases failed
    exact calm
  bind hx hf := .bind hx hf
  seeing h m := h m.sight m
  onHeap pos _ tame := measured_onHeap pos tame
  register r := measured_registerObject r
  tick := measured_never fun m _ _ failed => by
    simp only [tick] at failed
    split at failed <;> cases failed
  log _ := measured_never fun _ _ _ failed => nomatch failed
  keep _ := measured_never fun _ _ _ failed => nomatch failed
  print _ := measured_never fun _ _ _ failed => nomatch failed
  clock := measured_never fun _ _ _ failed => nomatch failed
  releasing h := h.bracket id (fun m k => { k with temps := m.temps }) fun _ _ => rfl
  inEnvironment r _ h := h.bracket (fun m => { m with current := r, saved := m.current :: m.saved })
    (fun m k => { k with current := m.current, saved := m.saved }) fun _ _ => rfl

theorem measured_enter {E : Evaluator} (give : ∀ t, Measured (E t)) (paren : Pos) (f : Value)
    (xs : List Value) : Measured (E.enter paren f xs) := by
  have u := uniform_measured E
  have entered : Measured (enterCall paren) := measured_never fun m e k failed => by
    simp only [enterCall] at failed
    split at failed <;> cases failed
  exact entered.bind fun _ => (Measured.bind (u.traceCall f) fun _ => give (.call f xs)).bracket
    (fun m => { m with frames := f :: m.frames })
    (fun m k => { k with frames := m.frames, calls := k.calls.exit }) fun _ _ => rfl

theorem measured_perform {E : Evaluator} (give : ∀ t, Measured (E t)) (t : Task) : Measured (t.perform E) := by
  have u := uniform_measured E
  refine u.perform give t.raisesIn_all fun callee paren args here => ?_
  simp only [perform_call]
  have released : Measured (releasing (E.prepare callee paren args >>= fun p =>
      E.enter paren p.1 p.2)) :=
    u.releasing (x := fun E => E.prepare callee paren args >>= fun p => E.enter paren p.1 p.2)
      (.bind (u.prepare give here) fun p => measured_enter give paren p.1 p.2)
  exact .bind u.tick fun _ => .bind (u.trace _ _) fun _ => .bind (u.trace _ _) fun _ => released

theorem measured (n : Nat) (t : Task) : Measured (evaluator n t) := by
  induction n generalizing t with
  | zero =>
    cases t with
    | declareClass name base rs => exact (uniform_measured (evaluator 0)).declareClass name base rs
    | _ => exact measured_never fun _ _ _ failed => nomatch failed
  | succ n ih =>
    rw [evaluator_succ]
    exact measured_perform ih t

theorem measured_executeProgram (n : Nat) (p : Program) : Measured (executeProgram n p) := by
  induction p with
  | nil => exact measured_never fun _ _ _ failed => nomatch failed
  | cons s rest ih => exact .bind (measured n (.execute s)) fun _ => ih

end
end Lox
