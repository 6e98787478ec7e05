import Lox.Eval
import Lox.Proofs.Heap.Growth

/-! # Balance

However an evaluation ends, it leaves the stacks of its machine as it found them: the environment,
those to return to, the callees, the depth of calls and the values in use. The list of arguments
alone leaves its values in use, for the call that follows. Every expression and statement that
comes to an end has used up a step.
-/
namespace Lox

namespace Machine

/-- What stays the same through every evaluation. Values in use may have been added. -/
structure Carries (m k : Machine) : Prop where
  heap : Heap.Grows m.heap k.heap
  globals : k.globals = m.globals
  current : k.current = m.current
  worlds : k.worlds = m.worlds
  saved : k.saved = m.saved
  frames : k.frames = m.frames
  level : k.level = m.level
  limit : k.calls.limit = m.calls.limit
  depth : k.calls.depth = m.calls.depth
  steps : k.steps ≤ m.steps
  temps : m.temps <:+ k.temps

/-- The machine is as balanced as it was. -/
structure Resumes (m k : Machine) : Prop extends Carries m k where
  temps_eq : k.temps = m.temps

instance : IsPreorder Machine Carries where
  refl _ := ⟨Std.Refl.refl _,rfl,rfl,rfl,rfl,rfl,rfl,rfl,rfl,Nat.le_refl _,List.suffix_refl _⟩
  trans _ _ _ mk kl :=
    ⟨IsTrans.trans _ _ _ mk.heap kl.heap,kl.globals.trans mk.globals,kl.current.trans mk.current,
      kl.worlds.trans mk.worlds,kl.saved.trans mk.saved,kl.frames.trans mk.frames,
      kl.level.trans mk.level,kl.limit.trans mk.limit,kl.depth.trans mk.depth,
      Nat.le_trans kl.steps mk.steps,mk.temps.trans kl.temps⟩

instance : IsPreorder Machine Resumes where
  refl m := ⟨Std.Refl.refl m,rfl⟩
  trans _ _ _ mk kl := ⟨IsTrans.trans _ _ _ mk.toCarries kl.toCarries,kl.temps_eq.trans mk.temps_eq⟩

theorem Carries.refl (m : Machine) : Carries m m := Std.Refl.refl m

theorem Resumes.refl (m : Machine) : Resumes m m := Std.Refl.refl m

theorem Carries.trans {m k l : Machine} (mk : Carries m k) (kl : Carries k l) : Carries m l :=
  IsTrans.trans _ _ _ mk kl

theorem Resumes.trans {m k l : Machine} (mk : Resumes m k) (kl : Resumes k l) : Resumes m l :=
  IsTrans.trans _ _ _ mk kl

theorem resumes_logJournal (m : Machine) : Resumes m m.logJournal := by
  simp only [logJournal]
  split
  · exact .refl m
  · exact ⟨⟨⟨Nat.le_refl _,rfl,id,Heap.slots_of_eq (fun _ => rfl) rfl⟩,rfl,rfl,rfl,rfl,rfl,rfl,rfl,rfl,Nat.le_refl _,
      List.suffix_refl _⟩,rfl⟩

theorem Resumes.of_heap {m : Machine} {heap : Heap Value} (grows : Heap.Grows m.heap heap) :
    Resumes m { m with heap } :=
  ⟨⟨grows,rfl,rfl,rfl,rfl,rfl,rfl,rfl,rfl,Nat.le_refl _,List.suffix_refl _⟩,rfl⟩

end Machine

namespace Exec
open Machine
variable {α β : Type} {R : Machine → Machine → Prop}

/-- However a computation ends, the machine it leaves is in a relation to the one it had. -/
def Leads (R : Machine → Machine → Prop) (x : Exec α) : Prop := ∀ m, R m (stateAfter (x m))

theorem Leads.ok {x : Exec α} (h : Leads R x) {m k : Machine} {a : α} (e : x m = .ok a k) :
    R m k := by
  have := h m
  rwa [e] at this

theorem Leads.error {x : Exec α} (h : Leads R x) {m k : Machine} {t : Halt}
    (e : x m = .error t k) : R m k := by
  have := h m
  rwa [e] at this

theorem Leads.carries {x : Exec α} (h : Leads Resumes x) : Leads Carries x :=
  fun m => (h m).toCarries

theorem bind_eq_ok {x : Exec α} {f : α → Exec β} {m k : Machine} {b : β} :
    (x >>= f) m = .ok b k ↔ ∃ a l, x m = .ok a l ∧ f a l = .ok b k := by
  simp only [Bind.bind,EStateM.bind]
  cases x m with
  | ok a l => exact ⟨fun e => ⟨a,l,rfl,e⟩,fun ⟨_,_,e,e'⟩ => by cases e; exact e'⟩
  | error t l => exact ⟨(nomatch ·),fun ⟨_,_,e,_⟩ => nomatch e⟩

section
variable [IsPreorder Machine R]

theorem Leads.of_eq {x : Exec α} (h : ∀ m, stateAfter (x m) = m) : Leads R x := fun m => by
  rw [h m]
  exact Std.Refl.refl m

theorem Leads.pure (a : α) : Leads R (pure a : Exec α) := .of_eq fun _ => rfl

theorem Leads.throw (t : Halt) : Leads R (throw t : Exec α) := .of_eq fun _ => rfl

theorem Leads.bind {x : Exec α} {f : α → Exec β} (hx : Leads R x) (hf : ∀ a, Leads R (f a)) :
    Leads R (x >>= f) := fun m => by
  have first := hx m
  simp only [Bind.bind,EStateM.bind]
  cases e : x m with
  | ok a k => rw [e] at first; exact IsTrans.trans _ _ _ first (hf a k)
  | error t k => rw [e] at first; exact first

end

theorem Leads.map (f : α → β) {x : Exec α} (h : Leads R x) : Leads R (f <$> x) := fun m => by
  have first := h m
  simp only [Functor.map,EStateM.map]
  cases e : x m with
  | ok a k => rwa [e] at first
  | error t k => rwa [e] at first

theorem stateAfter_afterwards (x : Exec α) (f : Machine → Machine) (m : Machine) :
    stateAfter (afterwards x f m) = f (stateAfter (x m)) := by
  simp only [afterwards]
  cases x m <;> rfl

theorem Leads.releasing {x : Exec α} (h : Leads Carries x) : Leads Resumes (releasing x) :=
  fun m => by
    have c := h m
    rw [Exec.releasing,stateAfter_afterwards]
    exact ⟨{ c with temps := List.suffix_refl _ },rfl⟩

theorem leads_keep (x : Value) : Leads Carries (keep x) := fun m =>
  { Carries.refl m with temps := List.suffix_cons x m.temps }

theorem Leads.keeping (v : Value) {x : Exec α} (h : Leads Carries x) :
    Leads Resumes (keeping v x) := .releasing (.bind (leads_keep v) fun _ => h)

theorem Leads.inEnvironment (r : Ref) {x : Exec α} (h : Leads Resumes x) :
    Leads Resumes (inEnvironment r x) := fun m => by
  have c := h { m with current := r, saved := m.current :: m.saved }
  rw [Exec.inEnvironment,stateAfter_afterwards]
  exact ⟨{ c with current := rfl, saved := rfl },c.temps_eq⟩

/-- A call leaves the depth that it found, whether it may be entered or not. -/
theorem Leads.entering (pos : Pos) (callee : Value) {x : Exec α} (h : Leads Carries x) :
    Leads Carries (do enterCall pos; inCall callee x) := fun m => by
  simp only [Bind.bind,EStateM.bind,enterCall]
  cases e : m.calls.enter with
  | mk refused calls =>
    cases refused with
    | some o =>
      have same : calls = { m.calls with refused := m.calls.refused + 1 } := by
        simp only [CallDepth.enter] at e
        split at e
        · exact (Prod.mk.inj e).2.symm
        · exact absurd (Prod.mk.inj e).1 (by simp)
      subst same
      exact { Carries.refl m with limit := rfl, depth := rfl }
    | none =>
      have depth := CallDepth.exit_enter e
      have limit : calls.limit = m.calls.limit := by
        simp only [CallDepth.enter] at e
        split at e
        · exact absurd (Prod.mk.inj e).1 (by simp)
        · rw [← (Prod.mk.inj e).2]
      have c := h { m with calls, frames := callee :: m.frames }
      show Carries m (stateAfter (inCall callee x { m with calls }))
      rw [inCall,stateAfter_afterwards]
      refine { c with frames := rfl, limit := c.limit.trans limit, depth := ?_ }
      rw [← depth]
      exact congrArg (· - 1) c.depth

/-! ## Single operations -/

theorem tick_bind_of_eq_zero {α : Type} (x : Exec α) {m : Machine} (h : m.steps = 0) :
    (do tick; x) m = .error .cut m := by
  simp only [Bind.bind,EStateM.bind,tick,h]

theorem tick_bind_of_eq_succ {α : Type} (x : Exec α) {m : Machine} {s : Nat}
    (h : m.steps = s + 1) : (do tick; x) m = x { m with steps := s } := by
  simp only [Bind.bind,EStateM.bind,tick,h]

theorem leads_onHeap (pos : Pos) {x : HeapM Value α}
    (grows : ∀ h, Heap.Grows h (stateAfter (x h))) : Leads Resumes (onHeap pos x) := fun m => by
  have g := grows m.heap
  simp only [onHeap]
  cases e : x m.heap with
  | ok a heap => rw [e] at g; exact .of_heap g
  | error t heap => rw [e] at g; exact .of_heap g

theorem leads_registerObject (r : Ref) : Leads Resumes (registerObject r) := fun m => by
  have g := Heap.grows_register r (if m.heap.due then m.roots else []) m.heap
  simp only [registerObject]
  cases e : Heap.register r (if m.heap.due then m.roots else []) m.heap with
  | ok slot heap => rw [e] at g; exact (Resumes.of_heap g).trans (resumes_logJournal _)
  | error t heap => rw [e] at g; exact (Resumes.of_heap g).trans (resumes_logJournal _)

theorem leads_allocate (o : Object Value) : Leads Resumes (allocate o) :=
  .bind (leads_onHeap _ (Heap.grows_create o)) fun r =>
    .bind (leads_registerObject r) fun _ => .pure r

theorem leads_define (r : Ref) (name : String) (x : Value) : Leads Resumes (define r name x) :=
  leads_onHeap _ (Heap.grows_define r name x)

theorem leads_trace (level : Level) (message : Unit → String) :
    Leads Resumes (trace level message) := fun m => by
  simp only [trace]
  split <;> exact { Resumes.refl m with }

theorem leads_print (text : String) : Leads Resumes (print text) := fun m =>
  { Resumes.refl m with }

theorem leads_readClock : Leads Resumes readClock := fun m => { Resumes.refl m with }

theorem leads_currentEnvironment : Leads Resumes currentEnvironment := .of_eq fun _ => rfl

theorem leads_reading (pos : Pos) (f : Heap Value → Except Failure α) :
    Leads Resumes (reading pos f) := .of_eq fun m => by
  simp only [reading]
  split <;> rfl

end Exec
end Lox
