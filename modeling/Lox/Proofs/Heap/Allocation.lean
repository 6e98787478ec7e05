import Lox.Proofs.Heap.Comparison

/-! # Allocation

A heap is secure for a program that holds some objects if its books are in order, its own objects
refer to nothing else, and it owns what is held. An allocation whose roots and contents are held
either breaks off at a threshold or leaves such a heap: it keeps what the roots hold, puts
the new object in the next slot and changes no contents.
-/
namespace Lox.Heap
variable {ν : Type} [Holder ν]

structure Secure (held : List Ref) (h : Heap ν) : Prop where
  coherent : h.Coherent
  closed : h.Closed
  owned : ∀ r ∈ held, h.isRegistered r

/-- What an object is to a program: all but its mark. -/
def Untouched (h k : Heap ν) (r : Ref) : Prop :=
  k.cells[r.index]?.map Cell.unmark = h.cells[r.index]?.map Cell.unmark

/-- What the registration of an object leaves of a heap. -/
structure Enrolled (h : Heap ν) (r : Ref) (c : Cell ν) (roots : List Ref) (k : Heap ν) : Prop where
  secure : Secure (r :: roots) k
  cell : k.cells[r.index]? = some { c with slot := some h.nextSlot }
  size : k.cells.size = h.cells.size
  nextSlot : k.nextSlot = h.nextSlot + 1
  rules : k.rules = h.rules
  others : ∀ s, k.isRegistered s → s ≠ r → h.isRegistered s ∧ Untouched h k s

/-- What an allocation leaves of a heap. -/
structure Placed (h : Heap ν) (o : Object ν) (roots : List Ref) (k : Heap ν) : Prop where
  secure : Secure (⟨h.cells.size⟩ :: roots) k
  cell : k.cells[h.cells.size]? = some { object := o, slot := some h.nextSlot }
  size : k.cells.size = h.cells.size + 1
  nextSlot : k.nextSlot = h.nextSlot + 1
  rules : k.rules = h.rules
  others : ∀ r, k.isRegistered r → r ≠ ⟨h.cells.size⟩ → h.isRegistered r ∧ Untouched h k r

variable {h : Heap ν} {o : Object ν} {roots : List Ref} {r : Ref} {c : Cell ν}

/-- An object is enrolled in a heap that has been collected or not. -/
theorem enrolled_enroll {k : Heap ν} (own : k.Coherent) (closed : k.Closed)
    (size : k.cells.size = h.cells.size) (cell : k.cells[r.index]? = some c) (new : c.slot = none)
    (nextSlot : k.nextSlot = h.nextSlot) (rules : k.rules = h.rules)
    (held : ∀ s, s ∈ roots ∨ s ∈ c.object.references → k.isRegistered s)
    (others : ∀ s, k.isRegistered s → h.isRegistered s ∧ Untouched h k s) :
    Enrolled h r c roots (k.enroll r) := by
  have owned := own.isRegistered_enroll cell new
  have same : ∀ s : Ref, s ≠ r → (k.enroll r).cells[s.index]? = k.cells[s.index]? := by
    intro s ne
    simp only [enroll,Array.getElem?_modify]
    rw [if_neg]
    rintro e
    exact ne (by cases s; cases r; simp_all)
  have enrolled : (k.enroll r).cells[r.index]? = some { c with slot := some h.nextSlot } := by
    simp [enroll,Array.getElem?_modify,cell,nextSlot]
  refine ⟨⟨own.enroll cell new,?_,?_⟩,enrolled,by simp [enroll,size],by simp [enroll,nextSlot],rules,?_⟩
  · intro t ht s hs
    rw [owned,Bool.or_eq_true]
    by_cases e : t = r
    · subst e
      rw [referencesOf,enrolled] at hs
      exact .inr (held s (.inr hs))
    · rw [owned,decide_eq_false e,Bool.false_or] at ht
      rw [referencesOf,same t e] at hs
      exact .inr (closed t ht s hs)
  · intro s hs
    rw [owned,Bool.or_eq_true]
    rcases List.mem_cons.mp hs with rfl | hs
    · exact .inl (decide_eq_true rfl)
    · exact .inr (held s (.inl hs))
  · intro s hs ne
    rw [owned,decide_eq_false ne,Bool.false_or] at hs
    obtain ⟨old,untouched⟩ := others s hs
    exact ⟨old,by rw [Untouched,same s ne]; exact untouched⟩

/-- What a completed collection leaves of the objects that the heap still owns. -/
theorem Secure.untouched {released : Nat} {k : Heap ν} (sec : Secure roots h)
    (done : Collected h roots released k) {s : Ref} (owned : k.isRegistered s) :
    h.isRegistered s ∧ Untouched h k s := by
  have sound := sec.closed.sound sec.owned
  have reach := (done.isRegistered_iff sec.coherent sound s).mp owned
  obtain ⟨d,hd,hk⟩ := done.kept s reach
  refine ⟨sound s reach,?_⟩
  rw [Untouched,hd,hk]
  rfl

/-- A collection of a secure heap keeps it secure, however it ends. -/
theorem Secure.collect (sec : Secure roots h) : Secure roots (stateAfter (Heap.collect roots h)) := by
  have sound := sec.closed.sound sec.owned
  have own := sec.coherent.collect roots
  cases e : Heap.collect roots h with
  | ok released k =>
    rw [e] at own
    rcases sec.coherent.collect_cases sound with ⟨_,_,e',done⟩ | ⟨_,_,e',-⟩
    · cases e.symm.trans e'
      exact ⟨own,done.closed sec.coherent sound,fun s hs =>
        (done.isRegistered_iff sec.coherent sound s).mpr (.root hs)⟩
    · cases e.symm.trans e'
  | error f k =>
    rw [e] at own
    obtain ⟨owned,closed⟩ := sec.coherent.collect_error sound e
    exact ⟨own,closed,fun s hs => (owned s).mpr (.root hs)⟩

/-- A registration on a secure heap succeeds, unless the next threshold is no integer. -/
theorem Secure.register (sec : Secure (roots ++ c.object.references) h)
    (cell : h.cells[r.index]? = some c) (new : c.slot = none) :
    (∃ k, Heap.register r roots h = .ok h.nextSlot k ∧ Enrolled h r c roots k) ∨
      Spoiled (Heap.register r roots h) := by
  rw [register_new cell new]
  cases due : h.due with
  | true =>
    have sound := sec.closed.sound sec.owned
    simp only [if_true]
    rcases sec.coherent.collect_cases sound with ⟨released,k,hk,done⟩ | ⟨n,k,hk,-,-,spoiled,-⟩
    · left
      have kept := sec.collect
      have same := size_collect (roots ++ c.object.references) h
      rw [hk] at kept same ⊢
      have out := mt (sec.coherent.mem_iff r).mp (not_isRegistered_of_new cell new)
      have slot := done.unchanged.2.1
      exact ⟨k.enroll r,by dsimp only; rw [slot],enrolled_enroll kept.coherent kept.closed same
        ((done.others r out).trans cell) new slot done.unchanged.1
        (fun s hs => kept.owned s (List.mem_append.mpr hs)) fun s => sec.untouched done⟩
    · right
      rw [hk]
      exact ⟨n,rfl,spoiled⟩
  | false =>
    left
    exact ⟨_,rfl,enrolled_enroll sec.coherent sec.closed rfl cell new rfl rfl
      (fun s hs => sec.owned s (List.mem_append.mpr hs)) fun s hs => ⟨hs,rfl⟩⟩

/-- A registration has kept what is held, however it ends, and does not fail for want of memory
safety. -/
theorem Secure.register_error (sec : Secure (roots ++ c.object.references) h)
    (cell : h.cells[r.index]? = some c) (new : c.slot = none) {f : Failure} {k : Heap ν}
    (failed : Heap.register r roots h = .error f k) : f.isMemory = false ∧ Secure roots k := by
  have harmless : f.isMemory = false := by
    rcases sec.register cell new with ⟨l,e,-⟩ | spoiled
    · rw [failed] at e
      cases e
    · rw [failed] at spoiled
      obtain ⟨n,rfl,-⟩ := spoiled
      rfl
  have kept := sec.collect
  rw [(collect_of_register_error cell new failed).2] at kept
  exact ⟨harmless,kept.coherent,kept.closed,fun s hs => kept.owned s (List.mem_append_left _ hs)⟩

omit [Holder ν] in
theorem isRegistered_push (h : Heap ν) (o : Object ν) (s : Ref) :
    Heap.isRegistered { h with cells := h.cells.push { object := o } } s = h.isRegistered s := by
  simp only [isRegistered,Array.getElem?_push]
  split
  · next e => simp [e,Cell.isRegistered]
  · rfl

omit [Holder ν] in
theorem getElem?_push_of_isRegistered {h : Heap ν} (o : Object ν) {s : Ref} (hs : h.isRegistered s) :
    (h.cells.push { object := o })[s.index]? = h.cells[s.index]? := by
  rw [Array.getElem?_push,if_neg]
  intro e
  simp [isRegistered,e] at hs

/-- A new object that the heap does not own yet does not make it less secure. -/
theorem Secure.create {held : List Ref} (sec : Secure held h) (o : Object ν) :
    Secure held { h with cells := h.cells.push { object := o } } where
  coherent := sec.coherent.create o
  closed r hr s hs := by
    rw [isRegistered_push] at hr ⊢
    rw [referencesOf,getElem?_push_of_isRegistered o hr] at hs
    exact sec.closed r hr s hs
  owned r hr := by
    rw [isRegistered_push]
    exact sec.owned r hr

theorem place_eq (o : Object ν) (roots : List Ref) (h : Heap ν) : Heap.place o roots h =
    match register ⟨h.cells.size⟩ roots { h with cells := h.cells.push { object := o } } with
    | .ok _ k => .ok ⟨h.cells.size⟩ k
    | .error f k => .error f k := by
  simp only [Heap.place,Heap.create,Bind.bind,EStateM.bind]
  split <;> simp_all
  all_goals rfl

/-- An allocation on a secure heap succeeds, unless the next threshold is no integer. -/
theorem Secure.place (sec : Secure (roots ++ o.references) h) :
    (∃ k, Heap.place o roots h = .ok ⟨h.cells.size⟩ k ∧ Placed h o roots k) ∨
      Spoiled (Heap.place o roots h) := by
  have cell : (h.cells.push { object := o })[h.cells.size]? = some { object := o } := by simp
  rw [place_eq]
  rcases (sec.create o).register (r := ⟨h.cells.size⟩) (c := { object := o }) cell rfl with
    ⟨k,e,enrolled⟩ | spoiled
  · left
    rw [e]
    refine ⟨k,rfl,enrolled.secure,enrolled.cell,?_,enrolled.nextSlot,enrolled.rules,fun s hs ne => ?_⟩
    · rw [enrolled.size,Array.size_push]
    · obtain ⟨old,untouched⟩ := enrolled.others s hs ne
      rw [isRegistered_push] at old
      refine ⟨old,untouched.trans ?_⟩
      rw [getElem?_push_of_isRegistered o old]
  · right
    generalize Heap.register ⟨h.cells.size⟩ roots { h with cells := h.cells.push { object := o } } = x
      at spoiled ⊢
    cases x with
    | ok => exact spoiled.elim
    | error => exact spoiled

/-- A failed allocation has kept what is held, and does not fail for want of memory safety. -/
theorem Secure.place_error (sec : Secure (roots ++ o.references) h) {f : Failure} {k : Heap ν}
    (failed : Heap.place o roots h = .error f k) : f.isMemory = false ∧ Secure roots k := by
  have cell : (h.cells.push { object := o })[h.cells.size]? = some { object := o } := by simp
  rw [place_eq] at failed
  split at failed
  · cases failed
  · next registered =>
    cases failed
    exact (sec.create o).register_error (r := ⟨h.cells.size⟩) (c := { object := o }) cell rfl registered

end Lox.Heap
