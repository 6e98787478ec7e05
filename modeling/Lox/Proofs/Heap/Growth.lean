import Lox.Proofs.Heap.History
import Mathlib.Order.Defs.Unbundled

/-! # Growth

No operation on a heap takes an object's place or its slot away or changes the rules. The next slot has
not been given to any object, and the next threshold is never below the first one.
-/
namespace Lox

namespace Heap
variable {ν : Type}

/-- All slots that objects have are below the next one. -/
def Slotted (h : Heap ν) : Prop := ∀ r n, h.slotOf r = some n → n < h.nextSlot

/-- Objects keep their slots, and the slots that are given are new ones. -/
structure Slots (h k : Heap ν) : Prop where
  kept {r n} : h.slotOf r = some n → k.slotOf r = some n
  slotted : h.Slotted → k.Slotted

theorem slots_of_eq {h k : Heap ν} (same : ∀ r, k.slotOf r = h.slotOf r) (next : k.nextSlot = h.nextSlot) :
    Slots h k where
  kept {r n} given := (same r).trans given
  slotted below r n given := by
    rw [next]
    exact below r n ((same r).symm.trans given)

/-- What operations never undo: objects keep their places and slots, rules stay, and the next threshold is
not below the first. -/
structure Grows (h k : Heap ν) : Prop where
  cells : h.cells.size ≤ k.cells.size
  rules : k.rules = h.rules
  threshold : h.rules.threshold ≤ h.nextThreshold → k.rules.threshold ≤ k.nextThreshold
  slots : Slots h k

instance : IsPreorder (Heap ν) Grows where
  refl _ := ⟨Nat.le_refl _,rfl,id,id,id⟩
  trans _ _ _ hk kl := ⟨Nat.le_trans hk.cells kl.cells,kl.rules.trans hk.rules,
    fun least => kl.threshold (hk.threshold least),fun given => kl.slots.kept (hk.slots.kept given),
    fun below => kl.slots.slotted (hk.slots.slotted below)⟩

theorem grows_refl (h : Heap ν) : Grows h h := Std.Refl.refl h

theorem slotOf_modify {f : Cell ν → Cell ν} (same : ∀ c, (f c).slot = c.slot) (cells : Array (Cell ν))
    (i j : Nat) : (cells.modify i f)[j]?.bind (·.slot) = cells[j]?.bind (·.slot) := by
  rw [Array.getElem?_modify]
  split
  · cases cells[j]? with
    | none => rfl
    | some c => exact same c
  · rfl

theorem slotOf_foldl_modify {f : Cell ν → Cell ν} (same : ∀ c, (f c).slot = c.slot) (cells : Array (Cell ν))
    (rs : Array Ref) (j : Nat) : (rs.foldl (fun cells r => cells.modify r.index f) cells)[j]?.bind (·.slot) =
      cells[j]?.bind (·.slot) := by
  rw [← Array.foldl_toList]
  generalize rs.toList = l
  induction l generalizing cells with
  | nil => rfl
  | cons r l ih => rw [List.foldl_cons,ih,slotOf_modify same]

theorem grows_setObject (h : Heap ν) (r : Ref) (o : Object ν) : Grows h (h.setObject r o) :=
  ⟨by simp [setObject],rfl,id,
    slots_of_eq (fun s => slotOf_modify (f := fun c => { c with object := o }) (fun _ => rfl) h.cells r.index
      s.index) rfl⟩

theorem grows_create (o : Object ν) (h : Heap ν) : Grows h (stateAfter (create o h)) := by
  refine ⟨by simp [stateAfter,create],rfl,id,slots_of_eq (fun r => ?_) rfl⟩
  simp only [slotOf,stateAfter,create,Array.getElem?_push]
  split
  · next new => simp [new]
  · rfl

/-- The slot of an object that is enrolled is new. -/
theorem grows_enroll {h : Heap ν} {r : Ref} (new : h.slotOf r = none) : Grows h (h.enroll r) := by
  have own : ∀ s : Ref, (h.enroll r).slotOf s =
      if r.index = s.index then (h.cells[s.index]?.map fun _ => h.nextSlot) else h.slotOf s := by
    intro s
    simp only [slotOf,enroll,Array.getElem?_modify]
    split
    · cases h.cells[s.index]? <;> rfl
    · rfl
  refine ⟨by simp [enroll],rfl,id,fun {s n} given => ?_,fun below s n given => ?_⟩
  · rw [own,if_neg,given]
    intro same
    rw [slotOf,same] at new
    cases new.symm.trans given
  · rw [own] at given
    split at given
    · obtain ⟨_,_,rfl⟩ := Option.map_eq_some_iff.mp given
      exact Nat.lt_succ_self _
    · exact Nat.lt_succ_of_lt (below s n given)

/-! ## Changes of objects -/

/-- A change of objects leaves the heap as it is or puts other contents in one object. -/
def Rewrites (h k : Heap ν) : Prop := k = h ∨ ∃ r o, k = h.setObject r o

theorem rewrites_define (r : Ref) (name : String) (x : ν) (h : Heap ν) :
    Rewrites h (stateAfter (define r name x h)) := by
  simp only [define]
  split
  · exact .inl rfl
  · exact .inr ⟨_,_,rfl⟩

theorem rewrites_assign (r : Ref) (name : String) (x : ν) (h : Heap ν) :
    Rewrites h (stateAfter (assign r name x h)) := by
  simp only [assign]
  split
  · exact .inl rfl
  · split
    · exact .inr ⟨_,_,rfl⟩
    · exact .inl rfl

theorem rewrites_assignAt (r : Ref) (distance : Int) (name : String) (x : ν) (h : Heap ν) :
    Rewrites h (stateAfter (assignAt r distance name x h)) := by
  simp only [assignAt]
  split
  · exact .inl rfl
  · exact rewrites_assign _ _ _ _

theorem rewrites_setField (r : Ref) (name : String) (x : ν) (h : Heap ν) :
    Rewrites h (stateAfter (setField r name x h)) := by
  simp only [setField]
  split
  · exact .inl rfl
  · split
    · exact .inr ⟨_,_,rfl⟩
    · exact .inl rfl

theorem rewrites_enclose (r : Ref) (enclosing : Option Ref) (h : Heap ν) :
    Rewrites h (stateAfter (enclose r enclosing h)) := by
  simp only [enclose]
  split
  · exact .inr ⟨_,_,rfl⟩
  · exact .inl rfl

theorem Rewrites.grows {h k : Heap ν} (rewrites : Rewrites h k) : Grows h k := by
  rcases rewrites with rfl | ⟨r,o,rfl⟩
  · exact grows_refl _
  · exact grows_setObject h r o

theorem grows_define (r : Ref) (name : String) (x : ν) (h : Heap ν) :
    Grows h (stateAfter (define r name x h)) :=
  (rewrites_define r name x h).grows

theorem grows_assign (r : Ref) (name : String) (x : ν) (h : Heap ν) :
    Grows h (stateAfter (assign r name x h)) :=
  (rewrites_assign r name x h).grows

theorem grows_assignAt (r : Ref) (distance : Int) (name : String) (x : ν) (h : Heap ν) :
    Grows h (stateAfter (assignAt r distance name x h)) :=
  (rewrites_assignAt r distance name x h).grows

theorem grows_setField (r : Ref) (name : String) (x : ν) (h : Heap ν) :
    Grows h (stateAfter (setField r name x h)) :=
  (rewrites_setField r name x h).grows

/-! ## Collections -/

theorem size_foldl_modify (f : Cell ν → Cell ν) (cells : Array (Cell ν)) (rs : Array Ref) :
    (rs.foldl (fun cells r => cells.modify r.index f) cells).size = cells.size := by
  rw [← Array.foldl_toList]
  generalize rs.toList = l
  induction l generalizing cells with
  | nil => rfl
  | cons r l ih => rw [List.foldl_cons,ih,Array.size_modify]

theorem size_sweep (h : Heap ν) : h.sweep.cells.size = h.cells.size := size_foldl_modify _ _ _

theorem size_unmarkAll (h : Heap ν) : h.unmarkAll.cells.size = h.cells.size := size_foldl_modify _ _ _

variable [Holder ν]

theorem size_markFrom (h : Heap ν) (roots : List Ref) :
    (h.markFrom roots).2.cells.size = h.cells.size :=
  ((mark_recolored h.unmarkAll.cells roots.reverse).size).trans (size_unmarkAll h)

/-- A collection does not move or remove cells, also when it fails. -/
theorem size_collect (roots : List Ref) (h : Heap ν) :
    (stateAfter (collect roots h)).cells.size = h.cells.size :=
  have marked := size_markFrom h roots
  have swept := (size_sweep (h.markFrom roots).2).trans marked
  after_collect (P := fun k => k.cells.size = h.cells.size) marked swept fun _ _ _ => swept

theorem rules_collect (roots : List Ref) (h : Heap ν) :
    (stateAfter (collect roots h)).rules = h.rules :=
  after_collect (P := fun k => k.rules = h.rules) rfl rfl fun _ _ _ => rfl

theorem slotOf_markFrom (h : Heap ν) (roots : List Ref) (r : Ref) :
    (h.markFrom roots).2.slotOf r = h.slotOf r := by
  have unmarked := slotOf_foldl_modify (f := Cell.unmark) (fun _ => rfl) h.cells h.registered r.index
  have marked := congrArg (Option.bind · Cell.slot)
    ((mark_recolored h.unmarkAll.cells roots.reverse).unmark_eq r.index)
  simp only [Option.bind_map] at marked
  exact marked.trans unmarked

/-- A collection gives and takes no slots. -/
theorem slots_collect (roots : List Ref) (h : Heap ν) :
    (∀ r, (stateAfter (collect roots h)).slotOf r = h.slotOf r) ∧
      (stateAfter (collect roots h)).nextSlot = h.nextSlot := by
  have marked : (h.markFrom roots).2.nextSlot = h.nextSlot := rfl
  have swept : ∀ r, (h.markFrom roots).2.sweep.slotOf r = h.slotOf r := fun r =>
    (slotOf_foldl_modify (f := Cell.release) (fun _ => rfl) _ _ r.index).trans (slotOf_markFrom h roots r)
  exact after_collect (P := fun k => (∀ r, k.slotOf r = h.slotOf r) ∧ k.nextSlot = h.nextSlot)
    ⟨slotOf_markFrom h roots,marked⟩ ⟨swept,marked⟩ fun _ _ _ => ⟨swept,marked⟩

omit [Holder ν] in
/-- What is fixed as the next threshold is not below the first. -/
theorem le_of_grownThreshold {rules : Rules} {live next : Nat} (h : grownThreshold rules live = .ok next) :
    rules.threshold ≤ next := by
  simp only [grownThreshold] at h
  cases e : Number.truncate (Float.ofNat live * rules.growth) with
  | error f =>
    rw [e] at h
    cases h
  | ok n =>
    rw [e] at h
    cases h
    exact Nat.le_max_left _ _

theorem threshold_collect {roots : List Ref} {h : Heap ν} (least : h.rules.threshold ≤ h.nextThreshold) :
    (stateAfter (collect roots h)).rules.threshold ≤ (stateAfter (collect roots h)).nextThreshold :=
  after_collect (P := fun k => k.rules.threshold ≤ k.nextThreshold) least least
    fun _ _ fixed => le_of_grownThreshold fixed

theorem grows_collect (roots : List Ref) (h : Heap ν) : Grows h (stateAfter (collect roots h)) :=
  ⟨Nat.le_of_eq (size_collect roots h).symm,rules_collect roots h,threshold_collect,
    slots_of_eq (slots_collect roots h).1 (slots_collect roots h).2⟩

theorem grows_register (r : Ref) (roots : List Ref) (h : Heap ν) :
    Grows h (stateAfter (register r roots h)) := by
  have slot : ∀ {c}, h.cells[r.index]? = some c → h.slotOf r = c.slot := fun cell => by rw [slotOf,cell]; rfl
  have ends := registers r roots h
  generalize register r roots h = x at ends ⊢
  cases ends with
  | missing | again => exact grows_refl h
  | spare cell new => exact grows_enroll ((slot cell).trans new)
  | @collected c n k cell new _ done =>
    have collected := grows_collect (roots ++ c.object.references) h
    have same := (slots_collect (roots ++ c.object.references) h).1 r
    rw [done] at collected same
    exact IsTrans.trans _ _ _ collected (grows_enroll (same.trans ((slot cell).trans new)))
  | @broken c f k _ _ _ failed =>
    have collected := grows_collect (roots ++ c.object.references) h
    rwa [failed] at collected

/-- An object that is registered gets the next slot. -/
theorem slotOf_register {r : Ref} {roots : List Ref} {h k : Heap ν} {slot : Nat}
    (registered : register r roots h = .ok slot k) : k.slotOf r = some h.nextSlot := by
  have enrolled : ∀ g : Heap ν, (∃ c, g.cells[r.index]? = some c) → (g.enroll r).slotOf r = some g.nextSlot := by
    rintro g ⟨c,cell⟩
    simp only [slotOf,enroll,Array.getElem?_modify,if_pos,cell,Option.map_some,Option.bind_some]
  have ends := registers r roots h
  rw [registered] at ends
  cases ends with
  | @spare c cell => exact enrolled h ⟨c,cell⟩
  | @collected c n g cell _ _ done =>
    have size := size_collect (roots ++ c.object.references) h
    have next := (slots_collect (roots ++ c.object.references) h).2
    rw [done] at size next
    have inside := (Array.getElem?_eq_some_iff.mp cell).1
    exact (enrolled g ⟨_,Array.getElem?_eq_getElem (size.symm ▸ inside)⟩).trans (congrArg some next)

end Heap

end Lox
