import Lox.Proofs.Heap.Marking
import Mathlib.Data.List.Nodup

/-! # Coherence

The books of a heap agree with its cells: the list of registered objects holds each object that the
heap owns once and no other, only such objects carry marks, and a released object keeps its slot.
Every operation leaves a coherent heap behind, also one that fails.
-/
namespace Lox.Heap
variable {ν : Type}

structure Coherent (h : Heap ν) : Prop where
  nodup : h.registered.toList.Nodup
  mem_iff : ∀ r, r ∈ h.registered ↔ h.isRegistered r
  owned_of_marked : ∀ r, h.isMarked r → h.isRegistered r
  slot_of_freed : ∀ (i : Nat) (c : Cell ν), h.cells[i]? = some c → c.freed → c.slot.isSome

theorem getElem?_foldl_modify {α : Type} (f : α → α) {l : List Ref} (once : l.Nodup)
    (cells : Array α) (i : Nat) :
    (l.foldl (fun cells r => cells.modify r.index f) cells)[i]? =
      if (⟨i⟩ : Ref) ∈ l then cells[i]?.map f else cells[i]? := by
  induction l generalizing cells with
  | nil => rfl
  | cons r l ih =>
    obtain ⟨fresh,once⟩ := List.nodup_cons.mp once
    rw [List.foldl_cons,ih once,Array.getElem?_modify]
    by_cases e : r.index = i
    · obtain rfl : r = ⟨i⟩ := by cases r; simp_all
      simp [fresh]
    · have ne : (⟨i⟩ : Ref) ≠ r := by rintro rfl; exact e rfl
      simp [e,ne]

theorem Recolored.of_getElem? {cells others : Array (Cell ν)}
    (same : ∀ i : Nat, others[i]?.map Cell.unmark = cells[i]?.map Cell.unmark) :
    Recolored cells others :=
  Array.ext_getElem? fun i => by simpa using same i

/-! ## Marks -/

section
variable (h : Heap ν) (own : h.Coherent)
include own

theorem Coherent.getElem?_unmarkAll (i : Nat) :
    h.unmarkAll.cells[i]? = h.cells[i]?.map Cell.unmark := by
  simp only [unmarkAll,← Array.foldl_toList]
  rw [getElem?_foldl_modify _ own.nodup]
  split
  · rfl
  · next out =>
    cases hc : h.cells[i]? with
    | none => rfl
    | some c =>
      have white : c.marked = false := by
        rw [Array.mem_toList_iff,own.mem_iff] at out
        have hm := mt (own.owned_of_marked ⟨i⟩) out
        simpa [isMarked,hc] using hm
      cases c
      simp_all [Cell.unmark]

theorem Coherent.recolored_unmarkAll : Recolored h.cells h.unmarkAll.cells :=
  .of_getElem? fun i => by
    rw [own.getElem?_unmarkAll]
    cases h.cells[i]? <;> rfl

theorem Coherent.white (r : Ref) : marks h.unmarkAll.cells r = false := by
  rw [marks,own.getElem?_unmarkAll]
  cases h.cells[r.index]? <;> rfl

variable [Holder ν]

theorem Coherent.recolored_markFrom (roots : List Ref) :
    Recolored h.cells (h.markFrom roots).2.cells :=
  (own.recolored_unmarkAll).trans (mark_recolored _ _)

end

section
variable [Holder ν] {h : Heap ν}

theorem markFrom_eq (h : Heap ν) (roots : List Ref) :
    (h.markFrom roots).2 = { h with cells := (h.markFrom roots).2.cells } := rfl

/-- A marking from the roots marks what is in reach of them. -/
theorem Coherent.isMarked_markFrom (own : h.Coherent) {roots : List Ref}
    (done : (h.markFrom roots).1 = none) (r : Ref) :
    (h.markFrom roots).2.isMarked r ↔ h.Reach roots r := by
  rw [isMarked_eq]
  refine (marks_iff_reach h (own.recolored_unmarkAll) own.white done r).trans ?_
  exact reach_congr (fun r => List.mem_reverse) r

theorem Coherent.markFrom_fst (own : h.Coherent) {roots : List Ref} (sound : h.Sound roots) :
    (h.markFrom roots).1 = none :=
  mark_fst_eq_none h own.recolored_unmarkAll fun r reach =>
    sound r (reach.mono fun _ => List.mem_reverse.mp)

end

/-! ## What depends on cells up to marks -/

section
variable {h : Heap ν} {cells : Array (Cell ν)}

theorem Recolored.isRegistered_with (same : Recolored h.cells cells) (r : Ref) :
    Heap.isRegistered { h with cells } r = h.isRegistered r := by
  have e := same.unmark_eq r.index
  simp only [Heap.isRegistered]
  cases hc : h.cells[r.index]? with
  | none => simp_all
  | some c =>
    obtain ⟨m,hm⟩ := same.cell hc
    simp [hm,Cell.isRegistered]

theorem Coherent.recolor (own : h.Coherent) (same : Recolored h.cells cells)
    (marked : ∀ r, marks cells r → h.isRegistered r) : Coherent { h with cells } where
  nodup := own.nodup
  mem_iff r := by rw [same.isRegistered_with]; exact own.mem_iff r
  owned_of_marked r hr := by rw [same.isRegistered_with]; exact marked r hr
  slot_of_freed i c hc freed := by
    obtain ⟨m,hm⟩ := Recolored.cell (same.symm : Recolored cells h.cells) hc
    exact own.slot_of_freed i { c with marked := m } hm freed

/-- Marking leaves a coherent heap, also when it meets a fault. -/
theorem Coherent.markFrom [Holder ν] (own : h.Coherent) (roots : List Ref) :
    (h.markFrom roots).2.Coherent := by
  refine own.recolor (own.recolored_markFrom h roots) fun r hr => ?_
  rcases isRegistered_of_mark h (own.recolored_unmarkAll h) hr with old | new
  · simp [own.white] at old
  · exact new

end

/-! ## The sweep -/

section
variable {h : Heap ν} (own : h.Coherent)
include own

theorem Coherent.getElem?_sweep (i : Nat) :
    h.sweep.cells[i]? =
      if h.isRegistered ⟨i⟩ && !h.isMarked ⟨i⟩ then h.cells[i]?.map Cell.release
      else h.cells[i]? := by
  simp only [sweep,← Array.foldl_toList,Array.toList_filter]
  rw [getElem?_foldl_modify _ (own.nodup.filter _)]
  simp [List.mem_filter,own.mem_iff]

theorem Coherent.isRegistered_sweep (r : Ref) :
    h.sweep.isRegistered r = (h.isRegistered r && h.isMarked r) := by
  have e := own.getElem?_sweep r.index
  rw [show (⟨r.index⟩ : Ref) = r from rfl] at e
  cases hr : h.isRegistered r with
  | false =>
    rw [hr,Bool.false_and,if_neg Bool.false_ne_true] at e
    rw [Bool.false_and,← hr,Heap.isRegistered,e]
    rfl
  | true =>
    cases hm : h.isMarked r with
    | true =>
      rw [hr,hm,Bool.not_true,Bool.and_false,if_neg Bool.false_ne_true] at e
      rw [Bool.and_true,← hr,Heap.isRegistered,e]
      rfl
    | false =>
      rw [hr,hm,Bool.not_false,Bool.and_true,if_pos rfl] at e
      rw [Heap.isRegistered,e]
      cases h.cells[r.index]? <;> simp [Cell.release,Cell.isRegistered]

theorem Coherent.sweep : h.sweep.Coherent where
  nodup := by
    simpa [Heap.sweep] using own.nodup.filter h.isMarked
  mem_iff r := by
    rw [own.isRegistered_sweep,Heap.sweep,Array.mem_filter,own.mem_iff,Bool.and_eq_true]
  owned_of_marked r hr := by
    have old : h.isMarked r := by
      rw [Heap.isMarked,own.getElem?_sweep] at hr
      split at hr
      · cases hc : h.cells[r.index]? <;> simp_all [Heap.isMarked,Cell.release]
      · exact hr
    rw [own.isRegistered_sweep,old,own.owned_of_marked r old]
    rfl
  slot_of_freed i c hc freed := by
    rw [own.getElem?_sweep] at hc
    split at hc
    · next dead =>
      obtain ⟨d,hd,rfl⟩ := Option.map_eq_some_iff.mp hc
      have reg := (Bool.and_eq_true _ _ ▸ dead).1
      simp only [Heap.isRegistered,hd,Option.map_some,Option.getD_some,Cell.isRegistered,
        Bool.and_eq_true] at reg
      exact reg.1
    · exact own.slot_of_freed i c hc freed

end
end Lox.Heap
