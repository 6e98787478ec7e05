import Lox.Heap.Collect
import Lox.Heap.Reach

/-! # Marking

Marking changes nothing but marks. It keeps three colours apart: what a marked object refers to is
marked or still on the work list. So a marking that ends without a fault has marked what its work
list reaches and nothing else, in whatever order the work was done.
-/
namespace Lox.Heap
variable {ν : Type}

def marks (cells : Array (Cell ν)) (r : Ref) : Bool := (cells[r.index]?.map (·.marked)).getD false

theorem isMarked_eq (h : Heap ν) (r : Ref) : h.isMarked r = marks h.cells r := rfl

/-- Cells that differ in nothing but their marks. -/
def Recolored (cells others : Array (Cell ν)) : Prop :=
  others.map Cell.unmark = cells.map Cell.unmark

namespace Recolored
variable {cells others more : Array (Cell ν)}

theorem refl (cells : Array (Cell ν)) : Recolored cells cells := rfl

theorem trans (first : Recolored cells others) (second : Recolored others more) :
    Recolored cells more := Eq.trans second first

theorem mark {i : Nat} (h : i < cells.size) : Recolored cells (cells.set i cells[i].mark h) := by
  rw [Recolored,Array.map_set]
  have inside : i < (cells.map Cell.unmark).size := by simpa using h
  have e : cells[i].mark.unmark = (cells.map Cell.unmark)[i] := by simp [Cell.mark,Cell.unmark]
  simp only [e,Array.set_getElem_self]

theorem size (same : Recolored cells others) : others.size = cells.size := by
  simpa using congrArg Array.size same

theorem unmark_eq (same : Recolored cells others) (i : Nat) :
    others[i]?.map Cell.unmark = cells[i]?.map Cell.unmark := by
  simpa using congrArg (fun a : Array (Cell ν) => a[i]?) same

/-- A cell keeps all it holds besides its mark. -/
theorem cell (same : Recolored cells others) {i : Nat} {c : Cell ν} (hc : cells[i]? = some c) :
    ∃ m, others[i]? = some { c with marked := m } := by
  have h := same.unmark_eq i
  rw [hc,Option.map_some] at h
  obtain ⟨d,hd,e⟩ := Option.map_eq_some_iff.mp h
  refine ⟨d.marked,?_⟩
  rw [hd]
  cases c
  cases d
  simp_all [Cell.unmark]

end Recolored

theorem marks_set {cells : Array (Cell ν)} {i : Nat} (h : i < cells.size) (r : Ref) :
    marks (cells.set i cells[i].mark h) r = (decide (i = r.index) || marks cells r) := by
  simp only [marks,Array.getElem?_set]
  split
  · next e => simp [e,Cell.mark]
  · next e => simp [e]

variable [Holder ν]

/-- What is reached from things in reach is in reach. -/
theorem Reach.trans {h : Heap ν} {roots others : List Ref} (all : ∀ s ∈ others, h.Reach roots s)
    {r : Ref} (reach : h.Reach others r) : h.Reach roots r := by
  induction reach with
  | root m => exact all _ m
  | step _ m ih => exact .step ih m

section
variable (h : Heap ν) {cells : Array (Cell ν)} {work : List Ref}

theorem Recolored.referencesOf (same : Recolored h.cells cells) {r : Ref}
    (inside : r.index < cells.size) :
    cells[r.index].object.references = h.referencesOf r := by
  have hs := same.unmark_eq r.index
  rw [Array.getElem?_eq_getElem inside] at hs
  obtain ⟨d,hd,e⟩ := Option.map_eq_some_iff.mp hs.symm
  simp only [Heap.referencesOf,hd,Option.map_some,Option.getD_some]
  exact (congrArg (fun c : Cell ν => c.object.references) e).symm

/-- What takes the place of an object on the work list is in reach of it. -/
theorem Recolored.reach_of_mem (same : Recolored h.cells cells) {r t : Ref} (inside : r.index < cells.size)
    (mt : t ∈ cells[r.index].object.references.reverse ++ work) : h.Reach (r :: work) t := by
  rw [List.mem_append,List.mem_reverse,same.referencesOf h inside] at mt
  rcases mt with mt | mt
  · exact .step (.root List.mem_cons_self) mt
  · exact .root (List.mem_cons_of_mem _ mt)

omit [Holder ν] in
theorem Recolored.isRegistered (same : Recolored h.cells cells) {r : Ref}
    (inside : r.index < cells.size) : cells[r.index].isRegistered = h.isRegistered r := by
  have hs := same.unmark_eq r.index
  rw [Array.getElem?_eq_getElem inside] at hs
  obtain ⟨d,hd,e⟩ := Option.map_eq_some_iff.mp hs.symm
  simp only [Heap.isRegistered,hd,Option.map_some,Option.getD_some]
  exact (congrArg Cell.isRegistered e).symm

theorem mark_recolored (cells : Array (Cell ν)) (work : List Ref) :
    Recolored cells (mark cells work).2 := by
  fun_induction mark cells work with
  | case1 => exact .refl _
  | case2 _ _ _ _ _ _ ih => exact ih
  | case3 _ _ _ inside _ _ _ ih => exact (Recolored.mark inside).trans ih
  | case4 => exact .refl _
  | case5 => exact .refl _

/-- A mark is an old one or on something that the work list reaches. -/
theorem reach_of_mark (same : Recolored h.cells cells) {s : Ref}
    (marked : marks (mark cells work).2 s) : marks cells s ∨ h.Reach work s := by
  fun_induction mark cells work with
  | case1 => exact .inl marked
  | case2 cells r work _ _ _ ih =>
    exact (ih same marked).imp_right (Reach.mono fun _ => List.mem_cons_of_mem r)
  | case3 cells r work inside c _ _ ih =>
    rcases ih (same.trans (.mark inside)) marked with old | reach
    · rw [marks_set,Bool.or_eq_true,decide_eq_true_eq] at old
      rcases old with e | old
      · exact .inr (.root (by cases r; cases s; simp_all))
      · exact .inl old
    · exact .inr (reach.trans fun t mt => same.reach_of_mem h inside mt)
  | case4 => exact .inl marked
  | case5 => exact .inl marked

/-- Nothing is marked that the heap does not own. -/
theorem isRegistered_of_mark (same : Recolored h.cells cells) {s : Ref}
    (marked : marks (mark cells work).2 s) : marks cells s ∨ h.isRegistered s := by
  fun_induction mark cells work with
  | case1 => exact .inl marked
  | case2 _ _ _ _ _ _ ih => exact ih same marked
  | case3 cells r work inside c _ owned ih =>
    rcases ih (same.trans (.mark inside)) marked with old | new
    · rw [marks_set,Bool.or_eq_true,decide_eq_true_eq] at old
      rcases old with e | old
      · refine .inr ?_
        rw [← show r = s by cases r; cases s; simp_all,← same.isRegistered h inside]
        exact owned
      · exact .inl old
    · exact .inr new
  | case4 => exact .inl marked
  | case5 => exact .inl marked

theorem mark_grows (cells : Array (Cell ν)) (work : List Ref) {s : Ref} (marked : marks cells s) :
    marks (mark cells work).2 s := by
  fun_induction mark cells work with
  | case1 => exact marked
  | case2 _ _ _ _ _ _ ih => exact ih marked
  | case3 _ _ _ inside _ _ _ ih => exact ih (by rw [marks_set inside,marked,Bool.or_true])
  | case4 => exact marked
  | case5 => exact marked

/-- Marking meets no fault when all in reach is the heap's own. -/
theorem mark_fst_eq_none (same : Recolored h.cells cells) (sound : h.Sound work) :
    (mark cells work).1 = none := by
  fun_induction mark cells work with
  | case1 => rfl
  | case2 _ r _ _ _ _ ih =>
    exact ih same fun s reach => sound s (reach.mono fun _ => List.mem_cons_of_mem r)
  | case3 cells r work inside c _ _ ih =>
    exact ih (same.trans (.mark inside)) fun s reach =>
      sound s (reach.trans fun t mt => same.reach_of_mem h inside mt)
  | case4 cells r work inside c _ stray =>
    have owned := sound r (.root List.mem_cons_self)
    rw [← same.isRegistered h inside] at owned
    exact absurd owned stray
  | case5 cells r work outside =>
    have owned := sound r (.root List.mem_cons_self)
    rw [same.size,← Array.getElem?_eq_none_iff.trans Nat.not_lt.symm] at outside
    simp [Heap.isRegistered,outside] at owned

/-- What marked objects refer to is marked or waits on the work list. -/
def Tricolour (cells : Array (Cell ν)) (work : List Ref) : Prop :=
  ∀ r, marks cells r → ∀ s ∈ h.referencesOf r, marks cells s ∨ s ∈ work

/-- A marking without a fault ends with no work left, and the marked objects keep to themselves. -/
theorem mark_complete (same : Recolored h.cells cells) (tri : Tricolour h cells work)
    (done : (mark cells work).1 = none) :
    (∀ r ∈ work, marks (mark cells work).2 r) ∧ Tricolour h (mark cells work).2 [] := by
  fun_induction mark cells work with
  | case1 => exact ⟨fun _ m => absurd m List.not_mem_nil,tri⟩
  | case2 cells r work inside c black ih =>
    have hr : marks cells r := by simpa [marks,inside] using black
    have less : Tricolour h cells work := by
      intro t ht s hs
      rcases tri t ht s hs with hm | hm
      · exact .inl hm
      · rcases List.mem_cons.mp hm with rfl | hm
        · exact .inl hr
        · exact .inr hm
    obtain ⟨all,closed⟩ := ih same less done
    refine ⟨fun s hs => ?_,closed⟩
    rcases List.mem_cons.mp hs with rfl | hs
    · exact mark_grows cells work hr
    · exact all s hs
  | case3 cells r work inside c white owned ih =>
    have grey : Tricolour h (cells.set r.index c.mark inside) (c.object.references.reverse ++ work) := by
      intro t ht s hs
      rw [marks_set,Bool.or_eq_true,decide_eq_true_eq] at ht ⊢
      rw [List.mem_append,List.mem_reverse]
      rcases ht with e | ht
      · obtain rfl : r = t := by cases r; cases t; simp_all
        exact .inr (.inl (by rw [same.referencesOf h inside]; exact hs))
      · rcases tri t ht s hs with hm | hm
        · exact .inl (.inr hm)
        · rcases List.mem_cons.mp hm with rfl | hm
          · exact .inl (.inl rfl)
          · exact .inr (.inr hm)
    obtain ⟨all,closed⟩ := ih (same.trans (.mark inside)) grey done
    refine ⟨fun s hs => ?_,closed⟩
    rcases List.mem_cons.mp hs with rfl | hs
    · exact mark_grows _ _ (by rw [marks_set inside,decide_eq_true rfl,Bool.true_or])
    · exact all s (List.mem_append_right _ hs)
  | case4 => exact absurd done (by simp)
  | case5 => exact absurd done (by simp)

/-- From unmarked cells, marking without a fault marks exactly what is in reach. -/
theorem marks_iff_reach (same : Recolored h.cells cells) (white : ∀ r, marks cells r = false)
    (done : (mark cells work).1 = none) (s : Ref) :
    marks (mark cells work).2 s ↔ h.Reach work s := by
  constructor
  · intro marked
    rcases reach_of_mark h same marked with old | reach
    · simp [white] at old
    · exact reach
  · intro reach
    obtain ⟨all,closed⟩ := mark_complete h same (fun r hr => by simp [white] at hr) done
    induction reach with
    | root m => exact all _ m
    | step _ m ih => exact (closed _ ih _ m).resolve_right (by simp)

end
end Lox.Heap
