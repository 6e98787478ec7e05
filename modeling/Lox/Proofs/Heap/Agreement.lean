import Lox.Proofs.Heap.Allocation

/-! # Agreement

Two heaps with different rules agree when both are secure and hold the same in every object that
both own. The one may have collected what the other still owns, for a program holds none of it.
Agreement is a comparison: it is safe, and lax as to thresholds that are no integers.
-/
namespace Lox.Heap
variable {P : Pos → Pos → Prop}

structure Agree (P : Pos → Pos → Prop) (held : List Ref) (h g : Heap Value) : Prop where
  left : Secure held h
  right : Secure held g
  size : g.cells.size = h.cells.size
  nextSlot : g.nextSlot = h.nextSlot
  cells : ∀ r, h.isRegistered r → g.isRegistered r →
    Option.Rel (Cell.Alike P) h.cells[r.index]? g.cells[r.index]?

theorem Secure.less {held fewer : List Ref} {h : Heap Value} (sec : Secure held h)
    (sub : ∀ r ∈ fewer, r ∈ held) : Secure fewer h :=
  ⟨sec.coherent,sec.closed,fun r hr => sec.owned r (sub r hr)⟩

theorem Secure.follow {held : List Ref} {h : Heap Value} (sec : Secure held h) {r : Ref}
    (hr : r ∈ held) : Secure (h.referencesOf r ++ held) h :=
  ⟨sec.coherent,sec.closed,fun s hs =>
    (List.mem_append.mp hs).elim (sec.closed r (sec.owned r hr) s) (sec.owned s)⟩

theorem isRegistered_setObject (h : Heap Value) (r : Ref) (o : Object Value) (s : Ref) :
    (h.setObject r o).isRegistered s = h.isRegistered s := by
  simp only [setObject,isRegistered,Array.getElem?_modify]
  split
  · cases h.cells[s.index]? <;> rfl
  · rfl

theorem referencesOf_setObject {h : Heap Value} {r s t : Ref} {o : Object Value}
    (ht : t ∈ (h.setObject r o).referencesOf s) : t ∈ o.references ∨ t ∈ h.referencesOf s := by
  simp only [setObject,referencesOf,Array.getElem?_modify] at ht ⊢
  split at ht
  · cases hc : h.cells[s.index]? with
    | none => simp [hc] at ht
    | some c => exact .inl (by simpa [hc] using ht)
  · exact .inr ht

theorem Secure.setObject {held : List Ref} {h : Heap Value} (sec : Secure held h) (r : Ref)
    {o : Object Value} (ho : ∀ s ∈ o.references, s ∈ held) : Secure held (h.setObject r o) where
  coherent := sec.coherent.setObject r o
  closed s hs t ht := by
    rw [isRegistered_setObject] at hs ⊢
    exact (referencesOf_setObject ht).elim (fun m => sec.owned t (ho t m)) (sec.closed s hs t)
  owned s hs := by
    rw [isRegistered_setObject]
    exact sec.owned s hs

theorem Secure.flush {held : List Ref} {h : Heap Value} (sec : Secure held h) :
    Secure held { h with journal := [] } :=
  ⟨sec.coherent.congr rfl rfl,sec.closed,sec.owned⟩

theorem parts_of_unmark {c d : Cell Value} (e : c.unmark = d.unmark) :
    d.object = c.object ∧ d.slot = c.slot ∧ d.freed = c.freed :=
  ⟨(congrArg Cell.object e).symm,(congrArg Cell.slot e).symm,(congrArg Cell.freed e).symm⟩

theorem alike_of_untouched {h g h' g' : Heap Value} {r : Ref}
    (like : Option.Rel (Cell.Alike P) h.cells[r.index]? g.cells[r.index]?)
    (left : Untouched h h' r) (right : Untouched g g' r) :
    Option.Rel (Cell.Alike P) h'.cells[r.index]? g'.cells[r.index]? := by
  simp only [Untouched] at left right
  generalize h.cells[r.index]? = a,g.cells[r.index]? = b,h'.cells[r.index]? = a',
    g'.cells[r.index]? = b' at *
  cases like with
  | none =>
    rw [Option.map_none,Option.map_eq_none_iff] at left right
    subst left right
    exact .none
  | some like =>
    obtain ⟨c,rfl,hc⟩ := Option.map_eq_some_iff.mp left
    obtain ⟨d,rfl,hd⟩ := Option.map_eq_some_iff.mp right
    obtain ⟨hco,hcs,hcf⟩ := parts_of_unmark hc
    obtain ⟨hdo,hds,hdf⟩ := parts_of_unmark hd
    exact .some ⟨hco ▸ hdo ▸ like.object,hcs ▸ hds ▸ like.slot,hcf ▸ hdf ▸ like.freed⟩

namespace Agree
variable {held fewer : List Ref} {h g : Heap Value} (agree : Agree P held h g)
include agree

theorem less (sub : ∀ r ∈ fewer, r ∈ held) : Agree P fewer h g :=
  ⟨agree.left.less sub,agree.right.less sub,agree.size,agree.nextSlot,agree.cells⟩

theorem cell {r : Ref} (hr : r ∈ held) :
    Option.Rel (Cell.Alike P) h.cells[r.index]? g.cells[r.index]? :=
  agree.cells r (agree.left.owned r hr) (agree.right.owned r hr)

theorem references {r : Ref} (hr : r ∈ held) : g.referencesOf r = h.referencesOf r := by
  have like := agree.cell hr
  simp only [referencesOf]
  generalize h.cells[r.index]? = a,g.cells[r.index]? = b at like
  cases like with
  | none => rfl
  | some like => exact like.object.references

theorem follow {r : Ref} (hr : r ∈ held) :
    Agree P (h.referencesOf r ++ held) h g :=
  ⟨agree.left.follow hr,agree.references hr ▸ agree.right.follow hr,agree.size,agree.nextSlot,
    agree.cells⟩

theorem setObject {r : Ref} {o p : Object Value} (like : Object.Alike P o p)
    (ho : ∀ s ∈ o.references, s ∈ held) : Agree P held (h.setObject r o) (g.setObject r p) where
  left := agree.left.setObject r ho
  right := agree.right.setObject r (like.references ▸ ho)
  size := by simpa [Heap.setObject] using agree.size
  nextSlot := agree.nextSlot
  cells s hs hs' := by
    rw [isRegistered_setObject] at hs hs'
    have old := agree.cells s hs hs'
    simp only [Heap.setObject,Array.getElem?_modify]
    generalize h.cells[s.index]? = a,g.cells[s.index]? = b at old
    split
    · cases old with
      | none => exact .none
      | some old => exact .some ⟨like,old.slot,old.freed⟩
    · exact old

theorem place {o p : Object Value} {roots : List Ref} (like : Object.Alike P o p)
    (ho : ∀ s ∈ o.references, s ∈ held) (hroots : ∀ s ∈ roots, s ∈ held) :
    (∃ r h' g', Heap.place o roots h = .ok r h' ∧ Heap.place p roots g = .ok r g' ∧
      Agree P (r :: roots) h' g') ∨
    Spoiled (Heap.place o roots h) ∨ Spoiled (Heap.place p roots g) := by
  have sub : ∀ s ∈ roots ++ o.references, s ∈ held := fun s hs =>
    (List.mem_append.mp hs).elim (hroots s) (ho s)
  rcases (agree.left.less sub).place with ⟨h',hh,left⟩ | spoiled
  · rcases (agree.right.less (like.references ▸ sub)).place with ⟨g',hg,right⟩ | spoiled
    · left
      refine ⟨_,h',g',hh,agree.size ▸ hg,left.secure,agree.size ▸ right.secure,?_,?_,?_⟩
      · rw [left.size,right.size,agree.size]
      · rw [left.nextSlot,right.nextSlot,agree.nextSlot]
      · intro s hs hs'
        by_cases new : s = ⟨h.cells.size⟩
        · subst new
          have cell := right.cell
          rw [agree.size,agree.nextSlot] at cell
          rw [left.cell,cell]
          exact .some ⟨like,rfl,rfl⟩
        · obtain ⟨old,left⟩ := left.others s hs new
          obtain ⟨old',right⟩ := right.others s hs' (agree.size ▸ new)
          exact alike_of_untouched (agree.cells s old old') left right
    · exact .inr (.inr spoiled)
  · exact .inr (.inl spoiled)

end Agree

/-- Agreement as a comparison, for each reflexive relation of positions. -/
def agreement (P : Pos → Pos → Prop) (refl : ∀ p, P p p) : Comparison where
  pos := P
  heaps := Agree P
  safe := True
  lax := True
  refl
  less agree sub := agree.less sub
  cell agree hr := agree.cell hr
  live _ agree hr := agree.left.owned _ hr
  follow agree hr := agree.follow hr
  write agree _ like ho := agree.setObject like ho
  flush agree := ⟨agree.left.flush,agree.right.flush,agree.size,agree.nextSlot,agree.cells⟩
  place agree like ho hroots := (agree.place like ho hroots).imp id fun s => .inr ⟨trivial,s⟩

end Lox.Heap
