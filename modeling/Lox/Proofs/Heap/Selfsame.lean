import Lox.Proofs.Heap.Agreement

/-! # One secure heap

A secure heap compared with itself. What holds of all comparisons then says that the heap stays
secure, also when an allocation breaks off at a threshold.
-/
namespace Lox.Heap

theorem alike_self (c : Option (Cell Value)) : Option.Rel (Cell.Alike Eq) c c := by
  cases c with
  | none => exact .none
  | some c => exact .some ⟨.same _,rfl,rfl⟩

/-- The comparison of a heap with itself, which is safe and not lax. -/
def selfsame : Comparison where
  pos := Eq
  heaps held h g := g = h ∧ Secure held h
  safe := True
  lax := False
  refl _ := rfl
  less same sub := ⟨same.1,same.2.less sub⟩
  cell same _ := same.1 ▸ alike_self _
  live _ same hr := same.2.owned _ hr
  follow same hr := ⟨same.1,same.2.follow hr⟩
  write same _ like ho := ⟨by rw [same.1,like.eq],same.2.setObject _ ho⟩
  flush same := ⟨by rw [same.1],same.2.flush⟩
  place := by
    rintro held roots h g o p ⟨rfl,sec⟩ like ho hroots
    cases like.eq
    have sec : Secure (roots ++ o.references) g := sec.less fun s hs =>
      (List.mem_append.mp hs).elim (hroots s) (ho s)
    cases e : Heap.place o roots g with
    | ok r k =>
      rcases sec.place with ⟨l,e',placed⟩ | spoiled
      · rw [e] at e'
        cases e'
        exact .inl ⟨_,k,k,rfl,rfl,rfl,placed.secure⟩
      · rw [e] at spoiled
        exact spoiled.elim
    | error f k =>
      obtain ⟨harmless,kept⟩ := sec.place_error e
      exact .inr (.inl ⟨f,k,k,rfl,rfl,fun _ => harmless,rfl,kept⟩)

end Lox.Heap
