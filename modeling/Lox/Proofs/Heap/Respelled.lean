import Lox.Proofs.Heap.Aligned
import Lox.Proofs.Heap.Allocation
import Lox.Proofs.Heap.Copying
import Lox.Proofs.Heap.Growth

/-! # Respelled heaps

Copies that stay where the originals are: only names are spelled in another way. The two heaps
allocate and collect in step, since a collector looks at no names.
-/
namespace Lox
open Heap

/-! ## Failures of allocations -/

section
variable {ν : Type} [Holder ν]

theorem scoping_collect {roots : List Ref} {h k : Heap ν} {f : Failure}
    (e : collect roots h = .error f k) : ∃ g, f = .fault g ∧ g.isScoping = false := by
  have ends := collects roots h
  rw [e] at ends
  cases ends with
  | stray met =>
    refine ⟨_,rfl,?_⟩
    rcases fault_of_mark met with ⟨_,_,rfl⟩ | rfl <;> rfl
  | boundless => exact ⟨_,rfl,rfl⟩
  | corrupt _ _ _ met =>
    obtain ⟨_,_,_,rfl⟩ := fault_of_verify met
    exact ⟨_,rfl,rfl⟩

/-- An allocation fails only by a fault that has nothing to do with scopes. -/
theorem scoping_place {o : Object ν} {roots : List Ref} {h k : Heap ν} {f : Failure}
    (e : place o roots h = .error f k) : ∃ g, f = .fault g ∧ g.isScoping = false := by
  rw [place_eq] at e
  split at e
  · cases e
  · next registered =>
    cases e
    have ends := registers ⟨h.cells.size⟩ roots { h with cells := h.cells.push { object := o } }
    rw [registered] at ends
    cases ends with
    | missing | again => exact ⟨_,rfl,rfl⟩
    | broken _ _ _ failed => exact scoping_collect failed

/-- An allocation makes room for one more object. -/
theorem size_place (o : Object ν) (roots : List Ref) (h : Heap ν) :
    h.cells.size < (stateAfter (place o roots h)).cells.size := by
  have grows := (grows_register ⟨h.cells.size⟩ roots
    { h with cells := h.cells.push { object := o } }).cells
  rw [Array.size_push] at grows
  rw [place_eq]
  split <;> next e => rw [e] at grows; exact grows

end

/-! ## Copies in place -/

namespace Guise
variable {G : Guise}

section
variable (here : ∀ i, G.move i = i)
include here

theorem ref_eq (r : Ref) : G.ref r = r := congrArg Ref.mk (here r.index)

theorem value_eq (x : Value) : G.value x = x := by
  cases x with
  | object r => exact congrArg Value.object (ref_eq here r)
  | bound f r => exact congrArg₂ Value.bound (ref_eq here f) (ref_eq here r)
  | _ => rfl

theorem references_copy (R : Role) (o : Object Value) : (G.copy R o).references = o.references := by
  have refs : G.ref = id := funext (ref_eq here)
  have values : G.value = id := funext (value_eq here)
  cases R <;> cases o <;>
    simp [copy,Object.references,Bindings.values_transport,refs,values]

end

/-- Objects with a role as they are copied, and all others as they are. -/
def related (G : Guise) (W : World) : Relation := fun r freed o p =>
  match W r with
  | none => p = o
  | some R => p = G.copy R o ∧ R.Shape o ∧ (freed = true → o.emptied = o) ∧
      (freed = false → G.Content W r R o)

variable {W V : World} {r : Ref} {R : Role} {b : Bool} {o p : Object Value}

theorem related_of_role (role : W r = some R) : G.related W r b o p ↔ p = G.copy R o ∧ R.Shape o ∧
    (b = true → o.emptied = o) ∧ (b = false → G.Content W r R o) := by
  simp only [related,role]

theorem regular_related (here : ∀ i, G.move i = i) (W : World) : Regular (G.related W) := by
  have plain : ∀ {r b o p}, W r = none → (G.related W r b o p ↔ p = o) := fun role => by
    simp only [related,role]
  constructor
  · intro r b o p like
    cases role : W r with
    | none => rw [(plain role).mp like]
    | some R => rw [((related_of_role role).mp like).1,kind_copy]
  · intro r b o p like
    cases role : W r with
    | none => rw [(plain role).mp like]
    | some R => rw [((related_of_role role).mp like).1,references_copy here]
  · intro r b o p like
    cases role : W r with
    | none => exact (plain role).mpr (congrArg Object.emptied ((plain role).mp like))
    | some R =>
      obtain ⟨copied,shape,-⟩ := (related_of_role role).mp like
      refine (related_of_role role).mpr ⟨by rw [copied,copy_emptied],shape.emptied,fun _ => ?_,nofun⟩
      cases o <;> rfl

/-- What is known of other objects may be more. -/
theorem related_put (up : W.Grows (W.put r R)) {s : Ref} (other : s ≠ r)
    (like : G.related W s b o p) : G.related (W.put r R) s b o p := by
  have same := World.put_of_ne other R (W := W)
  cases role : W s with
  | none =>
    simp only [related,role,same] at like ⊢
    exact like
  | some S =>
    obtain ⟨copied,shape,empty,content⟩ := (related_of_role role).mp like
    exact (related_of_role (same.trans role)).mpr
      ⟨copied,shape,empty,fun live => (content live).grows up⟩

end Guise

namespace Copying

/-- Copies that stay where the originals are. -/
def inPlace (G : Guise) (here : ∀ i, G.move i = i) : Copying where
  toGuise := G
  heaps W h g := Aligned (G.related W) h g ∧ ∀ r R, W r = some R → r.index < h.cells.size
  tight := True
  stays i _ := here i
  cell := by
    rintro W h g r R ⟨same,inside⟩ role
    have lt := inside r R role
    have lt' : r.index < g.cells.size := same.cells.size_eq ▸ lt
    have cells := same.cells.getElem lt lt'
    obtain ⟨copied,shape,empty,content⟩ := (Guise.related_of_role role).mp cells.object
    refine ⟨_,_,Array.getElem?_eq_getElem lt,?_,copied,cells.freed,fun _ => cells.slot,empty,shape,
      content⟩
    rw [here]
    exact Array.getElem?_eq_getElem lt'
  write := by
    rintro W h g r R S c o ⟨same,inside⟩ role grows hc freed content
    have up := World.grows_put role grows
    rw [show G.ref r = r from Guise.ref_eq here r]
    constructor
    · refine same.setObject (fun s other b o p => Guise.related_put up other) fun c' hc' => ?_
      obtain rfl := Option.some.inj (hc.symm.trans hc')
      exact (Guise.related_of_role (World.put_self r S)).mpr
        ⟨rfl,content.shape,fun h => absurd h (by simp [freed]),fun _ => content⟩
    · intro s T hs
      simp only [setObject,Array.size_modify]
      by_cases e : s = r
      · exact e ▸ inside r R role
      · exact inside s T ((World.put_of_ne e S).symm.trans hs)
  journal _ held := by rw [held.1.rest]
  flush := fun ⟨same,inside⟩ => ⟨same.flush,inside⟩
  place := by
    rintro W h g R o roots others ⟨same,inside⟩ tight content
    rw [tight trivial,here]
    have fresh : W ⟨h.cells.size⟩ = none := by
      cases role : W ⟨h.cells.size⟩ with
      | none => rfl
      | some R => exact absurd (inside _ R role) (Nat.lt_irrefl _)
    have up := World.grows_put_new fresh R
    have like : G.related (W.put ⟨h.cells.size⟩ R) ⟨h.cells.size⟩ false o (G.copy R o) :=
      (Guise.related_of_role (World.put_self _ R)).mpr ⟨rfl,content.shape,nofun,fun _ => content⟩
    have lifted := same.imp fun s lt b o p =>
      Guise.related_put up fun e => Nat.lt_irrefl _ (e ▸ lt)
    have placed := lifted.inStep_place (Guise.regular_related here _) like roots
    have larger := size_place o roots h
    have inside : ∀ r S, W.put ⟨h.cells.size⟩ R r = some S → r.index < h.cells.size + 1 := by
      intro r S hr
      by_cases e : r = ⟨h.cells.size⟩
      · exact e ▸ Nat.lt_succ_self _
      · exact Nat.lt_succ_of_lt (inside r S ((World.put_of_ne e R).symm.trans hr))
    generalize e : Heap.place o roots h = x,Heap.place (G.copy R o) roots g = y at placed larger
    cases placed with
    | @ok r h' g' same =>
      obtain rfl : r = ⟨h.cells.size⟩ := by
        rw [place_eq] at e
        split at e
        · cases e
          rfl
        · cases e
      exact .inl ⟨h',g',rfl,rfl,same,fun r S hr => Nat.lt_of_lt_of_le (inside r S hr) larger⟩
    | @error f h' g' same =>
      obtain ⟨fault,rfl,scoping⟩ := scoping_place e
      exact .inr ⟨_,fault,h',g',rfl,rfl,scoping,up,same,
        fun r S hr => Nat.lt_of_lt_of_le (inside r S hr) larger⟩

end Copying
end Lox
