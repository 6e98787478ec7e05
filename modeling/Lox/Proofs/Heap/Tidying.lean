import Lox.Proofs.Heap.Growth

/-! # Tidying

Registering and collecting change no contents. Each object either stays as it is or is released and
keeps what a release leaves, and no object comes or goes.
-/
namespace Lox
variable {ν : Type}

/-- A cell keeps its object, or has released it. -/
def Cell.Tidied (c d : Cell ν) : Prop :=
  (d.object = c.object ∧ d.freed = c.freed) ∨ (d.object = c.object.emptied ∧ d.freed = true)

theorem Object.emptied_emptied (o : Object ν) : o.emptied.emptied = o.emptied := by cases o <;> rfl

namespace Cell.Tidied
variable {c d e : Cell ν}

theorem refl (c : Cell ν) : c.Tidied c := .inl ⟨rfl,rfl⟩

theorem trans (first : c.Tidied d) (second : d.Tidied e) : c.Tidied e := by
  rcases first with ⟨object,freed⟩ | ⟨object,freed⟩
  · rcases second with ⟨object',freed'⟩ | ⟨object',freed'⟩
    · exact .inl ⟨object'.trans object,freed'.trans freed⟩
    · exact .inr ⟨object'.trans (congrArg _ object),freed'⟩
  · right
    rcases second with ⟨object',freed'⟩ | ⟨object',freed'⟩
    · exact ⟨object'.trans object,freed'.trans freed⟩
    · exact ⟨(object'.trans (congrArg _ object)).trans c.object.emptied_emptied,freed'⟩

theorem kind (tidied : c.Tidied d) : d.object.kind = c.object.kind := by
  rcases tidied with ⟨object,-⟩ | ⟨object,-⟩
  · rw [object]
  · rw [object,Object.kind_emptied]

end Cell.Tidied

namespace Heap

/-- All cells are tidied. -/
def Tidied (cells others : Array (Cell ν)) : Prop :=
  ∀ i : Nat, Option.Rel Cell.Tidied cells[i]? others[i]?

namespace Tidied
variable {cells others more : Array (Cell ν)}

theorem refl (cells : Array (Cell ν)) : Tidied cells cells := fun i => by
  cases cells[i]? with
  | none => exact .none
  | some c => exact .some (.refl c)

theorem trans (first : Tidied cells others) (second : Tidied others more) : Tidied cells more :=
  fun i => by
    have one := first i
    have two := second i
    generalize cells[i]? = c,others[i]? = d,more[i]? = e at one two
    cases one with
    | none => exact two
    | some cd =>
      cases two with
      | some de => exact .some (cd.trans de)

/-- A change of one cell that tidies it. -/
theorem modify {f : Cell ν → Cell ν} (tidies : ∀ c : Cell ν, c.Tidied (f c)) (cells : Array (Cell ν)) (i : Nat) :
    Tidied cells (cells.modify i f) := fun j => by
  rw [Array.getElem?_modify]
  split
  · cases cells[j]? with
    | none => exact .none
    | some c => exact .some (tidies c)
  · exact refl cells j

theorem foldl_modify {f : Cell ν → Cell ν} (tidies : ∀ c : Cell ν, c.Tidied (f c)) (cells : Array (Cell ν))
    (rs : Array Ref) : Tidied cells (rs.foldl (fun cells r => cells.modify r.index f) cells) := by
  rw [← Array.foldl_toList]
  generalize rs.toList = l
  induction l generalizing cells with
  | nil => exact refl cells
  | cons r l ih => exact (modify tidies cells r.index).trans (ih _)

theorem of_recolored (same : Recolored cells others) : Tidied cells others := fun i => by
  cases hc : cells[i]? with
  | none =>
    have small := Array.getElem?_eq_none_iff.mp hc
    rw [Array.getElem?_eq_none_iff.mpr (same.size ▸ small)]
    exact .none
  | some c =>
    obtain ⟨m,hd⟩ := same.cell hc
    rw [hd]
    exact .some (.inl ⟨rfl,rfl⟩)

theorem size (tidied : Tidied cells others) : others.size = cells.size := by
  have outside : ∀ i : Nat, others[i]? = none ↔ cells[i]? = none := fun i => by
    have related := tidied i
    generalize cells[i]? = c,others[i]? = d at related
    cases related <;> simp
  simp only [Array.getElem?_eq_none_iff] at outside
  exact Nat.le_antisymm ((outside _).mpr (Nat.le_refl _)) ((outside _).mp (Nat.le_refl _))

end Tidied

/-! ## Invariants of single objects -/

theorem live_eq_ok {h : Heap ν} {r : Ref} {c : Cell ν} (found : h.live r = .ok c) :
    h.cells[r.index]? = some c ∧ c.freed = false := by
  simp only [live] at found
  cases hc : h.cells[r.index]? with
  | none =>
    rw [hc] at found
    cases found
  | some d =>
    rw [hc] at found
    cases freed : d.freed with
    | true =>
      simp only [freed,if_true] at found
      cases found
    | false =>
      simp only [freed,Bool.false_eq_true,if_false] at found
      cases found
      exact ⟨rfl,freed⟩

/-- An object that the heap owns has not been released. -/
theorem live_of_isRegistered {h : Heap ν} {r : Ref} (owned : h.isRegistered r) :
    ∃ c, h.live r = .ok c := by
  simp only [isRegistered] at owned
  simp only [live]
  cases hc : h.cells[r.index]? with
  | none => simp [hc] at owned
  | some c =>
    have kept : c.slot.isSome ∧ c.freed = false := by simpa [hc,Cell.isRegistered] using owned
    exact ⟨c,by simp [kept.2]⟩

theorem function_eq_ok {h : Heap ν} {f : Ref} {routine : Routine} {closure : Option Ref}
    (found : h.function f = .ok (routine,closure)) : h.object? f = some (.function routine closure) := by
  simp only [function] at found
  cases hc : h.live f with
  | error e =>
    rw [hc] at found
    cases found
  | ok c =>
    obtain ⟨cell,-⟩ := live_eq_ok hc
    rw [hc] at found
    simp only [object?,cell,Option.map_some,Option.some.injEq]
    rcases c with ⟨_ | _ | _ | _ | _,_,_,_⟩ <;> cases found
    rfl

/-- Every object is as is asked for, the released ones too. -/
def Every (P : Ref → Object ν → Prop) (h : Heap ν) : Prop := ∀ r o, h.object? r = some o → P r o

section
variable {P : Ref → Object ν → Prop} {h k : Heap ν}

theorem every_empty (rules : Rules) : Every P ({ rules } : Heap ν) := by
  intro r o ho
  simp [object?] at ho

theorem Every.tidied (emptied : ∀ r o, P r o → P r o.emptied) (tidied : Tidied h.cells k.cells)
    (every : h.Every P) : k.Every P := by
  intro r o ho
  have related := tidied r.index
  have old := every r
  simp only [object?] at ho old
  generalize h.cells[r.index]? = c,k.cells[r.index]? = d at related ho old
  cases related with
  | none => cases ho
  | some cd =>
    cases ho
    have old := old _ rfl
    dsimp only at old ⊢
    rcases cd with ⟨same,-⟩ | ⟨same,-⟩
    · rwa [same]
    · rw [same]
      exact emptied r _ old

theorem Every.create {o : Object ν} (new : P ⟨h.cells.size⟩ o) (every : h.Every P) :
    (stateAfter (create o h)).Every P := by
  intro r p hp
  simp only [stateAfter,Heap.create,object?,Array.getElem?_push] at hp
  split at hp
  · next e =>
    cases hp
    obtain rfl : r = ⟨h.cells.size⟩ := by cases r; cases e; rfl
    exact new
  · exact every r p hp

theorem Every.setObject {r : Ref} {o : Object ν} (new : P r o) (every : h.Every P) :
    (h.setObject r o).Every P := by
  intro s p hp
  simp only [Heap.setObject,object?,Array.getElem?_modify] at hp
  split at hp
  · next e =>
    obtain rfl : r = s := by cases r; cases s; cases e; rfl
    cases hc : h.cells[r.index]? with
    | none => simp [hc] at hp
    | some c =>
      simp only [hc,Option.map_some,Option.some.injEq] at hp
      exact hp ▸ new
  · exact every s p hp

end

variable {h : Heap ν}

theorem tidied_enroll (h : Heap ν) (r : Ref) : Tidied h.cells (h.enroll r).cells :=
  .modify (f := fun c => { c with slot := some h.nextSlot }) (fun _ => .inl ⟨rfl,rfl⟩) h.cells r.index

theorem tidied_sweep (h : Heap ν) : Tidied h.cells h.sweep.cells :=
  .foldl_modify (f := Cell.release) (fun _ => .inr ⟨rfl,rfl⟩) h.cells _

theorem tidied_unmarkAll (h : Heap ν) : Tidied h.cells h.unmarkAll.cells :=
  .foldl_modify (f := Cell.unmark) (fun _ => .inl ⟨rfl,rfl⟩) h.cells _

variable [Holder ν]

theorem tidied_markFrom (h : Heap ν) (roots : List Ref) : Tidied h.cells (h.markFrom roots).2.cells :=
  (tidied_unmarkAll h).trans (.of_recolored (mark_recolored h.unmarkAll.cells roots.reverse))

/-- A collection releases objects and changes none, also when it fails. -/
theorem tidied_collect (roots : List Ref) (h : Heap ν) :
    Tidied h.cells (stateAfter (collect roots h)).cells :=
  have marked := tidied_markFrom h roots
  have swept := marked.trans (tidied_sweep (h.markFrom roots).2)
  after_collect (P := fun k => Tidied h.cells k.cells) marked swept fun _ _ _ => swept

theorem tidied_register (r : Ref) (roots : List Ref) (h : Heap ν) :
    Tidied h.cells (stateAfter (register r roots h)).cells := by
  have ends := registers r roots h
  generalize register r roots h = x at ends ⊢
  cases ends with
  | missing | again => exact .refl _
  | spare => exact tidied_enroll h r
  | @collected c n k _ _ _ done =>
    have collected := tidied_collect (roots ++ c.object.references) h
    rw [done] at collected
    exact collected.trans (tidied_enroll k r)
  | @broken c f k _ _ _ failed =>
    have collected := tidied_collect (roots ++ c.object.references) h
    rwa [failed] at collected

end Heap
end Lox
