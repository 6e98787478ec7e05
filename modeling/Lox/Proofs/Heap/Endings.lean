import Lox.Heap.Collect

/-! # How collections and registrations end

A collection breaks off at the first stray object in reach, after the sweep when the next threshold is no
integer, and when the audit finds a stray reference. Otherwise it is counted. A registration fails on an
object that cannot be registered, or in the collection that it begins. Here is every way in which the two
end, so that proofs about them go by these cases and not by the code.
-/
namespace Lox.Heap
variable {ν : Type} [Holder ν]

/-- A heap that has been marked and swept, with the collection counted and the next threshold fixed. -/
def completed (h : Heap ν) (roots : List Ref) (next : Nat) : Heap ν :=
  let m := (h.markFrom roots).2
  m.sweep.complete (m.liveCount - m.sweep.liveCount) next

/-- Marking breaks off at an object that the heap does not own, or where there is no object. -/
theorem fault_of_mark {cells : Array (Cell ν)} {work : List Ref} {f : Fault}
    (met : (mark cells work).1 = some f) : (∃ kind slot, f = .strayReachable kind slot) ∨ f = .noObject := by
  fun_induction mark cells work with
  | case1 => cases met
  | case2 _ _ _ _ _ _ ih => exact ih met
  | case3 _ _ _ _ _ _ _ ih => exact ih met
  | case4 => exact .inl ⟨_,_,(Option.some.inj met).symm⟩
  | case5 => exact .inr (Option.some.inj met).symm

/-- An audit finds nothing but stray references. -/
theorem fault_of_verify {h : Heap ν} {f : Fault} (met : h.verify = some f) :
    ∃ holder slot target, f = .strayReference holder slot target := by
  obtain ⟨r,-,stray⟩ := List.exists_of_findSome?_eq_some met
  obtain ⟨s,-,rfl⟩ := Option.map_eq_some_iff.mp stray
  exact ⟨_,_,_,rfl⟩

/-- How a collection ends. -/
inductive Collects (roots : List Ref) (h : Heap ν) : EStateM.Result Failure (Heap ν) Nat → Prop
  | stray {f : Fault} (met : (h.markFrom roots).1 = some f) :
    Collects roots h (.error (.fault f) (h.markFrom roots).2)
  | boundless {e : Number.NotIntegral} (sound : (h.markFrom roots).1 = none)
    (spoiled : grownThreshold h.rules (h.markFrom roots).2.sweep.liveCount = .error e) :
    Collects roots h (.error (.fault (.threshold e)) (h.markFrom roots).2.sweep)
  | corrupt {next : Nat} {f : Fault} (sound : (h.markFrom roots).1 = none)
    (fixed : grownThreshold h.rules (h.markFrom roots).2.sweep.liveCount = .ok next)
    (audited : h.rules.audited) (met : (h.completed roots next).verify = some f) :
    Collects roots h (.error (.fault f) { h.completed roots next with audits := h.audits + 1 })
  | done {next : Nat} (sound : (h.markFrom roots).1 = none)
    (fixed : grownThreshold h.rules (h.markFrom roots).2.sweep.liveCount = .ok next)
    (clean : h.rules.audited → (h.completed roots next).verify = none) :
    Collects roots h (.ok ((h.markFrom roots).2.liveCount - (h.markFrom roots).2.sweep.liveCount)
      { h.completed roots next with audits := h.audits + if h.rules.audited then 1 else 0 })

theorem collects (roots : List Ref) (h : Heap ν) : Collects roots h (collect roots h) := by
  simp only [collect]
  split
  · next f m e =>
    obtain ⟨met,rfl⟩ := Prod.ext_iff.mp e
    exact .stray met
  · next m e =>
    obtain ⟨sound,rfl⟩ := Prod.ext_iff.mp e
    split
    · next spoiled => exact .boundless sound spoiled
    · next next fixed =>
      have counted := Collects.done sound fixed
      split
      · next audited =>
        have audited : h.rules.audited := audited
        rw [if_pos audited] at counted
        simp only [SeqRight.seqRight,EStateM.seqRight,audit]
        cases verified : (h.completed roots next).verify with
        | some f =>
          have broken := Collects.corrupt sound fixed audited verified
          simp only [completed] at verified broken
          rw [verified]
          exact broken
        | none =>
          have counted := counted fun _ => verified
          simp only [completed] at verified counted
          rw [verified]
          exact counted
      · next silent =>
        have silent : ¬h.rules.audited := silent
        rw [if_neg silent] at counted
        exact counted fun audited => absurd audited silent

/-- How a registration ends. -/
inductive Registers (r : Ref) (roots : List Ref) (h : Heap ν) : EStateM.Result Failure (Heap ν) Nat → Prop
  | missing (none : h.cells[r.index]? = none) : Registers r roots h (.error (.fault .noObject) h)
  | again {c : Cell ν} {slot : Nat} (cell : h.cells[r.index]? = some c) (old : c.slot = some slot) :
    Registers r roots h (.error (.fault (.alreadyRegistered c.object.kind slot)) h)
  | spare {c : Cell ν} (cell : h.cells[r.index]? = some c) (new : c.slot = none) (spare : h.due = false) :
    Registers r roots h (.ok h.nextSlot (h.enroll r))
  | collected {c : Cell ν} {n : Nat} {k : Heap ν} (cell : h.cells[r.index]? = some c) (new : c.slot = none)
    (due : h.due) (done : collect (roots ++ c.object.references) h = .ok n k) :
    Registers r roots h (.ok k.nextSlot (k.enroll r))
  | broken {c : Cell ν} {f : Failure} {k : Heap ν} (cell : h.cells[r.index]? = some c) (new : c.slot = none)
    (due : h.due) (failed : collect (roots ++ c.object.references) h = .error f k) :
    Registers r roots h (.error f k)

theorem registers (r : Ref) (roots : List Ref) (h : Heap ν) : Registers r roots h (register r roots h) := by
  simp only [register]
  split
  · next none => exact .missing none
  · next c cell =>
    split
    · next old => exact .again cell old
    · next new =>
      split
      · next due =>
        split
        · next done => exact .collected cell new due done
        · next failed => exact .broken cell new due failed
      · next spare => exact .spare cell new (Bool.eq_false_iff.mpr spare)

section
variable {h : Heap ν} {roots : List Ref} {r : Ref} {c : Cell ν} (cell : h.cells[r.index]? = some c)
  (new : c.slot = none)
include cell new

/-- What the registration of a new object comes to. -/
theorem register_new : register r roots h =
    if h.due then
      match collect (roots ++ c.object.references) h with
      | .ok _ k => .ok k.nextSlot (k.enroll r)
      | .error f k => .error f k
    else .ok h.nextSlot (h.enroll r) := by
  simp only [register,cell]
  split
  · next old => cases old.symm.trans new
  · rfl

/-- The registration of a new object fails in the collection that it begins. -/
theorem collect_of_register_error {f : Failure} {k : Heap ν} (failed : register r roots h = .error f k) :
    h.due ∧ collect (roots ++ c.object.references) h = .error f k := by
  have ends := registers r roots h
  rw [failed] at ends
  cases ends with
  | missing none => cases none.symm.trans cell
  | again same old =>
    cases same.symm.trans cell
    cases old.symm.trans new
  | broken same _ due collected =>
    cases same.symm.trans cell
    exact ⟨due,collected⟩

end

end Lox.Heap
