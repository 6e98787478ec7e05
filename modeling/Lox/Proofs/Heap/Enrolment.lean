import Lox.Proofs.Heap.Accounts
import Lox.Proofs.Heap.Allocation

/-! # Enrolment

A new object is invisible to the collection that its own registration may begin: what it refers to is
handed over as roots. So a registration whose references are in order leaves a heap in order, with the
object in a slot that no object has had before, and releases nothing that the object leads to.
-/
namespace Lox.Heap
variable {ν : Type} [Holder ν] {h : Heap ν} {roots : List Ref} {r : Ref} {c : Cell ν}

/-! ## Slots grow -/

/-- A registration takes the next slot, and the slot after it is the next. -/
theorem nextSlot_register {n : Nat} {k : Heap ν} (done : register r roots h = .ok n k) :
    n = h.nextSlot ∧ k.nextSlot = h.nextSlot + 1 := by
  have ends := registers r roots h
  rw [done] at ends
  cases ends with
  | spare => exact ⟨rfl,rfl⟩
  | @collected c _ g _ _ _ collected =>
    have same := (slots_collect (roots ++ c.object.references) h).2
    rw [collected] at same
    exact ⟨same,congrArg (· + 1) same⟩

/-- A registration that breaks off hands out no slot. -/
theorem nextSlot_register_error {f : Failure} {k : Heap ν} (failed : register r roots h = .error f k) :
    k.nextSlot = h.nextSlot := by
  have ends := registers r roots h
  rw [failed] at ends
  cases ends with
  | missing | again => rfl
  | @broken c _ _ _ _ _ collected =>
    have same := (slots_collect (roots ++ c.object.references) h).2
    rwa [collected] at same

theorem nextSlot_next (h : Heap ν) (q : Request ν) : h.nextSlot ≤ (h.next q).nextSlot := by
  apply next_cases (P := fun k => h.nextSlot ≤ k.nextSlot) h q
  · exact fun o _ => Nat.le_refl _
  · intro r roots _
    cases e : register r roots h with
    | ok n k => exact Nat.le_of_lt (Nat.lt_of_lt_of_eq (Nat.lt_succ_self _) (nextSlot_register e).2.symm)
    | error f k => exact Nat.le_of_eq (nextSlot_register_error e).symm
  · exact fun roots _ => Nat.le_of_eq (slots_collect roots h).2.symm
  · simp only [audit]
    cases h.verify <;> exact Nat.le_refl _
  · rintro k (rfl | ⟨r,o,rfl⟩) <;> exact Nat.le_refl _

theorem nextSlot_after (h : Heap ν) (history : List (Request ν)) : h.nextSlot ≤ (h.after history).nextSlot := by
  induction history generalizing h with
  | nil => exact Nat.le_refl _
  | cons q rest ih => exact Nat.le_trans (nextSlot_next h q) (ih (h.next q))

theorem slot_lt_nextSlot_next {q : Request ν} {e : Entry} (entered : h.entered? q = some e) :
    e.slot < (h.next q).nextSlot := by
  cases q with
  | register r roots =>
    simp only [entered?] at entered
    simp only [next,Request.perform,stateAfter_map]
    cases done : register r roots h with
    | ok n k =>
      obtain ⟨slot,following⟩ := nextSlot_register done
      rw [done] at entered
      cases entered
      rw [stateAfter,slot,following]
      exact Nat.lt_succ_self _
    | error f k =>
      rw [done] at entered
      cases entered
  | _ => cases entered

/-- Every slot that a history has handed out is below the next. -/
theorem slot_lt_nextSlot (h : Heap ν) (history : List (Request ν)) :
    ∀ e ∈ h.ledger history, e.slot < (h.after history).nextSlot := by
  induction history generalizing h with
  | nil => exact fun e he => absurd he List.not_mem_nil
  | cons q rest ih =>
    intro e he
    rcases List.mem_append.mp he with new | later
    · exact Nat.lt_of_lt_of_le (slot_lt_nextSlot_next (Option.mem_toList.mp new)) (nextSlot_after _ rest)
    · exact ih _ e later

/-! ## What a registration leaves -/

omit [Holder ν] in
theorem Untouched.object?_eq {k : Heap ν} (same : Untouched h k r) : k.object? r = h.object? r := by
  simpa [object?,Option.map_map,Function.comp_def,Cell.unmark] using congrArg (Option.map Cell.object) same

omit [Holder ν] in
theorem Untouched.slotOf_eq {k : Heap ν} (same : Untouched h k r) : k.slotOf r = h.slotOf r := by
  simpa [slotOf,Option.bind_map,Function.comp_def,Cell.unmark] using congrArg (Option.bind · Cell.slot) same

theorem Coherent.closed_of_verify (own : h.Coherent) (verified : h.verify = none) : h.Closed := by
  intro r owned s hs
  rw [verify,List.findSome?_eq_none_iff] at verified
  have fine := verified r (Array.mem_toList_iff.mpr ((own.mem_iff r).mpr owned))
  rw [strayReference?,Option.map_eq_none_iff,List.find?_eq_none] at fine
  simpa using fine s hs

theorem Secure.verify_eq_none (sec : Secure roots h) : h.verify = none :=
  Heap.verify_eq_none fun r hr => sec.closed r ((sec.coherent.mem_iff r).mp hr)

/-- What an object leads to, besides itself, is what its references lead to. -/
theorem reach_cons_iff (cell : h.cells[r.index]? = some c) (s : Ref) :
    h.Reach (r :: roots) s ↔ s = r ∨ h.Reach (roots ++ c.object.references) s := by
  have references : h.referencesOf r = c.object.references := by simp [referencesOf,cell]
  constructor
  · intro reach
    induction reach with
    | root m => exact (List.mem_cons.mp m).imp_right fun m => .root (List.mem_append_left _ m)
    | step _ m ih =>
      right
      rcases ih with rfl | ih
      · exact .root (List.mem_append_right _ (references ▸ m))
      · exact .step ih m
  · rintro (rfl | reach)
    · exact .root List.mem_cons_self
    · refine reach.trans fun t ht => ?_
      rcases List.mem_append.mp ht with m | m
      · exact .root (List.mem_cons_of_mem _ m)
      · exact .step (.root List.mem_cons_self) (references ▸ m)

/-- What the heap owns behind a registration: the new object with all it had before, or with what a collection
has left of that. -/
theorem Secure.register_owned (sec : Secure (roots ++ c.object.references) h)
    (cell : h.cells[r.index]? = some c) (new : c.slot = none) {n : Nat} {k : Heap ν}
    (done : Heap.register r roots h = .ok n k) :
    k.collections = h.collections + (if h.due then 1 else 0) ∧
      ∀ s, k.isRegistered s ↔
        s = r ∨ if h.due then h.Reach (roots ++ c.object.references) s else h.isRegistered s := by
  have own := sec.coherent
  have sound := sec.closed.sound sec.owned
  rw [register_new cell new] at done
  split at done
  · next due =>
    have kept := own.getElem?_collect_new (roots ++ c.object.references) cell new
    have tidy := own.collect (roots ++ c.object.references)
    rcases own.collect_cases sound with ⟨released,m,e,collected⟩ | ⟨_,_,e,-⟩
    · rw [e] at done kept tidy
      cases done
      have tidy : m.Coherent := tidy
      refine ⟨by rw [if_pos due]; exact collected.collections,fun s => ?_⟩
      rw [tidy.isRegistered_enroll kept new,if_pos due,Bool.or_eq_true,decide_eq_true_eq,
        collected.isRegistered_iff own sound]
    · rw [e] at done
      cases done
  · next idle =>
    cases done
    refine ⟨by rw [if_neg idle]; rfl,fun s => ?_⟩
    rw [own.isRegistered_enroll cell new,if_neg idle,Bool.or_eq_true,decide_eq_true_eq]

/-- A registration on a heap in order, of an object whose references are in order, succeeds and leaves a heap in
order. Whatever the roots or the new object lead to is still there as it was, and if there has been a
collection there is nothing else. -/
theorem register_keeps_closed (rules : Rules) (history : List (Request ν)) :
    let h := after { rules } history
    h.verify = none → ∀ roots, h.Sound roots →
    (∀ n ≤ h.liveCount, ∃ next, grownThreshold h.rules n = .ok next) →
    ∀ (r : Ref) (c : Cell ν), h.cells[r.index]? = some c → c.slot = none →
    (∀ s ∈ c.object.references, h.isRegistered s) →
    ∃ slot k, register r roots h = .ok slot k ∧
      (∀ e ∈ ledger { rules } history, e.slot < slot) ∧
      k.isRegistered r ∧ k.slotOf r = some slot ∧
      (∀ s, h.Reach (r :: roots) s →
        k.isRegistered s ∧ ¬k.isFreed s ∧ k.object? s = h.object? s ∧ (s ≠ r → k.slotOf s = h.slotOf s)) ∧
      (h.due → k.collections = h.collections + 1 ∧ ∀ s, k.isRegistered s → h.Reach (r :: roots) s) ∧
      (¬h.due → k.collections = h.collections ∧ ∀ s, k.isRegistered s ↔ s = r ∨ h.isRegistered s) ∧
      k.verify = none := by
  intro h verified roots sound finite r c cell new owned
  have own : h.Coherent := (coherent_empty rules).after history
  have sec : Secure (roots ++ c.object.references) h := by
    refine ⟨own,own.closed_of_verify verified,fun s hs => ?_⟩
    rcases List.mem_append.mp hs with m | m
    · exact sound s (.root m)
    · exact owned s m
  have all := sec.closed.sound sec.owned
  obtain ⟨k,done⟩ : ∃ k, register r roots h = .ok h.nextSlot k := by
    obtain ⟨k,done,-⟩ := own.register_isOk cell new (sound_iff.mp all) finite
    exact ⟨k,done⟩
  obtain ⟨l,done',enrolled⟩ := (sec.register cell new).resolve_right (by rw [done]; exact id)
  cases done.symm.trans done'
  obtain ⟨collections,registered⟩ := sec.register_owned cell new done
  have slot : k.slotOf r = some h.nextSlot := by rw [slotOf,enrolled.cell]; rfl
  have reached : ∀ s, h.Reach (r :: roots) s → k.isRegistered s := by
    intro s reach
    rw [registered]
    refine ((reach_cons_iff cell s).mp reach).imp_right fun reach => ?_
    split
    · exact reach
    · exact all s reach
  refine ⟨h.nextSlot,k,done,slot_lt_nextSlot _ history,reached r (.root List.mem_cons_self),slot,?_,?_,?_,
    enrolled.secure.verify_eq_none⟩
  · intro s reach
    have still := reached s reach
    refine ⟨still,fun gone => not_isRegistered_of_isFreed gone still,?_,fun other => ?_⟩
    · by_cases e : s = r
      · rw [e,object?,object?,enrolled.cell,cell]
        rfl
      · exact (enrolled.others s still e).2.object?_eq
    · exact (enrolled.others s still other).2.slotOf_eq
  · intro due
    rw [if_pos due] at collections
    refine ⟨collections,fun s still => (reach_cons_iff cell s).mpr ?_⟩
    simpa only [if_pos due] using (registered s).mp still
  · intro idle
    rw [if_neg idle] at collections
    exact ⟨collections,fun s => by simpa only [if_neg idle] using registered s⟩

/-- An environment that only a function leads to, which waits for its registration, and another that nothing leads to. -/
def waiting : List (Request Value) :=
  [.create (.environment {} none),.register ⟨0⟩ [],.create (.environment {} none),.register ⟨1⟩ [⟨0⟩],
    .create (.function default (some ⟨0⟩))]

theorem register_keeps_closed_waiting :
    let h := after { rules := { stress := true } } waiting
    h.verify = none ∧ h.Sound [] ∧ ∃ slot k, register ⟨2⟩ [] h = .ok slot k ∧
      (∀ e ∈ ledger { rules := { stress := true } } waiting, e.slot < slot) ∧
      k.isRegistered ⟨0⟩ ∧ ¬k.isRegistered ⟨1⟩ ∧ k.isRegistered ⟨2⟩ ∧ k.verify = none := by
  intro h
  have verified : h.verify = none := by decide +kernel
  have sound : h.Sound [] := fun r reach => absurd reach (not_reach_nil r)
  have finite := finite_of_isSome h.rules h.liveCount (by decide +kernel)
  have pending : h.cells[2]?.map (·.slot) = some none := by decide +kernel
  obtain ⟨c,cell,new⟩ := Option.map_eq_some_iff.mp pending
  have leads : h.referencesOf ⟨2⟩ = [⟨0⟩] := by decide +kernel
  have ends : h.referencesOf ⟨0⟩ = [] := by decide +kernel
  have references : c.object.references = [⟨0⟩] := by simpa [referencesOf,cell] using leads
  have owned : ∀ s ∈ c.object.references, h.isRegistered s := by
    rw [references]
    decide +kernel
  have reached : ∀ s, h.Reach [⟨2⟩] s → s = ⟨2⟩ ∨ s = ⟨0⟩ := by
    intro s reach
    induction reach with
    | root m => exact .inl (List.mem_singleton.mp m)
    | step _ m ih =>
      rcases ih with rfl | rfl
      · rw [leads] at m
        exact .inr (List.mem_singleton.mp m)
      · rw [ends] at m
        exact absurd m List.not_mem_nil
  obtain ⟨slot,k,done,fresh,still,-,kept,rest,-,clean⟩ :=
    register_keeps_closed { stress := true } waiting verified [] sound finite ⟨2⟩ c cell new owned
  refine ⟨verified,sound,slot,k,done,fresh,?_,fun left => ?_,still,clean⟩
  · exact (kept ⟨0⟩ (.step (.root List.mem_cons_self) (by rw [leads]; exact List.mem_cons_self))).1
  · rcases reached ⟨1⟩ ((rest (by decide +kernel)).2 ⟨1⟩ left) with e | e <;> cases e

end Lox.Heap
