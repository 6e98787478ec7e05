import Lox.Proofs.Heap.Stray
import Lox.Proofs.Heap.Tidying
import Mathlib.Algebra.GroupWithZero.Nat

/-! # Accounts

A heap counts what it registers and what it releases. The accounts are kept through collections that
break off at a stray object, also in the middle of a registration: what has been registered is what has been
released together with what is still there, slots are handed out in order and belong to one object
for ever, and an object that has been released never comes back.
-/
namespace Lox

/-- Whether an operation has not been broken off by a threshold that is no integer. -/
def Failure.isCalm : Failure → Bool
  | fault f => !f.isArithmetic
  | cause _ => true

namespace Heap
variable {ν : Type}

/-- Every threshold that came up was finite. -/
def Calm {α : Type} (answer : Except Failure α) : Prop := ∀ f, answer = .error f → f.isCalm

instance {α : Type} : DecidablePred (Calm (α := α))
  | .ok _ => isTrue fun _ e => nomatch e
  | .error f => decidable_of_iff f.isCalm
    ⟨fun calm _ e => Except.error.inj e ▸ calm,fun calm => calm f rfl⟩

def isFreed (h : Heap ν) (r : Ref) : Bool := (h.cells[r.index]?.map (·.freed)).getD false

/-- A completed registration: the object, its slot, and how many objects the heap then owned. -/
structure Entry where
  object : Ref
  slot : Nat
  live : Nat
deriving DecidableEq

section
variable [Holder ν]

def entered? (h : Heap ν) : Request ν → Option Entry
  | .register r roots =>
    match register r roots h with
    | .ok slot k => some ⟨r,slot,k.liveCount⟩
    | .error .. => none
  | _ => none

/-- All registrations that a history completes. -/
def ledger (h : Heap ν) : List (Request ν) → List Entry
  | [] => []
  | q :: rest => (h.entered? q).toList ++ (h.next q).ledger rest

end

theorem Calm.map {α β : Type} {x : Except Failure α} {f : α → β} (calm : Calm (f <$> x)) : Calm x := by
  intro e he
  subst he
  exact calm e rfl

/-! ## Released objects -/

theorem Tidied.isFreed {h k : Heap ν} (tidied : Tidied h.cells k.cells) {r : Ref} (gone : h.isFreed r) :
    k.isFreed r := by
  have related := tidied r.index
  simp only [Heap.isFreed] at gone ⊢
  generalize h.cells[r.index]? = c,k.cells[r.index]? = d at related gone ⊢
  cases related with
  | none => exact gone
  | some cd =>
    rcases cd with ⟨-,freed⟩ | ⟨-,freed⟩
    · simpa [freed] using gone
    · simp [freed]

theorem not_isRegistered_of_isFreed {h : Heap ν} {r : Ref} (gone : h.isFreed r) : ¬h.isRegistered r := by
  simp only [isFreed,isRegistered,Cell.isRegistered] at gone ⊢
  cases hc : h.cells[r.index]? <;> simp_all

section
variable [Holder ν] {h : Heap ν} {r : Ref}

/-- A released object cannot be registered once more. -/
theorem Coherent.register_freed (own : h.Coherent) (gone : h.isFreed r) (roots : List Ref) :
    ∃ slot, h.slotOf r = some slot ∧
      Heap.register r roots h = .error (.fault (.alreadyRegistered (h.kindOf r) slot)) h := by
  simp only [isFreed] at gone
  cases hc : h.cells[r.index]? with
  | none => simp [hc] at gone
  | some c =>
    have freed : c.freed := by simpa [hc] using gone
    obtain ⟨slot,hs⟩ := Option.isSome_iff_exists.mp (own.slot_of_freed _ c hc freed)
    refine ⟨slot,?_,?_⟩
    · simp [slotOf,hc,hs]
    · simp [Heap.register,kindOf,hc,hs]

theorem isFreed_next (gone : h.isFreed r) (q : Request ν) : (h.next q).isFreed r := by
  apply next_cases (P := fun k => k.isFreed r) h q
  · intro o _
    simp only [isFreed,stateAfter,create,Array.getElem?_push] at gone ⊢
    split
    · next e => simp [e] at gone
    · exact gone
  · exact fun s roots _ => (tidied_register s roots h).isFreed gone
  · exact fun roots _ => (tidied_collect roots h).isFreed gone
  · simp only [audit]
    cases h.verify <;> exact gone
  · rintro k (rfl | ⟨s,o,rfl⟩)
    · exact gone
    · simp only [isFreed,setObject,Array.getElem?_modify] at gone ⊢
      split
      · cases hc : h.cells[r.index]? <;> simp_all
      · exact gone

theorem isFreed_after (gone : h.isFreed r) (history : List (Request ν)) : (h.after history).isFreed r := by
  induction history generalizing h with
  | nil => exact gone
  | cons q rest ih => exact ih (isFreed_next gone q)

end

/-! ## What a collection counts -/

theorem cycles_cons (e : Event) (h : Heap ν) :
    cycles { h with journal := e :: h.journal } = h.cycles ++ e.released?.toList := by
  simp only [cycles,List.reverse_cons,List.filterMap_append]
  cases e <;> rfl

theorem cycles_sweep (h : Heap ν) : h.sweep.cycles = h.cycles := by
  simp only [cycles,sweep,← Array.foldl_toList]
  generalize (h.registered.filter fun r => !h.isMarked r).toList = dead
  generalize h.journal = journal
  induction dead generalizing journal with
  | nil => rfl
  | cons r rest ih => rw [List.foldl_cons,ih]; simp [Event.released?]

theorem cycles_complete (h : Heap ν) (freed next : Nat) : (h.complete freed next).cycles = h.cycles ++ [freed] :=
  cycles_cons (.cycle (h.collections + 1) freed h.liveCount next) h

/-- What a step that registers nothing leaves of the accounts, with the collections it has counted. -/
structure Swept (h k : Heap ν) (counted : List Nat) : Prop where
  slotOf_eq : ∀ r, k.slotOf r = h.slotOf r
  order : k.registered.toList.Sublist h.registered.toList
  nextSlot : k.nextSlot = h.nextSlot
  allocated : k.allocated = h.allocated
  peakLive : k.peakLive = h.peakLive
  cycles : k.cycles = h.cycles ++ counted
  collections : k.collections = h.collections + counted.length
  freed : k.freed = h.freed + counted.sum
  live : k.liveCount + counted.sum = h.liveCount

theorem swept_refl (h : Heap ν) : Swept h h [] where
  slotOf_eq _ := rfl
  order := .refl _
  nextSlot := rfl
  allocated := rfl
  peakLive := rfl
  cycles := (List.append_nil _).symm
  collections := rfl
  freed := rfl
  live := rfl

theorem swept_of_unmarked {h k : Heap ν} (same : k.unmarked = h.unmarked) : Swept h k [] := by
  obtain ⟨eq,recolored⟩ := unmarked_eq_iff.mp same
  rw [eq]
  exact { swept_refl h with
    slotOf_eq r := by rw [← slotOf_unmarked,← eq,same,slotOf_unmarked] }

theorem swept_create (o : Object ν) (h : Heap ν) : Swept h (stateAfter (create o h)) [] :=
  { swept_refl h with
    slotOf_eq r := by
      simp only [slotOf,stateAfter,create,Array.getElem?_push]
      split
      · next e => simp [e]
      · rfl }

theorem swept_setObject (h : Heap ν) (r : Ref) (o : Object ν) : Swept h (h.setObject r o) [] :=
  { swept_refl h with
    slotOf_eq s := by
      simp only [slotOf,setObject,Array.getElem?_modify]
      split
      · cases h.cells[s.index]? <;> rfl
      · rfl }

section
variable [Holder ν] {h k : Heap ν} {roots : List Ref} {n : Nat}

theorem swept_audit (h : Heap ν) : Swept h (stateAfter (audit h)) [] := by
  have swept : Swept h { h with audits := h.audits + 1 } [] := { swept_refl h with }
  simp only [audit]
  cases h.verify <;> exact swept

/-- A collection that completes counts what it has taken off the list. -/
theorem cycles_collect (done : collect roots h = .ok n k) :
    k.cycles = h.cycles ++ [n] ∧ k.liveCount + n = h.liveCount := by
  have fewer : (h.markFrom roots).2.sweep.liveCount ≤ h.liveCount := Array.size_filter_le
  have ends := collects roots h
  rw [done] at ends
  cases ends with
  | done =>
    refine ⟨?_,Nat.add_sub_cancel' fewer⟩
    exact (cycles_complete _ _ _).trans (by rw [cycles_sweep]; rfl)

theorem Collected.swept (done : Collected h roots n k) (cycles : k.cycles = h.cycles ++ [n])
    (live : k.liveCount + n = h.liveCount) : Swept h k [n] where
  slotOf_eq r := by
    simp only [slotOf]
    by_cases owned : r ∈ h.registered
    · by_cases reach : h.Reach roots r
      · obtain ⟨c,hc,hk⟩ := done.kept r reach
        rw [hc,hk]
        rfl
      · obtain ⟨c,hc,hk⟩ := done.dropped r owned reach
        rw [hc,hk]
        rfl
    · rw [done.others r owned]
  order := done.order
  nextSlot := done.unchanged.2.1
  allocated := done.unchanged.2.2.1
  peakLive := done.unchanged.2.2.2
  cycles := cycles
  collections := done.collections
  freed := done.freed
  live := live

/-- A collection has counted itself or, if it has met a stray object, left the accounts as they were. -/
theorem Coherent.swept_collect (own : h.Coherent) (calm : Calm (answerOf (Heap.collect roots h))) :
    ∃ counted, Swept h (stateAfter (Heap.collect roots h)) counted := by
  by_cases strays : h.Strays roots
  · obtain ⟨r,k,-,-,e,same⟩ := own.collect_stray strays
    rw [e]
    exact ⟨[],swept_of_unmarked same⟩
  · rcases own.collect_cases (sound_iff.mpr strays) with ⟨n,k,e,done⟩ | ⟨f,k,e,-⟩
    · obtain ⟨cycles,live⟩ := cycles_collect e
      rw [e]
      exact ⟨[n],done.swept cycles live⟩
    · rw [e] at calm
      exact absurd (calm _ rfl) Bool.false_ne_true

/-! ## The ledger -/

/-- The accounts of a heap agree with all registrations that have been completed. -/
structure Ledgered (h : Heap ν) (entries : List Entry) : Prop where
  coherent : h.Coherent
  /-- The slots are handed out in order, from the first. -/
  slots : entries.map (·.slot) = List.range' 1 h.allocated
  nextSlot : h.nextSlot = h.allocated + 1
  /-- An object has the slot that it was given. -/
  slotOf_iff : ∀ r n, h.slotOf r = some n ↔ ∃ e ∈ entries, e.object = r ∧ e.slot = n
  order : h.registered.toList.Sublist (entries.map (·.object))
  peak : h.peakLive = (entries.map (·.live)).foldl max 0
  collections : h.collections = h.cycles.length
  freed : h.freed = h.cycles.sum
  balance : h.allocated = h.freed + h.liveCount

namespace Ledgered
variable {entries : List Entry}

omit [Holder ν] in
theorem empty (rules : Rules) : Ledgered ({ rules } : Heap ν) [] where
  coherent := coherent_empty rules
  slots := rfl
  nextSlot := rfl
  slotOf_iff r n := by simp [slotOf]
  order := .refl _
  peak := rfl
  collections := rfl
  freed := rfl
  balance := rfl

omit [Holder ν] in
theorem swept {counted : List Nat} (led : Ledgered h entries) (coherent : k.Coherent)
    (swept : Swept h k counted) : Ledgered k entries where
  coherent := coherent
  slots := by rw [swept.allocated,led.slots]
  nextSlot := by rw [swept.nextSlot,swept.allocated,led.nextSlot]
  slotOf_iff r n := by rw [swept.slotOf_eq,led.slotOf_iff]
  order := swept.order.trans led.order
  peak := swept.peakLive.trans led.peak
  collections := by rw [swept.collections,swept.cycles,List.length_append,led.collections]
  freed := by rw [swept.freed,swept.cycles,List.sum_append,led.freed]
  balance := by
    have before := led.balance
    have live := swept.live
    rw [swept.allocated,swept.freed]
    omega

omit [Holder ν] in
theorem enroll {r : Ref} {c : Cell ν} (led : Ledgered h entries) (cell : h.cells[r.index]? = some c)
    (new : c.slot = none) :
    Ledgered (h.enroll r) (entries ++ [⟨r,h.nextSlot,(h.enroll r).liveCount⟩]) where
  coherent := led.coherent.enroll cell new
  slots := by
    rw [List.map_append,led.slots,List.map_singleton,led.nextSlot]
    change _ = List.range' 1 (h.allocated + 1)
    rw [List.range'_concat,Nat.one_mul,Nat.add_comm 1]
  nextSlot := by
    change h.nextSlot + 1 = _
    rw [led.nextSlot]
    rfl
  slotOf_iff s n := by
    have old := led.slotOf_iff s n
    have free : h.slotOf r = none := by rw [slotOf,cell,Option.bind_some,new]
    simp only [List.mem_append,List.mem_singleton,or_and_right,exists_or,exists_eq_left,← old]
    by_cases e : r = s
    · subst e
      simp [slotOf,Heap.enroll,Array.getElem?_modify,cell,new]
    · have same : (h.enroll r).slotOf s = h.slotOf s := by
        rw [slotOf,slotOf,Heap.enroll,Array.getElem?_modify,if_neg]
        intro index
        exact e (by cases r; cases s; simp_all)
      simp [same,e]
  order := by
    rw [Heap.enroll,Array.toList_push,List.map_append]
    exact led.order.append (.refl _)
  peak := by
    rw [List.map_append,List.foldl_append,← led.peak]
    rfl
  collections := led.collections
  freed := led.freed
  balance := by
    have before := led.balance
    change h.allocated + 1 = h.freed + (h.registered.push r).size
    rw [Array.size_push]
    simp only [liveCount] at before
    omega

theorem collect (led : Ledgered h entries) (calm : Calm (answerOf (Heap.collect roots h))) :
    Ledgered (stateAfter (Heap.collect roots h)) entries := by
  obtain ⟨counted,swept⟩ := led.coherent.swept_collect calm
  exact led.swept (led.coherent.collect roots) swept

/-- A registration is entered when it completes, and a collection that it has begun is accounted for either way. -/
theorem register {r : Ref} (led : Ledgered h entries) (calm : Calm (answerOf (Heap.register r roots h))) :
    Ledgered (stateAfter (Heap.register r roots h)) (entries ++ (h.entered? (.register r roots)).toList) := by
  have unchanged : Ledgered h (entries ++ []) := by rwa [List.append_nil]
  simp only [entered?]
  have ends := registers r roots h
  generalize Heap.register r roots h = x at ends calm ⊢
  cases ends with
  | missing | again => exact unchanged
  | spare cell new => exact led.enroll cell new
  | @collected c n k cell new _ done =>
    have kept := led.coherent.getElem?_collect_new (roots ++ c.object.references) cell new
    have collected : Calm (answerOf (Heap.collect (roots ++ c.object.references) h)) →
        Ledgered (stateAfter (Heap.collect (roots ++ c.object.references) h)) entries := led.collect
    rw [done] at kept collected
    exact (collected fun f hf => (by cases hf)).enroll kept new
  | @broken c f k _ _ _ failed =>
    have collected : Calm (answerOf (Heap.collect (roots ++ c.object.references) h)) →
        Ledgered (stateAfter (Heap.collect (roots ++ c.object.references) h)) entries := led.collect
    rw [failed] at collected
    dsimp only
    rw [Option.toList_none,List.append_nil]
    exact collected calm

theorem next (led : Ledgered h entries) (q : Request ν) (calm : Calm (answerOf (q.perform h))) :
    Ledgered (h.next q) (entries ++ (h.entered? q).toList) := by
  by_cases registers : ∃ r roots, q = .register r roots
  · obtain ⟨r,roots,rfl⟩ := registers
    rw [Request.perform,answerOf_map] at calm
    simpa only [Heap.next,Request.perform,stateAfter_map] using led.register calm.map
  · have none : h.entered? q = none := by
      cases q with
      | register r roots => exact absurd ⟨r,roots,rfl⟩ registers
      | _ => rfl
    rw [none,Option.toList_none,List.append_nil]
    have own := led.coherent
    apply next_cases (P := fun k => k.Ledgered entries) h q
    · exact fun o _ => led.swept (own.create o) (swept_create o h)
    · exact fun r roots e => absurd ⟨r,roots,e⟩ registers
    · rintro roots rfl
      rw [Request.perform,answerOf_map] at calm
      exact led.collect calm.map
    · exact led.swept own.audit (swept_audit h)
    · rintro k (rfl | ⟨r,o,rfl⟩)
      · exact led
      · exact led.swept (own.setObject r o) (swept_setObject h r o)

theorem after (led : Ledgered h entries) (history : List (Request ν))
    (calm : ∀ a ∈ h.answers history, Calm a) :
    Ledgered (h.after history) (entries ++ h.ledger history) := by
  induction history generalizing h entries with
  | nil => rwa [ledger,List.append_nil]
  | cons q rest ih =>
    rw [ledger,← List.append_assoc]
    exact ih (led.next q (calm _ List.mem_cons_self)) fun a ha => calm a (List.mem_cons_of_mem _ ha)

omit [Holder ν] in
/-- What is registered is listed in the order of the slots. -/
theorem listing (led : Ledgered h entries) :
    ∃ slots : List Nat, h.registered.toList.map h.slotOf = slots.map some ∧ slots.Pairwise (· < ·) := by
  obtain ⟨listed,sub,eq⟩ := List.sublist_map_iff.mp led.order
  refine ⟨listed.map (·.slot),?_,?_⟩
  · rw [eq,List.map_map,List.map_map]
    apply List.map_congr_left
    intro e he
    exact (led.slotOf_iff _ _).mpr ⟨e,sub.subset he,rfl,rfl⟩
  · have all := led.slots ▸ List.pairwise_lt_range' (s := 1) (n := h.allocated)
    exact all.sublist (sub.map _)

end Ledgered
end

/-! ## Counts of kinds -/

theorem sum_countP_kinds (f : Ref → ObjectKind) (l : List Ref) :
    (kinds.map fun k => l.countP (f · = k)).sum = l.length := by
  induction l with
  | nil => rfl
  | cons r l ih =>
    simp only [kinds,List.map_cons,List.map_nil,List.sum_cons,List.sum_nil,List.countP_cons,
      List.length_cons] at ih ⊢
    cases f r <;> simp <;> omega

theorem countOf_eq (h : Heap ν) (k : ObjectKind) :
    h.countOf k = h.registered.toList.countP (h.kindOf · = k) := by
  rw [countOf,← Array.foldl_toList]
  suffices ∀ (l : List Ref) (n : Nat),
      l.foldl (fun n r => if h.kindOf r = k then n + 1 else n) n = n + l.countP (h.kindOf · = k) from
    (this _ 0).trans (Nat.zero_add _)
  intro l
  induction l with
  | nil => exact fun n => rfl
  | cons r l ih =>
    intro n
    rw [List.foldl_cons,ih,List.countP_cons]
    simp only [decide_eq_true_eq]
    split <;> omega

theorem sum_filter_positive (l : List (ObjectKind × Nat)) :
    ((l.filter fun (_,n) => 0 < n).map (·.2)).sum = (l.map (·.2)).sum := by
  induction l with
  | nil => rfl
  | cons p l ih =>
    obtain ⟨kind,n⟩ := p
    by_cases positive : 0 < n
    · simp [positive,ih]
    · simp [Nat.eq_zero_of_not_pos positive,ih]

/-- Every object that the heap owns is counted under one kind. -/
theorem sum_kindCounts (h : Heap ν) : (h.kindCounts.map (·.2)).sum = h.liveCount := by
  rw [kindCounts,sum_filter_positive,List.map_map]
  simp only [Function.comp_def,countOf_eq]
  exact sum_countP_kinds h.kindOf h.registered.toList

/-! ## Whole histories -/

section
variable [Holder ν]

theorem after_append (h : Heap ν) (past later : List (Request ν)) :
    h.after (past ++ later) = (h.after past).after later := List.foldl_append

/-- The accounts of a heap are exact after every history in which no threshold is infinite, whatever has
failed in it. -/
theorem accounts_exact (rules : Rules) (history : List (Request ν))
    (calm : ∀ a ∈ answers { rules } history, Calm a) :
    let h := after { rules } history
    let entries := ledger { rules } history
    -- what the counters say
    (h.allocated - h.freed = h.liveCount ∧ h.freed ≤ h.allocated) ∧
    (h.freed = h.cycles.sum ∧ h.collections = h.cycles.length) ∧
    -- the slots that have been handed out, and who has them
    entries.map (·.slot) = List.range' 1 h.allocated ∧
    (∀ r n, h.slotOf r = some n ↔ ∃ e ∈ entries, e.object = r ∧ e.slot = n) ∧
    (∀ r, h.isRegistered r ↔ (h.slotOf r).isSome ∧ ¬h.isFreed r) ∧
    -- what has been released
    (∀ past later, history = past ++ later → ∀ r, (after { rules } past).isFreed r →
      h.isFreed r ∧ ¬h.isRegistered r ∧ ∀ roots, ∃ slot, h.slotOf r = some slot ∧
        register r roots h = .error (.fault (.alreadyRegistered (h.kindOf r) slot)) h) ∧
    -- the list of what is registered
    (∀ r, r ∈ h.registered ↔ h.isRegistered r) ∧
    (∃ slots : List Nat, h.registered.toList.map h.slotOf = slots.map some ∧ slots.Pairwise (· < ·)) ∧
    h.peakLive = (entries.map (·.live)).foldl max 0 ∧
    (h.kindCounts.map (·.2)).sum = h.liveCount := by
  intro h entries
  have led : Ledgered h entries := by simpa using (Ledgered.empty rules).after history calm
  have balance := led.balance
  refine ⟨⟨by omega,by omega⟩,⟨led.freed,led.collections⟩,led.slots,led.slotOf_iff,?_,?_,
    led.coherent.mem_iff,led.listing,led.peak,sum_kindCounts h⟩
  · intro r
    simp only [isRegistered,slotOf,isFreed,Cell.isRegistered]
    cases h.cells[r.index]? <;> simp
  · rintro past later rfl r gone
    have still : h.isFreed r := by
      change Heap.isFreed (after _ (past ++ later)) r
      rw [after_append]
      exact isFreed_after gone later
    exact ⟨still,not_isRegistered_of_isFreed still,led.coherent.register_freed still⟩

/-- Three environments on a heap that collects before each registration. The second is released before
it is registered a second time and leads a registration astray. -/
def mishaps : List (Request Value) :=
  [.create (.environment {} none),.register ⟨0⟩ [],.create (.environment {} none),.register ⟨1⟩ [⟨0⟩],
    .collect [⟨0⟩],.create (.environment {} (some ⟨1⟩)),.register ⟨2⟩ [⟨0⟩],.register ⟨1⟩ [],
    .write ⟨2⟩ (.environment {} (some ⟨0⟩)),.register ⟨2⟩ [],.collect [⟨2⟩]]

theorem accounts_exact_mishaps :
    let h := after { rules := { stress := true } } mishaps
    (∀ a ∈ answers { rules := { stress := true } } mishaps, Calm a) ∧
    h.allocated - h.freed = h.liveCount ∧ h.allocated = 3 ∧ h.liveCount = 2 ∧
    h.freed = h.cycles.sum ∧ h.cycles = [0,0,1,0,0] ∧
    (ledger { rules := { stress := true } } mishaps).map (·.slot) = [1,2,3] ∧
    h.isFreed ⟨1⟩ ∧ ¬h.isRegistered ⟨1⟩ ∧
    h.registered.toList.map h.slotOf = [some 1,some 3] ∧ h.peakLive = 2 := by
  have calm : ∀ a ∈ answers { rules := { stress := true } } mishaps, Calm a := by decide +kernel
  intro h
  obtain ⟨⟨live,-⟩,⟨freed,-⟩,slots,-,-,gone,-⟩ := accounts_exact { stress := true } mishaps calm
  have allocated : h.allocated = 3 := by decide +kernel
  have released := gone (mishaps.take 5) (mishaps.drop 5) (List.take_append_drop 5 mishaps).symm ⟨1⟩
    (by decide +kernel)
  refine ⟨calm,live,allocated,by decide +kernel,freed,by decide +kernel,?_,released.1,released.2.1,
    by decide +kernel,by decide +kernel⟩
  rw [slots,allocated]
  rfl

end

end Heap
end Lox
