import Lox.Proofs.Heap.Coherence
import Lox.Proofs.Heap.Endings

/-! # Collection

A collection whose roots reach nothing but the heap's own objects keeps exactly what they reach and
releases all else that was registered. What is kept is left as it was and refers to nothing else,
so a check of all references finds nothing.
-/
namespace Lox.Heap
variable {ν : Type} [Holder ν]

/-- What a collection that released so many objects left of a heap. -/
structure Collected (h : Heap ν) (roots : List Ref) (released : Nat) (k : Heap ν) : Prop where
  mem_iff : ∀ r, r ∈ k.registered ↔ h.Reach roots r
  order : k.registered.toList.Sublist h.registered.toList
  kept : ∀ r, h.Reach roots r →
    ∃ c, h.cells[r.index]? = some c ∧ k.cells[r.index]? = some c.mark
  dropped : ∀ r ∈ h.registered, ¬h.Reach roots r →
    ∃ c, h.cells[r.index]? = some c ∧ k.cells[r.index]? = some c.unmark.release
  others : ∀ r, r ∉ h.registered → k.cells[r.index]? = h.cells[r.index]?
  count : (h.registered.toList.filter (· ∉ k.registered)).length = released
  lastFreed : k.lastFreed = released
  freed : k.freed = h.freed + released
  collections : k.collections = h.collections + 1
  threshold : grownThreshold h.rules k.liveCount = .ok k.nextThreshold
  audits : k.audits = h.audits + if h.rules.audited then 1 else 0
  unchanged : k.rules = h.rules ∧ k.nextSlot = h.nextSlot ∧ k.allocated = h.allocated ∧
    k.peakLive = h.peakLive

theorem verify_eq_none {h : Heap ν}
    (closed : ∀ r ∈ h.registered, ∀ s ∈ h.referencesOf r, h.isRegistered s) : h.verify = none := by
  rw [verify,List.findSome?_eq_none_iff]
  intro r hr
  rw [strayReference?,Option.map_eq_none_iff,List.find?_eq_none]
  intro s hs
  simp [closed r (Array.mem_toList_iff.mp hr) s hs]

theorem audit_of_verify {h : Heap ν} (clean : h.verify = none) :
    audit h = .ok () { h with audits := h.audits + 1 } := by
  simp only [audit,clean]

theorem filter_not_mem_length (l : List Ref) (p : Ref → Bool) :
    (l.filter (· ∉ l.filter p)).length = l.length - (l.filter p).length := by
  have e : l.filter (· ∉ l.filter p) = l.filter fun r => !p r :=
    List.filter_congr fun r hr => by simp [List.mem_filter,hr]
  have h := List.length_eq_length_filter_add (l := l) p
  rw [e]
  omega

section
variable {h : Heap ν} {roots : List Ref}

/-- The heap in the middle of a collection: all marks set, nothing released. -/
structure Marked (h : Heap ν) (roots : List Ref) (m : Heap ν) : Prop where
  coherent : m.Coherent
  eq : m = { h with cells := m.cells }
  same : Recolored h.cells m.cells
  isMarked_iff : ∀ r, m.isMarked r ↔ h.Reach roots r

theorem Coherent.markFrom_sound (own : h.Coherent) (sound : h.Sound roots) :
    ∃ m, h.markFrom roots = (none,m) ∧ Marked h roots m := by
  have done := own.markFrom_fst sound
  refine ⟨(h.markFrom roots).2,Prod.ext done rfl,?_⟩
  exact ⟨own.markFrom roots,markFrom_eq h roots,own.recolored_markFrom h roots,
    own.isMarked_markFrom done⟩

namespace Marked
variable {m : Heap ν} (mid : Marked h roots m)
include mid

theorem registered_eq : m.registered = h.registered := by rw [mid.eq]

theorem isRegistered_eq (r : Ref) : m.isRegistered r = h.isRegistered r := by
  rw [mid.eq]
  exact mid.same.isRegistered_with r

theorem cell (r : Ref) :
    m.cells[r.index]? = h.cells[r.index]?.map fun c => { c with marked := m.isMarked r } := by
  cases hc : h.cells[r.index]? with
  | none =>
    rw [Array.getElem?_eq_none_iff,← mid.same.size,← Array.getElem?_eq_none_iff] at hc
    exact hc
  | some c =>
    obtain ⟨b,hb⟩ := mid.same.cell hc
    simp [Heap.isMarked,hb]

theorem getElem?_sweep (r : Ref) :
    m.sweep.cells[r.index]? = h.cells[r.index]?.map fun c =>
      if m.isMarked r then c.mark else if h.isRegistered r then c.unmark.release else c.unmark := by
  have e := mid.coherent.getElem?_sweep r.index
  rw [show (⟨r.index⟩ : Ref) = r from rfl,mid.cell,mid.isRegistered_eq] at e
  rw [e]
  cases h.cells[r.index]? with
  | none => simp
  | some c => cases m.isMarked r <;> cases h.isRegistered r <;> simp [Cell.mark,Cell.unmark]

theorem mem_sweep (sound : h.Sound roots) (r : Ref) :
    r ∈ m.sweep.registered ↔ h.Reach roots r := by
  rw [sweep,Array.mem_filter,mid.isMarked_iff,mid.registered_eq]
  refine ⟨And.right,fun reach => ⟨?_,reach⟩⟩
  rw [← mid.registered_eq,mid.coherent.mem_iff,mid.isRegistered_eq]
  exact sound r reach

theorem liveCount_sweep : m.sweep.liveCount ≤ h.liveCount := by
  rw [← show m.liveCount = h.liveCount by rw [liveCount,liveCount,mid.registered_eq]]
  exact Array.size_filter_le

end Marked

omit [Holder ν] in
theorem getElem?_of_isRegistered {h : Heap ν} {r : Ref} (owned : h.isRegistered r) :
    ∃ c, h.cells[r.index]? = some c ∧ c.slot.isSome ∧ c.freed = false := by
  cases hc : h.cells[r.index]? with
  | none => simp [Heap.isRegistered,hc] at owned
  | some c => exact ⟨c,rfl,by simpa [Heap.isRegistered,hc,Cell.isRegistered] using owned⟩

omit [Holder ν] in
theorem Coherent.unmark_eq {h : Heap ν} (own : h.Coherent) {r : Ref} (out : ¬h.isRegistered r)
    {c : Cell ν} (hc : h.cells[r.index]? = some c) : c.unmark = c := by
  have white := mt (own.owned_of_marked r) out
  cases c
  simpa [Heap.isMarked,hc,Cell.unmark] using white

/-- The heap behind a completed sweep. -/
theorem Marked.collected {m : Heap ν} (mid : Marked h roots m) (own : h.Coherent)
    (sound : h.Sound roots) {next : Nat}
    (fine : grownThreshold h.rules m.sweep.liveCount = .ok next) (audits : Nat)
    (counted : audits = h.audits + if h.rules.audited then 1 else 0) :
    Collected h roots (m.liveCount - m.sweep.liveCount)
      { m.sweep.complete (m.liveCount - m.sweep.liveCount) next with audits } where
  mem_iff := mid.mem_sweep sound
  order := by
    show (m.registered.filter m.isMarked).toList.Sublist _
    rw [Array.toList_filter,mid.registered_eq]
    exact List.filter_sublist
  kept r reach := by
    obtain ⟨c,hc,-⟩ := getElem?_of_isRegistered (sound r reach)
    refine ⟨c,hc,(mid.getElem?_sweep r).trans ?_⟩
    rw [hc,Option.map_some,(mid.isMarked_iff r).mpr reach,if_pos rfl]
  dropped r hr away := by
    have owned := (own.mem_iff r).mp hr
    obtain ⟨c,hc,-⟩ := getElem?_of_isRegistered owned
    refine ⟨c,hc,(mid.getElem?_sweep r).trans ?_⟩
    rw [hc,Option.map_some,if_neg (mt (mid.isMarked_iff r).mp away),if_pos owned]
  others r out := by
    have free := mt (own.mem_iff r).mpr out
    refine (mid.getElem?_sweep r).trans ?_
    cases hc : h.cells[r.index]? with
    | none => rfl
    | some c =>
      have away := mt ((mid.isMarked_iff r).mp) (mt (sound r) free)
      rw [Option.map_some,if_neg away,if_neg free,own.unmark_eq free hc]
  count := by
    show (h.registered.toList.filter (· ∉ m.registered.filter m.isMarked)).length = _
    simpa [liveCount,sweep,mid.registered_eq,← Array.mem_toList_iff,← Array.length_toList]
      using filter_not_mem_length h.registered.toList m.isMarked
  lastFreed := rfl
  freed := by rw [mid.eq]; rfl
  collections := by rw [mid.eq]; rfl
  threshold := fine
  audits := counted
  unchanged := by
    rw [mid.eq]
    exact ⟨rfl,rfl,rfl,rfl⟩

namespace Collected
variable {released : Nat} {k : Heap ν} (done : Collected h roots released k)
include done

theorem isRegistered_iff (own : h.Coherent) (sound : h.Sound roots) (r : Ref) :
    k.isRegistered r ↔ h.Reach roots r := by
  constructor
  · intro owned
    by_contra away
    by_cases hr : r ∈ h.registered
    · obtain ⟨c,-,hk⟩ := done.dropped r hr away
      simp [Heap.isRegistered,hk,Cell.isRegistered,Cell.release] at owned
    · rw [Heap.isRegistered,done.others r hr] at owned
      exact hr ((own.mem_iff r).mpr owned)
  · intro reach
    obtain ⟨c,hc,hk⟩ := done.kept r reach
    have owned := sound r reach
    simpa [Heap.isRegistered,hc,hk,Cell.isRegistered,Cell.mark] using owned

theorem referencesOf_eq {r : Ref} (reach : h.Reach roots r) :
    k.referencesOf r = h.referencesOf r := by
  obtain ⟨c,hc,hk⟩ := done.kept r reach
  simp [Heap.referencesOf,hc,hk,Cell.mark]

theorem reach_iff (r : Ref) : k.Reach roots r ↔ h.Reach roots r := by
  constructor
  · intro reach
    induction reach with
    | root m => exact .root m
    | step _ m ih => exact .step ih (done.referencesOf_eq ih ▸ m)
  · intro reach
    induction reach with
    | root m => exact .root m
    | step prior m ih => exact .step ih ((done.referencesOf_eq prior).symm ▸ m)

theorem liveCount_le : k.liveCount ≤ h.liveCount := by
  simpa [liveCount] using done.order.length_le

theorem closed (own : h.Coherent) (sound : h.Sound roots) : k.Closed := by
  intro r owned s hs
  rw [done.isRegistered_iff own sound] at owned ⊢
  rw [done.referencesOf_eq owned] at hs
  exact .step owned hs

theorem verify_eq_none (own : h.Coherent) (sound : h.Sound roots) : k.verify = none :=
  Heap.verify_eq_none fun r hr s hs =>
    done.closed own sound r ((done.isRegistered_iff own sound r).mpr ((done.mem_iff r).mp hr)) s hs

end Collected

/-- A collection from sound roots completes, or has swept the heap when it finds that the next
threshold is no integer. -/
theorem Coherent.collect_cases (own : h.Coherent) (sound : h.Sound roots) :
    (∃ released k, collect roots h = .ok released k ∧ Collected h roots released k) ∨
      ∃ e k, collect roots h = .error (.fault (.threshold e)) k ∧ k.liveCount ≤ h.liveCount ∧
        k.rules = h.rules ∧ grownThreshold k.rules k.liveCount = .error e ∧
          ∃ m, Marked h roots m ∧ k = m.sweep := by
  obtain ⟨m,hm,mid⟩ := own.markFrom_sound sound
  obtain ⟨all,rfl⟩ := Prod.ext_iff.mp hm
  have ends := collects roots h
  generalize collect roots h = x at ends ⊢
  cases ends with
  | stray met =>
    rw [all] at met
    cases met
  | boundless _ spoiled =>
    exact .inr ⟨_,_,rfl,mid.liveCount_sweep,rfl,spoiled,_,mid,rfl⟩
  | corrupt _ fixed audited met =>
    have checked := mid.collected own sound fixed (h.audits + 1) (by rw [if_pos audited])
    cases met.symm.trans (checked.verify_eq_none own sound)
  | done _ fixed => exact .inl ⟨_,_,rfl,mid.collected own sound fixed _ rfl⟩

/-- What is owned after a collection that fails is what the roots reach, and it is closed. -/
theorem Coherent.collect_error (own : h.Coherent) (sound : h.Sound roots) {f : Failure} {k : Heap ν}
    (failed : collect roots h = .error f k) :
    (∀ r, k.isRegistered r ↔ h.Reach roots r) ∧ k.Closed := by
  rcases own.collect_cases sound with ⟨released,l,hl,-⟩ | ⟨e,l,hl,-,-,-,m,mid,rfl⟩
  · rw [hl] at failed
    cases failed
  · rw [hl] at failed
    cases failed
    have owned : ∀ r, m.sweep.isRegistered r ↔ h.Reach roots r := fun r => by
      rw [mid.coherent.isRegistered_sweep,Bool.and_eq_true,mid.isMarked_iff,mid.isRegistered_eq]
      exact ⟨And.right,fun reach => ⟨sound r reach,reach⟩⟩
    refine ⟨owned,fun r hr s hs => (owned s).mpr ?_⟩
    have reach := (owned r).mp hr
    obtain ⟨c,hc,-⟩ := getElem?_of_isRegistered (sound r reach)
    rw [referencesOf,mid.getElem?_sweep,hc,Option.map_some,if_pos ((mid.isMarked_iff r).mpr reach)]
      at hs
    refine .step reach ?_
    simpa [referencesOf,hc,Cell.mark] using hs

/-- A collection from sound roots completes as long as the next threshold is finite. -/
theorem Coherent.collect_collected (own : h.Coherent) (sound : h.Sound roots)
    (finite : ∀ n ≤ h.liveCount, ∃ next, grownThreshold h.rules n = .ok next) :
    ∃ released k, collect roots h = .ok released k ∧ Collected h roots released k := by
  rcases own.collect_cases sound with done | ⟨e,k,-,le,rules,spoiled,-⟩
  · exact done
  · obtain ⟨next,fine⟩ := finite _ le
    rw [rules,fine] at spoiled
    cases spoiled

/-- What is collected does not depend on the order of the roots or on how often they are given. -/
theorem Coherent.collect_congr (own : h.Coherent) (sound : h.Sound roots) {others : List Ref}
    (same : ∀ r, r ∈ others ↔ r ∈ roots) : collect others h = collect roots h := by
  obtain ⟨m,hm,mid⟩ := own.markFrom_sound sound
  have sound' : h.Sound others := fun r reach => sound r ((reach_congr same r).mp reach)
  obtain ⟨n,hn,also⟩ := own.markFrom_sound sound'
  have marks : ∀ r, n.isMarked r = m.isMarked r := fun r =>
    Bool.eq_iff_iff.mpr
      ((also.isMarked_iff r).trans ((reach_congr same r).trans (mid.isMarked_iff r).symm))
  have cells : n.cells = m.cells := Array.ext_getElem? fun i => by
    rw [also.cell ⟨i⟩,mid.cell ⟨i⟩,marks]
  have e : n = m := by rw [also.eq,mid.eq,cells]
  simp only [collect,hm,hn,e]

end
end Lox.Heap
