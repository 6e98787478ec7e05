import Lox.Proofs.Heap.Collection
import Lox.Value

/-! # Histories of a heap

A heap is built by operations: objects are created, registered, written to without any check, and
collected, and an operation may fail half way. All heaps built so are coherent. For each of them
`collect_exact` says what a collection does.
-/
namespace Lox

/-- The state that an operation leaves behind, whether it succeeds or not. -/
def stateAfter {ε σ α : Type} : EStateM.Result ε σ α → σ
  | .ok _ s => s
  | .error _ s => s

namespace Heap
variable {ν : Type}

/-- What can be done to a heap. A write puts any contents in any object, and a flush forgets what
was noted for the log. -/
inductive Operation (ν : Type)
  | create (o : Object ν)
  | register (r : Ref) (roots : List Ref)
  | collect (roots : List Ref)
  | write (r : Ref) (o : Object ν)
  | audit
  | flush

def Operation.run [Holder ν] (h : Heap ν) : Operation ν → Heap ν
  | create o => stateAfter (Heap.create o h)
  | register r roots => stateAfter (Heap.register r roots h)
  | collect roots => stateAfter (Heap.collect roots h)
  | write r o => h.setObject r o
  | audit => stateAfter (Heap.audit h)
  | flush => { h with journal := [] }

/-- The heaps that operations make of an empty one. -/
def Built [Holder ν] (h : Heap ν) : Prop :=
  ∃ (rules : Rules) (history : List (Operation ν)), h = history.foldl Operation.run { rules }

theorem coherent_empty (rules : Rules) : Coherent ({ rules } : Heap ν) where
  nodup := List.nodup_nil
  mem_iff r := by simp [Heap.isRegistered]
  owned_of_marked r hr := by simp [Heap.isMarked] at hr
  slot_of_freed i c hc := by simp at hc

section
variable {h : Heap ν} (own : h.Coherent)
include own

/-- Coherence looks at cells and at the list of registered objects alone. -/
theorem Coherent.congr {k : Heap ν} (cells : k.cells = h.cells)
    (registered : k.registered = h.registered) : k.Coherent where
  nodup := registered ▸ own.nodup
  mem_iff r := by
    rw [registered,Heap.isRegistered,cells]
    exact own.mem_iff r
  owned_of_marked r hr := by
    rw [Heap.isMarked,cells] at hr
    rw [Heap.isRegistered,cells]
    exact own.owned_of_marked r hr
  slot_of_freed i c hc := own.slot_of_freed i c (cells ▸ hc)

theorem Coherent.create (o : Object ν) : (stateAfter (Heap.create o h)).Coherent where
  nodup := own.nodup
  mem_iff r := by
    show r ∈ h.registered ↔ _
    rw [own.mem_iff]
    simp only [stateAfter,Heap.create,Heap.isRegistered,Array.getElem?_push]
    split
    · next e => simp [e,Cell.isRegistered]
    · rfl
  owned_of_marked r hr := by
    simp only [stateAfter,Heap.create,Heap.isMarked,Heap.isRegistered,Array.getElem?_push] at hr ⊢
    split at hr
    · simp at hr
    · next e =>
      rw [if_neg e]
      exact own.owned_of_marked r hr
  slot_of_freed i c hc freed := by
    simp only [stateAfter,Heap.create,Array.getElem?_push] at hc
    split at hc
    · cases hc
      simp at freed
    · exact own.slot_of_freed i c hc freed

theorem Coherent.setObject (r : Ref) (o : Object ν) : (h.setObject r o).Coherent where
  nodup := own.nodup
  mem_iff s := by
    refine (own.mem_iff s).trans ?_
    simp only [Heap.setObject,Heap.isRegistered,Array.getElem?_modify]
    split
    · cases h.cells[s.index]? <;> rfl
    · rfl
  owned_of_marked s hs := by
    have old : h.isMarked s := by
      rw [← hs]
      simp only [Heap.setObject,Heap.isMarked,Array.getElem?_modify]
      split
      · cases h.cells[s.index]? <;> rfl
      · rfl
    have owned := own.owned_of_marked s old
    rw [← owned]
    simp only [Heap.setObject,Heap.isRegistered,Array.getElem?_modify]
    split
    · cases h.cells[s.index]? <;> rfl
    · rfl
  slot_of_freed i c hc freed := by
    simp only [Heap.setObject,Array.getElem?_modify] at hc
    split at hc
    · obtain ⟨d,hd,rfl⟩ := Option.map_eq_some_iff.mp hc
      exact own.slot_of_freed i d hd freed
    · exact own.slot_of_freed i c hc freed

omit own in
theorem not_isRegistered_of_new {r : Ref} {c : Cell ν} (hc : h.cells[r.index]? = some c) (new : c.slot = none) :
    ¬h.isRegistered r := by
  simp [Heap.isRegistered,hc,Cell.isRegistered,new]

theorem Coherent.isRegistered_enroll {r : Ref} {c : Cell ν} (hc : h.cells[r.index]? = some c)
    (fresh : c.slot = none) (s : Ref) :
    (h.enroll r).isRegistered s = (decide (s = r) || h.isRegistered s) := by
  have kept : c.freed = false := by
    by_contra freed
    have hs := own.slot_of_freed _ c hc (by simpa using freed)
    simp [fresh] at hs
  simp only [Heap.enroll,Heap.isRegistered,Array.getElem?_modify]
  by_cases e : r.index = s.index
  · obtain rfl : s = r := by cases r; cases s; simp_all
    simp [hc,Cell.isRegistered,kept]
  · have ne : s ≠ r := by rintro rfl; exact e rfl
    simp [e,ne]

theorem Coherent.enroll {r : Ref} {c : Cell ν} (hc : h.cells[r.index]? = some c)
    (fresh : c.slot = none) : (h.enroll r).Coherent := by
  have free := not_isRegistered_of_new hc fresh
  have owned := own.isRegistered_enroll hc fresh
  constructor
  · have out := mt (own.mem_iff r).mp free
    rw [Heap.enroll,Array.toList_push,List.nodup_append]
    refine ⟨own.nodup,List.nodup_singleton r,fun s hs t ht => ?_⟩
    rintro rfl
    exact out (List.mem_singleton.mp ht ▸ Array.mem_toList_iff.mp hs)
  · intro s
    rw [owned]
    simp [Heap.enroll,own.mem_iff,or_comm]
  · intro s hs
    rw [owned,Bool.or_eq_true]
    refine .inr (own.owned_of_marked s ?_)
    rw [← hs]
    simp only [Heap.enroll,Heap.isMarked,Array.getElem?_modify]
    split
    · cases h.cells[s.index]? <;> rfl
    · rfl
  · intro i d hd freed
    simp only [Heap.enroll,Array.getElem?_modify] at hd
    split at hd
    · obtain ⟨b,-,rfl⟩ := Option.map_eq_some_iff.mp hd
      rfl
    · exact own.slot_of_freed i d hd freed

variable [Holder ν]

omit own in
/-- A collection leaves a heap that has been marked, and swept, and counted, as far as it has got. -/
theorem after_collect {P : Heap ν → Prop} {roots : List Ref} (marked : P (h.markFrom roots).2)
    (swept : P (h.markFrom roots).2.sweep)
    (counted : ∀ next audits, grownThreshold h.rules (h.markFrom roots).2.sweep.liveCount = .ok next →
      P { h.completed roots next with audits }) : P (stateAfter (Heap.collect roots h)) := by
  have ends := collects roots h
  generalize Heap.collect roots h = x at ends ⊢
  cases ends with
  | stray => exact marked
  | boundless => exact swept
  | corrupt _ fixed | done _ fixed => exact counted _ _ fixed

theorem Coherent.collect (roots : List Ref) : (stateAfter (Heap.collect roots h)).Coherent :=
  have marked := own.markFrom roots
  after_collect marked marked.sweep fun _ _ _ => marked.sweep.congr rfl rfl

/-- A collection leaves the cells of unregistered objects alone, also when it fails. -/
theorem Coherent.getElem?_collect (roots : List Ref) {r : Ref} (out : ¬h.isRegistered r) :
    (stateAfter (Heap.collect roots h)).cells[r.index]? = h.cells[r.index]? := by
  have same := own.recolored_markFrom h roots
  have marked := own.markFrom roots
  have after : (h.markFrom roots).2.cells[r.index]? = h.cells[r.index]? := by
    have free : ¬(h.markFrom roots).2.isRegistered r := by
      rw [markFrom_eq,same.isRegistered_with]
      exact out
    cases hc : h.cells[r.index]? with
    | none => rwa [Array.getElem?_eq_none_iff,same.size,← Array.getElem?_eq_none_iff]
    | some c =>
      obtain ⟨b,hb⟩ := same.cell hc
      have plain : ({ c with marked := b } : Cell ν).unmark = c := own.unmark_eq out hc
      rw [hb,← marked.unmark_eq free hb,plain]
  have swept : (h.markFrom roots).2.sweep.cells[r.index]? = h.cells[r.index]? := by
    rw [marked.getElem?_sweep,markFrom_eq,same.isRegistered_with]
    simp only [show (⟨r.index⟩ : Ref) = r from rfl,Bool.eq_false_iff.mpr out,Bool.false_and,
      Bool.false_eq_true,if_false]
    exact after
  exact after_collect (P := fun k => k.cells[r.index]? = h.cells[r.index]?) after swept fun _ _ _ => swept

theorem Coherent.getElem?_collect_new {r : Ref} {c : Cell ν} (roots : List Ref) (hc : h.cells[r.index]? = some c)
    (new : c.slot = none) : (stateAfter (Heap.collect roots h)).cells[r.index]? = some c :=
  (own.getElem?_collect roots (not_isRegistered_of_new hc new)).trans hc

theorem Coherent.register (r : Ref) (roots : List Ref) :
    (stateAfter (Heap.register r roots h)).Coherent := by
  have ends := registers r roots h
  generalize Heap.register r roots h = x at ends ⊢
  cases ends with
  | missing | again => exact own
  | spare cell new => exact own.enroll cell new
  | @collected c n k cell new _ done =>
    have collected := own.collect (roots ++ c.object.references)
    have kept := own.getElem?_collect_new (roots ++ c.object.references) cell new
    rw [done] at collected kept
    exact collected.enroll kept new
  | @broken c f k _ _ _ failed =>
    have collected := own.collect (roots ++ c.object.references)
    rwa [failed] at collected

theorem Coherent.run (o : Operation ν) : (Operation.run h o).Coherent := by
  cases o with
  | create o => exact own.create o
  | register r roots => exact own.register r roots
  | collect roots => exact own.collect roots
  | write r o => exact own.setObject r o
  | audit =>
    simp only [Operation.run,Heap.audit]
    cases h.verify <;> exact own.congr rfl rfl
  | flush => exact own.congr rfl rfl

end

variable [Holder ν]

theorem Built.coherent {h : Heap ν} (built : h.Built) : h.Coherent := by
  obtain ⟨rules,history,rfl⟩ := built
  suffices ∀ k : Heap ν, k.Coherent → (history.foldl Operation.run k).Coherent from
    this _ (coherent_empty rules)
  induction history with
  | nil => exact fun _ own => own
  | cons o history ih => exact fun k own => ih _ (own.run o)

/-- A collection from roots that reach only what the heap owns completes. It keeps what they reach
and releases the rest, finds no stray reference afterwards, is the same for all lists of the same
roots, and leaves nothing to release for a second collection. -/
theorem collect_exact {h : Heap ν} (built : h.Built) {roots : List Ref} (sound : h.Sound roots)
    (finite : ∀ n ≤ h.liveCount, ∃ next, grownThreshold h.rules n = .ok next) :
    ∃ released k, collect roots h = .ok released k ∧ Collected h roots released k ∧
      k.verify = none ∧ audit k = .ok () { k with audits := k.audits + 1 } ∧
      (∀ others, (∀ r, r ∈ others ↔ r ∈ roots) → collect others h = .ok released k) ∧
      ∃ again, collect roots k = .ok 0 again := by
  have own := built.coherent
  obtain ⟨released,k,hk,done⟩ := own.collect_collected sound finite
  have clean := done.verify_eq_none own sound
  have ownk : k.Coherent := by simpa [hk,stateAfter] using own.collect roots
  have soundk : k.Sound roots := fun r reach =>
    (done.isRegistered_iff own sound r).mpr ((done.reach_iff r).mp reach)
  have finitek : ∀ n ≤ k.liveCount, ∃ next, grownThreshold k.rules n = .ok next := fun n hn => by
    rw [done.unchanged.1]
    exact finite n (Nat.le_trans hn done.liveCount_le)
  obtain ⟨more,again,hagain,still⟩ := ownk.collect_collected soundk finitek
  have none : more = 0 := by
    rw [← still.count,List.length_eq_zero_iff,List.filter_eq_nil_iff]
    intro r hr
    have reach := (done.mem_iff r).mp (Array.mem_toList_iff.mp hr)
    simpa using (still.mem_iff r).mpr ((done.reach_iff r).mpr reach)
  subst none
  exact ⟨released,k,hk,done,clean,audit_of_verify clean,
    fun others same => (own.collect_congr sound same).trans hk,again,hagain⟩

/-- Two environments, each of which binds a function that it encloses. -/
def twoLoops : Heap Value :=
  [.create (.environment {} none),.register ⟨0⟩ [],
    .create (.function default (some ⟨0⟩)),.register ⟨1⟩ [],
    .write ⟨0⟩ (.environment ⟨[("f",.object ⟨1⟩)]⟩ none),
    .create (.environment {} none),.register ⟨2⟩ [],
    .create (.function default (some ⟨2⟩)),.register ⟨3⟩ [],
    .write ⟨2⟩ (.environment ⟨[("g",.bound ⟨3⟩ ⟨2⟩)]⟩ none)].foldl Operation.run {}

theorem twoLoops_sound : twoLoops.Sound [⟨0⟩] := by
  have inside : ∀ r, twoLoops.Reach [⟨0⟩] r → r = ⟨0⟩ ∨ r = ⟨1⟩ := by
    intro r reach
    induction reach with
    | root m => exact .inl (List.mem_singleton.mp m)
    | step _ m ih =>
      rcases ih with rfl | rfl
      · exact .inr (List.mem_singleton.mp m)
      · exact .inl (List.mem_singleton.mp m)
  intro r reach
  rcases inside r reach with rfl | rfl <;> rfl

theorem finite_of_isSome (rules : Rules) (bound : Nat)
    (some : ∀ n < bound + 1, (grownThreshold rules n).toOption.isSome) :
    ∀ n ≤ bound, ∃ next, grownThreshold rules n = .ok next := by
  intro n hn
  have h := some n (Nat.lt_succ_of_le hn)
  cases e : grownThreshold rules n with
  | error f => rw [e] at h; exact absurd h Bool.false_ne_true
  | ok next => exact ⟨next,rfl⟩

theorem collect_exact_twoLoops :
    twoLoops.Built ∧ twoLoops.Sound [⟨0⟩] ∧
      (∀ n ≤ twoLoops.liveCount, ∃ next, grownThreshold twoLoops.rules n = .ok next) ∧
      ∃ released k, collect [⟨0⟩] twoLoops = .ok released k ∧
        Collected twoLoops [⟨0⟩] released k := by
  have built : twoLoops.Built := ⟨{},_,rfl⟩
  have finite := finite_of_isSome twoLoops.rules twoLoops.liveCount (by decide +kernel)
  obtain ⟨released,k,hk,done,-⟩ := collect_exact built twoLoops_sound finite
  exact ⟨built,twoLoops_sound,finite,released,k,hk,done⟩

end Heap
end Lox
