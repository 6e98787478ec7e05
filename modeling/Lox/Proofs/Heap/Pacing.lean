import Lox.Proofs.Heap.Requests
import Lox.Proofs.Heap.Thresholds
import Lox.Proofs.Number.Rounding

/-! # Pacing

A collection fixes how many objects there may be before the next one. The product of the live count and the
growth factor is cut to a whole number, so that a factor above one leaves room for another object only
if it makes the product one more than the count.
-/
namespace Lox.Heap
open Number
variable {ν : Type}

/-- The threshold after a collection is the whole part of a value near the product, or the first threshold. -/
theorem grownThreshold_near {rules : Rules} {live next m : Nat} {e : Int} (pos : 0 < live) (few : live < 2 ^ 53)
    (parts : Parts.of rules.growth = .finite false m e) (above : 1 < (m : ℚ) * 2 ^ e)
    (fixed : grownThreshold rules live = .ok next) :
    ∃ z, Near (live * (m * 2 ^ e)) z ∧ next = max rules.threshold ⌊z⌋.toNat := by
  simp only [grownThreshold] at fixed
  cases cut : truncate (Float.ofNat live * rules.growth) with
  | error f =>
    rw [cut] at fixed
    cases fixed
  | ok whole =>
    rw [cut] at fixed
    cases fixed
    obtain ⟨z,near,rfl⟩ := truncate_ofNat_mul pos few parts above cut
    exact ⟨z,near,rfl⟩

/-- How the next threshold compares to the live count. -/
theorem grownThreshold_paces {rules : Rules} {live next m : Nat} {e : Int} (least : 0 < rules.threshold)
    (few : live < 2 ^ 53) (parts : Parts.of rules.growth = .finite false m e) (above : 1 < (m : ℚ) * 2 ^ e)
    (fixed : grownThreshold rules live = .ok next) :
    live ≤ next ∧
    (live < rules.threshold ∨ (live : ℚ) + 1 ≤ live * (m * 2 ^ e) → live < next) ∧
    (rules.threshold ≤ live → live * (m * 2 ^ e) * (1 + 2 ^ (-52 : Int)) < (live : ℚ) + 1 → next = live) := by
  have first := le_of_grownThreshold fixed
  rcases Nat.eq_zero_or_pos live with rfl | pos
  · exact ⟨Nat.zero_le _,fun _ => by omega,fun none => by omega⟩
  · obtain ⟨z,near,rfl⟩ := grownThreshold_near pos few parts above fixed
    have reached : ∀ n : Nat, n ≤ 2 ^ 53 → (n : ℚ) ≤ live * (m * 2 ^ e) → n ≤ ⌊z⌋.toNat := by
      intro n small le
      have : (n : Int) ≤ ⌊z⌋ := Int.le_floor.mpr (by exact_mod_cast near.reaches n small le)
      omega
    have itself : (live : ℚ) ≤ live * (m * 2 ^ e) := le_mul_of_one_le_right (by positivity) above.le
    have stays := reached live (by omega) itself
    refine ⟨by omega,?_,?_⟩
    · rintro (under | room)
      · omega
      · have more := reached (live + 1) (by omega) (by exact_mod_cast room)
        omega
    · intro full tight
      have : ⌊z⌋ < (live : Int) + 1 := by
        apply Int.floor_lt.mpr
        push_cast
        exact lt_of_le_of_lt near.close tight
      omega

/-- Accepted rules have a positive threshold and a factor that is not at most one. -/
theorem Rules.of_check {threshold : Int} {growth : Float} {stress automatic audited : Bool} {rules : Rules}
    (accepted : Rules.check threshold growth stress automatic audited = .ok rules) :
    rules = ⟨threshold.toNat,growth,stress,automatic,audited⟩ ∧ 0 < threshold ∧ ¬growth ≤ 1 := by
  simp only [Rules.check] at accepted
  split at accepted
  · cases accepted
  · split at accepted
    · cases accepted
    · next positive above =>
      cases accepted
      exact ⟨rfl,by omega,above⟩

/-- Under accepted rules with a finite factor a completed collection never leaves less room than the heap fills. It
leaves more, so that the next allocation does not collect, if the first threshold or one factor's worth of growth
is above the count. It leaves none if the product falls short of the next whole number. -/
theorem collections_pace [Holder ν] {threshold : Int} {growth : Float} {stress automatic audited : Bool}
    {h : Heap ν} (accepted : Rules.check threshold growth stress automatic audited = .ok h.rules)
    (finite : growth.isFinite) {roots : List Ref} {freed : Nat} {k : Heap ν}
    (done : collect roots h = .ok freed k) (few : k.liveCount < 2 ^ 53) :
    ∃ m e, Parts.of growth = .finite false m e ∧ 1 < (m : ℚ) * 2 ^ e ∧
      k.liveCount ≤ k.nextThreshold ∧
      (k.liveCount < threshold ∨ 2 ≤ (m : ℚ) * 2 ^ e ∨ (k.liveCount : ℚ) + 1 ≤ k.liveCount * (m * 2 ^ e) →
        k.liveCount < k.nextThreshold ∧ (¬stress → ¬k.due)) ∧
      (threshold ≤ k.liveCount →
        k.liveCount * (m * 2 ^ e) * (1 + 2 ^ (-52 : Int)) < (k.liveCount : ℚ) + 1 →
        k.nextThreshold = k.liveCount ∧ (automatic → k.due)) := by
  obtain ⟨rules,least,above⟩ := Rules.of_check accepted
  obtain ⟨m,e,parts,above⟩ := parts_of_above_one above finite
  have same : k.rules = h.rules := by simpa [done,stateAfter] using rules_collect roots h
  have fixed := next_of_collect done
  rw [rules] at fixed same
  obtain ⟨stays,grows,stands⟩ := grownThreshold_paces (by simp; omega) few parts above fixed
  dsimp only at grows stands
  refine ⟨m,e,parts,above,stays,fun room => ?_,fun full tight => ?_⟩
  · have more : k.liveCount < k.nextThreshold := by
      apply grows
      rcases room with under | double | room
      · exact .inl (by omega)
      · by_cases under : k.liveCount < threshold.toNat
        · exact .inl under
        · right
          have some : (1 : ℚ) ≤ k.liveCount := by exact_mod_cast (by omega : 1 ≤ k.liveCount)
          nlinarith
      · exact .inr room
    refine ⟨more,fun calm again => ?_⟩
    simp [due,same,calm] at again
    omega
  · have none := stands (by omega) tight
    refine ⟨none,fun automatic => ?_⟩
    simp [due,same,automatic,none]

/-- One object on a heap that collects at the first, with the factor 1.5. -/
def crowded : Heap Value :=
  after { rules := { threshold := 1, growth := 1.5 } } [.create (.environment {} none),.register ⟨0⟩ []]

theorem collect_crowded : ∃ k, collect [⟨0⟩] crowded = .ok 0 k ∧ k.liveCount = 1 ∧ k.nextThreshold = 1 := by
  have answered : (answerOf (collect [⟨0⟩] crowded)).toOption = some 0 := by decide +kernel
  have live : (stateAfter (collect [⟨0⟩] crowded)).liveCount = 1 := by decide +kernel
  have next : (stateAfter (collect [⟨0⟩] crowded)).nextThreshold = 1 := by decide +kernel
  cases done : collect [⟨0⟩] crowded with
  | ok freed k =>
    rw [done] at answered live next
    cases answered
    exact ⟨k,rfl,live,next⟩
  | error f k =>
    rw [done] at answered
    cases answered

theorem collections_pace_crowded :
    Rules.check 1 1.5 false true false = .ok crowded.rules ∧ (1.5 : Float).isFinite ∧
      ∃ freed k, collect [⟨0⟩] crowded = .ok freed k ∧ k.liveCount = 1 ∧ k.nextThreshold = 1 ∧ k.due := by
  have accepted : Rules.check 1 1.5 false true false = .ok crowded.rules := rfl
  have finite : (1.5 : Float).isFinite := by decide +kernel
  obtain ⟨k,done,live,-⟩ := collect_crowded
  obtain ⟨m,e,parts,-,-,-,tight⟩ := collections_pace accepted finite done (by rw [live]; norm_num)
  have factor : Parts.of 1.5 = .finite false (3 * 2 ^ 51) (-52) := by decide +kernel
  cases parts.symm.trans factor
  obtain ⟨stands,due⟩ := tight (by rw [live]; norm_num) (by rw [live]; norm_num)
  exact ⟨accepted,finite,0,k,done,live,stands.trans live,due rfl⟩

/-- A threshold need not grow: with one object left and the factor 1.5 the next object is collected for again. -/
theorem threshold_stands_still :
    ¬∀ (threshold : Int) (growth : Float) (rules : Rules), Rules.check threshold growth false true false = .ok rules →
      growth.isFinite → ∀ (history : List (Request Value)) (roots : List Ref) (freed : Nat) (k : Heap Value),
      collect roots (after { rules } history) = .ok freed k → k.liveCount < k.nextThreshold := by
  intro grows
  obtain ⟨k,done,live,next⟩ := collect_crowded
  have less := grows 1 1.5 _ rfl (by decide +kernel) _ [⟨0⟩] 0 k done
  omega

end Lox.Heap
