import Lox.Proofs.Number.Nearest

/-! # Shortest decimals

The decimal of a double lies between the borders of the double, and no decimal that lies there has a coarser
grid. Thus its last digit is not zero.
-/
namespace Lox.Number

variable {i : Interval} {k q : ℤ} {c : ℕ}

/-! ## Grids -/

theorem Grid.step_mul (k q : ℤ) : ((Grid.of k q).step : ℚ) * 2 ^ q = 4 * 10 ^ k * (Grid.of k q).quarter := by
  have two : ((2 - q).toNat : ℤ) + q = 2 + ((q - 2).toNat : ℤ) := by omega
  have ten : (k.toNat : ℤ) = k + ((-k).toNat : ℤ) := by omega
  simp only [Grid.of,Nat.pow_eq]
  push_cast
  simp only [← zpow_natCast]
  calc (10 : ℚ) ^ (k.toNat : ℤ) * 2 ^ ((2 - q).toNat : ℤ) * 2 ^ q
      = 10 ^ (k.toNat : ℤ) * 2 ^ (((2 - q).toNat : ℤ) + q) := by rw [mul_assoc,zpow_add₀ (by norm_num)]
    _ = 10 ^ (k + ((-k).toNat : ℤ)) * 2 ^ (2 + ((q - 2).toNat : ℤ)) := by rw [two,← ten]
    _ = 4 * 10 ^ k * (2 ^ ((q - 2).toNat : ℤ) * 10 ^ ((-k).toNat : ℤ)) := by
      rw [zpow_add₀ (by norm_num),zpow_add₀ (by norm_num)]
      norm_num
      ring

/-- A grid point on the common scale. -/
theorem Grid.point_eq (c : ℕ) (k q : ℤ) :
    ((c * (Grid.of k q).step : ℕ) : ℚ) = 4 * (c * 10 ^ k / 2 ^ q) * (Grid.of k q).quarter := by
  have scale := Grid.step_mul k q
  push_cast
  field_simp
  linear_combination (c : ℚ) * scale

theorem Interval.contains_iff : i.contains (Grid.of k q) c ↔ i.Holds (4 * (c * 10 ^ k / 2 ^ q)) := by
  have positive : (0 : ℚ) < (Grid.of k q).quarter := by exact_mod_cast Grid.quarter_pos k q
  have point := Grid.point_eq c k q
  have least : ∀ n : ℕ, n * (Grid.of k q).quarter ≤ c * (Grid.of k q).step ↔
      (n : ℚ) ≤ 4 * (c * 10 ^ k / 2 ^ q) := by
    intro n
    rw [← Nat.cast_le (α := ℚ),point,Nat.cast_mul,mul_le_mul_iff_left₀ positive]
  have most : ∀ n : ℕ, c * (Grid.of k q).step ≤ n * (Grid.of k q).quarter ↔
      4 * (c * 10 ^ k / 2 ^ q) ≤ (n : ℚ) := by
    intro n
    rw [← Nat.cast_le (α := ℚ),point,Nat.cast_mul,mul_le_mul_iff_left₀ positive]
  unfold Interval.contains Interval.Holds
  split
  · rw [Bool.and_eq_true,decide_eq_true_eq,decide_eq_true_eq,least,most]
  · rw [Bool.and_eq_true,decide_eq_true_eq,decide_eq_true_eq,← not_le,← not_le,most,least,not_le,not_le]

/-- The middle of an interval lies inside it. -/
structure Interval.Proper (i : Interval) : Prop where
  below : i.low < i.middle
  above : i.middle < i.high

theorem Interval.contains_of_between {g : Grid} (low : i.low * g.quarter < c * g.step)
    (high : c * g.step < i.high * g.quarter) : i.contains g c := by
  unfold Interval.contains
  split <;> simp only [Bool.and_eq_true,decide_eq_true_eq] <;> omega

theorem Interval.le_of_contains {g : Grid} (h : i.contains g c) :
    i.low * g.quarter ≤ c * g.step ∧ c * g.step ≤ i.high * g.quarter := by
  unfold Interval.contains at h
  split at h <;> simp only [Bool.and_eq_true,decide_eq_true_eq] at h <;> omega

theorem Interval.not_contains_of_none {g : Grid} (h : i.point? g = none) :
    i.contains g (i.middle * g.quarter / g.step) = false ∧
      i.contains g (i.middle * g.quarter / g.step + 1) = false := by
  simp only [Interval.point?] at h
  split at h
  · next below above => exact ⟨below,above⟩
  · cases h
  · cases h
  · split at h <;> cases h

/-- An interval with a grid point has one next to its middle. -/
theorem Interval.Proper.point?_ne_none {g : Grid} (proper : i.Proper) (step : 0 < g.step) (quarter : 0 < g.quarter)
    (h : i.contains g c) : i.point? g ≠ none := by
  intro none
  obtain ⟨below,above⟩ := Interval.not_contains_of_none none
  have low := Nat.mul_lt_mul_of_pos_right proper.below quarter
  have high := Nat.mul_lt_mul_of_pos_right proper.above quarter
  have floor := Nat.div_mul_le_self (i.middle * g.quarter) g.step
  have ceiling : i.middle * g.quarter < (i.middle * g.quarter / g.step + 1) * g.step := by
    rw [Nat.succ_mul]
    exact Nat.lt_div_mul_add step
  obtain ⟨least,most⟩ := Interval.le_of_contains h
  rcases Nat.lt_trichotomy c (i.middle * g.quarter / g.step) with before | here | after
  · have := Nat.mul_lt_mul_of_pos_right before step
    rw [Interval.contains_of_between (by omega) (by omega)] at below
    cases below
  · rw [here,below] at h
    cases h
  · rcases Nat.lt_or_ge (i.middle * g.quarter / g.step + 1) c with beyond | here
    · have := Nat.mul_lt_mul_of_pos_right beyond step
      rw [Interval.contains_of_between (by omega) (by omega)] at above
      cases above
    · rw [show c = i.middle * g.quarter / g.step + 1 by omega,above] at h
      cases h

/-- A fine grid has a point between the middle and the upper border. -/
theorem Interval.point?_of_fine {g : Grid} (proper : i.Proper) (step : 0 < g.step) (quarter : 0 < g.quarter)
    (fine : i.middle * g.quarter + g.step < i.high * g.quarter) : i.point? g ≠ none := by
  have low := Nat.mul_lt_mul_of_pos_right proper.below quarter
  have floor := Nat.div_mul_le_self (i.middle * g.quarter) g.step
  have ceiling : i.middle * g.quarter < i.middle * g.quarter / g.step * g.step + g.step := Nat.lt_div_mul_add step
  have next : (i.middle * g.quarter / g.step + 1) * g.step = i.middle * g.quarter / g.step * g.step + g.step :=
    Nat.succ_mul ..
  apply proper.point?_ne_none step quarter (c := i.middle * g.quarter / g.step + 1)
  exact Interval.contains_of_between (by omega) (by omega)

/-! ## The search for a grid -/

/-- The first grid with a point is taken. -/
theorem coarsest_spec (i : Interval) (q : ℤ) {tries : ℕ} {k : ℤ} {j : ℕ} (within : j < tries)
    (found : i.point? (Grid.of (k - j) q) ≠ none) :
    ∃ c n, n ≤ j ∧ coarsest i q tries k = ⟨c,k - n⟩ ∧ i.contains (Grid.of (k - n) q) c ∧
      ∀ n' : ℕ, n' < n → i.point? (Grid.of (k - n') q) = none := by
  induction tries generalizing k j with
  | zero => omega
  | succ tries ih =>
    cases here : i.point? (Grid.of k q) with
    | some c =>
      refine ⟨c,0,by omega,by simp [coarsest,here],?_,by omega⟩
      simpa using Interval.contains_of_point? here
    | none =>
      cases j with
      | zero => simp [here] at found
      | succ j =>
        have back : ∀ n : ℕ, k - 1 - n = k - (n + 1 : ℕ) := by
          intro n
          push_cast
          ring
        obtain ⟨c,n,less,result,point,before⟩ := ih (k := k - 1) (j := j) (by omega) (by rwa [back])
        rw [back] at result point
        refine ⟨c,n + 1,by omega,by simp only [coarsest,here,result],point,?_⟩
        intro n' earlier
        cases n' with
        | zero => simpa using here
        | succ n' => exact back n' ▸ before n' (by omega)

/-! ## The digits of a double -/

variable {m : ℕ} {e : ℤ} {d : Decimal}

/-- A decimal is between the borders of a double, and no decimal of a coarser grid is. -/
structure IsShortest (m : ℕ) (e : ℤ) (d : Decimal) : Prop where
  inside : Around m e (d.digits * 10 ^ d.exponent)
  coarsest : ∀ (c : ℕ) (k : ℤ), Around m e (c * 10 ^ k) → k ≤ d.exponent

theorem Canonical.digits_pos (canonical : Canonical m e) (inside : Around m e (c * 10 ^ k)) : 0 < c := by
  obtain ⟨low,-,-,-⟩ := canonical.borders inside
  have one : (1 : ℚ) ≤ m := by exact_mod_cast canonical.pos
  apply Nat.pos_of_ne_zero
  rintro rfl
  norm_num at low
  linarith

theorem IsShortest.last_digit (shortest : IsShortest m e d) : d.digits % 10 ≠ 0 := by
  intro zero
  have inside := shortest.inside
  obtain ⟨c,whole⟩ : ∃ c, d.digits = c * 10 := ⟨d.digits / 10,by omega⟩
  have coarser : Around m e (c * 10 ^ (d.exponent + 1)) := by
    convert inside using 1
    rw [whole,zpow_add_one₀ (by norm_num)]
    push_cast
    ring
  have := shortest.coarsest c _ coarser
  omega

theorem Canonical.proper (canonical : Canonical m e) : (Interval.around m e).Proper := by
  have := canonical.pos
  constructor
  · simp only [Interval.around]
    split <;> omega
  · simp only [Interval.around]
    omega

theorem Canonical.log2_le (canonical : Canonical m e) : m.log2 ≤ 52 :=
  Nat.lt_succ_iff.mp ((Nat.log2_lt canonical.pos.ne').mpr canonical.below)

/-- Above the ceiling no decimal is near the double. -/
theorem Canonical.le_ceilingExponent (canonical : Canonical m e) (most : e ≤ 971)
    (inside : Around m e (c * 10 ^ k)) : k ≤ ceilingExponent m e := by
  by_contra above
  have digits : (1 : ℚ) ≤ c := by exact_mod_cast canonical.digits_pos inside
  have bits := canonical.log2_le
  have least := canonical.least
  obtain ⟨-,high,-,-⟩ := canonical.borders inside
  rw [div_le_iff₀ (by positivity)] at high
  have size := lt_pow_log2 (lt_add_one (m : ℚ))
  have half : (m : ℚ) + 1 / 2 < 2 ^ (m.log2 + 2 : ℤ) := by
    have double : (2 : ℚ) ^ (m.log2 + 2 : ℤ) = 2 ^ (m.log2 + 1 : ℤ) * 2 := by
      rw [← zpow_add_one₀ (by norm_num)]
      congr 1
    have : (1 : ℚ) ≤ m := by exact_mod_cast canonical.pos
    linarith
  have reached : (2 : ℚ) ^ (m.log2 + 2 + e : ℤ) ≤ 10 ^ k := by
    unfold ceilingExponent at above
    exact two_zpow_le_ten_zpow (by omega) (by omega)
  have : (c : ℚ) * 10 ^ k < c * 10 ^ k := calc
    (c : ℚ) * 10 ^ k ≤ (m + 1 / 2) * 2 ^ e := high
    _ < 2 ^ (m.log2 + 2 : ℤ) * 2 ^ e := mul_lt_mul_of_pos_right half (by positivity)
    _ = 2 ^ (m.log2 + 2 + e : ℤ) := (zpow_add₀ (by norm_num) _ _).symm
    _ ≤ 1 * 10 ^ k := by rwa [one_mul]
    _ ≤ c * 10 ^ k := mul_le_mul_of_nonneg_right digits (by positivity)
  exact lt_irrefl _ this

/-- The last grid that is tried is fine enough. -/
theorem Canonical.point?_last (canonical : Canonical m e) (most : e ≤ 971) :
    (Interval.around m e).point? (Grid.of (ceilingExponent m e - (31 : ℕ)) e) ≠ none := by
  have bits := canonical.log2_le
  have least := canonical.least
  have small : (10 : ℚ) ^ (ceilingExponent m e - (31 : ℕ)) ≤ 2 ^ (e - 2) := by
    unfold ceilingExponent
    exact ten_zpow_le_two_zpow (by omega) (by omega)
  have step := Grid.step_pos (ceilingExponent m e - (31 : ℕ)) e
  have quarter := Grid.quarter_pos (ceilingExponent m e - (31 : ℕ)) e
  have scale := Grid.step_mul (ceilingExponent m e - (31 : ℕ)) e
  generalize Grid.of (ceilingExponent m e - (31 : ℕ)) e = g at *
  have positive : (0 : ℚ) < g.quarter := by exact_mod_cast quarter
  have fine : (g.step : ℚ) ≤ g.quarter := by
    have unit : (2 : ℚ) ^ e = 4 * 2 ^ (e - 2) := by
      rw [zpow_sub₀ (by norm_num)]
      norm_num
      ring
    apply le_of_mul_le_mul_right _ (show (0 : ℚ) < 2 ^ e by positivity)
    rw [scale,mul_comm (g.quarter : ℚ)]
    apply mul_le_mul_of_nonneg_right _ positive.le
    linarith
  have fine' : g.step ≤ g.quarter := by exact_mod_cast fine
  apply Interval.point?_of_fine canonical.proper step quarter
  show 4 * m * g.quarter + g.step < (4 * m + 2) * g.quarter
  rw [Nat.add_mul]
  omega

theorem Canonical.shortest_spec (canonical : Canonical m e) (most : e ≤ 971) :
    IsShortest m e (shortest m e) ∧ -400 ≤ (shortest m e).exponent ∧ (shortest m e).exponent ≤ 400 := by
  have bits := canonical.log2_le
  have least := canonical.least
  obtain ⟨c,n,within,result,point,before⟩ :=
    coarsest_spec (Interval.around m e) e (by decide : 31 < 32) (canonical.point?_last most)
  have unfolded : shortest m e = ⟨c,ceilingExponent m e - n⟩ := by
    rw [← result,shortest,if_neg canonical.pos.ne']
  rw [unfolded]
  refine ⟨⟨Interval.contains_iff.mp point,?_⟩,?_,?_⟩
  · intro c' k' inside
    by_contra coarser
    have ceiling := canonical.le_ceilingExponent most inside
    have none := before (ceilingExponent m e - k').toNat (by simp at coarser; omega)
    rw [show ceilingExponent m e - ((ceilingExponent m e - k').toNat : ℤ) = k' by omega] at none
    exact canonical.proper.point?_ne_none (Grid.step_pos _ _) (Grid.quarter_pos _ _)
      (Interval.contains_iff.mpr inside) none
  · show -400 ≤ ceilingExponent m e - n
    unfold ceilingExponent
    omega
  · show ceilingExponent m e - n ≤ 400
    unfold ceilingExponent
    omega

end Lox.Number
