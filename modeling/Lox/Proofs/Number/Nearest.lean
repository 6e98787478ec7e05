import Lox.Number.Numeral
import Lox.Proofs.Number.Rounding

/-! # Nearest doubles

A rational between the two borders of a double is rounded to that double: exact products and quotients are
cut to the unit of their size, with two more bits for what is cut off, and then rounded, halves to even.
-/
namespace Lox.Number
open Float.Model Float.Model.UnpackedFloat

/-! ## Mantissas that are cut off -/

/-- A mantissa with its two further bits stands for a number: the first bit for a half, the second one
for some part of a half. -/
def Carries (em : ExtendedMantissa) (x : ℚ) : Prop :=
  ∃ part : ℚ, x = em.mantissa + part ∧
    match em.roundBit,em.stickyBit with
    | false,false => part = 0
    | false,true => 0 < part ∧ 2 * part < 1
    | true,false => 2 * part = 1
    | true,true => 1 < 2 * part ∧ part < 1

theorem Carries.bounds {em : ExtendedMantissa} {x : ℚ} (h : Carries em x) :
    (em.mantissa : ℚ) ≤ x ∧ x < em.mantissa + 1 := by
  obtain ⟨part,rfl,bits⟩ := h
  split at bits <;> constructor <;> linarith

theorem Carries.shiftRightOne {em : ExtendedMantissa} {x : ℚ} (h : Carries em x) :
    Carries em.shiftRightOne (x / 2) := by
  obtain ⟨m,r,s⟩ := em
  obtain ⟨part,rfl,bits⟩ := h
  have halves : ((m / 2 : ℕ) : ℚ) * 2 + (m % 2 : ℕ) = m := by exact_mod_cast Nat.div_add_mod' m 2
  obtain ⟨half,twice⟩ : ∃ half : ℚ, 2 * half = (m % 2 : ℕ) + part := ⟨((m % 2 : ℕ) + part) / 2,by ring⟩
  refine ⟨half,by simp only [ExtendedMantissa.shiftRightOne]; linarith,?_⟩
  rcases Nat.mod_two_eq_zero_or_one m with last | last <;> rw [last] at twice <;>
    simp only [ExtendedMantissa.shiftRightOne,last,bne_self_eq_false,show ((1 : ℕ) != 0) = true from rfl] <;>
    cases r <;> cases s <;> simp only [Bool.or_false,Bool.or_true,Nat.cast_zero,Nat.cast_one] at bits twice ⊢ <;>
    grind

theorem Carries.shiftRight {em : ExtendedMantissa} {x : ℚ} (h : Carries em x) (n : ℕ) :
    Carries (em >>> n) (x / 2 ^ n) := by
  induction n with
  | zero => simpa [HShiftRight.hShiftRight,Nat.repeat] using h
  | succ n ih =>
    rw [pow_succ,← div_div]
    exact ih.shiftRightOne

/-- A mantissa is rounded to a whole number that is nearest, an even one if there are two. -/
theorem Carries.roundedMantissa {em : ExtendedMantissa} {x : ℚ} (h : Carries em x) {n : ℕ}
    (low : (n : ℚ) - 1 / 2 ≤ x) (high : x ≤ n + 1 / 2)
    (inside : (n : ℚ) - 1 / 2 < x ∧ x < n + 1 / 2 ∨ n % 2 = 0) : em.roundedMantissa = n := by
  obtain ⟨m,r,s⟩ := em
  obtain ⟨part,rfl,bits⟩ := h
  have below : (m : ℚ) < n + 1 → m < n + 1 := by exact_mod_cast id
  have above : (n : ℚ) < m + 1 → n < m + 1 := by exact_mod_cast id
  have after : (m : ℚ) < n → m < n := by exact_mod_cast id
  have before : (n : ℚ) < m + 2 → n < m + 2 := by exact_mod_cast id
  cases r <;> cases s <;> dsimp only at bits low high inside <;>
    simp only [ExtendedMantissa.roundedMantissa,ExtendedMantissa.accuracy,Accuracy.roundToNearestEven]
  · have := below (by linarith)
    have := above (by linarith)
    omega
  · have := below (by linarith)
    have := above (by linarith)
    omega
  · -- Between two whole numbers that are equally near.
    have := below (by linarith)
    have := before (by linarith)
    rcases inside with ⟨low,high⟩ | even
    · have := after (by linarith)
      have := above (by linarith)
      omega
    · omega
  · have := after (by linarith)
    have := before (by linarith)
    omega

/-! ## The borders of a double -/

/-- The mantissa and the exponent of a positive double. -/
structure Canonical (m : ℕ) (e : ℤ) : Prop where
  pos : 0 < m
  below : m < 2 ^ 53
  unit : 2 ^ 52 ≤ m ∨ e = -1074
  least : -1074 ≤ e

/-- An interval holds a number of quarter units. -/
def Interval.Holds (i : Interval) (q : ℚ) : Prop :=
  if i.closed then i.low ≤ q ∧ q ≤ i.high else i.low < q ∧ q < i.high

/-- A rational lies between the borders of a double. -/
def Around (m : ℕ) (e : ℤ) (r : ℚ) : Prop := (Interval.around m e).Holds (4 * (r / 2 ^ e))

/-- A number of units that the interval around a mantissa holds. -/
theorem Canonical.borders {m : ℕ} {e : ℤ} {v : ℚ} (canonical : Canonical m e)
    (inside : (Interval.around m e).Holds (4 * v)) :
    (m : ℚ) - 1 / 2 ≤ v ∧ v ≤ m + 1 / 2 ∧ ((m : ℚ) - 1 / 2 < v ∧ v < m + 1 / 2 ∨ m % 2 = 0) ∧
      (m = 2 ^ 52 → e ≠ -1074 → (m : ℚ) - 1 / 4 ≤ v) := by
  have pos := canonical.pos
  have two : ((4 * m - 2 : ℕ) : ℚ) = 4 * m - 2 := by
    rw [Nat.cast_sub (by omega)]
    norm_num
  have one : ((4 * m - 1 : ℕ) : ℚ) = 4 * m - 1 := by
    rw [Nat.cast_sub (by omega)]
    norm_num
  have high : ((4 * m + 2 : ℕ) : ℚ) = 4 * m + 2 := by norm_num
  by_cases finer : m = 2 ^ 52 ∧ e ≠ -1074
  · obtain ⟨rfl,above⟩ := finer
    rw [Interval.Holds,if_pos (by simp [Interval.around])] at inside
    simp only [Interval.around,Nat.pow_eq,above,ne_eq,not_false_eq_true,and_self,if_true,one,high] at inside
    grind
  · have coarse : m = 2 ^ 52 → e ≠ -1074 → (m : ℚ) - 1 / 4 ≤ v := fun h h' => absurd ⟨h,h'⟩ finer
    simp only [Interval.Holds,Interval.around,Nat.pow_eq,if_neg finer,two,high,decide_eq_true_eq] at inside
    split at inside <;> grind

/-! ## Rounding to a double -/

theorem targetExponent_eq (m : ℕ) (e : ℤ) :
    Format.targetExponent .binary64 (totalExponent m e) = max (m.log2 + 1 + e - 53) (-1074) := by
  rfl

theorem pow_log2_le {x : ℚ} {m : ℕ} (nonzero : m ≠ 0) (h : (m : ℚ) ≤ x) : 2 ^ (m.log2 : ℤ) ≤ x := by
  rw [zpow_natCast]
  exact le_trans (by exact_mod_cast Nat.log2_self_le nonzero) h

theorem lt_pow_log2 {x : ℚ} {m : ℕ} (h : x < m + 1) : x < 2 ^ (m.log2 + 1 : ℤ) := by
  refine lt_of_lt_of_le h ?_
  exact_mod_cast Nat.lt_log2_self

/-- The unit that a number has by its size is that of the double next to it, except where it is just below a
power of two. -/
theorem Canonical.target {m M : ℕ} {e E : ℤ} {y : ℚ} (canonical : Canonical m e)
    (least : (M : ℚ) ≤ y) (most : y < M + 1) (fine : 2 ^ 52 ≤ M ∨ E ≤ -1074)
    (inside : Around m e (y * 2 ^ E)) :
    Format.targetExponent .binary64 (totalExponent M E) = e ∨
      Format.targetExponent .binary64 (totalExponent M E) = e - 1 ∧ m = 2 ^ 52 := by
  rw [Around,mul_div_assoc,← zpow_sub₀ (by norm_num)] at inside
  obtain ⟨low,high,-,fringe⟩ := canonical.borders inside
  obtain ⟨pos,below,unit,bound⟩ := canonical
  have below' : (m : ℚ) + 1 / 2 < 2 ^ (53 : ℤ) := by
    have : (m : ℚ) + 1 ≤ 2 ^ 53 := by exact_mod_cast below
    rw [show (2 : ℚ) ^ (53 : ℤ) = 2 ^ 53 by norm_num]
    linarith
  have power : ∀ i : ℤ, (2 : ℚ) ^ i * 2 ^ (E - e) = 2 ^ (i + E - e) := by
    intro i
    rw [← zpow_add₀ (by norm_num)]
    congr 1
    ring
  have atMost : M ≠ 0 → M.log2 + E - e < 53 := by
    intro nonzero
    have reached := mul_le_mul_of_nonneg_right (pow_log2_le nonzero least)
      (show (0 : ℚ) ≤ 2 ^ (E - e) by positivity)
    rw [power] at reached
    exact (zpow_lt_zpow_iff_right₀ (by norm_num : (1 : ℚ) < 2)).mp (by linarith)
  have atLeast : ∀ n : ℤ, 2 ^ n ≤ y * 2 ^ (E - e) → n < M.log2 + 1 + E - e := by
    intro n reached
    have above := mul_lt_mul_of_pos_right (lt_pow_log2 most) (show (0 : ℚ) < 2 ^ (E - e) by positivity)
    rw [power] at above
    exact (zpow_lt_zpow_iff_right₀ (by norm_num : (1 : ℚ) < 2)).mp (by linarith)
  have upper : max (M.log2 + 1 + E - 53 : ℤ) (-1074) ≤ e := by
    by_cases zero : M = 0
    · subst zero
      simp only [Nat.log2_zero] at *
      omega
    · have := atMost zero
      omega
  rw [targetExponent_eq]
  rcases Nat.lt_trichotomy m (2 ^ 52) with small | border | large
  · omega
  · by_cases last : e = -1074
    · omega
    · have := atLeast 51 (by
        have := fringe border last
        rw [border] at this
        norm_num at this ⊢
        linarith)
      omega
  · have := atLeast 52 (by
      have : (2 : ℚ) ^ (52 : ℤ) + 1 ≤ m := by exact_mod_cast large
      linarith)
    omega

/-- A mantissa of a double is in its place already. -/
theorem Canonical.shiftToTargetExponent {m : ℕ} {e : ℤ} (canonical : Canonical m e) :
    shiftToTargetExponent .binary64 m e .exact = (⟨m,false,false⟩,e) := by
  obtain ⟨pos,below,unit,bound⟩ := canonical
  have small : (m.log2 : ℤ) < 53 := by exact_mod_cast (Nat.log2_lt (by omega)).mpr below
  have large : 2 ^ 52 ≤ m → 52 ≤ m.log2 := (Nat.le_log2 (by omega)).mpr
  have target : Format.targetExponent .binary64 (totalExponent m e) = e := by
    rw [targetExponent_eq]
    omega
  simp only [UnpackedFloat.shiftToTargetExponent,shiftToExponent,target,sub_self,Int.toNat_zero,
    ExtendedMantissa.ofMantissaAndAccuracy,Nat.cast_zero,add_zero]
  rfl

theorem carry_eq (e : ℤ) (bound : -1073 ≤ e) :
    shiftToTargetExponent .binary64 (2 ^ 53) (e - 1) .exact = (⟨2 ^ 52,false,false⟩,e) := by
  have bits : (2 ^ 53 : ℕ).log2 = 53 := Nat.log2_two_pow
  have shifted := shiftToTargetExponent_eq (m := 2 ^ 53) (e := e - 1) (by omega) (by omega)
  rw [bits] at shifted
  rw [shifted]
  show (ExtendedMantissa.shiftRightOne ⟨2 ^ 53,false,false⟩,e - 1 + 1) = _
  rw [sub_add_cancel]
  rfl

/-- What stands for a number between the borders of a double is rounded to that double. -/
theorem Canonical.roundWithAccuracy {m M : ℕ} {e E : ℤ} {a : Accuracy} {y : ℚ} (canonical : Canonical m e)
    (carried : Carries (.ofMantissaAndAccuracy M a) y) (fine : 2 ^ 52 ≤ M ∨ E ≤ -1074)
    (inside : Around m e (y * 2 ^ E)) (s : Sign) :
    UnpackedFloat.roundWithAccuracy .binary64 s M E a = .finite s m e canonical.pos := by
  have whole : (ExtendedMantissa.ofMantissaAndAccuracy M a).mantissa = M := by
    cases a with
    | exact => rfl
    | inexact o => cases o <;> rfl
  obtain ⟨least,most⟩ := carried.bounds
  rw [whole] at least most
  have target := canonical.target least most fine inside
  rw [Around,mul_div_assoc,← zpow_sub₀ (by norm_num)] at inside
  obtain ⟨low,high,ties,fringe⟩ := canonical.borders inside
  have large : 2 ^ 52 ≤ M → 52 ≤ M.log2 := fun h => (Nat.le_log2 (by omega)).mpr h
  have room : E ≤ Format.targetExponent .binary64 (totalExponent M E) ∧
      M.log2 + 1 + E - 53 ≤ Format.targetExponent .binary64 (totalExponent M E) ∧
      -1074 ≤ Format.targetExponent .binary64 (totalExponent M E) := by
    rw [targetExponent_eq]
    omega
  simp only [UnpackedFloat.roundWithAccuracy]
  generalize cut : UnpackedFloat.shiftToTargetExponent .binary64 M E a = em
  simp only [UnpackedFloat.shiftToTargetExponent,shiftToExponent] at cut
  generalize Format.targetExponent .binary64 (totalExponent M E) = t at *
  obtain rfl := cut
  obtain ⟨n,rfl⟩ : ∃ n : ℕ, t = E + n := ⟨(t - E).toNat,by omega⟩
  have moved := carried.shiftRight n
  rw [show (E + n - E).toNat = n by omega]
  rcases target with rfl | ⟨rest,rfl⟩
  · have scaled : y * 2 ^ (E - (E + n)) = y / 2 ^ n := by
      rw [show E - (E + n) = -(n : ℤ) by ring,zpow_neg,zpow_natCast,div_eq_mul_inv]
    rw [scaled] at low high ties
    rw [moved.roundedMantissa low high ties,canonical.shiftToTargetExponent,dif_neg canonical.pos.ne']
  · -- Just below a power of two the number is rounded up to it, and the carry is shifted out.
    have scaled : y / 2 ^ n = y * 2 ^ (E - e) * 2 := by
      rw [show E - e = -(n : ℤ) - 1 by omega,zpow_sub₀ (by norm_num),zpow_neg,zpow_natCast]
      ring
    have above : y / 2 ^ n < 2 ^ 53 := by
      rw [div_lt_iff₀ (by positivity),← zpow_natCast,← zpow_natCast,← zpow_add₀ (by norm_num)]
      refine lt_of_lt_of_le (lt_pow_log2 most) (zpow_le_zpow_right₀ (by norm_num) ?_)
      push_cast
      omega
    have fringe := fringe rfl (by omega)
    norm_num at fringe above
    have rounded := moved.roundedMantissa (n := 2 ^ 53) (by norm_num; linarith) (by norm_num; linarith) (.inr rfl)
    rw [rounded,rest,carry_eq e (by omega),dif_neg (show ¬(2 ^ 52 : ℕ) = 0 by decide)]

/-! ## Products and quotients -/

theorem carries_exact (m : ℕ) : Carries (.ofMantissaAndAccuracy m .exact) m :=
  ⟨0,by simp [ExtendedMantissa.ofMantissaAndAccuracy],rfl⟩

theorem carries_quotient (m n : ℕ) (pos : 0 < n) :
    Carries (.ofMantissaAndAccuracy (m / n) (accuracyOfFraction (m % n) n)) (m / n) := by
  have less := Nat.mod_lt m pos
  have whole : (n : ℚ) * (m / n : ℕ) + (m % n : ℕ) = m := by exact_mod_cast Nat.div_add_mod m n
  have pos' : (0 : ℚ) < n := by exact_mod_cast pos
  have sum : (m : ℚ) / n = (m / n : ℕ) + (m % n : ℕ) / n := by
    rw [← whole]
    field_simp
  unfold accuracyOfFraction
  split
  · next zero => exact ⟨0,by rw [sum,zero]; simp [ExtendedMantissa.ofMantissaAndAccuracy],rfl⟩
  · next nonzero =>
    have some : (0 : ℚ) < (m % n : ℕ) := by exact_mod_cast Nat.pos_of_ne_zero nonzero
    refine ⟨(m % n : ℕ) / n,?_,?_⟩
    · rw [sum]
      cases compare (2 * (m % n)) n <;> rfl
    · rcases compared : compare (2 * (m % n)) n with _ | _ | _
      · have : ((2 * (m % n) : ℕ) : ℚ) < n := by exact_mod_cast Nat.compare_eq_lt.mp compared
        exact ⟨div_pos some pos',by rw [← mul_div_assoc,div_lt_one pos']; exact_mod_cast this⟩
      · have : ((2 * (m % n) : ℕ) : ℚ) = n := by exact_mod_cast Nat.compare_eq_eq.mp compared
        show 2 * ((m % n : ℕ) / n : ℚ) = 1
        rw [← mul_div_assoc,div_eq_one_iff_eq pos'.ne']
        exact_mod_cast this
      · have : (n : ℚ) < (2 * (m % n) : ℕ) := by exact_mod_cast Nat.compare_eq_gt.mp compared
        refine ⟨by rw [← mul_div_assoc,one_lt_div pos']; exact_mod_cast this,?_⟩
        rw [div_lt_one pos']
        exact_mod_cast less

theorem Canonical.mul {m m₁ m₂ : ℕ} {e e₁ e₂ : ℤ} (canonical : Canonical m e) (pos₁ : 0 < m₁) (pos₂ : 0 < m₂)
    (long : 2 ^ 52 ≤ m₁ * m₂) (inside : Around m e (m₁ * 2 ^ e₁ * (m₂ * 2 ^ e₂))) :
    UnpackedFloat.mul .binary64 (.finite .positive m₁ e₁ pos₁) (.finite .positive m₂ e₂ pos₂) =
      .finite .positive m e canonical.pos := by
  refine canonical.roundWithAccuracy (carries_exact _) (.inl long) ?_ _
  convert inside using 1
  rw [zpow_add₀ (by norm_num)]
  push_cast
  ring

theorem le_shifted_div {m n j : ℕ} (nonzero : m ≠ 0) (pos : 0 < n) (h : 53 + n.log2 ≤ m.log2 + j) :
    2 ^ 52 ≤ (m <<< j) / n := by
  rw [Nat.le_div_iff_mul_le pos,Nat.shiftLeft_eq]
  calc 2 ^ 52 * n ≤ 2 ^ 52 * 2 ^ (n.log2 + 1) := Nat.mul_le_mul_left _ Nat.lt_log2_self.le
    _ = 2 ^ (53 + n.log2) := by rw [← Nat.pow_add]; congr 1; omega
    _ ≤ 2 ^ (m.log2 + j) := Nat.pow_le_pow_right (by decide) h
    _ = 2 ^ m.log2 * 2 ^ j := Nat.pow_add ..
    _ ≤ m * 2 ^ j := Nat.mul_le_mul_right _ (Nat.log2_self_le nonzero)

theorem Canonical.div {m m₁ m₂ : ℕ} {e e₁ e₂ : ℤ} (canonical : Canonical m e) (pos₁ : 0 < m₁) (pos₂ : 0 < m₂)
    (inside : Around m e (m₁ * 2 ^ e₁ / (m₂ * 2 ^ e₂))) :
    UnpackedFloat.div .binary64 (.finite .positive m₁ e₁ pos₁) (.finite .positive m₂ e₂ pos₂) =
      .finite .positive m e canonical.pos := by
  simp only [UnpackedFloat.div,divCore]
  have target : ∀ x, Format.targetExponent .binary64 x = max (x - 53) (-1074) := fun _ => rfl
  have room : min (e₁ - e₂) (Format.targetExponent .binary64 (totalExponent m₁ e₁ - totalExponent m₂ e₂)) ≤ e₁ - e₂ ∧
      (min (e₁ - e₂) (Format.targetExponent .binary64 (totalExponent m₁ e₁ - totalExponent m₂ e₂)) ≤ -1074 ∨
        min (e₁ - e₂) (Format.targetExponent .binary64 (totalExponent m₁ e₁ - totalExponent m₂ e₂)) ≤
          m₁.log2 + e₁ - (m₂.log2 + e₂) - 53) := by
    simp only [target,totalExponent]
    omega
  generalize min (e₁ - e₂) (Format.targetExponent .binary64 (totalExponent m₁ e₁ - totalExponent m₂ e₂)) = t at room
  obtain ⟨before,enough⟩ := room
  obtain ⟨j,moved⟩ : ∃ j : ℕ, e₁ - e₂ - t = j := ⟨(e₁ - e₂ - t).toNat,by omega⟩
  rw [moved,Int.toNat_natCast]
  refine canonical.roundWithAccuracy (carries_quotient _ _ pos₂) ?_ ?_ _
  · rcases enough with small | long
    · exact .inr small
    · exact .inl (le_shifted_div pos₁.ne' pos₂ (by omega))
  · convert inside using 1
    have : (m₂ : ℚ) ≠ 0 := by exact_mod_cast pos₂.ne'
    rw [show t = e₁ - e₂ - j by omega,zpow_sub₀ (by norm_num),zpow_sub₀ (by norm_num),zpow_natCast,Nat.shiftLeft_eq]
    push_cast
    field_simp

/-! ## Packed doubles -/

/-- A double comes back when it has been packed. -/
theorem Canonical.unpack_pack {m : ℕ} {e : ℤ} (canonical : Canonical m e) (most : e ≤ 971) (s : Sign) :
    (pack (.finite s m e canonical.pos)).unpack = .finite s m e canonical.pos := by
  obtain ⟨pos,below,unit,least⟩ := canonical
  have biased : (e + (Format.exponentBias .binary64 : ℤ) + (52 : ℕ)).toNat = (e + 1075).toNat := by
    show (e + 1023 + 52).toNat = _
    omega
  by_cases bits : m.log2 = 52
  · apply unpack_pack_normal bits least
    rw [unpack_ofModel_pack]
    simp only [UnpackedFloat.pack,biased]
    rw [if_neg (by omega),if_pos (by rw [bits]; rfl)]
    have notFull : BitVec.ofNat 11 (e + 1075).toNat ≠ -1#11 := by
      intro h
      have := congrArg BitVec.toNat h
      rw [BitVec.toNat_ofNat,Nat.mod_eq_of_lt (by omega)] at this
      simp at this
      omega
    simp only [UnpackedFloat.unpack,unpackExponent_packComponents,if_neg notFull]
    split
    · split <;> rfl
    · rfl
  · have small : m < 2 ^ 52 := by
      by_contra large
      exact bits (log2_eq_iff.mpr ⟨by omega,below⟩)
    obtain rfl : e = -1074 := by omega
    have mantissa : (BitVec.ofNat 52 m).toNat = m := by
      rw [BitVec.toNat_ofNat,Nat.mod_eq_of_lt small]
    have some : BitVec.ofNat 52 m ≠ 0#52 := by
      intro h
      have := congrArg BitVec.toNat h
      rw [mantissa] at this
      simp at this
      omega
    rw [unpack_ofModel_pack]
    simp only [UnpackedFloat.pack,biased]
    rw [if_neg (by decide),if_neg (show ¬m.log2 + 1 = Format.mantissaBits .binary64 by
      show ¬m.log2 + 1 = 53
      omega)]
    simp only [UnpackedFloat.unpack,unpackExponent_packComponents,unpackMantissa_packComponents,
      unpackSign_packComponents,mantissa,dif_neg some]
    cases s <;> rfl

theorem log2_five_pow {i : ℕ} (h : i ≤ 22) : (5 ^ i).log2 ≤ 52 := by
  have size : 5 ^ i < 2 ^ 53 := lt_of_le_of_lt (Nat.pow_le_pow_right (by decide) h) (by decide)
  exact Nat.lt_succ_iff.mp ((Nat.log2_lt (by positivity)).mpr size)

theorem unpack_powers (i : ℕ) (h : i < Float.exactlyRepresentablePowersOfTen.size) :
    Float.exactlyRepresentablePowersOfTen[i].toModel.unpack =
      .finite .positive (5 ^ i * 2 ^ (52 - (5 ^ i).log2)) (Int.subNatNat i (52 - (5 ^ i).log2)) (by positivity) := by
  have table : Float.exactlyRepresentablePowersOfTen[i]?.map (·.toModel.unpack) =
      some (.finite .positive (5 ^ i * 2 ^ (52 - (5 ^ i).log2)) (Int.subNatNat i (52 - (5 ^ i).log2))
        (by positivity)) := by
    replace h : i < 23 := h
    interval_cases i <;> rfl
  rw [getElem?_pos _ i h] at table
  exact Option.some.inj table

theorem normal_powers (i : ℕ) (h : i < Float.exactlyRepresentablePowersOfTen.size) :
    Normal Float.exactlyRepresentablePowersOfTen[i].toModel.unpack (10 ^ i) := by
  have small := log2_five_pow (i := i) (Nat.lt_succ_iff.mp h)
  have value : ((5 ^ i * 2 ^ (52 - (5 ^ i).log2) : ℕ) : ℚ) * 2 ^ (Int.subNatNat i (52 - (5 ^ i).log2)) = 10 ^ i := by
    rw [Int.subNatNat_eq_coe,zpow_sub₀ (by norm_num),zpow_natCast,zpow_natCast,show (10 : ℚ) = 5 * 2 by norm_num,
      mul_pow]
    push_cast
    field_simp
  rw [unpack_powers i h,← value]
  refine .intro _ ?_ ?_
  · rw [log2_mul_two_pow (by positivity)]
    omega
  · rw [Int.subNatNat_eq_coe]
    omega

/-! ## Powers of two and of ten -/

theorem ten_pow_le_two_pow {a n : ℕ} (h : 196 * a ≤ 59 * n) : 10 ^ a ≤ 2 ^ n := by
  apply (Nat.pow_le_pow_iff_left (by decide : 59 ≠ 0)).mp
  calc (10 ^ a) ^ 59 = (10 ^ 59) ^ a := pow_right_comm ..
    _ ≤ (2 ^ 196) ^ a := Nat.pow_le_pow_left (by norm_num) a
    _ = 2 ^ (196 * a) := (pow_mul ..).symm
    _ ≤ 2 ^ (59 * n) := Nat.pow_le_pow_right (by decide) h
    _ = (2 ^ n) ^ 59 := by rw [← pow_mul,mul_comm]

theorem two_pow_le_ten_pow {n a : ℕ} (h : 28 * n ≤ 93 * a) : 2 ^ n ≤ 10 ^ a := by
  apply (Nat.pow_le_pow_iff_left (by decide : 28 ≠ 0)).mp
  calc (2 ^ n) ^ 28 = 2 ^ (28 * n) := by rw [← pow_mul,mul_comm]
    _ ≤ 2 ^ (93 * a) := Nat.pow_le_pow_right (by decide) h
    _ = (2 ^ 93) ^ a := pow_mul ..
    _ ≤ (10 ^ 28) ^ a := Nat.pow_le_pow_left (by norm_num) a
    _ = (10 ^ a) ^ 28 := pow_right_comm ..

/-- Ten is a bit more than `2 ^ (93 / 28)` and a bit less than `2 ^ (196 / 59)`. -/
theorem ten_zpow_le_two_zpow {a n : ℤ} (large : 0 ≤ n → 196 * a ≤ 59 * n) (small : n < 0 → 93 * a ≤ 28 * n) :
    (10 : ℚ) ^ a ≤ 2 ^ n := by
  rcases le_or_gt 0 a with up | down
  · lift a to ℕ using up
    have above : 0 ≤ n := by omega
    lift n to ℕ using above
    exact_mod_cast ten_pow_le_two_pow (a := a) (n := n) (by omega)
  · rcases le_or_gt 0 n with above | below
    · exact le_trans (zpow_le_one_of_nonpos₀ (by norm_num) down.le) (one_le_zpow₀ (by norm_num) above)
    · obtain ⟨b,rfl⟩ : ∃ b : ℕ, a = -b := ⟨(-a).toNat,by omega⟩
      obtain ⟨k,rfl⟩ : ∃ k : ℕ, n = -k := ⟨(-n).toNat,by omega⟩
      rw [zpow_neg,zpow_neg,zpow_natCast,zpow_natCast]
      apply inv_anti₀ (by positivity)
      exact_mod_cast two_pow_le_ten_pow (a := b) (n := k) (by omega)

theorem two_zpow_le_ten_zpow {n a : ℤ} (large : 0 ≤ n → 28 * n ≤ 93 * a) (small : n < 0 → 59 * n ≤ 196 * a) :
    (2 : ℚ) ^ n ≤ 10 ^ a := by
  have inverse : (10 : ℚ) ^ (-a) ≤ 2 ^ (-n) := ten_zpow_le_two_zpow (by omega) (by omega)
  rw [zpow_neg,zpow_neg] at inverse
  exact (inv_le_inv₀ (by positivity) (by positivity)).mp inverse

/-! ## Decimals -/

/-- Every number that rounds to a double lies in the range of doubles. -/
theorem Canonical.range {m : ℕ} {e : ℤ} {r : ℚ} (canonical : Canonical m e) (most : e ≤ 971)
    (inside : Around m e r) : 2 ^ (-1075 : ℤ) ≤ r ∧ r < 2 ^ (1024 : ℤ) := by
  obtain ⟨low,high,-,-⟩ := canonical.borders inside
  obtain ⟨pos,below,-,least⟩ := canonical
  have unit : (0 : ℚ) < 2 ^ e := by positivity
  have one : (1 : ℚ) ≤ m := by exact_mod_cast pos
  have full : (m : ℚ) + 1 ≤ 2 ^ (53 : ℤ) := by exact_mod_cast below
  rw [le_div_iff₀ unit] at low
  rw [div_le_iff₀ unit] at high
  constructor
  · calc (2 : ℚ) ^ (-1075 : ℤ) = 2 ^ (-1 : ℤ) * 2 ^ (-1074 : ℤ) := by rw [← zpow_add₀ (by norm_num)]; norm_num
      _ = 1 / 2 * 2 ^ (-1074 : ℤ) := by rw [zpow_neg_one,one_div]
      _ ≤ 1 / 2 * 2 ^ e := mul_le_mul_of_nonneg_left (zpow_le_zpow_right₀ (by norm_num) least) (by norm_num)
      _ ≤ (m - 1 / 2) * 2 ^ e := mul_le_mul_of_nonneg_right (by linarith) unit.le
      _ ≤ r := low
  · calc r ≤ (m + 1 / 2) * 2 ^ e := high
      _ < 2 ^ (53 : ℤ) * 2 ^ e := mul_lt_mul_of_pos_right (by linarith) unit
      _ ≤ 2 ^ (53 : ℤ) * 2 ^ (971 : ℤ) := mul_le_mul_of_nonneg_left (zpow_le_zpow_right₀ (by norm_num) most) (by positivity)
      _ = 2 ^ (1024 : ℤ) := by rw [← zpow_add₀ (by norm_num)]; norm_num

/-- The order of magnitude that is computed from the digits is that of the number. -/
theorem magnitude_bounds {c : ℕ} {k : ℤ} (pos : 0 < c) (places : -400 ≤ k ∧ k ≤ 400)
    (least : 2 ^ (-1075 : ℤ) ≤ (c : ℚ) * 10 ^ k) (most : (c : ℚ) * 10 ^ k < 2 ^ (1024 : ℤ)) :
    -360 ≤ (c.log2 : ℤ) * 30103 / 100000 + k ∧ (c.log2 : ℤ) * 30103 / 100000 + k ≤ 330 := by
  have power : (0 : ℚ) < 10 ^ k := by positivity
  have reached := pow_log2_le pos.ne' (le_refl (c : ℚ))
  have above := lt_pow_log2 (lt_add_one (c : ℚ))
  constructor
  · by_contra low
    have small : (10 : ℚ) ^ k ≤ 2 ^ (-1075 - (c.log2 + 1 : ℤ)) := ten_zpow_le_two_zpow (by omega) (by omega)
    have : (c : ℚ) * 10 ^ k < 2 ^ (-1075 : ℤ) := calc
      (c : ℚ) * 10 ^ k < 2 ^ (c.log2 + 1 : ℤ) * 10 ^ k := mul_lt_mul_of_pos_right above power
      _ ≤ 2 ^ (c.log2 + 1 : ℤ) * 2 ^ (-1075 - (c.log2 + 1 : ℤ)) := mul_le_mul_of_nonneg_left small (by positivity)
      _ = 2 ^ (-1075 : ℤ) := by rw [← zpow_add₀ (by norm_num)]; congr 1; omega
    linarith
  · by_contra high
    have large : (2 : ℚ) ^ (1024 - c.log2 : ℤ) ≤ 10 ^ k := two_zpow_le_ten_zpow (by omega) (by omega)
    have : (2 : ℚ) ^ (1024 : ℤ) ≤ c * 10 ^ k := calc
      (2 : ℚ) ^ (1024 : ℤ) = 2 ^ (c.log2 : ℤ) * 2 ^ (1024 - c.log2 : ℤ) := by
        rw [← zpow_add₀ (by norm_num)]; congr 1; omega
      _ ≤ c * 10 ^ k := mul_le_mul reached large (by positivity) (by positivity)
    linarith

theorem Canonical.ofScientific_model {m c : ℕ} {e k : ℤ} (canonical : Canonical m e) (pos : 0 < c)
    (places : -400 ≤ k ∧ k ≤ 400) (inside : Around m e (c * 10 ^ k)) :
    UnpackedFloat.ofScientific .binary64 c k = .finite .positive m e canonical.pos := by
  simp only [UnpackedFloat.ofScientific]
  rw [dif_neg pos.ne',if_neg (by norm_num; omega),if_neg (by norm_num; omega)]
  split
  · next whole =>
    lift k to ℕ using whole
    refine canonical.mul _ _ ?_ ?_
    · show 2 ^ 52 ≤ c <<< 53 * 10 ^ k
      rw [Nat.shiftLeft_eq]
      calc 2 ^ 52 ≤ 1 * 2 ^ 53 * 1 := by decide
        _ ≤ c * 2 ^ 53 * 10 ^ k := Nat.mul_le_mul (Nat.mul_le_mul_right _ pos) (Nat.pow_pos (by decide))
    · convert inside using 1
      show ((c <<< 53 : ℕ) : ℚ) * 2 ^ (-53 : ℤ) * ((10 ^ k : ℕ) * 2 ^ (0 : ℤ)) = _
      rw [Nat.shiftLeft_eq]
      push_cast
      rw [zpow_natCast,mul_one,mul_assoc (c : ℚ)]
      norm_num
  · next fraction =>
    obtain ⟨j,rfl⟩ : ∃ j : ℕ, k = -j := ⟨(-k).toNat,by omega⟩
    refine canonical.div _ _ ?_
    convert inside using 1
    rw [zpow_neg,zpow_natCast,neg_neg,Int.toNat_natCast]
    push_cast
    ring

theorem unpack_div (x y : Float) : (x / y).toModel.unpack =
    (pack (UnpackedFloat.div .binary64 x.toModel.unpack y.toModel.unpack)).unpack := rfl

/-- Few digits and a small power of ten are doubles themselves, and are multiplied or divided as such. -/
theorem Canonical.ofScientific_exact {m c j : ℕ} {e : ℤ} (canonical : Canonical m e) (most : e ≤ 971) (pos : 0 < c)
    (few : c < 2 ^ 53) (small : j < Float.exactlyRepresentablePowersOfTen.size) :
    (Around m e (c * 10 ^ j) →
      (c.toUInt64.toFloat * Float.exactlyRepresentablePowersOfTen[j]).toModel.unpack =
        .finite .positive m e canonical.pos) ∧
      (Around m e (c / 10 ^ j) →
        (c.toUInt64.toFloat / Float.exactlyRepresentablePowersOfTen[j]).toModel.unpack =
          .finite .positive m e canonical.pos) := by
  have count := normal_toFloat pos few
  have power := normal_powers j small
  rw [unpack_mul,unpack_div]
  generalize c.toUInt64.toFloat.toModel.unpack = u,(c : ℚ) = x at count
  generalize Float.exactlyRepresentablePowersOfTen[j].toModel.unpack = v,(10 : ℚ) ^ j = y at power
  obtain @⟨m₁,e₁,pos₁,bits₁,-⟩ := count
  obtain @⟨m₂,e₂,pos₂,bits₂,-⟩ := power
  have long : 2 ^ 52 ≤ m₁ * m₂ := (Nat.le_log2 (by positivity)).mp (le_log2_mul bits₁ bits₂)
  constructor
  · intro inside
    rw [canonical.mul pos₁ pos₂ long inside,canonical.unpack_pack most]
  · intro inside
    rw [canonical.div pos₁ pos₂ inside,canonical.unpack_pack most]

theorem Canonical.ofScientific {m c : ℕ} {e k : ℤ} (canonical : Canonical m e) (most : e ≤ 971) (pos : 0 < c)
    (places : -400 ≤ k ∧ k ≤ 400) (inside : Around m e (c * 10 ^ k)) :
    (Float.ofScientific c (k < 0) k.natAbs).toModel.unpack = .finite .positive m e canonical.pos := by
  unfold Float.ofScientific
  split
  · next exact_ =>
    obtain ⟨few,small⟩ := exact_
    obtain ⟨product,quotient⟩ :=
      canonical.ofScientific_exact most pos few (j := k.natAbs) (Nat.lt_succ_of_le small)
    by_cases negative : k < 0
    · simp only [negative,decide_true,if_true]
      apply quotient
      convert inside using 1
      rw [show k = -(k.natAbs : ℤ) by omega,zpow_neg,zpow_natCast,Int.natAbs_neg,Int.natAbs_natCast,div_eq_mul_inv]
    · simp only [negative,decide_false,Bool.false_eq_true,if_false]
      apply product
      convert inside using 1
      rw [← zpow_natCast,show (k.natAbs : ℤ) = k by omega]
  · have exponent : (if decide (k < 0) = true then Int.negOfNat k.natAbs else Int.ofNat k.natAbs) = k := by
      by_cases negative : k < 0
      · simp only [negative,decide_true,if_true,Int.negOfNat_eq,Int.ofNat_eq_natCast]
        omega
      · simp only [negative,decide_false,Bool.false_eq_true,if_false,Int.ofNat_eq_natCast]
        omega
    rw [exponent]
    show (pack (UnpackedFloat.ofScientific .binary64 c k)).unpack = _
    rw [canonical.ofScientific_model pos places inside,canonical.unpack_pack most]

/-- A decimal between the borders of a double is read as that double. -/
theorem Canonical.ofDecimal {m : ℕ} {e : ℤ} {d : Decimal} (canonical : Canonical m e) (most : e ≤ 971)
    (pos : 0 < d.digits) (places : -400 ≤ d.exponent ∧ d.exponent ≤ 400)
    (inside : Around m e (d.digits * 10 ^ d.exponent)) :
    (Number.ofDecimal d).toModel.unpack = .finite .positive m e canonical.pos := by
  obtain ⟨low,high⟩ := canonical.range most inside
  obtain ⟨least,largest⟩ := magnitude_bounds pos places low high
  unfold Number.ofDecimal
  rw [if_neg pos.ne']
  dsimp only
  rw [if_neg (by omega),if_neg (by omega)]
  exact canonical.ofScientific most pos places inside

end Lox.Number
