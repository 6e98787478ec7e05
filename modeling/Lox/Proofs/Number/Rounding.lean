import Lox.Proofs.Number.Products

/-! # Rounding

Products of doubles with all 53 significant bits are rounded to such doubles. A whole number that the exact
product reaches is reached by the rounded one, and the rounded product exceeds the exact one by no more than
one part in `2 ^ 52`.
-/
namespace Lox.Number
open Float.Model Float.Model.UnpackedFloat

/-- A positive double with 53 significant bits, and its value. -/
inductive Normal : UnpackedFloat → ℚ → Prop
  | intro {m : Nat} {e : Int} (pos : 0 < m) (bits : m.log2 = 52) (unit : -1074 ≤ e) :
    Normal (.finite .positive m e pos) (m * 2 ^ e)

theorem log2_eq_iff {m : Nat} : m.log2 = 52 ↔ 2 ^ 52 ≤ m ∧ m < 2 ^ 53 := by
  by_cases zero : m = 0
  · simp [zero]
  · exact Nat.log2_eq_iff zero

/-! ## Packing -/

theorem unpackSign_packComponents (spec : Format) (s : Sign) (b : BitVec spec.exponentBits)
    (w : BitVec spec.mantissaBitsWithoutImplicit) : unpackSign (packComponents spec s b w) = s.toBitVec := by
  apply BitVec.eq_of_getLsbD_eq
  intro i hi
  obtain rfl : i = 0 := by omega
  simp [unpackSign,packComponents,BitVec.getLsbD_append,BitVec.getElem_append]

/-- A double with 53 significant bits comes back when it has been packed, unless it is too large. -/
theorem unpack_pack_normal {s : Sign} {m : Nat} {e : Int} {pos : 0 < m} (bits : m.log2 = 52) (unit : -1074 ≤ e)
    (finite : (pack (.finite s m e pos)).unpack.isFinite) :
    (pack (.finite s m e pos)).unpack = .finite s m e pos := by
  have biased : (e + (Format.exponentBias .binary64 : Int) + (52 : Nat)).toNat = (e + 1075).toNat := by
    show (e + 1023 + 52).toNat = _
    omega
  rw [unpack_ofModel_pack] at finite ⊢
  simp only [UnpackedFloat.pack,biased] at finite ⊢
  split at finite
  · cases s <;> exact absurd finite (by decide)
  · next small =>
    rw [if_neg small]
    have exponent : (BitVec.ofNat 11 (e + 1075).toNat).toNat = (e + 1075).toNat := by
      rw [BitVec.toNat_ofNat,Nat.mod_eq_of_lt (by omega)]
    have mantissa : (1#1 ++ BitVec.ofNat 52 m).toNat = m := by
      obtain ⟨least,most⟩ := log2_eq_iff.mp bits
      rw [toNat_one_append,BitVec.toNat_ofNat]
      omega
    have some : BitVec.ofNat 11 (e + 1075).toNat ≠ 0#11 := by
      intro h
      have := congrArg BitVec.toNat h
      rw [exponent] at this
      simp at this
      omega
    have notFull : BitVec.ofNat 11 (e + 1075).toNat ≠ -1#11 := by
      intro h
      have := congrArg BitVec.toNat h
      rw [exponent] at this
      simp at this
      omega
    rw [if_pos (show m.log2 + 1 = Format.mantissaBits .binary64 by rw [bits]; rfl)]
    simp only [UnpackedFloat.unpack,unpackExponent_packComponents,unpackMantissa_packComponents,
      unpackSign_packComponents,if_neg some,if_neg notFull,mantissa,exponent]
    congr 1
    · cases s <;> rfl
    · show ((e + 1075).toNat : Int) - 1075 = e
      omega

theorem Normal.unpack_pack {u : UnpackedFloat} {x : ℚ} (normal : Normal u x)
    (finite : (pack u).unpack.isFinite) : Normal (pack u).unpack x := by
  obtain ⟨_,bits,unit⟩ := normal
  rw [unpack_pack_normal bits unit finite]
  exact .intro _ bits unit

/-! ## Rounding a mantissa -/

theorem shiftRight_exact (m n : Nat) :
    (⟨m * 2 ^ n,false,false⟩ : ExtendedMantissa) >>> n = ⟨m,false,false⟩ := by
  induction n generalizing m with
  | zero => simp [HShiftRight.hShiftRight,Nat.repeat]
  | succ n ih =>
    have first := ih (m * 2)
    show ((⟨m * 2 ^ (n + 1),false,false⟩ : ExtendedMantissa) >>> n).shiftRightOne = _
    rw [Nat.pow_succ',← Nat.mul_assoc,first]
    simp [ExtendedMantissa.shiftRightOne]

theorem le_roundedMantissa (em : ExtendedMantissa) : em.mantissa ≤ em.roundedMantissa := by
  obtain ⟨m,r,s⟩ := em
  cases r <;> cases s <;>
    simp only [ExtendedMantissa.roundedMantissa,ExtendedMantissa.accuracy,Accuracy.roundToNearestEven] <;> omega

/-- A long mantissa is cut to 53 bits. -/
theorem shiftToTargetExponent_eq {m : Nat} {e : Int} (long : 52 ≤ m.log2) (unit : -1022 ≤ m.log2 + e) :
    shiftToTargetExponent .binary64 m e .exact =
      ((⟨m,false,false⟩ : ExtendedMantissa) >>> (m.log2 - 52),e + (m.log2 - 52 : Nat)) := by
  have amount : (Format.targetExponent .binary64 (totalExponent m e) - e).toNat = m.log2 - 52 := by
    simp only [Format.targetExponent,totalExponent,Format.mantissaBits,Format.minExponent]
    norm_num
    omega
  simp only [shiftToTargetExponent,shiftToExponent,ExtendedMantissa.ofMantissaAndAccuracy,amount]

/-- A carry into a bit more costs nothing. -/
theorem normal_shift {r : Nat} {e : Int} (least : 2 ^ 52 ≤ r) (most : r ≤ 2 ^ 53) (unit : -1074 ≤ e) :
    (shiftToTargetExponent .binary64 r e .exact).1.mantissa.log2 = 52 ∧
      -1074 ≤ (shiftToTargetExponent .binary64 r e .exact).2 ∧
      ((shiftToTargetExponent .binary64 r e .exact).1.mantissa : ℚ) *
        2 ^ (shiftToTargetExponent .binary64 r e .exact).2 = r * 2 ^ e := by
  by_cases carry : r = 2 ^ 53
  · subst carry
    have bits : (2 ^ 53 : Nat).log2 = 53 := Nat.log2_two_pow
    have shifted := shiftToTargetExponent_eq (m := 2 ^ 53) (e := e) (by omega) (by omega)
    rw [bits] at shifted
    rw [shifted,mantissa_shiftRight]
    refine ⟨?_,by simp; omega,?_⟩
    · show (2 ^ 53 / 2 ^ 1 : Nat).log2 = 52
      rw [show (2 ^ 53 / 2 ^ 1 : Nat) = 2 ^ 52 by norm_num,Nat.log2_two_pow]
    show ((2 ^ 53 / 2 ^ 1 : Nat) : ℚ) * 2 ^ (e + (1 : Nat)) = _
    rw [zpow_add₀ (by norm_num)]
    norm_num
    ring
  · have bits : r.log2 = 52 := log2_eq_iff.mpr ⟨least,by omega⟩
    have shifted := shiftToTargetExponent_eq (m := r) (e := e) (by omega) (by omega)
    rw [bits] at shifted
    rw [shifted,mantissa_shiftRight]
    simpa [bits] using unit

/-- A long mantissa is rounded down or up to 53 bits. -/
theorem normal_roundWithAccuracy {m : Nat} {e : Int} (long : 52 ≤ m.log2) (unit : -1022 ≤ m.log2 + e) :
    ∃ r : Nat, m / 2 ^ (m.log2 - 52) ≤ r ∧ r ≤ m / 2 ^ (m.log2 - 52) + 1 ∧
      (∀ n, m = n * 2 ^ (m.log2 - 52) → r = n) ∧
      Normal (roundWithAccuracy .binary64 .positive m e .exact) (r * 2 ^ (e + (m.log2 - 52 : Nat))) := by
  generalize amount : m.log2 - 52 = k
  have nonzero : m ≠ 0 := by
    rintro rfl
    simp at long
  obtain ⟨least,most⟩ := (Nat.log2_eq_iff nonzero).mp (show m.log2 = 52 + k by omega)
  have low : 2 ^ 52 ≤ m / 2 ^ k := by
    rw [Nat.le_div_iff_mul_le (by positivity),← Nat.pow_add]
    exact least
  have high : m / 2 ^ k < 2 ^ 53 := by
    rw [Nat.div_lt_iff_lt_mul (by positivity),← Nat.pow_add]
    convert most using 2
    omega
  have first := shiftToTargetExponent_eq long unit
  rw [amount] at first
  generalize cut : (⟨m,false,false⟩ : ExtendedMantissa) >>> k = em at first
  have mantissa : em.mantissa = m / 2 ^ k := by rw [← cut,mantissa_shiftRight]
  have down := le_roundedMantissa em
  have up := roundedMantissa_le em
  refine ⟨em.roundedMantissa,by omega,by omega,?_,?_⟩
  · intro n whole
    rw [whole,shiftRight_exact] at cut
    rw [← cut]
    rfl
  · obtain ⟨bits,unit',value⟩ := normal_shift (r := em.roundedMantissa) (e := e + k) (by omega) (by omega) (by omega)
    have nonzero' : (shiftToTargetExponent .binary64 em.roundedMantissa (e + k) .exact).1.mantissa ≠ 0 := by
      intro zero
      simp [zero] at bits
    simp only [roundWithAccuracy,first]
    rw [dif_neg nonzero',← value]
    exact .intro _ bits unit'

/-! ## Whole numbers and rounding -/

/-- What rounding does to a value of which the first 53 bits are kept. -/
structure Near (x y : ℚ) : Prop where
  reaches : ∀ n : Nat, n ≤ 2 ^ 53 → (n : ℚ) ≤ x → (n : ℚ) ≤ y
  close : y ≤ x * (1 + 2 ^ (-52 : Int))

/-- A mantissa that is rounded to 53 bits, in units of which it has `k` more. -/
theorem near_of_cut {m r k : Nat} {e : Int} (least : 2 ^ 52 ≤ m / 2 ^ k) (down : m / 2 ^ k ≤ r)
    (up : r ≤ m / 2 ^ k + 1) : Near (m * 2 ^ e) (r * 2 ^ (e + k)) := by
  have exact_ : (m : ℚ) * 2 ^ e = m / 2 ^ k * 2 ^ (e + k) := by
    rw [zpow_add₀ (by norm_num),zpow_natCast]
    field_simp
  have below : ((m / 2 ^ k : Nat) : ℚ) ≤ m / 2 ^ k := by
    rw [le_div_iff₀ (by positivity)]
    exact_mod_cast Nat.div_mul_le_self m (2 ^ k)
  have above : (m : ℚ) / 2 ^ k < (m / 2 ^ k : Nat) + 1 := by
    rw [div_lt_iff₀' (by positivity)]
    exact_mod_cast Nat.lt_mul_div_succ m (Nat.two_pow_pos k)
  have least' : (2 : ℚ) ^ 52 ≤ (m / 2 ^ k : Nat) := by exact_mod_cast least
  have down' : ((m / 2 ^ k : Nat) : ℚ) ≤ r := by exact_mod_cast down
  have up' : (r : ℚ) ≤ (m / 2 ^ k : Nat) + 1 := by exact_mod_cast up
  rw [exact_]
  generalize e + k = f
  constructor
  · intro n small reached
    by_cases fine : f ≤ 0
    · obtain ⟨j,rfl⟩ : ∃ j : Nat, f = -(j : Int) := ⟨(-f).toNat,by omega⟩
      rw [zpow_neg,zpow_natCast,← div_eq_mul_inv] at reached ⊢
      rw [le_div_iff₀ (by positivity)] at reached ⊢
      have whole : n * 2 ^ j < m / 2 ^ k + 1 := by
        exact_mod_cast lt_of_le_of_lt reached above
      exact le_trans (by exact_mod_cast Nat.lt_succ_iff.mp whole) down'
    · have coarse : (2 : ℚ) ≤ 2 ^ f := by
        calc (2 : ℚ) = 2 ^ (1 : Int) := (zpow_one 2).symm
          _ ≤ 2 ^ f := zpow_le_zpow_right₀ (by norm_num) (by omega)
      calc (n : ℚ) ≤ 2 ^ 53 := by exact_mod_cast small
        _ = 2 ^ 52 * 2 := by norm_num
        _ ≤ r * 2 ^ f := mul_le_mul (le_trans least' down') coarse (by norm_num) (by positivity)
  · have unit : (1 : ℚ) ≤ m / 2 ^ k * 2 ^ (-52 : Int) := by
      rw [zpow_neg,← div_eq_mul_inv,le_div_iff₀ (by positivity),one_mul]
      exact le_trans least' below
    rw [mul_right_comm]
    apply mul_le_mul_of_nonneg_right _ (by positivity)
    linarith

/-! ## Products -/

theorem nonneg_log2_add {m : Nat} {e : Int} (large : 1 ≤ (m : ℚ) * 2 ^ e) : 0 ≤ (m.log2 : Int) + e := by
  have below : (m : ℚ) < 2 ^ ((m.log2 + 1 : Nat) : Int) := by
    rw [zpow_natCast]
    exact_mod_cast Nat.lt_log2_self
  have power : (2 : ℚ) ^ (0 : Int) < 2 ^ ((m.log2 + 1 : Nat) + e : Int) := by
    rw [zpow_zero,zpow_add₀ (by norm_num)]
    exact lt_of_le_of_lt large (mul_lt_mul_of_pos_right below (by positivity))
  have := (zpow_lt_zpow_iff_right₀ (by norm_num : (1 : ℚ) < 2)).mp power
  omega

theorem log2_mul_two_pow {m : Nat} (pos : 0 < m) (k : Nat) : (m * 2 ^ k).log2 = m.log2 + k := by
  obtain ⟨least,most⟩ := (Nat.log2_eq_iff (Nat.ne_of_gt pos)).mp rfl
  apply (Nat.log2_eq_iff (by positivity)).mpr
  constructor
  · rw [Nat.pow_add]
    exact Nat.mul_le_mul_right _ least
  · rw [Nat.add_right_comm,Nat.pow_add]
    exact Nat.mul_lt_mul_of_pos_right most (by positivity)

theorem le_log2_mul {m n : Nat} (hm : m.log2 = 52) (hn : n.log2 = 52) : 52 ≤ (m * n).log2 := by
  obtain ⟨leastM,-⟩ := log2_eq_iff.mp hm
  obtain ⟨leastN,-⟩ := log2_eq_iff.mp hn
  have large : 2 ^ 52 ≤ m * n := calc
    2 ^ 52 ≤ m * 1 := by omega
    _ ≤ m * n := Nat.mul_le_mul_left m (by omega)
  exact (Nat.le_log2 (by omega)).mpr large

/-- The product of doubles of 53 significant bits is again one, near the exact product. -/
theorem Normal.mul {u v : UnpackedFloat} {x y : ℚ} (hu : Normal u x) (hv : Normal v y) (large : 1 ≤ x * y) :
    ∃ z, Normal (UnpackedFloat.mul .binary64 u v) z ∧ Near (x * y) z := by
  obtain @⟨m,e,_,hm,-⟩ := hu
  obtain @⟨n,f,_,hn,-⟩ := hv
  have value : (m * 2 ^ e * (n * 2 ^ f) : ℚ) = (m * n : Nat) * 2 ^ (e + f) := by
    rw [zpow_add₀ (by norm_num)]
    push_cast
    ring
  rw [value] at large ⊢
  have long := le_log2_mul hm hn
  have unit := nonneg_log2_add large
  obtain ⟨r,down,up,-,normal⟩ := normal_roundWithAccuracy (e := e + f) long (by omega)
  refine ⟨_,normal,near_of_cut ?_ down up⟩
  rw [Nat.le_div_iff_mul_le (by positivity),← Nat.pow_add,Nat.add_sub_cancel' long]
  exact Nat.log2_self_le (by positivity)

/-- A product with one is exact. -/
theorem Normal.mul_one {u : UnpackedFloat} {x : ℚ} (hu : Normal u x) :
    Normal (UnpackedFloat.mul .binary64 u (.finite .positive (2 ^ 52) (-52) (by decide))) x := by
  obtain @⟨m,e,pos,hm,unit⟩ := hu
  have bits : (m * 2 ^ 52).log2 = 104 := by rw [log2_mul_two_pow pos,hm]
  obtain ⟨r,-,-,whole,normal⟩ := normal_roundWithAccuracy (m := m * 2 ^ 52) (e := e + -52) (by omega) (by omega)
  rw [bits] at whole normal
  rw [whole m rfl,show e + -52 + (104 - 52 : Nat) = e by omega] at normal
  exact normal

theorem normal_ofNat_model {n : Nat} (pos : 0 < n) (small : n < 2 ^ 53) :
    Normal (UnpackedFloat.ofNat .binary64 n) n := by
  have bits : n.log2 < 53 := (Nat.log2_lt (Nat.ne_of_gt pos)).mpr small
  have amount : (0 - Format.targetExponent .binary64 (totalExponent n 0)).toNat = 52 - n.log2 := by
    simp only [Format.targetExponent,totalExponent,Format.mantissaBits,Format.minExponent]
    norm_num
    omega
  have positive : compare (n : Int) 0 = .gt := compare_gt_iff_gt.mpr (by omega)
  simp only [UnpackedFloat.ofNat,UnpackedFloat.ofInt,UnpackedFloat.normalize,positive,UnpackedFloat.round,
    decreaseExponent,amount,Int.toNat_natCast]
  have long : (n * 2 ^ (52 - n.log2)).log2 = 52 := by
    rw [log2_mul_two_pow pos]
    omega
  obtain ⟨r,-,-,whole,normal⟩ := normal_roundWithAccuracy (m := n * 2 ^ (52 - n.log2))
    (e := 0 - (52 - n.log2 : Nat)) (by omega) (by omega)
  rw [long] at whole normal
  rw [whole (n * 2 ^ (52 - n.log2)) (Nat.mul_one _).symm] at normal
  rw [Nat.shiftLeft_eq]
  convert normal using 1
  rw [Nat.sub_self,Nat.cast_zero,add_zero,zero_sub,zpow_neg,zpow_natCast]
  push_cast
  field_simp

/-- A count below `2 ^ 53` as a double. -/
theorem normal_toFloat {n : ℕ} (pos : 0 < n) (small : n < 2 ^ 53) :
    Normal n.toUInt64.toFloat.toModel.unpack n := by
  have whole : n.toUInt64.toNat = n := Nat.mod_eq_of_lt (by omega)
  change Normal (pack (UnpackedFloat.ofNat .binary64 n.toUInt64.toNat)).unpack n
  rw [whole]
  exact (normal_ofNat_model pos small).unpack_pack
    (fits_unpack_pack (fits_ofNat_model small) (by decide) (by decide)).isFinite

theorem unpack_one : (Float.ofBits 4607182418800017408).toModel.unpack = .finite .positive (2 ^ 52) (-52) (by decide) :=
  rfl

/-- A count below `2 ^ 53` is a double. -/
theorem normal_ofNat {n : Nat} (pos : 0 < n) (small : n < 2 ^ 53) : Normal (Float.ofNat n).toModel.unpack n := by
  have finite : (Float.ofNat n).toModel.unpack.isFinite := (fits_ofNat (by omega)).isFinite
  change (Float.ofScientific n false 0).toModel.unpack.isFinite at finite
  show Normal (Float.ofScientific n false 0).toModel.unpack n
  simp only [Float.ofScientific] at finite ⊢
  rw [dif_pos ⟨small,by decide⟩] at finite ⊢
  change (n.toUInt64.toFloat * Float.ofBits 4607182418800017408).toModel.unpack.isFinite at finite
  show Normal (n.toUInt64.toFloat * Float.ofBits 4607182418800017408).toModel.unpack n
  rw [unpack_mul,unpack_one] at finite ⊢
  exact (normal_toFloat pos small).mul_one.unpack_pack finite

/-! ## Truncated products -/

theorem wholePart_eq_floor (m : Nat) (e : Int) : (wholePart m e : Int) = ⌊(m : ℚ) * 2 ^ e⌋ := by
  cases e with
  | ofNat k =>
    show ((m * 2 ^ k : Nat) : Int) = ⌊(m : ℚ) * 2 ^ (k : Int)⌋
    rw [zpow_natCast,← Int.floor_natCast (R := ℚ) (m * 2 ^ k)]
    push_cast
    rfl
  | negSucc k =>
    show ((m / 2 ^ (k + 1) : Nat) : Int) = _
    have floor := Rat.floor_natCast_div_natCast m (2 ^ (k + 1))
    push_cast at floor
    rw [zpow_negSucc,← div_eq_mul_inv,floor]
    rfl

theorem truncate_of_normal {x : Float} {v : ℚ} (normal : Normal x.toModel.unpack v) : truncate x = .ok ⌊v⌋ := by
  rw [truncate,Parts.of_eq]
  generalize x.toModel.unpack = u at normal
  obtain @⟨m,e,_,-,-⟩ := normal
  exact congrArg Except.ok (wholePart_eq_floor m e)

/-- A finite double that is not below one has 53 significant bits. -/
theorem normal_of_parts {x : Float} {m : Nat} {e : Int} (parts : Parts.of x = .finite false m e)
    (large : 1 ≤ (m : ℚ) * 2 ^ e) : Normal x.toModel.unpack (m * 2 ^ e) := by
  rw [Parts.of_eq] at parts
  cases unpacked : x.toModel.unpack with
  | notANumber | infinity _ =>
    rw [unpacked] at parts
    cases parts
  | zero s =>
    rw [unpacked,Parts.ofUnpacked,Parts.finite.injEq] at parts
    obtain ⟨-,rfl,rfl⟩ := parts
    norm_num at large
  | finite s n f pos =>
    rw [unpacked,Parts.ofUnpacked,Parts.finite.injEq] at parts
    obtain ⟨sign,rfl,rfl⟩ := parts
    obtain ⟨less,full⟩ := unit_of_unpack unpacked
    have size := nonneg_log2_add large
    have bits := log2_lt_of_lt (by decide) less
    have most := full.resolve_right (by omega)
    cases s with
    | negative => exact absurd sign (by decide)
    | positive => exact .intro pos (log2_eq_iff.mpr ⟨most,less⟩) (by omega)

/-- A finite double that is not at most one is above it. -/
theorem parts_of_above_one {x : Float} (above : ¬x ≤ 1) (finite : x.isFinite) :
    ∃ m e, Parts.of x = .finite false m e ∧ 1 < (m : ℚ) * 2 ^ e := by
  have one : (1 : Float).toModel.unpack = .finite .positive (2 ^ 52) (-52) (by decide) := rfl
  have compared : UnpackedFloat.le x.toModel.unpack (1 : Float).toModel.unpack = false := by
    change ¬decide (UnpackedFloat.le x.toModel.unpack (1 : Float).toModel.unpack = true) = true at above
    simpa using above
  change x.toModel.unpack.isFinite at finite
  rw [one] at compared
  rw [Parts.of_eq]
  cases unpacked : x.toModel.unpack with
  | notANumber | infinity _ =>
    rw [unpacked] at finite
    cases finite
  | zero s =>
    rw [unpacked] at compared
    cases compared
  | finite s m e pos =>
    rw [unpacked] at compared
    cases s with
    | negative => cases compared
    | positive =>
      refine ⟨m,e,rfl,?_⟩
      obtain ⟨-,full⟩ := unit_of_unpack unpacked
      change ((compare e (-52)).then (compare m (2 ^ 52))).isLE = false at compared
      rcases lt_trichotomy e (-52) with smaller | rfl | larger
      · rw [compare_lt_iff_lt.mpr smaller] at compared
        cases compared
      · have more : 2 ^ 52 < m := by
          by_contra few
          rw [compare_eq_iff_eq.mpr rfl,Ordering.eq_then] at compared
          rw [Nat.isLE_compare.mpr (Nat.not_lt.mp few)] at compared
          cases compared
        rw [zpow_neg,← div_eq_mul_inv,lt_div_iff₀ (by positivity),one_mul]
        exact_mod_cast more
      · have least : (2 : ℚ) ^ 52 ≤ m := by exact_mod_cast full.resolve_right (by omega)
        calc (1 : ℚ) < 2 ^ 52 * 2 ^ (-51 : Int) := by norm_num
          _ ≤ m * 2 ^ e := mul_le_mul least (zpow_le_zpow_right₀ (by norm_num) (by omega))
            (by positivity) (by positivity)

/-- The product of a count and a factor above one, cut to a whole number, is that of a value near the exact product. -/
theorem truncate_ofNat_mul {n : Nat} (pos : 0 < n) (small : n < 2 ^ 53) {x : Float} {m : Nat} {e : Int}
    (parts : Parts.of x = .finite false m e) (above : 1 < (m : ℚ) * 2 ^ e) {whole : Int}
    (cut : truncate (Float.ofNat n * x) = .ok whole) : ∃ z, Near (n * (m * 2 ^ e)) z ∧ whole = ⌊z⌋ := by
  have finite : (Float.ofNat n * x).toModel.unpack.isFinite := (truncate_isOk_iff _).mp ⟨whole,cut⟩
  have large : 1 ≤ (n : ℚ) * (m * 2 ^ e) := by
    have : (1 : ℚ) ≤ n := by exact_mod_cast pos
    nlinarith
  obtain ⟨z,product,near⟩ := (normal_ofNat pos small).mul (normal_of_parts parts above.le) large
  rw [unpack_mul] at finite
  have normal : Normal (Float.ofNat n * x).toModel.unpack z := product.unpack_pack finite
  rw [truncate_of_normal normal] at cut
  exact ⟨z,near,(Except.ok.inj cut).symm⟩

end Lox.Number
