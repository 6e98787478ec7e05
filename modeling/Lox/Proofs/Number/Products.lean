import Lox.Number.Binary
import Mathlib

/-! # Products of doubles

The parts that are read off the bits of a double are those of its model. A product is finite if its
factors are small enough, and it is never finite if one of them is not.
-/
namespace Lox.Number
open Float.Model Float.Model.UnpackedFloat

/-! ## Parts -/

/-- The parts of an unpacked double. -/
def Parts.ofUnpacked : UnpackedFloat → Parts
  | .notANumber => .nan
  | .infinity s => .infinite (s == .negative)
  | .zero s => .finite (s == .negative) 0 (-1074)
  | .finite s m e _ => .finite (s == .negative) m e

theorem toNat_unpackExponent (b : BitVec 64) :
    (@unpackExponent .binary64 b).toNat = b.toNat / 2 ^ 52 % 2 ^ 11 := by
  simp [unpackExponent,Nat.shiftRight_eq_div_pow]

theorem toNat_unpackMantissa (b : BitVec 64) :
    (@unpackMantissa .binary64 b).toNat = b.toNat % 2 ^ 52 := by
  simp [unpackMantissa]

theorem toNat_unpackSign (b : BitVec 64) :
    (@unpackSign .binary64 b).toNat = b.toNat / 2 ^ 63 % 2 := by
  simp [unpackSign,Nat.shiftRight_eq_div_pow]

theorem ofBitVec_beq_negative (v : BitVec 1) : (Sign.ofBitVec v == .negative) = (v.toNat == 1) := by
  revert v
  decide

theorem toNat_one_append (v : BitVec 52) : (1#1 ++ v).toNat = 2 ^ 52 + v.toNat := by
  rw [BitVec.toNat_append,← Nat.shiftLeft_add_eq_or_of_lt v.isLt]
  rfl

/-- The parts of a double are those of its model. -/
theorem Parts.of_eq (x : Float) : Parts.of x = ofUnpacked x.toModel.unpack := by
  show ofBits x.toModel.toBits.toBitVec.toNat = ofUnpacked (UnpackedFloat.unpack .binary64 x.toModel.toBits.toBitVec)
  generalize x.toModel.toBits.toBitVec = b
  have exponent := toNat_unpackExponent b
  have mantissa := toNat_unpackMantissa b
  have sign := toNat_unpackSign b
  have full : @unpackExponent .binary64 b = -1#11 ↔ b.toNat / 2 ^ 52 % 2 ^ 11 = 2047 := by
    rw [← exponent,← BitVec.toNat_inj]
    rfl
  have least : @unpackExponent .binary64 b = 0#11 ↔ b.toNat / 2 ^ 52 % 2 ^ 11 = 0 := by
    rw [← exponent,← BitVec.toNat_inj]
    rfl
  have blank : @unpackMantissa .binary64 b = 0#52 ↔ b.toNat % 2 ^ 52 = 0 := by
    rw [← mantissa,← BitVec.toNat_inj]
    rfl
  simp only [ofBits,UnpackedFloat.unpack,full,least,blank,Nat.pow_eq]
  split
  · split
    · simp only [ofUnpacked,ofBitVec_beq_negative,sign]
    · rfl
  · split
    · split
      · next none => simp only [ofUnpacked,ofBitVec_beq_negative,sign,none]
      · next none _ =>
        simp only [ofUnpacked,ofBitVec_beq_negative,sign,mantissa,exponent,none]
        rfl
    · simp only [ofUnpacked,ofBitVec_beq_negative,sign,toNat_one_append,mantissa,exponent]
      rfl

/-- A double that is not finite has no whole part. -/
theorem truncate_isOk_iff (x : Float) : (∃ n, truncate x = .ok n) ↔ x.isFinite := by
  rw [truncate,Parts.of_eq]
  show _ ↔ x.toModel.unpack.isFinite
  cases x.toModel.unpack with
  | zero | finite => exact ⟨fun _ => rfl,fun _ => ⟨_,rfl⟩⟩
  | _ =>
    constructor
    · rintro ⟨_,⟨⟩⟩
    · rintro ⟨⟩

theorem unpack_ofModel_pack (u : UnpackedFloat) :
    (pack u).unpack = UnpackedFloat.unpack .binary64 (UnpackedFloat.pack .binary64 u) := rfl

theorem unpack_mul (x y : Float) : (x * y).toModel.unpack =
    (pack (UnpackedFloat.mul .binary64 x.toModel.unpack y.toModel.unpack)).unpack := rfl

/-- A product with a factor that is not finite is not finite. -/
theorem not_isFinite_mul (x : Float) {y : Float} (h : ¬y.isFinite) : ¬(x * y).isFinite := by
  change ¬y.toModel.unpack.isFinite at h
  show ¬(x * y).toModel.unpack.isFinite
  rw [unpack_mul]
  have broken : ¬(pack .notANumber).unpack.isFinite ∧ ∀ s, ¬(pack (.infinity s)).unpack.isFinite := by
    refine ⟨by decide,fun s => ?_⟩
    cases s <;> decide
  generalize x.toModel.unpack = a,y.toModel.unpack = b at h
  cases b with
  | notANumber =>
    cases a <;> exact broken.1
  | infinity s =>
    cases a with
    | notANumber | zero _ => exact broken.1
    | infinity _ | finite _ _ _ _ => exact broken.2 _
  | zero _ | finite _ _ _ _ => exact absurd rfl h

theorem isFinite_zero_mul {x : Float} (h : x.isFinite) : (Float.ofNat 0 * x).isFinite := by
  change x.toModel.unpack.isFinite at h
  show (Float.ofNat 0 * x).toModel.unpack.isFinite
  rw [unpack_mul,show (Float.ofNat 0).toModel.unpack = .zero .positive from rfl]
  have zero : ∃ s, UnpackedFloat.mul .binary64 (.zero .positive) x.toModel.unpack = .zero s := by
    cases u : x.toModel.unpack with
    | notANumber | infinity _ =>
      rw [u] at h
      cases h
    | zero s | finite s _ _ _ => exact ⟨.positive * s,rfl⟩
  obtain ⟨s,product⟩ := zero
  rw [product]
  cases s <;> rfl

/-! ## Sizes -/

/-- A mantissa in units of `2 ^ e` is below `2 ^ k`, and the unit is one that numbers of this size have. -/
structure Room (k : Int) (m : Nat) (e : Int) : Prop where
  unit : e + 53 ≤ k
  below : m < 2 ^ (k - e).toNat

/-- A finite double below `2 ^ k`. -/
def Fits (k : Int) : UnpackedFloat → Prop
  | .zero _ => True
  | .finite _ m e _ => Room k m e
  | .infinity _ | .notANumber => False

theorem Fits.isFinite {k : Int} {u : UnpackedFloat} (h : Fits k u) : u.isFinite := by
  cases u with
  | zero _ | finite _ _ _ _ => rfl
  | infinity _ | notANumber => exact h.elim

theorem mantissa_shiftRight (em : ExtendedMantissa) (n : Nat) :
    (em >>> n).mantissa = em.mantissa / 2 ^ n := by
  induction n generalizing em with
  | zero => simp [HShiftRight.hShiftRight,Nat.repeat]
  | succ n ih =>
    show (em >>> n).mantissa / 2 = _
    rw [ih,Nat.div_div_eq_div_mul,← Nat.pow_succ]

theorem roundedMantissa_le (em : ExtendedMantissa) : em.roundedMantissa ≤ em.mantissa + 1 := by
  obtain ⟨m,r,s⟩ := em
  cases r <;> cases s <;>
    simp only [ExtendedMantissa.roundedMantissa,ExtendedMantissa.accuracy,Accuracy.roundToNearestEven] <;> omega

theorem log2_lt_of_lt {m n : Nat} (hn : 0 < n) (h : m < 2 ^ n) : m.log2 < n := by
  by_cases zero : m = 0
  · simpa [zero] using hn
  · exact (Nat.log2_lt zero).mpr h

/-- A shift to the unit that a number of this size has leaves it below the same power. -/
theorem Room.shift {k : Int} {m : Nat} {e : Int} (room : Room k m e) (small : -1021 ≤ k) :
    Room k (shiftToTargetExponent .binary64 m e .exact).1.mantissa
      (shiftToTargetExponent .binary64 m e .exact).2 := by
  obtain ⟨unit,below⟩ := room
  have bits : (m.log2 : Int) < k - e := by
    have := log2_lt_of_lt (by omega) below
    omega
  have target : Format.targetExponent .binary64 (totalExponent m e) + 53 ≤ k := by
    simp only [Format.targetExponent,totalExponent,Format.mantissaBits,Format.minExponent]
    norm_num
    omega
  simp only [shiftToTargetExponent,shiftToExponent,ExtendedMantissa.ofMantissaAndAccuracy,mantissa_shiftRight]
  generalize Format.targetExponent .binary64 (totalExponent m e) = t at target
  refine ⟨by omega,?_⟩
  rw [Nat.div_lt_iff_lt_mul (by positivity),← Nat.pow_add]
  refine Nat.lt_of_lt_of_le below (Nat.pow_le_pow_right (by decide) ?_)
  omega

/-- Rounding leaves a number below twice the power. -/
theorem fits_roundWithAccuracy {k : Int} {m : Nat} {e : Int} (room : Room k m e) (small : -1021 ≤ k)
    (s : Sign) : Fits (k + 1) (roundWithAccuracy .binary64 s m e .exact) := by
  have first := room.shift small
  simp only [roundWithAccuracy]
  generalize shiftToTargetExponent .binary64 m e .exact = x at first
  have rounded : Room (k + 1) x.1.roundedMantissa x.2 := by
    obtain ⟨unit,below⟩ := first
    refine ⟨by omega,Nat.lt_of_le_of_lt (roundedMantissa_le x.1) ?_⟩
    refine Nat.lt_of_le_of_lt below (Nat.pow_lt_pow_right (by decide) ?_)
    omega
  have second := rounded.shift (by omega)
  split
  · trivial
  · exact second

theorem fits_mul {j k : Int} {u v : UnpackedFloat} (hu : Fits j u) (hv : Fits k v)
    (small : -1021 ≤ j + k) : Fits (j + k + 1) (UnpackedFloat.mul .binary64 u v) := by
  cases u with
  | infinity _ | notANumber => exact hu.elim
  | zero _ =>
    cases v with
    | infinity _ | notANumber => exact hv.elim
    | zero _ | finite _ _ _ _ => trivial
  | finite _ m e _ =>
    cases v with
    | infinity _ | notANumber => exact hv.elim
    | zero _ => trivial
    | finite _ n f _ =>
      obtain ⟨unit,below⟩ := hu
      obtain ⟨unit',below'⟩ := hv
      refine fits_roundWithAccuracy ⟨by omega,?_⟩ small _
      calc m * n < 2 ^ (j - e).toNat * 2 ^ (k - f).toNat := Nat.mul_lt_mul'' below below'
        _ = 2 ^ (j + k - (e + f)).toNat := by
          rw [← Nat.pow_add]
          congr 1
          omega

theorem fits_unpack_components {k : Int} (s : Sign) {b : BitVec 11} (w : BitVec 52) (small : -1021 ≤ k)
    (finite : b.toNat < 2047) (unit : (b.toNat : Int) - 1022 ≤ k) :
    Fits k (UnpackedFloat.unpack .binary64 (packComponents .binary64 s b w)) := by
  have room : ∀ {m : Nat} {e : Int}, e + 53 ≤ k → m < 2 ^ 53 → Room k m e := fun unit below =>
    ⟨unit,Nat.lt_of_lt_of_le below (Nat.pow_le_pow_right (by decide) (by omega))⟩
  have bound := w.isLt
  simp only [UnpackedFloat.unpack,unpackExponent_packComponents,unpackMantissa_packComponents]
  split
  · next full =>
    rw [full] at finite
    exact absurd finite (by decide)
  · split
    · split
      · trivial
      · next none _ =>
        rw [none]
        refine room ?_ (by omega)
        show (0 : Int) - 1075 + 1 + 53 ≤ k
        omega
    · refine room ?_ (by rw [toNat_one_append]; omega)
      show (b.toNat : Int) - 1075 + 53 ≤ k
      omega

/-- What is packed is unpacked below the same power. -/
theorem fits_unpack_pack {k : Int} {u : UnpackedFloat} (h : Fits k u) (small : -1021 ≤ k) (large : k ≤ 1023) :
    Fits k (pack u).unpack := by
  rw [unpack_ofModel_pack]
  cases u with
  | infinity _ | notANumber => exact h.elim
  | zero s => exact fits_unpack_components s 0 small (by decide) (by simp; omega)
  | finite s m e _ =>
    obtain ⟨unit,-⟩ := h
    simp only [UnpackedFloat.pack]
    have biased : (e + (Format.exponentBias .binary64 : Int) + (52 : Nat)).toNat = (e + 1075).toNat := by
      show (e + 1023 + 52).toNat = _
      omega
    rw [biased,if_neg (by omega)]
    have exponent : (BitVec.ofNat 11 (e + 1075).toNat).toNat = (e + 1075).toNat := by
      rw [BitVec.toNat_ofNat,Nat.mod_eq_of_lt (by omega)]
    split
    · exact fits_unpack_components s _ small (by omega) (by omega)
    · exact fits_unpack_components s _ small (by decide) (by simp; omega)

theorem fits_round {k : Int} {m : Nat} (below : m < 2 ^ k.toNat) (coarse : 53 ≤ k) (s : Sign) :
    Fits (k + 1) (UnpackedFloat.round .binary64 s m 0) := by
  simp only [UnpackedFloat.round,decreaseExponent]
  generalize (0 - Format.targetExponent .binary64 (totalExponent m 0)).toNat = n
  refine fits_roundWithAccuracy ⟨by omega,?_⟩ (by omega) s
  rw [Nat.shiftLeft_eq,show (k - (0 - (n : Int))).toNat = k.toNat + n by omega,Nat.pow_add]
  exact Nat.mul_lt_mul_of_pos_right below (by positivity)

theorem fits_ofNat_model {n : Nat} (h : n < 2 ^ 53) : Fits 54 (UnpackedFloat.ofNat .binary64 n) := by
  simp only [UnpackedFloat.ofNat,UnpackedFloat.ofInt,UnpackedFloat.normalize]
  split
  · next negative => exact absurd (compare_lt_iff_lt.mp negative) (by omega)
  · trivial
  · exact fits_round (k := 53) h (by decide) _

theorem Fits.mono {j k : Int} {u : UnpackedFloat} (fits : Fits j u) (le : j ≤ k) : Fits k u := by
  cases u with
  | zero _ => trivial
  | infinity _ | notANumber => exact fits.elim
  | finite _ m e _ =>
    obtain ⟨unit,below⟩ := fits
    exact ⟨by omega,Nat.lt_of_lt_of_le below (Nat.pow_le_pow_right (by decide) (by omega))⟩

theorem fits_scaled {m : Nat} (pos : 0 < m) (below : m < 2 ^ 116) :
    Fits 117 (UnpackedFloat.mul .binary64 (.finite .positive m (-53) pos)
      (.finite .positive (10 ^ 0) 0 (by decide))) := by
  have count : Fits 63 (.finite .positive m (-53) pos) := ⟨by decide,below⟩
  have one : Fits 53 (.finite .positive (10 ^ 0) 0 (by decide)) := ⟨by decide,by decide⟩
  have product := @fits_mul 63 53 _ _ count one (by decide)
  exact product

theorem fits_ofScientific {n : Nat} (h : n < 2 ^ 63) :
    Fits 117 (UnpackedFloat.ofScientific .binary64 n 0) := by
  simp only [UnpackedFloat.ofScientific]
  split
  · trivial
  · have early : ¬(0 : Int) < -(2 ^ 11 + (n.log2 : Int)) := by omega
    rw [if_neg (by decide),if_neg early,if_pos (Int.le_refl 0)]
    refine fits_scaled _ ?_
    show n <<< 53 < 2 ^ 116
    rw [Nat.shiftLeft_eq]
    omega

/-- A count below `2 ^ 63` as a double. -/
theorem fits_ofNat {n : Nat} (h : n < 2 ^ 63) : Fits 118 (Float.ofNat n).toModel.unpack := by
  show Fits 118 (Float.ofScientific n false 0).toModel.unpack
  simp only [Float.ofScientific]
  split
  · next exact =>
    have one : Fits 1 (Float.ofBits 4607182418800017408).toModel.unpack := ⟨by decide,by decide⟩
    have whole : n.toUInt64.toNat = n := Nat.mod_eq_of_lt (by omega)
    have count : Fits 54 n.toUInt64.toFloat.toModel.unpack := by
      refine fits_unpack_pack ?_ (by decide) (by decide)
      show Fits 54 (UnpackedFloat.ofNat .binary64 n.toUInt64.toNat)
      rw [whole]
      exact fits_ofNat_model exact.1
    exact (fits_unpack_pack (fits_mul count one (by decide)) (by decide) (by decide)).mono (by decide)
  · exact (fits_unpack_pack (fits_ofScientific h) (by decide) (by decide)).mono (by decide)

/-- The unit of a finite double is the finest that its size allows. -/
theorem unit_of_unpack {b : BitVec 64} {s : Sign} {m : Nat} {e : Int} {pos : 0 < m}
    (h : UnpackedFloat.unpack .binary64 b = .finite s m e pos) : m < 2 ^ 53 ∧ (2 ^ 52 ≤ m ∨ e = -1074) := by
  have bound : (@unpackMantissa .binary64 b).toNat < 2 ^ 52 :=
    (@unpackMantissa .binary64 b).isLt
  simp only [UnpackedFloat.unpack] at h
  split at h
  · split at h <;> cases h
  · split at h
    · next none =>
      split at h
      · cases h
      · cases h
        refine ⟨by omega,.inr ?_⟩
        rw [none]
        rfl
    · cases h
      have whole := toNat_one_append (@unpackMantissa .binary64 b)
      exact ⟨by omega,.inl (by omega)⟩

/-- A finite double of absolute value below a power of two. -/
def Below (k : Nat) (x : Float) : Prop := ∃ negative mantissa exponent,
  Parts.of x = .finite negative mantissa exponent ∧ (mantissa : ℚ) * 2 ^ exponent < 2 ^ k

theorem Below.fits {k : Nat} {x : Float} (h : Below k x) : Fits k x.toModel.unpack := by
  obtain ⟨negative,mantissa,exponent,parts,below⟩ := h
  rw [Parts.of_eq] at parts
  cases unpacked : x.toModel.unpack with
  | notANumber | infinity _ =>
    rw [unpacked] at parts
    cases parts
  | zero _ => trivial
  | finite s m e pos =>
    rw [unpacked] at parts
    cases parts
    obtain ⟨less,normal⟩ := unit_of_unpack unpacked
    have unit : exponent + 53 ≤ k := by
      rcases normal with normal | rfl
      · have large : (2 : ℚ) ^ (52 + exponent) < 2 ^ (k : Int) := by
          rw [zpow_add₀ (by norm_num : (2 : ℚ) ≠ 0),zpow_natCast]
          refine lt_of_le_of_lt (mul_le_mul_of_nonneg_right ?_ (by positivity)) below
          exact_mod_cast normal
        have := (zpow_lt_zpow_iff_right₀ (by norm_num : (1 : ℚ) < 2)).mp large
        omega
      · omega
    exact ⟨unit,Nat.lt_of_lt_of_le less (Nat.pow_le_pow_right (by decide) (by omega))⟩

/-- The product of a count below `2 ^ 63` and a double below `2 ^ 900` is finite. -/
theorem isFinite_ofNat_mul {n : Nat} (h : n < 2 ^ 63) {x : Float} (hx : Below 900 x) :
    (Float.ofNat n * x).isFinite := by
  show (Float.ofNat n * x).toModel.unpack.isFinite
  rw [unpack_mul]
  exact (fits_unpack_pack (fits_mul (fits_ofNat h) hx.fits (by decide)) (by decide) (by decide)).isFinite

end Lox.Number
