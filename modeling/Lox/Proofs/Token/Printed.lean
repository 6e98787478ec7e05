import Lox.Value
import Lox.Proofs.Number.Texts

/-! # Printed numbers

A number that is printed and read again is the same number: the text has no exponent, it denotes what the
exact text denotes, and the scanner makes one token of it, with the number as its literal.
-/
namespace Lox
open Token Float.Model Float.Model.UnpackedFloat

namespace Number

/-! ## Parts -/

theorem Parts.canonical {x : Float} {negative : Bool} {m : ℕ} {e : ℤ} (parts : Parts.of x = .finite negative m e) :
    m = 0 ∧ e = -1074 ∨ Canonical m e ∧ e ≤ 971 := by
  simp only [Parts.of,Parts.ofBits,Nat.pow_eq] at parts
  split at parts
  · split at parts <;> cases parts
  · split at parts <;> obtain ⟨-,rfl,rfl⟩ := Parts.finite.inj parts
    · by_cases zero : x.toBits.toNat % 2 ^ 52 = 0
      · exact .inl ⟨zero,rfl⟩
      · exact .inr ⟨⟨by omega,by omega,.inr rfl,by omega⟩,by omega⟩
    · exact .inr ⟨⟨by omega,by omega,.inl (by omega),by omega⟩,by omega⟩

/-- The bits that have some parts. -/
def Parts.bits : Parts → ℕ
  | nan => 2047 * 2 ^ 52 + 2 ^ 51
  | infinite negative => (if negative then 2 ^ 63 else 0) + 2047 * 2 ^ 52
  | finite negative m e =>
    (if negative then 2 ^ 63 else 0) + if m < 2 ^ 52 then m else (e + 1075).toNat * 2 ^ 52 + (m - 2 ^ 52)

theorem Parts.bits_ofBits {b : ℕ} (less : b < 2 ^ 64) (number : ofBits b ≠ .nan) : (ofBits b).bits = b := by
  have sign : (if (b / 2 ^ 63 % 2 == 1) = true then 2 ^ 63 else 0) = b / 2 ^ 63 * 2 ^ 63 := by
    simp only [beq_iff_eq]
    split <;> omega
  simp only [ofBits,Nat.pow_eq] at number ⊢
  split
  · next full =>
    split
    · simp only [bits,sign]
      omega
    · next some => exact absurd (by rw [if_pos full,if_neg some]) number
  · split <;> simp only [bits,sign]
    · rw [if_pos (by omega)]
      omega
    · rw [if_neg (by omega)]
      omega

/-- Only one pattern of bits stands for no number. -/
theorem Parts.bits_of_nan {b : BitVec 64} (h : ofBits b.toNat = .nan) (valid : Format.binary64.Valid b) :
    b.toNat = Parts.nan.bits := by
  have exponent := toNat_unpackExponent b
  have mantissa := toNat_unpackMantissa b
  simp only [ofBits,Nat.pow_eq] at h
  split at h
  · next full =>
    split at h
    · cases h
    · next some =>
      have canonical := valid.eq_packedNaN (BitVec.eq_of_toNat_eq (by rw [exponent,full]; rfl)) (by
        intro zero
        rw [zero] at mantissa
        exact some mantissa.symm)
      rw [canonical]
      decide
  · split at h <;> cases h

/-- A double is told by its parts. -/
theorem Parts.of_injective {x y : Float} (same : Parts.of x = Parts.of y) : x = y := by
  have told : ∀ z : Float, (Parts.of z).bits = z.toModel.toBits.toNat := by
    intro z
    by_cases number : Parts.of z = .nan
    · rw [number]
      exact (Parts.bits_of_nan number z.toModel.valid).symm
    · exact Parts.bits_ofBits z.toBits.toNat_lt number
  have bits := (told x).symm.trans ((congrArg Parts.bits same).trans (told y))
  obtain ⟨b,hb⟩ := x
  obtain ⟨c,hc⟩ := y
  obtain rfl : b = c := UInt64.toNat_inj.mp bits
  rfl

theorem Parts.of_isFinite {x : Float} (finite : x.isFinite) : ∃ negative m e, Parts.of x = .finite negative m e := by
  change x.toModel.unpack.isFinite at finite
  rw [Parts.of_eq]
  cases unpacked : x.toModel.unpack with
  | zero _ | finite _ _ _ _ => exact ⟨_,_,_,rfl⟩
  | infinity _ | notANumber =>
    rw [unpacked] at finite
    cases finite

/-- A number that is not below zero, and not the negative zero, has no sign. -/
theorem Parts.nonnegative {x : Float} (finite : x.isFinite) (least : 0 ≤ x) (other : x ≠ -0.0) :
    ∃ m e, Parts.of x = .finite false m e := by
  have compared : UnpackedFloat.le (0 : Float).toModel.unpack x.toModel.unpack := of_decide_eq_true least
  rw [show (0 : Float).toModel.unpack = .zero .positive from rfl] at compared
  obtain ⟨negative,m,e,parts⟩ := Parts.of_isFinite finite
  cases negative with
  | false => exact ⟨m,e,parts⟩
  | true =>
    have unpacked := Parts.of_eq x
    cases u : x.toModel.unpack with
    | infinity _ | notANumber =>
      rw [u,parts] at unpacked
      cases unpacked
    | zero s =>
      cases s with
      | positive =>
        rw [u,parts] at unpacked
        cases unpacked
      | negative =>
        rw [u] at unpacked
        exact absurd (Parts.of_injective (y := -0.0) unpacked) other
    | finite s m e pos =>
      cases s with
      | positive =>
        rw [u,parts] at unpacked
        cases unpacked
      | negative =>
        rw [u] at compared
        cases compared

/-! ## Printed texts -/

theorem Decimal.Placed.length_le {d : Decimal} {whole fraction : List Char} (placed : d.Placed false whole fraction) :
    (fraction.length : ℤ) ≤ max 0 (-d.exponent) := by
  cases placed with
  | behind _ => simp
  | among _ _ _ exponent => omega
  | before exponent =>
    rw [List.length_append,List.length_replicate,String.length_toList]
    omega

theorem numeralValue_numeralText {whole fraction : List Char} (numeral : Numeral whole fraction) :
    Piece.numeralValue (numeralText whole fraction) =
      ofDecimal ⟨digitsValue (whole ++ fraction),-(fraction.length : ℤ)⟩ := by
  cases fraction with
  | nil =>
    obtain ⟨taken,dropped⟩ := Piece.takeWhile_apart numeral.whole_digits [] (by simp)
    rw [List.append_nil] at taken dropped
    simp only [Piece.numeralValue,numeralText,taken,dropped,List.drop_nil]
  | cons d ds =>
    obtain ⟨taken,dropped⟩ := Piece.takeWhile_apart numeral.whole_digits ('.' :: d :: ds) (by
      rintro c cs ⟨⟩
      rfl)
    simp only [Piece.numeralValue,numeralText,taken,dropped,List.drop_succ_cons,List.drop_zero]

/-- A finite double is printed in the plain form, and what follows the sign is read as its absolute value. -/
theorem toList_text {x : Float} {negative : Bool} {m : ℕ} {e : ℤ} (parts : Parts.of x = .finite negative m e) :
    ∃ whole fraction, (Style.plain.text x).toList = (if negative then ['-'] else []) ++ numeralText whole fraction ∧
      Plain whole fraction ∧ Parts.of (Piece.numeralValue (numeralText whole fraction)) = .finite false m e := by
  obtain ⟨whole,fraction,placed,text⟩ := (shortest m e).placed_positionalText false
  have split : (Style.plain.text x).toList = (if negative then ['-'] else []) ++ numeralText whole fraction := by
    rw [← text]
    simp only [Style.text,parts]
    rw [String.toList_append]
    cases negative <;> rfl
  refine ⟨whole,fraction,split,?_⟩
  rw [numeralValue_numeralText placed.numeral]
  rcases Parts.canonical parts with ⟨rfl,rfl⟩ | ⟨canonical,most⟩
  · have zero : shortest 0 (-1074) = ⟨0,0⟩ := rfl
    rw [zero] at placed
    refine ⟨placed.plain (.inl rfl),?_⟩
    cases placed with
    | @behind n exponent =>
      obtain rfl : n = 0 := by simpa using exponent.symm
      rfl
    | among _ _ some exponent => exact absurd exponent (by simpa using some)
    | before exponent =>
      have : (0 : ℤ) = -(_ + (1 : ℕ)) := exponent
      omega
  · obtain ⟨short,low,high⟩ := canonical.shortest_spec most
    have length := placed.length_le
    have value := placed.value_eq
    refine ⟨placed.plain (.inr short.last_digit),?_⟩
    rw [zero_sub] at value
    have inside : Around m e ((digitsValue (whole ++ fraction) : ℕ) * 10 ^ (-(fraction.length : ℤ))) := by
      convert short.inside using 1
      exact value
    have few : -400 ≤ -(fraction.length : ℤ) ∧ -(fraction.length : ℤ) ≤ 400 := by omega
    have read := canonical.ofDecimal (d := ⟨digitsValue (whole ++ fraction),-(fraction.length : ℤ)⟩) most
      (canonical.digits_pos inside) few inside
    rw [Parts.of_eq,read]
    rfl

theorem splitSign_signed {whole fraction : List Char} (numeral : Numeral whole fraction) (negative : Bool) :
    splitSign ((if negative then ['-'] else []) ++ numeralText whole fraction) =
      (negative,numeralText whole fraction) := by
  cases negative with
  | true => rfl
  | false =>
    have read := numeral.readDecimal .plain
    rw [List.append_nil] at read
    exact splitSign_of_read read

theorem denoted_text_eq_none {x : Float} (other : ∀ negative m e, Parts.of x ≠ .finite negative m e) :
    denoted (Style.plain.text x) = none := by
  unfold Style.text
  cases parts : Parts.of x with
  | nan => rfl
  | infinite negative => cases negative <;> rfl
  | finite negative m e => exact absurd parts (other negative m e)

/-- Different doubles are printed as different texts. -/
theorem text_injective {x y : Float} (same : Style.plain.text x = Style.plain.text y) : x = y := by
  apply Parts.of_injective
  by_cases hx : ∃ negative m e, Parts.of x = .finite negative m e
  · obtain ⟨negative,m,e,hx⟩ := hx
    by_cases hy : ∃ negative m e, Parts.of y = .finite negative m e
    · obtain ⟨negative',m',e',hy⟩ := hy
      obtain ⟨whole,fraction,text,plain,value⟩ := toList_text hx
      obtain ⟨whole',fraction',text',plain',value'⟩ := toList_text hy
      rw [same] at text
      have split := congrArg splitSign (text.symm.trans text')
      rw [splitSign_signed plain.toNumeral,splitSign_signed plain'.toNumeral] at split
      obtain ⟨rfl,numeral⟩ := Prod.mk.inj split
      rw [numeral,value'] at value
      cases value
      rw [hx,hy]
    · have none := denoted_text_eq_none (by simpa using hy)
      rw [← same,Style.plain.denoted_text hx] at none
      cases none
  · have none := denoted_text_eq_none (by simpa using hx)
    by_cases hy : ∃ negative m e, Parts.of y = .finite negative m e
    · obtain ⟨negative',m',e',hy⟩ := hy
      rw [same,Style.plain.denoted_text hy] at none
      cases none
    · unfold Style.text at same
      cases px : Parts.of x with
      | finite negative m e => exact absurd ⟨_,_,_,px⟩ hx
      | nan =>
        cases py : Parts.of y with
        | finite negative m e => exact absurd ⟨_,_,_,py⟩ hy
        | nan => rfl
        | infinite negative =>
          rw [px,py] at same
          cases negative <;> exact absurd same (by decide)
      | infinite negative =>
        cases py : Parts.of y with
        | finite negative m e => exact absurd ⟨_,_,_,py⟩ hy
        | nan =>
          rw [px,py] at same
          cases negative <;> exact absurd same (by decide)
        | infinite negative' =>
          rw [px,py] at same
          cases negative <;> cases negative' <;> first | rfl | exact absurd same (by decide)

end Number

/-- A plain text is scanned as one token. -/
theorem scan_of_plain {text : String} {whole fraction : List Char} (plain : Number.Plain whole fraction)
    (chars : text.toList = Number.numeralText whole fraction) :
    (scan text).errors = [] ∧ (scan text).tokens =
      [⟨.number,text,some (.number (Piece.numeralValue text.toList)),.start⟩,⟨.eof,"",none,Pos.start.after text.toList⟩] := by
  have lexeme : Lexeme .number text.toList := by
    rw [chars]
    by_cases some : fraction = []
    · subst some
      exact .whole plain.nonempty plain.whole_digits
    · rw [Number.numeralText_of_ne_nil _ some]
      exact .fraction plain.nonempty plain.whole_digits some plain.fraction_digits
  have back : String.ofList text.toList = text := String.ofList_toList
  cases split : text.toList with
  | nil => exact absurd split lexeme.ne_nil
  | cons c cs =>
    rw [split] at lexeme back
    have first := Piece.first_of_lexeme lexeme (show Piece.Apart .number [] from trivial)
    rw [List.append_nil] at first
    have alone : pieces (c :: cs) = [.token .number (c :: cs) (some (.number (Piece.numeralValue (c :: cs))))] := by
      rw [pieces_cons,first,pieces]
      rfl
    constructor
    · simp only [scan,split,alone]
      rfl
    · simp only [scan,split,alone,tokensFrom,back]
      rfl

/-- Every finite double is printed in the plain form, as a text that denotes what its exact text denotes. Without
a sign the text is one token with the double as its literal. Different doubles have different texts. -/
theorem printed_numbers_read_back {ν : Type} (h : Heap ν) (x : Float) :
    (x.isFinite → ∃ text, (Value.number x).inspect h = .ok text ∧
      (∃ q, Number.denoted text = some q ∧ Number.denoted (Number.Style.exact.text x) = some q) ∧
      text.toList ∈ Number.plainForm.matches' ∧
      (0 ≤ x → x ≠ -0.0 → (scan text).errors = [] ∧
        ∃ finish, (scan text).tokens = [⟨.number,text,some (.number x),.start⟩,⟨.eof,"",none,finish⟩])) ∧
    ∀ y, (Value.number x).inspect h = (Value.number y).inspect h → x = y := by
  constructor
  · intro finite
    obtain ⟨negative,m,e,parts⟩ := Number.Parts.of_isFinite finite
    obtain ⟨whole,fraction,text,plain,value⟩ := Number.toList_text parts
    refine ⟨Number.Style.plain.text x,rfl,⟨_,Number.Style.denoted_text _ parts,Number.Style.denoted_text _ parts⟩,?_,?_⟩
    · rw [text]
      exact plain.mem_plainForm (by cases negative <;> simp)
    · intro least other
      obtain ⟨m',e',unsigned⟩ := Number.Parts.nonnegative finite least other
      rw [parts] at unsigned
      cases unsigned
      have read : Piece.numeralValue (Number.numeralText whole fraction) = x :=
        Number.Parts.of_injective (value.trans parts.symm)
      obtain ⟨silent,tokens⟩ := scan_of_plain plain text
      rw [text,if_neg (by decide),List.nil_append,read] at tokens
      exact ⟨silent,_,tokens⟩
  · intro y same
    exact Number.text_injective (Except.ok.inj same)

/-- One tenth. -/
def tenth : Float := Float.ofBits 0x3fb999999999999a

theorem printed_tenth : tenth.isFinite ∧ 0 ≤ tenth ∧ tenth ≠ -0.0 ∧
    (Value.number tenth).inspect (default : Heap Unit) = .ok "0.1" ∧
      (∃ q, Number.denoted "0.1" = some q ∧ Number.denoted (Number.Style.exact.text tenth) = some q) ∧
        "0.1".toList ∈ Number.plainForm.matches' ∧ (scan "0.1").errors = [] ∧
          ∃ finish, (scan "0.1").tokens = [⟨.number,"0.1",some (.number tenth),.start⟩,⟨.eof,"",none,finish⟩] := by
  have finite : tenth.isFinite := by decide +kernel
  have least : 0 ≤ tenth := by decide +kernel
  have other : tenth ≠ -0.0 := by decide +kernel
  have printed : (Value.number tenth).inspect (default : Heap Unit) = .ok "0.1" := by
    show Except.ok (Number.Style.plain.text tenth) = _
    rw [show Number.Style.plain.text tenth = "0.1" by decide +kernel]
  obtain ⟨text,same,denotes,form,read⟩ := (printed_numbers_read_back (default : Heap Unit) tenth).1 finite
  rw [printed] at same
  cases same
  exact ⟨finite,least,other,printed,denotes,form,read least other⟩

end Lox
