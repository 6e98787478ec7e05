import Lox.Number.Layout
import Lox.Proofs.Number.Shortest
import Lox.Proofs.Token.Layout
import Mathlib.Computability.RegularExpressions
import Mathlib.Tactic.IntervalCases
import Mathlib.Tactic.LinearCombination
import Mathlib.Tactic.Ring

/-! # What number texts denote

A text of digits, perhaps with a point among them and perhaps with an exponent, denotes a rational. Every
style writes a decimal in such a way that its text denotes that decimal. Without exponents the text has a
plain form: no leading zero, and no zero at the end of a fraction.
-/
namespace Lox.Number

/-! ## Digits -/

theorem digitsValue_eq (cs : List Char) : digitsValue cs = Nat.ofDigitChars 10 cs 0 :=
  (Nat.ofDigitChars_eq_foldl).symm

theorem digitsValue_repr (n : ℕ) : digitsValue n.repr.toList = n := by
  rw [digitsValue_eq,Nat.toList_repr,Nat.ofDigitChars_ten_toDigits]

theorem digitsValue_append_zeros (cs : List Char) (n : ℕ) :
    digitsValue (cs ++ List.replicate n '0') = digitsValue cs * 10 ^ n := by
  rw [digitsValue_eq,Nat.ofDigitChars_append,Nat.ofDigitChars_replicate_zero,← digitsValue_eq,mul_comm]

theorem digitsValue_zeros_append (n : ℕ) (cs : List Char) :
    digitsValue (List.replicate n '0' ++ cs) = digitsValue cs := by
  rw [digitsValue_eq,Nat.ofDigitChars_append,Nat.ofDigitChars_replicate_zero,mul_zero,← digitsValue_eq]

theorem isDigit_repr {n : ℕ} {c : Char} (h : c ∈ n.repr.toList) : c.isDigit := by
  rw [Nat.toList_repr] at h
  exact Nat.isDigit_of_mem_toDigits (by decide) (by decide) h

theorem isDigit_zeros {n : ℕ} {c : Char} (h : c ∈ List.replicate n '0') : c.isDigit := by
  rw [List.eq_of_mem_replicate h]
  rfl

theorem repr_ne_nil (n : ℕ) : n.repr.toList ≠ [] := by
  rw [Nat.toList_repr]
  exact Nat.toDigits_ne_nil

theorem toList_zeros (n : ℕ) : (zeros n).toList = List.replicate n '0' := String.toList_ofList

/-! ## Numerals -/

/-- The rational that a decimal is. -/
def Decimal.value (d : Decimal) : ℚ := d.digits * 10 ^ d.exponent

/-- Digits, with a point before those of the fraction. -/
def numeralText (whole : List Char) : List Char → List Char
  | [] => whole
  | c :: cs => whole ++ '.' :: c :: cs

theorem numeralText_of_ne_nil (whole : List Char) {fraction : List Char} (some : fraction ≠ []) :
    numeralText whole fraction = whole ++ '.' :: fraction := by
  obtain ⟨c,cs,rfl⟩ := List.exists_cons_of_ne_nil some
  rfl

/-- The digits of a numeral before and behind the point. -/
structure Numeral (whole fraction : List Char) : Prop where
  nonempty : whole ≠ []
  whole_digits : ∀ c ∈ whole, c.isDigit
  fraction_digits : ∀ c ∈ fraction, c.isDigit

/-- What stands behind the digits for an exponent. -/
inductive Scaling : List Char → ℤ → Prop
  | plain : Scaling [] 0
  | exponent {cs : List Char} {x : ℤ} : readExponent cs = some x → Scaling ('e' :: cs) x

variable {whole fraction tail : List Char} {x : ℤ}

theorem Scaling.stop (scaling : Scaling tail x) : ∀ c cs, tail = c :: cs → c.isDigit = false := by
  rintro c cs rfl
  cases scaling
  rfl

/-- A numeral is read with all its digits. -/
theorem Numeral.readDecimal (numeral : Numeral whole fraction) (scaling : Scaling tail x) :
    readDecimal (numeralText whole fraction ++ tail) =
      some ⟨digitsValue (whole ++ fraction),x - fraction.length⟩ := by
  have nonempty : whole.isEmpty = false := by simpa using numeral.nonempty
  cases fraction with
  | nil =>
    obtain ⟨taken,dropped⟩ := Piece.takeWhile_apart numeral.whole_digits _ scaling.stop
    unfold Number.readDecimal numeralText
    cases scaling with
    | plain =>
      simp only [taken,dropped,nonempty]
      simp
    | exponent read =>
      simp only [taken,dropped,nonempty]
      simp [read]
  | cons d ds =>
    obtain ⟨taken,dropped⟩ := Piece.takeWhile_apart numeral.whole_digits ('.' :: (d :: ds ++ tail)) (by
      rintro c cs ⟨⟩
      rfl)
    obtain ⟨taken',dropped'⟩ := Piece.takeWhile_apart numeral.fraction_digits _ scaling.stop
    rw [show numeralText whole (d :: ds) ++ tail = whole ++ '.' :: (d :: ds ++ tail) by simp [numeralText]]
    unfold Number.readDecimal
    cases scaling with
    | plain =>
      simp only [taken,dropped,taken',dropped',nonempty]
      simp
    | exponent read =>
      simp only [taken,dropped,taken',dropped',nonempty]
      simp [read]

/-! ## Positional texts -/

namespace Decimal

theorem digitText_ne_nil (d : Decimal) : d.digitText.toList ≠ [] := repr_ne_nil d.digits

/-- How the digits of a decimal stand in a positional text: the point is behind them, among them, or before
them. -/
inductive Placed (d : Decimal) (pointZero : Bool) : List Char → List Char → Prop
  | behind {e : ℕ} : d.exponent = e →
      Placed d pointZero (d.digitText.toList ++ List.replicate e '0') (if pointZero then ['0'] else [])
  | among {whole fraction : List Char} : d.digitText.toList = whole ++ fraction → whole ≠ [] → fraction ≠ [] →
      d.exponent = -(fraction.length : ℤ) → Placed d pointZero whole fraction
  | before {n : ℕ} : d.exponent = -(n + d.digitText.length : ℤ) →
      Placed d pointZero ['0'] (List.replicate n '0' ++ d.digitText.toList)

theorem placed_positionalText (d : Decimal) (pointZero : Bool) : ∃ whole fraction,
    d.Placed pointZero whole fraction ∧ (d.positionalText pointZero).toList = numeralText whole fraction := by
  have some := d.digitText_ne_nil
  unfold positionalText
  split
  · next e exponent =>
    refine ⟨_,_,.behind exponent,?_⟩
    cases pointZero <;> simp [toList_zeros,numeralText]
  · next e exponent =>
    rw [Int.negSucc_eq] at exponent
    dsimp only
    split
    · next long =>
      have fraction : d.digitText.toList.drop (d.digitText.length - (e + 1)) ≠ [] := by
        simp only [ne_eq,List.drop_eq_nil_iff,String.length_toList]
        omega
      refine ⟨_,_,.among (List.take_append_drop (d.digitText.length - (e + 1)) _).symm ?_ fraction ?_,?_⟩
      · simp only [ne_eq,List.take_eq_nil_iff,not_or]
        exact ⟨by omega,some⟩
      · rw [List.length_drop,String.length_toList]
        omega
      · rw [numeralText_of_ne_nil _ fraction]
        simp
    · next short =>
      refine ⟨_,_,.before (n := e + 1 - d.digitText.length) (by omega),?_⟩
      rw [numeralText_of_ne_nil _ (List.append_ne_nil_of_right_ne_nil _ some)]
      simp [toList_zeros]

variable {d : Decimal} {pointZero : Bool}

theorem Placed.numeral (placed : d.Placed pointZero whole fraction) : Numeral whole fraction := by
  have digits : ∀ c ∈ d.digitText.toList, c.isDigit := fun _ => isDigit_repr
  have some := d.digitText_ne_nil
  cases placed with
  | behind _ =>
    refine ⟨by simp [some],?_,by cases pointZero <;> simp⟩
    intro c mem
    rcases List.mem_append.mp mem with mem | mem
    · exact digits c mem
    · exact isDigit_zeros mem
  | among split nonempty _ _ =>
    rw [split] at digits
    exact ⟨nonempty,fun c mem => digits c (List.mem_append_left _ mem),
      fun c mem => digits c (List.mem_append_right _ mem)⟩
  | before _ =>
    refine ⟨by simp,by simp,?_⟩
    intro c mem
    rcases List.mem_append.mp mem with mem | mem
    · exact isDigit_zeros mem
    · exact digits c mem

/-- The digits of the text with the place of its point are the decimal. -/
theorem Placed.value_eq (placed : d.Placed pointZero whole fraction) :
    (⟨digitsValue (whole ++ fraction),0 - fraction.length⟩ : Decimal).value = d.value := by
  have read : digitsValue d.digitText.toList = d.digits := digitsValue_repr d.digits
  cases placed with
  | @behind e exponent =>
    cases pointZero with
    | false =>
      simp only [Bool.false_eq_true,if_false,List.append_nil,digitsValue_append_zeros,read,value,exponent]
      push_cast
      simp
    | true =>
      have point := digitsValue_append_zeros d.digitText.toList (e + 1)
      rw [List.replicate_succ',← List.append_assoc] at point
      simp only [if_true,value,point,read,exponent]
      push_cast
      rw [pow_succ]
      norm_num
      ring
  | among split _ _ exponent =>
    simp only [value,← split,read,exponent,zero_sub]
  | @before n exponent =>
    have zeros := digitsValue_zeros_append (n + 1) d.digitText.toList
    rw [List.replicate_succ,List.cons_append] at zeros
    simp only [value,List.singleton_append,zeros,read,exponent,zero_sub,List.length_append,List.length_replicate,
      String.length_toList,Nat.cast_add]

/-! ## Texts with exponents -/

theorem readExponent_exponentText (e : ℤ) : ∃ cs, (exponentText e).toList = 'e' :: cs ∧ readExponent cs = some e := by
  have read (n : ℕ) := (digitsValue_zeros_append n e.natAbs.repr.toList).trans (digitsValue_repr e.natAbs)
  have digits (n : ℕ) : (List.replicate n '0' ++ e.natAbs.repr.toList).all Char.isDigit := by
    rw [List.all_append,List.all_eq_true.mpr fun _ => isDigit_zeros,List.all_eq_true.mpr fun _ => isDigit_repr]
    rfl
  have some (n : ℕ) : (List.replicate n '0' ++ e.natAbs.repr.toList).isEmpty = false := by
    simp
  unfold exponentText
  split
  · next negative =>
    refine ⟨'-' :: (List.replicate (2 - e.natAbs.repr.length) '0' ++ e.natAbs.repr.toList),by simp [toList_zeros],?_⟩
    simp only [readExponent,splitSign,some,digits,read,Bool.not_true,Bool.or_false,Bool.false_eq_true,if_false,if_true]
    congr 1
    omega
  · next positive =>
    refine ⟨'+' :: (List.replicate (2 - e.natAbs.repr.length) '0' ++ e.natAbs.repr.toList),by simp [toList_zeros],?_⟩
    simp only [readExponent,splitSign,some,digits,read,Bool.not_true,Bool.or_false,Bool.false_eq_true,if_false]
    congr 1
    omega

theorem readDecimal_scientificText (d : Decimal) : readDecimal d.scientificText.toList = some d := by
  have read : digitsValue d.digitText.toList = d.digits := digitsValue_repr d.digits
  have digits : ∀ c ∈ d.digitText.toList, c.isDigit := fun _ => isDigit_repr
  obtain ⟨cs,text,exponent⟩ := readExponent_exponentText d.leading
  obtain ⟨c,ds,split⟩ := List.exists_cons_of_ne_nil d.digitText_ne_nil
  rw [split] at read digits
  have numeral : Numeral [c] ds :=
    ⟨by simp,fun c' mem => digits c' (by simp_all),fun c' mem => digits c' (List.mem_cons_of_mem _ mem)⟩
  have length : d.leading - ds.length = d.exponent := by
    have : d.digitText.length = ds.length + 1 := by rw [← String.length_toList,split,List.length_cons]
    unfold leading
    omega
  have joined : d.scientificText.toList = numeralText [c] ds ++ 'e' :: cs := by
    simp only [scientificText,split]
    cases ds <;> simp [numeralText,text]
  rw [joined,numeral.readDecimal (.exponent exponent),List.singleton_append,read,length]

end Decimal

/-! ## Denotations -/

/-- The rational that a number text denotes. -/
def denoted (s : String) : Option ℚ :=
  let (negative,body) := splitSign s.toList
  (readDecimal body).map fun d => if negative then -d.value else d.value

/-- Every style writes a decimal as a text that is read as this decimal. -/
theorem Style.readDecimal_decimalText (s : Style) (d : Decimal) :
    ∃ d', readDecimal (s.decimalText d).toList = some d' ∧ d'.value = d.value := by
  unfold Style.decimalText
  split
  · obtain ⟨whole,fraction,placed,text⟩ := d.placed_positionalText s.pointZero
    have read := placed.numeral.readDecimal .plain
    rw [List.append_nil] at read
    exact ⟨_,text ▸ read,placed.value_eq⟩
  · exact ⟨d,d.readDecimal_scientificText,rfl⟩

theorem splitSign_of_read {cs : List Char} {d : Decimal} (read : readDecimal cs = some d) :
    splitSign cs = (false,cs) := by
  unfold splitSign
  split
  · cases read
  · cases read
  · rfl

/-- All styles write a finite double as a text for its shortest decimal. -/
theorem Style.denoted_text (s : Style) {x : Float} {negative : Bool} {m : ℕ} {e : ℤ}
    (parts : Parts.of x = .finite negative m e) :
    denoted (s.text x) = some (if negative then -(shortest m e).value else (shortest m e).value) := by
  obtain ⟨d,read,value⟩ := s.readDecimal_decimalText (shortest m e)
  simp only [Style.text,parts]
  cases negative with
  | true => simp [denoted,splitSign,read,value]
  | false => simp [denoted,splitSign_of_read read,read,value]

/-! ## The plain form -/

/-- One of some characters. -/
def oneOf (cs : List Char) : RegularExpression Char := (cs.map .char).foldr (· + ·) 0

def digit : RegularExpression Char := oneOf "0123456789".toList
def nonzeroDigit : RegularExpression Char := oneOf "123456789".toList

/-- A sign perhaps, a whole part without leading zeros, and perhaps a fraction that does not end in a zero. -/
def plainForm : RegularExpression Char :=
  (1 + .char '-') * (.char '0' + nonzeroDigit * digit.star) * (1 + .char '.' * (digit.star * nonzeroDigit))

theorem mem_oneOf {c : Char} {cs : List Char} : [c] ∈ (oneOf cs).matches' ↔ c ∈ cs := by
  induction cs with
  | nil => simp [oneOf,Language.notMem_zero]
  | cons d ds ih =>
    rw [List.mem_cons,← ih]
    show [c] ∈ (RegularExpression.char d).matches' + (oneOf ds).matches' ↔ _
    rw [Language.mem_add,RegularExpression.matches'_char]
    show [c] = [d] ∨ _ ↔ _
    rw [List.singleton_inj]

theorem mem_digits {c : Char} (h : c.isDigit) : c ∈ "0123456789".toList := by
  obtain ⟨low,high⟩ : 48 ≤ c.toNat ∧ c.toNat ≤ 57 := by
    simpa [Char.isDigit,UInt32.le_iff_toNat_le] using h
  obtain ⟨n,value⟩ : ∃ n, c.toNat = n := ⟨_,rfl⟩
  rw [← Char.ofNat_toNat c,value]
  rw [value] at low high
  interval_cases n <;> decide

theorem mem_digit {c : Char} (h : c.isDigit) : [c] ∈ digit.matches' := mem_oneOf.mpr (mem_digits h)

theorem mem_nonzeroDigit {c : Char} (h : c.isDigit) (nonzero : c ≠ '0') : [c] ∈ nonzeroDigit.matches' := by
  have mem := mem_digits h
  apply mem_oneOf.mpr
  simpa [nonzero] using mem

theorem mem_digit_star {cs : List Char} (h : ∀ c ∈ cs, c.isDigit) : cs ∈ digit.star.matches' := by
  rw [RegularExpression.matches'_star,Language.mem_kstar]
  refine ⟨cs.map fun c => [c],(List.flatMap_singleton' cs).symm,?_⟩
  intro y mem
  obtain ⟨c,mem',rfl⟩ := List.mem_map.mp mem
  exact mem_digit (h c mem')

theorem isDigit_digitChar_ne {n : ℕ} (small : n < 10) (nonzero : n ≠ 0) : n.digitChar ≠ '0' := by
  interval_cases n <;> first | exact absurd rfl nonzero | decide

/-- The digits of a number do not begin with a zero. -/
theorem head?_repr {n : ℕ} (pos : 0 < n) : n.repr.toList.head? ≠ some '0' := by
  rw [Nat.toList_repr]
  induction n using Nat.strong_induction_on with
  | _ n ih =>
    by_cases small : n < 10
    · rw [Nat.toDigits_of_lt_base small]
      simpa using isDigit_digitChar_ne small pos.ne'
    · rw [Nat.toDigits_of_base_le (by decide) (by omega)]
      have rest := ih (n / 10) (by omega) (by omega)
      rwa [List.head?_append_of_ne_nil _ Nat.toDigits_ne_nil]

theorem getLast?_repr {n : ℕ} (nonzero : n % 10 ≠ 0) : n.repr.toList.getLast? ≠ some '0' := by
  rw [Nat.toList_repr]
  by_cases small : n < 10
  · rw [Nat.toDigits_of_lt_base small]
    simpa using isDigit_digitChar_ne small (by omega)
  · rw [Nat.toDigits_of_base_le (by decide) (by omega)]
    simpa using isDigit_digitChar_ne (Nat.mod_lt n (by decide)) nonzero

/-- Digits that stand for a number without leading zeros and without zeros behind the point. -/
structure Plain (whole fraction : List Char) : Prop extends Numeral whole fraction where
  leading : whole = ['0'] ∨ whole.head? ≠ some '0'
  last : fraction.getLast? ≠ some '0'

theorem Decimal.Placed.plain {d : Decimal} (placed : d.Placed false whole fraction)
    (proper : d = ⟨0,0⟩ ∨ d.digits % 10 ≠ 0) : Plain whole fraction := by
  refine { placed.numeral with leading := ?_, last := ?_ }
  · have head : d.digits % 10 ≠ 0 → d.digitText.toList.head? ≠ some '0' := fun last => head?_repr (by omega)
    cases placed with
    | @behind e exponent =>
      rcases proper with rfl | last
      · obtain rfl : e = 0 := by simpa using exponent.symm
        exact .inl rfl
      · exact .inr (by rw [List.head?_append_of_ne_nil _ d.digitText_ne_nil]; exact head last)
    | among split nonempty some exponent =>
      rcases proper with rfl | last
      · exact absurd exponent (by simpa using some)
      · rw [split,List.head?_append_of_ne_nil _ nonempty] at head
        exact .inr (head last)
    | before _ => exact .inl rfl
  · have last : d.digits % 10 ≠ 0 → d.digitText.toList.getLast? ≠ some '0' := getLast?_repr
    cases placed with
    | behind _ => simp
    | among split _ some exponent =>
      rcases proper with rfl | nonzero
      · exact absurd exponent (by simpa using some)
      · rw [split,List.getLast?_append_of_ne_nil _ some] at last
        exact last nonzero
    | before exponent =>
      rcases proper with rfl | nonzero
      · have : (0 : ℤ) = -(_ + (1 : ℕ)) := exponent
        omega
      · rw [List.getLast?_append_of_ne_nil _ d.digitText_ne_nil]
        exact last nonzero

/-- What is written positionally has the plain form. -/
theorem Plain.mem_plainForm (plain : Plain whole fraction) {sign : List Char} (signed : sign = [] ∨ sign = ['-']) :
    sign ++ numeralText whole fraction ∈ plainForm.matches' := by
  have front : sign ∈ (1 + .char '-' : RegularExpression Char).matches' := by
    rw [RegularExpression.matches'_add,Language.mem_add]
    exact signed
  have middle : whole ∈ (.char '0' + nonzeroDigit * digit.star : RegularExpression Char).matches' := by
    rw [RegularExpression.matches'_add,Language.mem_add]
    refine plain.leading.imp id ?_
    intro head
    obtain ⟨c,cs,rfl⟩ := List.exists_cons_of_ne_nil plain.nonempty
    have digits := plain.whole_digits
    rw [RegularExpression.matches'_mul]
    exact Language.append_mem_mul (mem_nonzeroDigit (digits c List.mem_cons_self) (by simpa using head))
      (mem_digit_star fun c' mem => digits c' (List.mem_cons_of_mem _ mem))
  rw [plainForm,RegularExpression.matches'_mul,RegularExpression.matches'_mul]
  by_cases some : fraction = []
  · subst some
    have none : [] ∈ (1 + .char '.' * (digit.star * nonzeroDigit) : RegularExpression Char).matches' := by
      rw [RegularExpression.matches'_add,Language.mem_add]
      exact .inl rfl
    simpa [numeralText] using Language.append_mem_mul (Language.append_mem_mul front middle) none
  · have point : '.' :: fraction ∈ (1 + .char '.' * (digit.star * nonzeroDigit) : RegularExpression Char).matches' := by
      obtain ⟨cs,c,rfl⟩ := List.eq_nil_or_concat' fraction |>.resolve_left some
      have digits := plain.fraction_digits
      have last : c ≠ '0' := by simpa using plain.last
      rw [RegularExpression.matches'_add,Language.mem_add]
      refine .inr (Language.append_mem_mul (a := ['.']) rfl (Language.append_mem_mul ?_ ?_))
      · exact mem_digit_star fun c' mem => digits c' (List.mem_append_left _ mem)
      · exact mem_nonzeroDigit (digits c (List.mem_append_right _ List.mem_cons_self)) last
    rw [numeralText_of_ne_nil _ some,← List.append_assoc]
    exact Language.append_mem_mul (Language.append_mem_mul front middle) point

end Lox.Number
