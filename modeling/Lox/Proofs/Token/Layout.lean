import Lox.Proofs.Token.Partition
import Mathlib

/-! # Layout

Tokens written again with other gaps between them are read as the same words. A blank in front of each
token keeps it apart from the one before, and only behind a last slash must no comment follow at once. A
character that starts no token separates its neighbours as a blank does.
-/
namespace Lox
open Token

namespace Piece

/-! ## Lexemes that stand apart -/

/-- The value of a lexeme of a kind. -/
def literal? : Kind → List Char → Option Literal
  | .number, text => some (.number (numeralValue text))
  | .string, text => some (.string (String.ofList text.tail.dropLast))
  | _, _ => none

theorem literal?_ofWord (word : String) (text : List Char) : literal? (.ofWord word) text = none := by
  rw [Kind.ofWord]
  cases found : Kind.keywords.find? fun k => k.spelling? == some word with
  | none => rfl
  | some k =>
    have keyword := List.mem_of_find?_eq_some found
    revert keyword
    cases k <;> first | exact fun _ => rfl | exact fun keyword => absurd keyword (by decide)

theorem literal?_first {c : Char} {cs text : List Char} {k : Kind} {l : Option Literal}
    (h : (first c cs).1 = token k text l) : l = literal? k text := by
  simp only [first] at h
  split at h
  · cases h
  split at h
  · split at h <;> cases h
    rfl
  split at h
  · simp only [string] at h
    split at h <;> cases h
    simp [literal?]
  split at h
  · next digit =>
    obtain ⟨ds,rest,e,-⟩ := number_eq cs digit
    rw [e] at h
    cases h
    rfl
  split at h
  · cases h
    rw [literal?_ofWord]
  · split at h
    · next pair =>
      simp only [pair?] at pair
      split at pair <;> cases pair <;> cases h <;> rfl
    · next pair _ =>
      simp only [pair?] at pair
      split at pair <;> cases pair <;> cases h <;> rfl
    · next single =>
      simp only [single?] at single
      split at single <;> cases single <;> cases h <;> rfl
    · cases h

/-- What can follow a lexeme of a kind and is no part of a longer one. -/
def Apart (k : Kind) : List Char → Prop
  | [] => True
  | c :: _ => isBlank c ∨ c = '/' ∧ k ≠ .slash

theorem Apart.break {k : Kind} {c : Char} {cs : List Char} (apart : Apart k (c :: cs)) :
    isWordChar c = false ∧ c.isDigit = false ∧ c ≠ '.' ∧ c ≠ '=' := by
  rcases apart with blank | ⟨rfl,-⟩
  · simp only [isBlank,Bool.or_eq_true,decide_eq_true_eq] at blank
    rcases blank with ((rfl | rfl) | rfl) | rfl <;> decide
  · decide

theorem takeWhile_apart {p : Char → Bool} {text : List Char} (all : ∀ c ∈ text, p c) (rest : List Char)
    (stop : ∀ c cs, rest = c :: cs → p c = false) :
    (text ++ rest).takeWhile p = text ∧ (text ++ rest).dropWhile p = rest := by
  rw [List.takeWhile_append_of_pos all,List.dropWhile_append_of_pos all]
  cases rest with
  | nil => simp
  | cons c cs => simp [stop c cs rfl]

/-- No blank is in a class that leaves the four blanks out. -/
theorem isBlank_of_class {p : Char → Bool} {c : Char} (h : p c)
    (out : [' ','\t','\r','\n'].all fun d => !p d) : isBlank c = false := by
  by_contra blank
  have mem : c ∈ [' ','\t','\r','\n'] := by
    simpa [isBlank,or_assoc] using eq_true_of_ne_false blank
  have other := List.all_eq_true.mp out c mem
  rw [h] at other
  cases other

theorem first_word {c : Char} {cs : List Char} (letter : isLetter c) : first c cs = word (c :: cs) := by
  have blank := isBlank_of_class letter (by decide)
  have digit := isDigit_of_isLetter letter
  have quote : c ≠ '"' := by
    rintro rfl
    cases letter
  simp [first,blank,ne_slash_of_isLetter letter,quote,digit,letter]

theorem first_number {c : Char} {cs : List Char} (digit : c.isDigit) :
    first c cs = number (c :: cs) := by
  have blank := isBlank_of_class digit (by decide)
  have quote : c ≠ '"' := by
    rintro rfl
    cases digit
  simp [first,blank,ne_slash_of_isDigit digit,quote,digit]

theorem first_pair {c : Char} {k l : Kind} (pair : pair? c = some (k,l)) (rest : List Char) :
    first c ('=' :: rest) = (token k [c,'='] none,rest) := by
  simp only [pair?] at pair
  split at pair <;> cases pair <;> rfl

theorem first_alone {c : Char} {k l : Kind} (pair : pair? c = some (k,l)) {rest : List Char}
    (apart : Apart l rest) : first c rest = (token l [c] none,rest) := by
  have stop : ∀ ds, rest ≠ '=' :: ds := by
    rintro ds rfl
    exact apart.break.2.2.2 rfl
  simp only [pair?] at pair
  split at pair <;> cases pair <;> simp [first,pair?,isBlank,isLetter]

theorem first_single {c : Char} {k : Kind} (single : single? c = some k) (rest : List Char) :
    first c rest = (token k [c] none,rest) := by
  simp only [single?] at single
  split at single <;> cases single <;> simp [first,pair?,single?,isBlank,isLetter]

theorem first_slash {rest : List Char} (apart : Apart .slash rest) :
    first '/' rest = (token .slash ['/'] none,rest) := by
  have stop : ∀ ds, rest ≠ '/' :: ds := by
    rintro ds rfl
    rcases apart with blank | ⟨-,other⟩
    · cases blank
    · exact other rfl
  simp [first,isBlank]

/-- Words of letters that are kept apart. -/
theorem first_of_letter {k : Kind} {c : Char} {cs rest : List Char} (letter : isLetter c)
    (others : ∀ d ∈ cs, isWordChar d) (apart : Apart k rest) :
    first c (cs ++ rest) = (token (.ofWord (String.ofList (c :: cs))) (c :: cs) none,rest) := by
  have all : ∀ d ∈ c :: cs, isWordChar d := by
    rw [List.forall_mem_cons]
    exact ⟨by simp [isWordChar,letter],others⟩
  have stop : ∀ d ds, rest = d :: ds → isWordChar d = false := by
    rintro d ds rfl
    exact apart.break.1
  obtain ⟨take,drop⟩ := takeWhile_apart all _ stop
  rw [first_word letter,← List.cons_append,word,take,drop]

theorem number_of_digits {k : Kind} {ds rest : List Char} (digits : ∀ d ∈ ds, d.isDigit)
    (apart : Apart k rest) : number (ds ++ rest) = numeral ds rest := by
  have stop : ∀ d es, rest = d :: es → d.isDigit = false := by
    rintro d es rfl
    exact apart.break.2.1
  obtain ⟨take,drop⟩ := takeWhile_apart digits _ stop
  simp only [number,take,drop]
  split
  · exact absurd rfl apart.break.2.2.1
  · rfl

theorem number_of_fraction {k : Kind} {ds es rest : List Char} (digits : ∀ d ∈ ds, d.isDigit)
    (some : es ≠ []) (more : ∀ d ∈ es, d.isDigit) (apart : Apart k rest) :
    number (ds ++ '.' :: es ++ rest) = numeral (ds ++ '.' :: es) rest := by
  have stop : ∀ d es, rest = d :: es → d.isDigit = false := by
    rintro d es rfl
    exact apart.break.2.1
  obtain ⟨take,drop⟩ := takeWhile_apart digits ('.' :: (es ++ rest)) (by simp)
  obtain ⟨take',drop'⟩ := takeWhile_apart more _ stop
  obtain _ | ⟨e,es⟩ := es
  · exact absurd rfl some
  rw [List.append_assoc,List.cons_append]
  simp only [number,take,drop]
  rw [List.cons_append] at take' drop' ⊢
  simp only [take',drop',more e List.mem_cons_self,if_true]

theorem string_of_body {body rest : List Char} (closed : '"' ∉ body) :
    string (body ++ '"' :: rest) =
      (token .string ('"' :: body ++ ['"']) (some (.string (String.ofList body))),rest) := by
  have inside : ∀ d ∈ body, (d ≠ '"' : Bool) := by
    intro d hd
    simpa using fun e : d = '"' => closed (e ▸ hd)
  obtain ⟨take,drop⟩ := takeWhile_apart inside ('"' :: rest) (by simp)
  simp only [string,take,drop]

/-- A fixed spelling that is kept apart. -/
theorem first_of_fixed {k : Kind} (other : k ≠ .eof) {s : String} (spelled : k.spelling? = some s) {c : Char}
    {cs rest : List Char} (text : s.toList = c :: cs) (apart : Apart k rest) :
    first c (cs ++ rest) = (token k (c :: cs) none,rest) := by
  have keyword : isLetter c → (∀ d ∈ cs, isWordChar d) → Kind.ofWord (String.ofList (c :: cs)) = k →
      first c (cs ++ rest) = (token k (c :: cs) none,rest) := by
    intro letter others word
    rw [first_of_letter letter others apart,word]
  cases k <;> cases spelled <;> cases text <;>
    first
    | exact first_single rfl _
    | exact first_pair rfl _
    | exact first_alone rfl apart
    | exact first_slash apart
    | exact keyword (by decide) (List.all_eq_true.mp rfl) (by decide)

/-- A lexeme that is kept apart is read as the token that it is. -/
theorem first_of_lexeme {k : Kind} {c : Char} {cs rest : List Char} (lexeme : Lexeme k (c :: cs))
    (apart : Apart k rest) :
    first c (cs ++ rest) = (token k (c :: cs) (literal? k (c :: cs)),rest) := by
  generalize text : c :: cs = t at lexeme
  cases lexeme with
  | fixed other spelled =>
    subst text
    rw [first_of_fixed other spelled String.toList_ofList apart]
    cases k <;> first | rfl | cases spelled
  | identifier letter others new =>
    cases text
    have word : Kind.ofWord (String.ofList (c :: cs)) = .identifier := by
      rw [Kind.ofWord,List.find?_eq_none.mpr (by simpa using new)]
      rfl
    rw [first_of_letter letter others apart,word]
    rfl
  | whole _ digits =>
    subst text
    rw [first_number (digits c List.mem_cons_self),← List.cons_append,number_of_digits digits apart]
    rfl
  | @fraction ds es some digits more fraction =>
    obtain _ | ⟨d,ds⟩ := ds
    · exact absurd rfl some
    cases text
    rw [first_number (digits c List.mem_cons_self)]
    exact number_of_fraction digits more fraction apart
  | @string body closed =>
    cases text
    show string (body ++ ['"'] ++ rest) = _
    rw [List.append_assoc,List.singleton_append,string_of_body closed]
    simp [literal?]

end Piece

/-! ## Words in a new layout -/

/-- A gap: blanks, and comments that end with their line. -/
inductive Filler : List Char → Prop
  | none : Filler []
  | blank {c : Char} {cs : List Char} : Piece.isBlank c → Filler cs → Filler (c :: cs)
  | comment {body cs : List Char} : '\n' ∉ body → Filler cs → Filler ('/' :: '/' :: body ++ '\n' :: cs)

/-- A text that starts at the first of these tokens, with a blank in front of each further one. The end of the text is the
last of the tokens; a comment may come before it, also right behind the last token that is written, but not
behind a slash. -/
inductive Written : List Token → List Char → Prop
  | finish {e : Token} : Written [e] []
  | comment {e : Token} {body : List Char} : '\n' ∉ body → Written [e] ('/' :: '/' :: body)
  | token {t : Token} {ts : List Token} {c : Char} {gap rest : List Char} : Piece.isBlank c → Filler gap →
      Written ts rest → Written (t :: ts) (t.lexeme.toList ++ c :: gap ++ rest)
  | last {t e : Token} {gap rest : List Char} : Filler gap → Written [e] rest →
      (t.kind = .slash → (gap ++ rest).head? ≠ some '/') → Written [t,e] (t.lexeme.toList ++ gap ++ rest)

/-- A text of these tokens with gaps around and between them. -/
inductive LaidOut (ts : List Token) : List Char → Prop
  | intro {gap rest : List Char} : Filler gap → Written ts rest → LaidOut ts (gap ++ rest)

/-- What a text is read as from a position on: words and errors. -/
def ReadsAs (cs : List Char) (ws : List Word) : Prop :=
  ∀ p, (tokensFrom p (pieces cs)).map Token.word = ws ∧ scanErrorsFrom p (pieces cs) = []

theorem readsAs_nil : ReadsAs [] [.fixed .eof] := by
  intro p
  rw [pieces]
  exact ⟨rfl,rfl⟩

theorem ReadsAs.blank {c : Char} {cs : List Char} {ws : List Word} (blank : Piece.isBlank c)
    (h : ReadsAs cs ws) : ReadsAs (c :: cs) ws := by
  intro p
  have first : Piece.first c cs = (.blank c,cs) := by simp [Piece.first,blank]
  rw [pieces_cons,first]
  exact h _

theorem ReadsAs.comment {body cs : List Char} {ws : List Word} (line : '\n' ∉ body)
    (stop : ∀ c ds, cs = c :: ds → c = '\n') (h : ReadsAs cs ws) : ReadsAs ('/' :: '/' :: body ++ cs) ws := by
  intro p
  have all : ∀ d ∈ '/' :: body, (d ≠ '\n' : Bool) := by
    intro d hd
    simp only [List.mem_cons,decide_eq_true_eq] at hd ⊢
    rintro rfl
    simp_all
  obtain ⟨take,drop⟩ := Piece.takeWhile_apart all cs fun c ds e => by simp [stop c ds e]
  have first : Piece.first '/' ('/' :: body ++ cs) = (.comment ('/' :: '/' :: body),cs) := by
    show (Piece.comment ('/' :: ('/' :: body ++ cs).takeWhile (· ≠ '\n')),
      ('/' :: body ++ cs).dropWhile (· ≠ '\n')) = _
    rw [take,drop]
  rw [List.cons_append,pieces_cons,first]
  exact h _

theorem ReadsAs.filler {gap cs : List Char} {ws : List Word} (filler : Filler gap) (h : ReadsAs cs ws) :
    ReadsAs (gap ++ cs) ws := by
  induction filler with
  | none => exact h
  | blank blank _ ih => exact ih.blank blank
  | @comment body gap line _ ih =>
    rw [List.append_assoc,List.cons_append]
    apply ReadsAs.comment line
    · intro c ds e
      cases e
      rfl
    · exact ih.blank (by decide)

/-- What makes a token the same word wherever it is written. -/
structure Token.Constant (t : Token) : Prop where
  lexeme : Lexeme t.kind t.lexeme.toList
  literal : t.literal = Piece.literal? t.kind t.lexeme.toList

theorem ReadsAs.token {t : Token} (constant : t.Constant) {rest : List Char} (apart : Piece.Apart t.kind rest)
    {ws : List Word} (h : ReadsAs rest ws) : ReadsAs (t.lexeme.toList ++ rest) (t.word :: ws) := by
  intro p
  obtain ⟨lexeme,literal⟩ := constant
  have text : String.ofList t.lexeme.toList = t.lexeme := String.ofList_toList
  cases chars : t.lexeme.toList with
  | nil => exact absurd chars lexeme.ne_nil
  | cons c cs =>
    rw [chars] at lexeme literal text
    obtain ⟨words,silent⟩ := h (p.after (c :: cs))
    rw [List.cons_append,pieces_cons,Piece.first_of_lexeme lexeme apart]
    constructor
    · simp only [tokensFrom,Piece.text,List.map_cons,words,text]
      rw [Token.word,Token.word,literal]
    · exact silent

/-- Tokens that are the same words wherever they are written, and the end of the text. -/
inductive Constants : List Token → Prop
  | finish {e : Token} : e.word = .fixed .eof → Constants [e]
  | token {t : Token} {ts : List Token} : t.Constant → Constants ts → Constants (t :: ts)

/-- The end of the text stands behind nothing or behind a comment. -/
theorem Written.of_end {e : Token} {rest : List Char} (written : Written [e] rest) :
    rest = [] ∨ ∃ body, rest = '/' :: '/' :: body := by
  cases written with
  | finish => exact .inl rfl
  | comment => exact .inr ⟨_,rfl⟩
  | token _ _ none => cases none

/-- What comes behind the last token is kept apart from it. -/
theorem Filler.apart {k : Kind} {e : Token} {gap rest : List Char} (filler : Filler gap)
    (written : Written [e] rest) (slash : k = .slash → (gap ++ rest).head? ≠ some '/') :
    Piece.Apart k (gap ++ rest) := by
  have comment : ∀ {cs}, (k = .slash → ('/' :: cs).head? ≠ some '/') → Piece.Apart k ('/' :: cs) :=
    fun other => .inr ⟨rfl,fun e => other e rfl⟩
  cases filler with
  | none =>
    rcases written.of_end with rfl | ⟨body,rfl⟩
    · trivial
    · exact comment slash
  | blank blank => exact .inl blank
  | comment => exact comment slash

theorem Written.readsAs {ts : List Token} {cs : List Char} (written : Written ts cs)
    (constants : Constants ts) : ReadsAs cs (ts.map Token.word) := by
  induction written with
  | finish =>
    cases constants with
    | finish eof =>
      rw [List.map_singleton,eof]
      exact readsAs_nil
    | token _ none => cases none
  | comment line =>
    cases constants with
    | finish eof =>
      rw [List.map_singleton,eof,← List.append_nil ('/' :: '/' :: _)]
      apply ReadsAs.comment line
      · intro c ds e
        cases e
      · exact readsAs_nil
    | token _ none => cases none
  | token blank filler written ih =>
    cases constants with
    | finish => cases written
    | token constant others =>
      rw [List.append_assoc]
      apply ReadsAs.token constant
      · exact .inl blank
      · exact ((ih others).filler filler).blank blank
  | @last t e gap rest filler written slash ih =>
    cases constants with
    | token constant others =>
      rw [List.append_assoc]
      apply ReadsAs.token constant
      · exact filler.apart written slash
      · exact (ih others).filler filler

theorem constants_tokensFrom {cs : List Char} {p : Pos} (silent : scanErrorsFrom p (pieces cs) = []) :
    Constants (tokensFrom p (pieces cs)) := by
  fun_induction pieces cs generalizing p with
  | case1 => exact .finish rfl
  | case2 c cs ih =>
    have fits := Piece.fits_first c cs
    have value := @Piece.literal?_first c cs
    generalize Piece.first c cs = found at ih fits value silent
    obtain ⟨piece,rest⟩ := found
    cases piece with
    | blank | comment => exact ih silent
    | stray | unterminated => cases silent
    | token k text l =>
      refine .token ⟨?_,?_⟩ (ih silent)
      · rw [String.toList_ofList]
        exact fits.1
      · rw [String.toList_ofList]
        exact value rfl

/-- A source without scan errors that is laid out anew is read as the same words. -/
theorem words_laidOut {source text : String} (silent : (scan source).errors = [])
    (laid : LaidOut (scan source).tokens text.toList) :
    (scan text).errors = [] ∧ (scan text).tokens.map Token.word = (scan source).tokens.map Token.word := by
  have constants : Constants (scan source).tokens := constants_tokensFrom silent
  generalize chars : text.toList = cs at laid
  obtain ⟨filler,written⟩ := laid
  obtain ⟨words,none⟩ := (written.readsAs constants).filler filler .start
  rw [← chars] at words none
  exact ⟨none,words⟩

/-! ## Characters that start no token -/

namespace Piece

/-- Whether a character starts no token, no comment and no string, and is no blank. -/
def isStray (c : Char) : Bool :=
  !isBlank c && c ≠ '/' && c ≠ '"' && !c.isDigit && !isLetter c && (pair? c).isNone && (single? c).isNone

theorem first_stray {c : Char} (h : isStray c) (cs : List Char) : first c cs = (stray c,cs) := by
  simp only [isStray,Bool.and_eq_true,Bool.not_eq_true',decide_eq_true_eq,Option.isNone_iff_eq_none] at h
  obtain ⟨⟨⟨⟨⟨⟨blank,slash⟩,quote⟩,digit⟩,letter⟩,pair⟩,single⟩ := h
  simp [first,blank,slash,quote,digit,letter,pair,single]

theorem isStray_of_first {c d : Char} {cs : List Char} (h : (first c cs).1 = stray d) :
    isStray c ∧ d = c := by
  simp only [first] at h
  split at h
  · cases h
  next blank =>
  split at h
  · split at h <;> cases h
  next slash =>
  split at h
  · simp only [string] at h
    split at h <;> cases h
  next quote =>
  split at h
  · next digit =>
    obtain ⟨ds,rest,e,-⟩ := number_eq cs digit
    rw [e] at h
    cases h
  next digit =>
  split at h
  · cases h
  next letter =>
  split at h <;> cases h
  next pair single => simp [isStray,blank,slash,quote,digit,letter,pair,single]

/-- A character that stayed or, starting no token, has become a space. -/
def Cleared (c d : Char) : Prop := d = c ∨ isStray c ∧ d = ' '

theorem Cleared.refl (c : Char) : Cleared c c := .inl rfl

/-- A class of characters that stray ones and the space are outside of. -/
structure Strict (p : Char → Bool) : Prop where
  stray {c : Char} : isStray c → p c = false
  space : p ' ' = false

theorem Strict.eq {p : Char → Bool} (strict : Strict p) {c d : Char} (h : Cleared c d) : p d = p c := by
  rcases h with rfl | ⟨stray,rfl⟩
  · rfl
  · rw [strict.space,strict.stray stray]

theorem Strict.takeWhile {p : Char → Bool} (strict : Strict p) {cs ds : List Char}
    (h : List.Forall₂ Cleared cs ds) :
    ds.takeWhile p = cs.takeWhile p ∧ List.Forall₂ Cleared (cs.dropWhile p) (ds.dropWhile p) := by
  induction h with
  | nil => exact ⟨rfl,.nil⟩
  | @cons c d cs ds head tail ih =>
    rw [List.takeWhile_cons,List.takeWhile_cons,List.dropWhile_cons,List.dropWhile_cons,strict.eq head]
    cases inside : p c with
    | false => exact ⟨rfl,.cons head tail⟩
    | true =>
      rcases head with rfl | ⟨stray,-⟩
      · exact ⟨congrArg _ ih.1,ih.2⟩
      · rw [strict.stray stray] at inside
        cases inside

theorem strict_isDigit : Strict Char.isDigit where
  stray h := by simp_all [isStray]
  space := by decide

theorem strict_isWordChar : Strict isWordChar where
  stray h := by simp_all [isStray,isWordChar]
  space := by decide

theorem strict_eq {d : Char} (other : isStray d = false) (space : ' ' ≠ d) : Strict (· = d) where
  stray h := by
    apply decide_eq_false
    rintro rfl
    rw [other] at h
    cases h
  space := decide_eq_false space

section
variable {cs ds : List Char} (cleared : List.Forall₂ Cleared cs ds)
include cleared

theorem word_cleared : (word ds).1 = (word cs).1 := by
  simp only [word,(strict_isWordChar.takeWhile cleared).1]

theorem number_cleared : (number ds).1 = (number cs).1 := by
  obtain ⟨whole,rest⟩ := strict_isDigit.takeWhile cleared
  have dot := strict_eq (d := '.') (by decide) (by decide)
  simp only [number,whole]
  generalize cs.dropWhile Char.isDigit = here,ds.dropWhile Char.isDigit = there at rest
  cases rest with
  | nil => rfl
  | @cons c d here there head tail =>
    have point := dot.eq head
    simp only [decide_eq_decide] at point
    by_cases some : c = '.'
    · obtain rfl := some
      obtain rfl := point.mpr rfl
      cases tail with
      | nil => rfl
      | @cons e f here there first others =>
        obtain ⟨fraction,-⟩ := strict_isDigit.takeWhile (.cons first others)
        simp only [strict_isDigit.eq first,fraction]
        split <;> rfl
    · have none := mt point.mp some
      cases tail <;> simp [some,none,numeral]

theorem head?_cleared {d : Char} (other : isStray d = false) (space : ' ' ≠ d) :
    ds.head? = some d ↔ cs.head? = some d := by
  cases cleared with
  | nil => rfl
  | cons head => simpa using (strict_eq other space).eq head

end

/-- The part of a comment that is on its line. -/
theorem takeWhile_line {text rest rest' : List Char} (line : (text ++ rest).takeWhile (· ≠ '\n') = text)
    (stop : rest = [] ∨ rest.head? = some '\n') (cleared : List.Forall₂ Cleared rest rest') :
    (text ++ rest').takeWhile (· ≠ '\n') = text := by
  have inside : ∀ d ∈ text, (d ≠ '\n' : Bool) := by
    intro d hd
    rw [← line] at hd
    exact List.mem_takeWhile_imp (p := fun d => decide (d ≠ '\n')) hd
  have same := head?_cleared cleared (d := '\n') (by decide) (by decide)
  refine (takeWhile_apart inside _ ?_).1
  rintro c cs rfl
  rcases stop with rfl | stop
  · cases cleared
  · rw [List.head?_cons,stop] at same
    simpa using same

theorem string_cleared {text rest rest' : List Char} {piece : Piece}
    (h : string (text ++ rest) = (piece,rest)) (whole : piece.text = '"' :: text)
    (cleared : List.Forall₂ Cleared rest rest') : (string (text ++ rest')).1 = piece := by
  have fits := fits_string (text ++ rest)
  rw [h] at fits
  cases piece with
  | token k found l =>
    obtain rfl : found = '"' :: text := whole
    obtain ⟨body,rfl,closed⟩ := fits.1.shape.of_quote
    rw [List.append_assoc,List.singleton_append,string_of_body closed] at h ⊢
    exact congrArg Prod.fst h
  | unterminated =>
    obtain rfl : rest = [] := fits.1
    cases cleared
    exact congrArg Prod.fst h
  | _ =>
    simp only [string] at h
    split at h <;> cases h

theorem comment_cleared {text rest rest' : List Char} {piece : Piece}
    (h : first '/' (text ++ rest) = (piece,rest)) (whole : piece.text = '/' :: text)
    (cleared : List.Forall₂ Cleared rest rest')
    (slashes : (text ++ rest').head? = some '/' ↔ (text ++ rest).head? = some '/') :
    (first '/' (text ++ rest')).1 = piece := by
  have fits := fits_first '/' (text ++ rest)
  rw [h] at fits
  have comment : ∀ {cs : List Char}, cs.head? = some '/' →
      first '/' cs = (.comment ('/' :: cs.takeWhile (· ≠ '\n')),cs.dropWhile (· ≠ '\n')) := by
    intro cs head
    obtain ⟨rest,rfl⟩ := List.head?_eq_some_iff.mp head
    rfl
  have slash : ∀ {cs : List Char}, cs.head? ≠ some '/' → first '/' cs = (token .slash ['/'] none,cs) := by
    intro cs head
    have other : ∀ ds, cs ≠ '/' :: ds := by
      rintro ds rfl
      exact head rfl
    simp [first,isBlank]
  by_cases head : (text ++ rest).head? = some '/'
  · rw [comment head] at h
    rw [comment (slashes.mpr head)]
    obtain rfl : _ = piece := congrArg Prod.fst h
    obtain ⟨-,-,-,stop⟩ := fits
    have line : (text ++ rest).takeWhile (· ≠ '\n') = text := List.tail_eq_of_cons_eq whole
    rw [line,takeWhile_line line stop cleared]
  · rw [slash head] at h
    rw [slash (mt slashes.mp head)]
    exact congrArg Prod.fst h

/-- Characters behind a piece are no part of it when some stray ones become spaces. -/
theorem first_cleared {c : Char} {text rest rest' : List Char} {piece : Piece}
    (h : first c (text ++ rest) = (piece,rest)) (whole : piece.text = c :: text)
    (cleared : List.Forall₂ Cleared rest rest') : first c (text ++ rest') = (piece,rest') := by
  have full : List.Forall₂ Cleared (text ++ rest) (text ++ rest') :=
    List.rel_append (List.forall₂_same.mpr fun c _ => .refl c) cleared
  suffices found : (first c (text ++ rest')).1 = (first c (text ++ rest)).1 by
    have parts := text_first c (text ++ rest')
    rw [found,h,whole] at parts
    rw [h] at found
    exact Prod.ext found (List.append_cancel_left parts)
  have slashes := head?_cleared full (d := '/') (by decide) (by decide)
  have equals := head?_cleared full (d := '=') (by decide) (by decide)
  by_cases digit : c.isDigit
  · rw [first_number digit,first_number digit]
    exact number_cleared (.cons (.refl c) full)
  by_cases letter : isLetter c
  · rw [first_word letter,first_word letter]
    exact word_cleared (.cons (.refl c) full)
  by_cases quote : c = '"'
  · obtain rfl := quote
    rw [h]
    exact string_cleared h whole cleared
  by_cases slash : c = '/'
  · obtain rfl := slash
    rw [h]
    exact comment_cleared h whole cleared slashes
  simp only [first,slash,quote,digit,letter]
  generalize pair? c = pair,single? c = single
  split
  · rfl
  generalize text ++ rest = here,text ++ rest' = there at equals
  cases pair with
  | none => cases single <;> rfl
  | some kinds =>
    by_cases head : here.head? = some '='
    · obtain ⟨_,rfl⟩ := List.head?_eq_some_iff.mp head
      obtain ⟨_,rfl⟩ := List.head?_eq_some_iff.mp (equals.mpr head)
      rfl
    · have here_ne : ∀ ds, here ≠ '=' :: ds := fun _ e => head (e ▸ rfl)
      have there_ne : ∀ ds, there ≠ '=' :: ds := fun _ e => head (equals.mp (e ▸ rfl))
      simp

end Piece

/-! ## Positions -/

namespace Pos

theorem before_iff {p q : Pos} : p.before q ↔ p.line < q.line ∨ p.line = q.line ∧ p.column < q.column := by
  simp [before]

theorem before_next (p : Pos) (c : Char) : p.before (p.next c) := by
  rw [before_iff,next]
  split
  · exact .inl (Nat.lt_succ_self _)
  · exact .inr ⟨rfl,Nat.lt_succ_self _⟩

theorem not_before_self (p : Pos) : ¬p.before p := by
  rw [before_iff]
  omega

theorem before_trans {p q r : Pos} (h : p.before q) (h' : q.before r) : p.before r := by
  rw [before_iff] at *
  omega

theorem before_of_not_before {p q r : Pos} (h : p.before q) (h' : ¬r.before q) : p.before r := by
  rw [before_iff] at *
  omega

theorem not_after_before (p : Pos) (cs : List Char) : ¬(p.after cs).before p := by
  induction cs generalizing p with
  | nil => exact not_before_self p
  | cons c cs ih =>
    intro less
    exact ih (p.next c) (before_trans less (p.before_next c))

theorem before_after_cons (p : Pos) (c : Char) (cs : List Char) : p.before (p.after (c :: cs)) :=
  before_of_not_before (p.before_next c) (not_after_before (p.next c) cs)

end Pos

/-- The text with spaces at some positions, read from a position on. -/
def spacedAt (chosen : Pos → Bool) (p : Pos) : List Char → List Char
  | [] => []
  | c :: cs => (if chosen p then ' ' else c) :: spacedAt chosen (p.next c) cs

theorem spacedAt_append (chosen : Pos → Bool) (p : Pos) (cs ds : List Char) :
    spacedAt chosen p (cs ++ ds) = spacedAt chosen p cs ++ spacedAt chosen (p.after cs) ds := by
  induction cs generalizing p with
  | nil => rfl
  | cons c cs ih => simp only [List.cons_append,spacedAt,ih,Pos.after_cons]

/-- A text without a chosen position stays as it is. -/
theorem spacedAt_eq_self {chosen : Pos → Bool} {p : Pos} {cs : List Char}
    (none : ∀ q, ¬q.before p → q.before (p.after cs) → chosen q = false) : spacedAt chosen p cs = cs := by
  induction cs generalizing p with
  | nil => rfl
  | cons c cs ih =>
    have here : chosen p = false := none p p.not_before_self (p.before_after_cons c cs)
    rw [spacedAt,here,ih]
    · rfl
    · intro q behind ahead
      exact none q (fun early => behind (Pos.before_trans early (p.before_next c))) ahead

theorem not_before_of_mem_scanErrors {p : Pos} {ps : List Piece} {d : Diagnostic}
    (h : d ∈ scanErrorsFrom p ps) : ¬d.pos.before p := by
  induction ps generalizing p with
  | nil => cases h
  | cons x ps ih =>
    have later : d ∈ scanErrorsFrom (p.after x.text) ps → ¬d.pos.before p := by
      intro mem early
      exact ih mem (Pos.before_of_not_before early (p.not_after_before x.text))
    cases x with
    | stray | unterminated =>
      rcases List.mem_cons.mp h with rfl | h
      · exact p.not_before_self
      · exact later h
    | _ => exact later h

/-- From a position on, only characters that start no token are chosen. -/
def StrayAt (chosen : Pos → Bool) (p : Pos) (ps : List Piece) : Prop :=
  ∀ q, ¬q.before p → chosen q → ∃ c, ⟨.scan (.strayCharacter c),q,.none⟩ ∈ scanErrorsFrom p ps

section
variable {chosen : Pos → Bool} {p : Pos} {x : Piece} {ps : List Piece} (stray : StrayAt chosen p (x :: ps))
include stray

theorem StrayAt.later (some : x.text ≠ []) : StrayAt chosen (p.after x.text) ps := by
  intro q behind at_
  obtain ⟨_,_,text⟩ := List.ne_nil_iff_exists_cons.mp some
  have far : p.before q := by
    rw [text] at behind
    exact Pos.before_of_not_before (p.before_after_cons _ _) behind
  obtain ⟨d,mem⟩ := stray q (fun early => p.not_before_self (Pos.before_trans far early)) at_
  refine ⟨d,?_⟩
  cases x with
  | stray c =>
    rcases List.mem_cons.mp mem with same | mem
    · cases same
      exact absurd far p.not_before_self
    · exact mem
  | unterminated => exact (List.mem_cons.mp mem).resolve_left nofun
  | _ => exact mem

/-- Nothing inside any other piece is chosen. -/
theorem StrayAt.unchosen (other : ∀ d, x ≠ .stray d) {q : Pos} (behind : ¬q.before p)
    (ahead : q.before (p.after x.text)) : chosen q = false := by
  by_contra at_
  obtain ⟨d,mem⟩ := stray q behind (by simpa using at_)
  have past : ⟨.scan (.strayCharacter d),q,.none⟩ ∉ scanErrorsFrom (p.after x.text) ps :=
    fun mem => not_before_of_mem_scanErrors mem ahead
  cases x with
  | stray d => exact other d rfl
  | unterminated => exact past ((List.mem_cons.mp mem).resolve_left nofun)
  | _ => exact past mem

end

/-- A text that reads like another one, without the errors at some positions. -/
structure Spared (chosen : Pos → Bool) (p : Pos) (cs ds : List Char) : Prop where
  cleared : List.Forall₂ Piece.Cleared cs ds
  tokens : tokensFrom p (pieces ds) = tokensFrom p (pieces cs)
  errors : scanErrorsFrom p (pieces ds) = (scanErrorsFrom p (pieces cs)).filter fun d => !chosen d.pos

namespace Spared
variable {chosen : Pos → Bool} {p : Pos} {c : Char} {cs ds : List Char}

theorem stray (isStray : Piece.isStray c) (h : Spared chosen (p.next c) cs ds) :
    Spared chosen p (c :: cs) ((if chosen p then ' ' else c) :: ds) := by
  obtain ⟨cleared,tokens,errors⟩ := h
  have stray := Piece.first_stray isStray
  have same : p.next ' ' = p.next c := by
    have feed : c ≠ '\n' := by
      rintro rfl
      cases isStray
    simp [Pos.next,feed]
  cases here : chosen p with
  | true =>
    have blank : Piece.first ' ' ds = (.blank ' ',ds) := rfl
    constructor
    · exact .cons (.inr ⟨isStray,rfl⟩) cleared
    · simp only [if_true,pieces_cons,stray,blank,tokensFrom,Piece.text,Pos.after_cons,Pos.after_nil,same,tokens]
    · simp only [if_true,pieces_cons,stray,blank,scanErrorsFrom,Piece.text,Pos.after_cons,Pos.after_nil,same,
        errors,List.filter_cons,here]
      rfl
  | false =>
    constructor
    · exact .cons (.refl c) cleared
    · simp only [Bool.false_eq_true,if_false,pieces_cons,stray,tokensFrom,Piece.text,Pos.after_cons,Pos.after_nil,
        tokens]
    · simp only [Bool.false_eq_true,if_false,pieces_cons,stray,scanErrorsFrom,Piece.text,Pos.after_cons,
        Pos.after_nil,errors,List.filter_cons,here]
      rfl

theorem piece {x : Piece} {text : List Char} (found : Piece.first c (text ++ cs) = (x,cs))
    (whole : x.text = c :: text) (other : ∀ d, x ≠ .stray d) (unchosen : chosen p = false)
    (h : Spared chosen (p.after x.text) cs ds) : Spared chosen p (c :: (text ++ cs)) (c :: (text ++ ds)) := by
  obtain ⟨cleared,tokens,errors⟩ := h
  have again := Piece.first_cleared found whole cleared
  constructor
  · exact .cons (.refl c) (List.rel_append (List.forall₂_same.mpr fun d _ => .refl d) cleared)
  · rw [pieces_cons,pieces_cons,again,found]
    cases x <;> simp only [tokensFrom,tokens]
  · rw [pieces_cons,pieces_cons,again,found]
    cases x with
    | stray d => exact absurd rfl (other d)
    | unterminated =>
      simp only [scanErrorsFrom,List.filter_cons,unchosen,errors]
      rfl
    | _ => exact errors

end Spared

/-- Spaces in the place of characters that start no token: the tokens stay and the errors go. -/
theorem spared_spacedAt {chosen : Pos → Bool} {p : Pos} {cs : List Char} (stray : StrayAt chosen p (pieces cs)) :
    Spared chosen p cs (spacedAt chosen p cs) := by
  fun_induction pieces cs generalizing p with
  | case1 =>
    refine ⟨.nil,rfl,?_⟩
    rw [spacedAt,pieces]
    rfl
  | case2 c cs ih =>
    have whole := Piece.text_first c cs
    have later := ih (stray.later (Piece.text_first_ne_nil c cs))
    have some := Piece.text_first_ne_nil c cs
    generalize found : Piece.first c cs = read at stray whole later some
    obtain ⟨x,rest⟩ := read
    by_cases isStray : ∃ d, x = .stray d
    · obtain ⟨d,rfl⟩ := isStray
      obtain ⟨isStray,rfl⟩ := Piece.isStray_of_first (congrArg Prod.fst found)
      rw [Piece.first_stray isStray] at found
      cases found
      exact .stray isStray later
    · have other : ∀ d, x ≠ .stray d := fun d e => isStray ⟨d,e⟩
      have unchosen := fun q => stray.unchosen (q := q) other
      have stays : spacedAt chosen p x.text = x.text := spacedAt_eq_self unchosen
      rw [← whole,spacedAt_append,stays]
      obtain ⟨d,text,text_eq⟩ := List.ne_nil_iff_exists_cons.mp some
      simp only [text_eq] at whole unchosen ⊢
      obtain ⟨rfl,rfl⟩ := List.cons_eq_cons.mp whole
      apply Spared.piece found text_eq other
      · exact unchosen p p.not_before_self (p.before_after_cons d text)
      · rw [← text_eq]
        exact later

/-- A source with spaces in the place of characters that start no token. -/
theorem scan_spacedAt {source : String} {chosen : Pos → Bool}
    (stray : ∀ p, chosen p → ∃ c, ⟨.scan (.strayCharacter c),p,.none⟩ ∈ (scan source).errors) :
    (scan (String.ofList (spacedAt chosen .start source.toList))).tokens = (scan source).tokens ∧
      (scan (String.ofList (spacedAt chosen .start source.toList))).errors =
        (scan source).errors.filter fun d => !chosen d.pos := by
  have spared : Spared chosen .start source.toList (spacedAt chosen .start source.toList) :=
    spared_spacedAt fun p _ at_ => stray p at_
  simp only [scan,String.toList_ofList]
  exact ⟨spared.tokens,spared.errors⟩

/-- Layout does not matter. A source without scan errors whose tokens are written again with any gaps around
and between them, a blank in front of each further token and no comment right behind a last slash, is read as
the same words and without errors. Characters that start no token, any number of them, can be replaced by
spaces: their errors go, and all tokens and all other errors stay where they are. -/
theorem layout_immaterial :
    (∀ source text : String, (scan source).errors = [] → LaidOut (scan source).tokens text.toList →
      (scan text).errors = [] ∧ (scan text).tokens.map Token.word = (scan source).tokens.map Token.word) ∧
    ∀ (source : String) (chosen : Pos → Bool),
      (∀ p, chosen p → ∃ c, ⟨.scan (.strayCharacter c),p,.none⟩ ∈ (scan source).errors) →
        (scan (String.ofList (spacedAt chosen .start source.toList))).tokens = (scan source).tokens ∧
          (scan (String.ofList (spacedAt chosen .start source.toList))).errors =
            (scan source).errors.filter fun d => !chosen d.pos := by
  constructor
  · intro source text silent laid
    exact words_laidOut silent laid
  · intro source chosen stray
    exact scan_spacedAt stray

/-- A comparison and a quotient, and the same words with comments between and behind them. -/
def quotient : String := "a<=b/c"
def commentedQuotient : String := "// a\n\ta\r<= // b\n b\n/ c//\n//"

/-- The first of two characters that start no token is replaced. -/
def straySum : String := "a@+#b"

theorem layout_immaterial_commented :
    ((scan quotient).errors = [] ∧ LaidOut (scan quotient).tokens commentedQuotient.toList ∧
      (scan commentedQuotient).errors = [] ∧
        (scan commentedQuotient).tokens.map Token.word = (scan quotient).tokens.map Token.word) ∧
    (∀ p, decide (p = ⟨1,2⟩) → ∃ c, ⟨.scan (.strayCharacter c),p,.none⟩ ∈ (scan straySum).errors) ∧
      (scan "a +#b").tokens = (scan straySum).tokens ∧
        (scan "a +#b").errors = (scan straySum).errors.filter fun d => !decide (d.pos = ⟨1,2⟩) := by
  have silent : (scan quotient).errors = [] := by cbv
  have tokens : (scan quotient).tokens = [⟨.identifier,"a",none,⟨1,1⟩⟩,⟨.lessEqual,"<=",none,⟨1,2⟩⟩,
    ⟨.identifier,"b",none,⟨1,4⟩⟩,⟨.slash,"/",none,⟨1,5⟩⟩,⟨.identifier,"c",none,⟨1,6⟩⟩,⟨.eof,"",none,⟨1,7⟩⟩] := by
    cbv
  have text : commentedQuotient.toList = "// a\n\t".toList ++ ("a".toList ++ '\r' :: [] ++ ("<=".toList ++
      ' ' :: "// b\n ".toList ++ ("b".toList ++ '\n' :: [] ++ ("/".toList ++ ' ' :: [] ++
        ("c".toList ++ "//\n".toList ++ ['/','/']))))) := by decide +kernel
  have laid : LaidOut (scan quotient).tokens commentedQuotient.toList := by
    rw [tokens,text]
    apply LaidOut.intro
    · exact @Filler.comment [' ','a'] _ (by decide) (.blank (by decide) .none)
    apply Written.token (by decide) .none
    apply Written.token (by decide)
    · exact @Filler.comment [' ','b'] _ (by decide) (.blank (by decide) .none)
    apply Written.token (by decide) .none
    apply Written.token (by decide) .none
    apply Written.last
    · exact @Filler.comment [] _ (by decide) .none
    · exact @Written.comment _ [] (by decide)
    · intro slash
      cases slash
  have stray : ∀ p, decide (p = (⟨1,2⟩ : Pos)) →
      ∃ c, ⟨.scan (.strayCharacter c),p,.none⟩ ∈ (scan straySum).errors := by
    intro p here
    obtain rfl := of_decide_eq_true here
    have errors : (scan straySum).errors =
      [⟨.scan (.strayCharacter '@'),⟨1,2⟩,.none⟩,⟨.scan (.strayCharacter '#'),⟨1,4⟩,.none⟩] := by cbv
    exact ⟨'@',by simp [errors]⟩
  have spaced : String.ofList (spacedAt (fun p => decide (p = ⟨1,2⟩)) .start straySum.toList) = "a +#b" := by
    decide +kernel
  have spared := layout_immaterial.2 straySum _ stray
  rw [spaced] at spared
  exact ⟨⟨silent,laid,layout_immaterial.1 _ _ silent laid⟩,stray,spared⟩

/-- A comment right behind a last slash takes the slash into it. -/
theorem comment_takes_slash : Filler "//\n".toList ∧ (scan "/").errors = [] ∧
    (scan "/").tokens = [⟨.slash,"/",none,⟨1,1⟩⟩,⟨.eof,"",none,⟨1,2⟩⟩] ∧
      (scan ("/" ++ "//\n")).tokens = [⟨.eof,"",none,⟨2,1⟩⟩] ∧
        (scan ("/" ++ "//\n")).tokens.map Token.word ≠ (scan "/").tokens.map Token.word := by
  have alone : (scan "/").tokens = [⟨.slash,"/",none,⟨1,1⟩⟩,⟨.eof,"",none,⟨1,2⟩⟩] := by cbv
  have lost : (scan ("/" ++ "//\n")).tokens = [⟨.eof,"",none,⟨2,1⟩⟩] := by cbv
  have silent : (scan "/").errors = [] := by cbv
  refine ⟨@Filler.comment [] _ (by decide) .none,silent,alone,lost,?_⟩
  rw [alone,lost]
  intro same
  cases same

end Lox
