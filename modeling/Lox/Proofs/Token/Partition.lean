import Lox.Proofs.Token.Spelling
import Mathlib.Data.List.Induction
import Mathlib.Data.List.TakeWhile

/-! # Tokens and gaps

A text falls into tokens and gaps: blanks, comments up to the end of their line and characters that no
token starts with. A token is the longest one that can start where it stands, and its position counts the
line feeds before it and the characters behind the last of them. Scanning finds exactly these tokens, and
an error for each character that starts no token and for a string that is never closed.
-/
namespace Lox

namespace Pos

/-- Where a text ends: its line feeds and the characters behind the last one, counted from one. -/
def behind (cs : List Char) : Pos := ⟨1 + cs.count '\n',1 + (cs.reverse.takeWhile (· ≠ '\n')).length⟩

theorem after_start (cs : List Char) : start.after cs = behind cs := by
  induction cs using List.reverseRecOn with
  | nil => rfl
  | append_singleton cs c ih =>
    rw [after_append,ih,after_cons,after_nil]
    by_cases feed : c = '\n'
    · simp [behind,next,feed]
      omega
    · simp [behind,next,feed]
      omega

end Pos

/-! ## Lexemes -/

namespace Token

/-- How the tokens of each kind are written. -/
inductive Lexeme : Kind → List Char → Prop
  | fixed {k : Kind} {text : List Char} : k ≠ .eof → k.spelling? = some (String.ofList text) → Lexeme k text
  | identifier {c : Char} {cs : List Char} : Piece.isLetter c → (∀ d ∈ cs, Piece.isWordChar d) →
      (∀ k ∈ Kind.keywords, k.spelling? ≠ some (String.ofList (c :: cs))) → Lexeme .identifier (c :: cs)
  | whole {ds : List Char} : ds ≠ [] → (∀ d ∈ ds, d.isDigit) → Lexeme .number ds
  | fraction {ds es : List Char} : ds ≠ [] → (∀ d ∈ ds, d.isDigit) → es ≠ [] → (∀ d ∈ es, d.isDigit) →
      Lexeme .number (ds ++ '.' :: es)
  | string {body : List Char} : '"' ∉ body → Lexeme .string ('"' :: body ++ ['"'])

/-- The forms of a lexeme by its first character. -/
inductive Shape (c : Char) (cs : List Char) : Prop
  | word : Piece.isLetter c → (∀ d ∈ cs, Piece.isWordChar d) → Shape c cs
  | whole : c.isDigit → (∀ d ∈ cs, d.isDigit) → Shape c cs
  | fraction {ds es : List Char} : c.isDigit → cs = ds ++ '.' :: es → (∀ d ∈ ds, d.isDigit) → es ≠ [] →
      (∀ d ∈ es, d.isDigit) → Shape c cs
  | string {body : List Char} : c = '"' → cs = body ++ ['"'] → '"' ∉ body → Shape c cs
  | slash : c = '/' → cs = [] → Shape c cs
  | single : (Piece.single? c).isSome → cs = [] → Shape c cs
  | pair : (Piece.pair? c).isSome → cs = [] ∨ cs = ['='] → Shape c cs

theorem Lexeme.ne_nil {k : Kind} {text : List Char} (h : Lexeme k text) : text ≠ [] := by
  cases h with
  | fixed other spelled =>
    rintro rfl
    cases k <;> first | exact absurd spelled (by decide) | exact other rfl
  | whole some _ => exact some
  | _ => simp

theorem shape_fixed {k : Kind} {s : String} (other : k ≠ .eof) (spelled : k.spelling? = some s) {c : Char}
    {cs : List Char} (text : s.toList = c :: cs) : Shape c cs := by
  cases k <;> cases spelled <;> cases text <;>
    first
    | exact .word (by decide) (List.all_eq_true.mp rfl)
    | exact .single (by decide) rfl
    | exact .pair (by decide) (.inl rfl)
    | exact .pair (by decide) (.inr rfl)
    | exact .slash rfl rfl

theorem Lexeme.shape {k : Kind} {c : Char} {cs : List Char} (h : Lexeme k (c :: cs)) : Shape c cs := by
  generalize text : c :: cs = t at h
  cases h with
  | fixed other spelled => exact shape_fixed other spelled (by simp [text])
  | identifier letter rest _ =>
    cases text
    exact .word letter rest
  | whole _ digits =>
    subst text
    exact .whole (digits c List.mem_cons_self) fun d hd => digits d (List.mem_cons_of_mem _ hd)
  | @fraction ds es some digits more fraction =>
    cases ds with
    | nil => exact absurd rfl some
    | cons d ds =>
      cases text
      exact .fraction (digits c List.mem_cons_self) rfl (fun d hd => digits d (List.mem_cons_of_mem _ hd)) more
        fraction
  | string body =>
    cases text
    exact .string rfl rfl body

/-- A token with what stands before and behind it. No longer token can start there, and no comment does. -/
structure Stands (t : Token) (before rest : List Char) : Prop where
  lexeme : Lexeme t.kind t.lexeme.toList
  longest {k : Kind} {text : List Char} : Lexeme k text → text <+: t.lexeme.toList ++ rest →
    text.length ≤ t.lexeme.toList.length
  code : ¬['/','/'] <+: t.lexeme.toList ++ rest
  pos : t.pos = .behind before
  literal : t.kind = .string → ∃ body, t.lexeme = "\"" ++ body ++ "\"" ∧ t.literal = some (.string body)

end Token

/-! ## Partitions -/

/-- What stands behind a text falls into these tokens and the gaps between them, with an error for each
character that starts no token and for a string that is never closed. -/
inductive Partition : List Char → List Char → List Token → List Diagnostic → Prop
  | finish {before : List Char} : Partition before [] [⟨.eof,"",none,.behind before⟩] []
  | blank {before rest : List Char} {ts : List Token} {es : List Diagnostic} {c : Char} :
      c = ' ' ∨ c = '\t' ∨ c = '\r' ∨ c = '\n' → Partition (before ++ [c]) rest ts es →
      Partition before (c :: rest) ts es
  | comment {before rest body : List Char} {ts : List Token} {es : List Diagnostic} :
      '\n' ∉ body → rest = [] ∨ rest.head? = some '\n' →
      Partition (before ++ '/' :: '/' :: body) rest ts es →
      Partition before ('/' :: '/' :: body ++ rest) ts es
  | stray {before rest : List Char} {ts : List Token} {es : List Diagnostic} {c : Char} :
      (∀ k cs, ¬Token.Lexeme k (c :: cs)) → Partition (before ++ [c]) rest ts es →
      Partition before (c :: rest) ts (⟨.scan (.strayCharacter c),.behind before,.none⟩ :: es)
  | unterminated {before body : List Char} : '"' ∉ body →
      Partition before ('"' :: body) [⟨.eof,"",none,.behind (before ++ '"' :: body)⟩]
        [⟨.scan .unterminatedString,.behind before,.none⟩]
  | token {before rest : List Char} {t : Token} {ts : List Token} {es : List Diagnostic} :
      t.Stands before rest → Partition (before ++ t.lexeme.toList) rest ts es →
      Partition before (t.lexeme.toList ++ rest) (t :: ts) es

namespace Piece
open Token

theorem isDigit_of_isLetter {c : Char} (letter : isLetter c) : c.isDigit = false := by
  by_cases underscore : c = '_'
  · subst underscore
    rfl
  · have upper : c.isUpper = decide (c.val ≥ 65 ∧ c.val ≤ 90) := rfl
    have lower : c.isLower = (c.val ≥ 97 && c.val ≤ 122) := rfl
    have alpha : c.isAlpha = (c.isUpper || c.isLower) := rfl
    simp only [isLetter,alpha,upper,lower,Char.isDigit] at *
    grind

theorem plain_of_single {c : Char} (single : (single? c).isSome) : isLetter c = false ∧ c.isDigit = false := by
  simp only [single?] at single
  split at single <;> first | decide | cases single

theorem plain_of_pair {c : Char} (pair : (pair? c).isSome) : isLetter c = false ∧ c.isDigit = false := by
  simp only [pair?] at pair
  split at pair <;> first | decide | cases pair

end Piece

namespace Token
open Piece

/-- What a letter goes on with in a lexeme. -/
theorem Shape.of_letter {c : Char} {cs : List Char} (shape : Shape c cs) (letter : isLetter c) :
    ∀ d ∈ cs, isWordChar d := by
  have digit := isDigit_of_isLetter letter
  cases shape with
  | word _ rest => exact rest
  | whole some | fraction some => exact absurd some (by simp [digit])
  | string quote | slash quote =>
    subst quote
    cases letter
  | single single => exact absurd letter (by simp [(plain_of_single single).1])
  | pair pair => exact absurd letter (by simp [(plain_of_pair pair).1])

/-- What a digit goes on with in a lexeme. -/
theorem Shape.of_digit {c : Char} {cs : List Char} (shape : Shape c cs) (digit : c.isDigit) :
    (∀ d ∈ cs, d.isDigit) ∨ ∃ ds es, cs = ds ++ '.' :: es ∧ (∀ d ∈ ds, d.isDigit) ∧ es ≠ [] ∧
      ∀ d ∈ es, d.isDigit := by
  cases shape with
  | word letter => exact absurd digit (by simp [isDigit_of_isLetter letter])
  | whole _ digits => exact .inl digits
  | fraction _ text digits some more => exact .inr ⟨_,_,text,digits,some,more⟩
  | string quote | slash quote =>
    subst quote
    cases digit
  | single single => exact absurd digit (by simp [(plain_of_single single).2])
  | pair pair => exact absurd digit (by simp [(plain_of_pair pair).2])

/-- What any other character goes on with in a lexeme. -/
theorem Shape.of_mark {c : Char} {cs : List Char} (shape : Shape c cs) (letter : ¬isLetter c)
    (digit : ¬c.isDigit) (quote : c ≠ '"') :
    cs = [] ∧ (c = '/' ∨ (single? c).isSome ∨ (pair? c).isSome) ∨ cs = ['='] ∧ (pair? c).isSome := by
  cases shape with
  | word some => exact absurd some letter
  | whole some | fraction some => exact absurd some digit
  | string some => exact absurd some quote
  | slash slash alone => exact .inl ⟨alone,.inl slash⟩
  | single single alone => exact .inl ⟨alone,.inr (.inl single)⟩
  | pair pair text => exact text.imp (⟨·,.inr (.inr pair)⟩) (⟨·,pair⟩)

/-- What a quote goes on with in a lexeme. -/
theorem Shape.of_quote {cs : List Char} (shape : Shape '"' cs) : ∃ body, cs = body ++ ['"'] ∧ '"' ∉ body := by
  cases shape with
  | string _ text closed => exact ⟨_,text,closed⟩
  | slash slash => cases slash
  | word some | whole some | fraction some | single some | pair some => cases some

end Token

namespace Piece
open Token

/-! ## Longest lexemes -/

/-- No lexeme that a text starts with is longer. -/
def Longest (text here : List Char) : Prop :=
  ∀ k other, Lexeme k other → other <+: here → other.length ≤ text.length

theorem longest_of_shape {text here : List Char} {c : Char}
    (h : ∀ cs, Shape c cs → cs <+: here → cs.length < text.length) : Longest text (c :: here) := by
  intro k other lexeme starts
  obtain _ | ⟨d,cs⟩ := other
  · exact absurd rfl lexeme.ne_nil
  obtain ⟨rfl,rest⟩ := List.cons_prefix_cons.mp starts
  exact h cs lexeme.shape rest

theorem length_le_takeWhile {p : Char → Bool} {text here : List Char} (all : ∀ c ∈ text, p c)
    (h : text <+: here) : text.length ≤ (here.takeWhile p).length := by
  obtain ⟨rest,rfl⟩ := h
  rw [List.takeWhile_append_of_pos all,List.length_append]
  omega

theorem longest_word {c : Char} (cs : List Char) (letter : isLetter c) :
    Longest (word (c :: cs)).1.text (c :: cs) := by
  apply longest_of_shape
  intro ds shape starts
  have all := length_le_takeWhile (shape.of_letter letter) starts
  simp only [word,text,List.takeWhile_cons,isWordChar,letter,Bool.true_or,if_true,List.length_cons] at all ⊢
  omega

theorem longest_string (cs : List Char) : Longest (string cs).1.text ('"' :: cs) := by
  apply longest_of_shape
  intro ds shape starts
  obtain ⟨body,rfl,closed⟩ := shape.of_quote
  obtain ⟨rest,rfl⟩ := starts
  have inside : ∀ d ∈ body, (d ≠ '"' : Bool) := by
    intro d hd
    simpa using fun e : d = '"' => closed (e ▸ hd)
  simp only [string,List.append_assoc,List.takeWhile_append_of_pos inside,List.dropWhile_append_of_pos inside]
  simp [text]

theorem longest_number {c : Char} (cs : List Char) (digit : c.isDigit) :
    Longest (number (c :: cs)).1.text (c :: cs) := by
  apply longest_of_shape
  intro ds shape starts
  rcases shape.of_digit digit with digits | ⟨ds,es,rfl,digits,some,more⟩
  · have all := length_le_takeWhile digits starts
    simp only [number,List.takeWhile_cons,digit,if_true]
    split
    · split <;> simp [numeral,text] <;> omega
    · simp [numeral,text]
      omega
  · obtain ⟨rest,rfl⟩ := starts
    obtain _ | ⟨e,es⟩ := es
    · exact absurd rfl some
    rw [List.forall_mem_cons] at more
    simp only [number,digit,more.1,numeral,text,List.cons_append,List.append_assoc,List.append_nil,
      List.takeWhile_append_of_pos digits,List.dropWhile_append_of_pos digits,Char.reduceIsDigit,Bool.false_eq_true,
      not_false_eq_true,List.takeWhile_cons_of_pos,List.takeWhile_cons_of_neg,List.dropWhile_cons_of_pos,
      List.dropWhile_cons_of_neg,if_true,List.takeWhile_append_of_pos more.2,List.length_append,List.length_cons]
    omega

/-- A mark is longest when it is not the first half of a pair. -/
theorem longest_mark {c : Char} {cs : List Char} (letter : ¬isLetter c) (digit : ¬c.isDigit)
    (quote : c ≠ '"') (other : (pair? c).isSome → cs.head? ≠ some '=') : Longest [c] (c :: cs) := by
  apply longest_of_shape
  intro ds shape starts
  rcases shape.of_mark letter digit quote with ⟨rfl,-⟩ | ⟨rfl,pair⟩
  · exact Nat.zero_lt_one
  · obtain ⟨rest,rfl⟩ := starts
    exact absurd rfl (other pair)

theorem longest_pair {c : Char} {cs : List Char} (letter : ¬isLetter c) (digit : ¬c.isDigit)
    (quote : c ≠ '"') : Longest [c,'='] (c :: cs) := by
  apply longest_of_shape
  intro ds shape _
  rcases shape.of_mark letter digit quote with ⟨rfl,-⟩ | ⟨rfl,-⟩ <;> simp

/-! ## Pieces -/

/-- What a piece is, with what follows it. -/
def Fits : Piece → List Char → Prop
  | blank c, _ => c = ' ' ∨ c = '\t' ∨ c = '\r' ∨ c = '\n'
  | comment text, rest => ∃ body, text = '/' :: '/' :: body ∧ '\n' ∉ body ∧ (rest = [] ∨ rest.head? = some '\n')
  | stray c, _ => ∀ k cs, ¬Lexeme k (c :: cs)
  | unterminated text, rest => rest = [] ∧ ∃ body, text = '"' :: body ∧ '"' ∉ body
  | token k text _, rest => Lexeme k text ∧ Longest text (text ++ rest) ∧ ¬['/','/'] <+: text ++ rest

theorem not_mem_takeWhile_ne {c : Char} (cs : List Char) : c ∉ cs.takeWhile (· ≠ c) := by
  intro mem
  simpa using List.mem_takeWhile_imp mem

theorem head?_dropWhile_ne (c : Char) (cs : List Char) :
    cs.dropWhile (· ≠ c) = [] ∨ (cs.dropWhile (· ≠ c)).head? = some c := by
  have head := List.head?_dropWhile_not (p := (· ≠ c)) cs
  cases rest : cs.dropWhile (· ≠ c) with
  | nil => exact .inl rfl
  | cons d ds =>
    rw [rest] at head
    simp at head
    simp [head]

theorem fits_string (cs : List Char) : (string cs).1.Fits (string cs).2 := by
  have longest := longest_string cs
  have whole := text_string cs
  have closed := not_mem_takeWhile_ne (c := '"') cs
  have parts := List.takeWhile_append_dropWhile (p := (· ≠ '"')) (l := cs)
  have head := head?_dropWhile_ne '"' cs
  simp only [string] at longest whole ⊢
  split
  · next rest =>
    rw [rest,List.append_nil] at parts
    rw [parts] at closed
    exact ⟨rfl,_,rfl,closed⟩
  · next close rest found =>
    simp only [found] at longest whole
    simp only [found,List.head?_cons,Option.some.injEq,reduceCtorEq,false_or] at head
    subst head
    refine ⟨.string closed,?_,?_⟩
    · exact whole ▸ longest
    · simp

/-- A text that starts with no slash starts with no comment. -/
theorem not_comment {c : Char} {here : List Char} (other : c ≠ '/') : ¬['/','/'] <+: c :: here := by
  intro starts
  exact other (List.cons_prefix_cons.mp starts).1.symm

theorem ne_slash_of_isDigit {c : Char} (digit : c.isDigit) : c ≠ '/' := by
  rintro rfl
  cases digit

theorem ne_slash_of_isLetter {c : Char} (letter : isLetter c) : c ≠ '/' := by
  rintro rfl
  cases letter

/-- A word is written as a keyword or as an identifier. -/
theorem lexeme_ofWord {c : Char} {cs : List Char} (letter : isLetter c) (rest : ∀ d ∈ cs, isWordChar d) :
    Lexeme (.ofWord (String.ofList (c :: cs))) (c :: cs) := by
  rw [Kind.ofWord]
  cases found : Kind.keywords.find? fun k => k.spelling? == some (String.ofList (c :: cs)) with
  | none =>
    rw [List.find?_eq_none] at found
    exact .identifier letter rest fun k hk => by simpa using found k hk
  | some k =>
    have keyword : k ≠ .eof := by
      rintro rfl
      exact absurd (List.mem_of_find?_eq_some found) (by decide)
    have spelled := List.find?_some found
    rw [beq_iff_eq] at spelled
    exact .fixed keyword spelled

theorem fits_word {c : Char} (cs : List Char) (letter : isLetter c) :
    (word (c :: cs)).1.Fits (word (c :: cs)).2 := by
  have longest := longest_word cs letter
  have whole := text_word (c :: cs)
  have first : isWordChar c := by simp [isWordChar,letter]
  simp only [word,List.takeWhile_cons,List.dropWhile_cons,first,if_true,text] at longest whole ⊢
  refine ⟨lexeme_ofWord letter fun d hd => List.mem_takeWhile_imp hd,?_,?_⟩
  · exact whole.symm ▸ longest
  · exact whole.symm ▸ not_comment (ne_slash_of_isLetter letter)

theorem number_eq {c : Char} (cs : List Char) (digit : c.isDigit) :
    ∃ text rest, number (c :: cs) = numeral text rest ∧ Lexeme .number text := by
  have digits : ∀ {ds : List Char}, ∀ d ∈ ds.takeWhile Char.isDigit, d.isDigit :=
    fun _ hd => List.mem_takeWhile_imp hd
  have some : ∀ {d : Char} (ds : List Char), d.isDigit → (d :: ds).takeWhile Char.isDigit ≠ [] := by
    intro d ds hd
    simp [hd]
  simp only [number]
  split
  · next d ds _ =>
    split
    · next more => exact ⟨_,_,rfl,.fraction (some cs digit) digits (some ds more) digits⟩
    · exact ⟨_,_,rfl,.whole (some cs digit) digits⟩
  · exact ⟨_,_,rfl,.whole (some cs digit) digits⟩

theorem fits_number {c : Char} (cs : List Char) (digit : c.isDigit) :
    (number (c :: cs)).1.Fits (number (c :: cs)).2 := by
  have longest := longest_number cs digit
  have whole := text_number (c :: cs)
  obtain ⟨text,rest,e,lexeme⟩ := number_eq cs digit
  rw [e] at longest whole ⊢
  exact ⟨lexeme,whole.symm ▸ longest,whole.symm ▸ not_comment (ne_slash_of_isDigit digit)⟩

theorem lexeme_pair {c : Char} {k l : Kind} (h : pair? c = some (k,l)) : Lexeme k [c,'='] ∧ Lexeme l [c] := by
  simp only [pair?] at h
  split at h <;> cases h <;> exact ⟨.fixed (by decide) rfl,.fixed (by decide) rfl⟩

theorem lexeme_single {c : Char} {k : Kind} (h : single? c = some k) : Lexeme k [c] := by
  simp only [single?] at h
  split at h <;> cases h <;> exact .fixed (by decide) rfl

theorem fits_first (c : Char) (cs : List Char) : (first c cs).1.Fits (first c cs).2 := by
  simp only [first]
  split
  · next blank =>
    simpa [isBlank,Fits,or_assoc] using blank
  split
  · next slash =>
    subst slash
    split
    · next rest =>
      exact ⟨rest.takeWhile (· ≠ '\n'),by simp,not_mem_takeWhile_ne rest,by simpa using head?_dropWhile_ne '\n' rest⟩
    · next other =>
      have code : ¬['/','/'] <+: '/' :: cs := by
        rintro ⟨rest,e⟩
        exact other rest (by simpa using e.symm)
      exact ⟨.fixed (by decide) rfl,longest_mark (by decide) (by decide) (by decide) (fun pair => absurd pair (by decide)),code⟩
  split
  · exact fits_string cs
  split
  · next digit => exact fits_number cs digit
  split
  · next letter => exact fits_word cs letter
  next blank slash quote digit letter =>
  have code : ∀ {here}, ¬['/','/'] <+: c :: here := not_comment slash
  split
  · next pair => exact ⟨(lexeme_pair pair).1,longest_pair letter digit quote,code⟩
  · next pair other =>
    refine ⟨(lexeme_pair pair).2,longest_mark letter digit quote fun _ equals => ?_,code⟩
    obtain ⟨rest,rfl⟩ := List.head?_eq_some_iff.mp equals
    exact other rest rfl
  · next pair single =>
    exact ⟨lexeme_single single,longest_mark letter digit quote fun some => by simp [pair] at some,code⟩
  · next pair single =>
    intro k cs lexeme
    rcases lexeme.shape.of_mark letter digit quote with ⟨-,slash' | some | some⟩ | ⟨-,some⟩
    · exact slash slash'
    · simp [single] at some
    · simp [pair] at some
    · simp [pair] at some

end Piece

/-! ## Scanning -/

/-- A piece that is a token stands where the text before it ends. -/
theorem Piece.stands {k : Token.Kind} {text rest : List Char} {literal : Option Token.Literal}
    (fits : (token k text literal).Fits rest) (spelled : (token k text literal).Spelled) (before : List Char) :
    Token.Stands ⟨k,String.ofList text,literal,.behind before⟩ before rest where
  lexeme := by
    rw [String.toList_ofList]
    exact fits.1
  longest lexeme starts := by
    rw [String.toList_ofList] at starts ⊢
    exact fits.2.1 _ _ lexeme starts
  code := by
    rw [String.toList_ofList]
    exact fits.2.2
  pos := rfl
  literal kind := spelled.string kind

theorem partition_pieces (before cs : List Char) :
    Partition before cs (tokensFrom (.behind before) (pieces cs)) (scanErrorsFrom (.behind before) (pieces cs)) := by
  fun_induction pieces cs generalizing before with
  | case1 => exact .finish
  | case2 c cs ih =>
    have fits := Piece.fits_first c cs
    have spelled := Piece.spelled_first c cs
    have later := ih (before ++ (Piece.first c cs).1.text)
    rw [← Pos.after_start,Pos.after_append,Pos.after_start] at later
    rw [← Piece.text_first c cs]
    generalize Piece.first c cs = found at fits spelled later
    obtain ⟨piece,rest⟩ := found
    cases piece with
    | blank c => exact .blank fits later
    | comment text =>
      obtain ⟨body,rfl,line,stop⟩ := fits
      exact .comment line stop later
    | stray c => exact .stray fits later
    | unterminated text =>
      obtain ⟨rfl,body,rfl,closed⟩ := fits
      simp only [pieces,tokensFrom,scanErrorsFrom,Piece.text,List.append_nil]
      rw [← Pos.after_start before,← Pos.after_append,Pos.after_start,Pos.after_start]
      exact .unterminated closed
    | token k text literal =>
      have stands := Piece.stands fits spelled before
      have partition : ∀ {ts es}, Partition (before ++ (String.ofList text).toList) rest ts es →
          Partition before ((String.ofList text).toList ++ rest)
            (⟨k,.ofList text,literal,.behind before⟩ :: ts) es := .token stands
      simp only [String.toList_ofList] at partition
      exact partition later

/-- Only the last token of a partition is the end of the text. -/
theorem Partition.ended {before rest : List Char} {ts : List Token} {es : List Diagnostic}
    (h : Partition before rest ts es) :
    ∃ words, ts = words ++ [⟨.eof,"",none,.behind (before ++ rest)⟩] ∧ ∀ t ∈ words, t.kind ≠ .eof := by
  induction h with
  | finish => exact ⟨[],by simp,by simp⟩
  | unterminated => exact ⟨[],by simp,by simp⟩
  | blank _ _ ih | stray _ _ ih | comment _ _ _ ih => simpa using ih
  | @token before rest t ts es stands _ ih =>
    obtain ⟨words,rfl,others⟩ := ih
    refine ⟨t :: words,by simp,List.forall_mem_cons.mpr ⟨?_,others⟩⟩
    intro eof
    have lexeme := stands.lexeme
    rw [eof] at lexeme
    cases lexeme with
    | fixed other => exact other rfl

end Lox
