import Lox.Ast.Rendering
import Lox.Token.Scanner

/-! # Spelling

The scanner spells every word as its kind is written: a kind with one text has that text and no
value, an identifier is no keyword, and numbers and strings have the value that they stand for.
-/
namespace Lox

namespace Token

/-- Keywords are the words of their own kind. -/
theorem Kind.ofWord_keyword {text : String} {k : Kind} (h : keywords.find? (fun k =>
    k.spelling? == some text) = some k) : k ∈ keywords ∧ text = k.spelling := by
  have found := List.find?_some h
  have member := List.mem_of_find?_eq_some h
  rw [beq_iff_eq] at found
  exact ⟨member,by rw [spelling,found,Option.getD_some]⟩

end Token

namespace Word

/-- How the words of each kind are written, and the value they have. -/
structure Spelled (w : Word) : Prop where
  fixed : w.kind.spelling? ≠ none → w = Word.fixed w.kind
  identifier : w.kind = .identifier → Token.Kind.ofWord w.lexeme = .identifier ∧ w.literal = none
  number : w.kind = .number → ∃ x, w.literal = some (.number x)
  string : w.kind = .string → ∃ s, w.lexeme = "\"" ++ s ++ "\"" ∧ w.literal = some (.string s)

theorem spelled_fixed {k : Token.Kind} (one : k.spelling? ≠ none) : (Word.fixed k).Spelled where
  fixed _ := rfl
  identifier h := absurd (by rw [show k = .identifier from h]; rfl) one
  number h := absurd (by rw [show k = .number from h]; rfl) one
  string h := absurd (by rw [show k = .string from h]; rfl) one

theorem Spelled.eq_fixed {w : Word} {k : Token.Kind} (h : w.Spelled) (kind : w.kind = k)
    (one : k.spelling? ≠ none) : w = Word.fixed k := by
  subst kind
  exact h.fixed one

theorem Spelled.eq_identifier {w : Word} (h : w.Spelled) (kind : w.kind = .identifier) :
    w = Word.identifier w.lexeme := by
  have value := (h.identifier kind).2
  obtain ⟨_,lexeme,literal⟩ := w
  cases kind
  cases value
  rfl

/-- A word is spelled as a keyword or as an identifier. -/
theorem spelled_ofWord (text : String) : Spelled ⟨.ofWord text,text,none⟩ := by
  cases h : Token.Kind.keywords.find? fun k => k.spelling? == some text with
  | none =>
    have kind : Token.Kind.ofWord text = .identifier := by rw [Token.Kind.ofWord,h]; rfl
    rw [kind]
    exact ⟨fun one => absurd rfl one,fun _ => ⟨kind,rfl⟩,nofun,nofun⟩
  | some k =>
    obtain ⟨member,rfl⟩ := Token.Kind.ofWord_keyword h
    have kind : Token.Kind.ofWord k.spelling = k := by rw [Token.Kind.ofWord,h]; rfl
    have one : k.spelling? ≠ none := by
      revert k
      decide
    rw [kind]
    exact spelled_fixed one

end Word

namespace Piece

/-- The words of a piece: a gap has none. -/
def Spelled : Piece → Prop
  | token kind text literal => Word.Spelled ⟨kind,String.ofList text,literal⟩
  | _ => True

theorem spelled_string (cs : List Char) : (string cs).1.Spelled := by
  simp only [string]
  split
  · trivial
  · next close rest h =>
    have quote : close = '"' := by
      have := List.head?_dropWhile_not (p := (· ≠ '"')) cs
      rw [h] at this
      simpa using this
    have text : String.ofList ('"' :: cs.takeWhile (· ≠ '"') ++ [close]) =
        "\"" ++ String.ofList (cs.takeWhile (· ≠ '"')) ++ "\"" := by
      simp [String.ext_iff,quote]
    exact ⟨fun one => absurd rfl one,nofun,nofun,fun _ => ⟨_,text,rfl⟩⟩

theorem spelled_number (cs : List Char) : (number cs).1.Spelled := by
  have numeral : ∀ text rest, (numeral text rest).1.Spelled := fun _ _ =>
    ⟨fun one => absurd rfl one,nofun,fun _ => ⟨_,rfl⟩,nofun⟩
  simp only [number]
  split
  · split <;> exact numeral _ _
  · exact numeral _ _

theorem spelled_first (c : Char) (cs : List Char) : (first c cs).1.Spelled := by
  have mark : ∀ {k : Token.Kind} {text : List Char}, k.spelling? = some (String.ofList text) →
      Spelled (token k text none) := by
    intro k text h
    have word : (⟨k,String.ofList text,none⟩ : Word) = Word.fixed k := by
      rw [Word.fixed,Token.Kind.spelling,h,Option.getD_some]
    show Word.Spelled _
    rw [word]
    exact Word.spelled_fixed (by simp [h])
  simp only [first]
  split
  · trivial
  split
  · next h =>
    subst h
    split
    · trivial
    · exact mark rfl
  split
  · exact spelled_string cs
  split
  · exact spelled_number (c :: cs)
  split
  · exact Word.spelled_ofWord _
  · split
    · next h =>
      simp only [pair?] at h
      split at h <;> cases h <;> exact mark rfl
    · next h _ =>
      simp only [pair?] at h
      split at h <;> cases h <;> exact mark rfl
    · next h =>
      simp only [single?] at h
      split at h <;> cases h <;> exact mark rfl
    · trivial

end Piece

theorem spelled_of_mem_pieces {cs : List Char} {x : Piece} (h : x ∈ pieces cs) : x.Spelled := by
  fun_induction pieces cs with
  | case1 => cases h
  | case2 c cs ih =>
    rcases List.mem_cons.mp h with rfl | h
    · exact Piece.spelled_first c cs
    · exact ih h

theorem spelled_tokensFrom {ps : List Piece} (h : ∀ x ∈ ps, x.Spelled) (p : Pos) :
    ∀ t ∈ tokensFrom p ps, t.word.Spelled := by
  induction ps generalizing p with
  | nil =>
    intro t ht
    rw [tokensFrom,List.mem_singleton] at ht
    subst ht
    exact Word.spelled_fixed (k := .eof) (by decide)
  | cons x ps ih =>
    obtain ⟨first,rest⟩ := List.forall_mem_cons.mp h
    have others := ih rest (p.after x.text)
    cases x with
    | token kind text literal => exact List.forall_mem_cons.mpr ⟨first,others⟩
    | _ => exact others

/-- Every token of a source is spelled as its kind is written. -/
theorem spelled_scan (source : String) : ∀ t ∈ (scan source).tokens, t.word.Spelled :=
  spelled_tokensFrom (fun _ h => spelled_of_mem_pieces h) .start

end Lox
