import Lox.Proofs.Ast.Lockstep

/-! # Texts of two sources

A line feed keeps two texts apart: when the first one leaves no string open, the pieces of both
together are those of the one, the line feed and those of the other. The tokens of the second
stand so many lines further down.
-/
namespace Lox

/-! ## Pieces -/

namespace Piece

def isUnterminated : Piece → Bool
  | unterminated _ => true
  | _ => false

section
variable {p : Char → Bool} (ds : List Char)

theorem takeWhile_append_of_break (cs : List Char) {d : Char} (h : p d = false) :
    (cs ++ d :: ds).takeWhile p = cs.takeWhile p := by
  induction cs with
  | nil => simp [h]
  | cons c cs ih => simp only [List.cons_append,List.takeWhile_cons,ih]

theorem dropWhile_append_of_break (cs : List Char) {d : Char} (h : p d = false) :
    (cs ++ d :: ds).dropWhile p = cs.dropWhile p ++ d :: ds := by
  induction cs with
  | nil => simp [h]
  | cons c cs ih =>
    simp only [List.cons_append,List.dropWhile_cons,ih]
    split <;> rfl

end

theorem string_append {cs : List Char} (ds : List Char) (h : (string cs).1.isUnterminated = false) :
    string (cs ++ ds) = ((string cs).1,(string cs).2 ++ ds) := by
  have parts := List.takeWhile_append_dropWhile (p := (· ≠ '"')) (l := cs)
  simp only [string,List.takeWhile_append,List.dropWhile_append] at h ⊢
  generalize cs.takeWhile (· ≠ '"') = body,cs.dropWhile (· ≠ '"') = rest at parts h ⊢
  cases rest with
  | nil => cases h
  | cons close rest =>
    subst parts
    simp

theorem number_append (cs ds : List Char) :
    number (cs ++ '\n' :: ds) = ((number cs).1,(number cs).2 ++ '\n' :: ds) := by
  have take := fun cs => takeWhile_append_of_break (p := Char.isDigit) ds cs (d := '\n') (by decide)
  have drop := fun cs => dropWhile_append_of_break (p := Char.isDigit) ds cs (d := '\n') (by decide)
  simp only [number,take,drop]
  generalize cs.dropWhile Char.isDigit = rest
  rcases rest with _ | ⟨c,rest⟩
  · rfl
  by_cases dot : c = '.'
  · subst dot
    rcases rest with _ | ⟨d,rest⟩
    · rfl
    have take := take (d :: rest)
    have drop := drop (d :: rest)
    simp only [List.cons_append] at take drop ⊢
    split
    · rw [take,drop]
      rfl
    · rfl
  · rcases rest with _ | ⟨d,rest⟩ <;> simp [dot,numeral]

theorem word_append (cs ds : List Char) :
    word (cs ++ '\n' :: ds) = ((word cs).1,(word cs).2 ++ '\n' :: ds) := by
  simp only [word,takeWhile_append_of_break (p := isWordChar) ds cs (d := '\n') (by decide),
    dropWhile_append_of_break (p := isWordChar) ds cs (d := '\n') (by decide)]

theorem first_append {c : Char} {cs : List Char} (ds : List Char)
    (h : (first c cs).1.isUnterminated = false) :
    first c (cs ++ '\n' :: ds) = ((first c cs).1,(first c cs).2 ++ '\n' :: ds) := by
  simp only [first] at h ⊢
  split
  · rfl
  next blank =>
  rw [if_neg blank] at h
  split
  · rcases cs with _ | ⟨d,cs⟩
    · rfl
    by_cases comment : d = '/'
    · subst comment
      have take := takeWhile_append_of_break (p := (· ≠ '\n')) ds ('/' :: cs) (d := '\n') (by decide)
      have drop := dropWhile_append_of_break (p := (· ≠ '\n')) ds ('/' :: cs) (d := '\n') (by decide)
      simp only [List.cons_append] at take drop ⊢
      rw [take,drop]
    · simp [comment]
  next slash =>
  rw [if_neg slash] at h
  split
  · next quote =>
    rw [if_pos quote] at h
    exact string_append _ h
  split
  · exact number_append (c :: cs) ds
  split
  · exact word_append (c :: cs) ds
  · generalize pair? c = pair,single? c = single
    rcases cs with _ | ⟨d,cs⟩
    · cases pair <;> cases single <;> rfl
    by_cases equals : d = '='
    · subst equals
      cases pair <;> cases single <;> rfl
    · cases pair <;> cases single <;> simp [equals]

end Piece

/-- Texts on lines of their own have their own pieces. -/
theorem pieces_append (cs ds : List Char) (h : ∀ x ∈ pieces cs, x.isUnterminated = false) :
    pieces (cs ++ '\n' :: ds) = pieces cs ++ .blank '\n' :: pieces ds := by
  fun_induction pieces cs with
  | case1 =>
    rw [List.nil_append,pieces_cons]
    rfl
  | case2 c cs ih =>
    rw [List.forall_mem_cons] at h
    rw [List.cons_append,pieces_cons,Piece.first_append ds h.1,List.cons_append,← ih h.2]

/-! ## Tokens -/

/-- No piece is the token for the end. -/
def Piece.isWord : Piece → Prop
  | .token kind _ _ => kind ≠ .eof
  | _ => True

theorem Token.Kind.ofWord_ne_eof (word : String) : Token.Kind.ofWord word ≠ .eof := by
  simp only [ofWord]
  cases e : keywords.find? fun k => k.spelling? == some word with
  | none => simp
  | some k =>
    have hk := List.mem_of_find?_eq_some e
    intro h
    subst h
    simp [keywords] at hk

theorem Piece.pair_ne_eof {c : Char} {k l : Token.Kind} (h : pair? c = some (k,l)) :
    k ≠ .eof ∧ l ≠ .eof := by
  simp only [pair?] at h
  split at h <;> cases h <;> decide

theorem Piece.single_ne_eof {c : Char} {k : Token.Kind} (h : single? c = some k) : k ≠ .eof := by
  simp only [single?] at h
  split at h <;> cases h <;> decide

theorem Piece.isWord_first (c : Char) (cs : List Char) : (first c cs).1.isWord := by
  simp only [first]
  split
  · trivial
  split
  · split
    · trivial
    · simp [isWord]
  split
  · simp only [string]
    split <;> simp [isWord]
  split
  · simp only [number]
    split
    · split <;> simp [numeral,isWord]
    · simp [numeral,isWord]
  split
  · exact Token.Kind.ofWord_ne_eof _
  · have pairs := @pair_ne_eof c
    have singles := @single_ne_eof c
    generalize pair? c = pair,single? c = single at pairs singles
    split
    · exact (pairs rfl).1
    · exact (pairs rfl).2
    · exact singles rfl
    · trivial

theorem isWord_of_mem_pieces {cs : List Char} {x : Piece} (h : x ∈ pieces cs) : x.isWord := by
  fun_induction pieces cs with
  | case1 => cases h
  | case2 c cs ih =>
    rcases List.mem_cons.mp h with rfl | h
    · exact Piece.isWord_first c cs
    · exact ih h

/-- The tokens of some pieces, and those of more pieces behind them. -/
theorem tokensFrom_append {ps : List Piece} (words : ∀ x ∈ ps, x.isWord) (p : Pos) :
    ∃ ts e, tokensFrom p ps = ts ++ [e] ∧ Parser.Ended (ts ++ [e]) ∧ ∀ qs,
      tokensFrom p (ps ++ qs) = ts ++ tokensFrom (p.after (ps.flatMap Piece.text)) qs := by
  induction ps generalizing p with
  | nil => exact ⟨[],_,rfl,⟨[],_,rfl,rfl,fun _ h => absurd h List.not_mem_nil⟩,fun _ => rfl⟩
  | cons x ps ih =>
    rw [List.forall_mem_cons] at words
    obtain ⟨ts,e,eq,ended,more⟩ := ih words.2 (p.after x.text)
    have after : ∀ qs, tokensFrom (p.after x.text) (ps ++ qs) =
        ts ++ tokensFrom (p.after ((x :: ps).flatMap Piece.text)) qs := by
      intro qs
      rw [more,List.flatMap_cons,Pos.after_append]
    cases x with
    | token kind text literal =>
      refine ⟨⟨kind,String.ofList text,literal,p⟩ :: ts,e,?_,ended.cons words.1,fun qs => ?_⟩
      · simp only [tokensFrom,eq,List.cons_append]
      · simp only [List.cons_append,tokensFrom,after]
    | blank c => exact ⟨ts,e,by simp only [tokensFrom,eq],ended,fun qs => after qs⟩
    | comment c => exact ⟨ts,e,by simp only [tokensFrom,eq],ended,fun qs => after qs⟩
    | stray c => exact ⟨ts,e,by simp only [tokensFrom,eq],ended,fun qs => after qs⟩
    | unterminated c => exact ⟨ts,e,by simp only [tokensFrom,eq],ended,fun qs => after qs⟩

theorem scanErrorsFrom_append (p : Pos) (ps qs : List Piece) :
    scanErrorsFrom p (ps ++ qs) =
      scanErrorsFrom p ps ++ scanErrorsFrom (p.after (ps.flatMap Piece.text)) qs := by
  induction ps generalizing p with
  | nil => rfl
  | cons x ps ih =>
    rw [List.flatMap_cons,Pos.after_append]
    cases x <;> simp only [List.cons_append,scanErrorsFrom,ih]

theorem terminated_of_no_errors {p : Pos} {ps : List Piece} (h : scanErrorsFrom p ps = []) :
    ∀ x ∈ ps, x.isUnterminated = false := by
  induction ps generalizing p with
  | nil => exact fun _ h => absurd h List.not_mem_nil
  | cons x ps ih =>
    cases x with
    | stray c => simp [scanErrorsFrom] at h
    | unterminated cs => simp [scanErrorsFrom] at h
    | _ => exact List.forall_mem_cons.mpr ⟨rfl,ih h⟩

/-! ## Positions -/

/-- The position so many lines further down. -/
def Pos.down (k : Nat) (p : Pos) : Pos := ⟨p.line + k,p.column⟩

def Token.down (k : Nat) (t : Token) : Token := { t with pos := t.pos.down k }

theorem Pos.after_down (k : Nat) (p : Pos) (cs : List Char) :
    (p.down k).after cs = (p.after cs).down k := by
  induction cs generalizing p with
  | nil => rfl
  | cons c cs ih =>
    have next : (p.down k).next c = (p.next c).down k := by
      simp only [Pos.next,down]
      split <;> simp [Nat.add_right_comm]
    rw [after_cons,after_cons,next,ih]

theorem tokensFrom_down (k : Nat) (p : Pos) (ps : List Piece) :
    tokensFrom (p.down k) ps = (tokensFrom p ps).map (·.down k) := by
  induction ps generalizing p with
  | nil => rfl
  | cons x ps ih =>
    cases x <;> simp only [tokensFrom,Pos.after_down,ih,List.map_cons]
    rfl

theorem scanErrorsFrom_down (k : Nat) (p : Pos) (ps : List Piece) :
    scanErrorsFrom (p.down k) ps =
      (scanErrorsFrom p ps).map fun d => { d with pos := d.pos.down k } := by
  induction ps generalizing p with
  | nil => rfl
  | cons x ps ih => cases x <;> simp only [scanErrorsFrom,Pos.after_down,ih,List.map_cons]

/-! ## Sources -/

/-- The lines that a text and a line feed take. -/
def Text.height (source : String) : Nat := source.toList.count '\n' + 1

/-- The text of two sources, each on lines of its own. -/
def Text.joined (a b : String) : String := a ++ "\n" ++ b

/-- The tokens of two sources without scan errors make up the tokens of both. -/
theorem scan_joined {a b : String} (ha : (scan a).errors = []) (hb : (scan b).errors = []) :
    (scan (Text.joined a b)).errors = [] ∧ ∃ ts e us f, (scan a).tokens = ts ++ [e] ∧
      Parser.Ended (ts ++ [e]) ∧ (scan b).tokens = us ++ [f] ∧ Parser.Ended (us ++ [f]) ∧
      (scan (Text.joined a b)).tokens = ts ++ (us ++ [f]).map (·.down (Text.height a)) := by
  simp only [scan] at ha hb ⊢
  have text : (Text.joined a b).toList = a.toList ++ '\n' :: b.toList := by
    simp [Text.joined]
  have behind : (Pos.start.after a.toList).next '\n' = Pos.start.down (Text.height a) := by
    simp [Pos.next,Pos.down,Pos.line_after,Pos.start,Text.height,Nat.add_comm]
  obtain ⟨ts,e,eq,ended,more⟩ :=
    tokensFrom_append (fun x (hx : x ∈ pieces a.toList) => isWord_of_mem_pieces hx) .start
  obtain ⟨us,f,eq',ended',-⟩ :=
    tokensFrom_append (fun x (hx : x ∈ pieces b.toList) => isWord_of_mem_pieces hx) .start
  rw [text,pieces_append _ _ (terminated_of_no_errors ha)]
  refine ⟨?_,ts,e,us,f,eq,ended,eq',ended',?_⟩
  · rw [scanErrorsFrom_append,ha,pieces_text]
    show scanErrorsFrom ((Pos.start.after a.toList).next '\n') (pieces b.toList) = []
    rw [behind,scanErrorsFrom_down,hb,List.map_nil]
  · rw [more,pieces_text,← eq',← tokensFrom_down,← behind]
    rfl

end Lox
