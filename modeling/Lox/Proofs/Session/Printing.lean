import Lox.Proofs.Ast.Restored
import Lox.Proofs.Session.Compilation

/-! # Parsing and rendering

Rendering and parsing undo each other: the tokens of a program of the grammar are read as that
program, and a source that is read without errors has the tokens of its program and no others.
-/
open Lox.Parser

namespace Lox

/-- The words of a program of the grammar are read as that program to the end. -/
theorem whole_words {p : Program} (h : p.Grammatical) {ts : List Token} {e : Token}
    (words : ts.map Token.word = p.words) (last : e.kind = .eof) :
    ∃ q t, whole (ts ++ [e]) = .ok q t ∧ t.rest = [e] ∧ t.errors = [] ∧ BodyAlike Anywhere p.unresolved q := by
  have ahead : Ahead (.before (ts ++ [e])) p.words [e] :=
    ⟨List.cons_ne_nil e [],ts,rfl,words⟩
  have enough : 8 * p.words.length + 4 ≤ enough (ts ++ [e]).length := by
    have size : p.words.length = ts.length := by rw [← words,List.length_map]
    simp only [Parser.enough,size,List.length_append,List.length_singleton]
    omega
  exact (statementsRestored _).declarations h ahead (.inl last) enough

theorem parseScan_of_whole {ts : List Token} {p : Program} {t : State} (e : whole ts = .ok p t)
    (silent : t.errors = []) : parseScan ⟨ts,[]⟩ = ⟨p,[]⟩ := by
  simp only [whole,State.before] at e
  simp only [parseScan,e,silent,List.reverse_nil,List.append_nil,Diagnostic.sort_eq_nil.mpr]

/-- The words of a program of the grammar are read as that program, up to positions and before its
names are resolved, in silence and to the end. -/
theorem parse_words {p : Program} (h : p.Grammatical) {ts : List Token} {e : Token}
    (words : ts.map Token.word = p.words) (last : e.kind = .eof) :
    ∃ q t, whole (ts ++ [e]) = .ok q t ∧ t.rest = [e] ∧ parseScan ⟨ts ++ [e],[]⟩ = ⟨q,[]⟩ ∧
      BodyAlike Anywhere p.unresolved q := by
  obtain ⟨q,t,eq,rest,silent,like⟩ := whole_words h words last
  exact ⟨q,t,eq,rest,parseScan_of_whole eq silent,like⟩

/-- A source whose tokens are the words of a program of the grammar is read as that program. -/
theorem parse_of_words {source : String} {p : Program} (h : p.Grammatical) (silent : (scan source).errors = [])
    (words : (scan source).tokens.map Token.word = p.words ++ [.fixed .eof]) :
    (parse source).errors = [] ∧ BodyAlike Anywhere p.unresolved (parse source).program := by
  obtain ⟨ts,rest,tokens,words,ending⟩ := List.map_eq_append_iff.mp words
  obtain ⟨e,rfl,eof⟩ := List.map_eq_singleton_iff.mp ending
  obtain ⟨q,t,eq,-,quiet,like⟩ := whole_words h words (congrArg Word.kind eof)
  rw [← tokens] at eq
  rw [parse_of_whole eq,silent,quiet]
  exact ⟨Diagnostic.sort_eq_nil.mpr rfl,like⟩

/-- A `for` with its three clauses, a branch whose `else` belongs to the inner one, an assignment to
a property of the result of a call, and a subclass with a method. -/
def winding : Program :=
  let at_ : Pos := .start
  let name (text : String) : Name := ⟨text,at_⟩
  let use (text : String) : Expr := .var ⟨name text,none⟩
  let number (text : String) : Expr := .literal (.number 1 text) at_
  [.block at_ .clauses
    [.var (name "i") (some (number "0")),
      .loop at_ .clauses (.binary (use "i") .less at_ (.unary .minus at_ (number "2")))
        (.branch at_ (.logical (use "a") .or at_ (.logical (use "b") .and at_ (use "c")))
          (.branch at_ (.this at_ none) (.expression (use "i")) (some (.jump at_ .next))) none)
        (some (.set (.call (.get (use "i") (name "f")) at_ [use "a",number "1"]) (name "g")
          (.assign ⟨name "a",none⟩ (.grouping at_ (.assign ⟨name "b",none⟩ (use "c"))))))],
    .klass (name "A") (some ⟨name "B",none⟩)
      [⟨name "m",[name "x",name "y"],[.leave at_ (some (.super at_ (name "m") none))]⟩]]

theorem parse_words_winding : winding.Grammatical ∧
    ∃ q t, whole (winding.words.map (·.at .start) ++ [default]) = .ok q t ∧ t.rest = [default] ∧
      parseScan ⟨winding.words.map (·.at .start) ++ [default],[]⟩ = ⟨q,[]⟩ ∧
      BodyAlike Anywhere winding.unresolved q := by
  have grammatical : winding.Grammatical := by
    simp [winding,Program.Grammatical,GrammaticalList,GrammaticalClauses,GrammaticalMethods,
      Stmt.Grammatical,Stmt.IsInitializer,Stmt.IsDeclaration,Stmt.TakesElse,Routine.Grammatical,
      Expr.Grammatical,Expr.GrammaticalOption,Expr.GrammaticalClause,Expr.GrammaticalArguments,
      Expr.level,BinaryOp.level,LogicalOp.level,Expr.unaryLevel,Expr.callLevel,maxArguments]
  have words : (winding.words.map (·.at .start)).map Token.word = winding.words := by
    simp [Function.comp_def]
  exact ⟨grammatical,parse_words grammatical words rfl⟩

/-- Tokens that are read in silence are the words of the program they are read as. -/
theorem words_whole {ts : List Token} {p : Program} {t : State} (ended : Ended ts)
    (spelled : ∀ t ∈ ts, t.word.Spelled) (e : whole ts = .ok p t) (silent : t.errors = []) :
    ts.map Token.word = p.words ++ [.fixed .eof] ∧ p.Grammatical := by
  have reads : Reads (State.before ts).rest.length 0 (.before ts)
      (declarations (enough ts.length) false) fun body t =>
        Between (.before ts) (statementWords body) t ∧ GrammaticalList body ∧
          (false = false → t.peek.kind = .eof) :=
    (sentencesRead _).declarations (enough_before ts) ended
  have spelled : (State.before ts).Spelled := spelled
  obtain ⟨between,grammatical,finish⟩ := reads.tells spelled e (by simp [silent])
  have gets := reads.gets
  rw [show declarations (enough ts.length) false (.before ts) = _ from e] at gets
  cases gets with
  | ok on _ =>
    have eof : t.peek.word = .fixed .eof :=
      ((spelled.onward on).peek on.ended).eq_fixed (finish rfl) (by decide)
    have last : t.rest = [t.peek] := by
      have pos := on.ended.pos
      have few := on.ended.le_one (finish rfl)
      obtain ⟨u,rest⟩ := List.length_eq_one_iff.mp (Nat.le_antisymm few pos)
      simp [State.peek,rest]
    have words : ts.map Token.word = statementWords p ++ t.rest.map Token.word := between
    rw [last,List.map_singleton,eof] at words
    exact ⟨words,grammatical⟩

/-- A source that is read without errors is the rendering of its program, up to the token for the
end, and its program is one of the grammar. -/
theorem words_parse {source : String} (h : (parse source).errors = []) :
    (scan source).tokens.map Token.word = (parse source).program.words ++ [.fixed .eof] ∧
      (parse source).program.Grammatical := by
  obtain ⟨-,t,e,silent⟩ := whole_of_parse h
  exact words_whole (ended_scan source) (spelled_scan source) e silent

/-- A `for` without a condition, a branch whose `else` belongs to the inner one, and a subclass. -/
def meander : String :=
  "for (var i = 0; ; i = i + 1) if (i > 2) if (a) break; else \x7b f(i).x = -1; \x7d
class A < B \x7b m(x,y) \x7b return super.m; \x7d \x7d"

theorem words_parse_meander : (parse meander).errors = [] ∧
    (scan meander).tokens.map Token.word = (parse meander).program.words ++ [.fixed .eof] ∧
      (parse meander).program.Grammatical := by
  have quiet : (parse meander).errors = [] := by decide +kernel
  exact ⟨quiet,words_parse quiet⟩

end Lox
