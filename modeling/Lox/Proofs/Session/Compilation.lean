import Lox.Proofs.Ast.Joining
import Lox.Proofs.Scope.Likeness
import Lox.Proofs.Token.Joining
import Lox.Session

/-! # Compilation of two sources

The text of two sources without static errors compiles to the programs of both, one after the
other, up to the lines of the second.
-/
open Lox.Parser

namespace Lox

theorem Diagnostic.sort_eq_nil {ds : List Diagnostic} : Diagnostic.sort ds = [] ↔ ds = [] := by
  rw [← List.length_eq_zero_iff,← List.length_eq_zero_iff,sort,List.length_mergeSort]

theorem parse_of_whole {source : String} {p : Program} {t : State}
    (ep : whole (scan source).tokens = .ok p t) : parse source =
      ⟨p,Diagnostic.sort ((scan source).errors ++ t.errors.reverse)⟩ := by
  simp only [whole,State.before] at ep
  simp only [parse,parseScan,ep]

theorem ended_scan (source : String) : Ended (scan source).tokens := by
  obtain ⟨ts,e,eq,ended,-⟩ :=
    tokensFrom_append (fun x (hx : x ∈ pieces source.toList) => isWord_of_mem_pieces hx) .start
  rw [scan,eq]
  exact ended

/-- A source without syntax errors is read to its end in silence. -/
theorem whole_of_parse {source : String} (h : (parse source).errors = []) :
    (scan source).errors = [] ∧ ∃ t, whole (scan source).tokens = .ok (parse source).program t ∧
      t.errors = [] := by
  obtain ⟨p,t,ep⟩ : ∃ p t, whole (scan source).tokens = .ok p t := by
    obtain ⟨p,t,ep,-⟩ := declarations_eq_ok (enough_before (scan source).tokens) (ended_scan source)
    exact ⟨p,t,ep⟩
  have eq := parse_of_whole ep
  rw [eq] at h ⊢
  rw [Diagnostic.sort_eq_nil,List.append_eq_nil_iff,List.reverse_eq_nil_iff] at h
  exact ⟨h.1,t,ep,h.2⟩

theorem compile_eq_nil {source : String} (h : (compile source).errors = []) :
    (parse source).errors = [] ∧ (parse source).program.scopeErrors = [] ∧
      (compile source).program = (parse source).program.resolve := by
  simp only [compile] at h ⊢
  split at h
  · next quiet => exact ⟨List.isEmpty_iff.mp quiet,h,by rw [if_pos quiet]⟩
  · next loud => exact absurd (List.isEmpty_iff.mpr h) loud

/-- Where the tokens of two sources stand in the text of both: a token of the second one stands
below the first. -/
def Moved (a b : String) (p q : Pos) : Prop :=
  q = p ∨ (∃ t ∈ (scan b).tokens, t.pos = p) ∧ q = p.down (Text.height a)

instance (a b : String) : Std.Refl (Moved a b) := ⟨fun _ => .inl rfl⟩

/-- Two sources without static errors compile together to both programs. -/
theorem compile_joined {a b : String} (ha : (compile a).errors = []) (hb : (compile b).errors = []) :
    (compile (Text.joined a b)).errors = [] ∧
      BodyAlike (Moved a b) ((compile a).program ++ (compile b).program)
        (compile (Text.joined a b)).program := by
  obtain ⟨ha,scopesA,programA⟩ := compile_eq_nil ha
  obtain ⟨hb,scopesB,programB⟩ := compile_eq_nil hb
  obtain ⟨scanA,t,wholeA,quietA⟩ := whole_of_parse ha
  obtain ⟨scanB,u,wholeB,quietB⟩ := whole_of_parse hb
  obtain ⟨quiet,ts,e,us,f,tokensA,endedA,tokensB,endedB,tokens⟩ := scan_joined scanA scanB
  have below : ∀ t ∈ us ++ [f], Token.Alike (Moved a b) t (t.down (Text.height a)) := fun t ht =>
    ⟨rfl,rfl,rfl,.inr ⟨⟨t,tokensB ▸ ht,rfl⟩,rfl⟩⟩
  have right : List.Forall₂ (Token.Alike (Moved a b)) us (us.map (·.down (Text.height a))) :=
    List.forall₂_map_right_iff.mpr
      (List.forall₂_same.mpr fun t ht => below t (List.mem_append_left _ ht))
  have last := below f (List.mem_append_right us (List.mem_singleton.mpr rfl))
  rw [tokensA] at wholeA
  rw [tokensB] at wholeB
  obtain ⟨r,v,whole,silent,body⟩ := whole_joined endedA endedB (Std.Refl.refl ts) right last wholeA
    quietA wholeB quietB
  rw [List.map_append,List.map_singleton] at tokens
  rw [← tokens] at whole
  have parsed : parse (Text.joined a b) = ⟨r,[]⟩ := by
    rw [parse_of_whole whole,quiet,silent,List.reverse_nil,List.append_nil,Diagnostic.sort_eq_nil.mpr rfl]
  have scopes : r.scopeErrors = [] := by
    refine (BodyAlike.blockErrors {} body).eq_nil ?_
    have both := Program.scopeErrors_append (parse a).program (parse b).program
    rw [scopesA,scopesB] at both
    exact both
  have resolved := BodyAlike.resolve [] body
  have both := Program.resolve_append (parse a).program (parse b).program
  simp only [Program.resolve] at both programA programB
  rw [both,← programA,← programB] at resolved
  simp only [compile,parsed,List.isEmpty_nil,if_true]
  exact ⟨scopes,resolved⟩

end Lox
