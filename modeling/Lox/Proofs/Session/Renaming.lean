import Lox.Proofs.Scope.Renamed
import Lox.Proofs.Scope.Unresolved
import Lox.Proofs.Session.Increments
import Lox.Proofs.Session.Scoping
import Mathlib

/-! # Renaming of variables in sources

A variable may be called otherwise. The scopes that declare it are picked, and it gets a new name
there together with the uses that are resolved to it, in place. The source that is read as the
renamed program compiles with the same depths and runs as the original does, but for the name in the
message about an undefined variable.
-/
namespace Lox
open Machine Lox.Parser

/-- The program in which a variable has another name in the scopes that are picked. -/
def Program.renamed (pick : Origin → Bool) (x y : String) (p : Program) : Program :=
  respellAll (.swapping pick x y) [] p

def SameLine (p q : Pos) : Prop := p.line = q.line

instance : Std.Refl SameLine := ⟨fun _ => rfl⟩

/-- A source is read as a program, each node on its line. -/
structure ReadAs (source : String) (p : Program) : Prop where
  quiet : (parse source).errors = []
  like : BodyAlike SameLine p.unresolved (parse source).program

/-- Two endings are the same up to columns and the name of an undefined variable. -/
inductive Session.Ending.Renamed (x y : String) : Session.Ending → Session.Ending → Prop
  | done : Renamed x y (.result {}) (.result {})
  | error {c p q file} : SameLine p q →
      Renamed x y (.result { runtimeError := some ⟨c,p⟩, errorFile := file })
        (.result { runtimeError := some ⟨c,q⟩, errorFile := file })
  | undefined {p q file} : SameLine p q →
      Renamed x y (.result { runtimeError := some ⟨.undefinedVariable x,p⟩, errorFile := file })
        (.result { runtimeError := some ⟨.undefinedVariable y,q⟩, errorFile := file })
  | fault (f : Fault) : Renamed x y (.fault f) (.fault f)
  | cut : Renamed x y .cut .cut

/-! ## Copies with another name -/

section
variable {pick : Origin → Bool} {x y : String}

/-- Copies in which a variable has another name. The new name is none that programs use. -/
def Guise.renaming (renames : (Spelling.swapping pick x y).Renames x y) (inner : pick .world = false) :
    Guise where
  move := id
  ascending := strictMono_id
  spelling := .swapping pick x y
  plain name := by simp [Spelling.swapping,inner]
  this := renames.this
  super := renames.super
  use _ e := e.Naming (· ≠ y)
  named name := name ≠ y
  assigned := id
  made _ _ := True

/-- Copies in place in which a variable has another name. -/
def Copying.renaming (renames : (Spelling.swapping pick x y).Renames x y) (inner : pick .world = false) :
    Copying := inPlace (.renaming renames inner) fun _ => rfl

variable {renames : (Spelling.swapping pick x y).Renames x y} {inner : pick .world = false}

/-- Causes differ only in the name of an undefined variable. -/
theorem Copying.cause_renamed {c d : RuntimeError.Cause}
    (fails : (Copying.renaming renames inner).Fails (.cause c) (.cause d)) :
    d = c ∨ c = .undefinedVariable x ∧ d = .undefinedVariable y := by
  cases fails with
  | cause => exact .inl rfl
  | @undefined name o named =>
    rcases renames.inScope o name named with same | ⟨rfl,new⟩
    · exact .inl (congrArg RuntimeError.Cause.undefinedVariable same)
    · exact .inr ⟨rfl,congrArg RuntimeError.Cause.undefinedVariable new⟩

theorem Copying.Outcomes.renamed {o p q : Outcome}
    (first : (Copying.renaming renames inner).Outcomes o p)
    (second : (paralleling SameLine).Outcomes p q) (file : Option String) :
    Session.Ending.Renamed x y (.ofOutcome file o) (.ofOutcome file q) := by
  cases first with
  | done => cases second with | done => exact .done
  | error pos fails =>
    cases second with
    | error line =>
      rcases cause_renamed fails with rfl | ⟨rfl,rfl⟩
      · exact .error line
      · exact .undefined line
  | fault => cases second; exact .fault _
  | cut => cases second with | cut => exact .cut

end

/-! ## Renamed sources -/

/-- A name that no token of a source is written as is not among the names of its program. -/
theorem named_of_fresh {a : String} (quiet : (parse a).errors = []) {y : String}
    (fresh : ∀ t ∈ (scan a).tokens, t.lexeme ≠ y) : BodyNamed (· ≠ y) (parse a).program := by
  obtain ⟨-,t,e,silent⟩ := whole_of_parse quiet
  obtain ⟨words,grammatical⟩ := words_whole (ended_scan a) (spelled_scan a) e silent
  refine bodyNamed_of_words _ grammatical fun w hw _ => ?_
  have among : w ∈ (scan a).tokens.map Token.word := words ▸ List.mem_append_left _ hw
  obtain ⟨t,ht,rfl⟩ := List.mem_map.mp among
  exact fresh t ht

section
variable {a : String} (clean : (compile a).errors = []) {pick : Origin → Bool} {x y : String}
  (declared : ∀ o, pick o → o.declares x) (old : Token.Kind.ofWord x = .identifier)
  (new : Token.Kind.ofWord y = .identifier) (fresh : ∀ t ∈ (scan a).tokens, t.lexeme ≠ y)

theorem Spelling.renames_of_words (pick : Origin → Bool) (old : Token.Kind.ofWord x = .identifier)
    (new : Token.Kind.ofWord y = .identifier) : (Spelling.swapping pick x y).Renames x y :=
  renames_swapping pick (ordinary_of_ofWord old) (ordinary_of_ofWord new)

include clean declared fresh

theorem keeps_of_compile : BodyKeeps (.swapping pick x y) [] (parse a).program.resolve := by
  obtain ⟨quiet,sound,-⟩ := compile_eq_nil clean
  exact bodyKeeps_resolve declared _ (named_of_fresh quiet fresh) sound fun _ _ _ _ => rfl

include old new

/-- The renamed program resolves to itself and has no errors of scope. -/
theorem compile_renamed : ((compile a).program.renamed pick x y).unresolved.scopeErrors = [] ∧
    ((compile a).program.renamed pick x y).unresolved.resolve =
      (compile a).program.renamed pick x y := by
  obtain ⟨quiet,sound,program⟩ := compile_eq_nil clean
  have renames := Spelling.renames_of_words pick old new
  have named := named_of_fresh quiet fresh
  have keeps := keeps_of_compile clean declared fresh
  rw [program,Program.scopeErrors_unresolved,Program.resolve_unresolved]
  exact ⟨Program.scopeErrors_respell renames named keeps sound,
    Program.resolve_respell renames named keeps⟩

/-- A machine that has just started runs the renamed program as it runs the original one. -/
theorem run_renamed {settings : Settings} {clock : Float} {m : Machine}
    (start : Machine.start settings clock = .ok m) (log : List String) (steps : Nat) :
    ∃ (renames : (Spelling.swapping pick x y).Renames x y) (inner : pick .world = false),
      (Copying.renaming renames inner).Outcomes
          (run steps (compile a).program { m with log }).1
          (run steps ((compile a).program.renamed pick x y) { m with log }).1 ∧
        (run steps ((compile a).program.renamed pick x y) { m with log }).2.output =
          (run steps (compile a).program { m with log }).2.output := by
  obtain ⟨quiet,-,program⟩ := compile_eq_nil clean
  have renames := Spelling.renames_of_words pick old new
  have inner : pick .world = false := by
    cases picked : pick .world with
    | false => rfl
    | true => exact absurd (declared _ picked) (by simp [Origin.declares])
  have covers : Covers (fun _ e => e.Naming (· ≠ y)) (Entry.sites ⟨a,"",0⟩) := by
    intro site hs _ _
    rw [Entry.sites,if_pos (List.isEmpty_iff.mpr clean),program] at hs
    exact (Program.settled_of_mem_sites (named_of_fresh quiet fresh) site hs).naming
  have fits := Entry.fits (e := ⟨a,"",0⟩) (List.isEmpty_iff.mpr clean) covers
  have keeps := keeps_of_compile clean declared fresh
  rw [← program] at keeps
  have fits := bodyFits_respelled (Γ := []) _ keeps fits
  obtain ⟨W,pair⟩ := Copying.pair_start (C := .renaming renames inner) trivial
    ⟨⟨fun i => by simp [blank],rfl⟩,(by rintro _ _ ⟨⟩)⟩ start
  have pair : (Copying.renaming renames inner).Pair W [] { m with log }
      { m with log } := { pair with log_eq := fun _ => rfl }
  obtain ⟨V,-,outcomes,pair⟩ := (Copying.faithful (fun _ _ => trivial) (nesting steps)).run fits pair
  exact ⟨renames,inner,outcomes,pair.output_eq⟩

/-- A local variable or parameter may be called otherwise. The renamed program compiles, with the same
depths, and so does what its words are read as. A source that is read so prints what the original
prints and ends as it does, in every fresh session and after any number of steps. -/
theorem renaming_invisible :
    (((compile a).program.renamed pick x y).unresolved.scopeErrors = [] ∧
      ((compile a).program.renamed pick x y).unresolved.resolve =
        (compile a).program.renamed pick x y) ∧
    (∀ (ts : List Token) (e : Token),
      ts.map Token.word = ((compile a).program.renamed pick x y).words → e.kind = .eof →
        ∃ q, parseScan ⟨ts ++ [e],[]⟩ = ⟨q,[]⟩ ∧
          BodyAlike Anywhere ((compile a).program.renamed pick x y).unresolved q) ∧
    ∀ b, ReadAs b ((compile a).program.renamed pick x y) →
      (compile b).errors = [] ∧
        BodyAlike SameLine ((compile a).program.renamed pick x y) (compile b).program ∧
        ∀ (settings : Settings) (clock : Float) (s : Session), Session.start settings clock = .ok s →
          ∀ (file : String) (steps : Nat),
            Session.Ending.Renamed x y (s.run a file steps).1 (s.run b file steps).1 ∧
              (s.run b file steps).2.machine.output = (s.run a file steps).2.machine.output := by
  have compiled := compile_renamed clean declared old new fresh
  obtain ⟨quiet,-,program⟩ := compile_eq_nil clean
  have grammatical : ((compile a).program.renamed pick x y).Grammatical := by
    rw [program]
    exact grammaticalList_respell _ [] [] _ (spells_of_parse quiet).1
  refine ⟨compiled,fun ts e words last => ?_,fun b read => ?_⟩
  · obtain ⟨q,t,eq,-,silent,like⟩ := whole_words grammatical words last
    exact ⟨q,parseScan_of_whole eq silent,like⟩
  · have sound : (parse b).program.scopeErrors = [] :=
      (BodyAlike.blockErrors {} read.like).eq_nil compiled.1
    have errors : (compile b).errors = [] := by simp [compile,read.quiet,sound]
    have like : BodyAlike SameLine ((compile a).program.renamed pick x y) (compile b).program := by
      have resolved : BodyAlike SameLine
          ((compile a).program.renamed pick x y).unresolved.resolve (parse b).program.resolve :=
        BodyAlike.resolve [] read.like
      rwa [compiled.2,← (compile_eq_nil errors).2.2] at resolved
    refine ⟨errors,like,fun settings clock s start file steps => ?_⟩
    obtain ⟨_,log,rfl,endA,machineA⟩ := s.run_eq a file steps
    obtain ⟨_,log',rfl,endB,machineB⟩ := s.run_eq b file steps
    rw [clean,List.isEmpty_nil,if_pos rfl] at endA machineA
    rw [errors,List.isEmpty_nil,if_pos rfl] at endB machineB
    obtain ⟨_,_,outcomes,output⟩ := run_renamed clean declared old new fresh
      (Session.machine_of_start start) log steps
    have twins : (paralleling SameLine).Twins [] { s.machine with log } { s.machine with log := log' } :=
      ⟨s.machine.heap,log',rfl,.refl _⟩
    obtain ⟨outcomes',twins⟩ := (Comparison.run_twins like twins steps).resolve_right fun h => h.1
    rw [endA,endB,machineA,machineB]
    exact ⟨outcomes.renamed outcomes' (some file),(Comparison.output_eq twins).trans output⟩

end

/-- The function prints its parameter, although a global variable is called like it. -/
theorem renaming_invisible_shadowing :
    (compile "var a; fun f(a)\x7bprint a;\x7d f(a);").errors = [] ∧
      ReadAs "var a; fun f(b)\x7bprint b;\x7d f(a);"
        ((compile "var a; fun f(a)\x7bprint a;\x7d f(a);").program.renamed (·.declares "a") "a" "b") ∧
      (compile "var a; fun f(b)\x7bprint b;\x7d f(a);").errors = [] ∧
      ∀ (settings : Settings) (clock : Float) (s : Session), Session.start settings clock = .ok s →
        ∀ (file : String) (steps : Nat),
          Session.Ending.Renamed "a" "b" (s.run "var a; fun f(a)\x7bprint a;\x7d f(a);" file steps).1
            (s.run "var a; fun f(b)\x7bprint b;\x7d f(a);" file steps).1 := by
  have clean : (compile "var a; fun f(a)\x7bprint a;\x7d f(a);").errors = [] := by decide +kernel
  have program : (compile "var a; fun f(a)\x7bprint a;\x7d f(a);").program =
      [.var ⟨"a",⟨1,5⟩⟩ none,
        .function ⟨⟨"f",⟨1,12⟩⟩,[⟨"a",⟨1,14⟩⟩],[.print ⟨1,17⟩ (.var ⟨⟨"a",⟨1,23⟩⟩,some 0⟩)]⟩,
        .expression (.call (.var ⟨⟨"f",⟨1,27⟩⟩,none⟩) ⟨1,30⟩ [.var ⟨⟨"a",⟨1,29⟩⟩,none⟩])] := by cbv
  have parsed : (parse "var a; fun f(b)\x7bprint b;\x7d f(a);").program =
      ((compile "var a; fun f(a)\x7bprint a;\x7d f(a);").program.renamed
        (·.declares "a") "a" "b").unresolved := by
    rw [program]
    cbv
  have read : ReadAs "var a; fun f(b)\x7bprint b;\x7d f(a);"
      ((compile "var a; fun f(a)\x7bprint a;\x7d f(a);").program.renamed (·.declares "a") "a" "b") := by
    refine ⟨by decide +kernel,?_⟩
    rw [parsed]
    exact .refl (fun p => (rfl : p.line = p.line)) _
  have declared : ∀ o : Origin, o.declares "a" → o.declares "a" := fun _ h => h
  have invisible := (renaming_invisible clean declared (y := "b") (by decide) (by decide)
    (by decide +kernel)).2.2 _ read
  exact ⟨clean,read,invisible.1,fun settings clock s start file steps =>
    (invisible.2.2 settings clock s start file steps).1⟩

end Lox
