import Lox.Proofs.Session.Blame

/-! # Quoted lines

A report quotes a line of the text that was registered last under the name of its file, which is the
source at hand. Positions count line feeds alone, so the line is the one that the error means as long as no
other line boundary stands above it. An error in a routine that an earlier source has left behind is
reported with a line of the source at hand all the same.
-/
namespace Lox
open Machine Text

/-- The lines of a text by their numbers, where no other boundary stands before them. -/
theorem Text.lines_getElem? {source : String} {n : Nat} (pos : 1 ≤ n) (unbroken : Unbroken source n)
    {quoted : String} (h : (lines source)[n - 1]? = some quoted) :
    ∃ line, fedLine? source n = some line ∧ quoted = String.ofList (withoutReturn line) := by
  have same : n - 1 + 1 = n := Nat.sub_add_cancel pos
  have upTo : ∀ line ∈ (source.toList.splitOn '\n').take (n - 1 + 1), ∀ c ∈ withoutReturn line,
      isLineEnd c = false := by rwa [same]
  exact @linesFrom_getElem? [] _ (fun _ hc => absurd hc List.not_mem_nil) _ upTo _ h

namespace Sources

theorem line?_register (s : Sources) (file text : String) (n : Int) :
    (s.register file text).line? file (some n) =
      if n < 1 then none else (Text.lines text)[n.toNat - 1]? := by
  simp only [line?,register,Bindings.get?_set_self,Option.bind_eq_bind,Option.bind_some]

theorem of_line?_register {s : Sources} {file text : String} {n : Int} {quoted : String}
    (h : (s.register file text).line? file (some n) = some quoted) :
    1 ≤ n ∧ (Text.lines text)[n.toNat - 1]? = some quoted := by
  rw [line?_register] at h
  split at h
  · cases h
  · exact ⟨by omega,h⟩

/-- A text is quoted under its name alone. -/
theorem eq_of_line?_register {file other text : String} {line : Option Int} {quoted : String}
    (h : (Sources.register {} file text).line? other line = some quoted) : other = file := by
  by_contra ne
  have none : ((Sources.register {} file text).lines.get? other) = none :=
    Bindings.get?_set_of_ne _ (Ne.symm ne) _
  simp only [line?,none,Option.bind_eq_bind,Option.bind_none] at h
  cases h

end Sources

namespace Report

/-- A report that quotes a line has the caret below it, under the column. -/
theorem text_of_quoted {r : Report} {sources : Sources} {given : Option String} {p : Pos} {quoted : String}
    (line : r.line = some (p.line : Int)) (column : r.column = some (p.column : Int)) (pos : 1 ≤ p.column)
    (quotes : sources.line? (r.quotedFile given) r.line = some quoted) :
    r.text sources given = s!"{r.header}\n{gutter p.line}{quoted}\n" ++
      String.ofList (List.replicate ((gutter p.line).length + (p.column - 1)) ' ') ++ "^" := by
  rw [line] at quotes
  have below : caret (gutter p.line) r.column = "\n" ++
      String.ofList (List.replicate ((gutter p.line).length + (p.column - 1)) ' ') ++ "^" := by
    obtain ⟨c,e⟩ : ∃ c, p.column = c + 1 := ⟨p.column - 1,by omega⟩
    have shift : ((gutter p.line).length + ((c + 1 : Nat) : Int) - 1).toNat = (gutter p.line).length + c := by
      omega
    rw [column,e]
    simp only [caret]
    rw [shift]
    rfl
  simp only [text,line,quotes,below]
  simp only [toString,String.append_assoc]

/-- A runtime error names the file that it is reported for. -/
theorem quotedFile_self (e : RuntimeError) (file : String) :
    (e.report (some file)).quotedFile (some file) = file := by
  by_cases empty : file = ""
  · subst empty
    rfl
  · simp only [quotedFile]

end Report

theorem Session.sources_run (s : Session) (source file : String) (steps : Nat) :
    (s.run source file steps).2.sources = s.sources.register file source := by
  have compiled : (s.compileSource source file).2.sources = s.sources.register file source := by
    simp only [compileSource]
    split <;> rfl
  simp only [run]
  split <;> exact compiled

theorem Session.sources_start {settings : Settings} {clock : Float} {s : Session}
    (h : Session.start settings clock = .ok s) : s.sources = {} :=
  congrArg Session.sources (start_eq_ok h).2

/-- What the last of some sources comes to in a new session, as a test. -/
def Session.ending (before : List Entry) (x : Entry) : Option Ending :=
  match Session.start {} 0 with
  | .ok s => some ((s.after before).run x.source x.file x.steps).1
  | .error _ => none

theorem Session.of_ending {before : List Entry} {x : Entry} {ending : Ending}
    (h : Session.ending before x = some ending) : ∃ s, Session.start {} 0 = .ok s ∧
      ((s.after before).run x.source x.file x.steps).1 = ending := by
  simp only [Session.ending] at h
  cases e : Session.start {} 0 with
  | error f => rw [e] at h; cases h
  | ok s =>
    rw [e] at h
    exact ⟨s,rfl,Option.some.inj h⟩

/-- Every report of a source stands for an error at a position in it. -/
theorem RunResult.report_position {s : Session} {settings : Settings} {clock : Float}
    (fresh : Session.start settings clock = .ok s) {source file : String} {steps : Nat} {result : RunResult}
    (ran : (s.run source file steps).1 = .result result) {r : Report} (reported : r ∈ result.reports file) :
    ∃ p : Pos, p.In source ∧ r.line = some (p.line : Int) ∧ r.column = some (p.column : Int) := by
  rw [reports,List.mem_append,List.mem_map] at reported
  rcases reported with ⟨d,hd,rfl⟩ | reported
  · obtain ⟨m,log,-,ending,-⟩ := s.run_eq source file steps
    rw [ran] at ending
    split at ending
    · generalize (m.run steps (compile source).program).1 = o at ending
      cases o <;> cases ending <;> exact absurd hd List.not_mem_nil
    · cases ending
      exact ⟨d.pos,compile_errors_in source d hd,rfl,rfl⟩
  · cases failed : result.runtimeError with
    | none =>
      rw [failed] at reported
      exact absurd reported List.not_mem_nil
    | some e =>
      rw [failed] at reported
      obtain rfl := List.mem_singleton.mp reported
      have token : TokenAt source e.pos := Session.error_within fresh
        (fun _ hx => absurd hx List.not_mem_nil) (compile_within fun _ => id) ran failed
      exact ⟨e.pos,token.in,rfl,rfl⟩

/-- Whatever line is quoted, it is taken from the source at hand: the line that an error means, if no other
boundary stands before it. -/
theorem quoted_of_position {sources : Sources} {source file : String} {p : Pos} (inside : p.In source)
    {quoted : String} (quotes : (sources.register file source).line? file (some (p.line : Int)) = some quoted) :
    ∃ line, fedLine? source p.line = some line ∧ 1 ≤ p.column ∧ p.column ≤ line.length + 1 ∧
      (Unbroken source p.line → quoted = String.ofList (withoutReturn line)) := by
  obtain ⟨before,rest,whole,rfl⟩ := inside
  obtain ⟨line,found,parts,column⟩ := fedLine?_behind whole
  obtain ⟨pos,quoted⟩ := Sources.of_line?_register quotes
  refine ⟨line,found,by omega,?_,fun unbroken => ?_⟩
  · rw [column,parts,List.length_append]
    omega
  · obtain ⟨line',found',same⟩ := lines_getElem? (by omega) unbroken quoted
    rw [found] at found'
    cases found'
    exact same

/-- A report of a source that is run in a new session and quotes a line quotes the one in which the error is,
with the caret under its column, if no line boundary but line feeds stands up to there. -/
theorem reports_quote_lines {settings : Settings} {clock : Float} {s : Session}
    (fresh : Session.start settings clock = .ok s) (source file : String) (steps : Nat) {result : RunResult}
    (ran : (s.run source file steps).1 = .result result) {r : Report} (reported : r ∈ result.reports file)
    (given : Option String) {quoted : String}
    (quotes : (s.run source file steps).2.sources.line? (r.quotedFile given) r.line = some quoted) :
    ∃ (p : Pos) (line : List Char), r.line = some (p.line : Int) ∧ r.column = some (p.column : Int) ∧
      fedLine? source p.line = some line ∧ 1 ≤ p.column ∧ p.column ≤ line.length + 1 ∧
      r.text (s.run source file steps).2.sources given = s!"{r.header}\n{Report.gutter p.line}{quoted}\n" ++
        String.ofList (List.replicate ((Report.gutter p.line).length + (p.column - 1)) ' ') ++ "^" ∧
      (Unbroken source p.line → quoted = String.ofList (withoutReturn line)) := by
  obtain ⟨p,inside,line,column⟩ := RunResult.report_position fresh ran reported
  have registered := quotes
  rw [s.sources_run,Session.sources_start fresh] at registered
  rw [Sources.eq_of_line?_register registered,line] at registered
  obtain ⟨text,found,first,last,same⟩ := quoted_of_position inside registered
  exact ⟨p,text,line,column,found,first,last,Report.text_of_quoted line column first quotes,same⟩

/-- A sum that fails in the second of two lines that end with a carriage return. -/
def failingSum : Entry := ⟨"var a = 1;\r\nprint a + nil;\r\n","a.lox",20⟩

theorem reports_quote_lines_failingSum : ∃ s result r, Session.start {} 0 = .ok s ∧
    (s.run failingSum.source failingSum.file failingSum.steps).1 = .result result ∧
    r ∈ result.reports failingSum.file ∧
    (s.run failingSum.source failingSum.file failingSum.steps).2.sources.line? (r.quotedFile none) r.line =
      some "print a + nil;" ∧
    ∃ (p : Pos) (line : List Char), r.line = some (p.line : Int) ∧ r.column = some (p.column : Int) ∧
      fedLine? failingSum.source p.line = some line ∧ 1 ≤ p.column ∧ p.column ≤ line.length + 1 ∧
      (Unbroken failingSum.source p.line → "print a + nil;" = String.ofList (withoutReturn line)) := by
  have ending : Session.ending [] failingSum = some (.result
      { runtimeError := some ⟨.operandsNotAddable,⟨2,9⟩⟩, errorFile := some "a.lox" }) := by decide +kernel
  obtain ⟨s,fresh,ran⟩ := Session.of_ending ending
  have quotes : (s.run failingSum.source failingSum.file failingSum.steps).2.sources.line? "a.lox" (some 2) =
      some "print a + nil;" := by
    rw [Session.sources_run,show failingSum.file = "a.lox" from rfl,Sources.line?_register]
    decide +kernel
  obtain ⟨p,line,atLine,atColumn,found,first,last,-,same⟩ := reports_quote_lines fresh failingSum.source
    failingSum.file failingSum.steps ran List.mem_cons_self none quotes
  exact ⟨s,_,_,fresh,ran,List.mem_cons_self,quotes,p,line,atLine,atColumn,found,first,last,same⟩

/-- A stray character in the second line, behind a form feed in a string. -/
def strayBehindFormFeed : Entry := ⟨"\"\x0c\";\n@","a.lox",20⟩

/-- A line boundary that is no line feed shifts all lines that are quoted behind it. -/
theorem report_quotes_other_line : ∃ s result r quoted, Session.start {} 0 = .ok s ∧
    (s.run strayBehindFormFeed.source strayBehindFormFeed.file strayBehindFormFeed.steps).1 = .result result ∧
    r ∈ result.reports strayBehindFormFeed.file ∧ r.line = some 2 ∧
    (s.run strayBehindFormFeed.source strayBehindFormFeed.file
      strayBehindFormFeed.steps).2.sources.line? (r.quotedFile none) r.line = some quoted ∧
    fedLine? strayBehindFormFeed.source 2 = some ['@'] ∧ quoted ≠ String.ofList (withoutReturn ['@']) := by
  have ending : Session.ending [] strayBehindFormFeed = some (.result
      { staticErrors := [⟨.scan (.strayCharacter '@'),⟨2,1⟩,.none⟩] }) := by decide +kernel
  obtain ⟨s,fresh,ran⟩ := Session.of_ending ending
  have quotes : (s.run strayBehindFormFeed.source strayBehindFormFeed.file
      strayBehindFormFeed.steps).2.sources.line? "a.lox" (some 2) = some "\";" := by
    rw [Session.sources_run,show strayBehindFormFeed.file = "a.lox" from rfl,Sources.line?_register]
    decide +kernel
  exact ⟨s,_,_,_,fresh,ran,List.mem_cons_self,rfl,quotes,by decide +kernel,by decide +kernel⟩

/-- An error in a routine is reported with a line of the source at hand, whichever source the routine is from.
If every routine that is left behind stems from the same text, then it is the line in which the error is. -/
theorem errors_quote_sources {settings : Settings} {clock : Float} {s : Session}
    (fresh : Session.start settings clock = .ok s) (entries : List Entry) (source file : String) (steps : Nat)
    {result : RunResult} (ran : ((s.after entries).run source file steps).1 = .result result)
    {e : RuntimeError} (failed : result.runtimeError = some e) {quoted : String}
    (quotes : ((s.after entries).run source file steps).2.sources.line?
      ((e.report result.errorFile).quotedFile (some file)) (e.report result.errorFile).line = some quoted) :
    (∃ x ∈ ⟨source,file,steps⟩ :: entries, (compile x.source).errors = [] ∧ TokenAt x.source e.pos) ∧
      (lines source)[e.pos.line - 1]? = some quoted ∧
      ((∀ x ∈ entries, (compile x.source).errors = [] →
          bodyRoutines (compile x.source).program = [] ∨ x.source = source) →
        TokenAt source e.pos ∧ (Unbroken source e.pos.line → ∃ line, fedLine? source e.pos.line = some line ∧
          quoted = String.ofList (withoutReturn line))) := by
  obtain ⟨clean,rfl,-⟩ := Session.run_eq_error ran failed
  rw [Session.sources_run,Report.quotedFile_self] at quotes
  refine ⟨?_,(Sources.of_line?_register quotes).2,fun own => ?_⟩
  · let S (p : Pos) : Prop := ∃ x ∈ ⟨source,file,steps⟩ :: entries,
      (compile x.source).errors = [] ∧ TokenAt x.source p
    have leave : ∀ x ∈ entries, x.Leaves S := fun x hx clean =>
      bodyRoutines_within (compile_within (fun p hp => ⟨x,List.mem_cons_of_mem _ hx,clean,hp⟩) clean)
    exact Session.error_within fresh leave
      (compile_within fun p hp => ⟨_,List.mem_cons_self,clean,hp⟩) ran failed
  · have token : TokenAt source e.pos := by
      refine Session.error_within fresh (fun x hx clean => ?_) (compile_within fun _ => id) ran failed
      rcases own x hx clean with none | same
      · rw [none]
        exact fun _ hr => absurd hr List.not_mem_nil
      · rw [same] at clean ⊢
        exact bodyRoutines_within (compile_within (fun _ => id) clean)
    obtain ⟨line,found,-,-,same⟩ := quoted_of_position token.in quotes
    exact ⟨token,fun unbroken => ⟨line,found,same unbroken⟩⟩

/-- A function that fails when it is called, after it was declared by the same text or by another one. -/
def failing : Entry := ⟨"fun f() \x7b\n  return 1 + nil;\n\x7d\nf();","a.lox",40⟩

theorem errors_quote_sources_failing : ∃ s result e, Session.start {} 0 = .ok s ∧
    ((s.after [⟨"var a = 1;","a.lox",20⟩,failing]).run failing.source "b.lox" 40).1 = .result result ∧
    result.runtimeError = some e ∧
    ((s.after [⟨"var a = 1;","a.lox",20⟩,failing]).run failing.source "b.lox" 40).2.sources.line?
      ((e.report result.errorFile).quotedFile (some "b.lox")) (e.report result.errorFile).line =
        some "  return 1 + nil;" ∧
    (∀ x ∈ [⟨"var a = 1;","a.lox",20⟩,failing], (compile x.source).errors = [] →
      bodyRoutines (compile x.source).program = [] ∨ x.source = failing.source) ∧
    TokenAt failing.source e.pos ∧ (Unbroken failing.source e.pos.line → ∃ line,
      fedLine? failing.source e.pos.line = some line ∧
        "  return 1 + nil;" = String.ofList (withoutReturn line)) := by
  have ending : Session.ending [⟨"var a = 1;","a.lox",20⟩,failing] { failing with file := "b.lox" } =
      some (.result { runtimeError := some ⟨.operandsNotAddable,⟨2,12⟩⟩, errorFile := some "b.lox" }) := by
    decide +kernel
  obtain ⟨s,fresh,ran⟩ := Session.of_ending ending
  have quotes : ((s.after [⟨"var a = 1;","a.lox",20⟩,failing]).run failing.source
      "b.lox" 40).2.sources.line? "b.lox" (some 2) = some "  return 1 + nil;" := by
    rw [Session.sources_run,Sources.line?_register]
    decide +kernel
  have own : ∀ x ∈ [⟨"var a = 1;","a.lox",20⟩,failing], (compile x.source).errors = [] →
      bodyRoutines (compile x.source).program = [] ∨ x.source = failing.source := by
    intro x hx _
    rcases List.mem_cons.mp hx with rfl | hx
    · exact .inl (List.isEmpty_iff.mp (by decide +kernel))
    · exact .inr (by rw [List.mem_singleton.mp hx])
  obtain ⟨-,-,quoted⟩ := errors_quote_sources fresh _ failing.source "b.lox" 40 ran rfl quotes
  exact ⟨s,_,_,fresh,ran,rfl,quotes,own,quoted own⟩

/-- The function alone, and a call of it from another text. -/
def defining : Entry := ⟨"fun f() \x7b\n  return 1 + nil;\n\x7d","a.lox",20⟩
def calling : Entry := ⟨"\nf();","b.lox",40⟩

/-- An error in a function that an earlier source has left behind is reported with a line of the source that
calls it, though no token of that source is where the error is. -/
theorem error_quotes_other_source : ∃ s result e quoted, Session.start {} 0 = .ok s ∧
    ((s.after [defining]).run calling.source calling.file calling.steps).1 = .result result ∧
    result.runtimeError = some e ∧
    ((s.after [defining]).run calling.source calling.file calling.steps).2.sources.line?
      ((e.report result.errorFile).quotedFile (some calling.file)) (e.report result.errorFile).line =
        some quoted ∧
    TokenAt defining.source e.pos ∧ ¬TokenAt calling.source e.pos ∧
    fedLine? defining.source e.pos.line ≠ some quoted.toList := by
  have ending : Session.ending [defining] calling = some (.result
      { runtimeError := some ⟨.operandsNotAddable,⟨2,12⟩⟩, errorFile := some "b.lox" }) := by decide +kernel
  obtain ⟨s,fresh,ran⟩ := Session.of_ending ending
  have quotes : ((s.after [defining]).run calling.source calling.file calling.steps).2.sources.line? "b.lox"
      (some 2) = some "f();" := by
    rw [Session.sources_run,show calling.file = "b.lox" from rfl,Sources.line?_register]
    decide +kernel
  exact ⟨s,_,_,_,fresh,ran,rfl,quotes,by decide +kernel,by decide +kernel,by decide +kernel⟩

end Lox
