import Lox.Console.Help
import Lox.Console.Item
import Lox.Console.Path
import Lox.Session
import Lox.Settings.Store

/-! # Transcripts

What a command does, as a function of what it finds: files, settings, the environment and the
lines typed in. A transcript holds all that the command shows, its exit code and the settings file
it leaves behind.
-/
namespace Lox.Console
open Text (Styled)

def programVersion : String := "0.1.0"

/-- What a command finds when it starts. -/
structure Surroundings where
  files : Bindings String
  settingsPath : String
  overrides : Settings.Overrides := {}
  input : List String := []
  clock : Float := 0

/-- What ends a command before its end. -/
inductive Crash
  | settings (e : Settings.LoadError)
  | fault (f : Fault)
  /-- A program was cut short. -/
  | cut
  /-- The words hold a path that is none. -/
  | path
deriving DecidableEq, Repr

inductive Exit
  | code (n : Nat)
  | crash (c : Crash)
deriving DecidableEq, Repr

/-- What is said of a path with a null character. -/
def Crash.pathText : String := "embedded null byte"

namespace Exit

/-- The command line makes no sense, or a setting is refused. -/
def misuse : Exit := code 2

def status : Exit → Nat
  | code n => n
  | crash _ => 1

end Exit

structure Transcript where
  exit : Exit := .code 0
  /-- What the program itself printed. -/
  output : String := ""
  shown : List Shown := []
  log : List String := []
  /-- The text of the settings file afterwards. -/
  settingsFile : Option String

namespace Surroundings

def file? (s : Surroundings) (path : String) : Option String :=
  s.files.get? path <|> findFile s.files path

/-- The text of a source, with line feeds only at its line ends. -/
def source? (s : Surroundings) (path : String) : Option String :=
  (s.file? path).map Text.withLineFeeds

/-- The text of the settings file, with line feeds only at its line ends. -/
def settingsFile (s : Surroundings) : Option String :=
  (s.file? s.settingsPath).map Text.withLineFeeds

def transcript (s : Surroundings) (exit : Exit) (shown : List Shown := []) : Transcript :=
  { exit, shown, settingsFile := s.settingsFile }

/-- Goes on with the stored settings, if they can be used. -/
def withStore (s : Surroundings) (next : Settings.Store → Transcript) : Transcript :=
  match Settings.Store.start s.settingsFile s.overrides with
  | .error e => s.transcript (.crash (.settings e))
  | .ok store => next store

/-- What is logged is shown only if the settings choose a level. -/
def shownLog (settings : Settings) (log : List String) : List String :=
  if settings.debugLevel = .none then [] else log

/-- The transcript of a command whose session does not start. -/
def refuseStart (s : Surroundings) (settings : Settings) (e : Machine.StartError) : Transcript :=
  { s.transcript (.crash (.fault e.fault)) with log := shownLog settings e.log }

end Surroundings

/-! ## Sources -/

def reports (sources : Sources) (file : String) (rs : List Report) : List Shown :=
  rs.map fun r => (.err,.report (r.text sources (some file)))

def staticReports (source file : String) (errors : List Diagnostic) : List Shown :=
  reports (({} : Sources).register file source) file (errors.map (·.report file))

def adjust (options : RunOptions) (s : Settings) : Settings :=
  let s := if options.stress then { s with stress := true } else s
  if options.debug then { s with debugLevel := .verbose } else s

def runSource (s : Surroundings) (file source : String) (options : RunOptions) : Transcript :=
  s.withStore fun store =>
    let settings := adjust options store.settings
    match Session.start settings s.clock with
    | .error e => s.refuseStart settings e
    | .ok session =>
      let (ending,session) := session.run source file
      let (exit,shown) := match ending with
        | .result r =>
          let table := if options.heapStats then
            [(Channel.err,Item.table (heapTable session.machine.heap))] else []
          (Exit.code r.exitCode,reports session.sources file (r.reports file) ++ table)
        | .fault f => (.crash (.fault f),[])
        | .cut => (.crash .cut,[])
      { s.transcript exit shown with
        output := session.machine.output
        log := Surroundings.shownLog settings session.takeLog.1 }

def checkSource (s : Surroundings) (file source : String) : Transcript :=
  let errors := (compile source).errors
  if errors.isEmpty then
    s.transcript (.code 0) [(.out,.styled [⟨[.bold,.green],"No errors."⟩])]
  else
    s.transcript (.code RunResult.exitStatic)
      ((.err,.styled [⟨[.bold,.red],"Errors found:"⟩]) :: staticReports source file errors)

def outlineSource (s : Surroundings) (file source : String) : Transcript :=
  let compiled := compile source
  if compiled.errors.isEmpty then
    s.transcript (.code 0)
      [(.out,.panel [⟨[.bold,.blue],"Abstract Syntax Tree"⟩] compiled.program.outline)]
  else
    s.transcript (.code RunResult.exitStatic) (staticReports source file compiled.errors)

def tokenizeSource (s : Surroundings) (file source : String) : Transcript :=
  let result := scan source
  let table := tokenTable (result.tokens.filter (·.kind ≠ .eof))
  s.transcript (.code (if result.errors.isEmpty then 0 else RunResult.exitStatic))
    ((.out,.table table) :: staticReports source file result.errors)

/-! ## Lines typed in -/

namespace Repl

def file : String := "<repl>"

def greeting : List Shown :=
  [(.out,.styled [⟨[.bold,.green],s!"treelox REPL v{programVersion}"⟩]),
    (.out,.styled (.raw "Type 'exit' to quit\n"))]

def ask : Shown := (.out,.prompt [⟨[.bold,.blue],"> "⟩])

def farewell : Shown := (.out,.styled (.raw "\nGoodbye!"))

/-- What a line is for. -/
inductive Line
  | leave
  | blank
  | source
deriving DecidableEq, Repr

def Line.of (line : String) : Line :=
  let word := Text.strip line
  if word = "exit" || word = "quit" then leave
  else if word.isEmpty then blank
  else source

/-- Runs a line: the reports on it, or what went wrong beyond them. -/
def answer (line : String) (session : Session) : Except Crash (List Shown) × Session :=
  let (ending,session) := session.run line file
  match ending with
  | .result r => (.ok (reports session.sources file (r.reports file)),session)
  | .fault f => (.error (.fault f),session)
  | .cut => (.error .cut,session)

/-- Asks for lines until one of them, or their end, ends the session. -/
def converse (session : Session) : List String → Exit × List Shown × Session
  | [] => (.code 0,[ask,farewell],session)
  | line :: rest =>
    match Line.of line with
    | .leave => (.code 0,[ask],session)
    | .blank =>
      let (exit,shown,session) := converse session rest
      (exit,ask :: shown,session)
    | .source =>
      match answer line session with
      | (.error crash,session) => (.crash crash,[ask],session)
      | (.ok found,session) =>
        let (exit,shown,session) := converse session rest
        (exit,ask :: found ++ shown,session)

end Repl

def converse (s : Surroundings) (stress : Bool) : Transcript :=
  s.withStore fun store =>
    let settings := adjust { stress } store.settings
    match Session.start settings s.clock with
    | .error e => s.refuseStart settings e
    | .ok session =>
      let (exit,shown,session) := Repl.converse session s.input
      { s.transcript exit (Repl.greeting ++ shown) with
        output := session.machine.output
        log := Surroundings.shownLog settings session.takeLog.1 }

/-! ## Settings -/

/-- A setting as it is shown. -/
def settingText : Json → String
  | .bool b => if b then "True" else "False"
  | .string s => s
  | .int n => toString n
  | .float x => Number.Style.exact.text x
  | v => v.text

def settingTable (path : String) (settings : Settings) : Table where
  title := s!"Config ({path})"
  columns := ["Key","Value"]
  rows := settings.members.map fun (key,v) => [key,settingText v]

def showSettings (s : Surroundings) : Transcript :=
  s.withStore fun store =>
    s.transcript (.code 0) [(.out,.table (settingTable s.settingsPath store.settings))]

/-- The name of a key that does not exist is shown as a quoted text. -/
def refusalText : Settings.SettingError → String
  | .unknownKey name => Text.quoted (Settings.SettingError.unknownKey name).message
  | e => e.message

def changeSetting (s : Surroundings) (key value : String) : Transcript :=
  s.withStore fun store =>
    match store.set key (.string value) true with
    | .error e =>
      s.transcript .misuse
        [(.err,.styled (⟨[.bold,.red],"Error:"⟩ :: Styled.raw s!" {refusalText e}"))]
    | .ok store =>
      let stored := match Settings.Key.ofName? key with
        | some k => settingText (store.settings.get k)
        | none => ""
      { s.transcript (.code 0) [(.out,.styled (⟨[.green],key⟩ :: Styled.raw s!" = {stored}"))] with
        settingsFile := store.file }

def resetSettings (s : Surroundings) : Transcript :=
  s.withStore fun store =>
    { s.transcript (.code 0)
        [(.out,.styled [⟨[.green],"Configuration reset to defaults."⟩])] with
      settingsFile := (store.reset true).file }

/-! ## Commands -/

/-- The name a reader calls the program by, and the version it has. -/
def versionLine : String := s!"treelox, version {programVersion}\n"

def onSource (s : Surroundings) (file : String) (next : String → Transcript) : Transcript :=
  if isPath file then
    match s.source? file with
    | some source => next source
    | none => s.transcript .misuse
  else s.transcript (.crash .path)

def Command.perform (s : Surroundings) : Command → Transcript
  | .version => { s.transcript (.code 0) with output := versionLine }
  | .help topic => { s.transcript (.code 0) with output := topic.help }
  | .run file options => onSource s file fun source => runSource s file source options
  | .check file => onSource s file (checkSource s file)
  | .ast file => onSource s file (outlineSource s file)
  | .tokens file => onSource s file (tokenizeSource s file)
  | .repl stress => converse s stress
  | .configShow => showSettings s
  | .configSet key value => changeSetting s key value
  | .configReset => resetSettings s

/-- Reads the words of a command line and does what they ask for. -/
def perform (s : Surroundings) (words : List String) : Transcript :=
  match Command.ofWords words with
  | .ok command => command.perform s
  | .error _ => s.transcript .misuse

end Lox.Console
