import Lox.Console.Plain
import Lox.Console.Transcript

/-! # The program

Looks up what a command needs, performs it and writes out its transcript. Lines are read one at
a time, each answered before the next.
-/
namespace Lox.Console

def write (item : Shown) : IO Unit := do
  let stream ← match item.1 with
    | .out => IO.getStdout
    | .err => IO.getStderr
  stream.putStr item.2.plain
  stream.flush

def writeError (text : String) : IO Unit := write (.err,.report text)

def Crash.message : Crash → String
  | settings .notAnObject => "The settings file does not hold an object."
  | settings (.value e) => s!"The settings file cannot be used: {e.message}"
  | fault f => s!"Internal fault: {f.message}"
  | cut => "The program was cut short."
  | path => pathText

def writeExit : Exit → IO UInt32
  | .crash c => do
    writeError c.message
    return UInt32.ofNat (Exit.crash c).status
  | .code n => return UInt32.ofNat n

def readText? (path : String) : IO (Option String) :=
  try return some (← IO.FS.readFile path)
  catch _ => return none

def environment (name : String) : IO String := return (← IO.getEnv name).getD ""

def settingsPath : IO String := do
  let chosen ← environment "TREELOX_CONFIG"
  if chosen.isEmpty then return (← environment "HOME") ++ "/.treelox/config.json"
  return chosen

def saveSettings (path text : String) : IO Unit := do
  let folder := "/".intercalate (path.splitOn "/").dropLast
  if !folder.isEmpty then IO.FS.createDirAll folder
  IO.FS.writeFile path text

/-- Reads the files that a command needs and the environment. -/
def surroundings (command : Command) : IO Surroundings := do
  let path ← settingsPath
  let add (files : Bindings String) (name : String) : IO (Bindings String) := do
    match ← readText? name with
    | some text => return files.set name text
    | none => return files
  let files ← (path :: command.file?.toList).foldlM add {}
  let overrides := ⟨← environment "TREELOX_DEBUG",← environment "TREELOX_GC_STRESS"⟩
  let clock := Float.ofNat (← IO.monoMsNow) / 1000
  return { files, settingsPath := path, overrides, clock }

/-- Writes what a session has printed and logged, and goes on without it. -/
def drain (settings : Settings) (session : Session) : IO Session := do
  let (output,rest) := session.takeOutput
  let stdout ← IO.getStdout
  stdout.putStr output
  stdout.flush
  (Surroundings.shownLog settings rest.takeLog.1).forM writeError
  return rest.takeLog.2

partial def readLines (settings : Settings) (session : Session) : IO Exit := do
  write Repl.ask
  let line ← (← IO.getStdin).getLine
  if line.isEmpty then
    write Repl.farewell
    return .code 0
  match Repl.Line.of line with
  | .leave => return .code 0
  | .blank => readLines settings session
  | .source =>
    let text := if line.endsWith "\n" then String.ofList line.toList.dropLast else line
    let (answer,session) := Repl.answer text session
    let session ← drain settings session
    match answer with
    | .error crash => return .crash crash
    | .ok found =>
      found.forM write
      readLines settings session

def startRepl (s : Surroundings) (stress : Bool) : IO Exit := do
  match Settings.Store.start s.settingsFile s.overrides with
  | .error e => return .crash (.settings e)
  | .ok store =>
    let settings := adjust { stress } store.settings
    match Session.start settings s.clock with
    | .error e =>
      (Surroundings.shownLog settings e.log).forM writeError
      return .crash (.fault e.fault)
    | .ok session =>
      Repl.greeting.forM write
      readLines settings session

def performCommand (command : Command) : IO UInt32 := do
  let s ← surroundings command
  match command with
  | .repl stress => writeExit (← startRepl s stress)
  | _ =>
    match command.file?.filter fun path => (s.file? path).isNone with
    | some path => writeError (UsageError.noSuchFile path).message
    | none => pure ()
    let t := command.perform s
    (← IO.getStdout).putStr t.output
    t.log.forM writeError
    t.shown.forM write
    match t.settingsFile with
    | some text => if t.settingsFile ≠ s.settingsFile then saveSettings s.settingsPath text
    | none => pure ()
    writeExit t.exit

end Lox.Console

def main (words : List String) : IO UInt32 := do
  match Lox.Console.Command.ofWords words with
  | .ok command => Lox.Console.performCommand command
  | .error e =>
    Lox.Console.writeError e.message
    Lox.Console.writeExit .misuse
