import Lox.Bindings
import Lox.Settings.Coerce

/-! # Stored settings

Settings are kept in a file as a JSON object. Reading skips keys that do not exist and values that
are refused, and keeps what was set when the file holds no JSON. The environment can override
the level and the stress switch for one process.
-/
namespace Lox.Settings

/-- Why a file cannot be used at all. -/
inductive LoadError
  | notAnObject
  | value (e : SettingError)
deriving DecidableEq, Repr

/-- The members of an object without repetitions: the first place of a key with its last value. -/
def distinct (members : List (String × Json)) : Bindings Json :=
  members.foldl (fun b (k,v) => b.set k v) {}

/-- Takes over stored values one by one, up to one that is unfit. -/
def takeOver (s : Settings) : List (String × Json) → Option SettingError × Settings
  | [] => (none,s)
  | (name,v) :: rest =>
    match s.set name v with
    | .ok s => takeOver s rest
    | .error e => if e.isRefusal then takeOver s rest else (some e,s)

/-- The settings after reading a file's text, also when it cannot be used. -/
def load (s : Settings) (text : String) : Option LoadError × Settings :=
  match Json.parse text with
  | none => (none,s)
  | some (.object members) =>
    let (e,s) := s.takeOver (distinct members).entries
    (e.map .value,s)
  | some _ => (some .notAnObject,s)

def savedText (s : Settings) : String := Json.indentedText (.object s.members)

/-- What the environment says about settings. -/
structure Overrides where
  debug : String := ""
  stress : String := ""

def override (s : Settings) (key : Key) (text : String) : Settings :=
  if text.isEmpty then s
  else match s.update key (.string text) with
    | .ok s => s
    | .error _ => s

def applyOverrides (s : Settings) (o : Overrides) : Settings :=
  (s.override .debugLevel o.debug).override .stress o.stress

/-- Settings with the text of their file, if there is one. -/
structure Store where
  settings : Settings := {}
  file : Option String := none

namespace Store

def loadFile (s : Store) : Option LoadError × Store :=
  match s.file with
  | none => (none,s)
  | some text =>
    let (e,settings) := s.settings.load text
    (e,{ s with settings })

/-- Settings as a process finds them. -/
def start (file : Option String) (o : Overrides) (reading : Bool := true) :
    Except LoadError Store :=
  let s : Store := { file }
  match if reading then s.loadFile else (none,s) with
  | (some e,_) => .error e
  | (none,s) => .ok { s with settings := s.settings.applyOverrides o }

def save (s : Store) : Store := { s with file := some s.settings.savedText }

def set (s : Store) (name : String) (v : Json) (persist : Bool) : Except SettingError Store := do
  let settings ← s.settings.set name v
  let s := { s with settings }
  return if persist then s.save else s

def reset (s : Store) (persist : Bool) : Store :=
  let s := { s with settings := {} }
  if persist then s.save else s

end Store

/-- Whether messages of a named level are logged. The name `debug` stands for the highest level. -/
def shouldLog (s : Settings) (name : String) : Bool :=
  match Level.ofName? (if name = "debug" then Level.verbose.name else name) with
  | some level => s.debugLevel.logs level
  | none => false

end Lox.Settings
