import Lox.Json
import Lox.Settings.Basic

/-! # Setting values

A setting is given by its key and a JSON value, often a text. Each key has a type and a value is
converted to it: texts are read, booleans count as numbers, fractions are cut off. A value is
refused when its text or size does not fit, and it is unfit when its kind has no conversion at all.
-/
namespace Lox.Settings

inductive Key
  | debugLevel
  | threshold
  | growth
  | stress
  | maxCallDepth
deriving DecidableEq, Repr

namespace Key

def name : Key → String
  | debugLevel => "debug_level"
  | threshold => "gc_initial_threshold"
  | growth => "gc_growth_factor"
  | stress => "gc_stress"
  | maxCallDepth => "max_call_depth"

def all : List Key := [debugLevel,threshold,growth,stress,maxCallDepth]

def ofName? (s : String) : Option Key := all.find? (·.name = s)

theorem ofName?_name (k : Key) : ofName? k.name = some k := by cases k <;> decide

end Key

inductive SettingError
  | unknownKey (name : String)
  | noLevel
  | notBoolean (key : Key) (text : String)
  | notInteger (text : String)
  | longInteger (digits : Nat)
  | nanInteger
  | notNumber (text : String)
  | notPositive (key : Key)
  | notAboveOne (key : Key)
  /-- An infinite value for an integer, or an integer beyond the doubles. -/
  | outOfRange
  /-- A value of a kind that is never converted. -/
  | unfit
deriving DecidableEq, Repr

namespace SettingError

/-- A numeral that is no integer is quoted up to this many characters. -/
def maxNumeralWidth : Nat := 200

def message : SettingError → String
  | unknownKey name => s!"Unknown config key: {name}"
  | noLevel => "debug_level must be one of " ++ ", ".intercalate (Level.all.map (·.name))
  | notBoolean key text => s!"{key.name} expects a boolean, got {Text.quoted text}"
  | notInteger text =>
    s!"invalid literal for int() with base 10: {Text.quotedStart maxNumeralWidth text}"
  | longInteger digits =>
    s!"Exceeds the limit ({Number.maxIntegerDigits} digits) for integer string conversion: " ++
      s!"value has {digits} digits; use sys.set_int_max_str_digits() to increase the limit"
  | nanInteger => "cannot convert float NaN to integer"
  | notNumber text => s!"could not convert string to float: {Text.quoted text}"
  | notPositive key => s!"{key.name} must be positive"
  | notAboveOne key => s!"{key.name} must be greater than 1"
  | outOfRange => "the number is out of range"
  | unfit => "the value cannot be converted"

/-- Whether a stored value with this error is passed over. The others make a file unusable. -/
def isRefusal : SettingError → Bool
  | outOfRange | unfit => false
  | _ => true

end SettingError

def lower (s : String) : String := s.map Char.toLower

/-- A level is chosen by its name in any case; no value at all chooses none. -/
def toLevel (v : Json) : Except SettingError Level :=
  let name := match v with
    | .string s => lower s
    | .null => "none"
    | _ => ""
  match Level.ofName? name with
  | some level => .ok level
  | none => .error .noLevel

def trueWords : List String := ["true","yes","on","1"]
def falseWords : List String := ["false","no","off","0"]

/-- A text is a boolean by its word; of the other values the empty ones and zero are false. -/
def toBool (key : Key) (v : Json) : Except SettingError Bool :=
  match v with
  | .string s =>
    if trueWords.contains (lower s) then .ok true
    else if falseWords.contains (lower s) then .ok false
    else .error (.notBoolean key s)
  | .null => .ok false
  | .bool b => .ok b
  | .int n => .ok (n ≠ 0)
  | .float x => .ok !(x == 0)
  | .array items => .ok !items.isEmpty
  | .object members => .ok !members.isEmpty

def toInt (v : Json) : Except SettingError Int :=
  match v with
  | .string s =>
    match Number.readInteger s with
    | .ok n => .ok n
    | .error .malformed => .error (.notInteger s)
    | .error (.tooLong digits) => .error (.longInteger digits)
  | .bool b => .ok (if b then 1 else 0)
  | .int n => .ok n
  | .float x =>
    match Number.truncate x with
    | .ok n => .ok n
    | .error .nan => .error .nanInteger
    | .error .infinite => .error .outOfRange
  | .null | .array _ | .object _ => .error .unfit

def toPositive (key : Key) (v : Json) : Except SettingError Nat := do
  let n ← toInt v
  if n < 1 then .error (.notPositive key) else return n.toNat

def toFloat (v : Json) : Except SettingError Float :=
  match v with
  | .string s =>
    match Number.readDouble s with
    | some x => .ok x
    | none => .error (.notNumber s)
  | .bool b => .ok (if b then 1 else 0)
  | .int n =>
    let x := Number.ofInt n
    if x.isInf then .error .outOfRange else .ok x
  | .float x => .ok x
  | .null | .array _ | .object _ => .error .unfit

def toFactor (key : Key) (v : Json) : Except SettingError Float := do
  let x ← toFloat v
  if x ≤ 1 then .error (.notAboveOne key) else return x

/-- The settings with a new value for a key. -/
def update (s : Settings) (key : Key) (v : Json) : Except SettingError Settings :=
  match key with
  | .debugLevel => return { s with debugLevel := ← toLevel v }
  | .threshold => return { s with threshold := ← toPositive key v }
  | .growth => return { s with growth := ← toFactor key v }
  | .stress => return { s with stress := ← toBool key v }
  | .maxCallDepth => return { s with maxCallDepth := ← toPositive key v }

def set (s : Settings) (name : String) (v : Json) : Except SettingError Settings :=
  match Key.ofName? name with
  | some key => s.update key v
  | none => .error (.unknownKey name)

def get (s : Settings) : Key → Json
  | .debugLevel => .string s.debugLevel.name
  | .threshold => .int s.threshold
  | .growth => .float s.growth
  | .stress => .bool s.stress
  | .maxCallDepth => .int s.maxCallDepth

/-- All settings by name. -/
def members (s : Settings) : List (String × Json) := Key.all.map fun k => (k.name,s.get k)

end Lox.Settings
