/-! # Settings

What a user can set: how much is logged, when the heap collects and how deep calls may nest.
-/
namespace Lox

/-- How much is logged. -/
inductive Level
  | none
  | minimal
  | normal
  | verbose
deriving DecidableEq, Repr

namespace Level

def rank : Level → Nat
  | none => 0
  | minimal => 1
  | normal => 2
  | verbose => 3

def name : Level → String
  | none => "none"
  | minimal => "minimal"
  | normal => "normal"
  | verbose => "verbose"

def all : List Level := [none,minimal,normal,verbose]

def ofName? (s : String) : Option Level := all.find? (·.name = s)

/-- Whether a message of a level is logged. -/
def logs (chosen message : Level) : Bool := message ≠ none && message.rank ≤ chosen.rank

end Level

structure Settings where
  debugLevel : Level := .none
  threshold : Nat := 256
  growth : Float := 2
  stress : Bool := false
  maxCallDepth : Nat := 2000

instance : Inhabited Settings := ⟨{}⟩

end Lox
