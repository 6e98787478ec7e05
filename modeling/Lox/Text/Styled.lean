/-! # Styled text

Text for a console, some of it emphasised. Its marked-up form names the styles of a piece in
brackets on both sides; its plain form leaves them out.
-/
namespace Lox.Text

inductive Style
  | bold
  | red
  | green
  | blue
deriving DecidableEq, Repr

def Style.name : Style → String
  | bold => "bold"
  | red => "red"
  | green => "green"
  | blue => "blue"

structure Span where
  styles : List Style := []
  text : String
deriving DecidableEq, Repr

def Span.markup (s : Span) : String :=
  if s.styles.isEmpty then s.text
  else
    let names := " ".intercalate (s.styles.map (·.name))
    s!"[{names}]{s.text}[/{names}]"

abbrev Styled := List Span

namespace Styled

def raw (text : String) : Styled := [{ text }]

def bold (text : String) : Styled := [⟨[.bold],text⟩]

def markup (t : Styled) : String := String.join (t.map (·.markup))

def plain (t : Styled) : String := String.join (t.map (·.text))

@[simp] theorem markup_raw (text : String) : (raw text).markup = text := by
  simp [raw,markup,Span.markup,String.join]

@[simp] theorem plain_raw (text : String) : (raw text).plain = text := by
  simp [raw,plain,String.join]

end Styled
end Lox.Text
