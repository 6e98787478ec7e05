/-! # Positions in a text

Lines and columns count from one, columns in characters. Only a line feed ends a line.
-/
namespace Lox

structure Pos where
  line : Nat
  column : Nat
deriving DecidableEq, Repr, Inhabited

namespace Pos

def start : Pos := ⟨1,1⟩

/-- The position behind a character. -/
def next (p : Pos) (c : Char) : Pos :=
  if c = '\n' then ⟨p.line + 1,1⟩ else ⟨p.line,p.column + 1⟩

/-- The position behind a text. -/
def after (p : Pos) (cs : List Char) : Pos := cs.foldl next p

@[simp] theorem after_nil (p : Pos) : p.after [] = p := rfl

@[simp] theorem after_cons (p : Pos) (c : Char) (cs : List Char) :
    p.after (c :: cs) = (p.next c).after cs := rfl

theorem after_append (p : Pos) (cs ds : List Char) :
    p.after (cs ++ ds) = (p.after cs).after ds := List.foldl_append

theorem line_after (p : Pos) (cs : List Char) : (p.after cs).line = p.line + cs.count '\n' := by
  induction cs generalizing p with
  | nil => rfl
  | cons c cs ih =>
    rw [after_cons,ih,List.count_cons]
    by_cases h : c = '\n'
    · simp only [next,h,if_true,beq_self_eq_true]
      omega
    · simp [next,h]

theorem column_after_of_not_mem (p : Pos) {cs : List Char} (h : '\n' ∉ cs) :
    (p.after cs).column = p.column + cs.length := by
  induction cs generalizing p with
  | nil => rfl
  | cons c cs ih =>
    rw [List.mem_cons,not_or] at h
    rw [after_cons,ih _ h.2]
    simp [next,Ne.symm h.1]
    omega

/-- The order in which positions occur in a text. -/
def before (p q : Pos) : Bool := p.line < q.line || (p.line = q.line && p.column < q.column)

end Pos
end Lox
