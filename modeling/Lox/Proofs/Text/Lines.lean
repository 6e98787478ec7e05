import Lox.Proofs.Token.Partition
import Lox.Text.Lines
import Mathlib.Data.List.Basic
import Mathlib.Data.List.TakeWhile

/-! # Two ways to count lines

Positions count line feeds alone, while the lines that are quoted end at every line boundary. Up to a
line where no other boundary stands, but for carriage returns right before line feeds, both ways agree.
-/
namespace Lox

namespace Text

/-- A line without the carriage return at its end. -/
def withoutReturn (line : List Char) : List Char :=
  if line.getLast? = some '\r' then line.dropLast else line

/-- The text between two line feeds, by the number of the line. -/
def fedLine? (source : String) (n : Nat) : Option (List Char) := (source.toList.splitOn '\n')[n - 1]?

/-- No line up to a number holds a boundary, apart from a carriage return at its end. -/
def Unbroken (source : String) (n : Nat) : Prop :=
  ∀ line ∈ (source.toList.splitOn '\n').take n, ∀ c ∈ withoutReturn line, isLineEnd c = false

instance (source : String) (n : Nat) : Decidable (Unbroken source n) :=
  inferInstanceAs (Decidable (∀ line ∈ (source.toList.splitOn '\n').take n,
    ∀ c ∈ withoutReturn line, isLineEnd c = false))

theorem withoutReturn_append_return (line : List Char) : withoutReturn (line ++ ['\r']) = line := by
  simp [withoutReturn]

theorem withoutReturn_of_not_mem {line : List Char} (h : '\r' ∉ line) : withoutReturn line = line := by
  refine if_neg fun last => h (List.mem_of_getLast? last)

/-- Only the last character of a line can be a boundary that is dropped. -/
theorem eq_nil_of_withoutReturn {line more : List Char} {c : Char} (ends : isLineEnd c = true)
    (quiet : ∀ d ∈ withoutReturn (line ++ c :: more), isLineEnd d = false) : more = [] ∧ c = '\r' := by
  rcases List.eq_nil_or_concat' more with rfl | ⟨init,d,rfl⟩
  · refine ⟨rfl,Decidable.byContradiction fun other => ?_⟩
    have kept : withoutReturn (line ++ [c]) = line ++ [c] := if_neg (by simpa using other)
    have := quiet c (by simp [kept])
    simp [ends] at this
  · exfalso
    have inside : c ∈ withoutReturn (line ++ c :: (init ++ [d])) := by
      rw [withoutReturn]
      split
      · rw [← List.cons_append,← List.append_assoc,List.dropLast_concat]
        simp
      · simp
    have := quiet c inside
    simp [ends] at this

theorem not_isLineEnd_of_mem {c : Char} {line : List Char} (quiet : ∀ d ∈ line, isLineEnd d = false)
    (h : isLineEnd c = true) : c ∉ line := fun hc => by simp [quiet c hc] at h

/-- The first line of a text is what stands before its first line feed. -/
theorem splitOn_append {line : List Char} (one : '\n' ∉ line) (cs : List Char) :
    ∃ lines, (line ++ cs).splitOn '\n' = (line ++ cs.takeWhile (· ≠ '\n')) :: lines := by
  have inside : '\n' ∉ line ++ cs.takeWhile (· ≠ '\n') := by
    rw [List.mem_append,not_or]
    exact ⟨one,fun h => by simpa using List.mem_takeWhile_imp h⟩
  have whole : line ++ cs = line ++ cs.takeWhile (· ≠ '\n') ++ cs.dropWhile (· ≠ '\n') := by
    rw [List.append_assoc,List.takeWhile_append_dropWhile]
  rw [whole]
  cases e : cs.dropWhile (· ≠ '\n') with
  | nil =>
    rw [List.append_nil]
    exact ⟨[],List.splitOn_eq_singleton inside⟩
  | cons d ds =>
    have feed : d = '\n' := by
      have head := List.head?_dropWhile_not (p := (· ≠ '\n')) cs
      rw [e] at head
      simpa using head
    subst feed
    exact ⟨_,List.splitOn_append_cons_self_of_not_mem inside ds⟩

/-- The lines of a text whose first one has begun, as far as no boundary stands within a line. -/
theorem linesFrom_getElem? {begun cs : List Char} (quiet : ∀ c ∈ begun, isLineEnd c = false) {i : Nat}
    (unbroken : ∀ line ∈ ((begun.reverse ++ cs).splitOn '\n').take (i + 1),
      ∀ c ∈ withoutReturn line, isLineEnd c = false) {quoted : String}
    (h : (linesFrom begun cs)[i]? = some quoted) :
    ∃ line, ((begun.reverse ++ cs).splitOn '\n')[i]? = some line ∧
      quoted = String.ofList (withoutReturn line) := by
  have plain : ∀ {ds : List Char}, (∀ c ∈ ds, isLineEnd c = false) →
      '\n' ∉ ds.reverse ∧ withoutReturn ds.reverse = ds.reverse := fun hd =>
    ⟨fun h => not_isLineEnd_of_mem hd rfl (List.mem_reverse.mp h),
      withoutReturn_of_not_mem fun h => not_isLineEnd_of_mem hd rfl (List.mem_reverse.mp h)⟩
  fun_induction linesFrom begun cs generalizing i with
  | case1 begun empty => exact nomatch h
  | case2 begun more =>
    obtain ⟨one,same⟩ := plain quiet
    cases i with
    | succ i => exact nomatch h
    | zero =>
      rw [List.append_nil,List.splitOn_eq_singleton one]
      exact ⟨_,rfl,by rw [same]; exact (Option.some.inj h).symm⟩
  | case3 begun cs ih =>
    obtain ⟨one,same⟩ := plain quiet
    have inside : '\n' ∉ begun.reverse ++ ['\r'] := by
      rw [List.mem_append,not_or]
      exact ⟨one,by decide⟩
    have split : (begun.reverse ++ '\r' :: '\n' :: cs).splitOn '\n' =
        (begun.reverse ++ ['\r']) :: cs.splitOn '\n' := by
      rw [List.append_cons]
      exact List.splitOn_append_cons_self_of_not_mem inside cs
    rw [split] at unbroken ⊢
    cases i with
    | zero => exact ⟨_,rfl,by rw [withoutReturn_append_return]; exact (Option.some.inj h).symm⟩
    | succ i =>
      exact ih (fun _ hc => absurd hc List.not_mem_nil)
        (fun line hl => unbroken line (List.mem_cons_of_mem _ hl)) h
  | case4 begun c cs other ends ih =>
    obtain ⟨one,same⟩ := plain quiet
    by_cases feed : c = '\n'
    · subst feed
      rw [List.splitOn_append_cons_self_of_not_mem one] at unbroken ⊢
      cases i with
      | zero => exact ⟨_,rfl,by rw [same]; exact (Option.some.inj h).symm⟩
      | succ i =>
        exact ih (fun _ hc => absurd hc List.not_mem_nil)
          (fun line hl => unbroken line (List.mem_cons_of_mem _ hl)) h
    · -- only a carriage return at the end of the text can stand here
      obtain ⟨lines,e⟩ := splitOn_append one (c :: cs)
      have here : (c :: cs).takeWhile (· ≠ '\n') = c :: cs.takeWhile (· ≠ '\n') :=
        List.takeWhile_cons_of_pos (by simpa using feed)
      rw [here] at e
      obtain ⟨none,rfl⟩ := eq_nil_of_withoutReturn ends
        (unbroken _ (by rw [e]; exact List.mem_cons_self))
      have finish : cs = [] := by
        cases cs with
        | nil => rfl
        | cons d ds =>
          by_cases feed : d = '\n'
          · exact (other ds rfl (by rw [feed])).elim
          · rw [List.takeWhile_cons_of_pos (by simpa using feed)] at none
            cases none
      subst finish
      cases i with
      | succ i => exact nomatch h
      | zero =>
        refine ⟨begun.reverse ++ ['\r'],by rw [e]; rfl,?_⟩
        rw [withoutReturn_append_return]
        exact (Option.some.inj h).symm
  | case5 begun c cs other inner ih =>
    have step : begun.reverse ++ c :: cs = (c :: begun).reverse ++ cs := by simp
    rw [step] at unbroken ⊢
    exact ih (List.forall_mem_cons.mpr ⟨by simpa using inner,quiet⟩) unbroken h

/-! ## The line of a position -/

/-- What stands behind the last line feed. -/
def lastLine (cs : List Char) : List Char := (cs.reverse.takeWhile (· ≠ '\n')).reverse

theorem not_mem_lastLine (cs : List Char) : '\n' ∉ lastLine cs := fun h => by
  simpa using List.mem_takeWhile_imp (List.mem_reverse.mp h)

/-- As many lines end within a text as there are line feeds, and the next one begins with its last line. -/
theorem splitOn_behind (before : List Char) : ∀ rest, ∃ lines, lines.length = before.count '\n' ∧
    (before ++ rest).splitOn '\n' = lines ++ (lastLine before ++ rest).splitOn '\n' := by
  induction before using List.reverseRecOn with
  | nil => exact fun rest => ⟨[],rfl,rfl⟩
  | append_singleton before c ih =>
    intro rest
    obtain ⟨lines,count,e⟩ := ih (c :: rest)
    rw [List.append_assoc,List.singleton_append,e]
    by_cases feed : c = '\n'
    · subst feed
      refine ⟨lines ++ [lastLine before],by simp [count],?_⟩
      rw [List.splitOn_append_cons_self_of_not_mem (not_mem_lastLine before)]
      simp [lastLine]
    · refine ⟨lines,by simp [count,feed],?_⟩
      simp [lastLine,feed]

/-- A position stands in the line with its number, not further right than behind its end. -/
theorem fedLine?_behind {source : String} {before rest : List Char} (e : source.toList = before ++ rest) :
    ∃ line, fedLine? source (Pos.behind before).line = some line ∧
      line = lastLine before ++ rest.takeWhile (· ≠ '\n') ∧
      (Pos.behind before).column = (lastLine before).length + 1 := by
  obtain ⟨lines,count,e'⟩ := splitOn_behind before rest
  obtain ⟨more,first⟩ := splitOn_append (not_mem_lastLine before) rest
  refine ⟨_,?_,rfl,by simp [Pos.behind,lastLine,Nat.add_comm]⟩
  rw [fedLine?,e,e',first]
  simp [Pos.behind,← count]

end Text
end Lox
