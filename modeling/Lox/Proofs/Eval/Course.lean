import Lox.Proofs.Eval.Classes
import Lox.Proofs.Eval.Performed

/-! # The course of an evaluation

The tasks that are performed while programs are run come one after another or one within another. All
that lasts on the heap where one of them starts or ends can be found on the heap of any later one, and
on each of these heaps the classes are in order.
-/
namespace Lox
open Machine Exec

/-- A heap whose functions have ordinary names and whose classes are in order. -/
structure Heap.Proper (h : Heap Value) : Prop where
  ordinary : h.Ordinary
  classed : h.Classed

/-- The state in which a task leaves the machine. -/
abbrev Task.after (n : Nat) (t : Task) (m : Machine) : Machine := stateAfter (evaluator n t m)

/-- Tasks that are performed in the course of what leads from one heap to another. -/
structure Course (P : Nat → Task → Machine → Prop) (g h : Heap Value) : Prop where
  lasts : g.Lasts h
  proper {l u k} : P l u k → k.heap.Proper ∧ (u.after l k).heap.Proper
  placed {l u k} : P l u k → u.Named Ordinary ∧ u.Placed k
  starts {l u k} : P l u k → g.Lasts k.heap
  ends {l u k} : P l u k → (u.after l k).heap.Lasts h
  ordered {l u k i v j} : P l u k → P i v j → Arises l u k i v j ∨ Arises i v j l u k ∨
    (u.after l k).heap.Lasts j.heap ∨ (v.after i j).heap.Lasts k.heap

namespace Course
variable {P Q : Nat → Task → Machine → Prop} {f g h : Heap Value}

/-- Nothing is performed. -/
theorem idle (lasts : g.Lasts h) : Course (fun _ _ _ => False) g h where
  lasts := lasts
  proper := False.elim
  placed := False.elim
  starts := False.elim
  ends := False.elim
  ordered := False.elim

theorem less (course : Course P g h) (sub : ∀ l u k, Q l u k → P l u k) : Course Q g h where
  lasts := course.lasts
  proper q := course.proper (sub _ _ _ q)
  placed q := course.placed (sub _ _ _ q)
  starts q := course.starts (sub _ _ _ q)
  ends q := course.ends (sub _ _ _ q)
  ordered q q' := course.ordered (sub _ _ _ q) (sub _ _ _ q')

/-- One after another. -/
theorem append (first : Course P f g) (second : Course Q g h) :
    Course (fun l u k => P l u k ∨ Q l u k) f h where
  lasts := first.lasts.trans second.lasts
  proper performed := performed.elim first.proper second.proper
  placed performed := performed.elim first.placed second.placed
  starts performed := performed.elim first.starts fun q => first.lasts.trans (second.starts q)
  ends performed := performed.elim (fun p => (first.ends p).trans second.lasts) second.ends
  ordered := by
    rintro l u k i v j (p | q) (p' | q')
    · exact first.ordered p p'
    · exact .inr (.inr (.inl ((first.ends p).trans (second.starts q'))))
    · exact .inr (.inr (.inr ((first.ends p').trans (second.starts q))))
    · exact second.ordered q q'

theorem before (course : Course P g h) (lasts : f.Lasts g) : Course P f h :=
  ((idle lasts).append course).less fun _ _ _ => .inr

theorem behind (course : Course P f g) (lasts : g.Lasts h) : Course P f h :=
  (course.append (idle lasts)).less fun _ _ _ => .inl

end Course

section
variable {I : Heap Value → Prop} {ready : Task → Prop} {apt : Task → Machine → Prop} {n l : Nat}
  {t u : Task} {m k : Machine}

/-- The invariant holds where any task is performed in the course of another. -/
theorem Kept.arises (kept : Kept I ready apt) (arises : Arises n t m l u k) (isReady : ready t)
    (isApt : apt t m) (holds : I m.heap) : ready u ∧ apt u k ∧ I k.heap := by
  induction arises with
  | itself => exact ⟨isReady,isApt,holds⟩
  | asked _ asks ih =>
    obtain ⟨isReady,isApt,holds⟩ := ih
    exact kept.asks isReady isApt holds asks

theorem proper_after (proper : m.heap.Proper) (named : t.Named Ordinary) (placed : t.Placed m) (n : Nat) :
    (t.after n m).heap.Proper :=
  have after := kept_classed.stays n named placed ⟨proper.ordinary,proper.classed⟩
  ⟨after.1,after.2⟩

/-- The course of a task. -/
theorem course_arises (proper : m.heap.Proper) (named : t.Named Ordinary) (placed : t.Placed m) (n : Nat) :
    Course (Arises n t m) m.heap (t.after n m).heap := by
  have arising : ∀ {l u k}, Arises n t m l u k → u.Named Ordinary ∧ u.Placed k ∧ k.heap.Proper := by
    intro l u k arises
    obtain ⟨named,placed,ordinary,classed⟩ :=
      kept_classed.arises arises named placed ⟨proper.ordinary,proper.classed⟩
    exact ⟨named,placed,ordinary,classed⟩
  constructor
  case lasts =>
    exact ((kept_lasts m.heap).stays n named trivial ⟨proper.ordinary,.refl _⟩).2
  case proper =>
    intro l u k arises
    obtain ⟨named,placed,proper⟩ := arising arises
    exact ⟨proper,proper_after proper named placed l⟩
  case placed => exact fun arises => ⟨(arising arises).1,(arising arises).2.1⟩
  case starts => exact fun arises => (arises.lasts named proper.ordinary).2.2.1
  case ends => exact fun arises => (arises.lasts named proper.ordinary).2.2.2
  case ordered => exact fun first second => first.ordered second named proper.ordinary

end

section
variable {m : Machine} {p : Program}

/-- The course of statements in order, where `super` is not bound in the globals. -/
theorem course_executes (proper : m.heap.Proper) (outside : m.heap.Supers m.current none)
    (named : BodyNamed Ordinary p) (bound : Nat) :
    Course (Executes bound p m) m.heap (stateAfter (executeProgram bound p m)).heap ∧
      (stateAfter (executeProgram bound p m)).heap.Proper := by
  induction p generalizing m with
  | nil => exact ⟨.idle (.refl _),proper⟩
  | cons s rest ih =>
    have first := course_arises (t := .execute s) proper named.1 ⟨trivial,outside⟩ bound
    have after := proper_after (t := .execute s) proper named.1 ⟨trivial,outside⟩ bound
    have resumes : Resumes m _ := ((balanced bound).execute s).resumes m
    simp only [Task.after] at first after
    simp only [executeProgram,Bind.bind,EStateM.bind,Executes]
    rw [show evaluator bound (.execute s) = execute bound s from rfl] at first after resumes
    cases e : execute bound s m with
    | error t k =>
      rw [e] at first after
      refine ⟨first.less ?_,after⟩
      rintro l u k (arises | ⟨_,_,none,_⟩)
      · exact arises
      · cases none
    | ok a k =>
      rw [e] at first after resumes
      have outside : k.heap.Supers k.current none := by
        rw [show k.current = m.current from resumes.current]
        exact outside.lasts first.lasts
      obtain ⟨later,proper⟩ := ih after outside named.2
      refine ⟨(first.append later).less ?_,proper⟩
      rintro l u k (arises | ⟨_,_,e,executes⟩)
      · exact .inl arises
      · cases e
        exact .inr executes

/-- The course of a run. -/
theorem course_run (proper : m.heap.Proper) (outside : m.heap.Supers m.globals none)
    (named : BodyNamed Ordinary p) (steps : Nat) :
    Course (Machine.Performs steps p m) m.heap (m.run steps p).2.heap ∧ (m.run steps p).2.heap.Proper := by
  obtain ⟨log,traced⟩ := trace_eq .normal (fun _ => s!"run: {p.length} statements")
    { m with current := m.globals, steps }
  have ran := course_executes (m := { m with current := m.globals, steps, log }) proper outside named
    (nesting steps)
  have same : (m.run steps p).2.heap =
      (stateAfter (executeProgram (nesting steps) p { m with current := m.globals, steps, log })).heap := by
    rw [Comparison.run_eq]
    simp only [Bind.bind,EStateM.bind,traced]
    generalize executeProgram (nesting steps) p _ = x
    rcases x with ⟨_,k⟩ | ⟨_ | _ | _,k⟩ <;> rfl
  rw [same]
  refine ⟨ran.1.less ?_,ran.2⟩
  rintro l u k ⟨_,traced',executes⟩
  cases traced'.symm.trans traced
  exact executes

end
end Lox
