import Lox.Proofs.Eval.Simulation
import Lox.Session

/-! # Runs of twins

Twins that run alike programs with the same number of steps end alike and are twins again, unless
one of them broke off at a threshold. What they print and the texts of their globals are the same.
-/
namespace Lox
open Machine Exec

namespace Comparison
variable {C : Comparison} {K : List Ref} {m k : Machine}

theorem ends_executeProgram {n n' : Nat} {p q : Program} (like : BodyAlike C.pos p q)
    (hn : 8 * m.steps ≤ n) (hn' : 8 * m.steps ≤ n') (tw : C.Twins K m k) :
    C.Ends (fun _ _ => True) (fun _ => []) (executeProgram n p m) (executeProgram n' q k) := by
  induction p generalizing q m k K with
  | nil =>
    cases like
    exact .pure trivial tw fun _ hr => absurd hr List.not_mem_nil
  | cons s rest ih =>
    cases like with
    | cons like more =>
      refine ((simulates C n n').execute like hn hn' tw.drop).bind fun _ _ m k e _ tw => ?_
      have left := ((balanced n).execute s).fewer e
      exact ih more (by omega) (by omega) tw

/-- Two outcomes of runs correspond. -/
inductive Outcomes (C : Comparison) : Outcome → Outcome → Prop
  | done : Outcomes C .done .done
  | error {c p q} : C.pos p q → Outcomes C (.error ⟨c,p⟩) (.error ⟨c,q⟩)
  | fault {f} : (C.safe → f.isMemory = false) → Outcomes C (.fault f) (.fault f)
  | cut : Outcomes C .cut .cut

/-- A run broke off because the next threshold is no integer. -/
def Strained (o : Outcome) (m : Machine) : Prop :=
  ∃ e, o = .fault (.threshold e) ∧ Heap.grownThreshold m.heap.rules m.heap.liveCount = .error e

theorem Twins.settle (tw : C.Twins K m k) : C.Twins [] m.settle k.settle := by
  refine tw.change Machine.settle rfl (fun _ _ => rfl) ?_
  rintro r (hr | hr)
  · left
    rw [mem_roots] at hr ⊢
    simp only [Machine.settle,List.not_mem_nil,false_and,exists_false,or_false] at hr
    rcases hr with hr | hr | hr
    · exact .inl hr
    · exact .inl hr
    · exact .inr (.inr (.inl hr))
  · exact absurd hr List.not_mem_nil

theorem Twins.restart (tw : C.Twins K m k) (steps : Nat) :
    C.Twins K { m with current := m.globals, steps } { k with current := k.globals, steps } := by
  refine tw.change (fun m => { m with current := m.globals, steps }) rfl (fun _ _ => rfl) fun r hr =>
    hr.imp (fun hr => ?_) id
  rw [mem_roots] at hr ⊢
  rcases hr with hr | hr | hr
  · exact .inl hr
  · exact .inl hr
  · exact .inr (.inr hr)

theorem Twins.logMessage (tw : C.Twins K m k) (s t : String) :
    C.Twins K (m.logMessage s) (k.logMessage t) := by
  obtain ⟨heap,log,rfl,held⟩ := tw
  exact ⟨heap,t :: log,rfl,held⟩

/-- The end of a run, as its outcome and the machine it leaves. -/
def concluded (x : EStateM.Result Halt Machine Unit) : Outcome × Machine :=
  match x with
  | .ok _ m => (.done,m.settle)
  | .error (.error e) m =>
    (.error e,(m.logMessage s!"execution aborted: {e.kind.label}: {e.message}").settle)
  | .error (.fault f) m => (.fault f,m.settle)
  | .error .cut m => (.cut,m.settle)

theorem concluded_ends {x y : EStateM.Result Halt Machine Unit} {kept : Unit → List Ref}
    (h : C.Ends (fun _ _ => True) kept x y) :
    C.Outcomes (concluded x).1 (concluded y).1 ∧ C.Twins [] (concluded x).2 (concluded y).2 ∨
      C.lax ∧ (Strained (concluded x).1 (concluded x).2 ∨
        Strained (concluded y).1 (concluded y).2) := by
  have strained : ∀ {x : EStateM.Result Halt Machine Unit}, Spoiled x →
      Strained (concluded x).1 (concluded x).2 := by
    intro x hx
    cases x with
    | ok _ _ => exact hx.elim
    | error t m =>
      obtain ⟨n,rfl,hn⟩ := hx
      exact ⟨n,rfl,hn⟩
  cases h with
  | ok _ tw => exact .inl ⟨.done,tw.settle⟩
  | error halts tw =>
    cases halts with
    | error pos => exact .inl ⟨.error pos,(tw.logMessage _ _).settle⟩
    | fault safe => exact .inl ⟨.fault safe,tw.settle⟩
    | cut => exact .inl ⟨.cut,tw.settle⟩
  | spoiled lax h => exact .inr ⟨lax,h.imp strained strained⟩

theorem run_eq (steps : Nat) (p : Program) (m : Machine) : m.run steps p = concluded
    ((do trace .normal fun _ => s!"run: {p.length} statements"; executeProgram (nesting steps) p)
      { m with current := m.globals, steps }) := rfl

theorem run_twins {p q : Program} (like : BodyAlike C.pos p q) (tw : C.Twins K m k) (steps : Nat) :
    C.Outcomes (m.run steps p).1 (k.run steps q).1 ∧
        C.Twins [] (m.run steps p).2 (k.run steps q).2 ∨
      C.lax ∧ (Strained (m.run steps p).1 (m.run steps p).2 ∨
        Strained (k.run steps q).1 (k.run steps q).2) := by
  rw [run_eq,run_eq]
  refine concluded_ends ((ends_trace (tw.restart steps) _ _ _).bind fun _ _ m k e _ tw =>
    ends_executeProgram like ?_ ?_ tw)
  · have left := ((leads_trace _ _).ok e).steps
    dsimp only [nesting] at left ⊢
    omega
  · have left := ((leads_trace _ _).ok e).steps
    dsimp only [nesting] at left ⊢
    omega

/-! ## What twins show -/

theorem output_eq (tw : C.Twins K m k) : k.output = m.output := by
  obtain ⟨heap,log,rfl,-⟩ := tw
  rfl

theorem mapM_congr {α β ε : Type} {f g : α → Except ε β} {l : List α} (h : ∀ a ∈ l, f a = g a) :
    l.mapM f = l.mapM g := by
  induction l with
  | nil => rfl
  | cons a l ih =>
    rw [List.mapM_cons,List.mapM_cons,h a List.mem_cons_self,
      ih fun b hb => h b (List.mem_cons_of_mem _ hb)]

theorem globalTexts_eq (tw : C.Twins K m k) : k.globalTexts = m.globalTexts := by
  obtain ⟨heap,log,rfl,held⟩ := tw
  have hg : m.globals ∈ m.roots ++ K := List.mem_append_left K m.globals_mem
  have like := object?_rel held hg
  have more := fun o => mem_held held hg (o := o)
  have texts : ∀ o, m.heap.object? m.globals = some o → ∀ values enclosing,
      o = .environment values enclosing → ∀ e ∈ values.entries,
        e.2.inspect heap = e.2.inspect m.heap := by
    rintro o ho values enclosing rfl e he
    refine (reads_inspect_value (more _ ho) fun r hr => ?_).eq.symm
    exact List.mem_append_left _ (List.mem_append_right _
      (List.mem_flatMap.mpr ⟨e.2,List.mem_map_of_mem he,hr⟩))
  simp only [Machine.globalTexts]
  generalize m.heap.object? m.globals = o,heap.object? m.globals = p at like texts
  cases like with
  | none => rfl
  | @some o _ like =>
    cases like with
    | function _ => rfl
    | same =>
      cases o with
      | environment values enclosing =>
        refine mapM_congr fun e he => ?_
        rw [texts _ rfl values enclosing rfl e he]
      | _ => rfl

end Comparison

theorem trace_eq (level : Level) (message : Unit → String) (m : Machine) :
    ∃ log, trace level message m = .ok () { m with log } := by
  simp only [trace]
  split
  · exact ⟨_,rfl⟩
  · exact ⟨m.log,rfl⟩

/-- A run is its program's, with more in the log. -/
theorem run_eq_concluded (steps : Nat) (p : Program) (m : Machine) : ∃ log, m.run steps p =
    Comparison.concluded (executeProgram (nesting steps) p { m with current := m.globals, steps, log }) := by
  obtain ⟨log,e⟩ := trace_eq .normal (fun _ => s!"run: {p.length} statements")
    { m with current := m.globals, steps }
  refine ⟨log,?_⟩
  rw [Comparison.run_eq]
  simp only [Bind.bind,EStateM.bind,e]

end Lox
