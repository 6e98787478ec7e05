import Lox.Proofs.Ast.Origins
import Lox.Proofs.Eval.Blame
import Lox.Proofs.Session.Compilation
import Lox.Proofs.Session.Depth
import Lox.Proofs.Session.Keeping
import Lox.Proofs.Text.Lines

/-! # Sources of errors

Every error is in some source. What is found before a program runs is in the source at hand. A runtime error
stands where a token does: of the source at hand, or of an earlier one that has left routines behind.
-/
namespace Lox
open Machine

/-- A token of a source is at a position. -/
def TokenAt (source : String) (p : Pos) : Prop := ∃ t ∈ (scan source).tokens, t.pos = p

instance (source : String) (p : Pos) : Decidable (TokenAt source p) :=
  inferInstanceAs (Decidable (∃ t ∈ (scan source).tokens, t.pos = p))

/-- A position is one in a text. -/
def Pos.In (source : String) (p : Pos) : Prop :=
  ∃ before rest, source.toList = before ++ rest ∧ p = .behind before

/-! ## Errors before a program runs -/

theorem Partition.positions {before rest : List Char} {ts : List Token} {es : List Diagnostic}
    (h : Partition before rest ts es) {source : String} (whole : source.toList = before ++ rest) :
    (∀ t ∈ ts, t.pos.In source) ∧ ∀ d ∈ es, d.pos.In source := by
  induction h with
  | finish => exact ⟨List.forall_mem_singleton.mpr ⟨_,_,whole,rfl⟩,fun _ hd => absurd hd List.not_mem_nil⟩
  | blank _ _ ih => exact ih (by rw [whole,List.append_assoc,List.singleton_append])
  | comment _ _ _ ih => exact ih (by rw [whole,List.append_assoc])
  | stray _ _ ih =>
    obtain ⟨tokens,errors⟩ := ih (by rw [whole,List.append_assoc,List.singleton_append])
    exact ⟨tokens,List.forall_mem_cons.mpr ⟨⟨_,_,whole,rfl⟩,errors⟩⟩
  | unterminated =>
    exact ⟨List.forall_mem_singleton.mpr ⟨_,[],by rw [whole,List.append_nil],rfl⟩,
      List.forall_mem_singleton.mpr ⟨_,_,whole,rfl⟩⟩
  | token stands _ ih =>
    obtain ⟨tokens,errors⟩ := ih (by rw [whole,List.append_assoc])
    exact ⟨List.forall_mem_cons.mpr ⟨⟨_,_,whole,stands.pos⟩,tokens⟩,errors⟩

theorem scan_positions (source : String) :
    (∀ t ∈ (scan source).tokens, t.pos.In source) ∧ ∀ d ∈ (scan source).errors, d.pos.In source :=
  (partition_pieces [] source.toList).positions rfl

theorem scan_tokens_ne_nil (source : String) : (scan source).tokens ≠ [] := by
  obtain ⟨ts,e,eq,-,-⟩ := ended_scan source
  rw [eq]
  exact List.append_ne_nil_of_right_ne_nil ts (List.cons_ne_nil e [])

/-- The errors of a source are at positions in it. -/
theorem compile_errors_in (source : String) : ∀ d ∈ (compile source).errors, d.pos.In source := by
  obtain ⟨tokens,errors⟩ := scan_positions source
  obtain ⟨program,errors⟩ := parseScan_within (scan_tokens_ne_nil source) tokens errors
  simp only [compile]
  split
  · exact scopeErrors_within program
  · exact errors

/-- Every position in a program that compiled is that of a token. -/
theorem compile_within {S : Pos → Prop} {source : String} (tokens : ∀ p, TokenAt source p → S p)
    (clean : (compile source).errors = []) : BodyWithin S (compile source).program := by
  obtain ⟨quiet,-,program⟩ := compile_eq_nil clean
  have silent : ∀ d ∈ (scan source).errors, S d.pos := by
    rw [(whole_of_parse quiet).1]
    exact fun _ hd => absurd hd List.not_mem_nil
  have within := parseScan_within (scan_tokens_ne_nil source) (fun t ht => tokens t.pos ⟨t,ht,rfl⟩) silent
  rw [program]
  exact resolve_within within.1

theorem TokenAt.in {source : String} {p : Pos} (h : TokenAt source p) : p.In source := by
  obtain ⟨t,ht,rfl⟩ := h
  exact (scan_positions source).1 t ht

/-! ## Runtime errors -/

section
variable {S : Pos → Prop}

theorem enduring_within (S : Pos → Prop) : Enduring (Heap.Routines (Routine.Within S)) (Task.Plants S) where
  toKept := kept_within S
  empty := Heap.every_empty
  native f := bindable_routines (Routine.Within S) f.name

/-- The error of a run is that of its statements. -/
theorem Machine.broken_of_run {m : Machine} {p : Program} {steps : Nat} {e : RuntimeError}
    (failed : (m.run steps p).1 = .error e) : ∃ k l, Exec.trace .normal (fun _ => s!"run: {p.length} statements")
      { m with current := m.globals, steps } = .ok () k ∧ k.heap = m.heap ∧
      executeProgram (nesting steps) p k = .error (.error e) l := by
  obtain ⟨log,traced⟩ := trace_eq .normal (fun _ => s!"run: {p.length} statements")
    { m with current := m.globals, steps }
  rw [Comparison.run_eq] at failed
  simp only [Bind.bind,EStateM.bind,traced] at failed
  cases ran : executeProgram (nesting steps) p { m with current := m.globals, steps, log } with
  | ok _ k => rw [ran] at failed; cases failed
  | error t k =>
    rw [ran] at failed
    cases t with
    | error e' =>
      cases failed
      exact ⟨_,k,traced,rfl,ran⟩
    | fault | cut => cases failed

theorem Machine.blamed_run {m : Machine} {p : Program} {steps : Nat} {e : RuntimeError}
    (here : BodyWithin S p) (holds : m.heap.Routines (Routine.Within S))
    (failed : (m.run steps p).1 = .error e) : S e.pos := by
  obtain ⟨k,l,-,same,broken⟩ := broken_of_run failed
  exact blamed_executeProgram here (same ▸ holds) broken

/-- The routines that a source leaves behind have their positions in a set. -/
def Entry.Leaves (S : Pos → Prop) (x : Entry) : Prop :=
  (compile x.source).errors = [] → ∀ r ∈ bodyRoutines (compile x.source).program, r.Within S

namespace Session
variable {s : Session}

theorem routines_run (x : Entry) (leaves : x.Leaves S) (holds : s.machine.heap.Routines (Routine.Within S)) :
    (s.run x.source x.file x.steps).2.machine.heap.Routines (Routine.Within S) := by
  obtain ⟨m,log,same,-,e⟩ := s.run_eq x.source x.file x.steps
  have holds : m.heap.Routines (Routine.Within S) := same ▸ holds
  rw [e]
  split
  · next clean =>
    have leaves := leaves (List.isEmpty_iff.mp clean)
    exact (kept_within S).run (fun t ht r hr => leaves r (mem_bodyRoutines ht hr)) holds x.steps
  · exact holds

theorem routines_after {entries : List Entry} (leave : ∀ x ∈ entries, x.Leaves S)
    (holds : s.machine.heap.Routines (Routine.Within S)) :
    (s.after entries).machine.heap.Routines (Routine.Within S) := by
  induction entries generalizing s with
  | nil => exact holds
  | cons x rest ih =>
    obtain ⟨first,others⟩ := List.forall_mem_cons.mp leave
    exact ih others (routines_run x first holds)

/-- A runtime error comes from a source without static errors, and names its file. -/
theorem run_eq_error {source file : String} {steps : Nat} {r : RunResult} {e : RuntimeError}
    (ran : (s.run source file steps).1 = .result r) (failed : r.runtimeError = some e) :
    (compile source).errors = [] ∧ r = { runtimeError := some e, errorFile := some file } ∧
      ∃ m : Machine, m.heap = s.machine.heap ∧ (m.run steps (compile source).program).1 = .error e := by
  obtain ⟨m,log,same,ending,-⟩ := s.run_eq source file steps
  rw [ran] at ending
  split at ending
  · next clean =>
    refine ⟨List.isEmpty_iff.mp clean,?_⟩
    generalize outcome : (m.run steps (compile source).program).1 = o at ending
    cases o with
    | error e' =>
      cases ending
      cases failed
      exact ⟨rfl,m,by rw [same],outcome⟩
    | done => cases ending; cases failed
    | fault | cut => cases ending
  · cases ending
    cases failed

/-- A runtime error is at a position of the source at hand or of a routine that was left behind. -/
theorem error_within {settings : Settings} {clock : Float} (fresh : Session.start settings clock = .ok s)
    {entries : List Entry} (leave : ∀ x ∈ entries, x.Leaves S) {source file : String} {steps : Nat}
    (here : (compile source).errors = [] → BodyWithin S (compile source).program) {r : RunResult}
    {e : RuntimeError} (ran : ((s.after entries).run source file steps).1 = .result r)
    (failed : r.runtimeError = some e) : S e.pos := by
  obtain ⟨clean,-,m,same,outcome⟩ := run_eq_error ran failed
  have holds := routines_after leave ((enduring_within S).start (machine_of_start fresh))
  rw [← same] at holds
  exact blamed_run (here clean) holds outcome

end Session
end
end Lox
