import Lox.Proofs.Eval.Limits
import Lox.Proofs.Session.Invisibility
import Lox.Proofs.Session.Stacks

/-! # The limit on nested calls

Two sessions whose limits differ run the same sources alike, up to the first that is stopped because
calls nest too deep under the lower limit. That one is stopped where one call too many is about to
be entered.
-/
namespace Lox
open Machine Exec Comparison

/-! ## Programs -/

section
variable {M : Int} {m : Machine} {p : Program}

theorem prolongs_executeProgram (n : Nat) (p : Program) : Leads Prolongs (executeProgram n p) := by
  induction p with
  | nil => exact .pure ()
  | cons s rest ih => exact .bind (prolongs n (.execute s)) fun _ => ih

/-- A program breaks off when a statement does that is executed. -/
theorem Machine.Begins.breaks {bound : Nat} {s : Stmt} {j : Machine} (begins : Begins bound p m s j)
    {h : Halt} {k : Machine} (broken : execute bound s j = .error h k) :
    executeProgram bound p m = .error h k := by
  induction begins with
  | first => simp only [executeProgram,Bind.bind,EStateM.bind,broken]
  | later executed _ ih => simp only [executeProgram,Bind.bind,EStateM.bind,executed,ih broken]

theorem limited_executeProgram (n : Nat) (p : Program) (le : m.calls.limit ≤ M) :
    Limited M (∃ s k stages stage j, Begins n p m s k ∧ Stage.Active ⟨n,.execute s,k⟩ stages stage ∧
        stage.Attempts j ∧ j.calls.limit < j.calls.depth + 1)
      (executeProgram n p m) (executeProgram n p (m.withLimit M)) := by
  induction p generalizing m with
  | nil => exact .ok () m
  | cons s rest ih =>
    refine .bind ((limited n (.execute s) le).imp ?_) (fun _ => prolongs_executeProgram n rest) ?_
    · rintro ⟨stages,stage,j,active,attempts,full⟩
      exact ⟨s,m,stages,stage,j,.first,active,attempts,full⟩
    · intro a k executed
      have kept : k.calls.limit = m.calls.limit := ((prolongs n (.execute s)).ok executed).limit
      refine (ih (m := k) (by rw [kept]; exact le)).imp ?_
      rintro ⟨t,l,stages,stage,j,begins,active,attempts,full⟩
      exact ⟨t,l,stages,stage,j,.later executed begins,active,attempts,full⟩

/-- The run was stopped because calls nested too deep. -/
def Outcome.Overflows (o : Outcome) : Prop := ∃ pos, o = .error ⟨.tooDeep,pos⟩

theorem overflows_concluded {x : EStateM.Result Halt Machine Unit} :
    (concluded x).1.Overflows ↔ ∃ pos k, x = .error (.error ⟨.tooDeep,pos⟩) k := by
  constructor
  · rintro ⟨pos,e⟩
    rcases x with ⟨_,k⟩ | ⟨_ | _ | _,k⟩ <;> cases e
    exact ⟨pos,k,rfl⟩
  · rintro ⟨pos,k,rfl⟩
    exact ⟨pos,rfl⟩

theorem concluded_limited {reason : Prop} {x y : EStateM.Result Halt Machine Unit}
    (limited : Limited M reason x y) :
    (¬(concluded x).1.Overflows → concluded y = ((concluded x).1,(concluded x).2.withLimit M)) ∧
      ((concluded x).1.Overflows → reason ∧ Prints (concluded x).2 (concluded y).2) := by
  have output : ∀ y : EStateM.Result Halt Machine Unit, (concluded y).2.output = (stateAfter y).output := by
    intro y
    rcases y with ⟨_,k⟩ | ⟨_ | _ | _,k⟩ <;> rfl
  cases limited with
  | ok a k => exact ⟨fun _ => rfl,fun ⟨pos,e⟩ => nomatch e⟩
  | @error h k other =>
    constructor
    · intro _
      cases h <;> rfl
    · intro overflows
      obtain ⟨pos,l,e⟩ := overflows_concluded.mp overflows
      cases e
      exact absurd rfl (other pos)
  | @refused pos k r why prints =>
    refine ⟨fun quiet => absurd ⟨pos,rfl⟩ quiet,fun _ => ⟨why,?_⟩⟩
    obtain ⟨rest,e⟩ := prints
    exact ⟨rest,(output y).trans e⟩

/-- A run ends alike under a higher limit or is stopped; then a call was to be entered too deep. -/
theorem run_limited (steps : Nat) (p : Program) (le : m.calls.limit ≤ M) :
    (¬(m.run steps p).1.Overflows →
        (m.withLimit M).run steps p = ((m.run steps p).1,(m.run steps p).2.withLimit M)) ∧
      ((m.run steps p).1.Overflows → (∃ stages stage j, m.Progress steps p stages stage ∧
          stage.Attempts j ∧ j.calls.limit < j.calls.depth + 1) ∧
        Prints (m.run steps p).2 ((m.withLimit M).run steps p).2) := by
  have u := uniform_scales M (evaluator 0)
  rw [Comparison.run_eq,Comparison.run_eq]
  have traces := Scales.blind (m := { m with current := m.globals, steps })
    (u.trace .normal fun _ => s!"run: {p.length} statements") le
  refine concluded_limited (.bind (traces.imp False.elim)
    (fun _ => prolongs_executeProgram _ p) fun _ k traced => ?_)
  have le : k.calls.limit ≤ M := by
    rw [((u.trace _ _).prolongs.ok traced).limit]
    exact le
  refine (limited_executeProgram (nesting steps) p le).imp ?_
  rintro ⟨s,l,stages,stage,j,begins,active,attempts,full⟩
  exact ⟨stages,stage,j,⟨k,s,l,traced,begins,active⟩,attempts,full⟩

/-- A call that is to be entered too deep stops the run. -/
theorem run_overflows {steps : Nat} {stages : List Stage} {stage : Stage} {j : Machine}
    (progress : m.Progress steps p stages stage) (attempts : stage.Attempts j)
    (full : j.calls.limit < j.calls.depth + 1) : (m.run steps p).1.Overflows := by
  obtain ⟨k,s,i,traced,begins,active⟩ := progress
  obtain ⟨pos,l,broken⟩ := attempts.refused full
  obtain ⟨l,broken⟩ := active.breaks broken
  rw [Comparison.run_eq,overflows_concluded]
  refine ⟨pos,l,?_⟩
  simp only [Bind.bind,EStateM.bind,traced]
  exact begins.breaks broken

end

/-! ## Sessions -/

/-- A machine starts alike under another limit. -/
theorem Machine.start_withLimit {settings : Settings} {clock : Float} {N M : Nat} (le : N ≤ M) {m k : Machine}
    (low : Machine.start { settings with maxCallDepth := N } clock = .ok m)
    (high : Machine.start { settings with maxCallDepth := M } clock = .ok k) : k = m.withLimit M := by
  have u := uniform_scales M (evaluator 0)
  have first := start_eq_ok low
  have second := start_eq_ok high
  have moved : ∀ r, Scales M (evaluator 0) fun _ =>
      (fun m => .ok () { m.logJournal with globals := r, current := r, worlds := [r] } : Exec Unit) := by
    intro r
    refine scales_const (fun m => ?_) fun m => ?_
    · exact IsTrans.trans m m.logJournal _ (prolongs_logJournal m) (prolongs_of_eq rfl rfl)
    · rw [withLimit_logJournal]
      exact .ok () _
  have made : Scales M (evaluator 0) fun _ => firstEnvironment :=
    u.bind (u.touching .start (Heap.plainM_create _)) fun r =>
      u.bind (scales_onHeap .start fun h k failed => nomatch Heap.faultsM_register r [] h _ k failed) fun _ =>
      u.bind (moved r) fun _ =>
      u.installNatives r Native.all
  have limited := made.blind (m := blank { settings with maxCallDepth := N } clock)
    (show (N : Int) ≤ M by omega)
  rw [first,show (blank { settings with maxCallDepth := N } clock).withLimit M =
    blank { settings with maxCallDepth := M } clock from rfl,second] at limited
  cases limited
  rfl

/-- The same session under another limit on nested calls. -/
def Session.withLimit (s : Session) (limit : Int) : Session :=
  { s with machine := s.machine.withLimit limit }

/-- The source was stopped because calls nested too deep. -/
def Session.Ending.Overflows (e : Session.Ending) : Prop :=
  ∃ r error, e = .result r ∧ r.runtimeError = some error ∧ error.kind = .stackOverflow

/-- The session behind some sources. -/
def Session.after (s : Session) : List Entry → Session
  | [] => s
  | e :: rest => Session.after (s.run e.source e.file e.steps).2.takeOutput.2 rest

theorem RuntimeError.Cause.kind_eq_stackOverflow {c : Cause} : c.kind = .stackOverflow ↔ c = .tooDeep := by
  cases c <;> simp [Cause.kind]

theorem Session.overflows_ofOutcome {file : Option String} {o : Outcome} :
    (Ending.ofOutcome file o).Overflows ↔ o.Overflows := by
  constructor
  · rintro ⟨r,⟨c,pos⟩,e,failed,kind⟩
    obtain rfl := RuntimeError.Cause.kind_eq_stackOverflow.mp kind
    cases o <;> cases e <;> cases failed
    exact ⟨pos,rfl⟩
  · rintro ⟨pos,rfl⟩
    exact ⟨_,_,rfl,rfl,rfl⟩

namespace Session
variable {s : Session} {M : Int}

theorem compileSource_withLimit (s : Session) (source file : String) (M : Int) :
    (s.withLimit M).compileSource source file =
      ((s.compileSource source file).1,(s.compileSource source file).2.withLimit M) := by
  simp only [compileSource]
  show (if s.machine.level.logs .verbose then _ else _) = _
  split <;> rfl

theorem limit_compileSource (s : Session) (source file : String) :
    (s.compileSource source file).2.machine.calls.limit = s.machine.calls.limit := by
  obtain ⟨log,e⟩ := s.compileSource_machine source file
  rw [e]

/-- A source runs alike under a higher limit, or it is stopped. -/
theorem run_withLimit (le : s.machine.calls.limit ≤ M) (source file : String) (steps : Nat) :
    (¬(s.run source file steps).1.Overflows → (s.withLimit M).run source file steps =
        ((s.run source file steps).1,(s.run source file steps).2.withLimit M)) ∧
      ((s.run source file steps).1.Overflows → (compile source).errors = [] ∧
        (∃ stages stage j, (s.compileSource source file).2.machine.Progress steps (compile source).program
            stages stage ∧ stage.Attempts j ∧ j.calls.limit < j.calls.depth + 1) ∧
        Prints (s.run source file steps).2.machine ((s.withLimit M).run source file steps).2.machine) := by
  simp only [run,compileSource_withLimit,compileSource_fst]
  by_cases clean : (compile source).errors.isEmpty
  · rw [if_pos clean,if_pos clean]
    have le : (s.compileSource source file).2.machine.calls.limit ≤ M := by
      rwa [limit_compileSource]
    obtain ⟨same,stopped⟩ := run_limited steps (compile source).program le
    simp only [runMachine,overflows_ofOutcome]
    constructor
    · intro quiet
      simp only [withLimit,same quiet]
    · intro overflows
      obtain ⟨refused,prints⟩ := stopped overflows
      exact ⟨List.isEmpty_iff.mp clean,refused,prints⟩
  · rw [if_neg clean,if_neg clean]
    refine ⟨fun _ => rfl,?_⟩
    rintro ⟨r,error,e,failed,-⟩
    cases e
    cases failed

theorem limit_ran (s : Session) (source file : String) (steps : Nat) :
    (s.run source file steps).2.machine.calls.limit = s.machine.calls.limit := by
  obtain ⟨m,log,rfl,-,machine⟩ := s.run_eq source file steps
  rw [machine]
  split
  · rw [limit_run]
  · rfl

/-- Sources that are not stopped are run alike under a higher limit, and leave the same session. -/
theorem play_withLimit (le : s.machine.calls.limit ≤ M) {entries : List Entry}
    (quiet : ∀ x ∈ s.play entries, ¬x.1.ending.Overflows) :
    (s.withLimit M).play entries = (s.play entries).map (fun x => (x.1,x.2.withLimit M)) ∧
      (s.withLimit M).after entries = (s.after entries).withLimit M := by
  induction entries generalizing s with
  | nil => exact ⟨rfl,rfl⟩
  | cons e rest ih =>
    obtain ⟨first,quiet⟩ := List.forall_mem_cons.mp quiet
    have same := (run_withLimit le e.source e.file e.steps).1 first
    have kept : (s.run e.source e.file e.steps).2.takeOutput.2.machine.calls.limit =
        s.machine.calls.limit := s.limit_ran e.source e.file e.steps
    obtain ⟨played,after⟩ := ih (kept ▸ le) quiet
    simp only [play,Session.after,same]
    refine ⟨congrArg _ ?_,after⟩
    exact played

/-- The sources before have been run. -/
theorem Reached.after (reached : s.Reached) (entries : List Entry) : (s.after entries).Reached := by
  induction entries generalizing s with
  | nil => exact reached
  | cons e rest ih => exact ih (.takeOutput (.run e.source e.file e.steps reached))

theorem limit_after (s : Session) (entries : List Entry) :
    (s.after entries).machine.calls.limit = s.machine.calls.limit := by
  induction entries generalizing s with
  | nil => rfl
  | cons e rest ih => exact (ih _).trans (s.limit_ran e.source e.file e.steps)

end Session

/-- How some sources end in a fresh session under a limit. -/
def endings (limit : Nat) (entries : List Entry) : List Session.Ending :=
  match Session.start { maxCallDepth := limit } 0 with
  | .ok s => (s.play entries).map (·.1.ending)
  | .error _ => []

/-- A function that calls itself without end. -/
def endless : Entry := ⟨"fun f() \x7b f(); \x7d","a.lox",90⟩

end Lox
