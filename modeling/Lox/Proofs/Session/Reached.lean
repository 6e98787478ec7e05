import Lox.Proofs.Machine.Runs

/-! # Reachable sessions

The sessions that a host can bring about. Nothing is in use in them: runs leave every stack empty,
however they end.
-/
namespace Lox
open Machine Exec

/-- A session that can be reached: sources are run in the globals or in environments of their own,
and in between a host makes environments, takes what was printed or logged, and collects. -/
inductive Session.Reached : Session → Prop
  | start {settings clock s} : Session.start settings clock = .ok s → Reached s
  | run {s} (source file : String) (steps : Nat) : Reached s → Reached (s.run source file steps).2
  | runIn {s} (env : Ref) (source file : String) (steps : Nat) : Reached s →
      Reached (s.runIn env source file steps).2
  | newEnvironment {s} : Reached s → Reached s.newEnvironment.2
  | takeOutput {s} : Reached s → Reached s.takeOutput.2
  | takeLog {s} : Reached s → Reached s.takeLog.2
  | collect {s} : Reached s → Reached { s with machine := stateAfter (Machine.collect s.machine) }

namespace Machine

/-- Nothing is in use. -/
structure Idle (m : Machine) : Prop where
  saved : m.saved = []
  temps : m.temps = []
  frames : m.frames = []
  depth : m.calls.depth = 0

variable {m k : Machine}

theorem idle_settle (m : Machine) : m.settle.Idle := ⟨rfl,rfl,rfl,rfl⟩

theorem Idle.settle_eq (idle : m.Idle) (h : m.current = m.globals) : m.settle = m := by
  obtain ⟨heap,globals,current,worlds,saved,temps,frames,⟨limit,depth,deepest,refused⟩,level,steps,
    clock,output,log⟩ := m
  obtain ⟨rfl,rfl,rfl,rfl⟩ := idle
  cases h
  rfl

theorem Idle.resumes (idle : m.Idle) (h : Resumes m k) : k.Idle :=
  ⟨h.saved.trans idle.saved,h.temps_eq.trans idle.temps,h.frames.trans idle.frames,
    h.depth.trans idle.depth⟩

/-- An operation between runs keeps a machine idle. -/
def StaysIdle (m k : Machine) : Prop := m.Idle → k.Idle

instance : IsPreorder Machine StaysIdle where
  refl _ := id
  trans _ _ _ mk kl idle := kl (mk idle)

/-- A relation that sees neither where programs run nor the heap. -/
class SeesUse (R : Machine → Machine → Prop) extends IsPreorder Machine R where
  resumes {m k : Machine} : Resumes m k → R m k
  moved (m : Machine) (globals current : Ref) (worlds : List Ref) : R m { m with globals, current, worlds }

instance : SeesUse StaysIdle where
  resumes h idle := idle.resumes h
  moved _ _ _ _ idle := ⟨idle.saved,idle.temps,idle.frames,idle.depth⟩

/-- Calls may nest as deep as before. -/
def KeepsLimit (m k : Machine) : Prop := k.calls.limit = m.calls.limit

instance : SeesUse KeepsLimit where
  refl _ := rfl
  trans _ _ _ mk kl := Eq.trans kl mk
  resumes h := h.limit
  moved _ _ _ _ := rfl

section
variable {R : Machine → Machine → Prop} [SeesUse R]

theorem leads_seesUse {α : Type} {x : Exec α} (h : Leads Resumes x) : Leads R x :=
  fun m => SeesUse.resumes (h m)

end

theorem leads_installNatives (env : Ref) (fs : List Native) :
    Leads Resumes (installNatives env fs) := by
  induction fs with
  | nil => exact .pure ()
  | cons f rest ih =>
    refine .bind (leads_reading _ _) fun values => ?_
    dsimp only
    split
    · exact .bind (leads_define _ _ _) fun _ => ih
    · exact ih

/-- A relation that sees neither the heap nor the list of worlds, and allows for other globals. -/
theorem leads_entering {R : Machine → Machine → Prop} [IsPreorder Machine R] (env : Ref)
    (resumes : ∀ {m k}, Resumes m k → R m k) (listed : ∀ m worlds, R m { m with worlds })
    (entered : ∀ m, R m { m with globals := env }) : Leads R (enterWorld env) := by
  have seen : ∀ {α : Type} {x : Exec α}, Leads Resumes x → Leads R x := fun h m => resumes (h m)
  intro m
  simp only [enterWorld]
  split
  · exact Std.Refl.refl m
  · have rest : Leads R (do
        (fun m => .ok () (if m.worlds.contains env then m else { m with worlds := m.worlds ++ [env] }))
        installNatives env Native.all
        fun m => .ok () { m with globals := env } : Exec Unit) := by
      refine .bind (fun m => ?_) fun _ => .bind (seen (leads_installNatives _ _)) fun _ => entered
      dsimp only [stateAfter]
      split
      · exact Std.Refl.refl m
      · exact listed m _
    refine Leads.bind (seen (leads_reading _ _)) (fun _ => ?_) m
    split
    · exact .bind (seen (leads_registerObject env)) fun _ => rest
    · exact rest

theorem leads_enterWorld {R : Machine → Machine → Prop} [SeesUse R] (env : Ref) :
    Leads R (enterWorld env) :=
  leads_entering env SeesUse.resumes (fun m worlds => SeesUse.moved m m.globals m.current worlds)
    fun m => SeesUse.moved m env m.current m.worlds

/-- The globals stay as they are or are another environment from now on. -/
def Governs (env : Ref) (m k : Machine) : Prop := k.globals = m.globals ∨ k.globals = env

instance (env : Ref) : IsPreorder Machine (Governs env) where
  refl _ := .inl rfl
  trans _ _ _ mk kl := kl.elim (fun e => mk.imp e.trans e.trans) .inr

theorem leads_governs (env : Ref) : Leads (Governs env) (enterWorld env) :=
  leads_entering env (fun h => .inl h.globals) (fun _ _ => .inl rfl) fun _ => .inr rfl

theorem idle_run (steps : Nat) (p : Program) (m : Machine) : (m.run steps p).2.Idle := by
  rw [Comparison.run_eq]
  generalize (do trace .normal _; executeProgram _ p : Exec Unit) _ = x
  rcases x with ⟨_,k⟩ | ⟨_ | _ | _,k⟩ <;> exact idle_settle _

/-- A program runs in an environment that the machine has entered, and does not if that fails. -/
theorem after_runIn {P : Machine → Prop} {steps : Nat} {env : Ref} {p : Program}
    (entered : P (stateAfter (enterWorld env m))) (run : ∀ k, P k → P (k.run steps p).2) :
    P (m.runIn steps env p).2 := by
  simp only [runIn]
  cases e : enterWorld env m with
  | ok _ k =>
    rw [e] at entered
    exact run k entered
  | error t k =>
    rw [e] at entered
    cases t <;> exact entered

theorem idle_runIn (idle : m.Idle) (steps : Nat) (env : Ref) (p : Program) :
    (m.runIn steps env p).2.Idle := by
  have entered : StaysIdle m (stateAfter (enterWorld env m)) := leads_enterWorld env m
  exact after_runIn (entered idle) fun k _ => idle_run steps p k

theorem start_eq_ok {s : Settings} {clock : Float} (h : Machine.start s clock = .ok m) :
    firstEnvironment (blank s clock) = .ok () m := by
  simp only [Machine.start] at h
  split at h
  · next m' e =>
    split at h
    · cases h
    · cases h
      exact e
  · cases h
  · cases h

theorem leads_firstEnvironment {R : Machine → Machine → Prop} [SeesUse R] :
    Leads R firstEnvironment := by
  refine .bind (leads_seesUse (leads_onHeap _ (Heap.grows_create _))) fun r =>
    .bind (leads_seesUse (leads_onHeap _ (Heap.grows_register r []))) fun _ => .bind (fun m => ?_)
      fun _ => leads_seesUse (leads_installNatives r _)
  exact IsTrans.trans _ _ _ (SeesUse.resumes (resumes_logJournal m)) (SeesUse.moved m.logJournal r r [r])

theorem idle_start {settings : Settings} {clock : Float} (h : Machine.start settings clock = .ok m) :
    m.Idle := by
  have idle : (blank settings clock).Idle := ⟨rfl,rfl,rfl,rfl⟩
  have made : StaysIdle _ (stateAfter (firstEnvironment (blank settings clock))) :=
    leads_firstEnvironment _
  rw [start_eq_ok h] at made
  exact made idle

/-- A collection leaves the machine what it leaves of the heap, and what it did is logged. -/
theorem stateAfter_collect (m : Machine) : stateAfter (Machine.collect m) =
    logJournal { m with heap := stateAfter (Heap.collect m.roots m.heap) } := by
  simp only [Machine.collect]
  cases Heap.collect m.roots m.heap <;> rfl

theorem leads_collect : Leads Resumes Machine.collect := fun m => by
  rw [stateAfter_collect]
  exact (Resumes.of_heap (Heap.grows_collect m.roots m.heap)).trans (resumes_logJournal _)

end Machine

namespace Session
variable {s : Session}

theorem compileSource_fst (s : Session) (source file : String) :
    (s.compileSource source file).1 = compile source := by
  simp only [compileSource]
  split <;> rfl

theorem compileSource_machine (s : Session) (source file : String) :
    ∃ log, (s.compileSource source file).2.machine = { s.machine with log } := by
  simp only [compileSource]
  split
  · exact ⟨_,rfl⟩
  · exact ⟨s.machine.log,rfl⟩

/-- A session runs a source on its machine, with more in the log. -/
theorem run_eq (s : Session) (source file : String) (steps : Nat) :
    ∃ (m : Machine) (log : List String), m = { s.machine with log } ∧
      (s.run source file steps).1 =
        (if (compile source).errors.isEmpty then
          .ofOutcome (some file) (m.run steps (compile source).program).1
        else .result { staticErrors := (compile source).errors }) ∧
      (s.run source file steps).2.machine =
        if (compile source).errors.isEmpty then (m.run steps (compile source).program).2 else m := by
  obtain ⟨log,e⟩ := s.compileSource_machine source file
  simp only [run,compileSource_fst]
  split
  · exact ⟨_,log,rfl,by simp [runMachine,e],by simp [runMachine,e]⟩
  · exact ⟨_,_,rfl,rfl,by rw [logMessage,Machine.logMessage,e]⟩

/-- A session runs a source in an environment on its machine, with more in the log. -/
theorem runIn_eq (s : Session) (env : Ref) (source file : String) (steps : Nat) :
    ∃ (m : Machine) (log : List String), m = { s.machine with log } ∧
      (s.compileSource source file).2.machine = m ∧
      (s.runIn env source file steps).1 =
        (if (compile source).errors.isEmpty then
          .ofOutcome none (m.runIn steps env (compile source).program).1
        else .result { staticErrors := (compile source).errors }) ∧
      (s.runIn env source file steps).2.machine =
        if (compile source).errors.isEmpty then (m.runIn steps env (compile source).program).2 else m := by
  obtain ⟨log,e⟩ := s.compileSource_machine source file
  simp only [runIn,compileSource_fst]
  split
  · exact ⟨_,log,rfl,e,by simp [runMachine,e],by simp [runMachine,e]⟩
  · exact ⟨_,log,rfl,e,rfl,by rw [e]⟩

/-- A session starts with a new machine and without sources. -/
theorem start_eq_ok {settings : Settings} {clock : Float} (h : Session.start settings clock = .ok s) :
    Machine.start settings clock = .ok s.machine ∧ s = { machine := s.machine } := by
  simp only [Session.start] at h
  cases e : Machine.start settings clock with
  | error f => rw [e] at h; cases h
  | ok m => rw [e] at h; cases h; exact ⟨rfl,rfl⟩

theorem machine_of_start {settings : Settings} {clock : Float}
    (h : Session.start settings clock = .ok s) : Machine.start settings clock = .ok s.machine :=
  (start_eq_ok h).1

/-- Nothing is in use between runs. -/
theorem Reached.idle (reached : s.Reached) : s.machine.Idle := by
  induction reached with
  | start h => exact idle_start (machine_of_start h)
  | @run s source file steps _ idle =>
    obtain ⟨m,log,rfl,-,e⟩ := s.run_eq source file steps
    rw [e]
    split
    · exact idle_run _ _ _
    · exact ⟨idle.saved,idle.temps,idle.frames,idle.depth⟩
  | @runIn s env source file steps _ idle =>
    obtain ⟨m,log,rfl,-,-,e⟩ := s.runIn_eq env source file steps
    have idle : { s.machine with log }.Idle := ⟨idle.saved,idle.temps,idle.frames,idle.depth⟩
    rw [e]
    split
    · exact idle_runIn idle _ _ _
    · exact idle
  | newEnvironment _ idle => exact ⟨idle.saved,idle.temps,idle.frames,idle.depth⟩
  | takeOutput _ idle => exact ⟨idle.saved,idle.temps,idle.frames,idle.depth⟩
  | takeLog _ idle => exact ⟨idle.saved,idle.temps,idle.frames,idle.depth⟩
  | collect _ idle => exact idle.resumes (leads_collect _)

end Session
end Lox
