import Lox.Proofs.Eval.Arithmetic
import Lox.Proofs.Heap.Permanence
import Lox.Proofs.Session.Invisibility
import Lox.Proofs.Session.Stacks
import Lox.Settings.Coerce

/-! # Sessions under accepted settings

Settings that are set one by one pass the checks of their values. A session under them breaks off on
arithmetic only where the live count times the growth factor is not finite, and every collection that
completes leaves a threshold that is not below the first. The product is finite for growth factors of
reasonable size. A growth factor that is accepted may be infinite or no number at all, for the check
refuses what is at most one, and then no collection completes.
-/
namespace Lox
open Machine Exec

namespace Settings
variable {s t : Settings}

/-- Sets values one by one. -/
def setAll (s : Settings) : List (String × Json) → Except SettingError Settings
  | [] => .ok s
  | (name,v) :: rest => do
    let s ← s.set name v
    s.setAll rest

/-- Settings that are set one by one, each to a value that is accepted. -/
def Accepted (s : Settings) : Prop := ∃ values, setAll {} values = .ok s

/-- Settings that pass the checks of their values. -/
structure Checked (s : Settings) : Prop where
  threshold : 1 ≤ s.threshold
  growth : ¬s.growth ≤ 1
  maxCallDepth : 1 ≤ s.maxCallDepth

/-- The live count and the growth factor have no finite product. -/
def Outgrown (s : Settings) (live : Nat) : Prop := ¬(Float.ofNat live * s.growth).isFinite

theorem eq_ok_of_bind {ε α β : Type} {x : Except ε α} {f : α → Except ε β} {b : β}
    (h : x >>= f = .ok b) : ∃ a, x = .ok a ∧ f a = .ok b := by
  cases x with
  | error e => cases h
  | ok a => exact ⟨a,rfl,h⟩

theorem le_of_toPositive {key : Key} {v : Json} {n : Nat} (h : toPositive key v = .ok n) : 1 ≤ n := by
  obtain ⟨i,-,h⟩ := eq_ok_of_bind h
  split at h
  · cases h
  · cases h
    omega

theorem not_le_of_toFactor {key : Key} {v : Json} {x : Float} (h : toFactor key v = .ok x) : ¬x ≤ 1 := by
  obtain ⟨y,-,h⟩ := eq_ok_of_bind h
  split at h
  · cases h
  · next refused =>
    cases h
    exact refused

theorem Checked.update (checked : s.Checked) {key : Key} {v : Json} (h : s.update key v = .ok t) :
    t.Checked := by
  obtain ⟨threshold,growth,depth⟩ := checked
  cases key with
  | debugLevel | stress =>
    obtain ⟨_,-,h⟩ := eq_ok_of_bind h
    cases h
    exact ⟨threshold,growth,depth⟩
  | threshold =>
    obtain ⟨_,converted,h⟩ := eq_ok_of_bind h
    cases h
    exact ⟨le_of_toPositive converted,growth,depth⟩
  | growth =>
    obtain ⟨_,converted,h⟩ := eq_ok_of_bind h
    cases h
    exact ⟨threshold,not_le_of_toFactor converted,depth⟩
  | maxCallDepth =>
    obtain ⟨_,converted,h⟩ := eq_ok_of_bind h
    cases h
    exact ⟨threshold,growth,le_of_toPositive converted⟩

theorem Checked.setAll (checked : s.Checked) {values : List (String × Json)} (h : s.setAll values = .ok t) :
    t.Checked := by
  induction values generalizing s with
  | nil =>
    cases h
    exact checked
  | cons value rest ih =>
    obtain ⟨u,set,h⟩ := eq_ok_of_bind h
    refine ih ?_ h
    simp only [Settings.set] at set
    split at set
    · exact checked.update set
    · cases set

theorem Accepted.checked (accepted : s.Accepted) : s.Checked := by
  obtain ⟨values,h⟩ := accepted
  exact Checked.setAll ⟨by decide,by decide,by decide⟩ h

end Settings

/-! ## Starting -/

/-- The first object of a heap is registered, unless a collection is due and leaves no next threshold. -/
theorem Heap.register_first_isOk_iff {h : Heap Value} (own : h.Coherent) (closed : h.Closed)
    (none : h.liveCount = 0) (least : 1 ≤ h.nextThreshold) (automatic : h.rules.automatic = true) {r : Ref}
    {o : Object Value} (cell : h.cells[r.index]? = some { object := o }) (alone : o.references = []) :
    (∃ slot k, register r [] h = .ok slot k) ↔ (h.rules.stress = true → h.rules.growth.isFinite) := by
  have due : h.due = h.rules.stress := by
    simp only [Heap.due,automatic,Bool.true_and]
    rw [show decide (h.nextThreshold ≤ h.liveCount) = false from decide_eq_false (by omega),Bool.or_false]
  have sound : h.Sound ([] ++ o.references) := closed.sound fun r hr => by
    rw [alone] at hr
    exact absurd hr List.not_mem_nil
  rw [register_new cell rfl,due]
  cases h.rules.stress with
  | false => exact ⟨fun _ stress => (by cases stress),fun _ => ⟨_,_,rfl⟩⟩
  | true =>
    simp only [if_true,forall_const]
    rcases own.collect_cases sound with ⟨released,k,hk,done⟩ | ⟨n,k,hk,live,rules,spoiled,-⟩
    · rw [hk]
      refine ⟨fun _ => ?_,fun _ => ⟨_,_,rfl⟩⟩
      have product := (grownThreshold_isOk_iff _ _).mp ⟨_,done.threshold⟩
      by_contra infinite
      exact Number.not_isFinite_mul _ infinite product
    · rw [hk]
      constructor
      · rintro ⟨_,_,⟨⟩⟩
      intro finite
      rw [rules,show k.liveCount = 0 by omega] at spoiled
      obtain ⟨next,fine⟩ := (grownThreshold_isOk_iff h.rules 0).mpr (Number.isFinite_zero_mul finite)
      rw [spoiled] at fine
      cases fine

namespace Machine

/-- The natives are bound in every environment that can be read. -/
theorem installNatives_isOk {r : Ref} (fs : List Native) {m : Machine}
    (reads : ∃ e, m.heap.environment r = .ok e) : ∃ k, installNatives r fs m = .ok () k := by
  induction fs generalizing m with
  | nil => exact ⟨m,rfl⟩
  | cons f rest ih =>
    obtain ⟨e,read⟩ := id reads
    have looked : reading .start (·.environment r) m = .ok e m := by
      simp only [reading,read]
    simp only [installNatives,Bind.bind,EStateM.bind,looked]
    split
    · obtain ⟨heap,defined,reads⟩ := Heap.define_isOk reads f.name (.native f)
      have bound : define r f.name (.native f) m = .ok () { m with heap } := by
        simp only [define,onHeap,defined]
      obtain ⟨k,installed⟩ := ih (m := { m with heap }) reads
      exact ⟨k,bind_eq_ok.mpr ⟨(),_,bound,installed⟩⟩
    · exact ih reads

/-- The first environment is made, unless a collection is due and leaves no next threshold. -/
theorem firstEnvironment_isOk_iff {settings : Settings} (checked : settings.Checked) (clock : Float) :
    (∃ m, firstEnvironment (blank settings clock) = .ok () m) ↔
      (settings.stress = true → settings.growth.isFinite) := by
  have secure : Heap.Secure ([] ++ (Object.environment {} none : Object Value).references)
      (blank settings clock).heap := secure_empty _
  have created := secure.create (.environment {} none)
  refine Iff.trans ?_ (Heap.register_first_isOk_iff created.coherent created.closed
    (r := ⟨(blank settings clock).heap.cells.size⟩) rfl checked.threshold rfl rfl rfl)
  have placed := Heap.place_eq (.environment {} none) [] (blank settings clock).heap
  rw [Comparison.firstEnvironment_eq]
  cases registered : Heap.register ⟨(blank settings clock).heap.cells.size⟩ []
      { (blank settings clock).heap with
        cells := (blank settings clock).heap.cells.push { object := .environment {} none } } with
  | error f k =>
    rw [registered] at placed
    rw [placed]
    exact ⟨fun ⟨_,e⟩ => (nomatch e),fun ⟨_,_,e⟩ => nomatch e⟩
  | ok slot k =>
    rw [registered] at placed
    rw [placed]
    refine ⟨fun _ => ⟨_,_,rfl⟩,fun _ => installNatives_isOk _ ?_⟩
    have holds : k.cells[0]? = some { object := .environment {} none, slot := some 1 } := by
      rcases secure.place with ⟨l,made,done⟩ | spoiled
      · rw [placed] at made
        cases made
        exact done.cell
      · rw [placed] at spoiled
        exact spoiled.elim
    obtain ⟨log,moved⟩ := logJournal_heap { (blank settings clock) with heap := k }
    rw [moved]
    exact ⟨_,Heap.environment_of_cell (r := ⟨0⟩) holds rfl rfl⟩

theorem start_isOk_iff {settings : Settings} (checked : settings.Checked) (clock : Float) :
    (∃ m, Machine.start settings clock = .ok m) ↔
      settings.maxCallDepth ≤ greatestCallDepth ∧ (settings.stress = true → settings.growth.isFinite) := by
  rw [← firstEnvironment_isOk_iff checked clock]
  constructor
  · rintro ⟨m,started⟩
    refine ⟨?_,m,start_eq_ok started⟩
    by_contra deep
    simp only [Machine.start,start_eq_ok started,if_pos (Nat.lt_of_not_le deep)] at started
    cases started
  · rintro ⟨shallow,m,made⟩
    exact ⟨m,by simp only [Machine.start,made,if_neg (Nat.not_lt.mpr shallow)]⟩

/-! ## Running -/

/-- A run breaks off on arithmetic only when it leaves an overgrown heap behind. -/
theorem overgrown_run {m : Machine} {p : Program} {steps : Nat} {f : Fault}
    (failed : (m.run steps p).1 = .fault f) (broken : f.isArithmetic) :
    (∃ e, f = .threshold e) ∧ (m.run steps p).2.heap.Overgrown := by
  obtain ⟨log,e⟩ := run_eq_concluded steps p m
  rw [e] at failed ⊢
  cases ran : executeProgram (nesting steps) p { m with current := m.globals, steps, log } with
  | ok _ k =>
    rw [ran] at failed
    cases failed
  | error t k =>
    rw [ran] at failed
    cases t with
    | fault f =>
      cases failed
      obtain ⟨strained,grown,-⟩ := measured_executeProgram _ _ _ _ _ ran broken
      exact ⟨strained,grown⟩
    | error | cut => cases failed

end Machine

namespace Session
variable {s : Session}

theorem grows_run (s : Session) (source file : String) (steps : Nat) :
    s.machine.heap.Grows (s.run source file steps).2.machine.heap := by
  obtain ⟨m,log,rfl,-,e⟩ := s.run_eq source file steps
  rw [e]
  split
  · exact Machine.grows_run steps _ { s.machine with log }
  · exact Std.Refl.refl _

theorem overgrown_run {source file : String} {steps : Nat} {f : Fault}
    (failed : (s.run source file steps).1 = .fault f) (broken : f.isArithmetic) :
    (∃ e, f = .threshold e) ∧ (s.run source file steps).2.machine.heap.Overgrown := by
  obtain ⟨m,log,-,ending,e⟩ := s.run_eq source file steps
  rw [ending] at failed
  rw [e]
  split at failed
  · next clean =>
    rw [if_pos clean]
    refine Machine.overgrown_run ?_ broken
    generalize (m.run steps (compile source).program).1 = o at failed ⊢
    cases o <;> cases failed
    rfl
  · cases failed

theorem play_grows (entries : List Entry) :
    ∀ x ∈ s.play entries, s.machine.heap.Grows x.2.machine.heap := by
  induction entries generalizing s with
  | nil => exact fun _ hx => absurd hx List.not_mem_nil
  | cons e rest ih =>
    have grows := s.grows_run e.source e.file e.steps
    rw [play,List.forall_mem_cons]
    refine ⟨grows,fun x hx => ?_⟩
    have later := @ih (s.run e.source e.file e.steps).2.takeOutput.2 x hx
    exact IsTrans.trans _ _ _ grows later

theorem play_overgrown (entries : List Entry) : ∀ x ∈ s.play entries, ∀ f, x.1.ending = .fault f →
    f.isArithmetic → x.2.machine.heap.Overgrown := by
  induction entries generalizing s with
  | nil => exact fun _ hx => absurd hx List.not_mem_nil
  | cons e rest ih =>
    rw [play,List.forall_mem_cons]
    exact ⟨fun f failed broken => (overgrown_run failed broken).2,ih⟩

end Session

/-- A heap that has grown out of another, on machines. -/
instance : SeesUse fun m k : Machine => m.heap.Grows k.heap where
  refl m := Std.Refl.refl m.heap
  trans _ _ _ mk kl := IsTrans.trans _ _ _ mk kl
  resumes h := h.heap
  moved m _ _ _ := Std.Refl.refl m.heap

theorem Machine.grows_start {settings : Settings} {clock : Float} {m : Machine}
    (h : Machine.start settings clock = .ok m) : (blank settings clock).heap.Grows m.heap := by
  have made := @leads_firstEnvironment (fun m k : Machine => m.heap.Grows k.heap) inferInstance
    (blank settings clock)
  rw [start_eq_ok h] at made
  exact made

/-- Under accepted settings a session starts unless calls may nest too deep or its first collection leaves no
next threshold. Every collection that completes leaves one that is not below the first, and sources break
off on arithmetic only where the product of the live count and the growth factor is not finite. That is never
so for a growth factor of reasonable size, and always for one that is not finite. -/
theorem collections_complete {settings : Settings} (accepted : settings.Accepted) (clock : Float) :
    settings.Checked ∧
    ((∃ s, Session.start settings clock = .ok s) ↔
      settings.maxCallDepth ≤ greatestCallDepth ∧ (settings.stress = true → settings.growth.isFinite)) ∧
    (∀ (h k : Heap Value) roots freed, h.rules.threshold = settings.threshold →
      h.rules.growth = settings.growth → Heap.collect roots h = .ok freed k →
      settings.threshold ≤ k.nextThreshold ∧ ¬settings.Outgrown k.liveCount) ∧
    (∀ s, Session.start settings clock = .ok s → ∀ entries,
      (∀ x ∈ s.play entries, settings.threshold ≤ x.2.machine.heap.nextThreshold ∧
        ∀ f, x.1.ending = .fault f → f.isArithmetic → settings.Outgrown x.2.machine.heap.liveCount) ∧
      ((∀ x ∈ s.play entries, ¬settings.Outgrown x.2.machine.heap.liveCount) →
        ∀ x ∈ s.play entries, ∀ f, x.1.ending = .fault f → f.isArithmetic = false ∧ f.isMemory = false)) ∧
    (Number.Below 900 settings.growth → ∀ live < 2 ^ 63, ¬settings.Outgrown live) ∧
    (¬settings.growth.isFinite → ∀ live, settings.Outgrown live) := by
  have checked := accepted.checked
  refine ⟨checked,?_,?_,?_,?_,?_⟩
  · rw [← start_isOk_iff checked clock]
    exact ⟨fun ⟨s,started⟩ => ⟨s.machine,Session.machine_of_start started⟩,
      fun ⟨m,started⟩ => ⟨{ machine := m },by simp only [Session.start,started]; rfl⟩⟩
  · intro h k roots freed threshold growth done
    have next := Heap.next_of_collect done
    rw [← threshold]
    refine ⟨Heap.le_of_grownThreshold next,not_not.mpr ?_⟩
    rw [← growth]
    exact (Heap.grownThreshold_isOk_iff _ _).mp ⟨_,next⟩
  · intro s started entries
    have first := Machine.grows_start (Session.machine_of_start started)
    have grows : ∀ x ∈ s.play entries, (blank settings clock).heap.Grows x.2.machine.heap :=
      fun x hx => IsTrans.trans _ _ _ first (Session.play_grows entries x hx)
    have outgrown : ∀ x ∈ s.play entries, settings.Outgrown x.2.machine.heap.liveCount ↔
        x.2.machine.heap.Overgrown := fun x hx => by
      rw [Settings.Outgrown,Heap.Overgrown,(grows x hx).rules]
      rfl
    refine ⟨fun x hx => ⟨?_,fun f failed broken => ?_⟩,fun finite x hx f failed => ⟨?_,?_⟩⟩
    · have least := (grows x hx).threshold (Nat.le_refl _)
      rwa [(grows x hx).rules] at least
    · exact (outgrown x hx).mpr (Session.play_overgrown entries x hx f failed broken)
    · by_contra broken
      exact finite x hx ((outgrown x hx).mpr
        (Session.play_overgrown entries x hx f failed (Bool.not_eq_false _ ▸ broken)))
    · have twins := Comparison.start_twins rfl rfl (agree_empty _ _) (Session.machine_of_start started)
        (Session.machine_of_start started)
      have bounded : ∀ x ∈ s.play entries, x.2.machine.heap.Finite := fun x hx =>
        (Heap.grownThreshold_isOk_iff _ _).mpr (not_not.mp (mt (outgrown x hx).mpr (finite x hx)))
      exact (Session.play_agrees twins entries bounded bounded).2 x hx f failed
  · exact fun below live less => not_not.mpr (Number.isFinite_ofNat_mul less below)
  · exact fun infinite live => Number.not_isFinite_mul _ infinite

/-- What a source comes to in a new session under settings that are set one by one, as a test. -/
def Session.endingUnder (values : List (String × Json)) (source : String) : Option Session.Ending :=
  match Settings.setAll {} values with
  | .ok settings => match Session.start settings 0 with
    | .ok s => (s.play [⟨source,"",Machine.plenty⟩]).head?.map (·.1.ending)
    | .error _ => none
  | .error _ => none

theorem Session.of_endingUnder {values : List (String × Json)} {source : String} {ending : Session.Ending}
    (h : Session.endingUnder values source = some ending) : ∃ settings : Settings, settings.Accepted ∧
      ∃ s, Session.start settings 0 = .ok s ∧
        ∃ x ∈ s.play [⟨source,"",Machine.plenty⟩], x.1.ending = ending := by
  simp only [Session.endingUnder] at h
  cases set : Settings.setAll {} values with
  | error e =>
    rw [set] at h
    cases h
  | ok settings =>
    rw [set] at h
    cases started : Session.start settings 0 with
    | error e =>
      simp only [started] at h
      cases h
    | ok s =>
      simp only [started] at h
      obtain ⟨x,first,ending⟩ := Option.map_eq_some_iff.mp h
      exact ⟨settings,⟨values,set⟩,s,started,x,List.mem_of_mem_head? first,ending⟩

/-- A function, a class and three instances of it. -/
def fiveObjects : String := "fun f() \x7b\x7d class A \x7b\x7d A(); A(); A();"

/-- With every allocation collecting, the objects are made without a fault of arithmetic. -/
theorem collections_complete_stressed : ∃ settings : Settings, settings.Accepted ∧
    ∃ s, Session.start settings 0 = .ok s ∧ ∃ x ∈ s.play [⟨fiveObjects,"",Machine.plenty⟩],
      x.1.ending = .result {} ∧ settings.threshold ≤ x.2.machine.heap.nextThreshold := by
  have ending : Session.endingUnder [("gc_growth_factor",.string "1.5"),("gc_stress",.string "true")]
      fiveObjects = some (.result {}) := by decide +kernel
  obtain ⟨settings,accepted,s,started,x,hx,ended⟩ := Session.of_endingUnder ending
  obtain ⟨-,-,-,runs,-⟩ := collections_complete accepted 0
  exact ⟨settings,accepted,s,started,x,hx,ended,((runs s started _).1 x hx).1⟩

/-- A growth factor that is no number is accepted, and the first collection breaks off. -/
theorem accepted_factor_breaks_off : ∃ settings : Settings, settings.Accepted ∧
    ∃ s, Session.start settings 0 = .ok s ∧ ∃ x ∈ s.play [⟨fiveObjects,"",Machine.plenty⟩],
      x.1.ending = .fault (.threshold .nan) := by
  have ending : Session.endingUnder [("gc_growth_factor",.string "nan"),("gc_initial_threshold",.string "3")]
      fiveObjects = some (.fault (.threshold .nan)) := by decide +kernel
  exact Session.of_endingUnder ending

end Lox
