import Lox.Proofs.Eval.Course
import Lox.Proofs.Scope.Superclasses
import Lox.Proofs.Session.Hosting
import Lox.Proofs.Session.Keeping
import Lox.Proofs.Session.Scoping

/-! # The course of what a host does

The tasks that are performed while a host runs sources come in order, one deed after another. The
environments that it has made do not bind `super`, so classes stay in order whatever it does.
-/
namespace Lox
open Machine Exec

/-- A machine whose classes are in order and whose globals do not bind `super`. -/
structure Machine.Proper (m : Machine) : Prop where
  heap : m.heap.Proper
  globals : m.heap.Supers m.globals none

/-- The machine of a host is proper, and no environment that it has made binds `super`. -/
structure Host.Proper (h : Host) : Prop where
  machine : h.machine.Proper
  made : ∀ env ∈ h.made, h.machine.heap.Supers env none

/-- Whatever a host does, functions keep ordinary names, classes stay in order, and nothing that lasts is
lost. -/
theorem hostable_proper (g : Heap Value) : Heap.Hostable fun h => (h.Ordinary ∧ h.Classed) ∧ g.Lasts h := by
  have ordinary : ∀ f ∈ Native.all, Ordinary f.name := by
    simp [Native.all,Native.clock,Ordinary]
  exact (Heap.Hostable.and ⟨stable_routines _,fun f _ => bindable_routines _ f.name⟩
    ⟨stable_classed,fun f hf => bindable_classed (ordinary f hf)⟩).and
    ⟨stable_lasts g,fun f hf => bindable_lasts (ordinary f hf) g⟩

theorem named_of_compile {source : String} (clean : (compile source).errors = []) :
    BodyNamed Ordinary (compile source).program := by
  obtain ⟨quiet,-,program⟩ := compile_eq_nil clean
  rw [program]
  exact bodyNamed_resolve [] _ (named_of_parse quiet)

theorem Heap.supers_create (enclosing : Option Ref) (h : Heap Value) :
    (stateAfter (Heap.create (.environment {} enclosing) h)).Supers ⟨h.cells.size⟩ none :=
  ⟨_,Array.getElem?_push_size,rfl,fun _ _ _ same => by cases same; rfl⟩

namespace Machine.Proper
variable {m : Machine}

theorem holds (proper : m.Proper) : (m.heap.Ordinary ∧ m.heap.Classed) ∧ m.heap.Lasts m.heap :=
  ⟨⟨proper.heap.ordinary,proper.heap.classed⟩,.refl _⟩

/-- The course of a source that is run in the globals. -/
theorem run (proper : m.Proper) {source : String} (clean : (compile source).errors = []) (steps : Nat) :
    Course (Machine.Performs steps (compile source).program m) m.heap
        (m.run steps (compile source).program).2.heap ∧
      (m.run steps (compile source).program).2.Proper := by
  obtain ⟨course,heap⟩ := course_run proper.heap proper.globals (named_of_compile clean) steps
  refine ⟨course,heap,?_⟩
  rw [(worlds_run steps _ m).2]
  exact proper.globals.lasts course.lasts

theorem enterWorld (proper : m.Proper) {env : Ref} (supers : m.heap.Supers env none) :
    m.heap.Lasts (stateAfter (enterWorld env m)).heap ∧ (stateAfter (enterWorld env m)).Proper := by
  obtain ⟨⟨ordinary,classed⟩,lasts⟩ := (hostable_proper m.heap).enterWorld env proper.holds
  refine ⟨lasts,⟨ordinary,classed⟩,?_⟩
  rcases leads_governs env m with same | same
  · rw [same]
    exact proper.globals.lasts lasts
  · rw [same]
    exact supers.lasts lasts

/-- The course of a source that is run in another environment. -/
theorem runIn (proper : m.Proper) {env : Ref} (supers : m.heap.Supers env none) {source : String}
    (clean : (compile source).errors = []) (steps : Nat) :
    Course (fun l u k => ∃ m', Machine.enterWorld env m = .ok () m' ∧
        Machine.Performs steps (compile source).program m' l u k) m.heap
        (m.runIn steps env (compile source).program).2.heap ∧
      (m.runIn steps env (compile source).program).2.Proper := by
  obtain ⟨lasts,entered⟩ := proper.enterWorld supers
  simp only [Machine.runIn]
  cases e : Machine.enterWorld env m with
  | ok _ k =>
    rw [e] at lasts entered
    obtain ⟨course,after⟩ := entered.run clean steps
    refine ⟨(course.before lasts).less ?_,after⟩
    rintro l u k ⟨m',⟨⟩,performs⟩
    exact performs
  | error t k =>
    rw [e] at lasts entered
    cases t <;>
    · refine ⟨(Course.idle lasts).less ?_,entered⟩
      rintro l u k ⟨m',⟨⟩,_⟩

theorem collect (proper : m.Proper) :
    m.heap.Lasts (stateAfter (collect m)).heap ∧ (stateAfter (collect m)).Proper := by
  obtain ⟨⟨ordinary,classed⟩,lasts⟩ := (hostable_proper m.heap).collect proper.holds
  refine ⟨lasts,⟨ordinary,classed⟩,?_⟩
  have globals : (stateAfter (Machine.collect m)).globals = m.globals := by
    rw [stateAfter_collect,logJournal_eq]
  rw [globals]
  exact proper.globals.lasts lasts

end Machine.Proper

namespace Host
variable {h : Host}

/-- The tasks that are performed in one deed. -/
def PerformsIn (h : Host) (d : Deed) (l : Nat) (u : Task) (k : Machine) : Prop :=
  ∃ steps p m, h.Runs d steps p m ∧ Machine.Performs steps p m l u k

theorem Proper.make (proper : h.Proper) : (h.act .make).2.Proper := by
  have lasts := Heap.lasts_create (.environment {} none) h.machine.heap
  have heap := proper.machine.heap
  refine ⟨⟨⟨.make (by simp [Object.kind]) heap.ordinary,heap.classed.create ⟨nofun,nofun⟩⟩,
    proper.machine.globals.lasts lasts⟩,fun env henv => ?_⟩
  rcases List.mem_append.mp henv with henv | new
  · exact (proper.made env henv).lasts lasts
  · obtain rfl := List.mem_singleton.mp new
    exact Heap.supers_create none _

/-- A machine with another time and another log. -/
theorem Proper.timed (proper : h.Proper) {m : Machine} {log : List String} {clock : Float}
    (same : m = { h.machine with log, clock }) : m.Proper ∧ m.heap = h.machine.heap := by
  subst same
  exact ⟨⟨proper.machine.heap,proper.machine.globals⟩,rfl⟩

/-- What has been run leaves a host proper. -/
theorem Proper.reports {x : Session.Ending × Session} (proper : h.Proper)
    (lasts : h.machine.heap.Lasts x.2.machine.heap) (after : x.2.machine.Proper) :
    (h.reports x).2.Proper :=
  ⟨⟨after.heap,after.globals⟩,fun env henv => (proper.made env henv).lasts lasts⟩

/-- The course of one deed. -/
theorem Proper.act (proper : h.Proper) (d : Deed) :
    Course (h.PerformsIn d) h.machine.heap (h.act d).2.machine.heap ∧ (h.act d).2.Proper := by
  cases d with
  | make =>
    refine ⟨(Course.idle (Heap.lasts_create _ _)).less ?_,proper.make⟩
    rintro l u k ⟨_,_,_,_ | _,_⟩
  | collect =>
    obtain ⟨lasts,after⟩ := proper.machine.collect
    refine ⟨(Course.idle lasts).less ?_,after,fun env henv => (proper.made env henv).lasts lasts⟩
    rintro l u k ⟨_,_,_,_ | _,_⟩
  | run clock e =>
    by_cases clean : (compile e.source).errors = []
    · obtain ⟨log,compiled⟩ := (h.timed clock).compileSource_machine e.source e.file
      obtain ⟨timed,heap⟩ := proper.timed compiled
      obtain ⟨course,after⟩ := timed.run clean e.steps
      rw [← (Session.run_of_compile (List.isEmpty_iff.mpr clean)).2] at course after
      rw [heap] at course
      refine ⟨course.less ?_,proper.reports course.lasts after⟩
      rintro l u k ⟨_,_,_,⟨_⟩,performs⟩
      exact performs
    · obtain ⟨-,log,machine⟩ := Session.run_of_errors (s := h.timed clock) (mt List.isEmpty_iff.mp clean)
      obtain ⟨after,heap⟩ := proper.timed machine
      have lasts : h.machine.heap.Lasts _ := .of_cells (.refl _) (congrArg Heap.cells heap)
      refine ⟨(Course.idle lasts).less ?_,proper.reports lasts after⟩
      rintro l u k ⟨_,_,_,⟨clean'⟩,_⟩
      exact absurd clean' clean
  | runIn i clock e =>
    simp only [Host.act]
    cases found : h.made[i]? with
    | none =>
      refine ⟨(Course.idle (.refl _)).less ?_,proper⟩
      rintro l u k ⟨_,_,_,_ | ⟨found',_,_⟩,_⟩
      cases found.symm.trans found'
    | some env =>
      obtain ⟨m,log,same,compiled,-,after⟩ := (h.timed clock).runIn_eq env e.source e.file e.steps
      obtain ⟨timed,heap⟩ := proper.timed same
      by_cases clean : (compile e.source).errors = []
      · rw [if_pos (List.isEmpty_iff.mpr clean)] at after
        obtain ⟨course,proper'⟩ := timed.runIn (heap ▸ proper.made env (List.mem_of_getElem? found)) clean
          e.steps
        rw [← after,heap] at course
        rw [← after] at proper'
        refine ⟨course.less ?_,proper.reports course.lasts proper'⟩
        rintro l u k ⟨_,_,_,_ | ⟨found',_,entered⟩,performs⟩
        cases found.symm.trans found'
        exact ⟨_,compiled ▸ entered,performs⟩
      · rw [if_neg (mt List.isEmpty_iff.mp clean)] at after
        rw [← after] at heap timed
        have lasts : h.machine.heap.Lasts _ := .of_cells (.refl _) (congrArg Heap.cells heap)
        refine ⟨(Course.idle lasts).less ?_,proper.reports lasts timed⟩
        rintro l u k ⟨_,_,_,_ | ⟨_,clean',_⟩,_⟩
        exact absurd clean' clean

/-- The course of all that a host does. -/
theorem Proper.after (proper : h.Proper) (deeds : List Deed) :
    Course (h.Performs deeds) h.machine.heap (h.after deeds).machine.heap ∧ (h.after deeds).Proper := by
  induction deeds generalizing h with
  | nil => exact ⟨.idle (.refl _),proper⟩
  | cons d rest ih =>
    obtain ⟨first,proper⟩ := proper.act d
    obtain ⟨later,proper⟩ := ih proper
    exact ⟨first.append later,proper⟩

theorem proper_start {settings : Settings} {clock : Float} {s : Session}
    (start : Session.start settings clock = .ok s) : (⟨s,[]⟩ : Host).Proper := by
  have machine := Session.machine_of_start start
  have classed : (blank settings clock).heap.Classed := fun i c hc => by simp [blank] at hc
  obtain ⟨⟨ordinary,classed⟩,lasts⟩ := (hostable_proper _).start
    ⟨⟨.make (by simp [Object.kind]) (Heap.every_empty _),classed.create ⟨fun _ e => (by cases e),fun _ e => (by cases e)⟩⟩,.refl _⟩ machine
  refine ⟨⟨⟨ordinary,classed⟩,?_⟩,(by rintro _ ⟨⟩)⟩
  rw [show Host.machine ⟨s,[]⟩ = s.machine from rfl,Copying.globals_start machine]
  exact (Heap.supers_create none _).lasts lasts

/-! ## The states of the machine -/

/-- A state of the machine that a host reaches: between its deeds, or where a task starts or ends. -/
inductive Meets (h : Host) (deeds : List Deed) : Machine → Prop
  | between {before behind} : before ++ behind = deeds → Meets h deeds (h.after before).machine
  | start {l u k} : h.Performs deeds l u k → Meets h deeds k
  | ending {l u k} : h.Performs deeds l u k → Meets h deeds (u.after l k)

theorem performs_append {ds es : List Deed} {l : Nat} {u : Task} {k : Machine} :
    h.Performs (ds ++ es) l u k ↔ h.Performs ds l u k ∨ (h.after ds).Performs es l u k := by
  induction ds generalizing h with
  | nil => exact ⟨.inr,fun h => h.resolve_left id⟩
  | cons d ds ih => exact (or_congr_right ih).trans or_assoc.symm

section
variable {deeds : List Deed} {l i : Nat} {u v : Task} {j k : Machine} (proper : h.Proper)
include proper

theorem Proper.meets (meets : h.Meets deeds k) : k.heap.Proper := by
  cases meets with
  | between => exact (proper.after _).2.machine.heap
  | start performs => exact ((proper.after deeds).1.proper performs).1
  | ending performs => exact ((proper.after deeds).1.proper performs).2

theorem Proper.spans (performs : h.Performs deeds l u k) : k.heap.Lasts (u.after l k).heap := by
  have course := (proper.after deeds).1
  obtain ⟨named,placed⟩ := course.placed performs
  exact (course_arises (course.proper performs).1 named placed l).lasts

/-- The heap between two deeds comes before or behind a task that is performed. -/
theorem Proper.beside {before behind : List Deed} (split : before ++ behind = deeds)
    (performs : h.Performs deeds l u k) : (h.after before).machine.heap.Lasts k.heap ∨
      (u.after l k).heap.Lasts (h.after before).machine.heap := by
  subst split
  rcases performs_append.mp performs with first | later
  · exact .inr ((proper.after before).1.ends first)
  · exact .inl (((proper.after before).2.after behind).1.starts later)

/-- Of two tasks that are performed, one starts and ends within the other or behind it. -/
theorem Proper.sequence (first : h.Performs deeds l u k) (second : h.Performs deeds i v j) :
    (k.heap.Lasts j.heap ∧ (v.after i j).heap.Lasts (u.after l k).heap) ∨
      (j.heap.Lasts k.heap ∧ (u.after l k).heap.Lasts (v.after i j).heap) ∨
      (u.after l k).heap.Lasts j.heap ∨ (v.after i j).heap.Lasts k.heap := by
  have course := (proper.after deeds).1
  have within : ∀ {l i u v k j}, h.Performs deeds l u k → Arises l u k i v j →
      k.heap.Lasts j.heap ∧ (v.after i j).heap.Lasts (u.after l k).heap := by
    intro l i u v k j performs arises
    obtain ⟨named,placed⟩ := course.placed performs
    have inner := course_arises (course.proper performs).1 named placed l
    exact ⟨inner.starts arises,inner.ends arises⟩
  rcases course.ordered first second with arises | arises | later
  · exact .inl (within first arises)
  · exact .inr (.inl (within second arises))
  · exact .inr (.inr later)

theorem Proper.start_ending (first : h.Performs deeds l u k) (second : h.Performs deeds i v j) :
    k.heap.Lasts (v.after i j).heap ∨ (v.after i j).heap.Lasts k.heap := by
  rcases proper.sequence first second with ⟨starts,-⟩ | ⟨-,ends⟩ | later | later
  · exact .inl (starts.trans (proper.spans second))
  · exact .inl ((proper.spans first).trans ends)
  · exact .inl (((proper.spans first).trans later).trans (proper.spans second))
  · exact .inr later

/-- Of two states that a host reaches, one comes before the other. -/
theorem Proper.comparable (first : h.Meets deeds j) (second : h.Meets deeds k) :
    j.heap.Lasts k.heap ∨ k.heap.Lasts j.heap := by
  have spans := fun {l u k} (p : h.Performs deeds l u k) => proper.spans p
  cases first with
  | @between before behind split =>
    cases second with
    | @between before' behind' split' =>
      have either : before <+: before' ∨ before' <+: before :=
        List.prefix_or_prefix_of_prefix ⟨behind,split⟩ ⟨behind',split'⟩
      rcases either with ⟨more,rfl⟩ | ⟨more,rfl⟩
      · rw [after_append]
        exact .inl ((proper.after before).2.after more).1.lasts
      · rw [after_append]
        exact .inr ((proper.after before').2.after more).1.lasts
    | start p => exact (proper.beside split p).imp_right (spans p).trans
    | ending p => exact (proper.beside split p).imp_left (·.trans (spans p))
  | start p =>
    cases second with
    | between split => exact ((proper.beside split p).imp_right (spans p).trans).symm
    | start q =>
      rcases proper.sequence p q with ⟨starts,-⟩ | ⟨starts,-⟩ | later | later
      · exact .inl starts
      · exact .inr starts
      · exact .inl ((spans p).trans later)
      · exact .inr ((spans q).trans later)
    | ending q => exact proper.start_ending p q
  | ending p =>
    cases second with
    | between split => exact ((proper.beside split p).imp_left (·.trans (spans p))).symm
    | start q => exact (proper.start_ending q p).symm
    | ending q =>
      rcases proper.sequence p q with ⟨-,ends⟩ | ⟨-,ends⟩ | later | later
      · exact .inr ends
      · exact .inl ends
      · exact .inl (later.trans (spans q))
      · exact .inr (later.trans (spans p))

end

end Host
end Lox
