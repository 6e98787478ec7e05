import Lox.Proofs.Machine.Entering
import Lox.Proofs.Eval.Performed

/-! # Hosts

A host makes environments, runs sources one after another in the globals of the machine or in the
environments that it has made, and collects in between. Whatever it does, the heap stays secure, and the
environments that no source has been run in stay as they have been made.
-/
namespace Lox
open Machine Exec Comparison

/-- What a host does. A run starts when the clock shows the given time. -/
inductive Deed
  | make
  | run (clock : Float) (e : Entry)
  | runIn (i : Nat) (clock : Float) (e : Entry)
  | collect

/-- The source that is run. -/
def Deed.entry? : Deed → Option Entry
  | run _ e | runIn _ _ e => some e
  | make | collect => none

/-- A session with the environments that its host has made. -/
structure Host where
  session : Session
  made : List Ref := []

namespace Host

/-- How a run ended and what it printed. -/
abbrev Report := Session.Ending × String

abbrev machine (h : Host) : Machine := h.session.machine

/-- The session as the clock shows a time. -/
def timed (h : Host) (clock : Float) : Session :=
  { h.session with machine := { h.machine with clock } }

def reports (h : Host) (x : Session.Ending × Session) : Option Report × Host :=
  let (output,session) := x.2.takeOutput
  (some (x.1,output),{ h with session })

def act (h : Host) : Deed → Option Report × Host
  | .make => (none,⟨h.session.newEnvironment.2,h.made ++ [h.session.newEnvironment.1]⟩)
  | .run clock e => h.reports ((h.timed clock).run e.source e.file e.steps)
  | .runIn i clock e =>
    match h.made[i]? with
    | none => (none,h)
    | some env => h.reports ((h.timed clock).runIn env e.source e.file e.steps)
  | .collect =>
    (none,{ h with session := { h.session with machine := stateAfter (Machine.collect h.machine) } })

/-- The host behind its deeds. -/
def after (h : Host) : List Deed → Host
  | [] => h
  | d :: rest => (h.act d).2.after rest

/-- A program that is run in a deed, with the machine and the number of steps. -/
inductive Runs (h : Host) : Deed → Nat → Program → Machine → Prop
  | run {clock e} : (compile e.source).errors = [] → Runs h (.run clock e) e.steps
      (compile e.source).program ((h.timed clock).compileSource e.source e.file).2.machine
  | runIn {i clock e env m} : h.made[i]? = some env → (compile e.source).errors = [] →
      enterWorld env ((h.timed clock).compileSource e.source e.file).2.machine = .ok () m →
      Runs h (.runIn i clock e) e.steps (compile e.source).program m

/-- The tasks performed in the course of deeds. -/
def Performs (h : Host) : List Deed → Nat → Task → Machine → Prop
  | [] => fun _ _ _ => False
  | d :: rest => fun l u k =>
    (∃ steps p m, h.Runs d steps p m ∧ Machine.Performs steps p m l u k) ∨ (h.act d).2.Performs rest l u k

theorem after_append (h : Host) (ds es : List Deed) : h.after (ds ++ es) = (h.after ds).after es := by
  induction ds generalizing h with
  | nil => rfl
  | cons d ds ih => exact ih (h.act d).2

theorem made_act (h : Host) (d : Deed) : h.made <+: (h.act d).2.made := by
  cases d with
  | make => exact List.prefix_append _ _
  | runIn i _ _ =>
    simp only [act]
    cases h.made[i]? <;> exact List.prefix_rfl
  | _ => exact List.prefix_rfl

theorem made_after (h : Host) (ds : List Deed) : h.made <+: (h.after ds).made := by
  induction ds generalizing h with
  | nil => exact List.prefix_rfl
  | cons d ds ih => exact (h.made_act d).trans (ih _)

end Host

namespace Host
variable {h : Host}

/-- The machine of a host whose heap is secure and whose environments wait or have been entered. -/
abbrev Kept (h : Host) : Prop := Heap.hosts_selfsame.Hosted h.made h.machine h.machine

theorem Kept.secure (kept : h.Kept) : Heap.Secure h.machine.roots h.machine.heap := by
  obtain ⟨_,_,-,⟨-,sec⟩,-⟩ := kept.twins
  rwa [List.append_nil] at sec

theorem Kept.blank (kept : h.Kept) : Heap.Blank (h.machine.waiting h.made) h.machine.heap := by
  obtain ⟨_,_,-,-,blank,-⟩ := kept.twins
  exact blank

theorem kept_reports {x : Session.Ending × Session}
    (hosted : Heap.hosts_selfsame.Hosted h.made x.2.machine x.2.machine) : (h.reports x).2.Kept :=
  hosted.change x.2.machine.log x.2.machine.log x.2.machine.clock ""

theorem Kept.act (kept : h.Kept) (d : Deed) : (h.act d).2.Kept := by
  cases d with
  | make => exact kept.make
  | collect => exact hosted_collect kept
  | run clock e =>
    refine kept_reports ?_
    obtain ⟨m,log,rfl,-,same⟩ := (h.timed clock).run_eq e.source e.file e.steps
    have timed := kept.change log log clock h.machine.output
    rw [same]
    split
    · rcases timed.run e.steps (compile e.source).program with ⟨-,hosted⟩ | ⟨lax,-⟩
      · exact hosted
      · exact lax.elim
    · exact timed
  | runIn i clock e =>
    simp only [Host.act]
    cases found : h.made[i]? with
    | none => exact kept
    | some env =>
      refine kept_reports ?_
      obtain ⟨m,log,rfl,-,-,same⟩ := (h.timed clock).runIn_eq env e.source e.file e.steps
      have timed := kept.change log log clock h.machine.output
      rw [same]
      split
      · rcases timed.runIn (List.mem_of_getElem? found) e.steps (compile e.source).program with
          ⟨-,hosted⟩ | ⟨lax,-⟩
        · exact hosted
        · exact lax.elim
      · exact timed

theorem Kept.after (kept : h.Kept) (ds : List Deed) : (h.after ds).Kept := by
  induction ds generalizing h with
  | nil => exact kept
  | cons d ds ih => exact ih (kept.act d)

theorem kept_start {settings : Settings} {clock : Float} {s : Session}
    (start : Session.start settings clock = .ok s) : (⟨s,[]⟩ : Host).Kept :=
  have machine := Session.machine_of_start start
  Hosts.hosted_start rfl rfl ⟨rfl,secure_empty _⟩ machine machine

/-- A machine on which a program is run. -/
theorem Kept.runs (kept : h.Kept) {d : Deed} {steps : Nat} {p : Program} {m : Machine}
    (runs : h.Runs d steps p m) : Heap.hosts_selfsame.Hosted h.made m m := by
  cases runs with
  | @run clock e clean =>
    obtain ⟨log,same⟩ := (h.timed clock).compileSource_machine e.source e.file
    rw [same]
    exact kept.change log log clock h.machine.output
  | @runIn i clock e env m found clean entered =>
    obtain ⟨log,same⟩ := (h.timed clock).compileSource_machine e.source e.file
    rw [same] at entered
    have timed := (kept.change log log clock h.machine.output).enterWorld (List.mem_of_getElem? found)
    rw [show enterWorld env { h.machine with log, clock, output := h.machine.output } = _ from entered]
      at timed
    cases timed with
    | ok _ hosted => exact hosted
    | spoiled lax _ => exact lax.elim

end Host
end Lox
