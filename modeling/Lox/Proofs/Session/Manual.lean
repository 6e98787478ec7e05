import Lox.Proofs.Heap.Apart
import Lox.Proofs.Session.Apart
import Lox.Proofs.Session.Settings

/-! # Collections and hosts

A host whose heap collects of its own accord reports the same as one whose heap does so by hand only, and
that leaves out the collections by hand as well. Whatever both heaps own is the same in both.
-/
namespace Lox
open Machine Exec Comparison

/-! ## Machines that collect by hand -/

theorem measured_enterWorld (env : Ref) : Measured (enterWorld env) :=
  (uniform_measured (evaluator 0)).enterWorld (fun _ _ => measured_never fun _ _ _ failed => by cases failed) env

namespace Machine
variable {m : Machine}

theorem rules_enterWorld (env : Ref) (m : Machine) :
    (stateAfter (enterWorld env m)).heap.rules = m.heap.rules :=
  have grows := @leads_enterWorld (fun m k : Machine => m.heap.Grows k.heap) inferInstance env m
  grows.rules

theorem rules_runIn (steps : Nat) (env : Ref) (p : Program) (m : Machine) :
    (m.runIn steps env p).2.heap.rules = m.heap.rules :=
  after_runIn (P := fun k => k.heap.rules = m.heap.rules) (rules_enterWorld env m)
    fun k rules => (grows_run steps p k).rules.trans rules

theorem not_strained_concluded (manual : m.heap.Manual) (n : Nat) (p : Program) :
    ¬Strained (concluded (executeProgram n p m)).1 (concluded (executeProgram n p m)).2 := by
  rintro ⟨e,failed,-⟩
  have resumes : Resumes _ _ := leads_executeProgram n p m
  cases ran : executeProgram n p m with
  | ok _ k =>
    rw [ran] at failed
    cases failed
  | error t k =>
    rw [ran] at failed resumes
    cases t with
    | fault f =>
      cases failed
      obtain ⟨-,-,automatic⟩ := measured_executeProgram _ _ _ _ _ ran rfl
      rw [show k.heap.rules = m.heap.rules from resumes.heap.rules,manual] at automatic
      cases automatic
    | error | cut => cases failed

theorem not_strained_run (manual : m.heap.Manual) (steps : Nat) (p : Program) :
    ¬Strained (m.run steps p).1 (m.run steps p).2 := by
  obtain ⟨log,same⟩ := run_eq_concluded steps p m
  rw [same]
  exact not_strained_concluded (m := { m with current := m.globals, steps, log }) manual _ p

theorem not_strained_runIn (manual : m.heap.Manual) (steps : Nat) (env : Ref) (p : Program) :
    ¬Strained (m.runIn steps env p).1 (m.runIn steps env p).2 := by
  have rules := rules_enterWorld env m
  simp only [runIn]
  cases entered : enterWorld env m with
  | ok _ k =>
    rw [entered] at rules
    refine not_strained_run ?_ steps p
    rw [Heap.Manual,show k.heap.rules = m.heap.rules from rules]
    exact manual
  | error t k =>
    rw [entered] at rules
    rintro ⟨e,failed,-⟩
    cases t with
    | fault f =>
      cases failed
      obtain ⟨-,-,automatic⟩ := measured_enterWorld env _ _ _ entered rfl
      rw [show k.heap.rules = m.heap.rules from rules,manual] at automatic
      cases automatic
    | error | cut => cases failed

theorem not_strained_of_finite {o : Outcome} (finite : m.heap.Finite) : ¬Strained o m := by
  rintro ⟨e,-,spoiled⟩
  obtain ⟨next,fine⟩ := finite
  rw [fine] at spoiled
  cases spoiled

end Machine

/-! ## Hosts that collect by hand -/

namespace Host
variable {h g : Host}

/-- The live count times the growth factor is finite before, between and behind the deeds. -/
def Bounded (h : Host) : List Deed → Prop
  | [] => h.machine.heap.Finite
  | d :: rest => h.machine.heap.Finite ∧ (h.act d).2.Bounded rest

theorem Bounded.finite {deeds : List Deed} (bounded : h.Bounded deeds) : h.machine.heap.Finite := by
  cases deeds with
  | nil => exact bounded
  | cons => exact bounded.1

theorem bounded_append {ds es : List Deed} :
    h.Bounded (ds ++ es) → h.Bounded ds ∧ (h.after ds).Bounded es := by
  intro bounded
  induction ds generalizing h with
  | nil => exact ⟨bounded.finite,bounded⟩
  | cons d ds ih =>
    obtain ⟨first,later⟩ := ih bounded.2
    exact ⟨⟨bounded.1,first⟩,later⟩

instance decidableFinite (heap : Heap Value) : Decidable heap.Finite :=
  decidable_of_iff (Heap.grownThreshold heap.rules heap.liveCount).toOption.isSome <| by
    rw [Heap.Finite]
    cases Heap.grownThreshold heap.rules heap.liveCount with
    | error e =>
      refine ⟨fun some => (by cases some),?_⟩
      rintro ⟨_,⟨⟩⟩
    | ok next => exact ⟨fun _ => ⟨next,rfl⟩,fun _ => rfl⟩

instance decidableBounded : (h : Host) → (deeds : List Deed) → Decidable (h.Bounded deeds)
  | h, [] => decidableFinite h.machine.heap
  | h, d :: rest =>
    have := decidableFinite h.machine.heap
    have := decidableBounded (h.act d).2 rest
    inferInstanceAs (Decidable (_ ∧ _))

/-- A host whose heap collects by hand only, besides another one that does the same. -/
structure Shadows (h g : Host) : Prop where
  hosted : (Heap.hosts_agreement Eq fun _ => rfl).Hosted h.made h.machine g.machine
  made : g.made = h.made
  manual : g.machine.heap.Manual

namespace Shadows
variable (shadows : Shadows h g)
include shadows

theorem worlds : g.machine.worlds = h.machine.worlds := by
  obtain ⟨heap,log,same,-⟩ := shadows.hosted.twins
  rw [same]

theorem size : g.machine.heap.cells.size = h.machine.heap.cells.size := by
  obtain ⟨heap,log,same,agree,-⟩ := shadows.hosted.twins
  rw [same]
  exact agree.size

theorem make : Shadows (h.act .make).2 (g.act .make).2 where
  hosted := shadows.hosted.make
  made := by
    simp only [act,Session.newEnvironment,Heap.create]
    rw [shadows.made,shadows.size]
  manual := shadows.manual

/-- Only the one host collects. -/
theorem collect (finite : (h.act .collect).2.machine.heap.Finite) : Shadows (h.act .collect).2 g where
  hosted := by
    have collected : (h.act .collect).2.machine = stateAfter (Machine.collect h.machine) := rfl
    rcases shadows.hosted.collect with ⟨n,m,done,hosted⟩ | spoiled
    · rw [done] at collected
      exact collected ▸ hosted
    · obtain ⟨next,fine⟩ := finite
      rw [collected] at fine
      generalize Machine.collect h.machine = x at spoiled fine
      cases x with
      | ok => exact spoiled.elim
      | error t k =>
        obtain ⟨e,rfl,grown⟩ := spoiled
        cases grown.symm.trans fine
  made := shadows.made
  manual := shadows.manual

/-- What both hosts report of runs on their machines. -/
theorem reports {x y : Session.Ending × Session} (ending : y.1 = x.1)
    (hosted : (Heap.hosts_agreement Eq fun _ => rfl).Hosted h.made x.2.machine y.2.machine)
    (manual : y.2.machine.heap.Manual) :
    (g.reports y).1 = (h.reports x).1 ∧ Shadows (h.reports x).2 (g.reports y).2 := by
  have output : y.2.machine.output = x.2.machine.output := output_eq hosted.twins
  refine ⟨by simp only [Host.reports,Session.takeOutput,ending,output],?_,shadows.made,manual⟩
  obtain ⟨heap,log,same,held⟩ := hosted.twins
  refine ⟨⟨heap,log,?_,held⟩,hosted.listed⟩
  simp only [Host.reports,Session.takeOutput,same]

/-- Both machines as they are when a run starts. -/
theorem timed (log log' : List String) (clock : Float) : (Heap.hosts_agreement Eq fun _ => rfl).Hosted h.made
    { h.machine with log, clock } { g.machine with log := log', clock } := by
  obtain ⟨heap,_,same,held⟩ := shadows.hosted.twins
  rw [same]
  exact ⟨⟨heap,log',rfl,held⟩,shadows.hosted.listed⟩

/-- Both hosts run a source in an environment. -/
theorem runIn {i : Nat} {clock : Float} {e : Entry}
    (finite : (h.act (.runIn i clock e)).2.machine.heap.Finite) :
    (g.act (.runIn i clock e)).1 = (h.act (.runIn i clock e)).1 ∧
      Shadows (h.act (.runIn i clock e)).2 (g.act (.runIn i clock e)).2 := by
  cases found : h.made[i]? with
  | none =>
    rw [act_runIn_none found,act_runIn_none (shadows.made ▸ found)]
    exact ⟨rfl,shadows⟩
  | some env =>
    rw [act_runIn found] at finite ⊢
    rw [act_runIn (shadows.made ▸ found)]
    obtain ⟨m,log,hm,-,ending,machine⟩ := (h.timed clock).runIn_eq env e.source e.file e.steps
    obtain ⟨k,log',hk,-,ending',machine'⟩ := (g.timed clock).runIn_eq env e.source e.file e.steps
    have hosted : (Heap.hosts_agreement Eq fun _ => rfl).Hosted h.made m k := by
      rw [hm,hk]
      exact shadows.timed log log' clock
    have manual : k.heap.Manual := hk ▸ shadows.manual
    have finite : ((h.timed clock).runIn env e.source e.file e.steps).2.machine.heap.Finite := finite
    by_cases clean : (compile e.source).errors = []
    · rw [if_pos (List.isEmpty_iff.mpr clean)] at ending machine ending' machine'
      rcases hosted.runIn (List.mem_of_getElem? found) e.steps (compile e.source).program with
        ⟨outcomes,hosted⟩ | ⟨-,strained | strained⟩
      · rw [← machine,← machine'] at hosted
        refine shadows.reports ?_ hosted ?_
        · rw [ending,ending',outcomes.eq]
        · rw [machine',Heap.Manual,rules_runIn]
          exact manual
      · exact absurd strained (not_strained_of_finite (machine ▸ finite))
      · exact absurd strained (not_strained_runIn manual _ _ _)
    · rw [if_neg (mt List.isEmpty_iff.mp clean)] at ending machine ending' machine'
      rw [← machine,← machine'] at hosted
      exact shadows.reports (ending'.trans ending.symm) hosted (machine' ▸ manual)

/-- A deed that is no run in the globals. -/
theorem act {d : Deed} (given : ∀ clock e, d ≠ .run clock e) (finite : (h.act d).2.machine.heap.Finite) :
    Shadows (h.act d).2 (g.actIf Deed.places d) ∧ (d.places → (g.act d).1 = (h.act d).1) := by
  cases d with
  | run clock e => exact absurd rfl (given clock e)
  | make => exact ⟨shadows.make,fun _ => rfl⟩
  | collect => exact ⟨shadows.collect finite,fun places => by cases places⟩
  | runIn i clock e =>
    obtain ⟨report,next⟩ := shadows.runIn finite
    exact ⟨next,fun _ => report⟩

/-- Collections by hand can be left out. -/
theorem after {deeds : List Deed} (given : ∀ d ∈ deeds, ∀ clock e, d ≠ .run clock e)
    (bounded : h.Bounded deeds) :
    Shadows (h.after deeds) (g.after (deeds.filter Deed.places)) ∧
      ∀ i, g.reportsIn i (deeds.filter Deed.places) = h.reportsIn i deeds := by
  induction deeds generalizing h g with
  | nil => exact ⟨shadows,fun _ => rfl⟩
  | cons d rest ih =>
    obtain ⟨first,given⟩ := List.forall_mem_cons.mp given
    obtain ⟨next,report⟩ := shadows.act first bounded.2.finite
    obtain ⟨later,same⟩ := ih next given bounded.2
    have places : ∀ {i}, d.isIn i → d.places := by
      intro i inside
      cases d with
      | runIn => rfl
      | _ => cases inside
    refine ⟨after_filter g _ d rest ▸ later,fun i => ?_⟩
    rw [reportsIn_filter g places,same i,reportsIn]
    split
    · next inside => rw [report (places inside)]
    · rfl

/-! ## What both hosts hold -/

theorem agree : Heap.Agree Eq h.machine.roots h.machine.heap g.machine.heap := by
  obtain ⟨heap,log,same,agree,-⟩ := shadows.hosted.twins
  rw [List.append_nil] at agree
  rw [same]
  exact agree

theorem blank : Heap.Blank (h.machine.waiting h.made) h.machine.heap ∧
    Heap.Blank (h.machine.waiting h.made) g.machine.heap := by
  obtain ⟨heap,log,same,-,blank⟩ := shadows.hosted.twins
  rw [same]
  exact blank

theorem owned {r : Ref} (entered : r ∈ h.machine.worlds) :
    h.machine.heap.isRegistered r ∧ g.machine.heap.isRegistered r := by
  have rooted : r ∈ h.machine.roots := mem_roots.mpr (.inr (.inr (.inl entered)))
  exact ⟨shadows.agree.left.owned r rooted,shadows.agree.right.owned r rooted⟩

/-- What both heaps own is the same in both. -/
theorem untouched {r : Ref} (left : h.machine.heap.isRegistered r) (right : g.machine.heap.isRegistered r) :
    Heap.Untouched h.machine.heap g.machine.heap r := by
  have alike := shadows.agree.cells r left right
  simp only [Heap.Untouched]
  generalize h.machine.heap.cells[r.index]? = a,g.machine.heap.cells[r.index]? = b at alike
  cases alike with
  | none => rfl
  | some alike =>
    obtain ⟨object,slot,freed⟩ := alike
    simp only [Option.map_some,Cell.unmark,object.eq,slot,freed]

end Shadows
end Host
end Lox
