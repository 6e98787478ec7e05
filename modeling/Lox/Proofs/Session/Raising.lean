import Lox.Proofs.Eval.Raising
import Lox.Proofs.Session.Along
import Lox.Proofs.Session.Blame
import Lox.Proofs.Session.Dispatch

/-! # Runtime errors of sessions

A runtime error that a run returns has been raised by one node, at the token that answers for it. The token is
one of the source at hand or of an earlier one, and nothing on the way out has changed the error.
-/
namespace Lox
open Machine Exec

/-! ## The stage that a run fails at -/

theorem fails_of_executeProgram {n : Nat} {p : Program} {m l : Machine} {e : RuntimeError}
    (failed : executeProgram n p m = .error (.error e) l) :
    ∃ s j, Begins n p m s j ∧ Stage.Fails ⟨n,.execute s,j⟩ e := by
  induction p generalizing m with
  | nil => cases failed
  | cons s p ih =>
    rcases bind_eq_error failed with broken | ⟨a,k,executed,later⟩
    · exact ⟨s,m,.first,l,broken⟩
    · obtain ⟨t,j,begins,fails⟩ := ih later
      exact ⟨t,j,.later executed begins,fails⟩

/-- A run returns an error that a stage of it raises by itself, and each stage in progress around that one
fails with the same error. -/
structure Machine.Raised (m : Machine) (steps : Nat) (p : Program) (stages : List Stage) (stage : Stage)
    (e : RuntimeError) : Prop where
  outcome : (m.run steps p).1 = .error e
  progress : m.Progress steps p stages stage
  raises : stage.Raises e
  around : ∀ s ∈ stages, s.Fails e

theorem Machine.raised_of_run {m : Machine} {p : Program} {steps : Nat} {e : RuntimeError}
    (failed : (m.run steps p).1 = .error e) :
    ∃ stages l u k, m.Raised steps p stages ⟨l + 1,u,k⟩ e := by
  obtain ⟨k,l,traced,-,broken⟩ := broken_of_run failed
  obtain ⟨s,j,begins,fails⟩ := fails_of_executeProgram broken
  obtain ⟨stages,i,u,o,active,raises⟩ := fails.raised
  exact ⟨stages,i,u,o,failed,⟨k,s,j,traced,begins,active⟩,raises,active.fails raises.fails⟩

/-! ## Reports -/

/-- Nothing that is done before a run blames a program. -/
theorem enterWorld_ne_error {env : Ref} {m k : Machine} {e : RuntimeError} :
    enterWorld env m ≠ .error (.error e) k := by
  intro failed
  have enters := (uniform_blames (fun _ => False) (evaluator 0)).enterWorld
    (fun _ _ => blames_const fun _ _ _ failed => nomatch failed) env
  rcases enters.blames failed with none | ⟨_,_,_,asks,-⟩
  · exact none
  · exact not_asks_const _ asks

theorem Machine.run_of_runIn_eq_error {env : Ref} {m : Machine} {p : Program} {steps : Nat} {e : RuntimeError}
    (failed : (m.runIn steps env p).1 = .error e) :
    ∃ k, enterWorld env m = .ok () k ∧ (k.run steps p).1 = .error e := by
  simp only [Machine.runIn] at failed
  cases entered : enterWorld env m with
  | ok _ k =>
    rw [entered] at failed
    exact ⟨k,rfl,failed⟩
  | error t k =>
    rw [entered] at failed
    cases t with
    | error _ => exact absurd entered enterWorld_ne_error
    | fault | cut => cases failed

theorem Session.Ending.eq_error {file : Option String} {o : Outcome} {r : RunResult} {e : RuntimeError}
    (same : Ending.ofOutcome file o = .result r) (failed : r.runtimeError = some e) : o = .error e := by
  cases o with
  | error f =>
    cases same
    cases failed
    rfl
  | done =>
    cases same
    cases failed
  | fault | cut => cases same

/-- A runtime error that a host is told of is that of a run. -/
theorem Host.runs_of_report {h : Host} {d : Deed} {r : RunResult} {out : String} {e : RuntimeError}
    (ran : (h.act d).1 = some (.result r,out)) (failed : r.runtimeError = some e) :
    ∃ steps p m, h.Runs d steps p m ∧ (m.run steps p).1 = .error e := by
  cases d with
  | make | collect => cases ran
  | run clock x =>
    have ending : ((h.timed clock).run x.source x.file x.steps).1 = .result r :=
      congrArg Prod.fst (Option.some.inj ran)
    simp only [Session.run,Session.compileSource_fst] at ending
    split at ending
    · next clean =>
      exact ⟨_,_,_,.run (List.isEmpty_iff.mp clean),Session.Ending.eq_error ending failed⟩
    · cases ending
      cases failed
  | runIn i clock x =>
    simp only [Host.act] at ran
    cases found : h.made[i]? with
    | none =>
      rw [found] at ran
      cases ran
    | some env =>
      rw [found] at ran
      have ending : ((h.timed clock).runIn env x.source x.file x.steps).1 = .result r :=
        congrArg Prod.fst (Option.some.inj ran)
      simp only [Session.runIn,Session.compileSource_fst] at ending
      split at ending
      · next clean =>
        obtain ⟨k,entered,broken⟩ := run_of_runIn_eq_error (Session.Ending.eq_error ending failed)
        exact ⟨_,_,_,.runIn found (List.isEmpty_iff.mp clean) entered,broken⟩
      · cases ending
        cases failed

/-! ## Tokens -/

theorem compile_built {T : Token → Prop} {source : String} (tokens : ∀ t ∈ (scan source).tokens, T t)
    (clean : (compile source).errors = []) : BodyBuilt T (compile source).program := by
  obtain ⟨-,-,program⟩ := compile_eq_nil clean
  rw [program]
  exact BodyBuilt.resolve [] _ (parseScan_built (scan_tokens_ne_nil source) tokens)

/-- A token of one of the sources that are run. -/
def Host.TokenOf (deeds : List Deed) (t : Token) : Prop :=
  ∃ a ∈ Host.entries deeds, t ∈ (scan a.source).tokens

section
variable {settings : Settings} {clock : Float} {s : Session} {deeds : List Deed} {l n : Nat} {u : Task}
  {k : Machine} {e : RuntimeError} (start : Session.start settings clock = .ok s)
include start

theorem built_of_performs (performs : Host.Performs ⟨s,[]⟩ deeds l u k) : u.Built (Host.TokenOf deeds) := by
  refine ((enduring_built (Host.TokenOf deeds)).performs (G := fun source => ∃ a ∈ Host.entries deeds,
    a.source = source) ?_ (fun d hd a ha => ⟨a,List.mem_filterMap.mpr ⟨d,hd,ha⟩,rfl⟩)
    ((enduring_built _).start (Session.machine_of_start start)) performs).1
  rintro _ ⟨a,ha,rfl⟩ clean t ht
  exact (compile_built (fun t ht => ⟨a,ha,ht⟩) clean).mem ht

/-- What a stage raises by itself stands at the token that answers for it. -/
theorem responsible_of_raises (performs : Host.Performs ⟨s,[]⟩ deeds (n + 1) u k)
    (raises : Stage.Raises ⟨n + 1,u,k⟩ e) : ∃ token, Host.TokenOf deeds token ∧ token.Responsible u e := by
  have built := built_of_performs start performs
  by_cases super : ∃ pos method depth, u = .evaluate (.super pos method depth)
  · -- The superclass is a class wherever `super` is used, so the method is what can be missing.
    obtain ⟨pos,method,depth,rfl⟩ := super
    obtain ⟨d,c,rfl,-,bound,this⟩ := around_super start performs
    obtain ⟨cs,-,cut | ⟨m,-,found⟩⟩ := evaluate_super_of_performs start performs bound this
    · obtain ⟨_,failed⟩ := raises.fails
      cases cut.symm.trans failed
    · obtain ⟨_,failed⟩ := raises.fails
      have failed := found.symm.trans failed
      obtain ⟨token,there,kind,rfl⟩ := built.2.exists_token
      cases looked : cs.findSome? (k.heap.methodOf · token.lexeme) with
      | some f =>
        rw [looked] at failed
        cases failed
      | none =>
        rw [looked] at failed
        cases failed
        exact ⟨token,there,.method kind⟩
  · exact raises.own (built.raisesIn fun pos method depth same => super ⟨pos,method,depth,same⟩)

end

/-- A source that leaves a method behind which looks one up in its superclass in vain. -/
def lacking : Entry :=
  ⟨"class A \x7b \x7d class B < A \x7b
  m() \x7b return super.n; \x7d \x7d","a.lox",60⟩

end Lox
