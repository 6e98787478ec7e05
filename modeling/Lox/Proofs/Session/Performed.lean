import Lox.Proofs.Heap.Tidying
import Lox.Proofs.Session.Hosting
import Lox.Proofs.Session.Scoping

/-! # What hosts perform

Every task that is performed in the course of what a host does fits its place: the objects that it is
about have the roles that the text of its source gives them. This takes that the environments which the
host has made are known to bind globals, before and after they are entered.
-/
namespace Lox
open Machine Exec Comparison

namespace Copying
variable {use : Context → Expr → Prop} {made : Ref → Origin → Prop} {W V : World} {h k : Heap Value}

/-- What is known of a heap: each object with a role has what the role asks for. -/
def Knows (use : Context → Expr → Prop) (made : Ref → Origin → Prop) (W : World) (h : Heap Value) : Prop :=
  ∀ r R, W r = some R → ∃ c, h.cells[r.index]? = some c ∧ R.Shape c.object ∧
    (c.freed = true → c.object.emptied = c.object) ∧
    (c.freed = false → (known use made).Content W r R c.object)

theorem heaps_known : (known use made).heaps W h h ↔ Knows use made W h := by
  constructor
  · intro held r R role
    obtain ⟨c,d,hc,-,copied⟩ := (known use made).cell held role
    exact ⟨c,hc,copied.shape,copied.emptied,copied.content⟩
  · intro knows
    refine ⟨⟨fun i => ?_,rfl⟩,fun r R role => ?_⟩
    · cases hc : h.cells[i]? with
      | none => exact .none
      | some c =>
        refine .some ⟨?_,rfl,rfl,rfl⟩
        cases role : W ⟨i⟩ with
        | none => simp only [Guise.related,role]
        | some R =>
          obtain ⟨d,hd,shape,emptied,content⟩ := knows ⟨i⟩ R role
          obtain rfl : c = d := Option.some.inj (hc.symm.trans hd)
          exact (Guise.related_of_role role).mpr ⟨(copy_known R c.object).symm,shape,emptied,content⟩
    · obtain ⟨c,hc,-⟩ := knows r R role
      exact (Array.getElem?_eq_some_iff.mp hc).1

theorem Knows.tidied (knows : Knows use made W h) (tidied : Heap.Tidied h.cells k.cells) :
    Knows use made W k := by
  intro r R role
  obtain ⟨c,hc,shape,emptied,content⟩ := knows r R role
  have related := tidied r.index
  rw [hc] at related
  generalize k.cells[r.index]? = d at related
  cases related with
  | @some _ d related =>
    refine ⟨d,rfl,?_⟩
    rcases related with ⟨object,freed⟩ | ⟨object,freed⟩
    · rw [object,freed]
      exact ⟨shape,emptied,content⟩
    · rw [object]
      exact ⟨shape.emptied,fun _ => c.object.emptied_emptied,fun live => by rw [freed] at live; cases live⟩

/-- A new object that has what its role asks for. -/
theorem Knows.create {R : Role} {o : Object Value} (knows : Knows use made W h)
    (content : (known use made).Content (W.put ⟨h.cells.size⟩ R) ⟨h.cells.size⟩ R o) :
    W.Grows (W.put ⟨h.cells.size⟩ R) ∧
      Knows use made (W.put ⟨h.cells.size⟩ R) (stateAfter (Heap.create o h)) := by
  have up : W.Grows (W.put ⟨h.cells.size⟩ R) := World.grows_put_new (fresh (heaps_known.mpr knows)) R
  refine ⟨up,fun r S role => ?_⟩
  by_cases new : r = ⟨h.cells.size⟩
  · subst new
    obtain rfl : R = S := Option.some.inj ((World.put_self _ R).symm.trans role)
    exact ⟨_,Array.getElem?_push_size,content.shape,nofun,fun _ => content⟩
  · obtain ⟨c,hc,shape,emptied,content⟩ := knows r S ((World.put_of_ne new R).symm.trans role)
    have inside := (Array.getElem?_eq_some_iff.mp hc).1
    refine ⟨c,?_,shape,emptied,fun live => (content live).grows up⟩
    simp only [stateAfter,Heap.create,Array.getElem?_push]
    rw [if_neg (by omega),hc]

section
variable {Γ : Context} {m : Machine} {env : Ref} (pair : (known use made).Pair W Γ m m)
include pair

/-- A machine whose heap has been tidied. -/
theorem Pair.tidied (tidied : Heap.Tidied m.heap.cells h.cells) (log : List String) :
    (known use made).Pair W Γ { m with heap := h, log } { m with heap := h, log } :=
  { pair with
    heaps := heaps_known.mpr ((heaps_known.mp pair.heaps).tidied tidied)
    log_eq := fun _ => rfl }

theorem Pair.journalled (tidied : Heap.Tidied m.heap.cells h.cells) :
    (known use made).Pair W Γ (Machine.logJournal { m with heap := h })
      (Machine.logJournal { m with heap := h }) := by
  rw [logJournal_eq]
  exact pair.tidied (h := { h with journal := [] }) tidied _

theorem Pair.listed (worlds : List Ref) :
    (known use made).Pair W Γ { m with worlds } { m with worlds } :=
  { pair with worlds_eq := fun _ => rfl }

/-- A machine that has collected, whether or not that failed. -/
theorem Pair.collected : (known use made).Pair W Γ (stateAfter (Machine.collect m))
    (stateAfter (Machine.collect m)) := by
  rw [stateAfter_collect]
  exact pair.journalled (Heap.tidied_collect m.roots m.heap)

end

section
variable {m : Machine} {env : Ref} (pair : (known use made).Pair W [] m m)
include pair

theorem Pair.governed (globals : W.Provides env []) : ∃ V, W.Grows V ∧
    (known use made).Pair V [] (stateAfter (govern env m)) (stateAfter (govern env m)) := by
  have ends := ends_installNatives globals Native.all pair
  have resumes : Resumes m _ := leads_installNatives env Native.all m
  rw [show (known use made).ref env = env from rfl] at ends
  simp only [govern,Bind.bind,EStateM.bind]
  generalize installNatives env Native.all m = x at ends resumes
  cases ends with
  | ok up _ pair =>
    exact ⟨_,up,{ pair with globals := up.provides globals, globals_eq := rfl }⟩
  | error up _ now =>
    have current : Machine.current _ = m.current := resumes.current
    exact ⟨_,up,{ now with here := current ▸ up.provides pair.here }⟩

/-- A machine that has entered an environment, whether or not that failed. -/
theorem Pair.entered {envs : List Ref} (hosted : Heap.hosts_selfsame.Hosted envs m m) (henv : env ∈ envs)
    (globals : W.Provides env []) : ∃ V, W.Grows V ∧
      (known use made).Pair V [] (stateAfter (enterWorld env m)) (stateAfter (enterWorld env m)) := by
  obtain ⟨_,_,-,⟨-,sec⟩,blank,-⟩ := hosted.twins
  by_cases same : env = m.globals
  · subst same
    rw [enterWorld_globals]
    exact ⟨W,.refl W,pair⟩
  by_cases listed : env ∈ m.worlds
  · have rooted : env ∈ m.roots := mem_roots.mpr (.inr (.inr (.inl listed)))
    rw [enterWorld_owned same (sec.owned env (List.mem_append_left _ rooted)),enlist_of_mem listed]
    exact pair.governed globals
  · rw [enterWorld_fresh same listed (blank env (mem_waiting.mpr ⟨henv,listed⟩))]
    have tidied := Heap.tidied_register env m.roots m.heap
    generalize Heap.register env m.roots m.heap = x at tidied
    cases x with
    | ok n heap => exact Pair.governed ((pair.journalled tidied).listed _) globals
    | error f heap => exact ⟨W,.refl W,pair.journalled tidied⟩

end
end Copying

namespace Host
variable {use : Context → Expr → Prop} {made : Ref → Origin → Prop} {W : World} {h : Host}

/-- What is known of a host: the roles of the objects on its machine and that the environments it has
made bind globals. -/
structure Known (use : Context → Expr → Prop) (made : Ref → Origin → Prop) (W : World) (h : Host) :
    Prop where
  pair : (Copying.known use made).Pair W [] h.machine h.machine
  globals : ∀ env ∈ h.made, W.Provides env []

theorem Known.grows {V : World} {k : Host} (known : h.Known use made W) (up : W.Grows V)
    (same : k.made = h.made) (pair : (Copying.known use made).Pair V [] k.machine k.machine) :
    k.Known use made V :=
  ⟨pair,fun env henv => up.provides (known.globals env (same ▸ henv))⟩

/-- A machine with another time and another log. -/
theorem Known.timed (known : h.Known use made W) (log : List String) (clock : Float) :
    (Copying.known use made).Pair W [] { h.machine with log, clock } { h.machine with log, clock } :=
  { known.pair with clock_eq := rfl, log_eq := fun _ => rfl }

theorem Known.make (known : h.Known use made W) (origin : made ⟨h.machine.heap.cells.size⟩ .world) :
    ∃ V, (h.act .make).2.Known use made V := by
  obtain ⟨up,knows⟩ := (Copying.heaps_known.mp known.pair.heaps).create
    (Copying.content_globals (C := .known use made) ⟨h.machine.heap.cells.size⟩ origin)
  refine ⟨_,known.pair.withHeap up (Copying.heaps_known.mpr knows),fun env henv => ?_⟩
  rcases List.mem_append.mp henv with henv | new
  · exact up.provides (known.globals env henv)
  · obtain rfl := List.mem_singleton.mp new
    exact ⟨_,World.put_self _ _,rfl⟩

theorem Known.reports {V : World} {x : Session.Ending × Session} (known : h.Known use made W)
    (up : W.Grows V) (pair : (Copying.known use made).Pair V [] x.2.machine x.2.machine) :
    (h.reports x).2.Known use made V := known.grows up rfl { pair with output_eq := rfl }

section
variable {H : Nat → Task → Machine → Prop} (history : Copying.History use made H)
include history

/-- What is performed on a machine that runs a source fits, and the machine can go on. -/
theorem known_run {e : Entry} {m : Machine} (clean : (compile e.source).errors = [])
    (covers : Covers use e.sites)
    (performs : ∀ l u k, Machine.Performs e.steps (compile e.source).program m l u k → H l u k)
    (pair : (Copying.known use made).Pair W [] m m) (sec : Heap.Secure m.roots m.heap) :
    (∀ l u k, Machine.Performs e.steps (compile e.source).program m l u k →
      Copying.Ready use made u k ∧ u.Safe l k) ∧
    ∃ V, W.Grows V ∧ (Copying.known use made).Pair V [] (m.run e.steps (compile e.source).program).2
      (m.run e.steps (compile e.source).program).2 := by
  have fits := Entry.fits (List.isEmpty_iff.mpr clean) covers
  obtain ⟨ready,-,pair,-⟩ := history.performed performs fits pair sec
  exact ⟨ready,pair⟩

theorem Known.run (known : h.Known use made W) (kept : h.Kept) {clock : Float} {e : Entry}
    (performs : ∀ steps p m l u k, h.Runs (.run clock e) steps p m →
      Machine.Performs steps p m l u k → H l u k) (covers : Covers use e.sites) :
    (∀ steps p m l u k, h.Runs (.run clock e) steps p m → Machine.Performs steps p m l u k →
      Copying.Ready use made u k ∧ u.Safe l k) ∧ ∃ V, (h.act (.run clock e)).2.Known use made V := by
  obtain ⟨m,log,rfl,-,after⟩ := (h.timed clock).run_eq e.source e.file e.steps
  obtain ⟨log',compiled⟩ := (h.timed clock).compileSource_machine e.source e.file
  by_cases clean : (compile e.source).errors = []
  · have machine := Session.run_of_compile (s := h.timed clock) (List.isEmpty_iff.mpr clean)
    rw [compiled] at machine
    obtain ⟨ready,V,up,pair⟩ := known_run history clean covers
      (fun l u k p => performs _ _ _ l u k (.run clean) (compiled ▸ p)) (known.timed log' clock) kept.secure
    refine ⟨?_,V,known.reports up (machine.2 ▸ pair)⟩
    rintro _ _ _ l u k ⟨_⟩ p
    exact ready l u k (compiled ▸ p)
  · refine ⟨?_,W,known.reports (.refl W) ?_⟩
    · rintro _ _ _ l u k ⟨clean'⟩ p
      exact absurd clean' clean
    · rw [after,if_neg (mt List.isEmpty_iff.mp clean)]
      exact known.timed log clock

/-- Nothing runs in an environment that is none of the host's or that cannot be entered. -/
theorem Known.runIn (known : h.Known use made W) (kept : h.Kept) {i : Nat} {clock : Float} {e : Entry}
    (performs : ∀ steps p m l u k, h.Runs (.runIn i clock e) steps p m →
      Machine.Performs steps p m l u k → H l u k) (covers : Covers use e.sites) :
    (∀ steps p m l u k, h.Runs (.runIn i clock e) steps p m → Machine.Performs steps p m l u k →
      Copying.Ready use made u k ∧ u.Safe l k) ∧ ∃ V, (h.act (.runIn i clock e)).2.Known use made V := by
  simp only [Host.act]
  cases found : h.made[i]? with
  | none =>
    refine ⟨?_,W,known⟩
    rintro _ _ _ l u k (_ | ⟨found',_,_⟩) p
    cases found.symm.trans found'
  | some env =>
    obtain ⟨m,log,same,compiled,-,after⟩ := (h.timed clock).runIn_eq env e.source e.file e.steps
    have pair : (Copying.known use made).Pair W [] m m := same ▸ known.timed log clock
    have hosted : Heap.hosts_selfsame.Hosted h.made m m :=
      same ▸ kept.change log log clock h.machine.output
    have henv := List.mem_of_getElem? found
    by_cases clean : (compile e.source).errors = []
    · rw [if_pos (List.isEmpty_iff.mpr clean)] at after
      have entered := hosted.enterWorld henv
      obtain ⟨V,up,entering⟩ := pair.entered hosted henv (known.globals env henv)
      cases enters : enterWorld env m with
      | error t k =>
        rw [enters] at entering
        refine ⟨?_,V,known.reports up ?_⟩
        · rintro _ _ _ l u k (_ | ⟨found',_,entered⟩) p
          cases found.symm.trans found'
          rw [compiled] at entered
          cases enters.symm.trans entered
        · rw [after]
          simp only [Machine.runIn,enters]
          cases t <;> exact entering
      | ok _ k =>
        rw [enters] at entered entering
        have runs : h.Runs (.runIn i clock e) e.steps (compile e.source).program k :=
          .runIn found clean (compiled ▸ enters)
        have sec : Heap.Secure k.roots k.heap := by
          cases entered with
          | ok _ hosted =>
            obtain ⟨_,_,-,⟨-,sec⟩,-⟩ := hosted.twins
            rwa [List.append_nil] at sec
          | spoiled lax => exact lax.elim
        obtain ⟨ready,U,up',pair⟩ := known_run history clean covers
          (fun l u k p => performs _ _ _ l u k runs p) entering sec
        refine ⟨?_,U,known.reports (up.trans up') ?_⟩
        · rintro _ _ _ l u k (_ | ⟨found',_,entered⟩) p
          cases found.symm.trans found'
          rw [compiled] at entered
          cases enters.symm.trans entered
          exact ready l u k p
        · rw [after]
          simp only [Machine.runIn,enters]
          exact pair
    · refine ⟨?_,W,known.reports (.refl W) ?_⟩
      · rintro _ _ _ l u k (_ | ⟨_,clean',_⟩) p
        exact absurd clean' clean
      · rw [after,if_neg (mt List.isEmpty_iff.mp clean)]
        exact pair

/-- What is performed in a deed fits, and the host can go on. -/
theorem Known.act (known : h.Known use made W) (kept : h.Kept) {d : Deed}
    (performs : ∀ steps p m l u k, h.Runs d steps p m → Machine.Performs steps p m l u k → H l u k)
    (covers : ∀ e ∈ d.entry?, Covers use e.sites) (origins : ∀ env ∈ (h.act d).2.made, made env .world) :
    (∀ steps p m l u k, h.Runs d steps p m → Machine.Performs steps p m l u k →
      Copying.Ready use made u k ∧ u.Safe l k) ∧ ∃ V, (h.act d).2.Known use made V := by
  cases d with
  | make =>
    exact ⟨fun _ _ _ _ _ _ runs => (nomatch runs),
      known.make (origins _ (List.mem_append_right _ (List.mem_singleton_self _)))⟩
  | collect =>
    exact ⟨fun _ _ _ _ _ _ runs => (nomatch runs),W,known.grows (.refl W) rfl known.pair.collected⟩
  | run clock e => exact known.run history kept performs (covers e rfl)
  | runIn i clock e => exact known.runIn history kept performs (covers e rfl)

/-- Whatever a host performs fits and is safe. -/
theorem ready_of_performs {deeds : List Deed} (performs : ∀ l u k, h.Performs deeds l u k → H l u k)
    (covers : ∀ d ∈ deeds, ∀ e ∈ d.entry?, Covers use e.sites)
    (origins : ∀ env ∈ (h.after deeds).made, made env .world) (known : ∃ W, h.Known use made W)
    (kept : h.Kept) {l : Nat} {u : Task} {k : Machine} (performed : h.Performs deeds l u k) :
    Copying.Ready use made u k ∧ u.Safe l k := by
  induction deeds generalizing h with
  | nil => exact performed.elim
  | cons d rest ih =>
    obtain ⟨W,known⟩ := known
    obtain ⟨first,covers⟩ := List.forall_mem_cons.mp covers
    obtain ⟨ready,known⟩ := known.act history kept
      (fun steps p m l u k runs performed => performs l u k (.inl ⟨steps,p,m,runs,performed⟩)) first
      fun env henv => origins env (((h.act d).2.made_after rest).subset henv)
    rcases performed with ⟨steps,p,m,runs,performed⟩ | later
    · exact ready steps p m l u k runs performed
    · exact ih (fun l u k p => performs l u k (.inr p)) covers origins known (kept.act d) later

end
end Host
end Lox
