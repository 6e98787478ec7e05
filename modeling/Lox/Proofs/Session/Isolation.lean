import Lox.Proofs.Session.Manual

/-! # Environments are isolated and permanent

A host runs sources in the environments that it has made, and collects in between. The runs in one
environment report the same as without the runs in the others, which do not touch what is in reach of it.
An environment that a source has been run in is never released, and never refused.
-/
namespace Lox
open Machine Exec Comparison

namespace Machine

theorem stateAfter_installNatives (env : Ref) (fs : List Native) (m : Machine) :
    ∃ heap, stateAfter (installNatives env fs m) = { m with heap } := by
  induction fs generalizing m with
  | nil => exact ⟨m.heap,rfl⟩
  | cons f rest ih =>
    simp only [installNatives,Bind.bind,EStateM.bind,reading]
    cases m.heap.environment env with
    | error e => exact ⟨m.heap,rfl⟩
    | ok values =>
      dsimp only
      split
      · simp only [EStateM.bind,define,onHeap]
        cases Heap.define env f.name (.native f) m.heap with
        | error e heap => exact ⟨heap,rfl⟩
        | ok _ heap => exact ih { m with heap }
      · exact ih m

theorem output_start {settings : Settings} {clock : Float} {m : Machine}
    (start : Machine.start settings clock = .ok m) : m.output = "" := by
  have started := start_eq_ok start
  rw [firstEnvironment_eq] at started
  split at started
  · next r heap _ =>
    obtain ⟨after,same⟩ := stateAfter_installNatives r Native.all
      { ({ (blank settings clock) with heap } : Machine).logJournal with
        globals := r, current := r, worlds := [r] }
    rw [started,logJournal_eq] at same
    rw [show m = _ from same]
    rfl
  · cases started

end Machine

namespace Host
variable {h g h' g' : Host} {env r : Ref} {i : Nat} {clock : Float} {x : Entry}

/-! ## What is in reach -/

/-- What is in reach of an environment that has been entered. -/
theorem Shadows.owned_of_reach (shadows : Shadows h g) (entered : env ∈ h.machine.worlds)
    (reach : h.machine.heap.Reach [env] r) : h.machine.heap.isRegistered r ∧
      g.machine.heap.isRegistered r ∧ g.machine.heap.Reach [env] r := by
  induction reach with
  | root hr =>
    obtain rfl := List.mem_singleton.mp hr
    obtain ⟨left,right⟩ := shadows.owned entered
    exact ⟨left,right,.root hr⟩
  | @step r t _ ht ih =>
    obtain ⟨left,right,reach⟩ := ih
    have ht' : t ∈ g.machine.heap.referencesOf r := (shadows.untouched left right).referencesOf_eq ▸ ht
    exact ⟨shadows.agree.left.closed r left t ht,shadows.agree.right.closed r right t ht',.step reach ht'⟩

/-- What is in reach of an environment is not released when the host that collects by hand touches nothing
of it. -/
theorem Shadows.owned_behind (before : Shadows h g) (after : Shadows h' g')
    (entered : env ∈ h.machine.worlds) (entered' : env ∈ h'.machine.worlds) (still : Still env g g')
    (reach : h.machine.heap.Reach [env] r) :
    h'.machine.heap.isRegistered r ∧ g'.machine.heap.isRegistered r := by
  induction reach with
  | root hr =>
    obtain rfl := List.mem_singleton.mp hr
    exact after.owned entered'
  | @step r t reach ht ih =>
    obtain ⟨left,right,reach'⟩ := before.owned_of_reach entered reach
    have first := (before.untouched left right).referencesOf_eq
    have second := (Heap.Untouched.of_cell (still r reach')).referencesOf_eq
    have third := (after.untouched ih.1 ih.2).referencesOf_eq
    have ht' : t ∈ g'.machine.heap.referencesOf r := by
      rw [second,first]
      exact ht
    exact ⟨after.agree.left.closed r ih.1 t (third ▸ ht'),after.agree.right.closed r ih.2 t ht'⟩

theorem Shadows.untouched_of_reach (before : Shadows h g) (after : Shadows h' g')
    (entered : env ∈ h.machine.worlds) (entered' : env ∈ h'.machine.worlds) (still : Still env g g')
    (reach : h.machine.heap.Reach [env] r) : Heap.Untouched h.machine.heap h'.machine.heap r := by
  obtain ⟨left,right,reach'⟩ := before.owned_of_reach entered reach
  obtain ⟨left',right'⟩ := before.owned_behind after entered entered' still reach
  have same : Heap.Untouched g.machine.heap g'.machine.heap r := .of_cell (still r reach')
  exact (before.untouched left right).trans (same.trans (after.untouched left' right').symm)

/-- An environment that waits, and goes on waiting on the host that collects by hand. -/
theorem Shadows.untouched_of_waiting (before : Shadows h g) (after : Shadows h' g') (made : env ∈ h.made)
    (made' : env ∈ h'.made) (waits : env ∉ h.machine.worlds) (still : Still env g g')
    (reach : h.machine.heap.Reach [env] r) : Heap.Untouched h.machine.heap h'.machine.heap r := by
  obtain ⟨blank,blank'⟩ := before.blank
  have cell := blank env (mem_waiting.mpr ⟨made,waits⟩)
  have cell' := blank' env (mem_waiting.mpr ⟨made,waits⟩)
  have alone : r = env := by
    induction reach with
    | root hr => exact List.mem_singleton.mp hr
    | step _ ht ih => simp [ih,Heap.referencesOf,cell,Object.references,Bindings.values] at ht
  have waits' : env ∉ h'.machine.worlds := by
    intro entered
    have owned := (after.owned entered).2
    have same := still env (.root (List.mem_singleton_self env))
    simp [Heap.isRegistered,same,cell',Cell.isRegistered] at owned
  rw [alone]
  exact .of_cell ((after.blank.1 env (mem_waiting.mpr ⟨made',waits'⟩)).trans cell.symm)

/-- An environment that is entered on the host that collects by hand is entered, unless a collection leaves
no next threshold. -/
theorem Shadows.enters (shadows : Shadows h g) (found : h.made[i]? = some env)
    (clean : (compile x.source).errors = []) (finite : (h.act (.runIn i clock x)).2.machine.heap.Finite)
    (entered : ∀ log, ∃ m, enterWorld env { g.machine with log, clock } = .ok () m) :
    ∃ m, h.Runs (.runIn i clock x) x.steps (compile x.source).program m ∧
      env ∈ (h.act (.runIn i clock x)).2.machine.worlds := by
  obtain ⟨m,log,hm,compiled,-,machine⟩ := (h.timed clock).runIn_eq env x.source x.file x.steps
  rw [if_pos (List.isEmpty_iff.mpr clean)] at machine
  have left : (h.act (.runIn i clock x)).2.machine =
      { (m.runIn x.steps env (compile x.source).program).2 with output := "" } := by
    rw [act_runIn found,← machine]
    rfl
  have alike := (shadows.timed log log clock).enterWorld (List.mem_of_getElem? found)
  rw [show { h.machine with log, clock } = m from hm.symm] at alike
  obtain ⟨k,right⟩ := entered log
  rw [right] at alike
  cases ran : enterWorld env m with
  | ok _ l =>
    rw [ran] at alike
    refine ⟨l,.runIn found clean (compiled ▸ ran),?_⟩
    simp only [left,Machine.runIn,ran,(worlds_run x.steps _ l).1]
    cases alike with
    | ok globals hosted => exact globals ▸ hosted.listed
    | spoiled _ spoiled => exact (spoiled.elim id id).elim
  | error t l =>
    rw [ran] at alike
    cases alike with
    | spoiled _ spoiled =>
      obtain ⟨n,rfl,grown⟩ := spoiled.resolve_right id
      obtain ⟨next,fine⟩ := finite
      simp only [left,Machine.runIn,ran] at fine
      cases grown.symm.trans fine

/-! ## Hosts and their environments -/

/-- A host goes on as one that collects by hand and whose environments are apart. -/
def Isolated (h : Host) : Prop := ∃ g alone e W, Shadows h g ∧ Parted alone e W g

namespace Isolated

/-- One deed of a host touches nothing in reach of an environment that it does not run a source in. -/
theorem act (isolated : h.Isolated) {d : Deed} (given : ∀ clock e, d ≠ .run clock e)
    (finite : (h.act d).2.machine.heap.Finite) :
    (h.act d).2.Isolated ∧ (∀ r ∈ h.machine.worlds, r ∈ (h.act d).2.machine.worlds) ∧
      ∀ i env, d.isIn i = false → h.made[i]? = some env → ∀ r, h.machine.heap.Reach [env] r →
        Heap.Untouched h.machine.heap (h.act d).2.machine.heap r := by
  obtain ⟨g,alone,e,W,shadows,parted⟩ := isolated
  obtain ⟨next,-⟩ := shadows.act given finite
  have apart : (∃ alone e W, Parted alone e W (g.actIf Deed.places d)) ∧
      (∀ r ∈ g.machine.worlds, r ∈ (g.actIf Deed.places d).machine.worlds) ∧
      ∀ i env, d.isIn i = false → g.made[i]? = some env → Still env g (g.actIf Deed.places d) := by
    by_cases places : d.places
    · obtain ⟨⟨e,W,parted⟩,-,worlds,still⟩ := parted.act places
      simp only [actIf,places,if_true]
      exact ⟨⟨_,e,W,parted⟩,worlds,still⟩
    · simp only [actIf,places]
      exact ⟨⟨alone,e,W,parted⟩,fun _ => id,fun _ _ _ _ _ _ => rfl⟩
  obtain ⟨⟨alone,e,W,parted⟩,worlds,still⟩ := apart
  have grows : ∀ r ∈ h.machine.worlds, r ∈ (h.act d).2.machine.worlds := by
    rw [← shadows.worlds,← next.worlds]
    exact worlds
  refine ⟨⟨_,alone,e,W,next,parted⟩,grows,fun i env outside found r reach => ?_⟩
  have still := still i env outside (shadows.made ▸ found)
  by_cases entered : env ∈ h.machine.worlds
  · exact shadows.untouched_of_reach next entered (grows env entered) still reach
  · have made := List.mem_of_getElem? found
    exact shadows.untouched_of_waiting next made ((h.made_act d).subset made) entered still reach

/-- An environment that has been made is never refused, and it is entered for good. -/
theorem enters (isolated : h.Isolated) (found : h.made[i]? = some env)
    (clean : (compile x.source).errors = []) (finite : (h.act (.runIn i clock x)).2.machine.heap.Finite) :
    ∃ m, h.Runs (.runIn i clock x) x.steps (compile x.source).program m ∧
      env ∈ (h.act (.runIn i clock x)).2.machine.worlds := by
  obtain ⟨g,alone,e,W,shadows,parted⟩ := isolated
  exact shadows.enters found clean finite fun log => parted.enters (shadows.made ▸ found) log clock

theorem after (isolated : h.Isolated) {deeds : List Deed}
    (given : ∀ d ∈ deeds, ∀ clock e, d ≠ .run clock e) (bounded : h.Bounded deeds) :
    (h.after deeds).Isolated ∧ ∀ r ∈ h.machine.worlds, r ∈ (h.after deeds).machine.worlds := by
  induction deeds generalizing h with
  | nil => exact ⟨isolated,fun _ => id⟩
  | cons d rest ih =>
    obtain ⟨first,given⟩ := List.forall_mem_cons.mp given
    obtain ⟨next,worlds,-⟩ := isolated.act first bounded.2.finite
    obtain ⟨later,more⟩ := ih next given bounded.2
    exact ⟨later,fun r hr => more r (worlds r hr)⟩

theorem owned (isolated : h.Isolated) (entered : r ∈ h.machine.worlds) : h.machine.heap.isRegistered r := by
  obtain ⟨g,alone,e,W,shadows,-⟩ := isolated
  exact (shadows.owned entered).1

end Isolated

/-! ## Starting -/

/-- A session as it starts, but with a heap that collects by hand only. -/
def byHand (s : Session) : Host where
  session := { s with machine := { s.machine with
    heap := { s.machine.heap with rules := { s.machine.heap.rules with automatic := false } } } }

variable {settings : Settings} {s : Session}

theorem shadows_start (start : Session.start settings clock = .ok s) : Shadows ⟨s,[]⟩ (byHand s) where
  hosted := by
    have kept := kept_start start
    have sec := kept.secure
    have sec' : Heap.Secure s.machine.roots (byHand s).machine.heap :=
      ⟨sec.coherent.congr rfl rfl,sec.closed,sec.owned⟩
    have agree : Heap.Agree Eq (s.machine.roots ++ []) s.machine.heap (byHand s).machine.heap := by
      rw [List.append_nil]
      exact ⟨sec,sec',rfl,rfl,fun r _ _ => Heap.alike_self _⟩
    have blank : ∀ h : Heap Value, Heap.Blank [] h := fun _ _ hr => by cases hr
    exact ⟨⟨(byHand s).machine.heap,s.machine.log,rfl,agree,blank _,blank _⟩,kept.listed⟩
  made := rfl
  manual := rfl

theorem parted_start (start : Session.start settings clock = .ok s) :
    Parted (fun _ => byHand s) (fun _ => ⟨id,strictMono_id⟩) (fun _ _ => none) (byHand s) := by
  have kept := kept_start start
  have idle := idle_start (Session.machine_of_start start)
  have idle : (byHand s).machine.Idle := ⟨idle.saved,idle.temps,idle.frames,idle.depth⟩
  refine Parted.start rfl ⟨idle,kept.listed,fun r hr => ?_⟩ ?_ rfl
  · have rooted : r ∈ s.machine.roots := mem_roots.mpr (.inr (.inr (.inl hr)))
    obtain ⟨c,live⟩ := Heap.live_of_isRegistered (kept.secure.owned r rooted)
    exact (Array.getElem?_eq_some_iff.mp (Heap.live_eq_ok live).1).1
  · exact output_start (m := s.machine) (Session.machine_of_start start)

end Host

/-- Environments are isolated and permanent, as long as the thresholds stay finite and every source is run in
an environment that the host has made. The runs in one environment report the same when the runs in the others
are left out. No deed touches what is in reach of an environment in which it runs no source. An environment is
never refused, and one that a source has been run in is never released. -/
theorem environments_isolated (settings : Settings) (clock : Float) (deeds : List Deed) {s : Session}
    (start : Session.start settings clock = .ok s) (given : ∀ d ∈ deeds, ∀ clock e, d ≠ .run clock e)
    (bounded : Host.Bounded ⟨s,[]⟩ deeds) :
    (∀ i, Host.Bounded ⟨s,[]⟩ (deeds.filter (Deed.spares i)) →
      Host.reportsIn ⟨s,[]⟩ i deeds = Host.reportsIn ⟨s,[]⟩ i (deeds.filter (Deed.spares i))) ∧
    ∀ before d behind, before ++ d :: behind = deeds → ∀ i env,
      (Host.after ⟨s,[]⟩ before).made[i]? = some env →
      (d.isIn i = false → ∀ r, (Host.after ⟨s,[]⟩ before).machine.heap.Reach [env] r →
        Heap.Untouched (Host.after ⟨s,[]⟩ before).machine.heap
          (Host.after ⟨s,[]⟩ (before ++ [d])).machine.heap r) ∧
      ∀ clock e, d = .runIn i clock e → (compile e.source).errors = [] →
        (∃ m, (Host.after ⟨s,[]⟩ before).Runs d e.steps (compile e.source).program m) ∧
        ∀ between rest, between ++ rest = behind →
          (Host.after ⟨s,[]⟩ (before ++ d :: between)).machine.heap.isRegistered env := by
  have shadows := Host.shadows_start start
  have parted := Host.parted_start start
  have isolated : Host.Isolated ⟨s,[]⟩ := ⟨_,_,_,_,shadows,parted⟩
  constructor
  · intro i bounded'
    have given' : ∀ d ∈ deeds.filter (Deed.spares i), ∀ clock e, d ≠ .run clock e :=
      fun d hd => given d (List.mem_filter.mp hd).1
    have places : ∀ d ∈ deeds.filter Deed.places, d.places := fun d hd => (List.mem_filter.mp hd).2
    obtain ⟨-,whole⟩ := shadows.after given bounded
    obtain ⟨-,part⟩ := shadows.after given' bounded'
    obtain ⟨-,same⟩ := parted.after places
    rw [← whole i,← part i,same i,List.filter_filter,List.filter_filter]
    simp only [Bool.and_comm]
  · rintro before d behind rfl i env found
    obtain ⟨first,rest⟩ := List.forall_mem_append.mp given
    obtain ⟨here,later⟩ := List.forall_mem_cons.mp rest
    obtain ⟨bounded,bounded'⟩ := Host.bounded_append bounded
    obtain ⟨isolated,-⟩ := isolated.after first bounded
    simp only [Host.after_append]
    generalize Host.after ⟨s,[]⟩ before = h at *
    obtain ⟨next,-,still⟩ := isolated.act here bounded'.2.finite
    refine ⟨fun outside => still i env outside found,?_⟩
    rintro clock e rfl clean
    obtain ⟨m,runs,entered⟩ := isolated.enters found clean bounded'.2.finite
    refine ⟨⟨m,runs⟩,?_⟩
    rintro between rest rfl
    obtain ⟨soon,-⟩ := Host.bounded_append bounded'.2
    obtain ⟨last,worlds⟩ := next.after (fun u hu => later u (List.mem_append_left _ hu)) soon
    exact last.owned (worlds env entered)

/-- Sources that are run in two environments by turns, with a collection in between. -/
def takingTurns : List Deed :=
  [.make,.make,.runIn 0 0 ⟨"var x = 1;","",40⟩,.runIn 1 0 ⟨"fun y() \x7b return 2; \x7d","",40⟩,.collect,
    .runIn 0 0 ⟨"print x; print y;","",40⟩,.runIn 1 0 ⟨"print y();","",40⟩]

theorem environments_isolated_takingTurns :
    ∃ s, Session.start { threshold := 1, growth := 2, stress := true } 0 = .ok s ∧
      (Host.reportsIn ⟨s,[]⟩ 0 takingTurns).map (·.map (·.2)) = [some "",some "1\n"] ∧
      Host.reportsIn ⟨s,[]⟩ 0 takingTurns =
        Host.reportsIn ⟨s,[]⟩ 0 (takingTurns.filter (Deed.spares 0)) ∧
      ∃ env, (Host.after ⟨s,[]⟩ [.make,.make]).made[0]? = some env ∧
        (Host.after ⟨s,[]⟩ takingTurns).machine.heap.isRegistered env := by
  obtain ⟨s,start,-⟩ := finite_of_staysFinite { threshold := 1, growth := 2, stress := true } []
    (by decide +kernel)
  have tested : (Session.start { threshold := 1, growth := 2, stress := true } 0).toOption.map (fun s =>
      (decide (Host.Bounded ⟨s,[]⟩ takingTurns ∧
          Host.Bounded ⟨s,[]⟩ (takingTurns.filter (Deed.spares 0))),
        (Host.reportsIn ⟨s,[]⟩ 0 takingTurns).map (·.map (·.2)))) = some (true,[some "",some "1\n"]) := by
    decide +kernel
  rw [start] at tested
  obtain ⟨bounded,printed⟩ := Prod.mk.inj (Option.some.inj tested)
  obtain ⟨whole,part⟩ := of_decide_eq_true bounded
  have given : ∀ d ∈ takingTurns, ∀ clock e, d ≠ .run clock e := by simp [takingTurns]
  obtain ⟨same,lasting⟩ := environments_isolated _ 0 takingTurns start given whole
  have made : (Host.after ⟨s,[]⟩ [.make,.make]).made[0]? = some ⟨s.machine.heap.cells.size⟩ := rfl
  obtain ⟨-,stays⟩ := lasting [.make,.make] _ _ rfl 0 _ made
  obtain ⟨-,owned⟩ := stays _ _ rfl (by decide +kernel)
  exact ⟨s,start,printed,same 0 part,_,made,owned _ [] (List.append_nil _)⟩

end Lox
