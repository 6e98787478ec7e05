import Lox.Proofs.Machine.Apart
import Lox.Proofs.Session.Hosting
import Lox.Proofs.Session.Scoping

/-! # Hosts whose environments are apart

A host whose heap never collects of its own accord makes environments and runs sources in them. For each
environment there is a host that does the same but for the runs in other environments. What is known of
the environment on that host is found on the other one, and what is known of different environments is
found in different places.
-/
namespace Lox
open Machine Exec

namespace Deed

/-- An environment is made, or a source is run in one. -/
def places : Deed → Bool
  | make | runIn .. => true
  | run .. | collect => false

/-- A source is run in the environment with the given number. -/
def isIn (i : Nat) : Deed → Bool
  | runIn j .. => j == i
  | make | run .. | collect => false

/-- No source is run in another environment. -/
def spares (i : Nat) : Deed → Bool
  | runIn j .. => j == i
  | make | run .. | collect => true

theorem spares_of_isIn {i : Nat} (d : Deed) (inside : d.isIn i) : d.spares i := by
  cases d with
  | runIn => exact inside
  | _ => rfl

end Deed

namespace Host

/-- What the runs in one environment come to. -/
def reportsIn (h : Host) (i : Nat) : List Deed → List (Option Report)
  | [] => []
  | d :: rest =>
    if d.isIn i then (h.act d).1 :: (h.act d).2.reportsIn i rest else (h.act d).2.reportsIn i rest

/-- The host behind a deed, if that is among those that are done. -/
def actIf (h : Host) (p : Deed → Bool) (d : Deed) : Host := if p d then (h.act d).2 else h

theorem after_filter (h : Host) (p : Deed → Bool) (d : Deed) (rest : List Deed) :
    h.after ((d :: rest).filter p) = (h.actIf p d).after (rest.filter p) := by
  simp only [actIf,List.filter_cons]
  split <;> rfl

/-- Deeds are left out that are no runs in the environment. -/
theorem reportsIn_filter (h : Host) {i : Nat} {p : Deed → Bool} {d : Deed} (among : d.isIn i → p d)
    (rest : List Deed) : h.reportsIn i ((d :: rest).filter p) =
      if d.isIn i then (h.act d).1 :: (h.actIf p d).reportsIn i (rest.filter p)
      else (h.actIf p d).reportsIn i (rest.filter p) := by
  by_cases done : p d
  · simp only [actIf,done,List.filter_cons,if_true,reportsIn]
  · have outside : d.isIn i = false := by simpa using mt among done
    simp only [actIf,done,List.filter_cons,outside,Bool.false_eq_true,if_false]

theorem act_runIn {h : Host} {i : Nat} {env : Ref} (found : h.made[i]? = some env) (clock : Float) (e : Entry) :
    h.act (.runIn i clock e) = h.reports ((h.timed clock).runIn env e.source e.file e.steps) := by
  simp only [act,found]

theorem act_runIn_none {h : Host} {i : Nat} (none : h.made[i]? = none) (clock : Float) (e : Entry) :
    h.act (.runIn i clock e) = (.none,h) := by
  simp only [act,none]

end Host

/-! ## One environment -/

namespace Machine
variable {e : Embedding} {W : World} {env : Ref} {m k : Machine} {touched : Nat → Prop}

/-- Changes that are of no account between runs. -/
theorem Beside.change (beside : Beside e W m k) (log log' : List String) (clock clock' : Float)
    (output output' : String) :
    Beside e W { m with log, clock, output } { k with log := log', clock := clock', output := output' } where
  heaps := beside.heaps
  atRest := beside.atRest.change log clock output
  atRest' := beside.atRest'.change log' clock' output'
  level := beside.level
  limit := beside.limit

theorem Meets.change (meets : Meets e W env m k) (log log' : List String) (clock clock' : Float)
    (output output' : String) :
    Meets e W env { m with log, clock, output } { k with log := log', clock := clock', output := output' } := by
  cases meets with
  | waiting new new' cell cell' nothing => exact .waiting new new' cell cell' nothing
  | entered known known' equips => exact .entered known known' equips

/-- Both machines make an environment that nothing is known of. -/
theorem Beside.make (beside : Beside e W m k) (o p : Object Value) :
    Beside e W { m with heap := stateAfter (Heap.create o m.heap) }
      { k with heap := stateAfter (Heap.create p k.heap) } where
  heaps := beside.heaps.create o p
  atRest := beside.atRest.create o
  atRest' := beside.atRest'.create p
  level := beside.level
  limit := beside.limit

theorem Meets.make (meets : Meets e W env m k) (o p : Object Value) :
    Meets e W env { m with heap := stateAfter (Heap.create o m.heap) }
      { k with heap := stateAfter (Heap.create p k.heap) } := by
  have still : ∀ {h : Heap Value} {i : Nat} {c : Cell Value} (o : Object Value), h.cells[i]? = some c →
      (stateAfter (Heap.create o h)).cells[i]? = some c := by
    intro h i c o cell
    exact (Heap.getElem?_create h o (Array.getElem?_eq_some_iff.mp cell).1).trans cell
  cases meets with
  | waiting new new' cell cell' nothing => exact .waiting new new' (still o cell) (still p cell') nothing
  | entered known known' equips => exact .entered known known' equips

/-- The environment that both machines make waits. -/
theorem Beside.meets_made (beside : Beside e W m k) (nothing : ∀ r, W r = none) :
    Meets e W ⟨m.heap.cells.size⟩ { m with heap := stateAfter (Heap.create (.environment {} none) m.heap) }
      { k with heap := stateAfter (Heap.create (.environment {} none) k.heap) } := by
  have ends := beside.heaps.move_size
  refine .waiting ?_ ?_ ?_ ?_ nothing
  · exact fun old => Nat.lt_irrefl _ (beside.atRest.placed _ old)
  · exact fun old => Nat.ne_of_lt (beside.atRest'.placed _ old) ends
  · simp [stateAfter,Heap.create]
  · simp [stateAfter,Heap.create,ends]

theorem Leaves.change (leaves : Leaves touched m k) (log : List String) (clock : Float) (output : String) :
    Leaves touched m { k with log, clock, output } where
  manual := leaves.manual
  atRest := leaves.atRest.change log clock output
  level := leaves.level
  limit := leaves.limit
  worlds := leaves.worlds
  entered := leaves.entered
  size := leaves.size
  still := leaves.still

theorem Leaves.of_change {log : List String} {clock : Float} {output : String}
    (leaves : Leaves touched { m with log, clock, output } k) : Leaves touched m k where
  manual := leaves.manual
  atRest := leaves.atRest
  level := leaves.level
  limit := leaves.limit
  worlds := leaves.worlds
  entered := leaves.entered
  size := leaves.size
  still := leaves.still

theorem Leaves.mono {touched' : Nat → Prop} (leaves : Leaves touched m k)
    (sub : ∀ n, touched n → touched' n) : Leaves touched' m k where
  manual := leaves.manual
  atRest := leaves.atRest
  level := leaves.level
  limit := leaves.limit
  worlds := leaves.worlds
  entered hr := (leaves.entered hr).imp id (sub _)
  size := leaves.size
  still inside others := leaves.still inside (mt (sub _) others)

theorem Leaves.refl (manual : m.heap.Manual) (atRest : m.AtRest) : Leaves touched m m where
  manual
  atRest
  level := rfl
  limit := rfl
  worlds := id
  entered := .inl
  size := Nat.le_refl _
  still _ _ := rfl

end Machine

namespace Host
variable {i : Nat} {e : Embedding} {W V : World} {b g : Host} {r : Ref}

/-- Nothing in reach of an environment has been touched. -/
def Still (env : Ref) (g k : Host) : Prop := ∀ r, g.machine.heap.Reach [env] r →
  k.machine.heap.cells[r.index]? = g.machine.heap.cells[r.index]?

/-- What a host has to do with one of its environments: what is known in it, and the environment itself. -/
def Old (b : Host) (i : Nat) (W : World) (r : Ref) : Prop := W r ≠ none ∨ b.made[i]? = some r

/-- A host that runs sources in one environment only, and another one that also runs them in others. -/
structure Beside (i : Nat) (e : Embedding) (W : World) (b g : Host) : Prop where
  machines : Machine.Beside e W b.machine g.machine
  output : b.machine.output = ""
  output' : g.machine.output = ""
  length : g.made.length = b.made.length
  meets {env : Ref} : b.made[i]? = some env →
    g.made[i]? = some (env.move e.move) ∧ Machine.Meets e W env b.machine g.machine
  nothing : b.made[i]? = none → ∀ r, W r = none

/-- What a host does that touches certain places of its heap at most, apart from new ones. -/
structure Leaves (touched : Nat → Prop) (g k : Host) : Prop where
  made : k.made = g.made
  output : k.machine.output = ""
  machine : Machine.Leaves touched g.machine k.machine

/-- What a deed in one environment comes to on both hosts. -/
structure Agrees (i : Nat) (e : Embedding) (W : World) (b g : Host) (x y : Option Report × Host) : Prop where
  report : y.1 = x.1
  beside : ∃ V, Beside i e V x.2 y.2 ∧ ∀ r, x.2.Old i V r →
    b.Old i W r ∨ b.machine.heap.cells.size ≤ r.index
  leaves : Leaves (e.places (b.Old i W)) g y.2

namespace Beside

/-- What a host has to do with an environment has been there. -/
theorem inside (beside : Beside i e W b g) (old : b.Old i W r) :
    r.index < b.machine.heap.cells.size ∧ e.move r.index < g.machine.heap.cells.size := by
  rcases old with known | made
  · exact beside.machines.heaps.inside known
  · exact (beside.meets made).2.inside beside.machines.heaps

theorem absent (beside : Beside i e W b g) (none : b.made[i]? = .none) : g.made[i]? = .none := by
  rw [List.getElem?_eq_none_iff] at none ⊢
  rwa [beside.length]

/-- Every environment of the other host is found among those of the one. -/
theorem original (beside : Beside i e W b g) {env : Ref} (made : g.made[i]? = some env) :
    ∃ s, b.made[i]? = some s ∧ env = s.move e.move ∧ Machine.Meets e W s b.machine g.machine := by
  cases waits : b.made[i]? with
  | none => cases (beside.absent waits).symm.trans made
  | some s =>
    obtain ⟨made',meets⟩ := beside.meets waits
    exact ⟨s,rfl,Option.some.inj (made.symm.trans made'),meets⟩

/-- Both hosts make an environment. -/
theorem make (beside : Beside i e W b g) : Beside i e W (b.act .make).2 (g.act .make).2 where
  machines := beside.machines.make _ _
  output := beside.output
  output' := beside.output'
  length := by simp [act,beside.length]
  meets {env} made := by
    simp only [act] at made ⊢
    rcases Nat.lt_trichotomy i b.made.length with less | rfl | more
    · rw [List.getElem?_append_left less] at made
      obtain ⟨made',meets⟩ := beside.meets made
      rw [List.getElem?_append_left (beside.length ▸ less)]
      exact ⟨made',meets.make _ _⟩
    · rw [List.getElem?_append_right (Nat.le_refl _),Nat.sub_self] at made
      obtain rfl : (⟨b.machine.heap.cells.size⟩ : Ref) = env := Option.some.inj made
      refine ⟨?_,beside.machines.meets_made (beside.nothing (List.getElem?_eq_none (Nat.le_refl _)))⟩
      rw [← beside.length,List.getElem?_append_right (Nat.le_refl _),Nat.sub_self]
      exact congrArg (fun n => some (Ref.mk n)) beside.machines.heaps.move_size.symm
    · rw [List.getElem?_eq_none (by simp; omega)] at made
      cases made
  nothing none := by
    refine beside.nothing ?_
    simp only [act] at none
    rw [List.getElem?_eq_none_iff] at none ⊢
    simp at none
    omega

/-- What both hosts report of runs on their machines. -/
theorem reports (beside : Beside i e W b g) {env : Ref} (made : b.made[i]? = some env)
    {x y : Session.Ending × Session} (ending : y.1 = x.1) (output : y.2.machine.output = x.2.machine.output)
    (machines : Machine.Beside e V x.2.machine y.2.machine)
    (meets : Machine.Meets e V env x.2.machine y.2.machine)
    (known : ∀ r, V r ≠ none → (W r ≠ none ∨ r = env) ∨ b.machine.heap.cells.size ≤ r.index)
    (leaves : Machine.Leaves (e.places fun r => W r ≠ none ∨ r = env) g.machine y.2.machine) :
    Agrees i e W b g (b.reports x) (g.reports y) where
  report := by simp only [Host.reports,Session.takeOutput,ending,output]
  beside := by
    refine ⟨V,⟨?_,rfl,rfl,beside.length,?_,?_⟩,?_⟩
    · exact machines.change _ _ _ _ "" ""
    · intro env' h
      obtain rfl : env = env' := Option.some.inj (made.symm.trans h)
      exact ⟨(beside.meets made).1,meets.change _ _ _ _ "" ""⟩
    · intro h
      cases made.symm.trans h
    · rintro r (hr | h)
      · rcases known r hr with (old | rfl) | new
        · exact .inl (.inl old)
        · exact .inl (.inr made)
        · exact .inr new
      · exact .inl (.inr h)
  leaves := by
    refine ⟨rfl,rfl,(leaves.mono ?_).change _ _ ""⟩
    rintro n ⟨r,old | rfl,same⟩
    · exact ⟨r,.inl old,same⟩
    · exact ⟨r,.inr made,same⟩

/-- What a machine leaves when it shows another time and has more in the log. -/
theorem of_timed {touched : Nat → Prop} {clock : Float} {log : List String} {k : Machine}
    (leaves : Machine.Leaves touched { (g.timed clock).machine with log } k) :
    Machine.Leaves touched g.machine k :=
  have leaves : Machine.Leaves touched { g.machine with log, clock } k := leaves
  leaves.of_change

/-- Both hosts run a source in the environment. -/
theorem runIn (beside : Beside i e W b g) (clock : Float) (x : Entry) :
    Agrees i e W b g (b.act (.runIn i clock x)) (g.act (.runIn i clock x)) := by
  cases made : b.made[i]? with
  | none =>
    rw [act_runIn_none made,act_runIn_none (beside.absent made)]
    have rests := beside.machines.atRest'
    exact ⟨rfl,⟨W,beside,fun _ => .inl⟩,rfl,beside.output',.refl beside.machines.heaps.manual' rests⟩
  | some env =>
    obtain ⟨made',meets⟩ := beside.meets made
    rw [act_runIn made,act_runIn made']
    obtain ⟨m,log,hm,-,ending,machine⟩ := (b.timed clock).runIn_eq env x.source x.file x.steps
    obtain ⟨k,log',hk,-,ending',machine'⟩ :=
      (g.timed clock).runIn_eq (env.move e.move) x.source x.file x.steps
    have start : Machine.Beside e W m k := by
      rw [hm,hk]
      exact beside.machines.change log log' clock clock b.machine.output g.machine.output
    have meets : Machine.Meets e W env m k := by
      rw [hm,hk]
      exact meets.change log log' clock clock b.machine.output g.machine.output
    have output : k.output = m.output := by
      rw [hm,hk]
      exact beside.output'.trans beside.output.symm
    have size : m.heap.cells.size = b.machine.heap.cells.size := by
      rw [hm]
      rfl
    by_cases clean : (compile x.source).errors = []
    · rw [if_pos (List.isEmpty_iff.mpr clean)] at ending machine ending' machine'
      have fits : BodyFits .asWritten (fun _ _ => True) [] (compile x.source).program :=
        Entry.fits (List.isEmpty_iff.mpr clean) fun _ _ _ _ => trivial
      have ran := start.runIn meets (by rw [hm,hk]; rfl) output x.steps fits
      obtain ⟨V,left,entered,known⟩ := ran.beside
      have leaves := ran.leaves
      rw [← machine'] at left entered leaves
      rw [← machine] at left entered
      refine beside.reports made ?_ ?_ left entered (size ▸ known) ?_
      · rw [ending,ending',ran.outcome]
      · rw [machine,machine',ran.output]
      · generalize (g.timed clock).runIn _ _ _ _ = y at leaves
        rw [hk] at leaves
        exact of_timed leaves
    · rw [if_neg (mt List.isEmpty_iff.mp clean)] at ending machine ending' machine'
      rw [← machine,← machine'] at start meets output
      have leaves : Machine.Leaves (e.places fun r => W r ≠ none ∨ r = env) k k :=
        .refl (machine' ▸ start.heaps.manual') (machine' ▸ start.atRest')
      refine beside.reports made (ending'.trans ending.symm) output start meets (fun _ => .inl ∘ .inl) ?_
      rw [machine',hk]
      rw [hk] at leaves
      exact of_timed leaves

/-- The other host goes on without touching what it has of the environment. -/
theorem leave (beside : Beside i e W b g) {touched : Nat → Prop} {k : Host} (leaves : Leaves touched g k)
    (apart : ∀ r, b.Old i W r → ¬touched (e.move r.index)) :
    ∃ e' : Embedding, (∀ n < b.machine.heap.cells.size, e'.move n = e.move n) ∧ Beside i e' W b k := by
  obtain ⟨e',same,machines⟩ := beside.machines.leave leaves.machine fun r known => apart r (.inl known)
  refine ⟨e',same,machines,beside.output,leaves.output,leaves.made ▸ beside.length,fun {env} made => ?_,
    beside.nothing⟩
  obtain ⟨made',meets⟩ := beside.meets made
  have moved := same _ (beside.inside (.inr made)).1
  refine ⟨?_,meets.leave leaves.machine (apart env (.inr made)) moved⟩
  rw [leaves.made,made',Ref.move,Ref.move,moved]

/-- What is in reach of the environment is what the host has to do with it. -/
theorem old_of_reach (beside : Beside i e W b g) {env : Ref} (made : g.made[i]? = some env)
    (reach : g.machine.heap.Reach [env] r) : ∃ s, b.Old i W s ∧ r = s.move e.move := by
  induction reach with
  | root hr =>
    obtain rfl := List.mem_singleton.mp hr
    obtain ⟨s,waits,moved,-⟩ := beside.original made
    exact ⟨s,.inr waits,moved⟩
  | @step r t _ ht ih =>
    obtain ⟨s,old,rfl⟩ := ih
    have known : W s ≠ none := by
      rcases old with known | waits
      · exact known
      obtain ⟨-,meets⟩ := beside.meets waits
      cases meets with
      | waiting _ _ _ cell =>
        have cell : g.machine.heap.cells[(s.move e.move).index]? = some .fresh := cell
        simp [Heap.referencesOf,cell,Object.references,Bindings.values] at ht
      | entered _ _ equips =>
        obtain ⟨f,role,-⟩ := equips
        simp [role]
    obtain ⟨u,known,moved⟩ := beside.machines.heaps.known_of_reference known ht
    exact ⟨u,.inl known,moved⟩

end Beside

/-! ## All environments -/

/-- A host, with one for each of its environments that runs sources there only. What these have to do with
their environments is found in different places. -/
structure Parted (alone : Nat → Host) (e : Nat → Embedding) (W : Nat → World) (g : Host) : Prop where
  beside (i : Nat) : Beside i (e i) (W i) (alone i) g
  apart {i j : Nat} {r s : Ref} : i ≠ j → (alone i).Old i (W i) r → (alone j).Old j (W j) s →
    (e i).move r.index ≠ (e j).move s.index

namespace Parted
variable {alone alone' : Nat → Host} {e : Nat → Embedding} {W : Nat → World} {g k : Host}

/-- Environments stay apart if what is new belongs to one of them. -/
theorem next (parted : Parted alone e W g) (n : Nat) (steps : ∀ i, ∃ e' V, Beside i e' V (alone' i) k ∧
      ∀ r, (alone' i).Old i V r → ((alone i).Old i (W i) r ∧ e'.move r.index = (e i).move r.index) ∨
        i = n ∧ g.machine.heap.cells.size ≤ e'.move r.index) : ∃ e' V, Parted alone' e' V k := by
  choose e' V beside origin using steps
  refine ⟨e',V,beside,fun {i j r s} other hr hs => ?_⟩
  rcases origin i r hr with ⟨old,same⟩ | ⟨first,new⟩
  · have left := ((parted.beside i).inside old).2
    rcases origin j s hs with ⟨old',same'⟩ | ⟨-,new'⟩
    · rw [same,same']
      exact parted.apart other old old'
    · omega
  · rcases origin j s hs with ⟨old',same'⟩ | ⟨second,-⟩
    · have right := ((parted.beside j).inside old').2
      omega
    · exact absurd (first.trans second.symm) other

theorem make (parted : Parted alone e W g) :
    ∃ e' V, Parted (fun i => (alone i).actIf (Deed.spares i) .make) e' V (g.act .make).2 := by
  refine parted.next g.made.length fun i => ⟨e i,W i,(parted.beside i).make,fun r hr => ?_⟩
  rcases hr with known | made
  · exact .inl ⟨.inl known,rfl⟩
  have made : ((alone i).made ++ [⟨(alone i).machine.heap.cells.size⟩])[i]? = some r := made
  rcases Nat.lt_or_ge i (alone i).made.length with less | more
  · rw [List.getElem?_append_left less] at made
    exact .inl ⟨.inr made,rfl⟩
  · rw [List.getElem?_append_right more,List.getElem?_singleton] at made
    split at made
    · next first =>
      obtain rfl := Option.some.inj made
      have ends := (parted.beside i).machines.heaps.move_size
      have length := (parted.beside i).length
      exact .inr ⟨by omega,Nat.le_of_eq ends.symm⟩
    · cases made

theorem runIn (parted : Parted alone e W g) (j : Nat) (clock : Float) (x : Entry) :
    (∃ e' V, Parted (fun i => (alone i).actIf (Deed.spares i) (.runIn j clock x)) e' V
        (g.act (.runIn j clock x)).2) ∧
      (g.act (.runIn j clock x)).1 = ((alone j).act (.runIn j clock x)).1 ∧
      (∀ r ∈ g.machine.worlds, r ∈ (g.act (.runIn j clock x)).2.machine.worlds) ∧
      ∀ i, i ≠ j → ∀ env, g.made[i]? = some env → Still env g (g.act (.runIn j clock x)).2 := by
  have agrees := (parted.beside j).runIn clock x
  have apart : ∀ i, i ≠ j → ∀ r, (alone i).Old i (W i) r →
      ¬(e j).places ((alone j).Old j (W j)) ((e i).move r.index) := by
    rintro i other r hr ⟨s,hs,same⟩
    exact parted.apart other hr hs same.symm
  refine ⟨parted.next j fun i => ?_,agrees.report,fun r => agrees.leaves.machine.worlds,?_⟩
  case refine_2 =>
    intro i other env made r reach
    obtain ⟨s,old,rfl⟩ := (parted.beside i).old_of_reach made reach
    exact agrees.leaves.machine.still ((parted.beside i).inside old).2 (apart i other s old)
  by_cases same : i = j
  · subst same
    obtain ⟨V,beside,known⟩ := agrees.beside
    have goes : (alone i).actIf (Deed.spares i) (.runIn i clock x) = ((alone i).act (.runIn i clock x)).2 := by
      simp [actIf,Deed.spares]
    rw [goes]
    refine ⟨e i,V,beside,fun r hr => (known r hr).imp (fun old => ⟨old,rfl⟩) fun new => ⟨rfl,?_⟩⟩
    rw [← (parted.beside i).machines.heaps.move_size]
    exact (e i).ascending.monotone new
  · have stays : (alone i).actIf (Deed.spares i) (.runIn j clock x) = alone i := by
      simp [actIf,Deed.spares,Ne.symm same]
    rw [stays]
    obtain ⟨e',agree,beside⟩ := (parted.beside i).leave agrees.leaves (apart i same)
    exact ⟨e',W i,beside,fun r hr => .inl ⟨hr,agree _ ((parted.beside i).inside hr).1⟩⟩

/-- A deed reports the same with the runs in other environments left out. None of these touches what is in
reach of an environment, and what has been entered is so for good. -/
theorem act (parted : Parted alone e W g) {d : Deed} (places : d.places) :
    (∃ e' V, Parted (fun i => (alone i).actIf (Deed.spares i) d) e' V (g.act d).2) ∧
      (∀ i, d.isIn i → (g.act d).1 = ((alone i).act d).1) ∧
      (∀ r ∈ g.machine.worlds, r ∈ (g.act d).2.machine.worlds) ∧
      ∀ i env, d.isIn i = false → g.made[i]? = some env → Still env g (g.act d).2 := by
  cases d with
  | run | collect => cases places
  | make =>
    refine ⟨parted.make,fun i inside => (by cases inside),fun _ => id,fun i env _ made r reach => ?_⟩
    obtain ⟨s,old,rfl⟩ := (parted.beside i).old_of_reach made reach
    exact Heap.getElem?_create _ _ ((parted.beside i).inside old).2
  | runIn j clock x =>
    obtain ⟨next,report,worlds,still⟩ := parted.runIn j clock x
    refine ⟨next,fun i inside => ?_,worlds,fun i env outside => still i ?_ env⟩
    · obtain rfl : j = i := by simpa [Deed.isIn] using inside
      exact report
    · rintro rfl
      simp [Deed.isIn] at outside

/-- Every environment that has been made can be entered. -/
theorem enters (parted : Parted alone e W g) {i : Nat} {env : Ref} (made : g.made[i]? = some env)
    (log : List String) (clock : Float) : ∃ m, enterWorld env { g.machine with log, clock } = .ok () m := by
  have beside := parted.beside i
  obtain ⟨s,-,rfl,meets⟩ := beside.original made
  have machines := beside.machines.change log log clock clock (alone i).machine.output g.machine.output
  obtain ⟨V,m,k,-,entered,-⟩ := machines.enter (meets.change log log clock clock _ _)
  exact ⟨k,entered⟩

/-- Runs in other environments can be left out. -/
theorem after (parted : Parted alone e W g) {deeds : List Deed} (places : ∀ d ∈ deeds, d.places) :
    (∃ e' V, Parted (fun i => (alone i).after (deeds.filter (Deed.spares i))) e' V (g.after deeds)) ∧
      ∀ i, g.reportsIn i deeds = (alone i).reportsIn i (deeds.filter (Deed.spares i)) := by
  induction deeds generalizing alone e W g with
  | nil => exact ⟨⟨e,W,parted⟩,fun _ => rfl⟩
  | cons d rest ih =>
    obtain ⟨first,places⟩ := List.forall_mem_cons.mp places
    obtain ⟨⟨e',V,next⟩,report,-⟩ := parted.act first
    obtain ⟨later,same⟩ := ih next places
    refine ⟨?_,fun i => ?_⟩
    · simp only [after_filter]
      exact later
    · rw [reportsIn_filter _ d.spares_of_isIn,reportsIn,same i]
      split
      · next inside => rw [report i inside]
      · rfl

/-- Nothing is known of the objects of a host that has made no environment. -/
theorem start {h : Host} (manual : h.machine.heap.Manual) (atRest : h.machine.AtRest)
    (output : h.machine.output = "") (none : h.made = []) :
    Parted (fun _ => h) (fun _ => ⟨id,strictMono_id⟩) (fun _ _ => .none) h where
  beside i :=
    { machines :=
        { heaps := ⟨manual,manual,fun _ => rfl,fun role => (by cases role)⟩
          atRest
          atRest' := atRest
          level := rfl
          limit := rfl }
      output
      output' := output
      length := rfl
      meets := fun made => by simp [none] at made
      nothing := fun _ _ => rfl }
  apart {i j r s} _ hr := by simp [Old,none] at hr

end Parted
end Host
end Lox
