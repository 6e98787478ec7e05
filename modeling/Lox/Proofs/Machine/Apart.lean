import Lox.Proofs.Heap.Apart
import Lox.Proofs.Heap.Permanence
import Lox.Proofs.Machine.CopiedRuns
import Lox.Proofs.Machine.Entering

/-! # Machines that hold others

A machine whose heap never collects of its own accord enters an environment without fail. If its heap
holds what another machine knows of that environment, both run a program in it alike, and the objects
that the other one knows nothing of stay as they were.
-/
namespace Lox
open Machine Exec

/-- The bindings of an environment that holds the natives. -/
def Native.bindings : Bindings Value := Native.all.foldl (fun b f => b.set f.name (.native f)) {}

/-- What is known of an environment that holds the natives. -/
def Role.globals : Role := .environment ⟨.world,none,Native.all.map (·.name)⟩

namespace Heap
variable {h g : Heap Value} {env r : Ref}

/-- A heap in which a new environment has been entered. -/
def entered (h : Heap Value) (env : Ref) : Heap Value :=
  { (h.enroll env).setObject env (.environment Native.bindings none) with journal := [] }

theorem size_entered (h : Heap Value) (env : Ref) : (h.entered env).cells.size = h.cells.size := by
  simp [entered,setObject,enroll]

theorem getElem?_entered_of_ne {i : Nat} (other : env.index ≠ i) :
    (h.entered env).cells[i]? = h.cells[i]? := by
  simp only [entered]
  rw [getElem?_setObject,if_neg other,getElem?_enroll,if_neg other]

theorem getElem?_entered (cell : h.cells[env.index]? = some .fresh) : (h.entered env).cells[env.index]? =
    some { object := .environment Native.bindings none, slot := some h.nextSlot } := by
  simp only [entered]
  rw [getElem?_setObject,if_pos rfl,getElem?_enroll,if_pos rfl,cell]
  rfl

/-- The heap owns an environment that binds the natives. -/
def Equipped (h : Heap Value) (env : Ref) : Prop :=
  h.isRegistered env ∧ ∃ values enclosing, h.environment env = .ok (values,enclosing) ∧
    ∀ f ∈ Native.all, values.contains f.name

theorem equipped_of_cell {c : Cell Value} (cell : h.cells[env.index]? = some c) (owned : c.isRegistered)
    {values : Bindings Value} {enclosing : Option Ref} (object : c.object = .environment values enclosing)
    (bound : ∀ f ∈ Native.all, values.contains f.name) : h.Equipped env := by
  refine ⟨by simp [isRegistered,cell,owned],values,enclosing,?_,bound⟩
  exact environment_of_cell cell (Cell.freed_of_isRegistered owned) object

end Heap

namespace Machine
variable {m k : Machine} {env : Ref}

/-- A machine between runs. Its globals are among its worlds, and these are objects of its heap. -/
structure AtRest (m : Machine) : Prop where
  idle : m.Idle
  listed : m.globals ∈ m.worlds
  placed : ∀ r ∈ m.worlds, r.index < m.heap.cells.size

theorem AtRest.change (atRest : m.AtRest) (log : List String) (clock : Float) (output : String) :
    { m with log, clock, output }.AtRest where
  idle := ⟨atRest.idle.saved,atRest.idle.temps,atRest.idle.frames,atRest.idle.depth⟩
  listed := atRest.listed
  placed := atRest.placed

theorem AtRest.create (atRest : m.AtRest) (o : Object Value) :
    { m with heap := stateAfter (Heap.create o m.heap) }.AtRest where
  idle := ⟨atRest.idle.saved,atRest.idle.temps,atRest.idle.frames,atRest.idle.depth⟩
  listed := atRest.listed
  placed r hr := Nat.lt_of_lt_of_le (atRest.placed r hr) (Heap.grows_create o m.heap).cells

theorem AtRest.run (atRest : m.AtRest) (steps : Nat) (p : Program) : (m.run steps p).2.AtRest := by
  obtain ⟨worlds,globals⟩ := worlds_run steps p m
  refine ⟨idle_run steps p m,?_,fun r hr => ?_⟩
  · rw [worlds,globals]
    exact atRest.listed
  · rw [worlds] at hr
    exact Nat.lt_of_lt_of_le (atRest.placed r hr) (grows_run steps p m).cells

theorem level_run (steps : Nat) (p : Program) (m : Machine) : (m.run steps p).2.level = m.level := by
  obtain ⟨k,log,resumes,same⟩ := resumes_run steps p m
  rw [same]
  exact resumes.level

/-! ## Entering an environment -/

theorem installNatives_of_bound {values : Bindings Value} {enclosing : Option Ref}
    (found : m.heap.environment env = .ok (values,enclosing)) {fs : List Native}
    (bound : ∀ f ∈ fs, values.contains f.name) : installNatives env fs m = .ok () m := by
  induction fs with
  | nil => rfl
  | cons f fs ih =>
    obtain ⟨first,bound⟩ := List.forall_mem_cons.mp bound
    simp only [installNatives,Bind.bind,EStateM.bind,reading,found,first,Bool.not_true,
      Bool.false_eq_true,if_false]
    exact ih bound

/-- A machine has entered an environment. All else is as it was, but for the object of the environment. -/
def Enters (m : Machine) (env : Ref) (k : Machine) : Prop :=
  ∃ heap log worlds, k = { m with heap, log, worlds, globals := env } ∧
    (∀ r, r ∈ worlds ↔ r ∈ m.worlds ∨ r = env) ∧ heap.cells.size = m.heap.cells.size ∧
    ∀ i, env.index ≠ i → heap.cells[i]? = m.heap.cells[i]?

theorem Enters.atRest (enters : m.Enters env k) (atRest : m.AtRest) (inside : env.index < m.heap.cells.size) :
    k.AtRest := by
  obtain ⟨heap,log,worlds,rfl,listed,size,-⟩ := enters
  refine ⟨⟨atRest.idle.saved,atRest.idle.temps,atRest.idle.frames,atRest.idle.depth⟩,
    (listed env).mpr (.inr rfl),fun r hr => ?_⟩
  rw [size]
  rcases (listed r).mp hr with old | rfl
  · exact atRest.placed r old
  · exact inside

/-- An environment that holds the natives is entered again and again. -/
theorem enterWorld_again (known : env ∈ m.worlds) (equipped : m.heap.Equipped env) :
    enterWorld env m = .ok () { m with globals := env } := by
  obtain ⟨owned,values,enclosing,found,bound⟩ := equipped
  by_cases same : env = m.globals
  · subst same
    exact enterWorld_globals
  · rw [enterWorld_owned same owned,enlist_of_mem known]
    simp only [govern,Bind.bind,EStateM.bind,installNatives_of_bound found bound]

theorem enters_again (known : env ∈ m.worlds) : m.Enters env { m with globals := env } :=
  ⟨m.heap,m.log,m.worlds,rfl,fun _ => ⟨.inl,fun h => h.elim id fun same => same ▸ known⟩,rfl,
    fun _ _ => rfl⟩

theorem govern_empty (found : m.heap.environment env = .ok ({},none)) : govern env m = .ok ()
    { m with heap := m.heap.setObject env (.environment Native.bindings none), globals := env } := by
  have new : ({} : Bindings Value).contains Native.clock.name = false := rfl
  have defined : define env Native.clock.name (.native .clock) m = .ok ()
      { m with heap := m.heap.setObject env (.environment Native.bindings none) } := by
    simp only [define,onHeap,Heap.define,found]
    rfl
  simp only [govern,Native.all,installNatives,Bind.bind,EStateM.bind,reading,found,new,Bool.not_false,if_true,
    defined]
  rfl

/-- An environment that has been made is entered, unless the heap collects. -/
theorem enterWorld_first (manual : m.heap.Manual) (other : env ≠ m.globals) (new : env ∉ m.worlds)
    (cell : m.heap.cells[env.index]? = some .fresh) : ∃ log, enterWorld env m = .ok ()
      { m with heap := m.heap.entered env, log, worlds := m.worlds ++ [env], globals := env } := by
  have found : ∀ {h : Heap Value}, h.cells = (m.heap.enroll env).cells →
      h.environment env = .ok ({},none) := by
    intro h same
    refine Heap.environment_of_cell (c := { Cell.fresh with slot := some m.heap.nextSlot }) ?_ rfl rfl
    rw [same,Heap.getElem?_enroll,if_pos rfl,cell]
    rfl
  rw [enterWorld_fresh other new cell,manual.register cell rfl]
  dsimp only
  rw [logJournal_eq]
  exact ⟨_,govern_empty (found rfl)⟩

theorem enters_first (m : Machine) (env : Ref) (log : List String) : m.Enters env
    { m with heap := m.heap.entered env, log, worlds := m.worlds ++ [env], globals := env } :=
  ⟨_,_,_,rfl,by simp,Heap.size_entered _ _,fun _ other => Heap.getElem?_entered_of_ne other⟩

end Machine

/-! ## Machines beside others -/

/-- What is known of an environment that holds the natives. -/
def World.Equips (W : World) (env : Ref) : Prop :=
  ∃ f, W env = some (.environment f) ∧ f.origin = .world ∧ ∀ n ∈ Native.all, n.name ∈ f.names

namespace World
variable {W V : World} {env : Ref}

theorem Equips.grows (up : W.Grows V) (equips : W.Equips env) : V.Equips env := by
  obtain ⟨f,role,world,natives⟩ := equips
  obtain ⟨names,more,role⟩ := up.environment role
  exact ⟨_,role,world,fun n hn => more (natives n hn)⟩

theorem Equips.provides (equips : W.Equips env) : W.Provides env [] := by
  obtain ⟨f,role,world,-⟩ := equips
  exact ⟨f,role,world⟩

theorem equips_put (W : World) (env : Ref) : (W.put env .globals).Equips env :=
  ⟨_,put_self env _,rfl,fun _ hn => List.mem_map_of_mem hn⟩

end World

namespace Embedding
variable {e : Embedding} {W : World} {h g : Heap Value} {env : Ref}

theorem contains_bindings {n : String} (native : n ∈ Native.all.map (·.name)) :
    Native.bindings.contains n := by
  obtain rfl : n = "clock" := by simpa [Native.all,Native.clock] using native
  rfl

/-- What is known of an environment that is entered for the first time. -/
theorem Holds.enter (holds : e.Holds W h g) (nothing : ∀ r, W r = none)
    (left : h.cells[env.index]? = some .fresh) (right : g.cells[e.move env.index]? = some .fresh) :
    e.Holds (W.put env .globals) (h.entered env) (g.entered (env.move e.move)) where
  manual := holds.manual
  manual' := holds.manual'
  ahead n := by
    rw [Heap.size_entered,Heap.size_entered]
    exact holds.ahead n
  linked {r R} role := by
    by_cases same : r = env
    · subst same
      obtain rfl : Role.globals = R := Option.some.inj ((World.put_self r _).symm.trans role)
      have right : g.cells[(r.move e.move).index]? = some .fresh := right
      refine ⟨_,_,Heap.getElem?_entered left,Heap.getElem?_entered right,rfl,?_,rfl,rfl⟩
      refine Guise.Content.environment (G := e.guise) (f := ⟨.world,none,Native.all.map (·.name)⟩)
        (fun n => contains_bindings) (fun x hx => ?_) (fun _ he => by cases he) trivial
      obtain rfl : x = .native .clock := by
        simpa [Native.bindings,Native.all,Bindings.values,Bindings.set,Bindings.put] using hx
      trivial
    · rw [World.put_of_ne same,nothing r] at role
      cases role

/-- An environment with the natives is found in both heaps. -/
theorem Holds.equipped (holds : e.Holds W h g) (equips : W.Equips env) :
    h.Equipped env ∧ g.Equipped (env.move e.move) := by
  obtain ⟨f,role,-,natives⟩ := equips
  obtain ⟨c,d,hc,hd,object,content,left,right⟩ := holds.linked role
  generalize same : c.object = o at content object
  cases content with
  | @environment _ values binds _ _ _ =>
    have bound : ∀ n ∈ Native.all, values.contains n.name := fun n hn => binds _ (natives n hn)
    refine ⟨Heap.equipped_of_cell hc left same bound,Heap.equipped_of_cell hd right object fun n hn => ?_⟩
    have copied := Bindings.contains_transport (e.guise.spelling.inScope f.origin) e.guise.value values n.name
    exact copied.trans (bound n hn)

end Embedding

namespace Machine
variable {e : Embedding} {W V : World} {env : Ref} {m k : Machine}

/-- Machines between runs, of which one holds what the other one knows. -/
structure Beside (e : Embedding) (W : World) (m k : Machine) : Prop where
  heaps : e.Holds W m.heap k.heap
  atRest : m.AtRest
  atRest' : k.AtRest
  level : k.level = m.level
  limit : k.calls.limit = m.calls.limit

/-- An environment waits on both machines, and nothing is known, or it has been entered on both. -/
inductive Meets (e : Embedding) (W : World) (env : Ref) (m k : Machine) : Prop
  | waiting : env ∉ m.worlds → env.move e.move ∉ k.worlds → m.heap.cells[env.index]? = some .fresh →
      k.heap.cells[e.move env.index]? = some .fresh → (∀ r, W r = none) → Meets e W env m k
  | entered : env ∈ m.worlds → env.move e.move ∈ k.worlds → W.Equips env → Meets e W env m k

/-- Both machines enter the environment, whether it has waited or not. -/
theorem Beside.enter (beside : Beside e W m k) (meets : Meets e W env m k) :
    ∃ V m' k', enterWorld env m = .ok () m' ∧ enterWorld (env.move e.move) k = .ok () k' ∧
      m.Enters env m' ∧ k.Enters (env.move e.move) k' ∧ e.Holds V m'.heap k'.heap ∧ V.Equips env ∧
      ∀ r, V r ≠ none → W r ≠ none ∨ r = env := by
  cases meets with
  | waiting new new' cell cell' nothing =>
    have other : env ≠ m.globals := fun same => new (same ▸ beside.atRest.listed)
    have other' : env.move e.move ≠ k.globals := fun same => new' (same ▸ beside.atRest'.listed)
    obtain ⟨log,first⟩ := enterWorld_first beside.heaps.manual other new cell
    obtain ⟨log',first'⟩ := enterWorld_first beside.heaps.manual' other' new' cell'
    refine ⟨W.put env .globals,_,_,first,first',enters_first m env log,enters_first k _ log',
      beside.heaps.enter nothing cell cell',World.equips_put W env,fun r known => ?_⟩
    by_cases same : r = env
    · exact .inr same
    · exact .inl (by rwa [World.put_of_ne same] at known)
  | entered known known' equips =>
    obtain ⟨left,right⟩ := beside.heaps.equipped equips
    exact ⟨W,_,_,enterWorld_again known left,enterWorld_again known' right,enters_again known,
      enters_again known',beside.heaps,equips,fun _ => .inl⟩

/-! ## Running beside others -/

theorem outcomes_eq {C : Copying} (spelled : C.spelling = .asWritten) {o p : Outcome}
    (outcomes : C.Outcomes o p) : p = o := by
  cases outcomes with
  | done | fault _ | cut => rfl
  | error pos fails =>
    cases fails with
    | cause => rfl
    | undefined o named =>
      rw [spelled]
      rfl

theorem Meets.inside (meets : Meets e W env m k) (heaps : e.Holds W m.heap k.heap) :
    env.index < m.heap.cells.size ∧ e.move env.index < k.heap.cells.size := by
  cases meets with
  | waiting _ _ cell cell' =>
    exact ⟨(Array.getElem?_eq_some_iff.mp cell).1,(Array.getElem?_eq_some_iff.mp cell').1⟩
  | entered _ _ equips =>
    obtain ⟨f,role,-⟩ := equips
    exact heaps.inside (by simp [role])

theorem Beside.enters {m' k' : Machine} (beside : Beside e W m k) (meets : Meets e W env m k)
    (enters : m.Enters env m') (enters' : k.Enters (env.move e.move) k')
    (holds : e.Holds V m'.heap k'.heap) : Beside e V m' k' where
  heaps := holds
  atRest := enters.atRest beside.atRest (meets.inside beside.heaps).1
  atRest' := enters'.atRest beside.atRest' (meets.inside beside.heaps).2
  level := by
    obtain ⟨_,_,_,rfl,-⟩ := enters
    obtain ⟨_,_,_,rfl,-⟩ := enters'
    exact beside.level
  limit := by
    obtain ⟨_,_,_,rfl,-⟩ := enters
    obtain ⟨_,_,_,rfl,-⟩ := enters'
    exact beside.limit

/-- What a machine does that touches certain places of its heap at most, apart from new ones. -/
structure Leaves (touched : Nat → Prop) (m k : Machine) : Prop where
  manual : k.heap.Manual
  atRest : k.AtRest
  level : k.level = m.level
  limit : k.calls.limit = m.calls.limit
  worlds {r : Ref} : r ∈ m.worlds → r ∈ k.worlds
  entered {r : Ref} : r ∈ k.worlds → r ∈ m.worlds ∨ touched r.index
  size : m.heap.cells.size ≤ k.heap.cells.size
  still {i : Nat} : i < m.heap.cells.size → ¬touched i → k.heap.cells[i]? = m.heap.cells[i]?

/-- A run on a machine and on the one that holds its objects. Of what has been there, the run touches on the
larger machine only what it holds of the smaller one. -/
structure Accords (e : Embedding) (env : Ref) (old : Ref → Prop) (m k : Machine) (x y : Outcome × Machine) :
    Prop where
  outcome : y.1 = x.1
  output : y.2.output = x.2.output
  beside : ∃ V : World, Beside e V x.2 y.2 ∧ Meets e V env x.2 y.2 ∧
    ∀ r, V r ≠ none → old r ∨ m.heap.cells.size ≤ r.index
  leaves : Leaves (e.places old) k y.2

/-- Machines that start a program in the globals of the one and in their copy on the other. -/
theorem Beside.pair (beside : Beside e W m k) (equips : W.Equips m.globals)
    (same : k.globals = m.globals.move e.move) (clock : k.clock = m.clock) (output : k.output = m.output)
    (steps : Nat) : beside.heaps.stretch.copying.Pair W [] { m with current := m.globals, steps }
      { k with current := k.globals, steps } where
  heaps := beside.heaps.begin
  globals := equips.provides
  globals_eq := same
  here := equips.provides
  current_eq := same
  worlds_eq := False.elim
  saved_eq := by simp [beside.atRest.idle.saved,beside.atRest'.idle.saved]
  temps_eq := by simp [beside.atRest.idle.temps,beside.atRest'.idle.temps]
  frames_eq := by simp [beside.atRest.idle.frames,beside.atRest'.idle.frames]
  limit_eq := beside.limit
  depth_eq := by simp [beside.atRest.idle.depth,beside.atRest'.idle.depth]
  calls_eq := False.elim
  level_eq := beside.level
  steps_eq := rfl
  clock_eq := clock
  output_eq := output
  log_eq := fun literal => literal.1.elim

/-- A machine that holds what another one knows of its globals runs programs as the other one does. -/
theorem Beside.run (beside : Beside e W m k) (equips : W.Equips m.globals)
    (same : k.globals = m.globals.move e.move) (clock : k.clock = m.clock) (output : k.output = m.output)
    (steps : Nat) {p : Program} (fits : BodyFits .asWritten (fun _ _ => True) [] p) :
    Accords e m.globals (fun r => W r ≠ none) m k (m.run steps p) (k.run steps p) := by
  have pair := beside.pair equips same clock output steps
  obtain ⟨V,up,outcomes,pair⟩ :=
    (Copying.faithful (C := beside.heaps.stretch.copying) (fun _ _ => trivial) (nesting steps)).run fits pair
  rw [show respellAll beside.heaps.stretch.copying.spelling [] p = p from respellAll_asWritten [] p]
    at outcomes pair
  have after : beside.heaps.stretch.Holds V (m.run steps p).2.heap (k.run steps p).2.heap := pair.heaps
  obtain ⟨worlds,-⟩ := worlds_run steps p m
  obtain ⟨worlds',-⟩ := worlds_run steps p k
  have entered : m.globals ∈ (m.run steps p).2.worlds := worlds ▸ beside.atRest.listed
  have entered' : m.globals.move e.move ∈ (k.run steps p).2.worlds := by
    rw [worlds',← same]
    exact beside.atRest'.listed
  have left : Beside e V (m.run steps p).2 (k.run steps p).2 :=
    { heaps := after.toHolds
      atRest := beside.atRest.run steps p
      atRest' := beside.atRest'.run steps p
      level := by rw [level_run,level_run,beside.level]
      limit := by rw [limit_run,limit_run,beside.limit] }
  exact
    { outcome := outcomes_eq rfl outcomes
      output := pair.output_eq
      beside := ⟨V,left,.entered entered entered' (equips.grows up),fun r => after.known⟩
      leaves :=
        { manual := after.manual'
          atRest := left.atRest'
          level := level_run steps p k
          limit := limit_run steps p k
          worlds := fun hr => by rwa [worlds']
          entered := fun hr => .inl (by rwa [worlds'] at hr)
          size := after.size
          still := fun inside others => after.still inside fun r hr same => others ⟨r,hr,same⟩ } }

/-- Machines run a program alike in an environment on the one and in its copy on the other. -/
theorem Beside.runIn (beside : Beside e W m k) (meets : Meets e W env m k) (clock : k.clock = m.clock)
    (output : k.output = m.output) (steps : Nat) {p : Program}
    (fits : BodyFits .asWritten (fun _ _ => True) [] p) :
    Accords e env (fun r => W r ≠ none ∨ r = env) m k (m.runIn steps env p)
      (k.runIn steps (env.move e.move) p) := by
  obtain ⟨V,m',k',first,first',enters,enters',holds,equips,new⟩ := beside.enter meets
  have entered := beside.enters meets enters enters' holds
  obtain ⟨heap,log,worlds,rfl,-,size,-⟩ := enters
  obtain ⟨heap',log',worlds',rfl,listed,size',still⟩ := enters'
  have ran := entered.run equips rfl clock output steps fits
  obtain ⟨U,left,meets,known⟩ := ran.beside
  simp only [Machine.runIn,first,first']
  exact
    { ran with
      beside := ⟨U,left,meets,fun r hr => (known r hr).imp (new r) fun later => size ▸ later⟩
      leaves :=
        { manual := ran.leaves.manual
          atRest := ran.leaves.atRest
          level := ran.leaves.level
          limit := ran.leaves.limit
          worlds := fun hr => ran.leaves.worlds ((listed _).mpr (.inl hr))
          entered := fun {r} hr => by
            rcases ran.leaves.entered hr with old | ⟨s,hs,same⟩
            · rcases (listed r).mp old with old | rfl
              · exact .inl old
              · exact .inr ⟨env,.inr rfl,rfl⟩
            · exact .inr ⟨s,new s hs,same⟩
          size := size' ▸ ran.leaves.size
          still := fun {i} inside others => by
            have later : ¬e.places (fun r => V r ≠ none) i := by
              rintro ⟨r,hr,same⟩
              exact others ⟨r,new r hr,same⟩
            rw [ran.leaves.still (size'.symm ▸ inside) later]
            exact still i fun same => others ⟨env,.inr rfl,same⟩ } }

/-! ## What other runs leave -/

/-- The larger machine goes on without touching what it holds of the smaller one. -/
theorem Beside.leave (beside : Beside e W m k) {touched : Nat → Prop} {l : Machine}
    (leaves : Leaves touched k l) (apart : ∀ r, W r ≠ none → ¬touched (e.move r.index)) :
    ∃ e' : Embedding, (∀ n < m.heap.cells.size, e'.move n = e.move n) ∧ Beside e' W m l := by
  obtain ⟨e',same,heaps⟩ := beside.heaps.shift leaves.manual leaves.size fun r known =>
    leaves.still (beside.heaps.inside known).2 (apart r known)
  exact ⟨e',same,
    { heaps
      atRest := beside.atRest
      atRest' := leaves.atRest
      level := leaves.level.trans beside.level
      limit := leaves.limit.trans beside.limit }⟩

theorem Meets.leave {e' : Embedding} {touched : Nat → Prop} {l : Machine} (meets : Meets e W env m k)
    (leaves : Leaves touched k l) (apart : ¬touched (e.move env.index))
    (same : e'.move env.index = e.move env.index) : Meets e' W env m l := by
  have moved : env.move e'.move = env.move e.move := congrArg Ref.mk same
  cases meets with
  | waiting new new' cell cell' nothing =>
    refine .waiting new (fun listed => ?_) cell ?_ nothing
    · rw [moved] at listed
      exact (leaves.entered listed).elim new' apart
    · rw [same,leaves.still (Array.getElem?_eq_some_iff.mp cell').1 apart,cell']
  | entered known known' equips => exact .entered known (moved ▸ leaves.worlds known') equips

end Machine
end Lox
