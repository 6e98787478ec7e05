import Lox.Proofs.Heap.Copying
import Lox.Proofs.Machine.Twins

/-! # Copies of machines

A machine and another one that works on copies of its objects. What is known of the objects grows
as the two go on, and the environment at hand provides a context. They end alike: with a result and
its copy, or with failures that correspond. There is one rule for each way to put computations
together.
-/
namespace Lox
open Machine Exec

namespace Copying
variable (C : Copying) {α β : Type}

/-- Nothing is moved or spelled in another way. -/
def literal : Prop := C.tight ∧ C.spelling = .asWritten

/-- A machine and its copy, in an environment that provides a context. -/
structure Pair (W : World) (Γ : Context) (m k : Machine) : Prop where
  heaps : C.heaps W m.heap k.heap
  globals : W.Provides m.globals []
  globals_eq : k.globals = C.ref m.globals
  here : W.Provides m.current Γ
  current_eq : k.current = C.ref m.current
  worlds_eq : C.tight → k.worlds = m.worlds
  saved_eq : k.saved = m.saved.map C.ref
  temps_eq : k.temps = m.temps.map C.value
  frames_eq : k.frames = m.frames.map C.value
  limit_eq : k.calls.limit = m.calls.limit
  depth_eq : k.calls.depth = m.calls.depth
  calls_eq : C.tight → k.calls = m.calls
  level_eq : k.level = m.level
  steps_eq : k.steps = m.steps
  clock_eq : k.clock = m.clock
  output_eq : k.output = m.output
  log_eq : C.literal → k.log = m.log

inductive Halts : Halt → Halt → Prop
  | failure {e f} (pos : Pos) : C.Fails e f → Halts (e.halt pos) (f.halt pos)
  | cut : Halts .cut .cut

/-- Two computations end alike, with more known of the objects. What the environment then provides
may depend on the result. -/
inductive Ends (W : World) (rel : World → α → α → Prop) (post : α → Context) :
    EStateM.Result Halt Machine α → EStateM.Result Halt Machine α → Prop
  | ok {V a b m k} : W.Grows V → rel V a b → C.Pair V (post a) m k → Ends W rel post (.ok a m) (.ok b k)
  | error {V Γ s t m k} : W.Grows V → C.Halts s t → C.Pair V Γ m k → Ends W rel post (.error s m) (.error t k)

variable {C} {W V : World} {Γ Δ : Context} {m k : Machine} {rel : World → α → α → Prop}
  {rel' : World → β → β → Prop} {post : α → Context} {post' : β → Context}

theorem Pair.of_declare {name : String} (pair : C.Pair W (Γ.declare name) m k) : C.Pair W Γ m k :=
  { pair with here := pair.here.of_declare }

theorem Pair.of_afterStmt {s : Stmt} (pair : C.Pair W (Γ.afterStmt s) m k) : C.Pair W Γ m k := by
  rw [Context.afterStmt] at pair
  cases e : s.declared? with
  | none => rwa [e] at pair
  | some name =>
    rw [e] at pair
    exact pair.of_declare

/-- A machine and its copy when the heaps have changed. -/
theorem Pair.withHeap (pair : C.Pair W Γ m k) (up : W.Grows V) {h g : Heap Value}
    (heaps : C.heaps V h g) : C.Pair V Γ { m with heap := h } { k with heap := g } :=
  { pair with
    heaps
    globals := up.provides pair.globals
    here := up.provides pair.here }

theorem Pair.flatMap_refs {xs : List Value} : (xs.map C.value).flatMap Holder.refs =
    (xs.flatMap Holder.refs).map C.ref := by
  have refs : ∀ x : Value, Holder.refs (C.value x) = (Holder.refs x).map C.ref := fun x => by
    cases x <;> rfl
  rw [List.flatMap_map,List.map_flatMap]
  exact congrArg xs.flatMap (funext refs)

/-- Tight copies have the same roots. -/
theorem Pair.roots_eq (pair : C.Pair W Γ m k) (tight : C.tight) : k.roots = m.roots := by
  have stays : ∀ r, C.ref r = r := fun r => congrArg Ref.mk (C.stays r.index tight)
  have same : C.ref = id := funext stays
  simp only [roots,pair.globals_eq,pair.current_eq,pair.worlds_eq tight,pair.saved_eq,
    pair.temps_eq,pair.frames_eq,← List.map_reverse,flatMap_refs,same,List.map_id,stays]

/-! ## Putting computations together -/

theorem Ends.up (up : V.Grows W) {x y : EStateM.Result Halt Machine α} (h : C.Ends W rel post x y) :
    C.Ends V rel post x y := by
  cases h with
  | ok grows ab pair => exact .ok (up.trans grows) ab pair
  | error grows halts pair => exact .error (up.trans grows) halts pair

theorem Ends.bind {x y : Exec α} {f g : α → Exec β} (first : C.Ends W rel post (x m) (y k))
    (next : ∀ V a b m' k', x m = .ok a m' → W.Grows V → rel V a b → C.Pair V (post a) m' k' →
      C.Ends V rel' post' (f a m') (g b k')) :
    C.Ends W rel' post' ((x >>= f) m) ((y >>= g) k) := by
  generalize ex : x m = s,ey : y k = t at first
  cases first with
  | ok grows ab pair =>
    simp only [Bind.bind,EStateM.bind,ex,ey]
    exact (next _ _ _ _ _ ex grows ab pair).up grows
  | error grows halts pair =>
    simp only [Bind.bind,EStateM.bind,ex,ey]
    exact .error grows halts pair

theorem Ends.imp {rel' : World → α → α → Prop} {post' : α → Context}
    {x y : EStateM.Result Halt Machine α} (h : C.Ends W rel post x y)
    (weaker : ∀ V a b m k, W.Grows V → rel V a b → C.Pair V (post a) m k →
      rel' V a b ∧ C.Pair V (post' a) m k) : C.Ends W rel' post' x y := by
  cases h with
  | ok grows ab pair =>
    obtain ⟨ab,pair⟩ := weaker _ _ _ _ _ grows ab pair
    exact .ok grows ab pair
  | error grows halts pair => exact .error grows halts pair

theorem Ends.map {x y : Exec α} (f : α → β) (h : C.Ends W rel post (x m) (y k))
    (both : ∀ V a b m k, W.Grows V → rel V a b → C.Pair V (post a) m k →
      rel' V (f a) (f b) ∧ C.Pair V (post' (f a)) m k) :
    C.Ends W rel' post' ((f <$> x) m) ((f <$> y) k) := by
  generalize ex : x m = s,ey : y k = t at h
  cases h with
  | ok grows ab pair =>
    obtain ⟨ab,pair⟩ := both _ _ _ _ _ grows ab pair
    simp only [Functor.map,EStateM.map,ex,ey]
    exact .ok grows ab pair
  | error grows halts pair =>
    simp only [Functor.map,EStateM.map,ex,ey]
    exact .error grows halts pair

theorem Ends.pure {a b : α} (ab : rel W a b) (pair : C.Pair W (post a) m k) :
    C.Ends W rel post ((pure a : Exec α) m) ((pure b : Exec α) k) := .ok (.refl W) ab pair

theorem Ends.failure {e f : Failure} (pos : Pos) (fails : C.Fails e f) (pair : C.Pair W Γ m k) :
    C.Ends W rel post ((throw (e.halt pos) : Exec α) m) ((throw (f.halt pos) : Exec α) k) :=
  .error (.refl W) (.failure pos fails) pair

theorem ends_raise (pos : Pos) (c : RuntimeError.Cause) (pair : C.Pair W Γ m k) :
    C.Ends W rel post ((raise pos c : Exec α) m) ((raise pos c : Exec α) k) :=
  .failure pos (.cause c) pair

/-- Both sides change in the same way behind a computation, however it ended. -/
theorem Ends.afterwards {x y : Exec α} {f g : Machine → Machine} {post' : α → Context}
    (h : C.Ends W rel post (x m) (y k))
    (ok : ∀ V a m k, W.Grows V → C.Pair V (post a) m k → C.Pair V (post' a) (f m) (g k))
    (error : ∀ V Δ m k, W.Grows V → C.Pair V Δ m k → ∃ Γ, C.Pair V Γ (f m) (g k)) :
    C.Ends W rel post' (afterwards x f m) (afterwards y g k) := by
  simp only [Exec.afterwards]
  generalize x m = s,y k = t at h
  cases h with
  | ok grows ab pair => exact .ok grows ab (ok _ _ _ _ grows pair)
  | error grows halts pair =>
    obtain ⟨Γ,pair⟩ := error _ _ _ _ grows pair
    exact .error grows halts pair

theorem Ends.releasing {x y : Exec α} (pair : C.Pair W Γ m k) (h : C.Ends W rel post (x m) (y k)) :
    C.Ends W rel post (releasing x m) (releasing y k) := by
  have restored : ∀ {V Δ m' k'}, C.Pair V Δ m' k' →
      C.Pair V Δ { m' with temps := m.temps } { k' with temps := k.temps } :=
    fun pair' => { pair' with temps_eq := pair.temps_eq }
  exact h.afterwards (fun _ _ _ _ _ pair => restored pair) fun _ _ _ _ _ pair => ⟨_,restored pair⟩

theorem ends_keep (pair : C.Pair W Γ m k) (x : Value) :
    C.Ends W (fun _ _ _ => True) (fun _ => Γ) (keep x m) (keep (C.value x) k) :=
  .ok (.refl W) trivial { pair with temps_eq := by simp [pair.temps_eq] }

theorem Ends.keeping {x y : Exec α} (pair : C.Pair W Γ m k) (v : Value)
    (h : ∀ m' k', m'.heap = m.heap → C.Pair W Γ m' k' → C.Ends W rel post (x m') (y k')) :
    C.Ends W rel post (keeping v x m) (keeping (C.value v) y k) :=
  .releasing pair (h { m with temps := v :: m.temps } { k with temps := C.value v :: k.temps } rfl
    { pair with temps_eq := by simp [pair.temps_eq] })

theorem Ends.inEnvironment {x y : Exec α} {e : Ref} (pair : C.Pair W Γ m k)
    (there : W.Provides e Δ)
    (h : ∀ m' k', m'.heap = m.heap → C.Pair W Δ m' k' → C.Ends W rel post (x m') (y k')) :
    C.Ends W rel (fun _ => Γ) (inEnvironment e x m) (inEnvironment (C.ref e) y k) := by
  have restored : ∀ {V Θ m' k'}, W.Grows V → C.Pair V Θ m' k' →
      C.Pair V Γ { m' with current := m.current, saved := m.saved }
        { k' with current := k.current, saved := k.saved } := fun up pair' =>
    { pair' with
      here := up.provides pair.here
      current_eq := pair.current_eq
      saved_eq := pair.saved_eq }
  have inside := h { m with current := e, saved := m.current :: m.saved }
    { k with current := C.ref e, saved := k.current :: k.saved } rfl
    { pair with
      here := there
      current_eq := rfl
      saved_eq := by simp [pair.current_eq,pair.saved_eq] }
  refine inside.afterwards ?_ ?_
  · exact fun _ _ _ _ up pair => restored up pair
  · exact fun _ _ _ _ up pair => ⟨Γ,restored up pair⟩

theorem Ends.entering {pos : Pos} {x y : Exec α} {v : Value} (pair : C.Pair W Γ m k)
    (h : ∀ m' k', m'.heap = m.heap → C.Pair W Γ m' k' → C.Ends W rel post (x m') (y k')) :
    C.Ends W rel post ((do enterCall pos; inCall v x) m)
      ((do enterCall pos; inCall (C.value v) y) k) := by
  have entered : m.calls.enter.1.isSome = k.calls.enter.1.isSome ∧
      k.calls.enter.2.limit = m.calls.enter.2.limit ∧
      k.calls.enter.2.depth = m.calls.enter.2.depth ∧
      (C.tight → k.calls.enter.2 = m.calls.enter.2) := by
    refine and_assoc.mp (and_assoc.mp ⟨?_,fun tight => by rw [pair.calls_eq tight]⟩)
    simp only [CallDepth.enter,pair.limit_eq,pair.depth_eq]
    split <;> exact ⟨⟨rfl,rfl⟩,rfl⟩
  simp only [Bind.bind,EStateM.bind,enterCall]
  generalize m.calls.enter = a,k.calls.enter = b at entered
  obtain ⟨refused,calls⟩ := a
  obtain ⟨refused',calls'⟩ := b
  obtain ⟨both,limit,depth,same⟩ := entered
  have now : C.Pair W Γ { m with calls } { k with calls := calls' } :=
    { pair with limit_eq := limit, depth_eq := depth, calls_eq := same }
  cases refused with
  | some o =>
    cases refused' with
    | none => cases both
    | some o' => exact .error (.refl W) (.failure pos (.cause .tooDeep)) now
  | none =>
    cases refused' with
    | some o' => cases both
    | none =>
      have restored : ∀ {V Δ m' k'}, C.Pair V Δ m' k' →
          C.Pair V Δ { m' with frames := m.frames, calls := m'.calls.exit }
            { k' with frames := k.frames, calls := k'.calls.exit } := fun pair' =>
        { pair' with
          frames_eq := pair.frames_eq
          limit_eq := pair'.limit_eq
          depth_eq := congrArg (· - 1) pair'.depth_eq
          calls_eq := fun tight => congrArg CallDepth.exit (pair'.calls_eq tight) }
      have inside := h { m with calls, frames := v :: m.frames }
        { k with calls := calls', frames := C.value v :: k.frames } rfl
        { now with frames_eq := by simp [pair.frames_eq] }
      refine inside.afterwards ?_ ?_
      · exact fun _ _ _ _ _ pair => restored pair
      · exact fun _ _ _ _ _ pair => ⟨_,restored pair⟩

theorem Ends.tick {x y : Exec α} (pair : C.Pair W Γ m k)
    (next : ∀ s, m.steps = s + 1 → C.Pair W Γ { m with steps := s } { k with steps := s } →
      C.Ends W rel post (x { m with steps := s }) (y { k with steps := s })) :
    C.Ends W rel post ((do tick; x) m) ((do tick; y) k) := by
  have same := pair.steps_eq
  cases hs : m.steps with
  | zero =>
    rw [tick_bind_of_eq_zero x hs,tick_bind_of_eq_zero y (same.trans hs)]
    exact .error (.refl W) .cut pair
  | succ s =>
    rw [tick_bind_of_eq_succ x hs,tick_bind_of_eq_succ y (same.trans hs)]
    exact next s hs { pair with steps_eq := rfl }

/-! ## Single operations -/

theorem Pair.logJournal (pair : C.Pair W Γ m k) : C.Pair W Γ m.logJournal k.logJournal := by
  have journals : C.literal → k.heap.journal = m.heap.journal := fun same =>
    C.journal same.1 pair.heaps
  rw [logJournal_eq,logJournal_eq]
  exact { pair with
    heaps := C.flush pair.heaps
    log_eq := fun same => by rw [journals same,pair.log_eq same] }

/-- Messages may differ, unless nothing else does. -/
theorem ends_trace (pair : C.Pair W Γ m k) (level : Level) {s t : Unit → String}
    (same : C.literal → t () = s ()) :
    C.Ends W (fun _ _ _ => True) (fun _ => Γ) (trace level s m) (trace level t k) := by
  by_cases logs : m.level.logs level
  · rw [trace,trace,if_pos logs,if_pos (pair.level_eq ▸ logs)]
    exact .ok (.refl W) trivial { pair with
      log_eq := fun literal => by rw [same literal,pair.log_eq literal] }
  · rw [trace,trace,if_neg logs,if_neg (pair.level_eq ▸ logs)]
    exact .ok (.refl W) trivial pair

theorem ends_print (pair : C.Pair W Γ m k) (text : String) :
    C.Ends W (fun _ _ _ => True) (fun _ => Γ) (print text m) (print text k) :=
  .ok (.refl W) trivial { pair with output_eq := by simp [pair.output_eq] }

theorem ends_currentEnvironment (pair : C.Pair W Γ m k) :
    C.Ends W (fun W a b => W.Provides a Γ ∧ b = C.ref a) (fun _ => Γ) (currentEnvironment m)
      (currentEnvironment k) := .ok (.refl W) ⟨pair.here,pair.current_eq⟩ pair

theorem ends_reading (pos : Pos) (pair : C.Pair W Γ m k) {rel : α → α → Prop}
    {u v : Heap Value → Except Failure α} (answers : C.Answers rel (u m.heap) (v k.heap)) :
    C.Ends W (fun _ => rel) (fun _ => Γ) (reading pos u m) (reading pos v k) := by
  simp only [reading]
  generalize u m.heap = s,v k.heap = t at answers
  cases answers with
  | ok ab => exact .ok (.refl W) ab pair
  | error fails => exact .error (.refl W) (.failure pos fails) pair

theorem ends_onHeap (pos : Pos) (pair : C.Pair W Γ m k) {u v : HeapM Value Unit} (up : W.Grows V)
    (there : V.Provides m.current Δ) (writes : C.Writes W V (u m.heap) (v k.heap)) :
    C.Ends W (fun U _ _ => V.Grows U) (fun _ => Δ) (onHeap pos u m) (onHeap pos v k) := by
  simp only [onHeap]
  generalize u m.heap = s,v k.heap = t at writes
  cases writes with
  | ok heaps => exact .ok up (.refl V) { pair.withHeap up heaps with here := there }
  | error fails heaps => exact .error (.refl W) (.failure pos fails) (pair.withHeap (.refl W) heaps)

/-- An allocation of an object that has what its role asks for. -/
theorem ends_allocate (pair : C.Pair W Γ m k) {o : Object Value} {R : Role}
    (content : C.Content (W.put ⟨m.heap.cells.size⟩ R) ⟨m.heap.cells.size⟩ R o) :
    C.Ends W (fun V a b => a = ⟨m.heap.cells.size⟩ ∧ V a = some R ∧ b = C.ref a) (fun _ => Γ)
      (allocate o m) (allocate (C.copy R o) k) := by
  rw [allocate_eq,allocate_eq]
  rcases C.place pair.heaps pair.roots_eq content with ⟨h,g,left,right,heaps⟩ |
    ⟨V,f,h,g,left,right,scoping,up,heaps⟩
  · have up : W.Grows (W.put ⟨m.heap.cells.size⟩ R) := World.grows_put_new (fresh pair.heaps) R
    rw [left,right]
    exact .ok up ⟨rfl,World.put_self _ R,rfl⟩ (pair.withHeap up heaps).logJournal
  · rw [left,right]
    exact .error up (.failure .start (.fault scoping)) (pair.withHeap up heaps).logJournal

end Copying
end Lox
