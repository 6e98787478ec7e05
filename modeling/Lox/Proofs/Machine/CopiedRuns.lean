import Lox.Proofs.Eval.CopiedTasks
import Lox.Proofs.Session.Invisibility

/-! # Runs of copies

A machine that has just started is a copy of itself, and nothing is known but its globals. Copies
that run a program and the respelled one end alike and are copies again: what they print is the same,
and an undefined variable may be spelled in another way.
-/
namespace Lox
open Machine Exec

theorem length_respellAll (spell : Spelling) (os : List Origin) (ss : List Stmt) :
    (respellAll spell os ss).length = ss.length := by
  induction ss with
  | nil => rfl
  | cons s ss ih => exact congrArg (· + 1) ih

namespace Copying
variable {C : Copying} {W : World} {Γ : Context} {m k : Machine}

/-! ## Machines that start -/

theorem ends_installNatives {e : Ref} (globals : W.Provides e []) (fs : List Native)
    (pair : C.Pair W Γ m k) :
    C.Ends W (fun _ _ _ => True) (fun _ => Γ) (installNatives e fs m)
      (installNatives (C.ref e) fs k) := by
  induction fs generalizing W m k with
  | nil => exact .pure trivial pair
  | cons f rest ih =>
    obtain ⟨frame,role,origin⟩ := id globals
    refine (ends_reading .start pair (answers_get pair.heaps role f.name)).bind
      fun V a b m k _ up ⟨_,_,same,_⟩ pair => ?_
    have bound : b.1.contains f.name = a.1.contains f.name := by
      rw [origin,C.plain] at same
      rw [Bindings.contains,same,Option.isSome_map,Bindings.contains]
    obtain ⟨values,enclosing⟩ := a
    obtain ⟨values',enclosing'⟩ := b
    have globals := up.provides globals
    dsimp only at bound ⊢
    rw [bound]
    split
    · have defines := ends_define pair globals f.name (x := .native f) fun _ _ _ => trivial
      refine defines.bind fun V _ _ m k _ _ globals pair => ?_
      exact ih globals pair
    · exact ih globals pair

/-- The first environment binds globals. -/
theorem content_globals (r : Ref) (made : C.made r .world) :
    C.Content W r (.environment ⟨.world,none,[]⟩) (.environment {} none) :=
  Guise.Content.environment (f := ⟨.world,none,[]⟩) (fun _ hn => absurd hn List.not_mem_nil)
    (fun _ hx => absurd hx List.not_mem_nil) (fun _ he => absurd he (by simp)) made

/-- The globals are the first object of all. -/
theorem globals_start {settings : Settings} {clock : Float}
    (start : Machine.start settings clock = .ok m) : m.globals = ⟨0⟩ := by
  have started := start_eq_ok start
  rw [Comparison.firstEnvironment_eq] at started
  split at started
  · next r heap placed =>
    rw [Heap.place_eq] at placed
    split at placed
    · cases placed
      exact ((leads_installNatives _ _).ok started).globals
    · cases placed
  · cases started

/-- A machine that has just started is a copy of itself. -/
theorem pair_start {settings : Settings} {clock : Float} (made : C.made ⟨0⟩ .world)
    (empty : C.heaps (fun _ => none) (blank settings clock).heap (blank settings clock).heap)
    (start : Machine.start settings clock = .ok m) : ∃ W, C.Pair W [] m m := by
  have started := start_eq_ok start
  rw [Comparison.firstEnvironment_eq] at started
  have roots : C.tight → ([] : List Ref) = [] := fun _ => rfl
  rcases C.place empty roots (content_globals _ made) with
    ⟨h,g,left,right,heaps⟩ | ⟨V,f,h,g,left,-⟩
  · obtain ⟨here,rfl⟩ := EStateM.Result.ok.inj (left.symm.trans right)
    rw [left] at started
    have here : ∀ r : Ref, r = ⟨(blank settings clock).heap.cells.size⟩ → C.ref r = r := by
      rintro r rfl
      exact here.symm
    generalize (⟨(blank settings clock).heap.cells.size⟩ : Ref) = r at started heaps here
    have stays := here r rfl
    have globals : (World.put (fun _ => none) r (.environment ⟨.world,none,[]⟩)).Provides r [] :=
      ⟨_,World.put_self _ _,rfl⟩
    have pair : C.Pair (World.put (fun _ => none) r (.environment ⟨.world,none,[]⟩)) []
        { ({ blank settings clock with heap := h } : Machine).logJournal with
          globals := r, current := r, worlds := [r] }
        { ({ blank settings clock with heap := h } : Machine).logJournal with
          globals := r, current := r, worlds := [r] } := by
      rw [logJournal_eq]
      exact
        { heaps := C.flush heaps
          globals, globals_eq := stays.symm, here := globals, current_eq := stays.symm
          worlds_eq := fun _ => rfl, saved_eq := rfl, temps_eq := rfl, frames_eq := rfl
          limit_eq := rfl, depth_eq := rfl, calls_eq := fun _ => rfl, level_eq := rfl
          steps_eq := rfl, clock_eq := rfl, output_eq := rfl, log_eq := fun _ => rfl }
    have ends := ends_installNatives globals Native.all pair
    rw [stays] at ends
    dsimp only at started
    rw [started] at ends
    cases ends with
    | ok _ _ pair => exact ⟨_,pair⟩
  · rw [left] at started
    cases started

/-! ## Runs -/

/-- How runs of a machine and its copy end. -/
inductive Outcomes (C : Copying) : Outcome → Outcome → Prop
  | done : Outcomes C .done .done
  | error {c d} (pos : Pos) : C.Fails (.cause c) (.cause d) → Outcomes C (.error ⟨c,pos⟩) (.error ⟨d,pos⟩)
  | fault {f} : f.isScoping = false → Outcomes C (.fault f) (.fault f)
  | cut : Outcomes C .cut .cut

theorem Pair.restart (pair : C.Pair W Γ m k) (steps : Nat) :
    C.Pair W [] { m with current := m.globals, steps } { k with current := k.globals, steps } :=
  { pair with
    here := pair.globals
    current_eq := pair.globals_eq
    steps_eq := rfl }

theorem Pair.settle (pair : C.Pair W Γ m k) : C.Pair W [] m.settle k.settle :=
  { pair with
    here := pair.globals
    current_eq := pair.globals_eq
    saved_eq := rfl
    temps_eq := rfl
    frames_eq := rfl
    limit_eq := pair.limit_eq
    depth_eq := rfl
    calls_eq := fun tight => congrArg CallDepth.reset (pair.calls_eq tight) }

theorem Pair.logMessage (pair : C.Pair W Γ m k) {s t : String} (same : C.literal → t = s) :
    C.Pair W Γ (m.logMessage s) (k.logMessage t) :=
  { pair with
    log_eq := fun literal =>
      show t :: k.log = s :: m.log by rw [same literal,pair.log_eq literal] }

theorem Fails.eq_of_literal (literal : C.literal) {c d : RuntimeError.Cause}
    (fails : C.Fails (.cause c) (.cause d)) : d = c := by
  cases fails with
  | cause => rfl
  | undefined o named => rw [literal.2]; rfl

theorem Ends.concluded {rel : World → Unit → Unit → Prop} {post : Unit → Context}
    {x y : EStateM.Result Halt Machine Unit} (ends : C.Ends W rel post x y) :
    ∃ V, W.Grows V ∧ C.Outcomes (Comparison.concluded x).1 (Comparison.concluded y).1 ∧
      C.Pair V [] (Comparison.concluded x).2 (Comparison.concluded y).2 := by
  cases ends with
  | ok up _ pair => exact ⟨_,up,.done,pair.settle⟩
  | error up halts pair =>
    cases halts with
    | failure pos fails =>
      cases id fails with
      | fault scoping => exact ⟨_,up,.fault scoping,pair.settle⟩
      | cause c => exact ⟨_,up,.error pos fails,(pair.logMessage fun _ => rfl).settle⟩
      | undefined o named =>
        refine ⟨_,up,.error pos fails,(pair.logMessage fun literal => ?_).settle⟩
        rw [Fails.eq_of_literal literal fails]
    | cut => exact ⟨_,up,.cut,pair.settle⟩

theorem Faithful.ends_executeProgram {n : Nat} (h : C.Faithful (evaluator n)) {p : Program}
    (fits : BodyFits C.spelling C.use [] p) (pair : C.Pair W [] m k) :
    C.Ends W (fun _ _ _ => True) (fun _ => []) (executeProgram n p m)
      (executeProgram n (respellAll C.spelling [] p) k) := by
  induction p generalizing W m k with
  | nil => exact .pure trivial pair
  | cons s rest ih =>
    have stays : Context.afterStmt [] s = [] := by
      rw [Context.afterStmt]
      split <;> rfl
    refine (h.execute fits.1 pair).bind fun V _ _ m k _ _ _ pair => ?_
    rw [stays] at pair
    exact ih (stays ▸ fits.2) pair

/-- Copies that run a program and the respelled one end alike and are copies again. -/
theorem Faithful.run {steps : Nat} (h : C.Faithful (evaluator (nesting steps))) {p : Program}
    (fits : BodyFits C.spelling C.use [] p) (pair : C.Pair W Γ m k) :
    ∃ V, W.Grows V ∧
      C.Outcomes (m.run steps p).1 (k.run steps (respellAll C.spelling [] p)).1 ∧
      C.Pair V [] (m.run steps p).2 (k.run steps (respellAll C.spelling [] p)).2 := by
  rw [Comparison.run_eq,Comparison.run_eq]
  have traced := ends_trace (pair.restart steps) .normal (s := fun _ => s!"run: {p.length} statements")
    (t := fun _ => s!"run: {(respellAll C.spelling [] p).length} statements") fun _ => by
      rw [length_respellAll]
  exact (traced.bind fun V _ _ m k _ _ _ pair => h.ends_executeProgram fits pair).concluded

end Copying
end Lox
