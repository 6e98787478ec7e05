import Lox.Proofs.Eval.Performed
import Lox.Proofs.Heap.Chains
import Lox.Proofs.Scope.Sites
import Lox.Proofs.Session.Printing

/-! # Scopes at run time

The chain of environments at a use of a scope is the stack of scopes that the use was resolved in:
each environment has been opened for the construct that opened the scope, and the last one holds the
globals. So a depth leads to the environment of the scope in which the name was found, and what is
read there is bound.
-/
namespace Lox
open Machine Exec Comparison Heap

/-! ## What a session performs -/

/-- The sites of a source that compiles. -/
def Entry.sites (e : Entry) : List Site :=
  if (compile e.source).errors.isEmpty then (compile e.source).program.sites else []

/-- The tasks performed while a session runs sources one after another. -/
def Session.Performs (s : Session) : List Entry → Nat → Task → Machine → Prop
  | [] => fun _ _ _ => False
  | e :: rest => fun l u k =>
    ((compile e.source).errors.isEmpty ∧
      Machine.Performs e.steps (compile e.source).program (s.compileSource e.source e.file).2.machine l u k) ∨
    (s.run e.source e.file e.steps).2.takeOutput.2.Performs rest l u k

/-- An environment has been opened for a construct, or holds the globals. -/
def Session.Opened (s : Session) (entries : List Entry) (env : Ref) : Origin → Prop
  | .world => env = s.machine.globals
  | o => ∃ l u k, s.Performs entries l u k ∧ u.Starts l k ∧ u.opens k = some o ∧
      env = ⟨k.heap.cells.size⟩

/-- What a use of a scope reads, by name and depth. The receiver of a `super` is one scope further
in. -/
def Expr.reads : Expr → List (String × Int)
  | .var ⟨name,some d⟩ => [(name.text,d)]
  | .this _ (some d) => [("this",d)]
  | .super _ _ (some d) => [("super",d),("this",d - 1)]
  | _ => []

/-- A receiver or a superclass has a depth. -/
def Expr.HasDepth : Expr → Prop
  | .this _ depth => depth.isSome
  | .super _ _ depth => ∃ d, depth = some (d + 1)
  | _ => True

/-- A machine at a use of a scope agrees with the scopes that the use was resolved in. -/
structure Session.InStep (s : Session) (entries : List Entry) (k : Machine) (e : Expr)
    (Γ : Context) : Prop where
  site : ∃ a ∈ entries, (Γ,e) ∈ a.sites
  /-- There is one environment for each scope, opened for the construct that opened the scope, and
  one of the globals behind them. -/
  chain (i : Nat) (o : Origin) : (Γ.origins ++ [.world])[i]? = some o →
    ∃ env, k.heap.ancestor k.current i = .ok env ∧ s.Opened entries env o
  /-- The depth is that of the scope in which the name was found. -/
  found (name : String) (d : Nat) : e.sought = some (name,some d) →
    Γ.scopes.depth? name = some d ∧ d < Γ.length
  reads : ∀ p ∈ e.reads, ∃ x, k.heap.lookupAt k.current p.2 p.1 = .ok x
  rooted : e.HasDepth

section
variable {bound l n j : Nat} {p : Program} {m k i : Machine} {u v : Task} {s : Session}
  {entries : List Entry}

theorem Machine.Executes.asks (h : Executes bound p m (l + 1) u k)
    (asks : Asks (fun E => u.perform E k) (evaluator l) v i) : Executes bound p m l v i := by
  induction p generalizing m with
  | nil => exact h.elim
  | cons s rest ih =>
    rcases h with arises | ⟨a,m',e,h⟩
    · exact .inl (.asked arises asks)
    · exact .inr ⟨a,m',e,ih h⟩

theorem Session.Performs.asks (h : s.Performs entries (l + 1) u k)
    (asks : Asks (fun E => u.perform E k) (evaluator l) v i) : s.Performs entries l v i := by
  induction entries generalizing s with
  | nil => exact h.elim
  | cons e rest ih =>
    rcases h with ⟨clean,m',traced,h⟩ | h
    · exact .inl ⟨clean,m',traced,h.asks asks⟩
    · exact .inr (ih h)

end

/-- A use of a scope stands in the contexts of a site that has the same scopes. -/
def siteUse (entries : List Entry) (Γ : Context) (e : Expr) : Prop :=
  ∃ a ∈ entries, ∃ x ∈ a.sites, x.1.origins = Γ.origins ∧ x.2 = e

theorem Task.opens_ne_world {u : Task} {k : Machine} {o : Origin} (h : u.opens k = some o) :
    o ≠ .world := by
  rintro rfl
  cases u with
  | execute s => cases s <;> cases h
  | invoke => cases h
  | callBound f =>
    simp only [Task.opens] at h
    obtain ⟨_,_,e⟩ := Option.map_eq_some_iff.mp h
    cases e
  | declareClass _ superclass _ => cases superclass <;> cases h
  | _ => cases h

/-- What a session performs is a history. -/
theorem Session.history (s : Session) (entries : List Entry) :
    Copying.History (siteUse entries) (s.Opened entries) (s.Performs entries) where
  asks h asks := h.asks asks
  opens {n t m} h starts o ho := by
    have other := Task.opens_ne_world ho
    cases o with
    | world => exact absurd rfl other
    | _ => exact ⟨n,t,m,h,starts,ho,rfl⟩

/-! ## Compiled sources -/

/-- A word that is spelled as an identifier stands for no receiver and no superclass. -/
theorem ordinary_of_ofWord {text : String} (h : Token.Kind.ofWord text = .identifier) :
    Ordinary text := by
  constructor <;>
  · rintro rfl
    revert h
    decide

/-- The names of a source are written as identifiers. -/
theorem spells_of_parse {source : String} (quiet : (parse source).errors = []) :
    (parse source).program.Grammatical ∧ Spells (fun text => Token.Kind.ofWord text = .identifier)
      (parse source).program.words := by
  obtain ⟨-,t,e,silent⟩ := whole_of_parse quiet
  obtain ⟨words,grammatical⟩ := words_whole (ended_scan source) (spelled_scan source) e silent
  refine ⟨grammatical,fun w hw kind => ?_⟩
  have among : w ∈ (scan source).tokens.map Token.word := words ▸ List.mem_append_left _ hw
  obtain ⟨t,ht,rfl⟩ := List.mem_map.mp among
  exact ((spelled_scan source t ht).identifier kind).1

theorem named_of_parse {source : String} (quiet : (parse source).errors = []) :
    BodyNamed Ordinary (parse source).program :=
  have spells := spells_of_parse quiet
  bodyNamed_of_words _ spells.1 fun w hw kind => ordinary_of_ofWord (spells.2 w hw kind)

/-- A source that compiles fits, if its sites are as is asked for. -/
theorem Entry.fits {use : Context → Expr → Prop} {e : Entry}
    (clean : (compile e.source).errors.isEmpty) (covers : Covers use e.sites) :
    BodyFits .asWritten use [] (compile e.source).program := by
  obtain ⟨quiet,sound,program⟩ := compile_eq_nil (List.isEmpty_iff.mp clean)
  rw [Entry.sites,if_pos clean] at covers
  rw [program] at covers ⊢
  exact Program.fits_resolve (named_of_parse quiet) sound covers

/-! ## Sessions in step -/

namespace Session
variable {s : Session} {use : Context → Expr → Prop} {made : Ref → Origin → Prop}

theorem run_of_compile {e : Entry} (clean : (compile e.source).errors.isEmpty) :
    (s.run e.source e.file e.steps).1 = .ofOutcome (some e.file)
        ((s.compileSource e.source e.file).2.machine.run e.steps (compile e.source).program).1 ∧
      (s.run e.source e.file e.steps).2.machine =
        ((s.compileSource e.source e.file).2.machine.run e.steps (compile e.source).program).2 := by
  simp only [run,compileSource_fst,clean,if_true,runMachine,and_self]

theorem run_of_errors {e : Entry} (faulty : ¬(compile e.source).errors.isEmpty) :
    (∀ f, (s.run e.source e.file e.steps).1 ≠ .fault f) ∧
      ∃ log, (s.run e.source e.file e.steps).2.machine = { s.machine with log } := by
  obtain ⟨m,log,rfl,ending,machine⟩ := s.run_eq e.source e.file e.steps
  rw [if_neg faulty] at ending machine
  exact ⟨fun f h => (nomatch ending.symm.trans h),log,machine⟩

/-- Whatever a session performs fits, is safe and never ends in a fault of scopes. -/
theorem ready_of_performs {H : Nat → Task → Machine → Prop} (history : Copying.History use made H)
    {entries : List Entry} (performs : ∀ l u k, s.Performs entries l u k → H l u k)
    (covers : ∀ a ∈ entries, Covers use a.sites)
    (pair : ∃ W, (Copying.known use made).Pair W [] s.machine s.machine)
    (sec : Secure s.machine.roots s.machine.heap) :
    (∀ l u k, s.Performs entries l u k → Copying.Ready use made u k ∧ u.Safe l k) ∧
      ∀ x ∈ s.play entries, ∀ f, x.1.ending = .fault f → f.isScoping = false := by
  induction entries generalizing s with
  | nil => exact ⟨fun _ _ _ h => h.elim,fun _ h => absurd h List.not_mem_nil⟩
  | cons e rest ih =>
    obtain ⟨W,pair⟩ := pair
    obtain ⟨first,covers⟩ := List.forall_mem_cons.mp covers
    have behind : ∀ m : Machine, (s.run e.source e.file e.steps).2.machine = m →
        (∃ V, (Copying.known use made).Pair V [] m m) → Secure m.roots m.heap →
        (∀ l u k, (s.run e.source e.file e.steps).2.takeOutput.2.Performs rest l u k →
          Copying.Ready use made u k ∧ u.Safe l k) ∧
        ∀ x ∈ (s.run e.source e.file e.steps).2.takeOutput.2.play rest, ∀ f,
          x.1.ending = .fault f → f.isScoping = false := by
      rintro m rfl ⟨V,pair⟩ sec
      exact ih (fun l u k h => performs l u k (.inr h)) covers
        ⟨V,{ pair with output_eq := rfl }⟩ sec
    obtain ⟨log,logged⟩ := s.compileSource_machine e.source e.file
    by_cases clean : (compile e.source).errors.isEmpty
    · obtain ⟨ending,machine⟩ := run_of_compile (s := s) clean
      have running : (Copying.known use made).Pair W [] (s.compileSource e.source e.file).2.machine
          (s.compileSource e.source e.file).2.machine := by
        rw [logged]
        exact { pair with log_eq := fun _ => rfl }
      obtain ⟨ready,scoping,⟨V,-,pair⟩,sec⟩ := history.performed
        (fun l u k h => performs l u k (.inl ⟨clean,h⟩)) (Entry.fits clean first) running
        (logged ▸ sec)
      obtain ⟨later,safe⟩ := behind _ machine ⟨V,pair⟩ sec
      constructor
      · rintro l u k (⟨-,h⟩ | h)
        · exact ready l u k h
        · exact later l u k h
      · refine List.forall_mem_cons.mpr ⟨fun f fault => ?_,safe⟩
        refine scoping f ?_
        have fault := ending.symm.trans fault
        generalize (Machine.run _ _ _).1 = o at fault ⊢
        cases o <;> cases fault
        rfl
    · obtain ⟨no,log,machine⟩ := run_of_errors (s := s) clean
      obtain ⟨later,safe⟩ := behind _ machine ⟨W,{ pair with log_eq := fun _ => rfl }⟩ sec
      constructor
      · rintro l u k (⟨h,-⟩ | h)
        · exact absurd h clean
        · exact later l u k h
      · exact List.forall_mem_cons.mpr ⟨fun f fault => absurd fault (no f),safe⟩

end Session

/-- Whatever a session that has just started performs fits and is safe, and it never ends in a fault of
scopes. -/
theorem Session.ready_of_start {settings : Settings} {clock : Float} (entries : List Entry) {s : Session}
    (start : Session.start settings clock = .ok s) :
    (∀ l u k, s.Performs entries l u k →
      Copying.Ready (siteUse entries) (s.Opened entries) u k ∧ u.Safe l k) ∧
      ∀ x ∈ s.play entries, ∀ f, x.1.ending = .fault f → f.isScoping = false := by
  have covers : ∀ a ∈ entries, Covers (siteUse entries) a.sites := fun a ha x hx Γ same =>
    ⟨a,ha,x,hx,same,rfl⟩
  have machine := Session.machine_of_start start
  have globals : s.Opened entries ⟨0⟩ .world := (Copying.globals_start machine).symm
  have pair := Copying.pair_start (C := .known (siteUse entries) (s.Opened entries)) globals
    ⟨⟨fun i => by simp [blank],rfl⟩,nofun⟩ machine
  obtain ⟨_,_,-,-,sec⟩ : selfsame.Twins [] s.machine s.machine :=
    start_twins rfl rfl ⟨rfl,secure_empty _⟩ machine machine
  rw [List.append_nil] at sec
  exact Session.ready_of_performs (s.history entries) (fun _ _ _ => id) covers pair sec

/-- Sites are those of a program whose scopes are resolved, with ordinary names. -/
theorem Entry.named_of_mem_sites {a : Entry} {x : Site} (hx : x ∈ a.sites) :
    ∃ p : Program, BodyNamed Ordinary p ∧ x ∈ p.resolve.sites := by
  rw [Entry.sites] at hx
  split at hx
  · next clean =>
    obtain ⟨quiet,-,program⟩ := compile_eq_nil (List.isEmpty_iff.mp clean)
    exact ⟨_,named_of_parse quiet,program ▸ hx⟩
  · cases hx

theorem Entry.depth_of_mem_sites {a : Entry} {x : Site} (hx : x ∈ a.sites) {name : String}
    {depth : Option Nat} (sought : x.2.sought = some (name,depth)) :
    depth = x.1.scopes.depth? name := by
  obtain ⟨p,named,hx⟩ := Entry.named_of_mem_sites hx
  exact (Program.settled_of_mem_sites named x hx).depth name depth sought

/-- A use of a scope that fits is read where it leads to. -/
theorem Expr.Fits.reads {C : Copying} {W : World} {h g : Heap Value} {use : Expr → Prop} {Γ : Context}
    {e : Expr} (fits : e.Fits use Γ) (held : C.heaps W h g) (closed : h.Closed) {r : Ref}
    (provides : W.Provides r Γ) (owned : h.isRegistered r) :
    ∀ p ∈ e.reads, ∃ x, h.lookupAt r p.2 p.1 = .ok x := by
  cases e with
  | var v =>
    obtain ⟨name,depth⟩ := v
    cases depth with
    | none => exact nofun
    | some d =>
      intro p hp
      obtain rfl := List.mem_singleton.mp hp
      exact Copying.lookupAt_eq held closed provides owned fits.2
  | this pos depth =>
    obtain ⟨-,d,rfl,binds⟩ := fits
    intro p hp
    obtain rfl := List.mem_singleton.mp hp
    exact Copying.lookupAt_eq held closed provides owned binds
  | super pos method depth =>
    obtain ⟨-,d,rfl,super,this⟩ := fits
    intro p hp
    simp only [Expr.reads,List.mem_cons,List.not_mem_nil,or_false] at hp
    rcases hp with rfl | rfl
    · exact Copying.lookupAt_eq held closed provides owned super
    · have inner : ((d + 1 : Nat) : Int) - 1 = (d : Nat) := by omega
      rw [inner]
      exact Copying.lookupAt_eq held closed provides owned this
  | _ => exact nofun

theorem Expr.Fits.hasDepth {use : Expr → Prop} {Γ : Context} {e : Expr} (fits : e.Fits use Γ) :
    e.HasDepth := by
  cases e with
  | this pos depth =>
    obtain ⟨-,d,rfl,-⟩ := fits
    rfl
  | super pos method depth =>
    obtain ⟨-,d,rfl,-⟩ := fits
    exact ⟨d,rfl⟩
  | _ => trivial

theorem Expr.Fits.used {use : Expr → Prop} {Γ : Context} {e : Expr} (fits : e.Fits use Γ)
    (sought : e.sought ≠ none) : use e := by
  cases e with
  | var | assign | this | super => exact fits.1
  | _ => exact absurd rfl sought

/-- No run of a session fails because a depth leads astray: at every use of a scope that is evaluated
the environments are those of the scopes that the use was resolved in, and hold what is read. A name
without a depth is in no scope around its use. -/
theorem scopes_in_step (settings : Settings) (clock : Float) (entries : List Entry) {s : Session}
    (start : Session.start settings clock = .ok s) :
    (∀ x ∈ s.play entries, ∀ f, x.1.ending = .fault f → f.isScoping = false) ∧
      (∀ l e k, s.Performs entries l (.evaluate e) k → e.sought ≠ none →
        ∃ Γ, s.InStep entries k e Γ) ∧
      ∀ a ∈ entries, ∀ x ∈ a.sites, ∀ name, x.2.sought = some (name,none) →
        ∀ layer ∈ x.1, name ∉ layer.names := by
  obtain ⟨ready,scoping⟩ := Session.ready_of_start entries start
  refine ⟨scoping,fun l e k performs sought => ?_,fun a ha x hx name absent =>
    Context.not_mem_of_depth?_eq_none (Entry.depth_of_mem_sites hx absent).symm⟩
  obtain ⟨⟨W,Γ,fits,pair⟩,safe⟩ := ready l _ k performs
  have sec := safe.secure
  have owned := sec.owned k.current (mem_roots.mpr (.inr (.inl rfl)))
  obtain ⟨a,ha,⟨Δ,_⟩,hx,same,rfl⟩ := Expr.Fits.used fits sought
  refine ⟨Δ,⟨a,ha,hx⟩,fun i o at_depth => ?_,fun name d depth => ?_,
    Expr.Fits.reads fits pair.heaps sec.closed pair.here owned,fits.hasDepth⟩
  · rw [show Δ.origins = Γ.origins from same] at at_depth
    exact Copying.ancestor_made pair.heaps sec.closed pair.here owned at_depth
  · have found := Entry.depth_of_mem_sites hx depth
    exact ⟨found.symm,Context.binds_depth?.reaches d (Option.mem_def.mpr found.symm)⟩

/-- A method that calls the one it overrides, a function that outlives its block, an assignment in an
initializer and an undefined variable in a loop. -/
def nested : List Entry :=
  [⟨"class A \x7b m() \x7b return this; \x7d \x7d class B < A \x7b m() \x7b return super.m(); \x7d \x7d
var f; \x7b var a = 1; fun g() \x7b return a; \x7d f = g; \x7d print f(); B().m().x = f();","a.lox",90⟩,
    ⟨"\x7b var a = (a = 1); \x7d","b.lox",20⟩,
    ⟨"for (var i = 0; i < 2; i = i + 1) \x7b print f() + b; \x7d","c.lox",40⟩]

theorem scopes_in_step_nested : ∃ s, Session.start {} 0 = .ok s ∧
    (nested.flatMap Entry.sites).length = 15 ∧
    (∀ x ∈ s.play nested, ∀ f, x.1.ending = .fault f → f.isScoping = false) ∧
    ∀ l e k, s.Performs nested l (.evaluate e) k → e.sought ≠ none → ∃ Γ, s.InStep nested k e Γ := by
  obtain ⟨s,start,-⟩ := finite_of_staysFinite {} [] (by decide +kernel)
  obtain ⟨scoping,evaluated,-⟩ := scopes_in_step {} 0 nested start
  exact ⟨s,start,by decide +kernel,scoping,evaluated⟩

end Lox
