import Lox.Proofs.Ast.Unfolded
import Lox.Proofs.Eval.UnfoldedTasks
import Lox.Proofs.Scope.Unfolding
import Lox.Proofs.Scope.Unresolved
import Lox.Proofs.Session.Increments
import Lox.Proofs.Session.Isolation
import Lox.Proofs.Session.Scoping
import Lox.Proofs.Session.Settings

/-! # Unfolded `for` loops in sources

A source in which `for` loops are written out as blocks with `while` loops runs as the original does. Its
runs are compared in three hops: from the session that runs the original to a machine that collects by hand
only, on that machine from the program to the unfolded program, and back to a session. The settings of
collections matter in the outer hops only, the extra environments in the middle one.
-/
namespace Lox
open Machine Exec Comparison Lox.Parser

/-- Two runs end in the same way, with the same output and the same globals. -/
structure SameRun (x y : Outcome × Machine) : Prop where
  outcome : y.1 = x.1
  output : y.2.output = x.2.output
  globals : y.2.globalTexts = x.2.globalTexts

/-! ## On one machine -/

namespace Layout
variable {L M : Layout} {π : Strata} {m k : Machine} {p q : Program} {n n' : Nat}
  {rel : Layout → Unit → Unit → Prop} {x y : Exec Unit}

theorem ends_executeProgram (pair : L.Pair [] m k) (unfolds : BodyUnfolds [] p q) (hn : 8 * m.steps ≤ n)
    (hn' : 24 * m.steps ≤ n') :
    L.Ends [] 0 0 (fun _ _ _ => True) (executeProgram n p) (executeProgram n' q) m k := by
  induction p generalizing q L m k with
  | nil =>
    cases unfolds
    exact .pure pair trivial
  | cons s rest ih =>
    cases unfolds with
    | cons first unfolds =>
      refine ((unrolls n n').execute pair (.unfolds first) hn hn').bind fun M _ _ m k _ pair less _ => ?_
      exact (ih pair unfolds (by omega) (by omega)).adjust (Nat.zero_le 1) (by omega)

theorem Pair.globalTexts_eq (pair : L.Pair π m k) : k.globalTexts = m.globalTexts := by
  obtain ⟨o,p,left,right,matching⟩ := pair.heaps.pairs pair.globals
  simp only [globalTexts,left.object?,right.object?]
  cases matching with
  | @environment xs ys _ _ values =>
    simp only [Bindings.Rel] at values ⊢
    generalize xs.entries = l,ys.entries = l' at values
    induction values with
    | nil => rfl
    | cons both _ ih => simp only [List.mapM_cons,ih,both.1,pair.heaps.inspect_eq both.2]
  | _ => rfl

/-- The steps that are left do not show. -/
theorem Pair.given_right (pair : L.Pair π m k) (steps : Nat) : L.Pair π m (k.given steps) := { pair with }

theorem Pair.sameRun_done (pair : L.Pair π m k) : SameRun (concluded (.ok () m)) (concluded (.ok () k)) :=
  ⟨rfl,pair.output,pair.globalTexts_eq⟩

theorem Pair.sameRun_error (pair : L.Pair π m k) (t : Halt) :
    SameRun (concluded (.error t m)) (concluded (.error t k)) := by
  cases t <;> exact ⟨rfl,pair.output,pair.globalTexts_eq⟩

/-- What ends without a fault of scopes ends in the same way with three times as many steps, and what is cut
is cut with a number of steps up to that, after the same output. -/
theorem Ends.sameRun (ends : L.Ends π 0 0 rel x y m k)
    (sound : ∀ f, (concluded (x m)).1 = .fault f → f.isScoping = false) :
    ((concluded (x m)).1 ≠ .cut → ∀ j, 3 * m.steps ≤ j →
      SameRun (concluded (x m)) (concluded (y (k.given j)))) ∧
    ((concluded (x m)).1 = .cut → ∃ v, m.steps ≤ v ∧ v ≤ 3 * m.steps ∧
      (∀ w ≤ v, (concluded (y (k.given w))).1 = .cut) ∧
      (concluded (y (k.given v))).2.output = (concluded (x m)).2.output) := by
  cases ends with
  | @ok _ _ _ _ _ v left right _ past _ =>
    have paid := past.paid
    rw [left]
    refine ⟨fun _ j more => ?_,nofun⟩
    obtain ⟨i,rfl⟩ := Nat.exists_eq_add_of_le (show v ≤ j by omega)
    rw [right]
    exact (past.pair.given_right i).sameRun_done
  | @error _ s t m' k' v left right _ past near =>
    have paid := past.paid
    rw [left] at sound ⊢
    obtain ⟨same,known⟩ : t = s ∧ (concluded (.error s m')).1 ≠ .cut := by
      cases near with
      | error | fault => exact ⟨rfl,nofun⟩
      | missing => cases sound _ rfl
    subst same
    refine ⟨fun _ j more => ?_,fun h => absurd h known⟩
    obtain ⟨i,rfl⟩ := Nat.exists_eq_add_of_le (show v ≤ j by omega)
    rw [right]
    exact (past.pair.given_right i).sameRun_error t
  | @cut m' k' v left right needs same least paid =>
    rw [left]
    refine ⟨fun h => absurd rfl h,fun _ => ⟨v,least,by omega,fun w less => ?_,?_⟩⟩
    · rcases Nat.lt_or_eq_of_le less with less | rfl
      · obtain ⟨l,e⟩ := needs w less
        rw [e]
        rfl
      · rw [right]
        rfl
    · rw [right]
      exact same

end Layout

/-! ## The first environment -/

theorem has_installNatives {L : Layout} {r : Ref} {fs : List Native} {m k : Machine}
    (has : ∃ values, m.heap.Has r (.environment values none) ∧ values.Rel L.Same values)
    (done : installNatives r fs m = .ok () k) :
    ∃ values, k.heap.Has r (.environment values none) ∧ values.Rel L.Same values := by
  induction fs generalizing m with
  | nil =>
    cases done
    exact has
  | cons f rest ih =>
    obtain ⟨values,has,same⟩ := has
    have read : reading .start (·.environment r) m = .ok (values,none) m := by
      simp only [reading,has.environment]
    simp only [installNatives,Bind.bind,EStateM.bind,read] at done
    split at done
    · have defined : Heap.define r f.name (.native f) m.heap =
          .ok () (m.heap.setObject r (.environment (values.set f.name (.native f)) none)) := by
        simp only [Heap.define,has.environment]
      simp only [EStateM.bind,define,onHeap,defined] at done
      exact ih ⟨_,has.setObject_self _,same.set f.name (.plain rfl)⟩ done
    · exact ih ⟨values,has,same⟩ done

/-- The globals of a machine that has just started hold natives only. -/
theorem has_start (L : Layout) {settings : Settings} {clock : Float} {m : Machine}
    (start : Machine.start settings clock = .ok m) :
    ∃ values, m.heap.Has m.globals (.environment values none) ∧ values.Rel L.Same values := by
  have started := start_eq_ok start
  rw [firstEnvironment_eq] at started
  have secure : Heap.Secure ([] ++ (Object.environment {} none : Object Value).references)
      (blank settings clock).heap := secure_empty _
  rcases secure.place with ⟨h,placed,done⟩ | spoiled
  · rw [placed] at started
    dsimp only at started
    have globals := ((leads_installNatives _ _).ok started).globals
    rw [globals]
    refine has_installNatives ⟨{},?_,.empty⟩ started
    rw [logJournal_eq]
    exact ⟨_,done.cell,rfl,rfl⟩
  · split at started
    · next placed =>
      rw [placed] at spoiled
      exact spoiled.elim
    · cases started

/-- Nothing but the globals. -/
def Layout.world (r : Ref) : Layout where
  paired b s t := b = false ∧ s = r ∧ t = r
  inside _ _ := False
  within _ _ := False

namespace Session

/-- The machine on which a session runs a program, but with a heap that collects by hand only. -/
def manual (s : Session) : Machine := { (Host.byHand s).machine with current := s.machine.globals }

variable {s t : Session} {settings : Settings} {clock : Float} {P : Pos → Pos → Prop} {refl : ∀ p, P p p}

theorem pair_manual (start : Session.start settings clock = .ok s) (steps : Nat) :
    (Layout.world s.machine.globals).Pair [] (s.manual.given steps) s.manual where
  heaps :=
    { left := rfl
      right := rfl
      ordered := by
        rintro _ _ _ _ _ ⟨-,rfl,rfl⟩ ⟨-,rfl,rfl⟩
        rfl
      pairs := by
        rintro _ _ _ ⟨rfl,rfl,rfl⟩
        obtain ⟨values,has,same⟩ := has_start (.world s.machine.globals) (Session.machine_of_start start)
        exact ⟨_,_,has.congr rfl,has.congr rfl,.environment same⟩
      inside := False.elim
      within := False.elim }
  globals := ⟨rfl,rfl,rfl⟩
  here := .nil ⟨rfl,rfl,rfl⟩
  calls := rfl
  level := rfl
  clock := rfl
  output := rfl

theorem twins_manual (twins : (Heap.agreement P refl).Twins [] s.machine t.machine) (steps : Nat)
    (log : List String) : (Heap.agreement P refl).Twins [] (s.manual.given steps)
      { t.machine with current := t.machine.globals, steps, log } := by
  obtain ⟨heap,_,same,agree⟩ := twins.restart steps
  have left := agree.left
  refine ⟨heap,log,?_,⟨⟨left.coherent.congr rfl rfl,left.closed,left.owned⟩,agree.right,agree.size,
    agree.nextSlot,agree.cells⟩⟩
  have same : { t.machine with current := t.machine.globals, steps, log } =
      { s.machine with current := s.machine.globals, steps, heap, log } :=
    congrArg (fun m : Machine => { m with log }) same
  exact same

/-- A session runs a source as its program runs on the machine that collects by hand, unless it breaks off at a
threshold. -/
theorem run_of_manual (twins : (Heap.agreement P refl).Twins [] s.machine t.machine) {source file : String}
    (clean : (compile source).errors = []) {p : Program} (like : BodyAlike P p (compile source).program)
    {n steps : Nat} (enough : 8 * steps ≤ n) (unstrained : ¬Session.Strained (t.run source file steps)) :
    ∃ o, (t.run source file steps).1 = .ofOutcome (some file) o ∧
      (Heap.agreement P refl).Outcomes (concluded (executeProgram n p (s.manual.given steps))).1 o ∧
      (t.run source file steps).2.machine.output =
        (concluded (executeProgram n p (s.manual.given steps))).2.output ∧
      (t.run source file steps).2.machine.globalTexts =
        (concluded (executeProgram n p (s.manual.given steps))).2.globalTexts := by
  obtain ⟨_,log,rfl,ending,machine⟩ := t.run_eq source file steps
  rw [clean,List.isEmpty_nil,if_pos rfl] at ending machine
  obtain ⟨log',ran⟩ := run_eq_concluded steps (compile source).program { t.machine with log }
  rw [ran] at ending machine
  have bound : 8 * steps ≤ nesting steps := by
    simp only [nesting]
    omega
  rcases concluded_ends (ends_executeProgram like enough bound (twins_manual twins steps log')) with
    ⟨outcomes,twins⟩ | ⟨-,strained | strained⟩
  · rw [machine]
    exact ⟨_,ending,outcomes,output_eq twins,globalTexts_eq twins⟩
  · exact absurd strained (not_strained_concluded (m := s.manual.given steps) rfl n p)
  · obtain ⟨e,broken,grown⟩ := strained
    rw [broken] at ending
    exact absurd ⟨e,ending,machine ▸ grown⟩ unstrained

/-- Two runs of sources show the same, up to the position of a runtime error. -/
structure ShowsAlike (x y : Ending × Session) : Prop where
  ending : Ending.Alike Anywhere x.1 y.1
  output : y.2.machine.output = x.2.machine.output
  globals : y.2.machine.globalTexts = x.2.machine.globalTexts

end Session

/-! ## Sources -/

/-- A source without syntax errors is read as a program without depths. -/
theorem unresolved_of_parse {source : String} (quiet : (parse source).errors = []) :
    (parse source).program.unresolved = (parse source).program := by
  obtain ⟨silent,t,e,done⟩ := whole_of_parse quiet
  obtain ⟨words,grammatical⟩ := words_whole (ended_scan source) (spelled_scan source) e done
  obtain ⟨-,like⟩ := parse_of_words grammatical silent words
  exact BodyAlike.unresolved_eq _ like

/-- The source of an unfolded program compiles, up to positions, to an unfolding of the compiled program. -/
theorem compile_unfolded {a b : String} {q : Program} (clean : (compile a).errors = [])
    (unfolds : BodyUnfolds [] (parse a).program q) (silent : (scan b).errors = [])
    (words : (scan b).tokens.map Token.word = q.words ++ [.fixed .eof]) :
    (compile b).errors = [] ∧ BodyUnfolds [] (compile a).program q.resolve ∧
      BodyAlike Anywhere q.resolve (compile b).program := by
  obtain ⟨quiet,sound,program⟩ := compile_eq_nil clean
  have named := named_of_parse quiet
  obtain ⟨quiet',like⟩ := parse_of_words (unfolds.grammatical (spells_of_parse quiet).1) silent words
  have surroundings : Surroundings.Spreads [] {} {} := ⟨.nil,rfl,rfl,rfl,rfl⟩
  have errors : q.unresolved.scopeErrors = [] := by
    rw [Program.scopeErrors_unresolved]
    exact (unfolds.scopeErrors named surroundings).trans sound
  have errors : (compile b).errors = [] := by
    have none : (parse b).program.scopeErrors = [] := (BodyAlike.blockErrors {} like).eq_nil errors
    simp [compile,quiet',none]
  have like : BodyAlike Anywhere q.unresolved.resolve (parse b).program.resolve := BodyAlike.resolve [] like
  rw [Program.resolve_unresolved,← (compile_eq_nil errors).2.2] at like
  rw [program]
  exact ⟨errors,unfolds.resolve named .nil,like⟩

deriving instance DecidableEq for Token.Literal
deriving instance DecidableEq for Word

theorem Session.not_strained_of_play {s : Session} {e : Entry}
    (finite : ∀ x ∈ s.play [e], x.2.machine.heap.Finite) : ¬Session.Strained (s.run e.source e.file e.steps) := by
  rw [Session.play,List.forall_mem_cons] at finite
  exact Session.not_strained finite.1

/-- `for` loops whose bodies have no `continue` of their own may be written out, whichever they are. A source
that reads as the program in which they are has no static errors either. It prints the same, ends in the same
way and leaves the same globals as the original does if it is given three times as many steps, and it does not
end if the original does not. The sessions may collect at different times, unless one of them breaks off because
its next threshold is no integer. -/
theorem unfolding_invisible {a b : String} (clean : (compile a).errors = []) (pick : Pos → Bool)
    (silent : (scan b).errors = [])
    (words : (scan b).tokens.map Token.word = ((parse a).program.unfolded pick).words ++ [.fixed .eof]) :
    (compile b).errors = [] ∧
    ∀ (settings : Settings) (threshold : Nat) (growth : Float) (stress : Bool) (clock : Float) (s t : Session),
      Session.start settings clock = .ok s →
      Session.start { settings with threshold, growth, stress } clock = .ok t →
      ∀ (file : String) (steps : Nat), ¬Session.Strained (s.run a file steps) →
        ((s.run a file steps).1 ≠ .cut → ∀ more, 3 * steps ≤ more → ¬Session.Strained (t.run b file more) →
          Session.ShowsAlike (s.run a file steps) (t.run b file more)) ∧
        ((s.run a file steps).1 = .cut → ∃ more, steps ≤ more ∧ more ≤ 3 * steps ∧
          (∀ fewer ≤ more, ¬Session.Strained (t.run b file fewer) → (t.run b file fewer).1 = .cut) ∧
          (¬Session.Strained (t.run b file more) →
            (t.run b file more).2.machine.output = (s.run a file steps).2.machine.output)) := by
  obtain ⟨quiet,-⟩ := compile_eq_nil clean
  have unfolds := Program.unfolds_unfolded pick (spells_of_parse quiet).1 (unresolved_of_parse quiet)
  obtain ⟨errors,unfolded,like⟩ := compile_unfolded clean unfolds silent words
  refine ⟨errors,fun settings threshold growth stress clock s t hs ht file steps unstrained => ?_⟩
  have start := Session.machine_of_start hs
  have left : agreeing.Twins [] s.machine s.machine := start_twins rfl rfl (agree_empty _ _) start start
  have right : (Heap.agreement Anywhere fun _ => trivial).Twins [] s.machine t.machine := by
    refine start_twins ?_ ?_ (agreement_empty _ _ _) start (Session.machine_of_start ht) <;> rfl
  have bound : 8 * steps ≤ nesting steps := by
    simp only [nesting]
    omega
  obtain ⟨o,ending,outcomes,output,globals⟩ :=
    Session.run_of_manual left clean (.refl (fun _ => rfl) _) bound unstrained
  obtain rfl := outcomes.eq
  have sound : ∀ f, (concluded (executeProgram (nesting steps) (compile a).program (s.manual.given steps))).1 =
      .fault f → f.isScoping = false := by
    intro f fault
    obtain ⟨-,never⟩ := Session.ready_of_start [⟨a,file,steps⟩] hs
    refine never _ (List.mem_singleton_self _) f ?_
    exact ending.trans (congrArg (Session.Ending.ofOutcome (some file)) fault)
  have ends (n : Nat) (enough : 24 * steps ≤ n) :=
    (Layout.ends_executeProgram (Session.pair_manual hs steps) unfolded bound enough).sameRun sound
  have cut_iff {o : Outcome} : Session.Ending.ofOutcome (some file) o = .cut ↔ o = .cut := by
    cases o <;> simp [Session.Ending.ofOutcome]
  rw [ending,output,ne_eq,cut_iff]
  constructor
  · intro finishes more enough unstrained'
    have same := (ends (24 * steps + 8 * more) (by omega)).1 finishes more enough
    obtain ⟨o,ending',outcomes',output',globals'⟩ :=
      Session.run_of_manual right errors like (Nat.le_add_left (8 * more) (24 * steps)) unstrained'
    rw [same.outcome] at outcomes'
    refine ⟨?_,?_,?_⟩
    · rw [ending,ending']
      exact outcomes'.alike (some file)
    · rw [output',output,same.output]
    · rw [globals',globals,same.globals]
  · intro broken
    obtain ⟨more,least,(most : more ≤ 3 * steps),cut,same⟩ := (ends (24 * steps) (Nat.le_refl _)).2 broken
    refine ⟨more,least,most,fun fewer less unstrained' => ?_,fun unstrained' => ?_⟩
    · obtain ⟨o,ending',outcomes',-⟩ :=
        Session.run_of_manual right errors like (show 8 * fewer ≤ 24 * steps by omega) unstrained'
      rw [cut fewer less] at outcomes'
      cases outcomes'
      exact ending'
    · obtain ⟨o,-,-,output',-⟩ :=
        Session.run_of_manual right errors like (show 8 * more ≤ 24 * steps by omega) unstrained'
      exact output'.trans same

/-- A loop that is left in its second round, and a loop without clauses that fails. -/
def twoLoops : String := "for (var i;; i = 1) \x7b print i; if (i) break; \x7d for (;;) nil.x;"

def twoLoopsWrittenOut : String :=
  "\x7b var i; while (true) \x7b \x7b print i; if (i) break; \x7d i = 1; \x7d \x7d \x7b while (true) \x7b nil.x; \x7d \x7d"

theorem unfolding_invisible_twoLoops : ∃ s t, Session.start {} 0 = .ok s ∧
    Session.start { threshold := 1, growth := 2, stress := true } 0 = .ok t ∧
    (compile twoLoopsWrittenOut).errors = [] ∧ (s.run twoLoops "" 25).1 ≠ .cut ∧
    Session.ShowsAlike (s.run twoLoops "" 25) (t.run twoLoopsWrittenOut "" 75) := by
  obtain ⟨s,hs,fs⟩ := finite_of_staysFinite {} [⟨twoLoops,"",25⟩] (by decide +kernel)
  obtain ⟨t,ht,ft⟩ := finite_of_staysFinite { threshold := 1, growth := 2, stress := true }
    [⟨twoLoopsWrittenOut,"",75⟩] (by decide +kernel)
  have tested : (Session.start {} 0).toOption.map (fun s => decide ((s.run twoLoops "" 25).1 ≠ .cut)) =
      some true := by decide +kernel
  rw [hs] at tested
  have finishes := of_decide_eq_true (Option.some.inj tested)
  have clean : (compile twoLoops).errors = [] := by decide +kernel
  have silent : (scan twoLoopsWrittenOut).errors = [] := by decide +kernel
  have words : (scan twoLoopsWrittenOut).tokens.map Token.word =
      ((parse twoLoops).program.unfolded fun _ => true).words ++ [.fixed .eof] := by decide +kernel
  obtain ⟨clean,same⟩ := unfolding_invisible clean (fun _ => true) silent words
  have fs := Session.not_strained_of_play fs
  have ft := Session.not_strained_of_play ft
  have ran := (same {} 1 2 true 0 s t hs ht "" 25 fs).1 finishes 75 (by decide) ft
  exact ⟨s,t,hs,ht,clean,finishes,ran⟩

/-- A loop that makes no objects in its rounds, unless it is written out. -/
def counting : String := "for (var i = 0; i < 5; i = i + 1) print i;"

def countingWrittenOut : String := "\x7b var i = 0; while (i < 5) \x7b print i; i = i + 1; \x7d \x7d"

/-- A growth factor that is no number is accepted. The loop that is written out is the one that comes to a
collection, and breaks off on it. -/
theorem written_out_loop_breaks_off : (compile counting).errors = [] ∧ (scan countingWrittenOut).errors = [] ∧
    (scan countingWrittenOut).tokens.map Token.word =
      ((parse counting).program.unfolded fun _ => true).words ++ [.fixed .eof] ∧
    ∃ settings : Settings, settings.Accepted ∧ ∃ s, Session.start settings 0 = .ok s ∧
      (s.run counting "" 100).1 = .result {} ∧
      (s.run countingWrittenOut "" 300).1 = .fault (.threshold .nan) := by
  refine ⟨by decide +kernel,by decide +kernel,by decide +kernel,?_⟩
  let values := [("gc_growth_factor",Json.string "nan"),("gc_initial_threshold",Json.string "3")]
  have tested : (Settings.setAll {} values).toOption.bind (fun settings =>
      (Session.start settings 0).toOption.map fun s =>
        ((s.run counting "" 100).1,(s.run countingWrittenOut "" 300).1)) =
      some (.result {},.fault (.threshold .nan)) := by decide +kernel
  cases set : Settings.setAll {} values with
  | error e =>
    rw [set] at tested
    cases tested
  | ok settings =>
    rw [set] at tested
    obtain ⟨s,started,endings⟩ := Option.map_eq_some_iff.mp tested
    obtain ⟨ends,breaks⟩ := Prod.mk.inj endings
    refine ⟨settings,⟨values,set⟩,s,?_,ends,breaks⟩
    cases start : Session.start settings 0 with
    | error e =>
      rw [start] at started
      cases started
    | ok t =>
      rw [start] at started
      exact congrArg Except.ok (Option.some.inj started)

end Lox
