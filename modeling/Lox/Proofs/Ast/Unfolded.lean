import Lox.Ast.Unresolved
import Lox.Proofs.Ast.Likeness
import Lox.Proofs.Ast.Unfolding

/-! # Programs with unfolded `for` loops

The loops of a program can be picked by where they stand, and those whose bodies have no `continue` of their
own are then written out. A source is read as a program without depths, and writing out its loops gives an
unfolded program.
-/
namespace Lox

/-! ## Writing out loops -/

section
variable (pick : Pos → Bool)

/-- The clauses and the body of a `for` as a block with a `while` loop. -/
def writeOut (pos : Pos) (init : Option Stmt) (condition : Expr) (body : Stmt) (increment : Option Expr) : Stmt :=
  .block pos .plain (init.toList ++
    [.loop pos .plain condition.orTrue (.block pos .plain (body :: (increment.map Stmt.expression).toList)) none])

mutual

/-- The statement in which the `for` loops that are picked are written out, unless their bodies have a
`continue` of their own. -/
def Stmt.unfolded : Stmt → Stmt
  | .block pos .plain body => .block pos .plain (unfoldedAll body)
  | .block pos .clauses body => unfoldedClauses pos body
  | .branch pos condition yes none => .branch pos condition yes.unfolded none
  | .branch pos condition yes (some no) => .branch pos condition yes.unfolded (some no.unfolded)
  | .loop pos .plain condition body increment => .loop pos .plain condition body.unfolded increment
  | .loop pos .clauses condition body increment =>
    if pick pos && !body.continues then writeOut pos none condition body.unfolded increment
    else .loop pos .clauses condition body.unfolded increment
  | .function r => .function r.unfolded
  | .klass name superclass methods => .klass name superclass (unfoldedMethods methods)
  | s => s
termination_by structural s => s

def unfoldedClauses (pos : Pos) : List Stmt → Stmt
  | [init,.loop pos' .clauses condition body increment] =>
    if pick pos && !body.continues then writeOut pos (some init.unfolded) condition body.unfolded increment
    else .block pos .clauses [init.unfolded,.loop pos' .clauses condition body.unfolded increment]
  | body => .block pos .clauses body
termination_by structural ss => ss

def Routine.unfolded : Routine → Routine
  | ⟨name,params,body⟩ => ⟨name,params,unfoldedAll body⟩
termination_by structural r => r

def unfoldedAll : List Stmt → List Stmt
  | [] => []
  | s :: rest => s.unfolded :: unfoldedAll rest
termination_by structural ss => ss

def unfoldedMethods : List Routine → List Routine
  | [] => []
  | r :: rest => r.unfolded :: unfoldedMethods rest
termination_by structural rs => rs

end

def Program.unfolded (p : Program) : Program := unfoldedAll pick p

end

/-! ## Trees without depths -/

section
variable {P : Pos → Pos → Prop}

theorem Reference.Alike.unresolved_eq {r s : Reference} (like : Reference.Alike P r.unresolved s) :
    s.unresolved = s := by
  obtain ⟨name,depth⟩ := s
  exact congrArg (Reference.mk name) like.depth

mutual

theorem Expr.Alike.unresolved_eq : ∀ (e : Expr) {d : Expr}, Expr.Alike P e.unresolved d → d.unresolved = d
  | .literal _ _, _, .literal _ => rfl
  | .grouping _ e, _, .grouping _ like => congrArg (Expr.grouping _) (Expr.Alike.unresolved_eq e like)
  | .var _, _, .var like => congrArg Expr.var like.unresolved_eq
  | .assign _ e, _, .assign target like => congrArg₂ Expr.assign target.unresolved_eq (Expr.Alike.unresolved_eq e like)
  | .unary _ _ e, _, .unary _ like => congrArg (Expr.unary _ _) (Expr.Alike.unresolved_eq e like)
  | .binary d _ _ e, _, .binary left _ right =>
    congrArg₂ (Expr.binary · _ _ ·) (Expr.Alike.unresolved_eq d left) (Expr.Alike.unresolved_eq e right)
  | .logical d _ _ e, _, .logical left _ right =>
    congrArg₂ (Expr.logical · _ _ ·) (Expr.Alike.unresolved_eq d left) (Expr.Alike.unresolved_eq e right)
  | .call e _ es, _, .call like _ likes =>
    congrArg₂ (Expr.call · _ ·) (Expr.Alike.unresolved_eq e like) (ArgumentsAlike.unresolved_eq es likes)
  | .get e _, _, .get like _ => congrArg (Expr.get · _) (Expr.Alike.unresolved_eq e like)
  | .set d _ e, _, .set object _ value =>
    congrArg₂ (Expr.set · _ ·) (Expr.Alike.unresolved_eq d object) (Expr.Alike.unresolved_eq e value)
  | .this _ _, _, .this _ => rfl
  | .super _ _ _, _, .super _ _ => rfl

theorem ArgumentsAlike.unresolved_eq : ∀ (es : List Expr) {ds : List Expr},
    ArgumentsAlike P (unresolvedArguments es) ds → unresolvedArguments ds = ds
  | [], _, .nil => rfl
  | e :: es, _, .cons like likes =>
    congrArg₂ List.cons (Expr.Alike.unresolved_eq e like) (ArgumentsAlike.unresolved_eq es likes)

end

theorem Expr.Alike.unresolved_map_eq {e d : Option Expr}
    (like : Option.Rel (Expr.Alike P) (e.map Expr.unresolved) d) : d.map Expr.unresolved = d := by
  cases e with
  | none => cases like; rfl
  | some e =>
    cases like with
    | some like => exact congrArg some (Expr.Alike.unresolved_eq e like)

mutual

theorem Stmt.Alike.unresolved_eq : ∀ (s : Stmt) {t : Stmt}, Stmt.Alike P s.unresolved t → t.unresolved = t
  | .expression e, _, .expression like => congrArg Stmt.expression (Expr.Alike.unresolved_eq e like)
  | .print _ e, _, .print _ like => congrArg (Stmt.print _) (Expr.Alike.unresolved_eq e like)
  | .var _ _, _, .var _ like => congrArg (Stmt.var _) (Expr.Alike.unresolved_map_eq like)
  | .block _ _ body, _, .block _ like => congrArg (Stmt.block _ _) (BodyAlike.unresolved_eq body like)
  | .branch _ c s none, _, .branch _ condition yes =>
    congrArg₂ (Stmt.branch _ · · none) (Expr.Alike.unresolved_eq c condition) (Stmt.Alike.unresolved_eq s yes)
  | .branch _ c s (some s'), _, .branchElse _ condition yes no => by
    rw [Stmt.unresolved,Expr.Alike.unresolved_eq c condition,Stmt.Alike.unresolved_eq s yes,
      Stmt.Alike.unresolved_eq s' no]
  | .loop _ _ c s _, _, .loop _ condition body increment => by
    rw [Stmt.unresolved,Expr.Alike.unresolved_eq c condition,Stmt.Alike.unresolved_eq s body,
      Expr.Alike.unresolved_map_eq increment]
  | .jump _ _, _, .jump _ => rfl
  | .function r, _, .function like => congrArg Stmt.function (RoutineAlike.unresolved_eq r like)
  | .leave _ _, _, .leave _ like => congrArg (Stmt.leave _) (Expr.Alike.unresolved_map_eq like)
  | .klass _ b rs, _, .klass _ base likes => by
    have same := RoutinesAlike.unresolved_eq rs likes
    cases b with
    | none =>
      cases base
      rw [Stmt.unresolved,same]
      rfl
    | some _ =>
      cases base with
      | some base =>
        rw [Stmt.unresolved,same,Option.map_some,base.unresolved_eq]

theorem RoutineAlike.unresolved_eq : ∀ (r : Routine) {s : Routine}, RoutineAlike P r.unresolved s → s.unresolved = s
  | ⟨_,_,body⟩, _, .mk _ _ like => congrArg (Routine.mk _ _) (BodyAlike.unresolved_eq body like)

theorem BodyAlike.unresolved_eq : ∀ (ss : List Stmt) {ts : List Stmt}, BodyAlike P (unresolvedAll ss) ts →
    unresolvedAll ts = ts
  | [], _, .nil => rfl
  | s :: ss, _, .cons like likes =>
    congrArg₂ List.cons (Stmt.Alike.unresolved_eq s like) (BodyAlike.unresolved_eq ss likes)

theorem RoutinesAlike.unresolved_eq : ∀ (rs : List Routine) {ss : List Routine},
    RoutinesAlike P (unresolvedMethods rs) ss → unresolvedMethods ss = ss
  | [], _, .nil => rfl
  | r :: rs, _, .cons like likes =>
    congrArg₂ List.cons (RoutineAlike.unresolved_eq r like) (RoutinesAlike.unresolved_eq rs likes)

end

end

/-! ## Loops that are written out -/

section
variable {π : Strata}

theorem Reference.deepens_unresolved (r : Reference) : r.unresolved.Deepens π r.unresolved := ⟨rfl,.none⟩

mutual

theorem Expr.deepens_unresolved : (e : Expr) → e.unresolved.Deepens π e.unresolved
  | .literal _ _ => .literal
  | .grouping _ e => .grouping e.deepens_unresolved
  | .var r => .var r.deepens_unresolved
  | .assign r e => .assign r.deepens_unresolved e.deepens_unresolved
  | .unary _ _ e => .unary e.deepens_unresolved
  | .binary d _ _ e => .binary d.deepens_unresolved e.deepens_unresolved
  | .logical d _ _ e => .logical d.deepens_unresolved e.deepens_unresolved
  | .call e _ es => .call e.deepens_unresolved (argumentsDeepen_unresolved es)
  | .get e _ => .get e.deepens_unresolved
  | .set d _ e => .set d.deepens_unresolved e.deepens_unresolved
  | .this _ _ => .this .none
  | .super _ _ _ => .super .none

theorem argumentsDeepen_unresolved : (es : List Expr) →
    ArgumentsDeepen π (unresolvedArguments es) (unresolvedArguments es)
  | [] => .nil
  | e :: es => .cons e.deepens_unresolved (argumentsDeepen_unresolved es)

end

theorem Expr.deepens_map_unresolved : (e : Option Expr) →
    Option.Rel (Expr.Deepens π) (e.map Expr.unresolved) (e.map Expr.unresolved)
  | none => .none
  | some e => .some e.deepens_unresolved

theorem Expr.deepens_orTrue_unresolved (e : Expr) : e.unresolved.orTrue.Deepens π e.unresolved.orTrue := by
  have plain : e.unresolved.Deepens π e.unresolved := e.deepens_unresolved
  cases e with
  | literal c p => cases c <;> exact .literal
  | _ => exact plain

variable (pick : Pos → Bool)

mutual

theorem Stmt.unfolds_unfolded : ∀ {π : Strata} (s : Stmt), s.Grammatical → (s.IsDeclaration → π.Own) →
    s.unresolved.Unfolds π (s.unresolved.unfolded pick)
  | _, .expression e, _, _ => .expression e.deepens_unresolved
  | _, .print _ e, _, _ => .print e.deepens_unresolved
  | _, .var _ init, _, own => .var (own trivial) (Expr.deepens_map_unresolved init)
  | _, .block _ .plain body, h, _ => .block (unfold_unfoldedAll body h trivial)
  | _, .block pos .clauses body, h, _ => unfolds_unfoldedClauses pos body h
  | _, .branch _ c yes none, h, _ =>
    .branch c.deepens_unresolved (yes.unfolds_unfolded h.2.1 fun declares => absurd declares h.2.2)
  | _, .branch _ c yes (some no), h, _ =>
    .branchElse c.deepens_unresolved (yes.unfolds_unfolded h.2.1 fun declares => absurd declares h.2.2.1)
      (no.unfolds_unfolded h.2.2.2.2.1 fun declares => absurd declares h.2.2.2.2.2)
  | _, .loop _ .plain c body i, h, _ =>
    .loop c.deepens_unresolved (body.unfolds_unfolded h.2.1 fun declares => absurd declares h.2.2.1)
      (Expr.deepens_map_unresolved i)
  | _, .loop _ .clauses c body i, h, _ => by
    have inner {π : Strata} : body.unresolved.Unfolds π (body.unresolved.unfolded pick) :=
      body.unfolds_unfolded h.2.1 fun declares => absurd declares h.2.2.1
    rw [Stmt.unresolved,Stmt.unfolded]
    split
    · next chosen =>
      simp only [Bool.and_eq_true,Bool.not_eq_true'] at chosen
      exact .bare (.mk c.deepens_orTrue_unresolved chosen.2 inner (Expr.deepens_map_unresolved i))
    · exact .loop c.deepens_unresolved inner (Expr.deepens_map_unresolved i)
  | _, .jump _ _, _, _ => .jump
  | _, .function r, h, own => .function (own trivial) (r.unfolds_unfolded h)
  | _, .leave _ value, _, _ => .leave (Expr.deepens_map_unresolved value)
  | _, .klass _ none methods, h, own => .klass (own trivial) .none (unfold_unfoldedMethods methods h)
  | _, .klass _ (some b) methods, h, own =>
    .klass (own trivial) (.some b.deepens_unresolved) (unfold_unfoldedMethods methods h)

theorem unfolds_unfoldedClauses : ∀ {π : Strata} (pos : Pos) (ss : List Stmt), GrammaticalClauses ss →
    Stmt.Unfolds π (.block pos .clauses (unresolvedAll ss)) (unfoldedClauses pick pos (unresolvedAll ss))
  | _, _, [init,.loop _ .clauses c body i], h => by
    obtain ⟨first,-,-,there,alone,-⟩ := h
    have start {π : Strata} : init.unresolved.Unfolds (.shared :: π) (init.unresolved.unfolded pick) :=
      init.unfolds_unfolded first fun _ => trivial
    have inner {π : Strata} : body.unresolved.Unfolds π (body.unresolved.unfolded pick) :=
      body.unfolds_unfolded there fun declares => absurd declares alone
    simp only [unresolvedAll,Stmt.unresolved,unfoldedClauses]
    split
    · next chosen =>
      simp only [Bool.and_eq_true,Bool.not_eq_true'] at chosen
      exact .initial start (.mk c.deepens_orTrue_unresolved chosen.2 inner (Expr.deepens_map_unresolved i))
    · exact .clauses start c.deepens_unresolved inner (Expr.deepens_map_unresolved i)

theorem Routine.unfolds_unfolded : ∀ {π : Strata} (r : Routine), r.Grammatical →
    RoutineUnfolds π r.unresolved (r.unresolved.unfolded pick)
  | _, ⟨_,_,body⟩, h => .mk (unfold_unfoldedAll body h.2 trivial)

theorem unfold_unfoldedAll : ∀ {π : Strata} (ss : List Stmt), GrammaticalList ss → π.Own →
    BodyUnfolds π (unresolvedAll ss) (unfoldedAll pick (unresolvedAll ss))
  | _, [], _, _ => .nil
  | _, s :: ss, h, own => .cons (s.unfolds_unfolded h.1 fun _ => own) (unfold_unfoldedAll ss h.2 own)

theorem unfold_unfoldedMethods : ∀ {π : Strata} (rs : List Routine), GrammaticalMethods rs →
    RoutinesUnfold π (unresolvedMethods rs) (unfoldedMethods pick (unresolvedMethods rs))
  | _, [], _ => .nil
  | _, r :: rs, h => .cons (r.unfolds_unfolded h.1) (unfold_unfoldedMethods rs h.2)

end

/-- Writing out loops of a program without depths gives an unfolded program. -/
theorem Program.unfolds_unfolded {p : Program} (grammatical : p.Grammatical) (plain : p.unresolved = p) :
    BodyUnfolds [] p (p.unfolded pick) := by
  have unfolds : BodyUnfolds [] p.unresolved (p.unresolved.unfolded pick) :=
    unfold_unfoldedAll pick p grammatical trivial
  rwa [plain] at unfolds

end
end Lox
