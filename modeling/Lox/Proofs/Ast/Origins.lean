import Lox.Proofs.Ast.Statements
import Lox.Proofs.Scope.Likeness
import Lox.Session

/-! # Origins of positions

Whatever position a program or one of its errors has, it is the position of a token. A parser makes up
no position: what it returns and what it reports stands where tokens stand that were ahead of it. There
is one rule for each way to put parsers together. Resolution keeps positions, and errors of scope are
where the names are that they are about.
-/
namespace Lox

namespace Parser

section
variable (S : Pos → Prop)

/-- The tokens ahead of a parser and its errors stand at positions in a set. -/
structure State.Within (s : State) : Prop where
  ahead : s.rest ≠ []
  tokens : ∀ t ∈ s.rest, S t.pos
  errors : ∀ d ∈ s.errors, S d.pos

/-- What is left of a parser that stayed within a set of positions. -/
inductive Stayed {α : Type} (Q : α → Prop) : EStateM.Result Abort State α → Prop
  | ok {a s} : Q a → s.Within S → Stayed Q (.ok a s)
  | error {e s} : s.Within S → Stayed Q (.error e s)

/-- A parser stays within a set of positions, and so does what it returns. -/
def Stays {α : Type} (x : Parser α) (Q : α → Prop) : Prop := ∀ s, s.Within S → Stayed S Q (x s)

end

section
variable {S : Pos → Prop} {α β : Type} {Q : α → Prop} {R : β → Prop}

/-! ## Putting parsers together -/

theorem Stays.pure {a : α} (h : Q a) : Stays S (pure a) Q := fun _ within => .ok h within

theorem Stays.bind {x : Parser α} {f : α → Parser β} (hx : Stays S x Q)
    (hf : ∀ a, Q a → Stays S (f a) R) : Stays S (x >>= f) R := by
  intro s within
  have first := hx s within
  simp only [Bind.bind,EStateM.bind]
  cases e : x s with
  | error _ _ =>
    rw [e] at first
    cases first with
    | error within => exact .error within
  | ok a t =>
    rw [e] at first
    cases first with
    | ok ha within => exact hf a ha t within

theorem Stays.map {x : Parser α} {f : α → β} (hx : Stays S x Q) (hf : ∀ a, Q a → R (f a)) :
    Stays S (f <$> x) R := by
  rw [map_eq_pure_bind]
  exact hx.bind fun a ha => .pure (hf a ha)

theorem Stays.ite {c : Prop} [Decidable c] {x y : Parser α} (hx : Stays S x Q) (hy : Stays S y Q) :
    Stays S (if c then x else y) Q := by
  split
  · exact hx
  · exact hy

theorem stays_abort : Stays S (abort : Parser α) Q := fun _ within => .error within

/-! ## Single operations -/

theorem State.Within.peek {s : State} (within : s.Within S) : S s.peek.pos := by
  obtain ⟨t,ts,e⟩ := List.exists_cons_of_ne_nil within.ahead
  have first : s.peek = t := by rw [State.peek,e,List.headD_cons]
  rw [first]
  exact within.tokens t (e ▸ List.mem_cons_self)

theorem State.Within.advance {s : State} (within : s.Within S) :
    s.advance.Within S ∧ S s.advance.last.pos := by
  obtain ⟨ahead,tokens,errors⟩ := within
  match e : s.rest with
  | [] => exact absurd e ahead
  | [t] =>
    have moved : s.advance = { s with last := t } := by simp only [State.advance,e]
    rw [moved]
    exact ⟨⟨ahead,tokens,errors⟩,tokens t (e ▸ List.mem_cons_self)⟩
  | t :: u :: ts =>
    rw [rest_advance e]
    rw [e] at tokens
    exact ⟨⟨List.cons_ne_nil u ts,fun v hv => tokens v (List.mem_cons_of_mem t hv),errors⟩,
      tokens t List.mem_cons_self⟩

theorem stays_peek : Stays S peek fun t => S t.pos := fun _ within => .ok within.peek within

theorem stays_advance : Stays S advance fun t => S t.pos := fun _ within =>
  .ok within.advance.2 within.advance.1

theorem stays_atKind (k : Token.Kind) : Stays S (atKind k) fun _ => True := fun _ within =>
  .ok trivial within

theorem stays_report {t : Token} (pos : S t.pos) (e : ParseError) :
    Stays S (report t e) fun _ => True := fun _ within =>
  .ok trivial ⟨within.ahead,within.tokens,List.forall_mem_cons.mpr ⟨pos,within.errors⟩⟩

theorem stays_fail {t : Token} (pos : S t.pos) (e : ParseError) : Stays S (fail t e : Parser α) Q :=
  (stays_report pos e).bind fun _ _ => stays_abort

theorem stays_expect (k : Token.Kind) (e : ParseError) : Stays S (expect k e) fun t => S t.pos :=
  stays_peek.bind fun _ pos => .ite stays_advance (stays_fail pos e)

theorem stays_expectName (e : ParseError) : Stays S (expectName e) (Name.Within S) :=
  (stays_expect .identifier e).bind fun _ pos => .pure ⟨rfl,pos⟩

/-- Giving up a declaration skips tokens and keeps the errors. -/
theorem Stays.recovering {p : Parser Stmt} (hp : Stays S p (Stmt.Within S)) :
    Stays S (recovering p) fun o => ∀ s ∈ o, s.Within S := by
  intro s within
  have tried : Stays S (some <$> p) fun o => ∀ s ∈ o, s.Within S :=
    hp.map fun a ha b hb => Option.some.inj hb ▸ ha
  have first := tried s within
  simp only [Parser.recovering,tryCatch,tryCatchThe,MonadExceptOf.tryCatch,EStateM.tryCatch]
  cases e : (some <$> p) s with
  | ok a t =>
    rw [e] at first
    exact first
  | error _ t =>
    rw [e] at first
    cases first with
    | error within =>
      have suffix := skip_suffix t.last t.rest
      exact .ok (fun _ none => (by cases none)) ⟨skip_ne_nil t.last within.ahead,
        fun u hu => within.tokens u (suffix.subset hu),within.errors⟩

/-! ## Expressions -/

theorem stays_assignment {equals : Token} {left value : Expr} (pos : S equals.pos)
    (hl : left.Within S) (hv : value.Within S) :
    Stays S (assignment equals left value) (Expr.Within S) := by
  cases hl with
  | var target => exact .pure (.assign target hv)
  | get object name => exact .pure (.set object name hv)
  | _ => exact (stays_report pos _).bind fun _ _ => .pure (by constructor <;> assumption)

variable (S) in
/-- The parsers of expressions stay within a set of positions. -/
structure ExpressionsStay (n : Nat) : Prop where
  expression (lower : Nat) : Stays S (expression n lower) (Expr.Within S)
  operand : Stays S (operand n) (Expr.Within S)
  operators (lower : Nat) {left : Expr} : left.Within S →
    Stays S (operators n lower left) (Expr.Within S)
  extend {t : Token} {left : Expr} : S t.pos → left.Within S → Stays S (extend n t left) (Expr.Within S)
  arguments (count : Nat) : Stays S (arguments n count) (ArgumentsWithin S)

namespace ExpressionsStay
variable {n : Nat} (h : ExpressionsStay S n)
include h

theorem operand_succ : Stays S (Parser.operand (n + 1)) (Expr.Within S) := by
  rw [Parser.operand]
  refine stays_advance.bind fun t pos => ?_
  split
  · exact .pure (.var ⟨⟨rfl,pos⟩,rfl⟩)
  · exact .pure (.this pos)
  · exact (stays_expect _ _).bind fun _ _ => (stays_expectName _).bind fun _ name =>
      .pure (.super pos name)
  · exact (h.expression _).bind fun _ inner => (stays_expect _ _).bind fun _ _ =>
      .pure (.grouping pos inner)
  · exact (h.expression _).bind fun _ right => .pure (.unary pos right)
  · exact (h.expression _).bind fun _ right => .pure (.unary pos right)
  · split
    · exact .pure (.literal pos)
    · exact stays_fail pos _

theorem operators_succ (lower : Nat) {left : Expr} (hl : left.Within S) :
    Stays S (Parser.operators (n + 1) lower left) (Expr.Within S) := by
  rw [Parser.operators]
  refine stays_peek.bind fun t pos => .ite ?_ (.pure hl)
  exact stays_advance.bind fun _ _ => (h.extend pos hl).bind fun _ more => h.operators lower more

theorem extend_succ {t : Token} {left : Expr} (pos : S t.pos) (hl : left.Within S) :
    Stays S (Parser.extend (n + 1) t left) (Expr.Within S) := by
  rw [Parser.extend]
  split
  · exact (h.expression _).bind fun _ right => .pure (.binary hl pos right)
  · exact (h.expression _).bind fun _ right => .pure (.logical hl pos right)
  · exact (h.expression _).bind fun _ value => stays_assignment pos hl value
  · exact (stays_expectName _).bind fun _ name => .pure (.get hl name)
  · refine (stays_atKind _).bind fun _ _ => .ite ?_ ?_
    · exact stays_advance.bind fun _ close => .pure (.call hl close .nil)
    · exact (h.expression _).bind fun _ head => (h.arguments 1).bind fun _ others =>
        (stays_expect _ _).bind fun _ close => .pure (.call hl close (.cons head others))

theorem arguments_succ (count : Nat) : Stays S (Parser.arguments (n + 1) count) (ArgumentsWithin S) := by
  rw [arguments_eq]
  refine (stays_atKind _).bind fun _ _ => .ite (stays_advance.bind fun _ _ => ?_) (.pure .nil)
  have rest : Stays S (furtherArguments n count) (ArgumentsWithin S) :=
    (h.expression _).bind fun _ head => (h.arguments _).bind fun _ others => .pure (.cons head others)
  refine .ite ?_ rest
  exact stays_peek.bind fun _ pos => (stays_report pos _).bind fun _ _ => rest

end ExpressionsStay

theorem expressionsStay (n : Nat) : ExpressionsStay S n := by
  induction n with
  | zero =>
    constructor
    case operators => exact fun _ _ _ => stays_abort
    case extend => exact fun _ _ => stays_abort
    all_goals intros; exact stays_abort
  | succ n ih =>
    have expression : ∀ lower, Stays S (expression (n + 1) lower) (Expr.Within S) := fun lower =>
      ih.operand.bind fun _ left => ih.operators lower left
    exact ⟨expression,ih.operand_succ,ih.operators_succ,ih.extend_succ,ih.arguments_succ⟩

theorem stays_expression (n lower : Nat) : Stays S (expression n lower) (Expr.Within S) :=
  (expressionsStay n).expression lower

/-! ## Statements -/

theorem stays_parameters (n count : Nat) :
    Stays S (parameters n count) fun ps => List.Forall₂ (Name.Alike fun p _ => S p) ps ps := by
  induction n generalizing count with
  | zero => exact stays_abort
  | succ n ih =>
    rw [parameters_eq]
    have rest : Stays S (furtherParameters n count) fun ps =>
        List.Forall₂ (Name.Alike fun p _ => S p) ps ps := by
      refine (stays_expectName _).bind fun head name => (stays_atKind _).bind fun _ _ => .ite ?_ ?_
      · exact stays_advance.bind fun _ _ => (ih _).bind fun _ others => .pure (.cons name others)
      · exact .pure (.cons name .nil)
    refine .ite ?_ rest
    exact stays_peek.bind fun _ pos => (stays_report pos _).bind fun _ _ => rest

theorem stays_expressionStatement (n : Nat) : Stays S (expressionStatement n) (Stmt.Within S) :=
  (stays_expression n _).bind fun _ inner => (stays_expect _ _).bind fun _ _ => .pure (.expression inner)

theorem stays_variableDeclaration (n : Nat) : Stays S (variableDeclaration n) (Stmt.Within S) := by
  rw [variableDeclaration_eq]
  refine (stays_expectName _).bind fun name within => (stays_atKind _).bind fun given _ => ?_
  have rest : ∀ init, OptionWithin S init → Stays S (variableTail name init) (Stmt.Within S) :=
    fun _ value => (stays_expect _ _).bind fun _ _ => .pure (.var within value)
  cases given with
  | false => exact rest none .none
  | true =>
    exact stays_advance.bind fun _ _ => (stays_expression n _).bind fun _ value => rest _ (.some value)

theorem stays_jumpStatement {t : Token} (pos : S t.pos) (j : Jump) :
    Stays S (jumpStatement t j) (Stmt.Within S) :=
  (stays_expect _ _).bind fun _ _ => .pure (.jump pos)

theorem stays_printStatement (n : Nat) {t : Token} (pos : S t.pos) :
    Stays S (printStatement n t) (Stmt.Within S) :=
  (stays_expression n _).bind fun _ inner => (stays_expect _ _).bind fun _ _ => .pure (.print pos inner)

theorem stays_returnStatement (n : Nat) {t : Token} (pos : S t.pos) :
    Stays S (returnStatement n t) (Stmt.Within S) := by
  rw [returnStatement_eq]
  refine (stays_atKind _).bind fun bare _ => ?_
  have rest : ∀ value, OptionWithin S value → Stays S (returnTail t.pos value) (Stmt.Within S) :=
    fun _ value => (stays_expect _ _).bind fun _ _ => .pure (.leave pos value)
  cases bare with
  | true => exact rest none .none
  | false =>
    have given : Stays S (some <$> expression n lowestLevel) (OptionWithin S) :=
      (stays_expression n _).map fun _ value => .some value
    exact given.bind rest

theorem stays_forInitializer (n : Nat) :
    Stays S (forInitializer n) fun o => ∀ s ∈ o, s.Within S := by
  have given : ∀ {p : Parser Stmt}, Stays S p (Stmt.Within S) →
      Stays S (some <$> p) fun o => ∀ s ∈ o, s.Within S := fun h =>
    h.map fun a ha b hb => Option.some.inj hb ▸ ha
  refine stays_peek.bind fun t _ => ?_
  split
  · exact stays_advance.bind fun _ _ => .pure fun _ none => nomatch none
  · exact stays_advance.bind fun _ _ => given (stays_variableDeclaration n)
  · exact given (stays_expressionStatement n)

theorem stays_forCondition (n : Nat) {t : Token} (pos : S t.pos) :
    Stays S (forCondition n t) (Expr.Within S) := by
  refine (stays_atKind _).bind fun _ _ => .ite ?_ ?_
  · exact stays_advance.bind fun _ _ => .pure (.literal pos)
  · exact (stays_expression n _).bind fun _ condition => (stays_expect _ _).bind fun _ _ => .pure condition

theorem stays_forIncrement (n : Nat) : Stays S (forIncrement n) (OptionWithin S) := by
  refine (stays_atKind _).bind fun _ _ => .ite ?_ ?_
  · exact stays_advance.bind fun _ _ => .pure .none
  · exact (stays_expression n _).bind fun _ increment => (stays_expect _ _).bind fun _ _ =>
      .pure (.some increment)

theorem within_forLoop {pos : Pos} (h : S pos) {init : Option Stmt} (hi : ∀ s ∈ init, s.Within S)
    {condition : Expr} (hc : condition.Within S) {increment : Option Expr} (hn : OptionWithin S increment)
    {body : Stmt} (hb : body.Within S) : (forLoop pos init condition increment body).Within S := by
  cases init with
  | none => exact .loop h hc hb hn
  | some s => exact .block h (.cons (hi s rfl) (.cons (.loop h hc hb hn) .nil))

variable (S) in
/-- The parsers of statements stay within a set of positions. -/
structure StatementsStay (n : Nat) : Prop where
  declaration : Stays S (declaration n) fun o => ∀ s ∈ o, s.Within S
  declarations (inBlock : Bool) : Stays S (declarations n inBlock) (BodyWithin S)
  block : Stays S (block n) (BodyWithin S)
  routine (kind : RoutineKind) {name : Name} : name.Within S →
    Stays S (routine n kind name) (Routine.Within S)
  classDeclaration : Stays S (classDeclaration n) (Stmt.Within S)
  methods : Stays S (methods n) (RoutinesWithin S)
  statement : Stays S (statement n) (Stmt.Within S)

namespace StatementsStay
variable {n : Nat} (h : StatementsStay S n)
include h

theorem declaration_succ : Stays S (Parser.declaration (n + 1)) fun o => ∀ s ∈ o, s.Within S := by
  rw [Parser.declaration]
  refine Stays.recovering (stays_peek.bind fun t _ => ?_)
  split
  · exact stays_advance.bind fun _ _ => h.classDeclaration
  · exact stays_advance.bind fun _ _ => (stays_expectName _).bind fun _ name =>
      (h.routine _ name).map fun _ routine => .function routine
  · exact stays_advance.bind fun _ _ => stays_variableDeclaration n
  · exact h.statement

theorem declarations_succ (inBlock : Bool) :
    Stays S (Parser.declarations (n + 1) inBlock) (BodyWithin S) := by
  rw [Parser.declarations]
  refine stays_peek.bind fun t _ => .ite (.pure .nil) (h.declaration.bind fun o first => ?_)
  cases o with
  | none => exact h.declarations inBlock
  | some s => exact (h.declarations inBlock).bind fun _ others => .pure (.cons (first s rfl) others)

theorem block_succ : Stays S (Parser.block (n + 1)) (BodyWithin S) := by
  rw [Parser.block]
  exact (h.declarations true).bind fun _ body => stays_advance.bind fun _ pos =>
    .ite (.pure body) (stays_fail pos _)

theorem routine_succ (kind : RoutineKind) {name : Name} (hn : name.Within S) :
    Stays S (Parser.routine (n + 1) kind name) (Routine.Within S) := by
  rw [routine_eq]
  refine (stays_expect _ _).bind fun _ _ => (stays_atKind _).bind fun bare _ => ?_
  have rest : ∀ ps, List.Forall₂ (Name.Alike fun p _ => S p) ps ps →
      Stays S (routineTail n kind name ps) (Routine.Within S) := fun _ params =>
    (stays_expect _ _).bind fun _ _ => (stays_expect _ _).bind fun _ _ => h.block.bind fun _ body =>
      .pure (.mk hn params body)
  cases bare with
  | true => exact rest [] .nil
  | false => exact (stays_parameters n 0).bind rest

theorem classDeclaration_succ : Stays S (Parser.classDeclaration (n + 1)) (Stmt.Within S) := by
  rw [classDeclaration_eq]
  refine (stays_expectName _).bind fun name within => (stays_atKind _).bind fun derived _ => ?_
  have rest : ∀ base, Option.Rel (Reference.Alike fun p _ => S p) base base →
      Stays S (classTail n name base) (Stmt.Within S) := fun _ superclass =>
    (stays_expect _ _).bind fun _ _ => h.methods.bind fun _ members => (stays_expect _ _).bind fun _ _ =>
      .pure (.klass within superclass members)
  cases derived with
  | false => exact rest none .none
  | true =>
    exact stays_advance.bind fun _ _ => (stays_expectName _).bind fun _ base => rest _ (.some ⟨base,rfl⟩)

theorem methods_succ : Stays S (Parser.methods (n + 1)) (RoutinesWithin S) := by
  rw [Parser.methods]
  exact stays_peek.bind fun _ _ => .ite (.pure .nil) ((stays_expectName _).bind fun _ name =>
    (h.routine _ name).bind fun _ first => h.methods.bind fun _ others => .pure (.cons first others))

theorem statement_succ : Stays S (Parser.statement (n + 1)) (Stmt.Within S) := by
  rw [Parser.statement]
  refine stays_peek.bind fun t pos => ?_
  split
  · exact stays_advance.bind fun _ _ => stays_printStatement n pos
  · exact stays_advance.bind fun _ _ => stays_returnStatement n pos
  · refine stays_advance.bind fun _ _ => (stays_expect _ _).bind fun _ _ =>
      (stays_expression n _).bind fun _ condition => (stays_expect _ _).bind fun _ _ =>
      h.statement.bind fun _ yes => (stays_atKind _).bind fun _ _ => .ite ?_ ?_
    · exact stays_advance.bind fun _ _ => h.statement.bind fun _ no =>
        .pure (.branchElse pos condition yes no)
    · exact .pure (.branch pos condition yes)
  · exact stays_advance.bind fun _ _ => (stays_expect _ _).bind fun _ _ =>
      (stays_expression n _).bind fun _ condition => (stays_expect _ _).bind fun _ _ =>
      h.statement.bind fun _ body => .pure (.loop pos condition body .none)
  · exact stays_advance.bind fun _ _ => (stays_expect _ _).bind fun _ _ =>
      (stays_forInitializer n).bind fun _ init => (stays_forCondition n pos).bind fun _ condition =>
      (stays_forIncrement n).bind fun _ increment => h.statement.bind fun _ body =>
      .pure (within_forLoop pos init condition increment body)
  · exact stays_advance.bind fun _ _ => stays_jumpStatement pos _
  · exact stays_advance.bind fun _ _ => stays_jumpStatement pos _
  · exact stays_advance.bind fun _ _ => h.block.bind fun _ body => .pure (.block pos body)
  · exact stays_expressionStatement n

end StatementsStay

theorem statementsStay (n : Nat) : StatementsStay S n := by
  induction n with
  | zero =>
    constructor
    case routine => exact fun _ _ _ => stays_abort
    all_goals intros; exact stays_abort
  | succ n ih =>
    exact ⟨ih.declaration_succ,ih.declarations_succ,ih.block_succ,ih.routine_succ,
      ih.classDeclaration_succ,ih.methods_succ,ih.statement_succ⟩

end
end Parser

/-! ## Whole sources -/

section
variable {S : Pos → Prop}

/-- A program that was parsed and the errors of parsing it stand where its tokens and the errors of
scanning it do. -/
theorem parseScan_within {s : Scan} (ahead : s.tokens ≠ []) (tokens : ∀ t ∈ s.tokens, S t.pos)
    (errors : ∀ d ∈ s.errors, S d.pos) :
    BodyWithin S (parseScan s).program ∧ ∀ d ∈ (parseScan s).errors, S d.pos := by
  have all := (Parser.statementsStay (S := S) (Parser.enough s.tokens.length)).declarations false
    { last := default, rest := s.tokens } ⟨ahead,tokens,fun _ hd => absurd hd List.not_mem_nil⟩
  have sorted : ∀ {es : List Diagnostic}, (∀ d ∈ es, S d.pos) →
      ∀ d ∈ Diagnostic.sort (s.errors ++ es.reverse), S d.pos := fun more d hd => by
    rw [Diagnostic.sort,List.mem_mergeSort,List.mem_append,List.mem_reverse] at hd
    exact hd.elim (errors d) (more d)
  simp only [parseScan]
  cases e : Parser.declarations (Parser.enough s.tokens.length) false
    { last := default, rest := s.tokens } with
  | ok p t =>
    rw [e] at all
    cases all with
    | ok body within => exact ⟨body,sorted within.errors⟩
  | error _ t =>
    rw [e] at all
    cases all with
    | error within => exact ⟨.nil,sorted within.errors⟩

theorem scopeErrors_within {p : Program} (within : BodyWithin S p) : ∀ d ∈ p.scopeErrors, S d.pos :=
  fun d hd => by
    have alike := within.blockErrors {}
    exact (List.forall₂_same.mp alike d hd).pos

theorem resolve_within {p : Program} (within : BodyWithin S p) : BodyWithin S p.resolve :=
  BodyAlike.resolve [] within

end
end Lox
