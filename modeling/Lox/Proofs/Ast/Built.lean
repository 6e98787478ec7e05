import Lox.Proofs.Ast.Statements
import Lox.Proofs.Ast.Wording
import Lox.Proofs.Scope.Naming

/-! # Trees and the tokens they are built of

A tree that a parser returns is built of tokens that were ahead of it: an operator, a name or a closing
parenthesis stands where a token of its kind and its text stands. The parts of branches and loops are
statements and no declarations, also in a program that was understood only in part.
-/
namespace Lox

/-! ## Built trees -/

section
variable (T : Token → Prop)

/-- A token of a kind stands at a position. -/
def Token.Kind.Stands (k : Token.Kind) (pos : Pos) : Prop := ∃ t, T t ∧ t.kind = k ∧ t.pos = pos

/-- A name is that of an identifier. -/
def Name.Built (name : Name) : Prop :=
  ∃ t, T t ∧ t.kind = .identifier ∧ t.lexeme = name.text ∧ t.pos = name.pos

mutual

/-- What an expression takes from tokens is there. -/
def Expr.Built : Expr → Prop
  | .literal _ _ => True
  | .grouping _ e => e.Built
  | .var r => r.name.Built T
  | .assign r e => r.name.Built T ∧ e.Built
  | .unary op pos e => op.kind.Stands T pos ∧ e.Built
  | .binary d op pos e => op.kind.Stands T pos ∧ d.Built ∧ e.Built
  | .logical d _ _ e => d.Built ∧ e.Built
  | .call e paren es => Token.Kind.Stands T .rightParen paren ∧ e.Built ∧ ArgumentsBuilt es
  | .get d name => name.Built T ∧ d.Built
  | .set d name e => name.Built T ∧ d.Built ∧ e.Built
  | .this pos _ => Token.Kind.Stands T .kwThis pos
  | .super pos method _ => Token.Kind.Stands T .kwSuper pos ∧ method.Built T
termination_by structural e => e

def ArgumentsBuilt : List Expr → Prop
  | [] => True
  | e :: es => e.Built ∧ ArgumentsBuilt es
termination_by structural es => es

end

mutual

/-- What a statement takes from tokens is there, and its parts are no declarations. -/
def Stmt.Built : Stmt → Prop
  | .expression e | .print _ e => e.Built T
  | .var name init => name.Built T ∧ ∀ e ∈ init, e.Built T
  | .block _ _ body => BodyBuilt body
  | .branch _ condition yes none => condition.Built T ∧ yes.Built ∧ yes.declared? = none
  | .branch _ condition yes (some no) =>
    condition.Built T ∧ yes.Built ∧ yes.declared? = none ∧ no.Built ∧ no.declared? = none
  | .loop _ _ condition body increment =>
    condition.Built T ∧ body.Built ∧ body.declared? = none ∧ ∀ e ∈ increment, e.Built T
  | .jump _ _ => True
  | .function r => r.Built
  | .leave pos value => Token.Kind.Stands T .kwReturn pos ∧ ∀ e ∈ value, e.Built T
  | .klass name superclass methods =>
    name.Built T ∧ (∀ r ∈ superclass, r.name.Built T) ∧ MethodsBuilt methods
termination_by structural s => s

def Routine.Built : Routine → Prop
  | ⟨name,params,body⟩ => name.Built T ∧ (∀ p ∈ params, p.Built T) ∧ BodyBuilt body
termination_by structural r => r

def BodyBuilt : List Stmt → Prop
  | [] => True
  | s :: rest => s.Built ∧ BodyBuilt rest
termination_by structural ss => ss

def MethodsBuilt : List Routine → Prop
  | [] => True
  | r :: rest => r.Built ∧ MethodsBuilt rest
termination_by structural rs => rs

end

end

section
variable {T : Token → Prop}

theorem BodyBuilt.mem {ss : List Stmt} (built : BodyBuilt T ss) {s : Stmt} (hs : s ∈ ss) : s.Built T := by
  induction ss with
  | nil => cases hs
  | cons t rest ih => exact (List.mem_cons.mp hs).elim (fun e => e ▸ built.1) (ih built.2)

theorem MethodsBuilt.mem {rs : List Routine} (built : MethodsBuilt T rs) {r : Routine} (hr : r ∈ rs) :
    r.Built T := by
  induction rs with
  | nil => cases hr
  | cons q rest ih => exact (List.mem_cons.mp hr).elim (fun e => e ▸ built.1) (ih built.2)

theorem Routine.Built.body {r : Routine} (built : r.Built T) : BodyBuilt T r.body := by
  cases r
  exact built.2.2

end

namespace Parser

section
variable (T : Token → Prop)

/-- All tokens ahead of a parser are among those that are looked at. -/
structure State.Holds (s : State) : Prop where
  ahead : s.rest ≠ []
  tokens : ∀ t ∈ s.rest, T t

inductive Left {α : Type} (Q : α → Prop) : EStateM.Result Abort State α → Prop
  | ok {a s} : Q a → s.Holds T → Left Q (.ok a s)
  | error {e s} : s.Holds T → Left Q (.error e s)

/-- A parser builds what is asked for of the tokens ahead of it, if it does not give up. -/
def Builds {α : Type} (x : Parser α) (Q : α → Prop) : Prop := ∀ s, s.Holds T → Left T Q (x s)

end

section
variable {T : Token → Prop} {α β : Type} {Q : α → Prop} {R : β → Prop}

/-! ## Putting parsers together -/

theorem forall_mem_none (P : α → Prop) : ∀ a ∈ none, P a := fun _ ha => by cases ha

theorem Builds.pure {a : α} (h : Q a) : Builds T (pure a) Q := fun _ holds => .ok h holds

theorem Builds.bind {x : Parser α} {f : α → Parser β} (hx : Builds T x Q)
    (hf : ∀ a, Q a → Builds T (f a) R) : Builds T (x >>= f) R := by
  intro s holds
  have first := hx s holds
  simp only [Bind.bind,EStateM.bind]
  cases e : x s with
  | error _ _ =>
    rw [e] at first
    cases first with
    | error holds => exact .error holds
  | ok a t =>
    rw [e] at first
    cases first with
    | ok ha holds => exact hf a ha t holds

theorem Builds.map {x : Parser α} {f : α → β} (hx : Builds T x Q) (hf : ∀ a, Q a → R (f a)) :
    Builds T (f <$> x) R := by
  rw [map_eq_pure_bind]
  exact hx.bind fun a ha => .pure (hf a ha)

theorem Builds.ite {c : Prop} [Decidable c] {x y : Parser α} (hx : Builds T x Q) (hy : Builds T y Q) :
    Builds T (if c then x else y) Q := by
  split
  · exact hx
  · exact hy

theorem builds_abort : Builds T (abort : Parser α) Q := fun _ holds => .error holds

/-! ## Single operations -/

theorem State.Holds.peek {s : State} (holds : s.Holds T) : T s.peek := by
  obtain ⟨t,ts,e⟩ := List.exists_cons_of_ne_nil holds.ahead
  rw [State.peek,e,List.headD_cons]
  exact holds.tokens t (e ▸ List.mem_cons_self)

theorem State.Holds.advance {s : State} (holds : s.Holds T) :
    s.advance.Holds T ∧ s.advance.last = s.peek := by
  obtain ⟨ahead,tokens⟩ := holds
  match e : s.rest with
  | [] => exact absurd e ahead
  | [t] =>
    have moved : s.advance = { s with last := t } := by simp only [State.advance,e]
    rw [moved,State.peek,e]
    exact ⟨⟨List.cons_ne_nil t [],e ▸ tokens⟩,rfl⟩
  | t :: u :: ts =>
    rw [rest_advance e,State.peek,e]
    rw [e] at tokens
    exact ⟨⟨List.cons_ne_nil u ts,fun v hv => tokens v (List.mem_cons_of_mem t hv)⟩,rfl⟩

theorem builds_peek : Builds T peek T := fun _ holds => .ok holds.peek holds

theorem builds_advance : Builds T advance T := fun _ holds =>
  .ok (holds.advance.2 ▸ holds.peek) holds.advance.1

theorem builds_atKind (k : Token.Kind) : Builds T (atKind k) fun _ => True := fun _ holds => .ok trivial holds

theorem builds_report (t : Token) (e : ParseError) : Builds T (report t e) fun _ => True := fun _ holds =>
  .ok trivial ⟨holds.ahead,holds.tokens⟩

theorem builds_fail (t : Token) (e : ParseError) : Builds T (fail t e : Parser α) Q :=
  (builds_report t e).bind fun _ _ => builds_abort

/-- The token that is moved over has the kind that was seen ahead. -/
theorem builds_past {k : Token.Kind} {f : Token → Parser α} {x : Parser α}
    (past : ∀ t, T t → t.kind = k → Builds T (f t) Q) (other : Builds T x Q) :
    Builds T (do if ← atKind k then f (← advance) else x) Q := by
  intro s holds
  show Left T Q ((if decide (s.peek.kind = k) = true then advance >>= f else x) s)
  split
  · next kind =>
    have moved := holds.advance
    exact past s.advance.last (moved.2 ▸ holds.peek) (moved.2 ▸ of_decide_eq_true kind) _ moved.1
  · exact other s holds

theorem builds_expect (k : Token.Kind) (e : ParseError) : Builds T (expect k e) fun t => T t ∧ t.kind = k := by
  intro s holds
  show Left T _ ((if s.peek.kind = k then advance else fail s.peek e) s)
  split
  · next kind =>
    have moved := holds.advance
    exact .ok ⟨moved.2 ▸ holds.peek,moved.2 ▸ kind⟩ moved.1
  · exact builds_fail s.peek e s holds

theorem builds_expectName (e : ParseError) : Builds T (expectName e) (Name.Built T) :=
  (builds_expect .identifier e).bind fun t read => .pure ⟨t,read.1,read.2,rfl,rfl⟩

/-- Giving up a declaration skips tokens. -/
theorem Builds.recovering {p : Parser Stmt} (hp : Builds T p (Stmt.Built T)) :
    Builds T (recovering p) fun o => ∀ s ∈ o, s.Built T := by
  intro s holds
  have tried : Builds T (some <$> p) fun o => ∀ s ∈ o, s.Built T :=
    hp.map fun a ha b hb => Option.some.inj hb ▸ ha
  have first := tried s holds
  simp only [Parser.recovering,tryCatch,tryCatchThe,MonadExceptOf.tryCatch,EStateM.tryCatch]
  cases e : (some <$> p) s with
  | ok a t =>
    rw [e] at first
    exact first
  | error _ t =>
    rw [e] at first
    cases first with
    | error holds =>
      have suffix := skip_suffix t.last t.rest
      exact .ok (forall_mem_none _) ⟨skip_ne_nil t.last holds.ahead,
        fun u hu => holds.tokens u (suffix.subset hu)⟩

/-! ## Expressions -/

theorem builds_assignment (equals : Token) {left value : Expr} (hl : left.Built T) (hv : value.Built T) :
    Builds T (assignment equals left value) (Expr.Built T) := by
  cases left with
  | var target => exact .pure ⟨hl,hv⟩
  | get object name => exact .pure ⟨hl.1,hl.2,hv⟩
  | _ => exact (builds_report _ _).bind fun _ _ => .pure hl

variable (T) in
/-- The parsers of expressions build them of the tokens ahead. -/
structure ExpressionsBuild (n : Nat) : Prop where
  expression (lower : Nat) : Builds T (expression n lower) (Expr.Built T)
  operand : Builds T (operand n) (Expr.Built T)
  operators (lower : Nat) {left : Expr} : left.Built T → Builds T (operators n lower left) (Expr.Built T)
  extend {t : Token} {left : Expr} : T t → left.Built T → Builds T (extend n t left) (Expr.Built T)
  arguments (count : Nat) : Builds T (arguments n count) (ArgumentsBuilt T)

namespace ExpressionsBuild
variable {n : Nat} (h : ExpressionsBuild T n)
include h

theorem operand_succ : Builds T (Parser.operand (n + 1)) (Expr.Built T) := by
  rw [Parser.operand]
  refine builds_advance.bind fun t there => ?_
  split
  · next kind => exact .pure ⟨t,there,kind,rfl,rfl⟩
  · next kind => exact .pure ⟨t,there,kind,rfl⟩
  · next kind =>
    exact (builds_expect _ _).bind fun _ _ => (builds_expectName _).bind fun _ name =>
      .pure ⟨⟨t,there,kind,rfl⟩,name⟩
  · exact (h.expression _).bind fun _ inner => (builds_expect _ _).bind fun _ _ => .pure inner
  · next kind => exact (h.expression _).bind fun _ right => .pure ⟨⟨t,there,kind,rfl⟩,right⟩
  · next kind => exact (h.expression _).bind fun _ right => .pure ⟨⟨t,there,kind,rfl⟩,right⟩
  · split
    · exact .pure trivial
    · exact builds_fail t _

theorem operators_succ (lower : Nat) {left : Expr} (hl : left.Built T) :
    Builds T (Parser.operators (n + 1) lower left) (Expr.Built T) := by
  rw [Parser.operators]
  refine builds_peek.bind fun t there => .ite ?_ (.pure hl)
  exact builds_advance.bind fun _ _ => (h.extend there hl).bind fun _ more => h.operators lower more

theorem extend_succ {t : Token} {left : Expr} (there : T t) (hl : left.Built T) :
    Builds T (Parser.extend (n + 1) t left) (Expr.Built T) := by
  rw [Parser.extend]
  split
  · next found =>
    exact (h.expression _).bind fun _ right => .pure ⟨⟨t,there,binaryOp?_eq_some.mp found,rfl⟩,hl,right⟩
  · exact (h.expression _).bind fun _ right => .pure ⟨hl,right⟩
  · exact (h.expression _).bind fun _ value => builds_assignment t hl value
  · exact (builds_expectName _).bind fun _ name => .pure ⟨name,hl⟩
  · refine builds_past (fun close there kind => .pure ⟨⟨close,there,kind,rfl⟩,hl,trivial⟩) ?_
    exact (h.expression _).bind fun _ head => (h.arguments 1).bind fun _ others =>
      (builds_expect _ _).bind fun close read => .pure ⟨⟨close,read.1,read.2,rfl⟩,hl,head,others⟩

theorem arguments_succ (count : Nat) : Builds T (Parser.arguments (n + 1) count) (ArgumentsBuilt T) := by
  rw [arguments_eq]
  refine (builds_atKind _).bind fun _ _ => .ite (builds_advance.bind fun _ _ => ?_) (.pure trivial)
  have rest : Builds T (furtherArguments n count) (ArgumentsBuilt T) :=
    (h.expression _).bind fun _ head => (h.arguments _).bind fun _ others => .pure ⟨head,others⟩
  refine .ite ?_ rest
  exact builds_peek.bind fun t _ => (builds_report t _).bind fun _ _ => rest

end ExpressionsBuild

theorem expressionsBuild (n : Nat) : ExpressionsBuild T n := by
  induction n with
  | zero =>
    constructor
    case operators => exact fun _ _ _ => builds_abort
    case extend => exact fun _ _ => builds_abort
    all_goals intros; exact builds_abort
  | succ n ih =>
    have expression : ∀ lower, Builds T (expression (n + 1) lower) (Expr.Built T) := fun lower =>
      ih.operand.bind fun _ left => ih.operators lower left
    exact ⟨expression,ih.operand_succ,ih.operators_succ,ih.extend_succ,ih.arguments_succ⟩

theorem builds_expression (n lower : Nat) : Builds T (expression n lower) (Expr.Built T) :=
  (expressionsBuild n).expression lower

/-! ## Statements -/

theorem builds_parameters (n count : Nat) : Builds T (parameters n count) fun ps => ∀ p ∈ ps, p.Built T := by
  induction n generalizing count with
  | zero => exact builds_abort
  | succ n ih =>
    rw [parameters_eq]
    have rest : Builds T (furtherParameters n count) fun ps => ∀ p ∈ ps, p.Built T := by
      refine (builds_expectName _).bind fun head name => (builds_atKind _).bind fun _ _ => .ite ?_ ?_
      · exact builds_advance.bind fun _ _ => (ih _).bind fun _ others =>
          .pure (List.forall_mem_cons.mpr ⟨name,others⟩)
      · exact .pure (List.forall_mem_singleton.mpr name)
    refine .ite ?_ rest
    exact builds_peek.bind fun t _ => (builds_report t _).bind fun _ _ => rest

/-- A statement that is no declaration. -/
def IsPart (T : Token → Prop) (s : Stmt) : Prop := s.Built T ∧ s.declared? = none

theorem builds_expressionStatement (n : Nat) : Builds T (expressionStatement n) (IsPart T) :=
  (builds_expression n _).bind fun _ inner => (builds_expect _ _).bind fun _ _ => .pure ⟨inner,rfl⟩

theorem builds_variableDeclaration (n : Nat) : Builds T (variableDeclaration n) (Stmt.Built T) := by
  rw [variableDeclaration_eq]
  refine (builds_expectName _).bind fun name built => (builds_atKind _).bind fun given _ => ?_
  have rest : ∀ init : Option Expr, (∀ e ∈ init, e.Built T) →
      Builds T (variableTail name init) (Stmt.Built T) := fun _ value =>
    (builds_expect _ _).bind fun _ _ => .pure ⟨built,value⟩
  cases given with
  | false => exact rest none (forall_mem_none _)
  | true =>
    exact builds_advance.bind fun _ _ => (builds_expression n _).bind fun e value =>
      rest (some e) fun _ same => Option.some.inj same ▸ value

theorem builds_jumpStatement (t : Token) (j : Jump) : Builds T (jumpStatement t j) (IsPart T) :=
  (builds_expect _ _).bind fun _ _ => .pure ⟨trivial,rfl⟩

theorem builds_printStatement (n : Nat) (t : Token) : Builds T (printStatement n t) (IsPart T) :=
  (builds_expression n _).bind fun _ inner => (builds_expect _ _).bind fun _ _ => .pure ⟨inner,rfl⟩

theorem builds_returnStatement (n : Nat) {t : Token} (there : T t) (kind : t.kind = .kwReturn) :
    Builds T (returnStatement n t) (IsPart T) := by
  rw [returnStatement_eq]
  refine (builds_atKind _).bind fun bare _ => ?_
  have rest : ∀ value : Option Expr, (∀ e ∈ value, e.Built T) →
      Builds T (returnTail t.pos value) (IsPart T) := fun _ value =>
    (builds_expect _ _).bind fun _ _ => .pure ⟨⟨⟨t,there,kind,rfl⟩,value⟩,rfl⟩
  cases bare with
  | true => exact rest none (forall_mem_none _)
  | false =>
    have given : Builds T (some <$> expression n lowestLevel) fun o => ∀ e ∈ o, e.Built T :=
      (builds_expression n _).map fun _ value _ same => Option.some.inj same ▸ value
    exact given.bind rest

theorem builds_forInitializer (n : Nat) : Builds T (forInitializer n) fun o => ∀ s ∈ o, s.Built T := by
  have given : ∀ {p : Parser Stmt}, Builds T p (Stmt.Built T) →
      Builds T (some <$> p) fun o => ∀ s ∈ o, s.Built T := fun h =>
    h.map fun a ha b hb => Option.some.inj hb ▸ ha
  refine builds_peek.bind fun t _ => ?_
  split
  · exact builds_advance.bind fun _ _ => .pure (forall_mem_none _)
  · exact builds_advance.bind fun _ _ => given (builds_variableDeclaration n)
  · exact (builds_expressionStatement n).map fun a ha b hb => Option.some.inj hb ▸ ha.1

theorem builds_forCondition (n : Nat) (t : Token) : Builds T (forCondition n t) (Expr.Built T) := by
  refine (builds_atKind _).bind fun _ _ => .ite ?_ ?_
  · exact builds_advance.bind fun _ _ => .pure trivial
  · exact (builds_expression n _).bind fun _ condition => (builds_expect _ _).bind fun _ _ => .pure condition

theorem builds_forIncrement (n : Nat) : Builds T (forIncrement n) fun o => ∀ e ∈ o, e.Built T := by
  refine (builds_atKind _).bind fun _ _ => .ite ?_ ?_
  · exact builds_advance.bind fun _ _ => .pure (forall_mem_none _)
  · exact (builds_expression n _).bind fun _ increment => (builds_expect _ _).bind fun _ _ =>
      .pure fun _ same => Option.some.inj same ▸ increment

theorem isPart_forLoop (pos : Pos) {init : Option Stmt} (hi : ∀ s ∈ init, s.Built T) {condition : Expr}
    (hc : condition.Built T) {increment : Option Expr} (hn : ∀ e ∈ increment, e.Built T) {body : Stmt}
    (hb : IsPart T body) : IsPart T (forLoop pos init condition increment body) := by
  have loop : Stmt.Built T (.loop pos .clauses condition body increment) := ⟨hc,hb.1,hb.2,hn⟩
  cases init with
  | none => exact ⟨loop,rfl⟩
  | some s => exact ⟨⟨hi s rfl,loop,trivial⟩,rfl⟩

variable (T) in
/-- The parsers of statements build them of the tokens ahead. -/
structure StatementsBuild (n : Nat) : Prop where
  declaration : Builds T (declaration n) fun o => ∀ s ∈ o, s.Built T
  declarations (inBlock : Bool) : Builds T (declarations n inBlock) (BodyBuilt T)
  block : Builds T (block n) (BodyBuilt T)
  routine (kind : RoutineKind) {name : Name} : name.Built T →
    Builds T (routine n kind name) (Routine.Built T)
  classDeclaration : Builds T (classDeclaration n) (Stmt.Built T)
  methods : Builds T (methods n) (MethodsBuilt T)
  statement : Builds T (statement n) (IsPart T)

namespace StatementsBuild
variable {n : Nat} (h : StatementsBuild T n)
include h

theorem declaration_succ : Builds T (Parser.declaration (n + 1)) fun o => ∀ s ∈ o, s.Built T := by
  rw [Parser.declaration]
  refine Builds.recovering (builds_peek.bind fun t _ => ?_)
  split
  · exact builds_advance.bind fun _ _ => h.classDeclaration
  · exact builds_advance.bind fun _ _ => (builds_expectName _).bind fun _ name =>
      (h.routine _ name).map fun _ routine => routine
  · exact builds_advance.bind fun _ _ => builds_variableDeclaration n
  · rw [← id_map (Parser.statement n)]
    exact h.statement.map fun _ part => part.1

theorem declarations_succ (inBlock : Bool) :
    Builds T (Parser.declarations (n + 1) inBlock) (BodyBuilt T) := by
  rw [Parser.declarations]
  refine builds_peek.bind fun t _ => .ite (.pure trivial) (h.declaration.bind fun o first => ?_)
  cases o with
  | none => exact h.declarations inBlock
  | some s => exact (h.declarations inBlock).bind fun _ others => .pure ⟨first s rfl,others⟩

theorem block_succ : Builds T (Parser.block (n + 1)) (BodyBuilt T) := by
  rw [Parser.block]
  exact (h.declarations true).bind fun _ body => builds_advance.bind fun t _ =>
    .ite (.pure body) (builds_fail t _)

theorem routine_succ (kind : RoutineKind) {name : Name} (hn : name.Built T) :
    Builds T (Parser.routine (n + 1) kind name) (Routine.Built T) := by
  rw [routine_eq]
  refine (builds_expect _ _).bind fun _ _ => (builds_atKind _).bind fun bare _ => ?_
  have rest : ∀ ps : List Name, (∀ p ∈ ps, p.Built T) →
      Builds T (routineTail n kind name ps) (Routine.Built T) := fun _ params =>
    (builds_expect _ _).bind fun _ _ => (builds_expect _ _).bind fun _ _ => h.block.bind fun _ body =>
      .pure ⟨hn,params,body⟩
  cases bare with
  | true => exact rest [] (List.forall_mem_nil _)
  | false => exact (builds_parameters n 0).bind rest

theorem classDeclaration_succ : Builds T (Parser.classDeclaration (n + 1)) (Stmt.Built T) := by
  rw [classDeclaration_eq]
  refine (builds_expectName _).bind fun name built => (builds_atKind _).bind fun derived _ => ?_
  have rest : ∀ base : Option Reference, (∀ r ∈ base, r.name.Built T) →
      Builds T (classTail n name base) (Stmt.Built T) := fun _ superclass =>
    (builds_expect _ _).bind fun _ _ => h.methods.bind fun _ members => (builds_expect _ _).bind fun _ _ =>
      .pure ⟨built,superclass,members⟩
  cases derived with
  | false => exact rest none (forall_mem_none _)
  | true =>
    exact builds_advance.bind fun _ _ => (builds_expectName _).bind fun base name =>
      rest (some ⟨base,none⟩) fun _ same => Option.some.inj same ▸ name

theorem methods_succ : Builds T (Parser.methods (n + 1)) (MethodsBuilt T) := by
  rw [Parser.methods]
  exact builds_peek.bind fun _ _ => .ite (.pure trivial) ((builds_expectName _).bind fun _ name =>
    (h.routine _ name).bind fun _ first => h.methods.bind fun _ others => .pure ⟨first,others⟩)

theorem statement_succ : Builds T (Parser.statement (n + 1)) (IsPart T) := by
  rw [Parser.statement]
  refine builds_peek.bind fun t there => ?_
  split
  · exact builds_advance.bind fun _ _ => builds_printStatement n t
  · next kind => exact builds_advance.bind fun _ _ => builds_returnStatement n there kind
  · refine builds_advance.bind fun _ _ => (builds_expect _ _).bind fun _ _ =>
      (builds_expression n _).bind fun _ condition => (builds_expect _ _).bind fun _ _ =>
      h.statement.bind fun _ yes => (builds_atKind _).bind fun _ _ => .ite ?_ ?_
    · exact builds_advance.bind fun _ _ => h.statement.bind fun _ no =>
        .pure ⟨⟨condition,yes.1,yes.2,no.1,no.2⟩,rfl⟩
    · exact .pure ⟨⟨condition,yes.1,yes.2⟩,rfl⟩
  · exact builds_advance.bind fun _ _ => (builds_expect _ _).bind fun _ _ =>
      (builds_expression n _).bind fun _ condition => (builds_expect _ _).bind fun _ _ =>
      h.statement.bind fun _ body => .pure ⟨⟨condition,body.1,body.2,forall_mem_none _⟩,rfl⟩
  · exact builds_advance.bind fun _ _ => (builds_expect _ _).bind fun _ _ =>
      (builds_forInitializer n).bind fun _ init => (builds_forCondition n t).bind fun _ condition =>
      (builds_forIncrement n).bind fun _ increment => h.statement.bind fun _ body =>
      .pure (isPart_forLoop t.pos init condition increment body)
  · exact builds_advance.bind fun _ _ => builds_jumpStatement t _
  · exact builds_advance.bind fun _ _ => builds_jumpStatement t _
  · exact builds_advance.bind fun _ _ => h.block.bind fun _ body => .pure ⟨body,rfl⟩
  · exact builds_expressionStatement n

end StatementsBuild

theorem statementsBuild (n : Nat) : StatementsBuild T n := by
  induction n with
  | zero =>
    constructor
    case routine => exact fun _ _ _ => builds_abort
    all_goals intros; exact builds_abort
  | succ n ih =>
    exact ⟨ih.declaration_succ,ih.declarations_succ,ih.block_succ,ih.routine_succ,
      ih.classDeclaration_succ,ih.methods_succ,ih.statement_succ⟩

end
end Parser

/-- The program of a source is built of its tokens, as far as it was understood. -/
theorem parseScan_built {T : Token → Prop} {s : Scan} (ahead : s.tokens ≠ []) (tokens : ∀ t ∈ s.tokens, T t) :
    BodyBuilt T (parseScan s).program := by
  have all := (Parser.statementsBuild (T := T) (Parser.enough s.tokens.length)).declarations false
    { last := default, rest := s.tokens } ⟨ahead,tokens⟩
  simp only [parseScan]
  cases e : Parser.declarations (Parser.enough s.tokens.length) false
    { last := default, rest := s.tokens } with
  | ok p t =>
    rw [e] at all
    cases all with
    | ok body _ => exact body
  | error _ t => trivial

/-! ## Resolution -/

section
variable {T : Token → Prop}

mutual

theorem Expr.Built.resolve (scopes : Scopes) : (e : Expr) → e.Built T → (e.resolve scopes).Built T
  | .literal _ _, _ => trivial
  | .grouping _ e, built => Expr.Built.resolve scopes e built
  | .var _, built | .this _ _, built | .super _ _ _, built => built
  | .assign _ e, built | .unary _ _ e, built | .get e _, built =>
    ⟨built.1,Expr.Built.resolve scopes e built.2⟩
  | .binary d _ _ e, built | .set d _ e, built =>
    ⟨built.1,Expr.Built.resolve scopes d built.2.1,Expr.Built.resolve scopes e built.2.2⟩
  | .logical d _ _ e, built => ⟨Expr.Built.resolve scopes d built.1,Expr.Built.resolve scopes e built.2⟩
  | .call e _ es, built =>
    ⟨built.1,Expr.Built.resolve scopes e built.2.1,ArgumentsBuilt.resolve scopes es built.2.2⟩

theorem ArgumentsBuilt.resolve (scopes : Scopes) : (es : List Expr) → ArgumentsBuilt T es →
    ArgumentsBuilt T (resolveArguments scopes es)
  | [], _ => trivial
  | e :: es, built => ⟨Expr.Built.resolve scopes e built.1,ArgumentsBuilt.resolve scopes es built.2⟩

end

theorem Expr.Built.resolve_option (scopes : Scopes) {e : Option Expr} (built : ∀ d ∈ e, d.Built T) :
    ∀ d ∈ e.map (·.resolve scopes), d.Built T := by
  intro d hd
  obtain ⟨e,he,rfl⟩ := Option.map_eq_some_iff.mp hd
  exact Expr.Built.resolve scopes e (built e he)

mutual

/-- Resolution takes nothing from other tokens. -/
theorem Stmt.Built.resolve (scopes : Scopes) : (s : Stmt) → s.Built T → (s.resolve scopes).Built T
  | .expression e, built | .print _ e, built => Expr.Built.resolve scopes e built
  | .var _ _, built | .leave _ _, built => ⟨built.1,Expr.Built.resolve_option _ built.2⟩
  | .block _ _ body, built => BodyBuilt.resolve ([] :: scopes) body built
  | .branch _ condition yes none, built =>
    ⟨Expr.Built.resolve scopes condition built.1,Stmt.Built.resolve scopes yes built.2.1,
      (yes.declared?_resolve scopes).trans built.2.2⟩
  | .branch _ condition yes (some no), built =>
    ⟨Expr.Built.resolve scopes condition built.1,Stmt.Built.resolve scopes yes built.2.1,
      (yes.declared?_resolve scopes).trans built.2.2.1,Stmt.Built.resolve scopes no built.2.2.2.1,
      (no.declared?_resolve scopes).trans built.2.2.2.2⟩
  | .loop _ _ condition body _, built =>
    ⟨Expr.Built.resolve scopes condition built.1,Stmt.Built.resolve scopes body built.2.1,
      (body.declared?_resolve scopes).trans built.2.2.1,Expr.Built.resolve_option scopes built.2.2.2⟩
  | .jump _ _, _ => trivial
  | .function r, built => Routine.Built.resolve _ r built
  | .klass _ superclass methods, built => by
    refine ⟨built.1,fun r hr => ?_,MethodsBuilt.resolve _ methods built.2.2⟩
    obtain ⟨q,hq,rfl⟩ := Option.map_eq_some_iff.mp hr
    exact built.2.1 q hq

theorem Routine.Built.resolve (scopes : Scopes) : (r : Routine) → r.Built T → (r.resolve scopes).Built T
  | ⟨_,_,body⟩, built => ⟨built.1,built.2.1,BodyBuilt.resolve _ body built.2.2⟩

theorem BodyBuilt.resolve (scopes : Scopes) : (ss : List Stmt) → BodyBuilt T ss →
    BodyBuilt T (resolveAll scopes ss)
  | [], _ => trivial
  | s :: rest, built =>
    ⟨Stmt.Built.resolve scopes s built.1,BodyBuilt.resolve (scopes.afterStmt s) rest built.2⟩

theorem MethodsBuilt.resolve (scopes : Scopes) : (rs : List Routine) → MethodsBuilt T rs →
    MethodsBuilt T (resolveMethods scopes rs)
  | [], _ => trivial
  | r :: rest, built =>
    ⟨Routine.Built.resolve scopes r built.1,MethodsBuilt.resolve scopes rest built.2⟩

end

end
end Lox
