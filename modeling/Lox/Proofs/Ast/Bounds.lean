import Lox.Proofs.Ast.Wording
import Lox.Proofs.Ast.Statements

/-! # Bounds on nested calls

A bound on nested calls that is large enough for the tokens that are left is never met: a parser does the same
with any larger one, also on tokens that are no program. So the bound is no reason for giving up.
-/
namespace Lox
namespace Parser
variable {α β : Type} {a b n n' : ℕ} {s : State}

theorem fresh_default : Fresh [default] := ⟨default,[],rfl,by decide⟩

/-! ## Putting parsers together -/

theorem bind_congr_of_gets {x y : Parser α} {f g : α → Parser β} (gets : Gets a b s (x s)) (same : x s = y s)
    (next : ∀ v t, Onward s t → t.rest.length ≤ a → f v t = g v t) : (x >>= f) s = (y >>= g) s := by
  simp only [Bind.bind,EStateM.bind,← same]
  cases ex : x s with
  | error e t => rfl
  | ok v t =>
    rw [ex] at gets
    cases gets with
    | ok on less => exact next v t on less

theorem map_congr {x y : Parser α} (f : α → β) (same : x s = y s) : (f <$> x) s = (f <$> y) s := by
  simp only [Functor.map,EStateM.map,same]

theorem peek_congr {f g : Token → Parser β} (next : f s.peek s = g s.peek s) : (peek >>= f) s = (peek >>= g) s :=
  next

theorem atKind_congr {k : Token.Kind} {f g : Bool → Parser β}
    (next : f (s.peek.kind = k) s = g (s.peek.kind = k) s) : (atKind k >>= f) s = (atKind k >>= g) s :=
  next

theorem past_congr {f g : Token → Parser β} (ended : s.Ended) (more : s.peek.kind ≠ .eof)
    (next : ∀ v t, t.Ended → t.rest.length ≤ s.rest.length - 1 → f v t = g v t) :
    (advance >>= f) s = (advance >>= g) s :=
  bind_congr_of_gets (b := 0) (reads_advance ended more).gets rfl fun v t on => next v t on.ended

theorem expect_congr {k : Token.Kind} {e : ParseError} {f g : Token → Parser β} (ended : s.Ended) (more : k ≠ .eof)
    (next : ∀ v t, t.Ended → t.rest.length ≤ s.rest.length - 1 → f v t = g v t) :
    (expect k e >>= f) s = (expect k e >>= g) s :=
  bind_congr_of_gets (reads_expect ended more e (Nat.le_refl _)).gets rfl fun v t on => next v t on.ended

theorem expectName_congr {e : ParseError} {f g : Name → Parser β} (ended : s.Ended)
    (next : ∀ v t, t.Ended → t.rest.length ≤ s.rest.length - 1 → f v t = g v t) :
    (expectName e >>= f) s = (expectName e >>= g) s :=
  bind_congr_of_gets (reads_expectName ended e (Nat.le_refl _)).gets rfl fun v t on => next v t on.ended

theorem report_congr {u : Token} {e : ParseError} {x y : Parser β} (ended : s.Ended)
    (next : ∀ t : State, t.Ended → t.rest.length ≤ s.rest.length → x t = y t) :
    (do report u e; x) s = (do report u e; y) s :=
  next { s with errors := ⟨.parse e,u.pos,place u⟩ :: s.errors } ended (Nat.le_refl _)

/-! ## Expressions -/

/-- What is left behind an expression. -/
theorem gets_expression {lower : ℕ} (enough : 8 * s.rest.length + 1 ≤ n) (ended : s.Ended) :
    Gets (s.rest.length - 1) (max 1 (s.rest.length - 1)) s (expression n lower s) :=
  (expression_inStep (P := Eq) fresh_default.ne_nil (Nat.le_refl _) enough ended lower).gets

/-- What is left behind the arguments of a call. -/
theorem gets_arguments {count : ℕ} (enough : 8 * s.rest.length ≤ n) (ended : s.Ended) :
    Gets s.rest.length s.rest.length s (arguments n count s) :=
  ((expressionsInStep (P := Eq) fresh_default.ne_nil n).arguments (Nat.le_refl n) enough ended).gets

/-- What is left behind the parameters. -/
theorem gets_parameters {count : ℕ} (enough : 8 * s.rest.length ≤ n) (ended : s.Ended) :
    Gets s.rest.length s.rest.length s (parameters n count s) :=
  (parameters_inStep (P := Eq) fresh_default.ne_nil (Nat.le_refl n) enough ended).gets

/-- The parsers of expressions do the same with any larger bound. -/
structure ExpressionsUnbounded (n : ℕ) : Prop where
  expression {n' lower : ℕ} {s : State} : n ≤ n' → 8 * s.rest.length + 1 ≤ n → s.Ended →
    expression n lower s = expression n' lower s
  operand {n' : ℕ} {s : State} : n ≤ n' → 8 * s.rest.length ≤ n → s.Ended → operand n s = operand n' s
  operators {n' lower : ℕ} {d : Expr} {s : State} : n ≤ n' → 8 * s.rest.length ≤ n → s.Ended →
    operators n lower d s = operators n' lower d s
  extend {n' : ℕ} {t : Token} {d : Expr} {s : State} : n ≤ n' → 8 * s.rest.length + 2 ≤ n → s.Ended →
    extend n t d s = extend n' t d s
  arguments {n' count : ℕ} {s : State} : n ≤ n' → 8 * s.rest.length ≤ n → s.Ended →
    arguments n count s = arguments n' count s

namespace ExpressionsUnbounded
variable (h : ExpressionsUnbounded n)
include h

/-- An expression and what is done with it. -/
theorem expression_congr {lower : ℕ} {f g : Expr → Parser β} (hn : n ≤ n') (enough : 8 * s.rest.length + 1 ≤ n)
    (ended : s.Ended)
    (next : ∀ v t, t.Ended → t.rest.length ≤ s.rest.length - 1 → f v t = g v t) :
    (Parser.expression n lower >>= f) s = (Parser.expression n' lower >>= g) s :=
  bind_congr_of_gets (gets_expression enough ended) (h.expression hn enough ended) fun v t on => next v t on.ended

theorem expression_succ {lower : ℕ} (hn : n + 1 ≤ n') (enough : 8 * s.rest.length + 1 ≤ n + 1) (ended : s.Ended) :
    Parser.expression (n + 1) lower s = Parser.expression n' lower s := by
  obtain ⟨n',rfl⟩ : ∃ l, n' = l + 1 := ⟨n' - 1,by omega⟩
  have gets := ((expressionsInStep (P := Eq) fresh_default.ne_nil n).operand (Nat.le_refl _) (by omega) ended).gets
  rw [Parser.expression,Parser.expression]
  refine bind_congr_of_gets gets (h.operand (by omega) (by omega) ended) fun d t on less => ?_
  exact h.operators (by omega) (by omega) on.ended

theorem operand_succ (hn : n + 1 ≤ n') (enough : 8 * s.rest.length ≤ n + 1) (ended : s.Ended) :
    Parser.operand (n + 1) s = Parser.operand n' s := by
  obtain ⟨n',rfl⟩ : ∃ l, n' = l + 1 := ⟨n' - 1,by omega⟩
  rw [Parser.operand,Parser.operand]
  by_cases finish : s.peek.kind = .eof
  · -- At the end no form of an operand is tried.
    simp only [Bind.bind,EStateM.bind,advance_eq ended,finish]
  · refine past_congr ended finish fun t s' ended' less => ?_
    have two := ended.two_le finish
    have inner {f : Expr → Parser Expr} {lower : ℕ} :
        (Parser.expression n lower >>= f) s' = (Parser.expression n' lower >>= f) s' :=
      h.expression_congr (by omega) (by omega) ended' fun _ _ _ _ => rfl
    cases t.kind with
    | leftParen | bang | minus => exact inner
    | _ => rfl

theorem operators_succ {lower : ℕ} {d : Expr} (hn : n + 1 ≤ n') (enough : 8 * s.rest.length ≤ n + 1)
    (ended : s.Ended) : Parser.operators (n + 1) lower d s = Parser.operators n' lower d s := by
  obtain ⟨n',rfl⟩ : ∃ l, n' = l + 1 := ⟨n' - 1,by omega⟩
  rw [Parser.operators,Parser.operators]
  refine peek_congr ?_
  split
  · next binds =>
    have more : s.peek.kind ≠ .eof := fun e => by simp [e,level] at binds
    have two := ended.two_le more
    refine past_congr ended more fun _ t ended' less => ?_
    have gets := ((expressionsInStep (P := Eq) fresh_default.ne_nil n).extend (Nat.le_refl _) (by omega) ended'
      (Std.Refl.refl s.peek) (Std.Refl.refl d)).gets
    refine bind_congr_of_gets gets (h.extend (by omega) (by omega) ended') fun _ u on less' => ?_
    exact h.operators (by omega) (by omega) on.ended
  · rfl

theorem arguments_succ {count : ℕ} (hn : n + 1 ≤ n') (enough : 8 * s.rest.length ≤ n + 1) (ended : s.Ended) :
    Parser.arguments (n + 1) count s = Parser.arguments n' count s := by
  obtain ⟨n',rfl⟩ : ∃ l, n' = l + 1 := ⟨n' - 1,by omega⟩
  rw [arguments_eq,arguments_eq]
  refine atKind_congr ?_
  split
  · next comma =>
    have more : s.peek.kind ≠ .eof := fun e => by simp [e] at comma
    have two := ended.two_le more
    refine past_congr ended more fun _ t ended' less => ?_
    have others : ∀ u : State, u.Ended → u.rest.length ≤ t.rest.length →
        furtherArguments n count u = furtherArguments n' count u := by
      intro u ended₂ less₂
      refine h.expression_congr (by omega) (by omega) ended₂ fun head v ended₃ less₃ => ?_
      exact bind_congr_of_gets (gets_arguments (by omega) ended₃) (h.arguments (by omega) (by omega) ended₃) fun _ _ _ _ => rfl
    split
    · exact peek_congr (report_congr ended' others)
    · exact others t ended' (Nat.le_refl _)
  · rfl

theorem extend_succ {t : Token} {d : Expr} (hn : n + 1 ≤ n') (enough : 8 * s.rest.length + 2 ≤ n + 1)
    (ended : s.Ended) : Parser.extend (n + 1) t d s = Parser.extend n' t d s := by
  obtain ⟨n',rfl⟩ : ∃ l, n' = l + 1 := ⟨n' - 1,by omega⟩
  have pos := ended.pos
  have inner {f : Expr → Parser Expr} {lower : ℕ} :
      (Parser.expression n lower >>= f) s = (Parser.expression n' lower >>= f) s :=
    h.expression_congr (by omega) (by omega) ended fun _ _ _ _ => rfl
  have call : callTail n d s = callTail n' d s := by
    refine atKind_congr ?_
    split
    · rfl
    · refine h.expression_congr (by omega) (by omega) ended fun head u ended' less => ?_
      exact bind_congr_of_gets (gets_arguments (by omega) ended') (h.arguments (by omega) (by omega) ended') fun _ _ _ _ => rfl
  rw [Parser.extend,Parser.extend]
  cases binaryOp? t.kind with
  | some op => exact inner
  | none =>
    cases logicalOp? t.kind with
    | some op => exact inner
    | none =>
      cases t.kind with
      | equal => exact inner
      | dot => rfl
      | _ => exact call

end ExpressionsUnbounded

theorem expressionsUnbounded (n : ℕ) : ExpressionsUnbounded n := by
  induction n with
  | zero =>
    constructor
    case operand => exact fun _ enough ended => absurd enough ended.unspent
    case operators => exact fun _ enough ended => absurd enough ended.unspent
    case arguments => exact fun _ enough ended => absurd enough ended.unspent
    all_goals intros; omega
  | succ n ih => exact ⟨ih.expression_succ,ih.operand_succ,ih.operators_succ,ih.extend_succ,ih.arguments_succ⟩

/-! ## Parts of statements -/

section
variable (hn : n ≤ n')
include hn

theorem parameters_unbounded {count : ℕ} (enough : 8 * s.rest.length ≤ n) (ended : s.Ended) :
    parameters n count s = parameters n' count s := by
  induction n generalizing n' count s with
  | zero =>
    have := ended.pos
    omega
  | succ n ih =>
    obtain ⟨n',rfl⟩ : ∃ l, n' = l + 1 := ⟨n' - 1,by omega⟩
    rw [parameters_eq,parameters_eq]
    have others : ∀ t : State, t.Ended → t.rest.length ≤ s.rest.length →
        furtherParameters n count t = furtherParameters n' count t := by
      intro t ended less
      refine expectName_congr ended fun head u ended' less' => atKind_congr ?_
      split
      · next comma =>
        have more : u.peek.kind ≠ .eof := fun e => by simp [e] at comma
        have two := ended'.two_le more
        refine past_congr ended' more fun _ v ended₂ less₂ => ?_
        exact bind_congr_of_gets (gets_parameters (by omega) ended₂) (ih (by omega) (by omega) ended₂) fun _ _ _ _ => rfl
      · rfl
    split
    · exact peek_congr (report_congr ended others)
    · exact others s ended (Nat.le_refl _)

variable (enough : 8 * s.rest.length + 1 ≤ n) (ended : s.Ended)
include enough ended

theorem expression_unbounded {lower : ℕ} : expression n lower s = expression n' lower s :=
  (expressionsUnbounded n).expression hn enough ended

theorem expression_congr {lower : ℕ} {f g : Expr → Parser β}
    (next : ∀ v t, t.Ended → t.rest.length ≤ s.rest.length - 1 → f v t = g v t) :
    (expression n lower >>= f) s = (expression n' lower >>= g) s :=
  (expressionsUnbounded n).expression_congr hn enough ended next

theorem expressionStatement_unbounded : expressionStatement n s = expressionStatement n' s :=
  expression_congr hn enough ended fun _ _ _ _ => rfl

theorem variableDeclaration_unbounded : variableDeclaration n s = variableDeclaration n' s := by
  refine expectName_congr ended fun name t ended' less => atKind_congr ?_
  split
  · next equal =>
    have more : t.peek.kind ≠ .eof := fun e => by simp [e] at equal
    refine past_congr ended' more fun _ u ended₂ less₂ => ?_
    exact expression_congr hn (by omega) ended₂ fun _ _ _ _ => rfl
  · rfl

theorem printStatement_unbounded (t : Token) : printStatement n t s = printStatement n' t s :=
  expression_congr hn enough ended fun _ _ _ _ => rfl

theorem returnStatement_unbounded (t : Token) : returnStatement n t s = returnStatement n' t s := by
  refine atKind_congr ?_
  split
  · rfl
  · simp only [Bind.bind,EStateM.bind,Functor.map,EStateM.map,expression_unbounded hn enough ended]

theorem forInitializer_unbounded : forInitializer n s = forInitializer n' s := by
  refine peek_congr ?_
  have other : (some <$> expressionStatement n) s = (some <$> expressionStatement n') s :=
    map_congr some (expressionStatement_unbounded hn enough ended)
  cases kind : s.peek.kind with
  | semicolon => rfl
  | kwVar =>
    refine past_congr ended (by simp [kind]) fun _ t ended' less => ?_
    exact map_congr some (variableDeclaration_unbounded hn (by omega) ended')
  | _ => exact other

theorem forCondition_unbounded (t : Token) : forCondition n t s = forCondition n' t s := by
  refine atKind_congr ?_
  split
  · rfl
  · exact expression_congr hn enough ended fun _ _ _ _ => rfl

theorem forIncrement_unbounded : forIncrement n s = forIncrement n' s := by
  refine atKind_congr ?_
  split
  · rfl
  · exact expression_congr hn enough ended fun _ _ _ _ => rfl

end

theorem condition_congr {f g : Expr → Parser Stmt} {e e' : ParseError} (hn : n ≤ n')
    (enough : 8 * s.rest.length ≤ n) (ended : s.Ended)
    (next : ∀ d t, t.Ended → t.rest.length ≤ s.rest.length - 1 → f d t = g d t) :
    conditionThen n e e' f s = conditionThen n' e e' g s := by
  refine expect_congr ended (by decide) fun _ t ended₁ less₁ => ?_
  have := ended₁.pos
  refine expression_congr hn (by omega) ended₁ fun d u ended₂ less₂ => ?_
  refine expect_congr ended₂ (by decide) fun _ v ended₃ less₃ => ?_
  exact next d v ended₃ (by omega)

/-! ## Statements -/

theorem recovering_congr {x y : Parser Stmt} (same : x s = y s) : recovering x s = recovering y s := by
  rw [recovering_eq,recovering_eq,same]

/-- What is left behind the forms. -/
theorem statementsGet (n : ℕ) : StatementsInStep Eq [default] n := statementsInStep fresh_default n

theorem gets_declarations {inBlock : Bool} (enough : 8 * s.rest.length + 4 ≤ n) (ended : s.Ended) :
    Gets s.rest.length b s (declarations n inBlock s) :=
  ((statementsGet n).declarations (Nat.le_refl n) enough ended).gets

theorem gets_routine {kind : RoutineKind} {name : Name} (enough : 8 * s.rest.length ≤ n) (ended : s.Ended) :
    Gets (s.rest.length - 1) s.rest.length s (routine n kind name s) :=
  ((statementsGet n).routine (Nat.le_refl n) enough ended (Std.Refl.refl name)).gets

/-- The parsers of statements do the same with any larger bound. -/
structure StatementsUnbounded (n : ℕ) : Prop where
  declaration {n' : ℕ} {s : State} : n ≤ n' → 8 * s.rest.length + 3 ≤ n → s.Ended →
    declaration n s = declaration n' s
  declarations {n' : ℕ} {inBlock : Bool} {s : State} : n ≤ n' → 8 * s.rest.length + 4 ≤ n → s.Ended →
    declarations n inBlock s = declarations n' inBlock s
  block {n' : ℕ} {s : State} : n ≤ n' → 8 * s.rest.length + 5 ≤ n → s.Ended → block n s = block n' s
  routine {n' : ℕ} {kind : RoutineKind} {name : Name} {s : State} : n ≤ n' → 8 * s.rest.length ≤ n → s.Ended →
    routine n kind name s = routine n' kind name s
  classDeclaration {n' : ℕ} {s : State} : n ≤ n' → 8 * s.rest.length ≤ n → s.Ended →
    classDeclaration n s = classDeclaration n' s
  methods {n' : ℕ} {s : State} : n ≤ n' → 8 * s.rest.length ≤ n → s.Ended → methods n s = methods n' s
  statement {n' : ℕ} {s : State} : n ≤ n' → 8 * s.rest.length + 2 ≤ n → s.Ended → statement n s = statement n' s

namespace StatementsUnbounded
variable (h : StatementsUnbounded n)
include h

theorem declaration_succ (hn : n + 1 ≤ n') (enough : 8 * s.rest.length + 3 ≤ n + 1) (ended : s.Ended) :
    Parser.declaration (n + 1) s = Parser.declaration n' s := by
  obtain ⟨n',rfl⟩ : ∃ l, n' = l + 1 := ⟨n' - 1,by omega⟩
  rw [Parser.declaration,Parser.declaration]
  refine recovering_congr (peek_congr ?_)
  have statement := h.statement (show n ≤ n' by omega) (by omega) ended
  cases kind : s.peek.kind with
  | kwClass =>
    refine past_congr ended (by simp [kind]) fun _ t ended' less => ?_
    exact h.classDeclaration (by omega) (by omega) ended'
  | kwFun =>
    refine past_congr ended (by simp [kind]) fun _ t ended' less => ?_
    refine expectName_congr ended' fun name u ended₂ less₂ => ?_
    exact map_congr _ (h.routine (by omega) (by omega) ended₂)
  | kwVar =>
    refine past_congr ended (by simp [kind]) fun _ t ended' less => ?_
    exact variableDeclaration_unbounded (by omega) (by omega) ended'
  | _ => exact statement

theorem declarations_succ {inBlock : Bool} (hn : n + 1 ≤ n') (enough : 8 * s.rest.length + 4 ≤ n + 1)
    (ended : s.Ended) : Parser.declarations (n + 1) inBlock s = Parser.declarations n' inBlock s := by
  obtain ⟨n',rfl⟩ : ∃ l, n' = l + 1 := ⟨n' - 1,by omega⟩
  rw [Parser.declarations,Parser.declarations]
  refine peek_congr ?_
  split
  · rfl
  · next more =>
    have two := ended.two_le fun e => by simp [e] at more
    have gets := ((statementsGet n).declaration (Nat.le_refl n) (b := 0)
      (by omega) ended).gets
    refine bind_congr_of_gets gets (h.declaration (by omega) (by omega) ended) fun v t on less => ?_
    have same : Parser.declarations n inBlock t = Parser.declarations n' inBlock t :=
      h.declarations (by omega) (by omega) on.ended
    cases v with
    | none => exact same
    | some d => simp only [Bind.bind,EStateM.bind,same]

theorem block_succ (hn : n + 1 ≤ n') (enough : 8 * s.rest.length + 5 ≤ n + 1) (ended : s.Ended) :
    Parser.block (n + 1) s = Parser.block n' s := by
  obtain ⟨n',rfl⟩ : ∃ l, n' = l + 1 := ⟨n' - 1,by omega⟩
  rw [Parser.block,Parser.block]
  simp only [Bind.bind,EStateM.bind,h.declarations (show n ≤ n' by omega) (by omega) ended]

theorem routine_succ {kind : RoutineKind} {name : Name} (hn : n + 1 ≤ n') (enough : 8 * s.rest.length ≤ n + 1)
    (ended : s.Ended) : Parser.routine (n + 1) kind name s = Parser.routine n' kind name s := by
  obtain ⟨n',rfl⟩ : ∃ l, n' = l + 1 := ⟨n' - 1,by omega⟩
  rw [routine_eq,routine_eq]
  refine expect_congr ended (by decide) fun _ t ended₁ less₁ => atKind_congr ?_
  have finish (params : List Name) : ∀ u : State, u.Ended → u.rest.length ≤ t.rest.length →
      routineTail n kind name params u = routineTail n' kind name params u := by
    intro u ended₂ less₂
    refine expect_congr ended₂ (by decide) fun _ v ended₃ less₃ => ?_
    refine expect_congr ended₃ (by decide) fun _ w ended₄ less₄ => ?_
    have := ended₄.pos
    simp only [Bind.bind,EStateM.bind,h.block (show n ≤ n' by omega) (by omega) ended₄]
  split
  · exact finish [] t ended₁ (Nat.le_refl _)
  · have := ended₁.pos
    refine bind_congr_of_gets (gets_parameters (by omega) ended₁) (parameters_unbounded (by omega) (by omega) ended₁)
      fun params u on less₂ => ?_
    exact finish params u on.ended less₂

theorem methods_succ (hn : n + 1 ≤ n') (enough : 8 * s.rest.length ≤ n + 1) (ended : s.Ended) :
    Parser.methods (n + 1) s = Parser.methods n' s := by
  obtain ⟨n',rfl⟩ : ∃ l, n' = l + 1 := ⟨n' - 1,by omega⟩
  rw [Parser.methods,Parser.methods]
  refine peek_congr ?_
  split
  · rfl
  · refine expectName_congr ended fun name t ended₁ less₁ => ?_
    have := ended₁.pos
    refine bind_congr_of_gets (gets_routine (by omega) ended₁) (h.routine (by omega) (by omega) ended₁) fun head u on less₂ => ?_
    simp only [Bind.bind,EStateM.bind,h.methods (show n ≤ n' by omega) (by omega) on.ended]

theorem classDeclaration_succ (hn : n + 1 ≤ n') (enough : 8 * s.rest.length ≤ n + 1) (ended : s.Ended) :
    Parser.classDeclaration (n + 1) s = Parser.classDeclaration n' s := by
  obtain ⟨n',rfl⟩ : ∃ l, n' = l + 1 := ⟨n' - 1,by omega⟩
  rw [classDeclaration_eq,classDeclaration_eq]
  refine expectName_congr ended fun name t ended₁ less₁ => atKind_congr ?_
  have finish (superclass : Option Reference) : ∀ u : State, u.Ended → u.rest.length ≤ t.rest.length →
      classTail n name superclass u = classTail n' name superclass u := by
    intro u ended₂ less₂
    refine expect_congr ended₂ (by decide) fun _ v ended₃ less₃ => ?_
    have := ended₃.pos
    simp only [Bind.bind,EStateM.bind,h.methods (show n ≤ n' by omega) (by omega) ended₃]
  split
  · next derived =>
    have more : t.peek.kind ≠ .eof := fun e => by simp [e] at derived
    refine past_congr ended₁ more fun _ u ended₂ less₂ => ?_
    refine expectName_congr ended₂ fun base v ended₃ less₃ => ?_
    exact finish (some ⟨base,none⟩) v ended₃ (by omega)
  · exact finish none t ended₁ (Nat.le_refl _)

theorem statement_congr {f g : Stmt → Parser Stmt} (hn : n ≤ n') (enough : 8 * s.rest.length + 2 ≤ n)
    (ended : s.Ended) (next : ∀ v t, t.Ended → t.rest.length ≤ s.rest.length → f v t = g v t) :
    (Parser.statement n >>= f) s = (Parser.statement n' >>= g) s := by
  have := ended.pos
  have gets := ((statementsGet n).statement (Nat.le_refl n) enough ended).gets
  refine bind_congr_of_gets gets (h.statement hn enough ended) fun v t on less => ?_
  exact next v t on.ended (by omega)

theorem branchTail_unbounded {d : Expr} (hn : n ≤ n') (enough : 8 * s.rest.length + 2 ≤ n)
    (ended : s.Ended) (pos : Pos) : branchTail n pos d s = branchTail n' pos d s := by
  refine h.statement_congr hn enough ended fun yes t ended₁ less₁ => atKind_congr ?_
  split
  · next other =>
    have more : t.peek.kind ≠ .eof := fun e => by simp [e] at other
    refine past_congr ended₁ more fun _ u ended₂ less₂ => ?_
    exact h.statement_congr hn (by omega) ended₂ fun _ _ _ _ => rfl
  · rfl

theorem forTail_unbounded (hn : n ≤ n') (enough : 8 * s.rest.length ≤ n) (ended : s.Ended) (t : Token) :
    forTail n t s = forTail n' t s := by
  have eq := fresh_default.ne_nil
  refine expect_congr ended (by decide) fun _ u ended' less => ?_
  have := ended'.pos
  have first := (forInitializer_inStep (P := Eq) eq (Nat.le_refl n) (by omega) ended').gets
  refine bind_congr_of_gets first (forInitializer_unbounded hn (by omega) ended')
    fun init v on₁ less₁ => ?_
  have test := (forCondition_inStep (P := Eq) eq (Nat.le_refl n) (by omega) on₁.ended
    (Std.Refl.refl t)).gets
  refine bind_congr_of_gets test (forCondition_unbounded hn (by omega) on₁.ended _)
    fun d w on₂ less₂ => ?_
  have last := (forIncrement_inStep (P := Eq) eq (Nat.le_refl n) (by omega) on₂.ended).gets
  refine bind_congr_of_gets last (forIncrement_unbounded hn (by omega) on₂.ended) fun e z on₃ less₃ => ?_
  exact h.statement_congr hn (by omega) on₃.ended fun _ _ _ _ => rfl

theorem statement_succ (hn : n + 1 ≤ n') (enough : 8 * s.rest.length + 2 ≤ n + 1) (ended : s.Ended) :
    Parser.statement (n + 1) s = Parser.statement n' s := by
  obtain ⟨n',rfl⟩ : ∃ l, n' = l + 1 := ⟨n' - 1,by omega⟩
  rw [Parser.statement,Parser.statement]
  refine peek_congr ?_
  cases kind : s.peek.kind with
  | kwPrint =>
    refine past_congr ended (by simp [kind]) fun _ t ended₁ less₁ => ?_
    exact printStatement_unbounded (by omega) (by omega) ended₁ _
  | kwReturn =>
    refine past_congr ended (by simp [kind]) fun _ t ended₁ less₁ => ?_
    exact returnStatement_unbounded (by omega) (by omega) ended₁ _
  | kwIf =>
    refine past_congr ended (by simp [kind]) fun _ t ended₁ less₁ => ?_
    refine condition_congr (by omega) (by omega) ended₁ fun d u ended₂ less₂ => ?_
    have := ended₂.pos
    exact h.branchTail_unbounded (by omega) (by omega) ended₂ _
  | kwWhile =>
    refine past_congr ended (by simp [kind]) fun _ t ended₁ less₁ => ?_
    refine condition_congr (by omega) (by omega) ended₁ fun d u ended₂ less₂ => ?_
    have := ended₂.pos
    exact h.statement_congr (by omega) (by omega) ended₂ fun _ _ _ _ => rfl
  | kwFor =>
    refine past_congr ended (by simp [kind]) fun _ t ended₁ less₁ => ?_
    exact h.forTail_unbounded (by omega) (by omega) ended₁ _
  | leftBrace =>
    refine past_congr ended (by simp [kind]) fun _ t ended₁ less₁ => ?_
    have := ended₁.pos
    simp only [Bind.bind,EStateM.bind,h.block (show n ≤ n' by omega) (by omega) ended₁]
  | kwBreak | kwContinue => rfl
  | _ => exact expressionStatement_unbounded (by omega) (by omega) ended

end StatementsUnbounded

theorem statementsUnbounded (n : ℕ) : StatementsUnbounded n := by
  induction n with
  | zero =>
    constructor
    case routine => exact fun _ enough ended => absurd enough ended.unspent
    case classDeclaration => exact fun _ enough ended => absurd enough ended.unspent
    case methods => exact fun _ enough ended => absurd enough ended.unspent
    all_goals intros; omega
  | succ n ih =>
    exact ⟨ih.declaration_succ,ih.declarations_succ,ih.block_succ,ih.routine_succ,ih.classDeclaration_succ,
      ih.methods_succ,ih.statement_succ⟩

end Parser
end Lox
