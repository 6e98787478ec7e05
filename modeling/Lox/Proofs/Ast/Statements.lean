import Lox.Proofs.Ast.Lockstep

/-! # Statements in lockstep

What follows the tokens of a program must not be an `else`, which would belong to a branch at its end;
then all statements keep step, up to the last one. Declarations never give up: they recover.
-/
namespace Lox
namespace Parser
variable {P : Pos → Pos → Prop} {us : List Token} {α : Type} {a b : Nat} {closed : Prop}
  {rel : α → α → Prop} {s t : State}

/-! ## Parts of statements -/

section
variable [Std.Refl P] (hus : us ≠ [])
include hus

theorem parameters_inStep {n n' count : Nat} {s : State} (hn : n ≤ n')
    (enough : 8 * s.rest.length ≤ n) (ended : s.Ended) :
    InStep P us s.rest.length s.rest.length False (List.Forall₂ (Name.Alike P)) s
      (parameters n count) (parameters n' count) := by
  induction n generalizing n' count s with
  | zero =>
    have := ended.pos
    omega
  | succ n ih =>
    obtain ⟨n',rfl⟩ : ∃ l, n' = l + 1 := ⟨n' - 1,by omega⟩
    rw [parameters_eq,parameters_eq]
    have rest : ∀ {s' : State}, s'.Ended → s'.rest.length ≤ s.rest.length →
        InStep P us s.rest.length s.rest.length False (List.Forall₂ (Name.Alike P)) s'
          (furtherParameters n count) (furtherParameters n' count) := by
      intro s' ended less
      refine (inStep_expectName ended hus _ less).bind (fun _ _ t _ head on less => ?_) fun _ => trivial
      refine (inStep_atKind on.ended .comma).bind (fun comma _ s' ex same _ _ => ?_) id
      subst same
      cases ex
      split
      · next comma =>
        have two := on.ended.two_le fun e => by simp [e] at comma
        refine inStep_past on.ended two hus fun u ended' less' => ?_
        refine ((ih (by omega) (by omega) ended').within (by omega)).bind
          (fun _ _ _ _ others on' less'' => ?_) id
        exact .pure on'.ended (.cons head others) (by omega)
      · exact .pure on.ended (.cons head .nil) (by omega)
    split
    · refine (inStep_peek ended).bind (fun t u s' _ _ on less => ?_) id
      refine (inStep_report on.ended t u _).bind (fun _ _ _ _ _ on' less' => ?_) id
      exact rest on'.ended (by omega)
    · exact rest ended (Nat.le_refl _)

variable {n n' : Nat} (hn : n ≤ n') (enough : 8 * s.rest.length + 1 ≤ n) (ended : s.Ended)
include hn enough ended

theorem expression_inStep (lower : Nat) :
    InStep P us (s.rest.length - 1) (max 1 (s.rest.length - 1)) False (Expr.Alike P) s
      (expression n lower) (expression n' lower) :=
  (expressionsInStep hus n).expression hn enough ended

theorem expressionStatement_inStep :
    InStep P us (s.rest.length - 1) (max 1 (s.rest.length - 1)) True (Stmt.Alike P) s
      (expressionStatement n) (expressionStatement n') := by
  refine ((expression_inStep hus hn enough ended _).look fun _ _ t _ like on less => ?_).weaken
    (Nat.sub_le _ 1) (Nat.le_refl _) id
  exact inStep_over on.ended hus (by decide) _ (by omega) fun u ended' less' =>
    .pure ended' (.expression like) less'

theorem variableDeclaration_inStep :
    InStep P us (s.rest.length - 1) s.rest.length True (Stmt.Alike P) s
      (variableDeclaration n) (variableDeclaration n') := by
  rw [variableDeclaration_eq,variableDeclaration_eq]
  refine (inStep_expectName ended hus _ (Nat.le_refl _)).bind
    (fun name name' t _ like on less => ?_) fun _ => trivial
  have finish : ∀ {u : State} {d d' : Option Expr}, u.Ended → u.rest.length ≤ s.rest.length →
      Option.Rel (Expr.Alike P) d d' → InStep P us (u.rest.length - 1) s.rest.length True
        (Stmt.Alike P) u (variableTail name d) (variableTail name' d') := fun ended' less' init =>
    inStep_over ended' hus (by decide) _ less' fun _ ended'' less'' =>
      .pure ended'' (.var like init) less''
  refine ((inStep_atKind on.ended .equal).look fun equal _ u ex same _ _ => ?_).weaken
    (by omega) (Nat.le_refl _) id
  subst same
  cases ex
  split
  · next equal =>
    have two := on.ended.two_le fun e => by simp [e] at equal
    refine inStep_past on.ended two hus fun u ended' less' => ?_
    refine (((expression_inStep hus hn (by omega) ended' _).within (by omega)).look
      fun _ _ v _ init on' less'' => ?_).weaken (by omega) (Nat.le_refl _) id
    exact finish on'.ended (by omega) (.some init)
  · exact finish on.ended (by omega) .none

omit hn enough in
theorem jumpStatement_inStep {t t' : Token} (like : Token.Alike P t t') (j : Jump) :
    InStep P us (s.rest.length - 1) s.rest.length True (Stmt.Alike P) s
      (jumpStatement t j) (jumpStatement t' j) :=
  inStep_over ended hus (by decide) _ (Nat.le_refl _) fun _ ended' less =>
    .pure ended' (.jump like.pos) less

theorem printStatement_inStep {t t' : Token} (like : Token.Alike P t t') :
    InStep P us (s.rest.length - 1) s.rest.length True (Stmt.Alike P) s
      (printStatement n t) (printStatement n' t') := by
  have pos := ended.pos
  refine (((expression_inStep hus hn enough ended _).within (by omega)).look
    fun _ _ u _ inner on less => ?_).weaken (Nat.sub_le _ 1) (Nat.le_refl _) id
  exact inStep_over on.ended hus (by decide) _ (by omega) fun _ ended' less' =>
    .pure ended' (.print like.pos inner) less'

theorem returnStatement_inStep {t t' : Token} (like : Token.Alike P t t') :
    InStep P us (s.rest.length - 1) s.rest.length True (Stmt.Alike P) s
      (returnStatement n t) (returnStatement n' t') := by
  rw [returnStatement_eq,returnStatement_eq]
  have pos := ended.pos
  have finish : ∀ {u : State} {d d' : Option Expr}, u.Ended → u.rest.length ≤ s.rest.length →
      Option.Rel (Expr.Alike P) d d' → InStep P us (u.rest.length - 1) s.rest.length True
        (Stmt.Alike P) u (returnTail t.pos d) (returnTail t'.pos d') := fun ended' less' value =>
    inStep_over ended' hus (by decide) _ less' fun _ ended'' less'' =>
      .pure ended'' (.leave like.pos value) less''
  refine (inStep_atKind ended .semicolon).look fun semicolon _ u ex same _ _ => ?_
  subst same
  cases ex
  split
  · exact finish ended (Nat.le_refl _) .none
  · have value : InStep P us (s.rest.length - 1) s.rest.length False (Option.Rel (Expr.Alike P)) s
        (some <$> expression n lowestLevel) (some <$> expression n' lowestLevel) :=
      ((expression_inStep hus hn enough ended _).within (by omega)).map fun _ _ => .some
    refine (value.look fun _ _ v _ value on less => ?_).weaken (Nat.sub_le _ 1) (Nat.le_refl _) id
    exact finish on.ended (by omega) value

theorem forInitializer_inStep :
    InStep P us (s.rest.length - 1) s.rest.length True (Option.Rel (Stmt.Alike P)) s
      (forInitializer n) (forInitializer n') := by
  have pos := ended.pos
  refine (inStep_peek ended).look fun t u s' ex like on _ => ?_
  cases ex
  have statement : InStep P us (s.rest.length - 1) s.rest.length True (Option.Rel (Stmt.Alike P)) s
      (some <$> expressionStatement n) (some <$> expressionStatement n') :=
    ((expressionStatement_inStep hus hn enough ended).within (by omega)).map fun _ _ => .some
  rw [← like.kind]
  cases kind : s.peek.kind with
  | semicolon =>
    have two := ended.two_le (by simp [kind])
    exact inStep_past ended two hus fun _ ended' less => .pure ended' .none less
  | kwVar =>
    have two := ended.two_le (by simp [kind])
    refine inStep_past ended two hus fun v ended' less => ?_
    exact ((variableDeclaration_inStep hus hn (by omega) ended').map fun _ _ => .some).weaken
      (by omega) (by omega) id
  | _ => exact statement

theorem forCondition_inStep {t t' : Token} (like : Token.Alike P t t') :
    InStep P us (s.rest.length - 1) s.rest.length True (Expr.Alike P) s
      (forCondition n t) (forCondition n' t') := by
  have pos := ended.pos
  refine (inStep_atKind ended .semicolon).look fun semicolon _ u ex same _ _ => ?_
  subst same
  cases ex
  split
  · next semicolon =>
    have two := ended.two_le fun e => by simp [e] at semicolon
    exact inStep_past ended two hus fun _ ended' less => .pure ended' (.literal like.pos) less
  · refine (((expression_inStep hus hn enough ended _).within (by omega)).look
      fun _ _ u _ inner on less => ?_).weaken (Nat.sub_le _ 1) (Nat.le_refl _) id
    exact inStep_over on.ended hus (by decide) _ (by omega) fun _ ended' less' =>
      .pure ended' inner less'

theorem forIncrement_inStep :
    InStep P us (s.rest.length - 1) s.rest.length True (Option.Rel (Expr.Alike P)) s
      (forIncrement n) (forIncrement n') := by
  have pos := ended.pos
  refine (inStep_atKind ended .rightParen).look fun close _ u ex same _ _ => ?_
  subst same
  cases ex
  split
  · next close =>
    have two := ended.two_le fun e => by simp [e] at close
    exact inStep_past ended two hus fun _ ended' less => .pure ended' .none less
  · refine (((expression_inStep hus hn enough ended _).within (by omega)).look
      fun _ _ u _ inner on less => ?_).weaken (Nat.sub_le _ 1) (Nat.le_refl _) id
    exact inStep_over on.ended hus (by decide) _ (by omega) fun _ ended' less' =>
      .pure ended' (.some inner) less'

end

section
variable [Std.Refl P] (hus : us ≠ []) {n n' : Nat} (hn : n ≤ n')
  (enough : 8 * s.rest.length ≤ n) (ended : s.Ended)
include hus hn enough ended

/-- What is made of a condition need not use up anything: the parenthesis behind it does. -/
theorem condition_inStep {x y : Expr → Parser Stmt} {e e' : ParseError} (hb : s.rest.length ≤ b)
    (rest : ∀ d d' (t : State), t.Ended → t.rest.length ≤ s.rest.length - 1 → Expr.Alike P d d' →
      InStep P us t.rest.length b True (Stmt.Alike P) t (x d) (y d')) :
    InStep P us (s.rest.length - 1) b True (Stmt.Alike P) s
      (conditionThen n e e' x) (conditionThen n' e e' y) := by
  refine inStep_over ended hus (by decide) _ hb fun t ended₁ less₁ => ?_
  have := ended₁.pos
  refine (((expression_inStep hus hn (by omega) ended₁ _).within (by omega)).look
    fun d d' u _ test on less₂ => ?_).weaken (by omega) (Nat.le_refl _) id
  refine inStep_over on.ended hus (by decide) _ (by omega) fun v ended₂ less₃ => ?_
  exact (rest d d' v ended₂ (by omega) test).weaken less₃ (Nat.le_refl _) id

end

theorem forLoop_alike {p q : Pos} {init init' : Option Stmt} {d d' : Expr} {e e' : Option Expr}
    {body body' : Stmt} (pos : P p q) (first : Option.Rel (Stmt.Alike P) init init')
    (test : Expr.Alike P d d') (increment : Option.Rel (Expr.Alike P) e e')
    (like : Stmt.Alike P body body') :
    Stmt.Alike P (forLoop p init d e body) (forLoop q init' d' e' body') := by
  have loop : Stmt.Alike P (.loop p .clauses d body e) (.loop q .clauses d' body' e') :=
    .loop pos test like increment
  cases first with
  | none => exact loop
  | some first => exact .block pos (.cons first (.cons loop .nil))

/-! ## Recovery -/

theorem skip_suffix (last : Token) (ts : List Token) : (skip last ts).2 <:+ ts := by
  fun_induction skip last ts with
  | case1 => exact List.suffix_refl _
  | case2 => exact List.suffix_refl _
  | case3 last t rest _ empty => exact (List.isEmpty_iff.mp empty).symm ▸ List.suffix_refl [t]
  | case4 last t rest _ _ ih => exact ih.trans (List.suffix_cons t rest)

theorem skip_ne_nil (last : Token) {ts : List Token} (h : ts ≠ []) : (skip last ts).2 ≠ [] := by
  fun_induction skip last ts with
  | case1 => exact absurd rfl h
  | case2 => exact List.cons_ne_nil _ _
  | case3 => exact List.cons_ne_nil _ _
  | case4 last t rest _ more ih => exact ih fun e => more (List.isEmpty_iff.mpr e)

/-- The state behind a declaration that was given up. -/
def State.skipped (s : State) : State :=
  { s with last := (skip s.last s.rest).1, rest := (skip s.last s.rest).2 }

theorem onward_skipped (ended : s.Ended) : Onward s s.skipped := by
  have ne : s.rest ≠ [] := List.ne_nil_of_length_pos ended.pos
  exact ⟨ended.of_suffix (skip_suffix _ _) (skip_ne_nil _ ne),skip_suffix _ _,List.suffix_refl _⟩

theorem recovering_eq (p : Parser Stmt) (s : State) : recovering p s =
    match p s with
    | .ok v t => .ok (some v) t
    | .error _ t => .ok none t.skipped := by
  simp only [recovering,tryCatch,tryCatchThe,MonadExceptOf.tryCatch,EStateM.tryCatch,Functor.map,
    EStateM.map]
  cases p s <;> rfl

theorem Gets.recovering {x : Parser Stmt}
    (h : Gets (s.rest.length - 1) (max 1 (s.rest.length - 1)) s (x s)) :
    Gets (max 1 (s.rest.length - 1)) b s (recovering x s) := by
  rw [recovering_eq]
  cases ex : x s with
  | ok v t => rw [ex] at h; cases h with | ok on less => exact .ok on (by omega)
  | error e t =>
    rw [ex] at h
    cases h with
    | error on grew less =>
      have skipped := onward_skipped on.ended
      exact .ok (on.trans skipped) (Nat.le_trans skipped.length_le less)

theorem inStep_recovering {x y : Parser Stmt}
    (h : InStep P us (s.rest.length - 1) (max 1 (s.rest.length - 1)) True (Stmt.Alike P) s x y) :
    InStep P us (max 1 (s.rest.length - 1)) b True (Option.Rel (Stmt.Alike P)) s (recovering x)
      (recovering y) := by
  obtain ⟨gets,keeps⟩ := h
  constructor
  · exact gets.recovering
  · intro s' v t beside e quiet looked
    rw [recovering_eq] at e ⊢
    cases ex : x s with
    | ok v t =>
      rw [ex] at e
      cases e
      obtain ⟨w,t',ey,vw,beside,silent⟩ := keeps beside ex quiet (.inl trivial)
      exact ⟨some w,t',by rw [ey],.some vw,beside,silent⟩
    | error e' t =>
      rw [ex] at e gets
      cases e
      cases gets with
      | error on grew less => exact absurd quiet (Nat.not_le_of_lt grew)

/-! ## Statements -/

/-- Tokens that can follow a program. -/
def Fresh (us : List Token) : Prop := ∃ u ws, us = u :: ws ∧ u.kind ≠ .kwElse

theorem Fresh.ne_nil (fresh : Fresh us) : us ≠ [] := by
  obtain ⟨u,ws,rfl,-⟩ := fresh
  exact List.cons_ne_nil u ws

/-- That no `else` comes next is seen at the end as well. -/
theorem inStep_atElse (ended : s.Ended) (fresh : Fresh us) :
    InStep P us s.rest.length b True Eq s (atKind .kwElse) (atKind .kwElse) := by
  refine ⟨.ok (.refl ended) (Nat.le_refl _),fun {s' v t} beside e _ _ => ?_⟩
  cases e
  refine ⟨_,s',rfl,?_,beside,rfl⟩
  obtain ⟨ts,e,ts',rest,kind,rest',like⟩ := beside
  obtain ⟨u,ws,rfl,other⟩ := fresh
  cases like with
  | nil => simp [State.peek,rest,rest',kind,other]
  | cons like _ => simp [State.peek,rest,rest',like.kind]

/-- What the parsers of statements do under a bound on nested calls that is large enough. -/
structure StatementsInStep (P : Pos → Pos → Prop) (us : List Token) (n : Nat) : Prop where
  declaration {n' : Nat} {s : State} {b : Nat} : n ≤ n' → 8 * s.rest.length + 3 ≤ n → s.Ended →
    InStep P us (max 1 (s.rest.length - 1)) b True (Option.Rel (Stmt.Alike P)) s
      (declaration n) (declaration n')
  declarations {n' : Nat} {inBlock : Bool} {s : State} {b : Nat} : n ≤ n' →
    8 * s.rest.length + 4 ≤ n → s.Ended →
    InStep P us s.rest.length b False (BodyAlike P) s
      (declarations n inBlock) (declarations n' inBlock)
  block {n' : Nat} {s : State} : n ≤ n' → 8 * s.rest.length + 5 ≤ n → s.Ended →
    InStep P us (s.rest.length - 1) s.rest.length True (BodyAlike P) s (block n) (block n')
  routine {n' : Nat} {kind : RoutineKind} {name name' : Name} {s : State} : n ≤ n' →
    8 * s.rest.length ≤ n → s.Ended → Name.Alike P name name' →
    InStep P us (s.rest.length - 1) s.rest.length True (RoutineAlike P) s
      (routine n kind name) (routine n' kind name')
  classDeclaration {n' : Nat} {s : State} : n ≤ n' → 8 * s.rest.length ≤ n → s.Ended →
    InStep P us (s.rest.length - 1) s.rest.length True (Stmt.Alike P) s
      (classDeclaration n) (classDeclaration n')
  methods {n' : Nat} {s : State} : n ≤ n' → 8 * s.rest.length ≤ n → s.Ended →
    InStep P us s.rest.length s.rest.length False (RoutinesAlike P) s (methods n) (methods n')
  statement {n' : Nat} {s : State} : n ≤ n' → 8 * s.rest.length + 2 ≤ n → s.Ended →
    InStep P us (s.rest.length - 1) (max 1 (s.rest.length - 1)) True (Stmt.Alike P) s
      (statement n) (statement n')

namespace StatementsInStep
variable [Std.Refl P] {n n' : Nat} (h : StatementsInStep P us n) (fresh : Fresh us)
include h

theorem declarations_succ {inBlock : Bool} (hn : n + 1 ≤ n')
    (enough : 8 * s.rest.length + 4 ≤ n + 1) (ended : s.Ended) :
    InStep P us s.rest.length b False (BodyAlike P) s
      (Parser.declarations (n + 1) inBlock) (Parser.declarations n' inBlock) := by
  obtain ⟨n',rfl⟩ : ∃ l, n' = l + 1 := ⟨n' - 1,by omega⟩
  rw [Parser.declarations,Parser.declarations]
  refine (inStep_peek ended).bind (fun t u s' ex token _ _ => ?_) id
  cases ex
  rw [← token.kind]
  split
  · exact .pure ended .nil (Nat.le_refl _)
  · next more =>
    have two := ended.two_le fun e => by simp [e] at more
    refine (h.declaration (by omega) (by omega) ended).bind (fun v w s' _ like on less => ?_)
      fun _ => trivial
    have rest : InStep P us s.rest.length b False (BodyAlike P) s' (Parser.declarations n inBlock)
        (Parser.declarations n' inBlock) :=
      (h.declarations (by omega) (by omega) on.ended).weaken (by omega) (Nat.le_refl _) id
    cases like with
    | none => exact rest
    | some like =>
      exact rest.bind (fun _ _ _ _ likes on' less' => .pure on'.ended (.cons like likes) less') id

include fresh

theorem declaration_succ (hn : n + 1 ≤ n') (enough : 8 * s.rest.length + 3 ≤ n + 1)
    (ended : s.Ended) :
    InStep P us (max 1 (s.rest.length - 1)) b True (Option.Rel (Stmt.Alike P)) s
      (Parser.declaration (n + 1)) (Parser.declaration n') := by
  obtain ⟨n',rfl⟩ : ∃ l, n' = l + 1 := ⟨n' - 1,by omega⟩
  have hus := fresh.ne_nil
  rw [Parser.declaration,Parser.declaration]
  refine inStep_recovering ((inStep_peek ended).look fun t u s' ex token on _ => ?_)
  cases ex
  have statement := h.statement (show n ≤ n' by omega) (by omega) ended
  rw [← token.kind]
  cases kind : s.peek.kind with
  | kwClass =>
    have two := ended.two_le (by simp [kind])
    refine inStep_past ended two hus fun s' ended' less => ?_
    exact (h.classDeclaration (by omega) (by omega) ended').weaken (by omega) (by omega) id
  | kwFun =>
    have two := ended.two_le (by simp [kind])
    refine inStep_past ended two hus fun s' ended' less => ?_
    refine (inStep_expectName ended' hus _ (by omega)).bind (fun _ _ s'' _ name on' less' => ?_)
      fun _ => trivial
    exact ((h.routine (by omega) (by omega) on'.ended name).map fun _ _ => .function).weaken
      (by omega) (by omega) id
  | kwVar =>
    have two := ended.two_le (by simp [kind])
    refine inStep_past ended two hus fun s' ended' less => ?_
    exact (variableDeclaration_inStep hus (by omega) (by omega) ended').weaken (by omega) (by omega) id
  | _ => exact statement

theorem block_succ (hn : n + 1 ≤ n') (enough : 8 * s.rest.length + 5 ≤ n + 1) (ended : s.Ended) :
    InStep P us (s.rest.length - 1) s.rest.length True (BodyAlike P) s
      (Parser.block (n + 1)) (Parser.block n') := by
  obtain ⟨n',rfl⟩ : ∃ l, n' = l + 1 := ⟨n' - 1,by omega⟩
  rw [Parser.block,Parser.block]
  refine (h.declarations (by omega) (by omega) ended).look fun ss ts s' _ body on less => ?_
  rcases Nat.lt_or_ge s'.rest.length 2 with short | two
  · -- Behind the last declaration is the end, and the block is not closed.
    have kind := on.ended.peek_of_le (Nat.le_of_lt_succ short)
    have on' := onward_advance on.ended
    refine .fail (e := .abort) (t := { s'.advance with
      errors := ⟨.parse .unclosedBlock,s'.peek.pos,place s'.peek⟩ :: s'.advance.errors }) ?_
      ⟨on'.ended,on'.rest,on'.errors.trans (List.suffix_cons _ _)⟩ ?_ ?_
    · simp only [Bind.bind,EStateM.bind,advance_eq on.ended,kind]
      rfl
    · exact Nat.lt_succ_of_le on'.errors_le
    · exact Nat.le_trans on'.length_le less
  · refine (inStep_advance on.ended two fresh.ne_nil).bind (fun t u s'' _ token on' less' => ?_)
      fun _ => trivial
    rw [← token.kind]
    split
    · exact .pure on'.ended body less'
    · exact inStep_giveUp on'.ended _ _ _ (by omega)

theorem routine_succ {kind : RoutineKind} {name name' : Name} (hn : n + 1 ≤ n')
    (enough : 8 * s.rest.length ≤ n + 1) (ended : s.Ended) (like : Name.Alike P name name') :
    InStep P us (s.rest.length - 1) s.rest.length True (RoutineAlike P) s
      (Parser.routine (n + 1) kind name) (Parser.routine n' kind name') := by
  obtain ⟨n',rfl⟩ : ∃ l, n' = l + 1 := ⟨n' - 1,by omega⟩
  have hus := fresh.ne_nil
  rw [routine_eq,routine_eq]
  refine inStep_over ended hus (by decide) _ (Nat.le_refl _) fun s' ended' less => ?_
  have finish : ∀ {u : State} {ps qs : List Name}, u.Ended → u.rest.length ≤ s'.rest.length →
      List.Forall₂ (Name.Alike P) ps qs → InStep P us (u.rest.length - 1) s.rest.length True
        (RoutineAlike P) u (routineTail n kind name ps) (routineTail n' kind name' qs) := by
    intro u ps qs ended₁ less₁ params
    refine inStep_over ended₁ hus (by decide) _ (by omega) fun v ended₂ less₂ => ?_
    refine inStep_over ended₂ hus (by decide) _ (by omega) fun w ended₃ less₃ => ?_
    have := ended₃.pos
    refine ((h.block (by omega) (by omega) ended₃).within (by omega)).bind
      (fun _ _ _ _ body on less₄ => ?_) id
    exact .pure on.ended (.mk like params body) (by omega)
  refine ((inStep_atKind ended' .rightParen).look fun close _ u ex same _ _ => ?_).weaken
    (by omega) (Nat.le_refl _) id
  subst same
  cases ex
  split
  · exact finish ended' (Nat.le_refl _) .nil
  · refine (((parameters_inStep hus (by omega) (by omega) ended').within (by omega)).look
      fun _ _ u _ params on less' => ?_)
    exact finish on.ended less' params

theorem methods_succ (hn : n + 1 ≤ n') (enough : 8 * s.rest.length ≤ n + 1) (ended : s.Ended) :
    InStep P us s.rest.length s.rest.length False (RoutinesAlike P) s
      (Parser.methods (n + 1)) (Parser.methods n') := by
  obtain ⟨n',rfl⟩ : ∃ l, n' = l + 1 := ⟨n' - 1,by omega⟩
  rw [Parser.methods,Parser.methods]
  refine (inStep_peek ended).bind (fun t u s' ex token _ _ => ?_) id
  cases ex
  rw [← token.kind]
  split
  · exact .pure ended .nil (Nat.le_refl _)
  · refine (inStep_expectName ended fresh.ne_nil _ (Nat.le_refl _)).bind
      (fun _ _ s' _ name on less => ?_) fun _ => trivial
    refine ((h.routine (by omega) (by omega) on.ended name).within (by omega)).bind
      (fun _ _ s'' _ head on' less' => ?_) fun _ => trivial
    refine ((h.methods (by omega) (by omega) on'.ended).within (by omega)).bind
      (fun _ _ _ _ others on'' less'' => ?_) id
    exact .pure on''.ended (.cons head others) (by omega)

theorem classDeclaration_succ (hn : n + 1 ≤ n') (enough : 8 * s.rest.length ≤ n + 1)
    (ended : s.Ended) :
    InStep P us (s.rest.length - 1) s.rest.length True (Stmt.Alike P) s
      (Parser.classDeclaration (n + 1)) (Parser.classDeclaration n') := by
  obtain ⟨n',rfl⟩ : ∃ l, n' = l + 1 := ⟨n' - 1,by omega⟩
  have hus := fresh.ne_nil
  rw [classDeclaration_eq,classDeclaration_eq]
  refine (inStep_expectName ended hus _ (Nat.le_refl _)).bind (fun name name' s' _ like on less => ?_)
    fun _ => trivial
  have finish : ∀ {u : State} {r r' : Option Reference}, u.Ended →
      u.rest.length ≤ s'.rest.length → Option.Rel (Reference.Alike P) r r' →
      InStep P us (u.rest.length - 1) s.rest.length True (Stmt.Alike P) u (classTail n name r)
        (classTail n' name' r') := by
    intro u r r' ended₁ less₁ superclass
    refine inStep_over ended₁ hus (by decide) _ (by omega) fun v ended₂ less₂ => ?_
    refine (((h.methods (by omega) (by omega) ended₂).within (by omega)).look
      fun _ _ w _ members on less₃ => ?_).weaken (by omega) (Nat.le_refl _) id
    exact inStep_over on.ended hus (by decide) _ (by omega) fun _ ended₃ less₄ =>
      .pure ended₃ (.klass like superclass members) less₄
  refine ((inStep_atKind on.ended .less).look fun less' _ u ex same _ _ => ?_).weaken
    (by omega) (Nat.le_refl _) id
  subst same
  cases ex
  split
  · next derived =>
    have two := on.ended.two_le fun e => by simp [e] at derived
    refine inStep_past on.ended two hus fun u ended₁ less₁ => ?_
    refine (inStep_expectName ended₁ hus _ (by omega)).bind (fun base base' v _ like on' less₂ => ?_)
      fun _ => trivial
    have superclass : Option.Rel (Reference.Alike P) (some ⟨base,none⟩) (some ⟨base',none⟩) :=
      .some ⟨like,rfl⟩
    exact (finish on'.ended (by omega) superclass).weaken (by omega) (Nat.le_refl _) id
  · exact finish on.ended (Nat.le_refl _) .none

theorem branchTail_inStep {p q : Pos} {d d' : Expr} (hn : n ≤ n')
    (enough : 8 * s.rest.length + 2 ≤ n) (ended : s.Ended) (pos : P p q) (test : Expr.Alike P d d') :
    InStep P us (s.rest.length - 1) s.rest.length True (Stmt.Alike P) s
      (branchTail n p d) (branchTail n' q d') := by
  have := ended.pos
  refine ((h.statement hn enough ended).within (by omega)).bind (fun _ _ t _ yes on less => ?_) id
  refine (inStep_atElse on.ended fresh).bind (fun other _ t' ex same _ _ => ?_) id
  subst same
  cases ex
  split
  · next other =>
    have two := on.ended.two_le fun e => by simp [e] at other
    refine inStep_past on.ended two fresh.ne_nil fun u ended' less' => ?_
    refine ((h.statement hn (by omega) ended').within (by omega)).bind
      (fun _ _ _ _ no on' less'' => ?_) id
    exact .pure on'.ended (.branchElse pos test yes no) (by omega)
  · exact .pure on.ended (.branch pos test yes) less

theorem forTail_inStep {t t' : Token} (hn : n ≤ n') (enough : 8 * s.rest.length ≤ n)
    (ended : s.Ended) (token : Token.Alike P t t') :
    InStep P us (s.rest.length - 1) s.rest.length True (Stmt.Alike P) s
      (forTail n t) (forTail n' t') := by
  have hus := fresh.ne_nil
  refine inStep_over ended hus (by decide) _ (Nat.le_refl _) fun u ended' less => ?_
  have := ended'.pos
  refine ((forInitializer_inStep hus hn (by omega) ended').within (by omega)).bind
    (fun _ _ v _ init on₁ less₁ => ?_) id
  refine ((forCondition_inStep hus hn (by omega) on₁.ended token).within (by omega)).bind
    (fun _ _ w _ test on₂ less₂ => ?_) id
  refine ((forIncrement_inStep hus hn (by omega) on₂.ended).within (by omega)).bind
    (fun _ _ z _ increment on₃ less₃ => ?_) id
  refine ((h.statement hn (by omega) on₃.ended).within (by omega)).bind
    (fun _ _ _ _ body on₄ less₄ => ?_) id
  exact .pure on₄.ended (forLoop_alike token.pos init test increment body) (by omega)

theorem statement_succ (hn : n + 1 ≤ n') (enough : 8 * s.rest.length + 2 ≤ n + 1)
    (ended : s.Ended) :
    InStep P us (s.rest.length - 1) (max 1 (s.rest.length - 1)) True (Stmt.Alike P) s
      (Parser.statement (n + 1)) (Parser.statement n') := by
  obtain ⟨n',rfl⟩ : ∃ l, n' = l + 1 := ⟨n' - 1,by omega⟩
  have hus := fresh.ne_nil
  rw [Parser.statement,Parser.statement]
  refine (inStep_peek ended).look fun t u s' ex token _ _ => ?_
  cases ex
  rw [← token.kind]
  have past : ∀ {x y : Parser Stmt}, s.peek.kind ≠ .eof →
      (∀ t : State, t.Ended → t.rest.length ≤ s.rest.length - 1 →
        InStep P us (s.rest.length - 1) (s.rest.length - 1) True (Stmt.Alike P) t x y) →
      InStep P us (s.rest.length - 1) (max 1 (s.rest.length - 1)) True (Stmt.Alike P) s
        (do let _ ← advance; x) (do let _ ← advance; y) := fun more rest =>
    inStep_past ended (ended.two_le more) hus fun t ended less => (rest t ended less).within (by omega)
  cases kind : s.peek.kind with
  | kwPrint =>
    refine past (by simp [kind]) fun t ended less => ?_
    exact (printStatement_inStep hus (by omega) (by omega) ended token).weaken (by omega) (by omega) id
  | kwReturn =>
    refine past (by simp [kind]) fun t ended less => ?_
    exact (returnStatement_inStep hus (by omega) (by omega) ended token).weaken (by omega) (by omega)
      id
  | kwIf =>
    refine past (by simp [kind]) fun t ended₁ less₁ => ?_
    refine (condition_inStep hus (by omega) (by omega) ended₁ less₁
      fun d d' u ended₂ less₂ test => ?_).weaken (by omega) (Nat.le_refl _) id
    have := ended₂.pos
    exact (h.branchTail_inStep fresh (by omega) (by omega) ended₂ token.pos test).weaken
      (by omega) (by omega) id
  | kwWhile =>
    refine past (by simp [kind]) fun t ended₁ less₁ => ?_
    refine (condition_inStep hus (by omega) (by omega) ended₁ less₁
      fun d d' u ended₂ less₂ test => ?_).weaken (by omega) (Nat.le_refl _) id
    have := ended₂.pos
    refine ((h.statement (by omega) (by omega) ended₂).within (by omega)).bind
      (fun _ _ v _ body on less₃ => ?_) id
    exact .pure on.ended (.loop token.pos test body .none) (by omega)
  | kwFor =>
    refine past (by simp [kind]) fun t ended less => ?_
    exact (h.forTail_inStep fresh (by omega) (by omega) ended token).weaken (by omega) less id
  | kwBreak =>
    refine past (by simp [kind]) fun t ended less => ?_
    exact (jumpStatement_inStep hus ended token _).weaken (by omega) (by omega) id
  | kwContinue =>
    refine past (by simp [kind]) fun t ended less => ?_
    exact (jumpStatement_inStep hus ended token _).weaken (by omega) (by omega) id
  | leftBrace =>
    refine past (by simp [kind]) fun t ended less => ?_
    have := ended.pos
    refine ((h.block (by omega) (by omega) ended).within (by omega)).bind
      (fun _ _ u _ body on less' => ?_) id
    exact .pure on.ended (.block token.pos body) (by omega)
  | _ =>
    exact expressionStatement_inStep hus (by omega) (by omega) ended

end StatementsInStep

theorem statementsInStep [Std.Refl P] (fresh : Fresh us) (n : Nat) : StatementsInStep P us n := by
  induction n with
  | zero =>
    constructor
    case routine => exact fun _ enough ended _ => absurd enough ended.unspent
    case classDeclaration => exact fun _ enough ended => absurd enough ended.unspent
    case methods => exact fun _ enough ended => absurd enough ended.unspent
    all_goals intros; omega
  | succ n ih =>
    exact ⟨ih.declaration_succ fresh,ih.declarations_succ,ih.block_succ fresh,ih.routine_succ fresh,
      ih.classDeclaration_succ fresh,ih.methods_succ fresh,ih.statement_succ fresh⟩

/-! ## Progress -/

/-- A parser that cannot give up anywhere does not. -/
theorem Gets.eq_ok {x : EStateM.Result Abort State α} (h : Gets a 0 s x) :
    ∃ v t, x = .ok v t ∧ Onward s t ∧ t.rest.length ≤ a := by
  cases h with
  | ok on less => exact ⟨_,_,rfl,on,less⟩
  | error on _ none => exact absurd on.ended.pos (by omega)

theorem declaration_eq_ok {n : Nat} (enough : 8 * s.rest.length + 3 ≤ n) (ended : s.Ended) :
    ∃ v t, declaration n s = .ok v t ∧ Onward s t ∧ t.rest.length ≤ max 1 (s.rest.length - 1) :=
  have fresh : Fresh [default] := ⟨default,[],rfl,by decide⟩
  ((statementsInStep (P := Eq) fresh n).declaration (Nat.le_refl n) enough ended).gets.eq_ok

theorem declarations_eq_ok {n : Nat} {inBlock : Bool} (enough : 8 * s.rest.length + 4 ≤ n)
    (ended : s.Ended) : ∃ p t, declarations n inBlock s = .ok p t ∧ Onward s t := by
  have fresh : Fresh [default] := ⟨default,[],rfl,by decide⟩
  obtain ⟨p,t,e,on,-⟩ :=
    ((statementsInStep (P := Eq) fresh n).declarations (Nat.le_refl n) enough ended).gets.eq_ok
  exact ⟨p,t,e,on⟩

end Parser
end Lox
