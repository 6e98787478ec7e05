import Lox.Proofs.Ast.Operands
import Lox.Proofs.Ast.Sentences
import Lox.Proofs.Session.Compilation
import Lox.Proofs.Token.Layout

/-! # Syntax errors are found as early as possible

The first error that gives up a declaration is about the first token with which the tokens so far start
no program. Where a statement ends a program can go on in two ways only if an `else` comes next, and
then the innermost branch takes it.
-/
namespace Lox
namespace Parser
open Lox.Symbol Token.Kind

/-- Words in which an `else` at the start belongs to a branch. -/
def Absorbs (K : Language Token.Kind) : Prop :=
  ∀ w, kwElse :: w ∈ K → kwElse :: w ∈ language [kwElse,.statement] * K

section
variable {ts : List Token} {K : Language Token.Kind} {s : State} {k : Token.Kind} {ss : List Symbol}
  {n : ℕ} {α : Type} {Q : State → Prop}

theorem leads_return {v : α} (on : Follows ts (language [] * K) s ∨ Strays ts s) :
    Leads ts (Follows ts K) ((pure v : Parser α) s) := by
  rw [language_nil_mul] at on
  exact .ok on

/-- The last token of a statement. -/
theorem leads_close {v : α} {e : ParseError} (on : Follows ts (language [token k] * K) s ∨ Strays ts s)
    (ended : s.Ended) (more : k ≠ .eof) (aborts : e.aborts = true) :
    Leads ts (Follows ts K) ((do let _ ← expect k e; return v : Parser α) s) :=
  leads_expect on ended more aborts fun _ _ _ _ on => leads_return on

/-- A token that starts no phrase of a kind. -/
theorem not_mem_of_starts {a : Symbol} (phrase : a.mayBeEmpty = false) (h : ¬a.starts k)
    (w : List Token.Kind) : k :: w ∉ language (a :: ss) * K := fun hw =>
  h (starts_of_cons phrase hw)

theorem not_mem_token {l : Token.Kind} (h : k ≠ l) (w : List Token.Kind) :
    k :: w ∉ language (token l :: ss) * K := fun hw => h (cons_mem_token.mp hw).1

/-- An expression that may be left out is not there before the token behind it. -/
theorem follows_token (on : Follows ts (language (.value :: token k :: ss) * K) s ∨ Strays ts s)
    (kind : s.peek.kind = k) (plain : opensExpression k = false) :
    Follows ts (language (token k :: ss) * K) s ∨ Strays ts s :=
  on.imp_left fun f => f.skipped optional_value (not_mem_of_starts rfl fun start => by
    rw [kind] at start
    exact Bool.false_ne_true (plain.symm.trans start))

theorem follows_expression (on : Follows ts (language (.value :: token k :: ss) * K) s ∨ Strays ts s)
    (kind : s.peek.kind ≠ k) :
    Follows ts (language (.expression 1 :: token k :: ss) * K) s ∨ Strays ts s :=
  on.imp_left fun f => f.taken optional_value fun w hw => absurd hw (not_mem_token kind w)

/-! ## Parts of statements -/

theorem leads_parameters {count : ℕ} (enough : 8 * s.rest.length ≤ n) (ended : s.Ended)
    (on : Follows ts (language (token identifier :: moreParameters :: token rightParen :: ss) * K) s ∨
      Strays ts s) :
    Leads ts (Follows ts (language (token rightParen :: ss) * K)) (parameters n count s) := by
  induction n generalizing count s with
  | zero =>
    have := ended.pos
    omega
  | succ n ih =>
    rw [parameters_eq]
    have rest : ∀ {s' : State}, s'.Ended → s'.rest.length ≤ s.rest.length →
        Follows ts (language (token identifier :: moreParameters :: token rightParen :: ss) * K) s' ∨
          Strays ts s' →
        Leads ts (Follows ts (language (token rightParen :: ss) * K)) (furtherParameters n count s') := by
      intro s' ended less on
      refine leads_expectName on ended rfl fun head t ended' less' on => ?_
      rw [atKind_bind]
      split
      · next kind =>
        have kind := of_decide_eq_true kind
        have two := ended'.two_le fun e => by simp [e] at kind
        have on : Follows ts
            (language (token comma :: token identifier :: moreParameters :: token rightParen :: ss) * K) t ∨
              Strays ts t :=
          on.imp_left fun f => f.taken optional_moreParameters fun w hw =>
            absurd hw (not_mem_token (by rw [kind]; decide) w)
        refine leads_past on ended' kind (by decide) fun _ u ended'' less'' on => ?_
        refine (ih (by omega) ended'' on).bind (parameters_read (by omega) ended'').gets
          fun _ _ _ _ on => .ok on
      · next other =>
        refine .ok (on.imp_left fun f => f.skipped optional_moreParameters ?_)
        exact not_mem_token fun kind => other (decide_eq_true kind)
    split
    · rw [peek_bind]
      refine leads_report ended _ rfl fun t ended' less _ follows strays => ?_
      exact rest ended' less (on.imp (follows _) strays)
    · exact rest ended le_rfl on

variable (valued : ∀ t ∈ ts, t.Valued)

section
variable (enough : 8 * s.rest.length + 1 ≤ n) (ended : s.Ended)
include valued enough ended

/-- An expression before a token that is no operator. -/
theorem leads_expression {f : Expr → Parser α}
    (on : Follows ts (language (.expression 1 :: token k :: ss) * K) s ∨ Strays ts s)
    (plain : level k = 0) (next : ∀ e t, t.Ended → t.rest.length ≤ s.rest.length - 1 →
      Follows ts (language (token k :: ss) * K) t ∨ Strays ts t → Leads ts Q (f e t)) :
    Leads ts Q ((expression n lowestLevel >>= f) s) := by
  rw [language_cons_mul] at on
  refine ((expressionsTrack valued n).expression 0 enough ended (Nat.zero_le 8)
    (low_token plain.le) on).bind (expression_reads enough ended).gets fun e t onward less on => ?_
  exact next e t onward.ended less (on.imp_left And.left)

/-- A condition in parentheses. -/
theorem leads_condition {f : Expr → Parser α} {e e' : ParseError} (aborts : e.aborts = true)
    (aborts' : e'.aborts = true)
    (on : Follows ts (language (token leftParen :: .expression 1 :: token rightParen :: ss) * K) s ∨
      Strays ts s)
    (next : ∀ d t, t.Ended → t.rest.length ≤ s.rest.length - 1 →
      Follows ts (language ss * K) t ∨ Strays ts t → Leads ts Q (f d t)) :
    Leads ts Q (conditionThen n e e' f s) := by
  refine leads_expect on ended (by decide) aborts fun _ t ended₁ less₁ on => ?_
  refine leads_expression valued (by omega) ended₁ on rfl fun d u ended₂ less₂ on => ?_
  refine leads_expect on ended₂ (by decide) aborts' fun _ v ended₃ less₃ on => ?_
  exact next d v ended₃ (by omega) on

theorem leads_expressionStatement
    (on : Follows ts (language [.expression 1,semicolon] * K) s ∨ Strays ts s) :
    Leads ts (Follows ts K) (expressionStatement n s) :=
  leads_expression valued enough ended on rfl fun _ _ ended _ on =>
    leads_close on ended (by decide) rfl

theorem leads_printStatement (t : Token)
    (on : Follows ts (language [.expression 1,semicolon] * K) s ∨ Strays ts s) :
    Leads ts (Follows ts K) (printStatement n t s) :=
  leads_expression valued enough ended on rfl fun _ _ ended _ on =>
    leads_close on ended (by decide) rfl

omit valued enough ended in
theorem follows_binding (on : Follows ts (language (binding :: ss) * K) s ∨ Strays ts s) :
    Follows ts (language [identifier,initializer,semicolon] * (language ss * K)) s ∨ Strays ts s :=
  on.imp_left fun f => by
    rw [← mul_assoc,← language_append]
    exact f.choose .binding fun _ _ rule _ => by cases rule; rfl

theorem leads_variableDeclaration
    (on : Follows ts (language [identifier,initializer,semicolon] * K) s ∨ Strays ts s) :
    Leads ts (Follows ts K) (variableDeclaration n s) := by
  rw [variableDeclaration_eq]
  refine leads_expectName on ended rfl fun name t ended' less on => ?_
  have finish : ∀ {init : Option Expr} {u : State}, u.Ended →
      Follows ts (language [semicolon] * K) u ∨ Strays ts u → Leads ts (Follows ts K)
        (variableTail name init u) := fun ended on =>
    leads_close on ended (by decide) rfl
  rw [atKind_bind]
  split
  · next kind =>
    have kind := of_decide_eq_true kind
    have two := ended'.two_le fun e => by simp [e] at kind
    have on : Follows ts (language [equal,.expression 1,semicolon] * K) t ∨ Strays ts t :=
      on.imp_left fun f => f.taken optional_initializer fun w hw =>
        absurd hw (not_mem_token (by rw [kind]; decide) w)
    refine leads_past on ended' kind (by decide) fun _ u ended'' less' on => ?_
    exact leads_expression valued (by omega) ended'' on rfl fun _ _ ended _ on => finish ended on
  · next other =>
    refine finish ended' (on.imp_left fun f => f.skipped optional_initializer ?_)
    exact not_mem_token fun kind => other (decide_eq_true kind)

omit valued enough in
theorem leads_jumpStatement (t : Token) (j : Jump)
    (on : Follows ts (language [semicolon] * K) s ∨ Strays ts s) :
    Leads ts (Follows ts K) (jumpStatement t j s) :=
  leads_close on ended (by decide) rfl

theorem leads_returnStatement (t : Token)
    (on : Follows ts (language [.value,semicolon] * K) s ∨ Strays ts s) :
    Leads ts (Follows ts K) (returnStatement n t s) := by
  rw [returnStatement_eq,atKind_bind]
  split
  · next kind =>
    exact leads_close (follows_token on (of_decide_eq_true kind) rfl) ended (by decide) rfl
  · next other =>
    have on := follows_expression on fun kind => other (decide_eq_true kind)
    rw [map_eq_pure_bind,bind_assoc]
    refine leads_expression valued enough ended on rfl fun _ _ ended _ on => ?_
    rw [pure_bind]
    exact leads_close on ended (by decide) rfl

theorem leads_forInitializer (on : Follows ts (language (.clauseStart :: ss) * K) s ∨ Strays ts s) :
    Leads ts (Follows ts (language ss * K)) (forInitializer n s) := by
  replace on : Follows ts (language (clauseForm s.peek.kind ++ ss) * K) s ∨ Strays ts s :=
    on.imp_left fun f => f.choose (rule_clauseForm _) fun _ _ => eq_clauseForm
  have other : Follows ts (language ([.expression 1,token semicolon] ++ ss) * K) s ∨ Strays ts s →
      Leads ts (Follows ts (language ss * K)) ((some <$> expressionStatement n) s) := fun on => by
    rw [language_append,mul_assoc] at on
    exact (leads_expressionStatement valued enough ended on).map
  rw [forInitializer,peek_bind]
  cases kind : s.peek.kind with
  | semicolon =>
    rw [kind] at on
    exact leads_past on ended kind (by decide) fun _ _ _ _ on => .ok on
  | kwVar =>
    rw [kind] at on
    have two := ended.two_le (by simp [kind])
    refine leads_past on ended kind (by decide) fun _ t ended' less on => ?_
    exact (leads_variableDeclaration valued (by omega) ended' (follows_binding on)).map
  | _ =>
    rw [kind] at on
    exact other on

theorem leads_forCondition (t : Token)
    (on : Follows ts (language (.value :: token semicolon :: ss) * K) s ∨ Strays ts s) :
    Leads ts (Follows ts (language ss * K)) (forCondition n t s) := by
  rw [forCondition,atKind_bind]
  split
  · next kind =>
    have kind := of_decide_eq_true kind
    exact leads_past (follows_token on kind rfl) ended kind (by decide) fun _ _ _ _ on => .ok on
  · next other =>
    have on := follows_expression on fun kind => other (decide_eq_true kind)
    refine leads_expression valued enough ended on rfl fun _ _ ended _ on => ?_
    exact leads_expect on ended (by decide) rfl fun _ _ _ _ on => .ok on

theorem leads_forIncrement
    (on : Follows ts (language (.value :: token rightParen :: ss) * K) s ∨ Strays ts s) :
    Leads ts (Follows ts (language ss * K)) (forIncrement n s) := by
  rw [forIncrement,atKind_bind]
  split
  · next kind =>
    have kind := of_decide_eq_true kind
    exact leads_past (follows_token on kind rfl) ended kind (by decide) fun _ _ _ _ on => .ok on
  · next other =>
    have on := follows_expression on fun kind => other (decide_eq_true kind)
    refine leads_expression valued enough ended on rfl fun _ _ ended _ on => ?_
    exact leads_expect on ended (by decide) rfl fun _ _ _ _ on => .ok on

end

/-! ## Statements -/

/-- No `else` stands where a declaration can. -/
theorem absorbs_declarations {inBlock : Bool}
    (closing : ∀ k w, k :: w ∈ K → k = if inBlock then rightBrace else eof) :
    Absorbs (language [.declarations] * K) := by
  intro w hw
  obtain ⟨form,rule,hw⟩ := exists_form optional_declarations.none.phrase hw
  rcases optional_declarations.only form rule with rfl | rfl
  · rw [List.nil_append,language_nil_mul] at hw
    have := closing _ w hw
    cases inBlock <;> cases this
  · exact absurd hw (not_mem_of_starts rfl (by simp [starts,openers,opensExpression,words]) w)

theorem absorbs_otherwise (absorbs : Absorbs K) : Absorbs (language [.otherwise] * K) := by
  intro w hw
  have skipped : K ≤ language [.otherwise] * K := fun v hv =>
    Rule.noOtherwise.le_single (by rwa [language_nil_mul])
  have more : language [kwElse,.statement] * K ≤ language [kwElse,.statement] * (language [.otherwise] * K) :=
    mul_le_mul' le_rfl skipped
  obtain ⟨form,rule,hw⟩ := exists_form optional_otherwise.none.phrase hw
  rw [List.append_nil] at hw
  rcases optional_otherwise.only form rule with rfl | rfl
  · rw [language_nil_mul] at hw
    exact more (absorbs w hw)
  · exact more hw

/-- What the parsers of statements do on the track under a bound on nested calls that is large
enough. -/
structure SentencesTrack (ts : List Token) (n : ℕ) : Prop where
  declaration {K : Language Token.Kind} {s : State} : 8 * s.rest.length + 3 ≤ n → s.Ended →
    Absorbs K → Follows ts (language [.declaration] * K) s ∨ Strays ts s →
    Leads ts (Follows ts K) (declaration n s)
  declarations (inBlock : Bool) {K : Language Token.Kind} {s : State} :
    8 * s.rest.length + 4 ≤ n → s.Ended →
    (∀ k w, k :: w ∈ K → k = if inBlock then rightBrace else eof) →
    Follows ts (language [.declarations] * K) s ∨ Strays ts s →
    Leads ts (fun t => Follows ts K t ∧ (inBlock = false → t.peek.kind = eof)) (declarations n inBlock s)
  block {K : Language Token.Kind} {s : State} : 8 * s.rest.length + 5 ≤ n → s.Ended →
    Follows ts (language [.declarations,rightBrace] * K) s ∨ Strays ts s →
    Leads ts (Follows ts K) (block n s)
  routine {kind : RoutineKind} {name : Name} {K : Language Token.Kind} {s : State} :
    8 * s.rest.length ≤ n → s.Ended →
    Follows ts (language [leftParen,.parameters,rightParen,leftBrace,.declarations,rightBrace] * K) s ∨
      Strays ts s → Leads ts (Follows ts K) (routine n kind name s)
  classDeclaration {K : Language Token.Kind} {s : State} : 8 * s.rest.length ≤ n → s.Ended →
    Follows ts (language [identifier,.superclass,leftBrace,.methods,rightBrace] * K) s ∨ Strays ts s →
    Leads ts (Follows ts K) (classDeclaration n s)
  methods {K : Language Token.Kind} {s : State} : 8 * s.rest.length ≤ n → s.Ended →
    Follows ts (language [.methods,rightBrace] * K) s ∨ Strays ts s →
    Leads ts (Follows ts (language [rightBrace] * K)) (methods n s)
  statement {K : Language Token.Kind} {s : State} : 8 * s.rest.length + 2 ≤ n → s.Ended →
    Absorbs K → Follows ts (language [.statement] * K) s ∨ Strays ts s →
    Leads ts (Follows ts K) (statement n s)

namespace SentencesTrack
variable (h : SentencesTrack ts n)
include h

theorem declarations_succ {inBlock : Bool} (enough : 8 * s.rest.length + 4 ≤ n + 1) (ended : s.Ended)
    (closing : ∀ k w, k :: w ∈ K → k = if inBlock then rightBrace else eof)
    (on : Follows ts (language [.declarations] * K) s ∨ Strays ts s) :
    Leads ts (fun t => Follows ts K t ∧ (inBlock = false → t.peek.kind = eof))
      (Parser.declarations (n + 1) inBlock s) := by
  rw [Parser.declarations,peek_bind]
  split
  · next finish =>
    have skipped : s.peek.kind = eof ∨ inBlock = true ∧ s.peek.kind = rightBrace := by simpa using finish
    refine .ok (on.imp_left fun f => ⟨?_,fun top => ?_⟩)
    · rw [← language_nil_mul K]
      refine f.skipped optional_declarations (not_mem_of_starts rfl ?_)
      rcases skipped with kind | ⟨-,kind⟩ <;> rw [kind] <;> simp [starts,openers,opensExpression,words]
    · simpa [top] using finish
  · next more =>
    have two := ended.two_le fun e => by simp [e] at more
    have on : Follows ts (language [.declaration,.declarations] * K) s ∨ Strays ts s := by
      refine on.imp_left fun f => f.taken optional_declarations fun w hw => ?_
      rw [language_nil_mul] at hw
      exact absurd (closing _ w hw) (by cases inBlock <;> simp_all)
    rw [language_cons_mul] at on
    refine (h.declaration (by omega) ended (absorbs_declarations closing) on).bind
      ((sentencesRead n).declaration (b := 0) (by omega) ended).gets fun v t onward less on => ?_
    have rest := h.declarations inBlock (by omega) onward.ended closing on
    cases v with
    | none => exact rest
    | some d =>
      refine rest.bind ((sentencesRead n).declarations (b := 0) (by omega) onward.ended).gets
        fun _ _ _ _ on => .ok on

theorem block_succ (enough : 8 * s.rest.length + 5 ≤ n + 1) (ended : s.Ended)
    (on : Follows ts (language [.declarations,rightBrace] * K) s ∨ Strays ts s) :
    Leads ts (Follows ts K) (Parser.block (n + 1) s) := by
  rw [Parser.block]
  rw [language_cons_mul] at on
  refine (h.declarations true (by omega) ended ?_ on).bind
    ((sentencesRead n).declarations (b := 0) (by omega) ended).gets fun body t onward less on => ?_
  · intro k w hw
    exact (cons_mem_token.mp hw).1
  · have on := on.imp_left And.left
    rw [advance_bind _ onward.ended]
    split
    · next kind =>
      refine leads_return (on.imp (fun f => ?_) Strays.advance)
      exact f.advance onward.ended kind (by decide)
    · next other =>
      exact leads_fail (on.imp_left fun f => ⟨f,not_mem_token other⟩) onward.ended rfl
        (suffix_advance t) (errors_advance t)

theorem routine_succ {kind : RoutineKind} {name : Name} (enough : 8 * s.rest.length ≤ n + 1)
    (ended : s.Ended) (on : Follows ts
      (language [leftParen,.parameters,rightParen,leftBrace,.declarations,rightBrace] * K) s ∨
        Strays ts s) : Leads ts (Follows ts K) (Parser.routine (n + 1) kind name s) := by
  rw [routine_eq]
  refine leads_expect on ended (by decide) rfl fun _ t ended₁ less₁ on => ?_
  have finish : ∀ {ps : List Name} {u : State}, u.Ended → u.rest.length ≤ t.rest.length →
      Follows ts (language [rightParen,leftBrace,.declarations,rightBrace] * K) u ∨ Strays ts u →
      Leads ts (Follows ts K) (routineTail n kind name ps u) := by
    intro ps u ended less on
    refine leads_expect on ended (by decide) rfl fun _ v ended₂ less₂ on => ?_
    refine leads_expect on ended₂ (by decide) rfl fun _ w ended₃ less₃ on => ?_
    have := ended₃.pos
    exact (h.block (by omega) ended₃ on).bind ((sentencesRead n).block (by omega) ended₃).gets
      fun _ _ _ _ on => .ok on
  rw [atKind_bind]
  split
  · next close =>
    have close := of_decide_eq_true close
    refine finish ended₁ le_rfl (on.imp_left fun f => f.skipped optional_parameters ?_)
    exact not_mem_token (by rw [close]; decide)
  · next other =>
    have on := on.imp_left fun f => f.taken optional_parameters fun w hw =>
      absurd (decide_eq_true (cons_mem_token.mp hw).1) other
    refine (leads_parameters (by omega) ended₁ on).bind (parameters_read (by omega) ended₁).gets
      fun _ u onward less on => ?_
    exact finish onward.ended less on

theorem methods_succ (enough : 8 * s.rest.length ≤ n + 1) (ended : s.Ended)
    (on : Follows ts (language [.methods,rightBrace] * K) s ∨ Strays ts s) :
    Leads ts (Follows ts (language [rightBrace] * K)) (Parser.methods (n + 1) s) := by
  rw [Parser.methods,peek_bind]
  split
  · next finish =>
    have kind : s.peek.kind = rightBrace ∨ s.peek.kind = eof := by simpa using finish
    refine .ok (on.imp_left fun f => f.skipped optional_methods (not_mem_of_starts rfl ?_))
    rcases kind with kind | kind <;> rw [kind] <;> simp [starts]
  · next more =>
    have on : Follows ts (language ([token identifier,leftParen,.parameters,rightParen,leftBrace,
        .declarations,rightBrace] ++ [.methods,token rightBrace]) * K) s ∨ Strays ts s := by
      refine on.imp_left fun f => ?_
      have first := f.taken optional_methods fun w hw =>
        absurd (cons_mem_token.mp hw).1 fun kind => more (by simp [kind])
      exact first.choose .routine fun _ _ rule _ => by cases rule; rfl
    have two := ended.two_le fun e => by simp [e] at more
    refine leads_expectName on ended rfl fun name t ended' less on => ?_
    have on : Follows ts (language ([token leftParen,.parameters,rightParen,leftBrace,
        .declarations,rightBrace] ++ [.methods,token rightBrace]) * K) t ∨ Strays ts t := on
    rw [language_append,mul_assoc] at on
    refine (h.routine (by omega) ended' on).bind ((sentencesRead n).routine (by omega) ended').gets
      fun _ u onward less' on => ?_
    exact (h.methods (by omega) onward.ended on).bind
      ((sentencesRead n).methods (by omega) onward.ended).gets fun _ _ _ _ on => .ok on

theorem classDeclaration_succ (enough : 8 * s.rest.length ≤ n + 1) (ended : s.Ended)
    (on : Follows ts (language [identifier,.superclass,leftBrace,.methods,rightBrace] * K) s ∨
      Strays ts s) : Leads ts (Follows ts K) (Parser.classDeclaration (n + 1) s) := by
  rw [classDeclaration_eq]
  refine leads_expectName on ended rfl fun name t ended₁ less₁ on => ?_
  have finish : ∀ {r : Option Reference} {u : State}, u.Ended → u.rest.length ≤ t.rest.length →
      Follows ts (language [leftBrace,.methods,rightBrace] * K) u ∨ Strays ts u →
      Leads ts (Follows ts K) (classTail n name r u) := by
    intro r u ended less on
    refine leads_expect on ended (by decide) rfl fun _ v ended₂ less₂ on => ?_
    have := ended₂.pos
    refine (h.methods (by omega) ended₂ on).bind ((sentencesRead n).methods (by omega) ended₂).gets
      fun _ w onward _ on => ?_
    exact leads_close on onward.ended (by decide) rfl
  rw [atKind_bind]
  split
  · next kind =>
    have kind := of_decide_eq_true kind
    have on := on.imp_left fun f => f.taken optional_superclass fun w hw =>
      absurd hw (not_mem_token (by rw [kind]; decide) w)
    refine leads_past on ended₁ kind (by decide) fun _ u ended₂ less₂ on => ?_
    refine leads_expectName on ended₂ rfl fun base v ended₃ less₃ on => ?_
    exact finish ended₃ (by omega) on
  · next other =>
    refine finish ended₁ le_rfl (on.imp_left fun f => f.skipped optional_superclass ?_)
    exact not_mem_token fun kind => other (decide_eq_true kind)

theorem leads_branchTail (enough : 8 * s.rest.length + 2 ≤ n) (ended : s.Ended) (absorbs : Absorbs K)
    (pos : Pos) (test : Expr) (on : Follows ts (language [.statement,.otherwise] * K) s ∨ Strays ts s) :
    Leads ts (Follows ts K) (branchTail n pos test s) := by
  rw [language_cons_mul] at on
  refine (h.statement enough ended (absorbs_otherwise absorbs) on).bind
    ((sentencesRead n).statement enough ended).gets fun yes t onward less on => ?_
  rw [atKind_bind]
  split
  · next other =>
    have other := of_decide_eq_true other
    have two := onward.ended.two_le fun e => by simp [e] at other
    have on : Follows ts (language ([token kwElse,.statement] ++ []) * K) t ∨ Strays ts t :=
      on.imp_left fun f => f.taken optional_otherwise fun w hw => by
        rw [language_nil_mul] at hw
        rw [other] at hw ⊢
        exact absorbs w hw
    refine leads_past on onward.ended other (by decide) fun _ u ended' less' on => ?_
    exact (h.statement (by omega) ended' absorbs on).bind
      ((sentencesRead n).statement (by omega) ended').gets fun _ _ _ _ on => .ok on
  · next other =>
    refine leads_return (on.imp_left fun f => f.skipped optional_otherwise ?_)
    exact not_mem_token fun kind => other (decide_eq_true kind)

include valued

theorem declaration_succ (enough : 8 * s.rest.length + 3 ≤ n + 1) (ended : s.Ended) (absorbs : Absorbs K)
    (on : Follows ts (language [.declaration] * K) s ∨ Strays ts s) :
    Leads ts (Follows ts K) (Parser.declaration (n + 1) s) := by
  have on : Follows ts (language (declarationForm s.peek.kind ++ []) * K) s ∨ Strays ts s :=
    on.imp_left fun f => f.choose (rule_declarationForm _) fun _ _ => eq_declarationForm
  rw [List.append_nil] at on
  rw [Parser.declaration]
  refine leads_recovering ?_
  rw [peek_bind]
  cases kind : s.peek.kind with
  | kwClass =>
    rw [kind] at on
    have two := ended.two_le (by simp [kind])
    exact leads_past on ended kind (by decide) fun _ t ended' less on =>
      h.classDeclaration (by omega) ended' on
  | kwFun =>
    rw [kind] at on
    have two := ended.two_le (by simp [kind])
    refine leads_past on ended kind (by decide) fun _ t ended' less on => ?_
    have on := on.imp_left fun f => f.choose .routine fun _ _ rule _ => by cases rule; rfl
    refine leads_expectName on ended' rfl fun name u ended'' less' on => ?_
    exact (h.routine (by omega) ended'' on).map
  | kwVar =>
    rw [kind] at on
    have two := ended.two_le (by simp [kind])
    refine leads_past on ended kind (by decide) fun _ t ended' less on => ?_
    have on := follows_binding on
    rw [language_nil_mul] at on
    exact leads_variableDeclaration valued (by omega) ended' on
  | _ =>
    rw [kind] at on
    exact h.statement (by omega) ended absorbs on

theorem leads_forTail (enough : 8 * s.rest.length ≤ n) (ended : s.Ended) (absorbs : Absorbs K) (t : Token)
    (on : Follows ts (language [leftParen,.clauseStart,.value,semicolon,.value,rightParen,.statement] * K) s ∨
      Strays ts s) : Leads ts (Follows ts K) (forTail n t s) := by
  refine leads_expect on ended (by decide) rfl fun _ u ended' less on => ?_
  have := ended'.pos
  refine (leads_forInitializer valued (by omega) ended' on).bind
    (forInitializer_reads (by omega) ended').gets fun _ v onward₁ less₁ on => ?_
  refine (leads_forCondition valued (by omega) onward₁.ended _ on).bind
    (forCondition_reads (by omega) onward₁.ended _).gets fun _ w onward₂ less₂ on => ?_
  refine (leads_forIncrement valued (by omega) onward₂.ended on).bind
    (forIncrement_reads (by omega) onward₂.ended).gets fun _ z onward₃ less₃ on => ?_
  exact (h.statement (by omega) onward₃.ended absorbs on).bind
    ((sentencesRead n).statement (by omega) onward₃.ended).gets fun _ _ _ _ on => .ok on

theorem statement_succ (enough : 8 * s.rest.length + 2 ≤ n + 1) (ended : s.Ended) (absorbs : Absorbs K)
    (on : Follows ts (language [.statement] * K) s ∨ Strays ts s) :
    Leads ts (Follows ts K) (Parser.statement (n + 1) s) := by
  have on : Follows ts (language (statementForm s.peek.kind ++ []) * K) s ∨ Strays ts s :=
    on.imp_left fun f => f.choose (rule_statementForm _) fun _ _ => eq_statementForm
  rw [List.append_nil] at on
  rw [Parser.statement,peek_bind]
  cases kind : s.peek.kind with
  | kwPrint =>
    rw [kind] at on
    have two := ended.two_le (by simp [kind])
    exact leads_past on ended kind (by decide) fun _ t ended' less on =>
      leads_printStatement valued (by omega) ended' _ on
  | kwReturn =>
    rw [kind] at on
    have two := ended.two_le (by simp [kind])
    exact leads_past on ended kind (by decide) fun _ t ended' less on =>
      leads_returnStatement valued (by omega) ended' _ on
  | kwIf =>
    rw [kind] at on
    have two := ended.two_le (by simp [kind])
    refine leads_past on ended kind (by decide) fun _ t ended₁ less₁ on => ?_
    refine leads_condition valued (by omega) ended₁ rfl rfl on fun d u ended₂ less₂ on => ?_
    have := ended₂.pos
    exact h.leads_branchTail (by omega) ended₂ absorbs _ _ on
  | kwWhile =>
    rw [kind] at on
    have two := ended.two_le (by simp [kind])
    refine leads_past on ended kind (by decide) fun _ t ended₁ less₁ on => ?_
    refine leads_condition valued (by omega) ended₁ rfl rfl on fun d u ended₂ less₂ on => ?_
    have := ended₂.pos
    exact (h.statement (by omega) ended₂ absorbs on).bind
      ((sentencesRead n).statement (by omega) ended₂).gets fun _ _ _ _ on => .ok on
  | kwFor =>
    rw [kind] at on
    refine leads_past on ended kind (by decide) fun _ t ended' less on => ?_
    exact h.leads_forTail valued (by omega) ended' absorbs _ on
  | kwBreak =>
    rw [kind] at on
    exact leads_past on ended kind (by decide) fun _ t ended' _ on => leads_jumpStatement ended' _ _ on
  | kwContinue =>
    rw [kind] at on
    exact leads_past on ended kind (by decide) fun _ t ended' _ on => leads_jumpStatement ended' _ _ on
  | leftBrace =>
    rw [kind] at on
    have two := ended.two_le (by simp [kind])
    refine leads_past on ended kind (by decide) fun _ t ended' less on => ?_
    have := ended'.pos
    exact (h.block (by omega) ended' on).bind ((sentencesRead n).block (by omega) ended').gets
      fun _ _ _ _ on => .ok on
  | _ =>
    rw [kind] at on
    exact leads_expressionStatement valued (by omega) ended on

end SentencesTrack

include valued in
theorem sentencesTrack (n : ℕ) : SentencesTrack ts n := by
  induction n with
  | zero =>
    constructor
    case routine => exact fun enough ended => absurd enough ended.unspent
    case classDeclaration => exact fun enough ended => absurd enough ended.unspent
    case methods => exact fun enough ended => absurd enough ended.unspent
    all_goals intros; omega
  | succ n ih =>
    exact ⟨ih.declaration_succ valued,fun _ => ih.declarations_succ,ih.block_succ,ih.routine_succ,
      ih.classDeclaration_succ,ih.methods_succ,ih.statement_succ valued⟩

/-! ## Whole sequences of tokens -/

/-- The errors of parsing some tokens, in the order in which they are met. -/
def reports (ts : List Token) : List Diagnostic :=
  match declarations (enough ts.length) false { last := default, rest := ts } with
  | .ok _ s | .error _ s => s.errors.reverse

theorem parseScan_errors (s : Scan) :
    (parseScan s).errors = Diagnostic.sort (s.errors ++ reports s.tokens) := by
  cases e : declarations (enough s.tokens.length) false { last := default, rest := s.tokens } with
  | ok program state => simp only [parseScan,reports,e]
  | error _ state => simp only [parseScan,reports,e]

/-- The first error that gives up is about the first token with which the tokens so far start no
program. If there is none the tokens are a program. -/
def FirstIsEarliest (ts : List Token) (ds : List Diagnostic) : Prop :=
  match ds.find? Diagnostic.aborts with
  | some d => ∃ us t vs, us ++ t :: vs = ts ∧ Offends us t ∧ d.pos = t.pos ∧ d.place = place t
  | none => ts.map Token.kind ∈ language [.program]

theorem follows_start (ts : List Token) : Follows ts (language [.declarations] * language [eof])
    { last := default, rest := ts } := by
  rw [← language_append]
  refine ⟨[],rfl,exists_mem_language (by simp [Proper]),fun w hw => .form .program hw,fun w hw => ?_,
    List.forall_mem_nil _⟩
  cases hw with
  | form rule hw =>
    cases rule
    exact hw

include valued in
/-- Parsing ends behind a whole program or off the track. -/
theorem reports_cases (ended : Ended ts) :
    (ts.map Token.kind ∈ language [.program] ∧ ∀ d ∈ reports ts, d.aborts = false) ∨
    ∃ s, Strays ts s ∧ reports ts = s.errors.reverse := by
  have enough : 8 * ts.length + 4 ≤ Parser.enough ts.length := by unfold Parser.enough; omega
  have leads := (sentencesTrack valued (Parser.enough ts.length)).declarations false
    (s := { last := default, rest := ts }) enough ended (fun k w hw => (by
      rw [← mul_one (language [eof])] at hw
      exact (cons_mem_token.mp hw).1)) (.inl (follows_start ts))
  obtain ⟨v,t,e,on⟩ : ∃ p t, declarations (Parser.enough ts.length) false
      { last := default, rest := ts } = .ok p t ∧ Onward { last := default, rest := ts } t :=
    declarations_eq_ok enough ended
  have errors : reports ts = t.errors.reverse := by rw [reports,e]
  rw [e] at leads
  cases leads with
  | ok h =>
    rcases h with ⟨⟨us,track⟩,finish⟩ | strays
    · refine .inl ⟨?_,fun d hd => track.quiet d (List.mem_reverse.mp (errors ▸ hd))⟩
      obtain ⟨vs,ahead⟩ := on.ended.rest_eq
      have last := on.ended.le_one (finish rfl)
      rw [ahead,List.length_cons] at last
      obtain rfl := List.length_eq_zero_iff.mp (Nat.le_zero.mp (Nat.le_of_succ_le_succ last))
      rw [← track.split,ahead,List.map_append,List.map_singleton,finish rfl]
      exact track.into [eof] (.token .nil)
    · exact .inr ⟨t,strays,errors⟩

theorem find?_reverse_of_strays {s : State} (strays : Strays ts s) :
    ∃ us t vs d, us ++ t :: vs = ts ∧ Offends us t ∧ d.pos = t.pos ∧ d.place = place t ∧
      s.errors.reverse.find? Diagnostic.aborts = some d ∧
      ∀ e ∈ s.errors, e.aborts = true → ∃ u ∈ t :: vs, e.pos = u.pos ∧ e.place = place u := by
  obtain ⟨us,t,vs,split,offends,-,later,e,quiet,errors,aborts,silent,about⟩ := strays
  refine ⟨us,t,vs,⟨.parse e,t.pos,place t⟩,split,offends,rfl,rfl,?_,?_⟩
  · rw [errors,List.reverse_append,List.reverse_cons,List.append_assoc,List.find?_append,
      List.find?_eq_none.mpr fun d hd => by simp [silent d (List.mem_reverse.mp hd)]]
    simp [show Diagnostic.aborts ⟨.parse e,t.pos,place t⟩ = true from aborts]
  · rw [errors,List.forall_mem_append,List.forall_mem_cons]
    refine ⟨about,fun _ => ⟨t,List.mem_cons_self,rfl,rfl⟩,fun d hd h => ?_⟩
    rw [silent d hd] at h
    cases h

include valued in
theorem firstIsEarliest_reports (ended : Ended ts) : FirstIsEarliest ts (reports ts) := by
  unfold FirstIsEarliest
  rcases reports_cases valued ended with ⟨program,quiet⟩ | ⟨s,strays,errors⟩
  · rw [List.find?_eq_none.mpr fun d hd => by simp [quiet d hd]]
    exact program
  · obtain ⟨us,t,vs,d,split,offends,pos,place,found,-⟩ := find?_reverse_of_strays strays
    rw [errors,found]
    exact ⟨us,t,vs,split,offends,pos,place⟩

/-- Where a diagnostic stands among others that are sorted. -/
theorem pairwise_sort (ds : List Diagnostic) :
    (Diagnostic.sort ds).Pairwise fun d e => ¬e.pos.before d.pos := by
  have sorted : (Diagnostic.sort ds).Pairwise fun d e => (!e.pos.before d.pos) = true := by
    refine List.pairwise_mergeSort (fun a b c hab hbc => ?_) (fun a b => ?_) ds
    · simp only [Bool.not_eq_true',Bool.eq_false_iff,ne_eq,Pos.before_iff] at *
      omega
    · simp only [Bool.or_eq_true,Bool.not_eq_true',Bool.eq_false_iff,ne_eq,Pos.before_iff]
      omega
  exact sorted.imp fun h => by simpa using h

include valued in
theorem firstIsEarliest_sort (ended : Ended ts) (ordered : ts.Pairwise fun t u => t.pos.before u.pos)
    {es : List Diagnostic} (scanned : ∀ d ∈ es, d.aborts = false) :
    FirstIsEarliest ts (Diagnostic.sort (es ++ reports ts)) := by
  have mem : ∀ {d}, d ∈ Diagnostic.sort (es ++ reports ts) ↔ d ∈ es ∨ d ∈ reports ts := by
    intro d
    rw [Diagnostic.sort,List.mem_mergeSort,List.mem_append]
  unfold FirstIsEarliest
  rcases reports_cases valued ended with ⟨program,quiet⟩ | ⟨s,strays,errors⟩
  · rw [List.find?_eq_none.mpr fun d hd => by simp [(mem.mp hd).elim (scanned d) (quiet d)]]
    exact program
  · obtain ⟨us,t,vs,d,split,offends,pos,place,found,about⟩ := find?_reverse_of_strays strays
    have here : d ∈ Diagnostic.sort (es ++ reports ts) :=
      mem.mpr (.inr (errors ▸ List.mem_of_find?_eq_some found))
    cases first : (Diagnostic.sort (es ++ reports ts)).find? Diagnostic.aborts with
    | none => exact absurd (List.find?_some found) (List.find?_eq_none.mp first d here)
    | some e =>
      obtain ⟨aborts,front,back,list,quiet⟩ := List.find?_eq_some_iff_append.mp first
      have reported : e ∈ s.errors := by
        have := mem.mp (List.mem_of_find?_eq_some first)
        rw [errors,List.mem_reverse] at this
        exact this.resolve_left fun h => by simp [scanned e h] at aborts
      obtain ⟨u,hu,pos',place'⟩ := about e reported aborts
      refine ⟨us,t,vs,split,offends,?_⟩
      rcases List.mem_cons.mp hu with rfl | later
      · exact ⟨pos',place'⟩
      -- An error at a later token stands behind the first one.
      have far : d.pos.before e.pos := by
        rw [← split,List.pairwise_append,List.pairwise_cons] at ordered
        rw [pos,pos']
        exact ordered.2.1.1 u later
      have sorted := pairwise_sort (es ++ reports ts)
      rw [list] at here sorted
      rcases List.mem_append.mp here with h | h
      · have silent := quiet d h
        simp [List.find?_some found] at silent
      · rcases List.mem_cons.mp h with rfl | h
        · exact absurd far (Pos.not_before_self _)
        · exact absurd far ((List.pairwise_cons.mp (List.pairwise_append.mp sorted).2.1).1 d h)

/-! ## Whole sources -/

theorem text_ne_nil_of_mem_pieces {cs : List Char} {x : Piece} (h : x ∈ pieces cs) : x.text ≠ [] := by
  fun_induction pieces cs with
  | case1 => cases h
  | case2 c cs ih =>
    rcases List.mem_cons.mp h with rfl | h
    · exact Piece.text_first_ne_nil c cs
    · exact ih h

/-- The tokens of a text stand one behind another. -/
theorem tokensFrom_ordered {p : Pos} {ps : List Piece} (some : ∀ x ∈ ps, x.text ≠ []) :
    ((tokensFrom p ps).Pairwise fun t u => t.pos.before u.pos) ∧
      ∀ t ∈ tokensFrom p ps, ¬t.pos.before p := by
  induction ps generalizing p with
  | nil => exact ⟨List.pairwise_singleton _ _,fun t ht => by
      rw [List.mem_singleton.mp ht]
      exact p.not_before_self⟩
  | cons x ps ih =>
    rw [List.forall_mem_cons] at some
    obtain ⟨ordered,behind⟩ := ih some.2 (p := p.after x.text)
    obtain ⟨c,cs,text⟩ := List.exists_cons_of_ne_nil some.1
    have far : p.before (p.after x.text) := text ▸ p.before_after_cons c cs
    have later : ∀ t ∈ tokensFrom (p.after x.text) ps, p.before t.pos := fun t ht =>
      Pos.before_of_not_before far (behind t ht)
    have apart : ∀ t ∈ tokensFrom (p.after x.text) ps, ¬t.pos.before p := fun t ht early =>
      p.not_before_self (Pos.before_trans (later t ht) early)
    cases x with
    | token kind text literal =>
      exact ⟨List.pairwise_cons.mpr ⟨later,ordered⟩,List.forall_mem_cons.mpr ⟨p.not_before_self,apart⟩⟩
    | _ => exact ⟨ordered,apart⟩

theorem aborts_of_mem_scanErrors {p : Pos} {ps : List Piece} {d : Diagnostic}
    (h : d ∈ scanErrorsFrom p ps) : d.aborts = false := by
  induction ps generalizing p with
  | nil => cases h
  | cons x ps ih =>
    cases x with
    | stray | unterminated =>
      rcases List.mem_cons.mp h with rfl | h
      · rfl
      · exact ih h
    | _ => exact ih h

theorem valued_scan (source : String) : ∀ t ∈ (scan source).tokens, t.Valued := fun t ht => by
  have spelled := spelled_scan source t ht
  refine ⟨spelled.number,fun kind => ?_⟩
  obtain ⟨s,-,literal⟩ := spelled.string kind
  exact ⟨s,literal⟩

/-- The first error of a source that gives up a declaration is found as early as possible, also in the
list that has the errors of scanning and is sorted by position. -/
theorem firstIsEarliest_parse (source : String) :
    FirstIsEarliest (scan source).tokens (parse source).errors := by
  rw [parse,parseScan_errors]
  refine firstIsEarliest_sort (valued_scan source) (ended_scan source) ?_ fun d hd => ?_
  · exact (tokensFrom_ordered fun x hx => text_ne_nil_of_mem_pieces hx).1
  · exact aborts_of_mem_scanErrors hd

/-- Syntax errors are found as early as possible: of the errors met in parsing some tokens, the first one
that gives up a declaration is about the first token with which the tokens so far start no program, and
without such an error the tokens are a program. So it is for the errors sorted by position if the tokens
stand one behind another. -/
theorem first_error_is_earliest {s : Scan} (ended : Ended s.tokens)
    (valued : ∀ t ∈ s.tokens, t.Valued) : FirstIsEarliest s.tokens (reports s.tokens) ∧
      ((s.tokens.Pairwise fun t u => t.pos.before u.pos) → (∀ d ∈ s.errors, d.aborts = false) →
        FirstIsEarliest s.tokens (parseScan s).errors) := by
  refine ⟨firstIsEarliest_reports valued ended,fun ordered scanned => ?_⟩
  rw [parseScan_errors]
  exact firstIsEarliest_sort valued ended ordered scanned

/-- In `print a b;` the second name is the first token that no program has there. -/
theorem second_name_offends :
    let name (text : String) (column : ℕ) : Token := ⟨.identifier,text,none,⟨1,column⟩⟩
    let ts : List Token := [⟨.kwPrint,"print",none,⟨1,1⟩⟩,name "a" 7,name "b" 9,
      ⟨.semicolon,";",none,⟨1,10⟩⟩,⟨.eof,"",none,⟨1,11⟩⟩]
    (Ended ts ∧ ∀ t ∈ ts, t.Valued) ∧
      (reports ts).find? Diagnostic.aborts = some ⟨.parse .openPrint,⟨1,9⟩,.token "b"⟩ ∧
      FirstIsEarliest ts (reports ts) := by
  intro name ts
  have ended : Ended ts := ⟨[_,_,_,_],_,rfl,rfl,by simp [name]⟩
  have valued : ∀ t ∈ ts, t.Valued := by
    simp only [ts,name,List.forall_mem_cons]
    refine ⟨⟨?_,?_⟩,⟨?_,?_⟩,⟨?_,?_⟩,⟨?_,?_⟩,⟨?_,?_⟩,List.forall_mem_nil _⟩
    all_goals intro h; cases h
  exact ⟨⟨ended,valued⟩,rfl,(first_error_is_earliest (s := ⟨ts,[]⟩) ended valued).1⟩

end
end Parser
end Lox
