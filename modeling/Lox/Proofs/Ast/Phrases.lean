import Lox.Token
import Mathlib

/-! # The grammar of token sequences

The phrases of the language, as the sequences of kinds of tokens that they can have. An expression
has a level: 1 for assignments, 2 for `or`, 3 for `and`, 4 for equality, 5 for comparison, 6 for sums,
7 for products, 8 for prefix operators, 9 for calls and properties and 10 for what is never split.
On the left of an assignment any expression of level 2 may stand, and there may be any number of
parameters and arguments.
-/
namespace Lox

/-- A kind of token or a phrase. -/
inductive Symbol
  | token (k : Token.Kind)
  | program | declarations | declaration
  | superclass | methods | routine | parameters | moreParameters
  | binding | initializer
  | statement | otherwise | value | clauseStart
  | expression (level : ℕ) | arguments | moreArguments

namespace Symbol
open Token.Kind

instance : Coe Token.Kind Symbol := ⟨token⟩

/-- The operators that join a left operand of their level and a right operand of the next. -/
def joining : ℕ → List Token.Kind
  | 2 => [kwOr]
  | 3 => [kwAnd]
  | 4 => [equalEqual,bangEqual]
  | 5 => [Token.Kind.less,lessEqual,greater,greaterEqual]
  | 6 => [plus,minus]
  | 7 => [star,slash]
  | _ => []

/-- The tokens that are expressions by themselves. -/
def words : List Token.Kind := [identifier,number,string,kwTrue,kwFalse,kwNil,kwThis]

/-- The forms that a phrase can have. -/
inductive Rule : Symbol → List Symbol → Prop
  | program : Rule program [declarations,eof]
  | noDeclaration : Rule declarations []
  | declarations : Rule declarations [declaration,declarations]
  | classDeclaration : Rule declaration [kwClass,identifier,superclass,leftBrace,methods,rightBrace]
  | functionDeclaration : Rule declaration [kwFun,routine]
  | variableDeclaration : Rule declaration [kwVar,binding]
  | statement : Rule declaration [statement]
  | noSuperclass : Rule superclass []
  | superclass : Rule superclass [Token.Kind.less,identifier]
  | noMethod : Rule methods []
  | methods : Rule methods [routine,methods]
  | routine : Rule routine [identifier,leftParen,parameters,rightParen,leftBrace,declarations,rightBrace]
  | noParameter : Rule parameters []
  | parameters : Rule parameters [identifier,moreParameters]
  | lastParameter : Rule moreParameters []
  | moreParameters : Rule moreParameters [comma,identifier,moreParameters]
  | binding : Rule binding [identifier,initializer,semicolon]
  | noInitializer : Rule initializer []
  | initializer : Rule initializer [equal,expression 1]
  | expressionStatement : Rule statement [expression 1,semicolon]
  | print : Rule statement [kwPrint,expression 1,semicolon]
  | leave : Rule statement [kwReturn,value,semicolon]
  | branch : Rule statement [kwIf,leftParen,expression 1,rightParen,statement,otherwise]
  | repetition : Rule statement [kwWhile,leftParen,expression 1,rightParen,statement]
  | clauses : Rule statement
      [kwFor,leftParen,clauseStart,value,semicolon,value,rightParen,statement]
  | stop : Rule statement [kwBreak,semicolon]
  | next : Rule statement [kwContinue,semicolon]
  | block : Rule statement [leftBrace,declarations,rightBrace]
  | noOtherwise : Rule otherwise []
  | otherwise : Rule otherwise [kwElse,statement]
  | noValue : Rule value []
  | value : Rule value [expression 1]
  | noClauseStart : Rule clauseStart [semicolon]
  | clauseVariable : Rule clauseStart [kwVar,binding]
  | clauseExpression : Rule clauseStart [expression 1,semicolon]
  | assignment : Rule (expression 1) [expression 2,equal,expression 1]
  | join {level op} : op ∈ joining level →
      Rule (expression level) [expression level,token op,expression (level + 1)]
  | negation {op} : op ∈ [bang,minus] → Rule (expression 8) [token op,expression 8]
  | call : Rule (expression 9) [expression 9,leftParen,arguments,rightParen]
  | property : Rule (expression 9) [expression 9,dot,identifier]
  | stronger {level} : 1 ≤ level → level < 10 → Rule (expression level) [expression (level + 1)]
  | word {k} : k ∈ words → Rule (expression 10) [token k]
  | super : Rule (expression 10) [kwSuper,dot,identifier]
  | group : Rule (expression 10) [leftParen,expression 1,rightParen]
  | noArgument : Rule arguments []
  | arguments : Rule arguments [expression 1,moreArguments]
  | lastArgument : Rule moreArguments []
  | moreArguments : Rule moreArguments [comma,expression 1,moreArguments]

/-- Replacing phrases by their forms from left to right makes a sequence of kinds. -/
inductive Yields : List Symbol → List Token.Kind → Prop
  | nil : Yields [] []
  | token {k ss w} : Yields ss w → Yields (token k :: ss) (k :: w)
  | form {a form ss w} : Rule a form → Yields (form ++ ss) w → Yields (a :: ss) w

/-- The sequences of kinds that some symbols stand for. -/
def language (ss : List Symbol) : Language Token.Kind := {w | Yields ss w}

section
variable {a : Symbol} {k l : Token.Kind} {ss ts form : List Symbol} {w : List Token.Kind}
  {K : Language Token.Kind}

theorem Yields.append {v : List Token.Kind} (h : Yields ss v) (h' : Yields ts w) :
    Yields (ss ++ ts) (v ++ w) := by
  induction h with
  | nil => exact h'
  | token _ ih => exact .token ih
  | form rule _ ih =>
    rw [List.append_assoc] at ih
    exact .form rule ih

theorem Yields.split (h : Yields (ss ++ ts) w) :
    ∃ u v, Yields ss u ∧ Yields ts v ∧ u ++ v = w := by
  generalize e : ss ++ ts = rs at h
  induction h generalizing ss with
  | nil =>
    obtain ⟨rfl,rfl⟩ := List.append_eq_nil_iff.mp e
    exact ⟨[],[],.nil,.nil,rfl⟩
  | @token k rs w h ih =>
    cases ss with
    | nil =>
      cases e
      exact ⟨[],_,.nil,.token h,rfl⟩
    | cons a ss =>
      cases e
      obtain ⟨u,v,hu,hv,rfl⟩ := ih rfl
      exact ⟨k :: u,v,.token hu,hv,rfl⟩
  | @form a form rs w rule h ih =>
    cases ss with
    | nil =>
      cases e
      exact ⟨[],_,.nil,.form rule h,rfl⟩
    | cons a ss =>
      cases e
      obtain ⟨u,v,hu,hv,rfl⟩ := ih (List.append_assoc _ _ _)
      exact ⟨u,v,.form rule hu,hv,rfl⟩

theorem language_append (ss ts : List Symbol) : language (ss ++ ts) = language ss * language ts := by
  ext w
  constructor
  · intro h
    obtain ⟨u,v,hu,hv,rfl⟩ := Yields.split h
    exact Language.mem_mul.mpr ⟨u,hu,v,hv,rfl⟩
  · intro h
    obtain ⟨u,hu,v,hv,rfl⟩ := Language.mem_mul.mp h
    exact Yields.append hu hv

theorem language_cons (a : Symbol) (ss : List Symbol) : language (a :: ss) = language [a] * language ss :=
  language_append [a] ss

theorem language_nil : language [] = 1 := by
  ext w
  rw [Language.mem_one]
  constructor
  · rintro ⟨⟩
    rfl
  · rintro rfl
    exact .nil

theorem language_nil_mul (K : Language Token.Kind) : language [] * K = K := by
  rw [language_nil,one_mul]

theorem language_cons_mul (a : Symbol) (ss : List Symbol) (K : Language Token.Kind) :
    language (a :: ss) * K = language [a] * (language ss * K) := by
  rw [language_cons,mul_assoc]

theorem eq_of_mem_token (h : w ∈ language [token k]) : w = [k] := by
  cases h with
  | token h =>
    cases h
    rfl
  | form rule _ => cases rule

/-- Behind a token the rest follows. -/
theorem cons_mem_token : k :: w ∈ language (token l :: ss) * K ↔ k = l ∧ w ∈ language ss * K := by
  simp only [Language.mem_mul]
  constructor
  · rintro ⟨u,hu,v,hv,e⟩
    cases hu with
    | token hu =>
      cases e
      exact ⟨rfl,_,hu,v,hv,rfl⟩
    | form rule _ => cases rule
  · rintro ⟨rfl,u,hu,v,hv,rfl⟩
    exact ⟨k :: u,.token hu,v,hv,rfl⟩

theorem Rule.le (rule : Rule a form) : language (form ++ ss) * K ≤ language (a :: ss) * K := by
  intro w hw
  obtain ⟨u,hu,v,hv,rfl⟩ := Language.mem_mul.mp hw
  exact Language.mem_mul.mpr ⟨u,.form rule hu,v,hv,rfl⟩

theorem Rule.le_single (rule : Rule a form) : language form * K ≤ language [a] * K := by
  rw [← List.append_nil form]
  exact rule.le

theorem Rule.phrase (rule : Rule a form) : ∀ k, a ≠ token k := by
  rintro k rfl
  cases rule

/-- A word of a phrase has one of its forms. -/
theorem exists_form (phrase : ∀ k, a ≠ token k) (h : w ∈ language (a :: ss) * K) :
    ∃ form, Rule a form ∧ w ∈ language (form ++ ss) * K := by
  obtain ⟨u,hu,v,hv,rfl⟩ := Language.mem_mul.mp h
  cases hu with
  | token _ => exact absurd rfl (phrase _)
  | form rule hu => exact ⟨_,rule,Language.mem_mul.mpr ⟨u,hu,v,hv,rfl⟩⟩

theorem Yields.mem_prod {M : Symbol → Language Token.Kind} (tokens : ∀ k, [k] ∈ M (.token k))
    (forms : ∀ a form, Rule a form → (form.map M).prod ≤ M a) (h : Yields ss w) :
    w ∈ (ss.map M).prod := by
  induction h with
  | nil => exact Language.nil_mem_one
  | @token k ss w _ ih => exact Language.mem_mul.mpr ⟨[k],tokens k,w,ih,rfl⟩
  | @form a form ss w rule _ ih =>
    rw [List.map_append,List.prod_append] at ih
    exact mul_le_mul' (forms a form rule) le_rfl ih

/-- Languages that contain the tokens and are closed under the forms contain the phrases. -/
theorem mem_of_closed {M : Symbol → Language Token.Kind} (tokens : ∀ k, [k] ∈ M (.token k))
    (forms : ∀ a form, Rule a form → (form.map M).prod ≤ M a) (h : w ∈ language [a]) : w ∈ M a := by
  simpa only [List.map_cons,List.map_nil,List.prod_singleton] using Yields.mem_prod tokens forms h

theorem prod_le_language {M : Symbol → Language Token.Kind} (h : ∀ a, M a ≤ language [a])
    (ss : List Symbol) : (ss.map M).prod ≤ language ss := by
  induction ss with
  | nil => exact language_nil.ge
  | cons a ss ih =>
    rw [List.map_cons,List.prod_cons,language_cons]
    exact mul_le_mul' (h a) ih

/-! ## No phrase is void -/

/-- The symbols of the grammar: there are ten levels. -/
def Proper : Symbol → Prop
  | expression level => 1 ≤ level ∧ level ≤ 10
  | _ => True

theorem Rule.proper (rule : Rule a form) : ∀ b ∈ form, b.Proper := by
  have levels : ∀ {l op}, op ∈ joining l → 1 ≤ l ∧ l ≤ 9 := by
    intro l op h
    unfold joining at h
    split at h
    case h_7 => cases h
    all_goals decide
  cases rule with
  | join hop =>
    have := levels hop
    simp only [List.forall_mem_cons,Proper]
    exact ⟨⟨by omega,by omega⟩,trivial,⟨by omega,by omega⟩,List.forall_mem_nil _⟩
  | stronger pos less =>
    simp only [List.forall_mem_cons,Proper]
    exact ⟨⟨by omega,by omega⟩,List.forall_mem_nil _⟩
  | _ => simp [Proper]

theorem expression_le {l l' : ℕ} (pos : 1 ≤ l) (h : l ≤ l') (most : l' ≤ 10) :
    language [expression l'] ≤ language [expression l] := by
  induction h with
  | refl => exact le_rfl
  | @step l' h ih =>
    have one : language [expression (l' + 1)] ≤ language [expression l'] := fun w hw =>
      .form (.stronger (pos.trans h) most) (by rwa [List.append_nil])
    exact one.trans (ih (Nat.le_of_succ_le most))

theorem exists_mem_symbol (proper : a.Proper) : ∃ w, w ∈ language [a] := by
  have nothing : ∀ {a : Symbol}, Rule a [] → ∃ w, w ∈ language [a] := fun rule => ⟨[],.form rule .nil⟩
  have constant : [kwNil] ∈ language [expression 1] :=
    expression_le le_rfl (by decide) le_rfl (.form (.word (by decide)) (.token .nil))
  have closed : [kwNil,semicolon] ∈ language [expression 1,token semicolon] :=
    Yields.append constant (.token .nil)
  have routine : [identifier,leftParen,rightParen,leftBrace,rightBrace] ∈ language [routine] := by
    refine .form .routine (.token (.token (.form .noParameter ?_)))
    exact .token (.token (.form .noDeclaration (.token .nil)))
  cases a with
  | token k => exact ⟨[k],.token .nil⟩
  | program => exact ⟨[eof],.form .program (.form .noDeclaration (.token .nil))⟩
  | declarations => exact nothing .noDeclaration
  | declaration => exact ⟨_,.form .statement (.form .expressionStatement closed)⟩
  | superclass => exact nothing .noSuperclass
  | methods => exact nothing .noMethod
  | routine => exact ⟨_,routine⟩
  | parameters => exact nothing .noParameter
  | moreParameters => exact nothing .lastParameter
  | binding => exact ⟨[identifier,semicolon],.form .binding (.token (.form .noInitializer (.token .nil)))⟩
  | initializer => exact nothing .noInitializer
  | statement => exact ⟨_,.form .expressionStatement closed⟩
  | otherwise => exact nothing .noOtherwise
  | value => exact nothing .noValue
  | clauseStart => exact ⟨[semicolon],.form .noClauseStart (.token .nil)⟩
  | expression level =>
    exact ⟨[kwNil],expression_le proper.1 proper.2 le_rfl (.form (.word (by decide)) (.token .nil))⟩
  | arguments => exact nothing .noArgument
  | moreArguments => exact nothing .lastArgument

theorem exists_mem_language (proper : ∀ a ∈ ss, a.Proper) : ∃ w, w ∈ language ss := by
  induction ss with
  | nil => exact ⟨[],.nil⟩
  | cons a ss ih =>
    rw [List.forall_mem_cons] at proper
    obtain ⟨v,hv⟩ := exists_mem_symbol proper.1
    obtain ⟨w,hw⟩ := ih proper.2
    exact ⟨v ++ w,Yields.append hv hw⟩

/-! ## How phrases start -/

def opensExpression (k : Token.Kind) : Bool :=
  k ∈ words || k ∈ [kwSuper,leftParen,bang,minus]

/-- The tokens that only statements start with. -/
def openers : List Token.Kind :=
  [kwPrint,kwReturn,kwIf,kwWhile,kwFor,kwBreak,kwContinue,leftBrace]

/-- The kinds that the first token of a phrase can have, for the phrases that are never empty. -/
def starts : Symbol → Token.Kind → Prop
  | token l, k => k = l
  | declaration, k => k ∈ [kwClass,kwFun,kwVar] ∨ k ∈ openers ∨ opensExpression k
  | routine, k => k = identifier
  | binding, k => k = identifier
  | statement, k => k ∈ openers ∨ opensExpression k
  | clauseStart, k => k = semicolon ∨ k = kwVar ∨ opensExpression k
  | expression _, k => opensExpression k
  | _, _ => True

/-- The phrases that may be empty. -/
def mayBeEmpty : Symbol → Bool
  | declarations | superclass | methods | parameters | moreParameters | initializer | otherwise
  | value | arguments | moreArguments | program => true
  | _ => false

theorem started (phrase : a.mayBeEmpty = false) (h : w ∈ language [a]) :
    ∃ k v, w = k :: v ∧ a.starts k := by
  let M : Symbol → Language Token.Kind := fun a =>
    {w | a.mayBeEmpty = false → ∃ k v, w = k :: v ∧ a.starts k}
  -- What starts a form also starts what follows it.
  have first : ∀ {a b : Symbol} {ss : List Symbol}, b.mayBeEmpty = false →
      (∀ k, b.starts k → a.starts k) → ((b :: ss).map M).prod ≤ M a := by
    intro a b ss full starts w hw _
    obtain ⟨u,hu,v,_,rfl⟩ := Language.mem_mul.mp hw
    obtain ⟨k,t,rfl,hk⟩ := hu full
    exact ⟨k,t ++ v,rfl,starts k hk⟩
  have empty : ∀ {a : Symbol} {ss : List Symbol}, a.mayBeEmpty = true → (ss.map M).prod ≤ M a := by
    intro a ss empty w _ full
    rw [empty] at full
    cases full
  refine mem_of_closed (M := M) (fun k _ => ⟨k,[],rfl,rfl⟩) (fun a form rule => ?_) h phrase
  cases rule with
  | word hk =>
    refine first rfl fun k e => ?_
    cases e
    simp only [starts,opensExpression,hk,decide_true,Bool.true_or]
  | negation hop =>
    refine first rfl fun k e => ?_
    cases e
    rcases List.mem_pair.mp hop with rfl | rfl <;> rfl
  | expressionStatement => exact first rfl fun k => Or.inr
  | statement => exact first rfl fun k => Or.inr
  | clauseExpression => exact first rfl fun k h => .inr (.inr h)
  | assignment | join | call | property | stronger => exact first rfl fun k => id
  | classDeclaration | functionDeclaration | variableDeclaration | routine | binding | print | leave
  | branch | repetition | clauses | stop | next | block | noClauseStart | clauseVariable | super | group =>
    refine first rfl fun k e => ?_
    cases e
    simp [starts,openers,opensExpression]
  | _ => exact empty rfl

/-- A word starts as its first phrase does. -/
theorem starts_of_cons (phrase : a.mayBeEmpty = false) (h : k :: w ∈ language (a :: ss) * K) :
    a.starts k := by
  rw [language_cons_mul] at h
  obtain ⟨u,hu,v,-,e⟩ := Language.mem_mul.mp h
  obtain ⟨l,t,rfl,hl⟩ := started phrase hu
  cases e
  exact hl

/-! ## The form that the next token asks for -/

def declarationForm : Token.Kind → List Symbol
  | kwClass => [kwClass,identifier,superclass,leftBrace,methods,rightBrace]
  | kwFun => [kwFun,routine]
  | kwVar => [kwVar,binding]
  | _ => [statement]

def statementForm : Token.Kind → List Symbol
  | kwPrint => [kwPrint,expression 1,semicolon]
  | kwReturn => [kwReturn,value,semicolon]
  | kwIf => [kwIf,leftParen,expression 1,rightParen,statement,otherwise]
  | kwWhile => [kwWhile,leftParen,expression 1,rightParen,statement]
  | kwFor => [kwFor,leftParen,clauseStart,value,semicolon,value,rightParen,statement]
  | kwBreak => [kwBreak,semicolon]
  | kwContinue => [kwContinue,semicolon]
  | leftBrace => [leftBrace,declarations,rightBrace]
  | _ => [expression 1,semicolon]

def clauseForm : Token.Kind → List Symbol
  | semicolon => [semicolon]
  | kwVar => [kwVar,binding]
  | _ => [expression 1,semicolon]

theorem rule_clauseForm (k : Token.Kind) : Rule clauseStart (clauseForm k) := by
  unfold clauseForm
  split <;> constructor

theorem rule_declarationForm (k : Token.Kind) : Rule declaration (declarationForm k) := by
  unfold declarationForm
  split <;> constructor

theorem rule_statementForm (k : Token.Kind) : Rule statement (statementForm k) := by
  unfold statementForm
  split <;> constructor

theorem eq_statementForm (rule : Rule statement form) (h : k :: w ∈ language (form ++ ss) * K) :
    form = statementForm k := by
  cases rule with
  | expressionStatement =>
    have start := starts_of_cons (a := expression 1) rfl h
    revert start
    cases k <;> simp [starts,opensExpression,words,statementForm]
  | _ =>
    obtain ⟨rfl,-⟩ := cons_mem_token.mp h
    rfl

theorem eq_clauseForm (rule : Rule clauseStart form) (h : k :: w ∈ language (form ++ ss) * K) :
    form = clauseForm k := by
  cases rule with
  | clauseExpression =>
    have start := starts_of_cons (a := expression 1) rfl h
    revert start
    cases k <;> simp [starts,opensExpression,words,clauseForm]
  | _ =>
    obtain ⟨rfl,-⟩ := cons_mem_token.mp h
    rfl

theorem eq_declarationForm (rule : Rule declaration form)
    (h : k :: w ∈ language (form ++ ss) * K) : form = declarationForm k := by
  cases rule with
  | statement =>
    have start := starts_of_cons (a := statement) rfl h
    revert start
    cases k <;> simp [starts,openers,opensExpression,words,declarationForm]
  | _ =>
    obtain ⟨rfl,-⟩ := cons_mem_token.mp h
    rfl

/-- A phrase that may be left out has one other form. -/
structure Optional (a : Symbol) (form : List Symbol) : Prop where
  none : Rule a []
  some : Rule a form
  only : ∀ form', Rule a form' → form' = [] ∨ form' = form

theorem optional_declarations : Optional declarations [declaration,declarations] :=
  ⟨.noDeclaration,.declarations,fun _ rule => by cases rule <;> simp⟩

theorem optional_superclass : Optional superclass [Token.Kind.less,identifier] :=
  ⟨.noSuperclass,.superclass,fun _ rule => by cases rule <;> simp⟩

theorem optional_methods : Optional methods [routine,methods] :=
  ⟨.noMethod,.methods,fun _ rule => by cases rule <;> simp⟩

theorem optional_parameters : Optional parameters [identifier,moreParameters] :=
  ⟨.noParameter,.parameters,fun _ rule => by cases rule <;> simp⟩

theorem optional_moreParameters : Optional moreParameters [comma,identifier,moreParameters] :=
  ⟨.lastParameter,.moreParameters,fun _ rule => by cases rule <;> simp⟩

theorem optional_initializer : Optional initializer [equal,expression 1] :=
  ⟨.noInitializer,.initializer,fun _ rule => by cases rule <;> simp⟩

theorem optional_otherwise : Optional otherwise [kwElse,statement] :=
  ⟨.noOtherwise,.otherwise,fun _ rule => by cases rule <;> simp⟩

theorem optional_value : Optional value [expression 1] :=
  ⟨.noValue,.value,fun _ rule => by cases rule <;> simp⟩

theorem optional_arguments : Optional arguments [expression 1,moreArguments] :=
  ⟨.noArgument,.arguments,fun _ rule => by cases rule <;> simp⟩

theorem optional_moreArguments : Optional moreArguments [comma,expression 1,moreArguments] :=
  ⟨.lastArgument,.moreArguments,fun _ rule => by cases rule <;> simp⟩

end
end Symbol
end Lox
