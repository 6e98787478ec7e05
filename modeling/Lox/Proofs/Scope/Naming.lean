import Lox.Ast.Grammar
import Lox.Ast.Rendering
import Lox.Scope.Resolution

/-! # Names of programs

The names that a program declares and the variables that it uses are among the identifiers that it
is written with. In a program of the grammar the parts of branches and loops declare nothing.
-/
namespace Lox
open Word

/-! ## Names that are as is asked for -/

section
variable (ok : String → Prop)

mutual

/-- The variables that an expression uses are as is asked for. -/
def Expr.Named : Expr → Prop
  | .literal _ _ | .this _ _ | .super _ _ _ => True
  | .grouping _ e | .unary _ _ e | .get e _ => e.Named
  | .var r => ok r.name.text
  | .assign r e => ok r.name.text ∧ e.Named
  | .binary d _ _ e | .logical d _ _ e | .set d _ e => d.Named ∧ e.Named
  | .call e _ es => e.Named ∧ ArgumentsNamed es
termination_by structural e => e

def ArgumentsNamed : List Expr → Prop
  | [] => True
  | e :: es => e.Named ∧ ArgumentsNamed es
termination_by structural es => es

end

mutual

/-- The names that a statement declares and the variables that it uses are as is asked for, and its
parts declare nothing in the scope it stands in. -/
def Stmt.Named : Stmt → Prop
  | .expression e | .print _ e => e.Named ok
  | .var name init => ok name.text ∧ ∀ e ∈ init, e.Named ok
  | .block _ _ body => BodyNamed body
  | .branch _ condition yes none =>
    condition.Named ok ∧ yes.Named ∧ yes.declared? = none
  | .branch _ condition yes (some no) =>
    condition.Named ok ∧ yes.Named ∧ yes.declared? = none ∧ no.Named ∧ no.declared? = none
  | .loop _ _ condition body increment =>
    condition.Named ok ∧ body.Named ∧ body.declared? = none ∧ ∀ e ∈ increment, e.Named ok
  | .jump _ _ => True
  | .function r => r.Named
  | .leave _ value => ∀ e ∈ value, e.Named ok
  | .klass name superclass methods =>
    ok name.text ∧ (∀ r ∈ superclass, ok r.name.text) ∧ MethodsNamed methods
termination_by structural s => s

def Routine.Named : Routine → Prop
  | ⟨name,params,body⟩ => ok name.text ∧ (∀ p ∈ params, ok p.text) ∧ BodyNamed body
termination_by structural r => r

def BodyNamed : List Stmt → Prop
  | [] => True
  | s :: rest => s.Named ∧ BodyNamed rest
termination_by structural ss => ss

def MethodsNamed : List Routine → Prop
  | [] => True
  | r :: rest => r.Named ∧ MethodsNamed rest
termination_by structural rs => rs

end

end

theorem BodyNamed.mem {ok : String → Prop} {ss : List Stmt} (named : BodyNamed ok ss) {s : Stmt}
    (hs : s ∈ ss) : s.Named ok := by
  induction ss with
  | nil => cases hs
  | cons t rest ih => exact (List.mem_cons.mp hs).elim (fun e => e ▸ named.1) (ih named.2)

/-! ## Names in words -/

/-- The identifiers among some words are as is asked for. -/
def Spells (ok : String → Prop) (ws : List Word) : Prop := ∀ w ∈ ws, w.kind = .identifier → ok w.lexeme

section
variable {ok : String → Prop}

@[simp] theorem spells_nil : Spells ok [] := fun _ h => absurd h List.not_mem_nil

@[simp] theorem spells_append (us ws : List Word) :
    Spells ok (us ++ ws) ↔ Spells ok us ∧ Spells ok ws := List.forall_mem_append

theorem spells_cons (w : Word) (ws : List Word) :
    Spells ok (w :: ws) ↔ (w.kind = .identifier → ok w.lexeme) ∧ Spells ok ws := List.forall_mem_cons

@[simp] theorem spells_identifier (text : String) (ws : List Word) :
    Spells ok (identifier text :: ws) ↔ ok text ∧ Spells ok ws := by
  simp [spells_cons,identifier]

theorem spells_fixed {k : Token.Kind} (other : k ≠ .identifier) (ws : List Word) :
    Spells ok (fixed k :: ws) ↔ Spells ok ws := by simp [spells_cons,fixed,other]

@[simp] theorem spells_parenthesized (ws : List Word) :
    Spells ok (parenthesized ws) ↔ Spells ok ws := by
  simp [parenthesized,spells_fixed]

@[simp] theorem spells_braced (ws : List Word) : Spells ok (braced ws) ↔ Spells ok ws := by
  simp [braced,spells_fixed]

theorem spells_separated (wss : List (List Word)) :
    Spells ok (separated wss) ↔ ∀ ws ∈ wss, Spells ok ws := by
  induction wss with
  | nil => simp [separated]
  | cons ws wss ih =>
    cases wss with
    | nil => simp [separated]
    | cons us wss => simp [separated,spells_fixed,ih]

mutual

theorem Expr.named_of_words : (e : Expr) → Spells ok e.words → e.Named ok
  | .literal _ _, _ | .this _ _, _ | .super _ _ _, _ => trivial
  | .grouping _ e, h => e.named_of_words (by simpa [Expr.words] using h)
  | .unary op _ e, h => by
    refine e.named_of_words ?_
    cases op <;> simpa [Expr.words,spells_fixed,UnaryOp.kind] using h
  | .get e _, h => e.named_of_words (by simp_all [Expr.words])
  | .var r, h => show ok r.name.text by simpa [Expr.words] using h
  | .assign r e, h => by
    simp only [Expr.words,spells_identifier,spells_fixed (k := .equal) (by decide)] at h
    exact ⟨h.1,e.named_of_words h.2⟩
  | .binary d op _ e, h => by
    have other : op.kind ≠ .identifier := by cases op <;> decide
    simp only [Expr.words,spells_append,spells_fixed other] at h
    exact ⟨d.named_of_words h.1,e.named_of_words h.2⟩
  | .logical d op _ e, h => by
    have other : op.kind ≠ .identifier := by cases op <;> decide
    simp only [Expr.words,spells_append,spells_fixed other] at h
    exact ⟨d.named_of_words h.1,e.named_of_words h.2⟩
  | .set d n e, h => by
    simp only [Expr.words,spells_append,spells_identifier,spells_fixed (k := .dot) (by decide),
      spells_fixed (k := .equal) (by decide)] at h
    exact ⟨d.named_of_words h.1,e.named_of_words h.2.2⟩
  | .call e _ es, h => by
    simp only [Expr.words,spells_append,spells_parenthesized,spells_separated] at h
    exact ⟨e.named_of_words h.1,argumentsNamed_of_words es h.2⟩

theorem argumentsNamed_of_words :
    (es : List Expr) → (∀ ws ∈ argumentWords es, Spells ok ws) → ArgumentsNamed ok es
  | [], _ => trivial
  | e :: es, h =>
    have h := List.forall_mem_cons.mp h
    ⟨e.named_of_words h.1,argumentsNamed_of_words es h.2⟩

end

theorem Expr.named_of_optionWords {e : Option Expr} (h : Spells ok (Expr.optionWords e)) :
    ∀ d ∈ e, d.Named ok := by
  rintro d rfl
  exact d.named_of_words h

theorem declared?_of_not_isDeclaration {s : Stmt} (h : ¬s.IsDeclaration) : s.declared? = none := by
  cases s <;> first
    | rfl
    | exact absurd trivial h

mutual

theorem Stmt.named_of_words : (s : Stmt) → s.Grammatical → Spells ok s.words → s.Named ok
  | .expression e, _, h => e.named_of_words (by simp_all [Stmt.words])
  | .print _ e, _, h => e.named_of_words (by simp_all [Stmt.words,spells_fixed])
  | .var name init, _, h => by
    cases init with
    | none =>
      simp only [Stmt.words,List.cons_append,spells_fixed (k := .kwVar) (by decide),
        spells_identifier] at h
      exact ⟨h.1,fun _ he => absurd he (by simp)⟩
    | some e =>
      simp only [Stmt.words,initializerWords,List.cons_append,spells_fixed (k := .kwVar) (by decide),
        spells_identifier,spells_fixed (k := .equal) (by decide),spells_append] at h
      refine ⟨h.1,fun d hd => ?_⟩
      obtain rfl := Option.mem_some_iff.mp hd
      exact e.named_of_words h.2.1
  | .block _ .plain body, g, h => bodyNamed_of_words body g (by simpa [Stmt.words] using h)
  | .block _ .clauses body, g, h => bodyNamed_of_clauses body g (by simpa [Stmt.words,spells_fixed] using h)
  | .branch _ condition yes none, g, h => by
    simp only [Stmt.words,spells_fixed (k := .kwIf) (by decide),List.cons_append,spells_append,
      spells_parenthesized] at h
    exact ⟨condition.named_of_words h.1,yes.named_of_words g.2.1 h.2,
      declared?_of_not_isDeclaration g.2.2⟩
  | .branch _ condition yes (some no), g, h => by
    simp only [Stmt.words,spells_fixed (k := .kwIf) (by decide),List.cons_append,spells_append,
      spells_parenthesized,spells_fixed (k := .kwElse) (by decide)] at h
    obtain ⟨-,here,alone,-,there,alone'⟩ := g
    exact ⟨condition.named_of_words h.1.1,yes.named_of_words here h.1.2,
      declared?_of_not_isDeclaration alone,no.named_of_words there h.2,
      declared?_of_not_isDeclaration alone'⟩
  | .loop _ .plain condition body increment, g, h => by
    simp only [Stmt.words,spells_fixed (k := .kwWhile) (by decide),List.cons_append,spells_append,
      spells_parenthesized] at h
    obtain ⟨-,there,alone,rfl⟩ := g
    exact ⟨condition.named_of_words h.1,body.named_of_words there h.2,
      declared?_of_not_isDeclaration alone,nofun⟩
  | .loop _ .clauses condition body increment, g, h => by
    simp only [Stmt.words,spells_fixed (k := .kwFor) (by decide),
      spells_fixed (k := .leftParen) (by decide),spells_append,
      spells_fixed (k := .semicolon) (by decide),spells_fixed (k := .rightParen) (by decide),
      List.cons_append] at h
    obtain ⟨-,there,alone,-⟩ := g
    exact ⟨condition.named_of_words h.1.1,body.named_of_words there h.2,
      declared?_of_not_isDeclaration alone,Expr.named_of_optionWords h.1.2⟩
  | .jump _ _, _, _ => trivial
  | .function r, g, h => r.named_of_words g (by simpa [Stmt.words,spells_fixed] using h)
  | .leave _ value, _, h => Expr.named_of_optionWords (by simp_all [Stmt.words,spells_fixed])
  | .klass name superclass methods, g, h => by
    simp only [Stmt.words,spells_fixed (k := .kwClass) (by decide),spells_identifier,
      List.cons_append,spells_append,spells_braced] at h
    refine ⟨h.1,fun r hr => ?_,methodsNamed_of_words methods g h.2.2⟩
    obtain rfl := Option.mem_def.mp hr
    simpa [superclassWords,spells_fixed] using h.2.1

theorem Routine.named_of_words : (r : Routine) → r.Grammatical → Spells ok r.words → r.Named ok
  | ⟨name,params,body⟩, g, h => by
    simp only [Routine.words,List.cons_append,spells_identifier,spells_append,spells_parenthesized,
      spells_separated,spells_braced] at h
    refine ⟨h.1,fun p hp => ?_,bodyNamed_of_words body g.2 h.2.2⟩
    simpa using h.2.1 _ (List.mem_map_of_mem hp)

theorem bodyNamed_of_clauses :
    (ss : List Stmt) → GrammaticalClauses ss → Spells ok (clauseWords ss) → BodyNamed ok ss
  | [init,.loop _ .clauses condition body increment], g, h => by
    simp only [clauseWords,spells_append,spells_fixed (k := .semicolon) (by decide),
      spells_fixed (k := .rightParen) (by decide)] at h
    obtain ⟨first,-,-,there,alone,-⟩ := g
    obtain ⟨⟨⟨start,test⟩,step⟩,round⟩ := h
    exact ⟨init.named_of_words first start,
      ⟨condition.named_of_words test,body.named_of_words there round,
        declared?_of_not_isDeclaration alone,Expr.named_of_optionWords step⟩,trivial⟩

theorem bodyNamed_of_words :
    (ss : List Stmt) → GrammaticalList ss → Spells ok (statementWords ss) → BodyNamed ok ss
  | [], _, _ => trivial
  | s :: ss, g, h => by
    simp only [statementWords,spells_append] at h
    exact ⟨s.named_of_words g.1 h.1,bodyNamed_of_words ss g.2 h.2⟩

theorem methodsNamed_of_words :
    (rs : List Routine) → GrammaticalMethods rs → Spells ok (methodWords rs) → MethodsNamed ok rs
  | [], _, _ => trivial
  | r :: rs, g, h => by
    simp only [methodWords,spells_append] at h
    exact ⟨r.named_of_words g.1 h.1,methodsNamed_of_words rs g.2 h.2⟩

end

end

/-! ## Resolved names -/

section
variable {ok : String → Prop}

mutual

theorem Expr.Named.resolve (scopes : Scopes) : (e : Expr) → e.Named ok → (e.resolve scopes).Named ok
  | .literal _ _, _ | .this _ _, _ | .super _ _ _, _ => trivial
  | .grouping _ e, named | .unary _ _ e, named | .get e _, named => Expr.Named.resolve scopes e named
  | .var _, named => named
  | .assign _ e, named => ⟨named.1,Expr.Named.resolve scopes e named.2⟩
  | .binary d _ _ e, named | .logical d _ _ e, named | .set d _ e, named =>
    ⟨Expr.Named.resolve scopes d named.1,Expr.Named.resolve scopes e named.2⟩
  | .call e _ es, named => ⟨Expr.Named.resolve scopes e named.1,ArgumentsNamed.resolve scopes es named.2⟩

theorem ArgumentsNamed.resolve (scopes : Scopes) : (es : List Expr) → ArgumentsNamed ok es →
    ArgumentsNamed ok (resolveArguments scopes es)
  | [], _ => trivial
  | e :: es, named => ⟨Expr.Named.resolve scopes e named.1,ArgumentsNamed.resolve scopes es named.2⟩

end

theorem Expr.Named.resolve_option (scopes : Scopes) {e : Option Expr} (named : ∀ d ∈ e, d.Named ok) :
    ∀ d ∈ e.map (·.resolve scopes), d.Named ok := by
  intro d hd
  obtain ⟨e,he,rfl⟩ := Option.map_eq_some_iff.mp hd
  exact Expr.Named.resolve scopes e (named e he)

@[simp] theorem Routine.name_resolve (scopes : Scopes) (r : Routine) :
    (r.resolve scopes).name = r.name := by cases r; rfl

@[simp] theorem Stmt.declared?_resolve (scopes : Scopes) (s : Stmt) :
    (s.resolve scopes).declared? = s.declared? := by
  cases s with
  | branch _ _ _ no => cases no <;> rfl
  | function r => exact congrArg some (r.name_resolve _)
  | _ => rfl

mutual

/-- Resolution keeps all names. -/
theorem Stmt.Named.resolve (scopes : Scopes) : (s : Stmt) → s.Named ok → (s.resolve scopes).Named ok
  | .expression e, named | .print _ e, named => Expr.Named.resolve scopes e named
  | .var _ _, named => ⟨named.1,Expr.Named.resolve_option _ named.2⟩
  | .block _ _ body, named => BodyNamed.resolve ([] :: scopes) body named
  | .branch _ condition yes none, named =>
    ⟨Expr.Named.resolve scopes condition named.1,Stmt.Named.resolve scopes yes named.2.1,
      (yes.declared?_resolve scopes).trans named.2.2⟩
  | .branch _ condition yes (some no), named =>
    ⟨Expr.Named.resolve scopes condition named.1,Stmt.Named.resolve scopes yes named.2.1,
      (yes.declared?_resolve scopes).trans named.2.2.1,Stmt.Named.resolve scopes no named.2.2.2.1,
      (no.declared?_resolve scopes).trans named.2.2.2.2⟩
  | .loop _ _ condition body _, named =>
    ⟨Expr.Named.resolve scopes condition named.1,Stmt.Named.resolve scopes body named.2.1,
      (body.declared?_resolve scopes).trans named.2.2.1,Expr.Named.resolve_option scopes named.2.2.2⟩
  | .jump _ _, _ => trivial
  | .function r, named => Routine.Named.resolve _ r named
  | .leave _ _, named => Expr.Named.resolve_option scopes named
  | .klass _ superclass methods, named => by
    refine ⟨named.1,fun r hr => ?_,MethodsNamed.resolve _ methods named.2.2⟩
    obtain ⟨q,hq,rfl⟩ := Option.map_eq_some_iff.mp hr
    exact named.2.1 q hq

theorem Routine.Named.resolve (scopes : Scopes) : (r : Routine) → r.Named ok → (r.resolve scopes).Named ok
  | ⟨_,_,body⟩, named => ⟨named.1,named.2.1,BodyNamed.resolve _ body named.2.2⟩

theorem BodyNamed.resolve (scopes : Scopes) : (ss : List Stmt) → BodyNamed ok ss →
    BodyNamed ok (resolveAll scopes ss)
  | [], _ => trivial
  | s :: rest, named =>
    ⟨Stmt.Named.resolve scopes s named.1,BodyNamed.resolve (scopes.afterStmt s) rest named.2⟩

theorem MethodsNamed.resolve (scopes : Scopes) : (rs : List Routine) → MethodsNamed ok rs →
    MethodsNamed ok (resolveMethods scopes rs)
  | [], _ => trivial
  | r :: rest, named =>
    ⟨Routine.Named.resolve scopes r named.1,MethodsNamed.resolve scopes rest named.2⟩

end

end
end Lox
