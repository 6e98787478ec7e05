import Lox.Ast.Grammar
import Lox.Ast.Unresolved
import Lox.Proofs.Scope.Context
import Lox.Scope.Rules

/-! # Trees before and after resolution

Resolution writes every depth anew and the rules of scope look at none, so that both may start from a
tree whose names are resolved already. The grammar looks neither at depths nor at names.
-/
namespace Lox

/-! ## Depths that are not looked at -/

mutual

theorem Expr.resolve_unresolved (scopes : Scopes) :
    (e : Expr) → e.unresolved.resolve scopes = e.resolve scopes
  | .literal _ _ | .var _ | .this _ _ | .super _ _ _ => rfl
  | .grouping _ e | .unary _ _ e | .get e _ => by
    simp only [Expr.unresolved,Expr.resolve,e.resolve_unresolved scopes]
  | .assign _ e => by
    simp only [Expr.unresolved,Expr.resolve,e.resolve_unresolved scopes,Reference.unresolved,Reference.resolve]
  | .binary d _ _ e | .logical d _ _ e | .set d _ e => by
    simp only [Expr.unresolved,Expr.resolve,d.resolve_unresolved scopes,e.resolve_unresolved scopes]
  | .call e _ es => by
    simp only [Expr.unresolved,Expr.resolve,e.resolve_unresolved scopes,resolveArguments_unresolved scopes es]

theorem resolveArguments_unresolved (scopes : Scopes) :
    (es : List Expr) → resolveArguments scopes (unresolvedArguments es) = resolveArguments scopes es
  | [] => rfl
  | e :: es => congrArg₂ List.cons (e.resolve_unresolved scopes) (resolveArguments_unresolved scopes es)

end

theorem Expr.resolve_unresolved_option (scopes : Scopes) (e : Option Expr) :
    (e.map Expr.unresolved).map (·.resolve scopes) = e.map (·.resolve scopes) := by
  cases e with
  | none => rfl
  | some e => exact congrArg some (e.resolve_unresolved scopes)

theorem Stmt.declared?_unresolved (t : Stmt) : t.unresolved.declared? = t.declared? := by
  cases t with
  | branch _ _ _ no => cases no <;> rfl
  | function r => cases r; rfl
  | _ => rfl

theorem Scopes.afterStmt_unresolved (scopes : Scopes) (t : Stmt) :
    scopes.afterStmt t.unresolved = scopes.afterStmt t := by
  rw [afterStmt,t.declared?_unresolved,afterStmt]

mutual

theorem Stmt.resolve_unresolved (scopes : Scopes) :
    (t : Stmt) → t.unresolved.resolve scopes = t.resolve scopes
  | .expression e | .print _ e => by simp only [Stmt.unresolved,Stmt.resolve,e.resolve_unresolved scopes]
  | .var _ _ | .leave _ _ => by simp only [Stmt.unresolved,Stmt.resolve,Expr.resolve_unresolved_option]
  | .block _ _ body => by simp only [Stmt.unresolved,Stmt.resolve,resolveAll_unresolved ([] :: scopes) body]
  | .branch _ condition yes none => by
    simp only [Stmt.unresolved,Stmt.resolve,condition.resolve_unresolved scopes,yes.resolve_unresolved scopes]
  | .branch _ condition yes (some no) => by
    simp only [Stmt.unresolved,Stmt.resolve,condition.resolve_unresolved scopes,yes.resolve_unresolved scopes,
      no.resolve_unresolved scopes]
  | .loop _ _ condition body _ => by
    simp only [Stmt.unresolved,Stmt.resolve,condition.resolve_unresolved scopes,body.resolve_unresolved scopes,
      Expr.resolve_unresolved_option]
  | .jump _ _ => rfl
  | .function ⟨name,params,body⟩ => by
    have inner := Routine.resolve_unresolved (scopes.declare name.text) ⟨name,params,body⟩
    simp only [Stmt.unresolved,Stmt.resolve,Routine.unresolved] at inner ⊢
    rw [inner]
  | .klass name superclass methods => by
    have base : (superclass.map Reference.unresolved).map (·.resolve (scopes.declare name.text)) =
        superclass.map (·.resolve (scopes.declare name.text)) := by cases superclass <;> rfl
    have inner := resolveMethods_unresolved ((scopes.declare name.text).ofClass superclass) methods
    cases superclass <;> simp only [Stmt.unresolved,Stmt.resolve,base,← inner] <;> rfl

theorem Routine.resolve_unresolved (scopes : Scopes) :
    (r : Routine) → r.unresolved.resolve scopes = r.resolve scopes
  | ⟨_,params,body⟩ => by
    simp only [Routine.unresolved,Routine.resolve,
      resolveAll_unresolved (Scopes.declareAll ([] :: scopes) params) body]

theorem resolveAll_unresolved (scopes : Scopes) :
    (ts : List Stmt) → resolveAll scopes (unresolvedAll ts) = resolveAll scopes ts
  | [] => rfl
  | t :: rest => by
    simp only [unresolvedAll,resolveAll,t.resolve_unresolved scopes,Scopes.afterStmt_unresolved,
      resolveAll_unresolved (scopes.afterStmt t) rest]

theorem resolveMethods_unresolved (scopes : Scopes) :
    (rs : List Routine) → resolveMethods scopes (unresolvedMethods rs) = resolveMethods scopes rs
  | [] => rfl
  | r :: rest =>
    congrArg₂ List.cons (r.resolve_unresolved scopes) (resolveMethods_unresolved scopes rest)

end

theorem Program.resolve_unresolved (p : Program) : p.unresolved.resolve = p.resolve :=
  resolveAll_unresolved [] p

mutual

theorem Expr.scopeErrors_unresolved (s : Surroundings) :
    (e : Expr) → e.unresolved.scopeErrors s = e.scopeErrors s
  | .literal _ _ | .var _ | .this _ _ | .super _ _ _ => rfl
  | .grouping _ e | .unary _ _ e | .get e _ | .assign _ e => by
    simp only [Expr.unresolved,Expr.scopeErrors,e.scopeErrors_unresolved s]
  | .binary d _ _ e | .logical d _ _ e | .set d _ e => by
    simp only [Expr.unresolved,Expr.scopeErrors,d.scopeErrors_unresolved s,e.scopeErrors_unresolved s]
  | .call e _ es => by
    simp only [Expr.unresolved,Expr.scopeErrors,e.scopeErrors_unresolved s,argumentErrors_unresolved s es]

theorem argumentErrors_unresolved (s : Surroundings) :
    (es : List Expr) → argumentErrors s (unresolvedArguments es) = argumentErrors s es
  | [] => rfl
  | e :: es => congrArg₂ (· ++ ·) (e.scopeErrors_unresolved s) (argumentErrors_unresolved s es)

end

theorem Expr.optionErrors_unresolved (s : Surroundings) (e : Option Expr) :
    Expr.optionErrors s (e.map Expr.unresolved) = Expr.optionErrors s e := by
  cases e with
  | none => rfl
  | some e => exact e.scopeErrors_unresolved s

mutual

theorem Stmt.scopeErrors_unresolved (s : Surroundings) :
    (t : Stmt) → t.unresolved.scopeErrors s = t.scopeErrors s
  | .expression e | .print _ e => by simp only [Stmt.unresolved,Stmt.scopeErrors,e.scopeErrors_unresolved s]
  | .var _ _ | .leave _ _ => by simp only [Stmt.unresolved,Stmt.scopeErrors,Expr.optionErrors_unresolved]
  | .block _ _ body => by simp only [Stmt.unresolved,Stmt.scopeErrors,blockErrors_unresolved s.openScope body]
  | .branch _ condition yes none => by
    simp only [Stmt.unresolved,Stmt.scopeErrors,condition.scopeErrors_unresolved s,yes.scopeErrors_unresolved s]
  | .branch _ condition yes (some no) => by
    simp only [Stmt.unresolved,Stmt.scopeErrors,condition.scopeErrors_unresolved s,yes.scopeErrors_unresolved s,
      no.scopeErrors_unresolved s]
  | .loop _ _ condition body _ => by
    simp only [Stmt.unresolved,Stmt.scopeErrors,condition.scopeErrors_unresolved s,
      body.scopeErrors_unresolved { s with inLoop := true },Expr.optionErrors_unresolved]
  | .jump _ _ => rfl
  | .function ⟨name,params,body⟩ => by
    have inner := Routine.scopeErrors_unresolved (s.declare name.text) ⟨name,params,body⟩
    simp only [Stmt.unresolved,Stmt.scopeErrors,Routine.unresolved] at inner ⊢
    rw [inner]
  | .klass name superclass methods => by
    have inner := methodErrors_unresolved ((s.declare name.text).classBody superclass) methods
    cases superclass <;> simp only [Stmt.unresolved,Stmt.scopeErrors,← inner] <;> rfl

theorem Routine.scopeErrors_unresolved (s : Surroundings) :
    (r : Routine) → r.unresolved.scopeErrors s = r.scopeErrors s
  | ⟨_,params,body⟩ => by
    simp only [Routine.unresolved,Routine.scopeErrors,
      blockErrors_unresolved { s.routine with scopes := s.routine.scopes.declareAll params } body]

theorem blockErrors_unresolved (s : Surroundings) :
    (ts : List Stmt) → blockErrors s (unresolvedAll ts) = blockErrors s ts
  | [] => rfl
  | t :: rest => by
    have later : s.afterStmt t.unresolved = s.afterStmt t := by
      rw [Surroundings.afterStmt,Scopes.afterStmt_unresolved,Surroundings.afterStmt]
    simp only [unresolvedAll,blockErrors,t.scopeErrors_unresolved s,later,
      blockErrors_unresolved (s.afterStmt t) rest]

theorem methodErrors_unresolved (s : Surroundings) :
    (rs : List Routine) → methodErrors s (unresolvedMethods rs) = methodErrors s rs
  | [] => rfl
  | r :: rest =>
    congrArg₂ (· ++ ·) (r.scopeErrors_unresolved s) (methodErrors_unresolved s rest)

end

theorem Program.scopeErrors_unresolved (p : Program) : p.unresolved.scopeErrors = p.scopeErrors :=
  blockErrors_unresolved {} p

/-! ## Names that are not looked at -/

section
variable (spell : Spelling)

theorem Expr.level_respell (scopes : Scopes) (os : List Origin) (e : Expr) :
    ((e.resolve scopes).respell spell os).level = e.level := by cases e <;> rfl

mutual

theorem Expr.grammatical_respell (scopes : Scopes) (os : List Origin) :
    (e : Expr) → e.Grammatical → ((e.resolve scopes).respell spell os).Grammatical
  | .literal _ _, h => h
  | .var _, _ | .this _ _, _ | .super _ _ _, _ => trivial
  | .grouping _ e, h | .assign _ e, h => e.grammatical_respell scopes os h
  | .unary _ _ e, h =>
    ⟨e.grammatical_respell scopes os h.1,(e.level_respell spell scopes os).symm ▸ h.2⟩
  | .binary d _ _ e, h | .logical d _ _ e, h => by
    refine ⟨d.grammatical_respell scopes os h.1,e.grammatical_respell scopes os h.2.1,?_⟩
    rw [Expr.level_respell,Expr.level_respell]
    exact h.2.2
  | .call e _ es, h => by
    have length : (respellArguments spell os (resolveArguments scopes es)).length = es.length :=
      length_respellArguments scopes os es
    refine ⟨e.grammatical_respell scopes os h.1,(e.level_respell spell scopes os).symm ▸ h.2.1,
      grammaticalArguments_respell scopes os es h.2.2.1,length.symm ▸ h.2.2.2⟩
  | .get e _, h =>
    ⟨e.grammatical_respell scopes os h.1,(e.level_respell spell scopes os).symm ▸ h.2⟩
  | .set d _ e, h =>
    ⟨d.grammatical_respell scopes os h.1,(d.level_respell spell scopes os).symm ▸ h.2.1,
      e.grammatical_respell scopes os h.2.2⟩

theorem grammaticalArguments_respell (scopes : Scopes) (os : List Origin) :
    (es : List Expr) → Expr.GrammaticalArguments es →
      Expr.GrammaticalArguments (respellArguments spell os (resolveArguments scopes es))
  | [], _ => trivial
  | e :: es, h =>
    ⟨e.grammatical_respell scopes os h.1,grammaticalArguments_respell scopes os es h.2⟩

theorem length_respellArguments (scopes : Scopes) (os : List Origin) :
    (es : List Expr) → (respellArguments spell os (resolveArguments scopes es)).length = es.length
  | [] => rfl
  | _ :: es => congrArg (· + 1) (length_respellArguments scopes os es)

end

theorem Expr.grammaticalOption_respell (scopes : Scopes) (os : List Origin) {e : Option Expr}
    (h : Expr.GrammaticalOption e) :
    Expr.GrammaticalOption ((e.map (·.resolve scopes)).map (·.respell spell os)) := by
  cases e with
  | none => trivial
  | some e => exact e.grammatical_respell spell scopes os h

theorem Expr.grammaticalClause_respell (scopes : Scopes) (os : List Origin) {e : Expr}
    (h : e.GrammaticalClause) : ((e.resolve scopes).respell spell os).GrammaticalClause := by
  cases e with
  | literal => exact h
  | _ => exact Expr.grammatical_respell spell scopes os _ h

theorem Stmt.isDeclaration_respell (scopes : Scopes) (os : List Origin) (t : Stmt) :
    ((t.resolve scopes).respell spell os).IsDeclaration ↔ t.IsDeclaration := by
  cases t with
  | branch _ _ _ no => cases no <;> exact .rfl
  | _ => exact .rfl

theorem Stmt.isInitializer_respell (scopes : Scopes) (os : List Origin) (t : Stmt) :
    ((t.resolve scopes).respell spell os).IsInitializer ↔ t.IsInitializer := by
  cases t with
  | branch _ _ _ no => cases no <;> exact .rfl
  | _ => exact .rfl

mutual

theorem Stmt.takesElse_respell (scopes : Scopes) (os : List Origin) :
    (t : Stmt) → (((t.resolve scopes).respell spell os).TakesElse ↔ t.TakesElse)
  | .expression _ | .print _ _ | .var _ _ | .jump _ _ | .function _ | .leave _ _ | .klass _ _ _
  | .branch _ _ _ none | .block _ .plain _ => .rfl
  | .branch _ _ _ (some no) => no.takesElse_respell scopes os
  | .loop _ _ _ body _ => body.takesElse_respell scopes os
  | .block _ .clauses body => lastTakesElse_respell ([] :: scopes) _ body

theorem lastTakesElse_respell (scopes : Scopes) (os : List Origin) :
    (ts : List Stmt) → (Stmt.LastTakesElse (respellAll spell os (resolveAll scopes ts)) ↔
      Stmt.LastTakesElse ts)
  | [] => .rfl
  | [t] => t.takesElse_respell scopes os
  | t :: u :: rest => lastTakesElse_respell (scopes.afterStmt t) os (u :: rest)

end

mutual

theorem Stmt.grammatical_respell (scopes : Scopes) (os : List Origin) :
    (t : Stmt) → t.Grammatical → ((t.resolve scopes).respell spell os).Grammatical
  | .expression e, h | .print _ e, h => e.grammatical_respell spell scopes os h
  | .var _ _, h | .leave _ _, h => Expr.grammaticalOption_respell spell _ os h
  | .block _ .plain body, h => grammaticalList_respell ([] :: scopes) _ body h
  | .block _ .clauses body, h => grammaticalClauses_respell ([] :: scopes) _ body h
  | .branch _ condition yes none, h =>
    ⟨condition.grammatical_respell spell scopes os h.1,yes.grammatical_respell scopes os h.2.1,
      (yes.isDeclaration_respell spell scopes os).not.mpr h.2.2⟩
  | .branch _ condition yes (some no), h =>
    ⟨condition.grammatical_respell spell scopes os h.1,yes.grammatical_respell scopes os h.2.1,
      (yes.isDeclaration_respell spell scopes os).not.mpr h.2.2.1,
      (yes.takesElse_respell spell scopes os).not.mpr h.2.2.2.1,
      no.grammatical_respell scopes os h.2.2.2.2.1,
      (no.isDeclaration_respell spell scopes os).not.mpr h.2.2.2.2.2⟩
  | .loop _ .plain condition body increment, h => by
    obtain ⟨test,round,alone,rfl⟩ := h
    exact ⟨condition.grammatical_respell spell scopes os test,body.grammatical_respell scopes os round,
      (body.isDeclaration_respell spell scopes os).not.mpr alone,rfl⟩
  | .loop _ .clauses condition body increment, h =>
    ⟨Expr.grammaticalClause_respell spell scopes os h.1,body.grammatical_respell scopes os h.2.1,
      (body.isDeclaration_respell spell scopes os).not.mpr h.2.2.1,
      Expr.grammaticalOption_respell spell scopes os h.2.2.2⟩
  | .jump _ _, _ => trivial
  | .function r, h => r.grammatical_respell _ _ h
  | .klass _ _ methods, h => grammaticalMethods_respell _ _ methods h

theorem grammaticalClauses_respell (scopes : Scopes) (os : List Origin) :
    (ts : List Stmt) → GrammaticalClauses ts →
      GrammaticalClauses (respellAll spell os (resolveAll scopes ts))
  | [init,.loop _ .clauses _ body _], h =>
    ⟨init.grammatical_respell scopes os h.1,(init.isInitializer_respell spell scopes os).mpr h.2.1,
      Expr.grammaticalClause_respell spell _ os h.2.2.1,body.grammatical_respell _ os h.2.2.2.1,
      (body.isDeclaration_respell spell _ os).not.mpr h.2.2.2.2.1,
      Expr.grammaticalOption_respell spell _ os h.2.2.2.2.2⟩

theorem grammaticalList_respell (scopes : Scopes) (os : List Origin) :
    (ts : List Stmt) → GrammaticalList ts →
      GrammaticalList (respellAll spell os (resolveAll scopes ts))
  | [], _ => trivial
  | t :: rest, h =>
    ⟨t.grammatical_respell scopes os h.1,grammaticalList_respell (scopes.afterStmt t) os rest h.2⟩

theorem Routine.grammatical_respell (scopes : Scopes) (os : List Origin) :
    (r : Routine) → r.Grammatical → ((r.resolve scopes).respell spell os).Grammatical
  | ⟨_,params,body⟩, h =>
    ⟨by simpa [Routine.resolve,Routine.respell] using h.1,grammaticalList_respell _ os body h.2⟩

theorem grammaticalMethods_respell (scopes : Scopes) (os : List Origin) :
    (rs : List Routine) → GrammaticalMethods rs →
      GrammaticalMethods (respellMethods spell os (resolveMethods scopes rs))
  | [], _ => trivial
  | r :: rest, h => ⟨r.grammatical_respell scopes _ h.1,grammaticalMethods_respell scopes os rest h.2⟩

end

end

end Lox
