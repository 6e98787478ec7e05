import Lox.Proofs.Ast.Likeness
import Lox.Scope.Rules

/-! # Scopes of like programs

Resolution looks at no position: like programs stay alike and break the same rules. Global names are
in no scope, so that the statements of a program are resolved apart from each other.
-/
namespace Lox
variable {P : Pos → Pos → Prop}

theorem declareAll_alike (scopes : Scopes) {ps qs : List Name}
    (like : List.Forall₂ (Name.Alike P) ps qs) : scopes.declareAll ps = scopes.declareAll qs := by
  induction like generalizing scopes with
  | nil => rfl
  | cons like _ ih =>
    simp only [Scopes.declareAll,List.foldl_cons,like.text] at ih ⊢
    exact ih _

theorem Reference.Alike.resolve {r s : Reference} (like : Reference.Alike P r s) (scopes : Scopes) :
    Reference.Alike P (r.resolve scopes) (s.resolve scopes) :=
  ⟨like.name,congrArg scopes.depth? like.name.text⟩

theorem Stmt.Alike.afterStmt {s t : Stmt} (like : Stmt.Alike P s t) (scopes : Scopes) :
    scopes.afterStmt s = scopes.afterStmt t := by
  cases like with
  | var like _ => simp only [Scopes.afterStmt,Stmt.declared?,like.text]
  | function like => simp only [Scopes.afterStmt,Stmt.declared?,like.name.text]
  | klass like _ _ => simp only [Scopes.afterStmt,Stmt.declared?,like.text]
  | _ => rfl

theorem ofClass_alike (scopes : Scopes) {b c : Option Reference}
    (like : Option.Rel (Reference.Alike P) b c) : scopes.ofClass b = scopes.ofClass c := by
  cases like <;> rfl

mutual

theorem Expr.Alike.resolve (scopes : Scopes) : ∀ {d e : Expr}, Expr.Alike P d e →
    Expr.Alike P (d.resolve scopes) (e.resolve scopes)
  | _, _, .literal pos => .literal pos
  | _, _, .grouping pos like => .grouping pos (Expr.Alike.resolve scopes like)
  | _, _, .var like => .var (like.resolve scopes)
  | _, _, .assign target like => .assign (target.resolve scopes) (Expr.Alike.resolve scopes like)
  | _, _, .unary pos like => .unary pos (Expr.Alike.resolve scopes like)
  | _, _, .binary left pos right =>
    .binary (Expr.Alike.resolve scopes left) pos (Expr.Alike.resolve scopes right)
  | _, _, .logical left pos right =>
    .logical (Expr.Alike.resolve scopes left) pos (Expr.Alike.resolve scopes right)
  | _, _, .call callee pos args =>
    .call (Expr.Alike.resolve scopes callee) pos (ArgumentsAlike.resolve scopes args)
  | _, _, .get like name => .get (Expr.Alike.resolve scopes like) name
  | _, _, .set like name value =>
    .set (Expr.Alike.resolve scopes like) name (Expr.Alike.resolve scopes value)
  | _, _, .this pos => .this pos
  | _, _, .super pos name => .super pos name

theorem ArgumentsAlike.resolve (scopes : Scopes) : ∀ {ds es : List Expr}, ArgumentsAlike P ds es →
    ArgumentsAlike P (resolveArguments scopes ds) (resolveArguments scopes es)
  | _, _, .nil => .nil
  | _, _, .cons like likes => .cons (Expr.Alike.resolve scopes like) (ArgumentsAlike.resolve scopes likes)

end

theorem Expr.Alike.resolve_option (scopes : Scopes) {d e : Option Expr}
    (like : Option.Rel (Expr.Alike P) d e) :
    Option.Rel (Expr.Alike P) (d.map (·.resolve scopes)) (e.map (·.resolve scopes)) := by
  cases like with
  | none => exact .none
  | some like => exact .some (like.resolve scopes)

mutual

theorem Stmt.Alike.resolve (scopes : Scopes) : ∀ {s t : Stmt}, Stmt.Alike P s t →
    Stmt.Alike P (s.resolve scopes) (t.resolve scopes)
  | _, _, .expression like => .expression (like.resolve scopes)
  | _, _, .print pos like => .print pos (like.resolve scopes)
  | _, _, .var like value => by
    rw [Stmt.resolve,Stmt.resolve,like.text]
    exact .var like (Expr.Alike.resolve_option _ value)
  | _, _, .block pos like => .block pos (BodyAlike.resolve _ like)
  | _, _, .branch pos like yes => .branch pos (like.resolve scopes) (Stmt.Alike.resolve scopes yes)
  | _, _, .branchElse pos like yes no =>
    .branchElse pos (like.resolve scopes) (Stmt.Alike.resolve scopes yes) (Stmt.Alike.resolve scopes no)
  | _, _, .loop pos like body increment =>
    .loop pos (like.resolve scopes) (Stmt.Alike.resolve scopes body)
      (Expr.Alike.resolve_option scopes increment)
  | _, _, .jump pos => .jump pos
  | _, _, .function like => by
    rw [Stmt.resolve,Stmt.resolve,like.name.text]
    exact .function (RoutineAlike.resolve _ like)
  | _, _, .leave pos value => .leave pos (Expr.Alike.resolve_option scopes value)
  | _, _, .klass like base methods => by
    rw [Stmt.resolve,Stmt.resolve,like.text,ofClass_alike _ base]
    refine .klass like ?_ (RoutinesAlike.resolve _ methods)
    cases base with
    | none => exact .none
    | some like => exact .some (like.resolve _)

theorem BodyAlike.resolve (scopes : Scopes) : ∀ {ss ts : List Stmt}, BodyAlike P ss ts →
    BodyAlike P (resolveAll scopes ss) (resolveAll scopes ts)
  | _, _, .nil => .nil
  | _, _, .cons like likes => by
    rw [resolveAll,resolveAll,like.afterStmt]
    exact .cons (Stmt.Alike.resolve scopes like) (BodyAlike.resolve _ likes)

theorem RoutineAlike.resolve (scopes : Scopes) : ∀ {r s : Routine}, RoutineAlike P r s →
    RoutineAlike P (r.resolve scopes) (s.resolve scopes)
  | _, _, .mk name params body => by
    rw [Routine.resolve,Routine.resolve,declareAll_alike _ params]
    exact .mk name params (BodyAlike.resolve _ body)

theorem RoutinesAlike.resolve (scopes : Scopes) : ∀ {rs ss : List Routine}, RoutinesAlike P rs ss →
    RoutinesAlike P (resolveMethods scopes rs) (resolveMethods scopes ss)
  | _, _, .nil => .nil
  | _, _, .cons like likes =>
    .cons (RoutineAlike.resolve scopes like) (RoutinesAlike.resolve scopes likes)

end

/-! ## Errors -/

structure Diagnostic.Alike (P : Pos → Pos → Prop) (d e : Diagnostic) : Prop where
  cause : d.cause = e.cause
  pos : P d.pos e.pos
  place : d.place = e.place

/-- The same errors in the same order, at corresponding positions. -/
abbrev ErrorsAlike (P : Pos → Pos → Prop) : List Diagnostic → List Diagnostic → Prop :=
  List.Forall₂ (Diagnostic.Alike P)

theorem ErrorsAlike.append {ds ds' es es' : List Diagnostic} (first : ErrorsAlike P ds es)
    (second : ErrorsAlike P ds' es') : ErrorsAlike P (ds ++ ds') (es ++ es') :=
  List.rel_append first second

theorem ErrorsAlike.eq_nil {ds es : List Diagnostic} (like : ErrorsAlike P ds es) (h : ds = []) :
    es = [] := by
  subst h
  cases like
  rfl

theorem scopeError_alike (c : ScopeError) (lexeme : String) {p q : Pos} (pos : P p q) :
    ErrorsAlike P (scopeError c p lexeme) (scopeError c q lexeme) := .cons ⟨rfl,pos,rfl⟩ .nil

theorem Name.Alike.declarationErrors {n m : Name} (like : Name.Alike P n m) (scopes : Scopes) :
    ErrorsAlike P (declarationErrors scopes n) (declarationErrors scopes m) := by
  cases scopes with
  | nil => exact .nil
  | cons scope _ =>
    simp only [Lox.declarationErrors,like.text]
    split
    · exact scopeError_alike _ _ like.pos
    · exact .nil

theorem parameterErrors_alike (scopes : Scopes) {ps qs : List Name}
    (like : List.Forall₂ (Name.Alike P) ps qs) :
    ErrorsAlike P (parameterErrors scopes ps) (parameterErrors scopes qs) := by
  induction like generalizing scopes with
  | nil => exact .nil
  | cons like _ ih =>
    simp only [parameterErrors,like.text]
    exact (like.declarationErrors scopes).append (ih _)

theorem superclassErrors_alike {n m : Name} (like : Name.Alike P n m) {b c : Option Reference}
    (base : Option.Rel (Reference.Alike P) b c) :
    ErrorsAlike P (superclassErrors n b) (superclassErrors m c) := by
  cases base with
  | none => exact .nil
  | some base =>
    simp only [superclassErrors,like.text,base.name.text]
    split
    · exact scopeError_alike _ _ base.name.pos
    · exact .nil

mutual

theorem Expr.Alike.scopeErrors (s : Surroundings) : ∀ {d e : Expr}, Expr.Alike P d e →
    ErrorsAlike P (d.scopeErrors s) (e.scopeErrors s)
  | _, _, .literal _ => .nil
  | _, _, .grouping _ like => by
    rw [Expr.scopeErrors,Expr.scopeErrors]
    exact Expr.Alike.scopeErrors s like
  | _, _, .var like => by
    rw [Expr.scopeErrors,Expr.scopeErrors,like.name.text]
    split
    · exact scopeError_alike _ _ like.name.pos
    · exact .nil
  | _, _, .assign _ like => by
    rw [Expr.scopeErrors,Expr.scopeErrors]
    exact Expr.Alike.scopeErrors s like
  | _, _, .unary _ like => by
    rw [Expr.scopeErrors,Expr.scopeErrors]
    exact Expr.Alike.scopeErrors s like
  | _, _, .binary left _ right =>
    (Expr.Alike.scopeErrors s left).append (Expr.Alike.scopeErrors s right)
  | _, _, .logical left _ right =>
    (Expr.Alike.scopeErrors s left).append (Expr.Alike.scopeErrors s right)
  | _, _, .call callee _ args =>
    (Expr.Alike.scopeErrors s callee).append (ArgumentsAlike.argumentErrors s args)
  | _, _, .get like _ => by
    rw [Expr.scopeErrors,Expr.scopeErrors]
    exact Expr.Alike.scopeErrors s like
  | _, _, .set like _ value =>
    (Expr.Alike.scopeErrors s value).append (Expr.Alike.scopeErrors s like)
  | _, _, .this pos => by
    rw [Expr.scopeErrors,Expr.scopeErrors]
    split
    · exact scopeError_alike _ _ pos
    · exact .nil
  | _, _, .super pos _ => by
    rw [Expr.scopeErrors,Expr.scopeErrors]
    split
    · exact scopeError_alike _ _ pos
    · exact scopeError_alike _ _ pos
    · exact .nil

theorem ArgumentsAlike.argumentErrors (s : Surroundings) : ∀ {ds es : List Expr},
    ArgumentsAlike P ds es → ErrorsAlike P (argumentErrors s ds) (argumentErrors s es)
  | _, _, .nil => .nil
  | _, _, .cons like likes =>
    (Expr.Alike.scopeErrors s like).append (ArgumentsAlike.argumentErrors s likes)

end

theorem Expr.Alike.optionErrors (s : Surroundings) {d e : Option Expr}
    (like : Option.Rel (Expr.Alike P) d e) :
    ErrorsAlike P (Expr.optionErrors s d) (Expr.optionErrors s e) := by
  cases like with
  | none => exact .nil
  | some like => exact like.scopeErrors s

mutual

theorem Stmt.Alike.scopeErrors (s : Surroundings) : ∀ {t u : Stmt}, Stmt.Alike P t u →
    ErrorsAlike P (t.scopeErrors s) (u.scopeErrors s)
  | _, _, .expression like => like.scopeErrors s
  | _, _, .print _ like => like.scopeErrors s
  | _, _, .var like value => by
    rw [Stmt.scopeErrors,Stmt.scopeErrors,like.text]
    exact (like.declarationErrors _).append (Expr.Alike.optionErrors _ value)
  | _, _, .block _ like => BodyAlike.blockErrors _ like
  | _, _, .branch _ like yes => (like.scopeErrors s).append (Stmt.Alike.scopeErrors s yes)
  | _, _, .branchElse _ like yes no =>
    ((like.scopeErrors s).append (Stmt.Alike.scopeErrors s yes)).append (Stmt.Alike.scopeErrors s no)
  | _, _, .loop _ like body increment =>
    ((like.scopeErrors s).append (Stmt.Alike.scopeErrors _ body)).append
      (Expr.Alike.optionErrors _ increment)
  | _, _, .jump pos => by
    rw [Stmt.scopeErrors,Stmt.scopeErrors]
    split
    · exact .nil
    · exact scopeError_alike _ _ pos
  | _, _, .function like => by
    rw [Stmt.scopeErrors,Stmt.scopeErrors,like.name.text]
    exact (like.name.declarationErrors _).append (RoutineAlike.scopeErrors _ like)
  | _, _, .leave pos value => by
    rw [Stmt.scopeErrors,Stmt.scopeErrors]
    refine ErrorsAlike.append ?_ (Expr.Alike.optionErrors s value)
    split
    · exact .nil
    · exact scopeError_alike _ _ pos
  | _, _, .klass (b := b) (c := c) like base methods => by
    have body : ∀ t : Surroundings, t.classBody b = t.classBody c := fun t => by
      cases base <;> rfl
    rw [Stmt.scopeErrors,Stmt.scopeErrors,like.text,body]
    exact ((like.declarationErrors _).append (superclassErrors_alike like base)).append
      (RoutinesAlike.methodErrors _ methods)

theorem BodyAlike.blockErrors (s : Surroundings) : ∀ {ts us : List Stmt}, BodyAlike P ts us →
    ErrorsAlike P (blockErrors s ts) (blockErrors s us)
  | _, _, .nil => .nil
  | _, _, .cons like likes => by
    rw [Lox.blockErrors,Lox.blockErrors,Surroundings.afterStmt,like.afterStmt]
    exact (Stmt.Alike.scopeErrors s like).append (BodyAlike.blockErrors _ likes)

theorem RoutineAlike.scopeErrors (s : Surroundings) : ∀ {r t : Routine}, RoutineAlike P r t →
    ErrorsAlike P (r.scopeErrors s) (t.scopeErrors s)
  | _, _, .mk _ params body => by
    rw [Routine.scopeErrors,Routine.scopeErrors,declareAll_alike _ params]
    exact (parameterErrors_alike _ params).append (BodyAlike.blockErrors _ body)

theorem RoutinesAlike.methodErrors (s : Surroundings) : ∀ {rs ts : List Routine},
    RoutinesAlike P rs ts → ErrorsAlike P (methodErrors s rs) (methodErrors s ts)
  | _, _, .nil => .nil
  | _, _, .cons like likes =>
    (RoutineAlike.scopeErrors s like).append (RoutinesAlike.methodErrors s likes)

end

/-! ## Programs -/

theorem afterStmt_nil (s : Stmt) : Scopes.afterStmt [] s = [] := by
  simp only [Scopes.afterStmt]
  split <;> rfl

theorem Program.resolve_append (p q : Program) : (p ++ q).resolve = p.resolve ++ q.resolve := by
  induction p with
  | nil => rfl
  | cons s p ih =>
    simp only [Program.resolve,List.cons_append,resolveAll,afterStmt_nil] at ih ⊢
    rw [ih]

theorem Program.scopeErrors_append (p q : Program) :
    (p ++ q).scopeErrors = p.scopeErrors ++ q.scopeErrors := by
  induction p with
  | nil => rfl
  | cons s p ih =>
    simp only [Program.scopeErrors,List.cons_append,blockErrors,Surroundings.afterStmt,
      afterStmt_nil,List.append_assoc] at ih ⊢
    rw [ih]

end Lox
