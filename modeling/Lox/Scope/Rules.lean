import Lox.Scope.Resolution

/-! # Rules of scope

The errors of a program that breaks a rule of scope, in the order of a walk over it in which an
assigned property's value comes before its object. The walk carries the open scopes and what
surrounds the place it has reached.
-/
namespace Lox

inductive ClassContext
  | none
  | plain
  | derived
deriving DecidableEq, Repr

/-- What surrounds a place in a program. -/
structure Surroundings where
  scopes : Scopes := []
  inRoutine : Bool := false
  inLoop : Bool := false
  klass : ClassContext := .none
  /-- The local variable whose initializer this is. -/
  initializing : Option String := none

namespace Surroundings

def declare (s : Surroundings) (name : String) : Surroundings :=
  { s with scopes := s.scopes.declare name }

def afterStmt (s : Surroundings) (stmt : Stmt) : Surroundings :=
  { s with scopes := s.scopes.afterStmt stmt }

def openScope (s : Surroundings) : Surroundings := { s with scopes := [] :: s.scopes }

/-- Inside the initializer of a variable. -/
def initializer (s : Surroundings) (name : String) : Surroundings :=
  { s with
    scopes := s.scopes.declare name
    initializing := if s.scopes.isEmpty then none else some name }

def routine (s : Surroundings) : Surroundings :=
  { s with scopes := [] :: s.scopes, inRoutine := true, inLoop := false }

def classBody (s : Surroundings) (superclass : Option Reference) : Surroundings :=
  { s with
    scopes := s.scopes.ofClass superclass
    klass := if superclass.isSome then .derived else .plain }

end Surroundings

def scopeError (e : ScopeError) (pos : Pos) (lexeme : String) : List Diagnostic :=
  [⟨.scope e,pos,.token lexeme⟩]

/-- A name may be declared once in a scope that is not global. -/
def declarationErrors (scopes : Scopes) (name : Name) : List Diagnostic :=
  match scopes with
  | [] => []
  | scope :: _ =>
    if scope.contains name.text then scopeError .alreadyDeclared name.pos name.text else []

def parameterErrors (scopes : Scopes) : List Name → List Diagnostic
  | [] => []
  | p :: ps => declarationErrors scopes p ++ parameterErrors (scopes.declare p.text) ps

mutual

def Expr.scopeErrors (s : Surroundings) : Expr → List Diagnostic
  | .literal _ _ => []
  | .grouping _ inner => inner.scopeErrors s
  | .var r =>
    if s.initializing = some r.name.text then scopeError .ownInitializer r.name.pos r.name.text
    else []
  | .assign _ value => value.scopeErrors s
  | .unary _ _ right => right.scopeErrors s
  | .binary left _ _ right | .logical left _ _ right => left.scopeErrors s ++ right.scopeErrors s
  | .call callee _ args => callee.scopeErrors s ++ argumentErrors s args
  | .get object _ => object.scopeErrors s
  | .set object _ value => value.scopeErrors s ++ object.scopeErrors s
  | .this pos _ =>
    match s.klass with
    | .none => scopeError .thisOutsideClass pos "this"
    | _ => []
  | .super pos _ _ =>
    match s.klass with
    | .none => scopeError .superOutsideClass pos "super"
    | .plain => scopeError .superWithoutSuperclass pos "super"
    | .derived => []
termination_by structural e => e

def argumentErrors (s : Surroundings) : List Expr → List Diagnostic
  | [] => []
  | e :: es => e.scopeErrors s ++ argumentErrors s es
termination_by structural es => es

end

def Expr.optionErrors (s : Surroundings) : Option Expr → List Diagnostic
  | none => []
  | some e => e.scopeErrors s

def superclassErrors (name : Name) : Option Reference → List Diagnostic
  | some r =>
    if r.name.text = name.text then scopeError .ownSuperclass r.name.pos r.name.text else []
  | none => []

mutual

def Stmt.scopeErrors (s : Surroundings) : Stmt → List Diagnostic
  | .expression e => e.scopeErrors s
  | .print _ e => e.scopeErrors s
  | .var name init =>
    declarationErrors s.scopes name ++ Expr.optionErrors (s.initializer name.text) init
  | .block _ _ body => blockErrors s.openScope body
  | .branch _ condition yes none => condition.scopeErrors s ++ yes.scopeErrors s
  | .branch _ condition yes (some no) =>
    condition.scopeErrors s ++ yes.scopeErrors s ++ no.scopeErrors s
  | .loop _ _ condition body increment =>
    condition.scopeErrors s ++ body.scopeErrors { s with inLoop := true } ++
      Expr.optionErrors { s with inLoop := true } increment
  | .jump pos j => if s.inLoop then [] else scopeError (.jumpOutsideLoop j) pos j.word
  | .function r =>
    declarationErrors s.scopes r.name ++ r.scopeErrors (s.declare r.name.text)
  | .leave pos value =>
    (if s.inRoutine then [] else scopeError .topLevelReturn pos "return") ++
      Expr.optionErrors s value
  | .klass name superclass methods =>
    declarationErrors s.scopes name ++ superclassErrors name superclass ++
      methodErrors ((s.declare name.text).classBody superclass) methods
termination_by structural s => s

def Routine.scopeErrors (s : Surroundings) : Routine → List Diagnostic
  | ⟨_,params,body⟩ =>
    parameterErrors s.routine.scopes params ++
      blockErrors { s.routine with scopes := s.routine.scopes.declareAll params } body
termination_by structural r => r

def blockErrors (s : Surroundings) : List Stmt → List Diagnostic
  | [] => []
  | stmt :: rest => stmt.scopeErrors s ++ blockErrors (s.afterStmt stmt) rest
termination_by structural ss => ss

def methodErrors (s : Surroundings) : List Routine → List Diagnostic
  | [] => []
  | r :: rest => r.scopeErrors s ++ methodErrors s rest
termination_by structural rs => rs

end

def Program.scopeErrors (p : Program) : List Diagnostic := blockErrors {} p

end Lox
