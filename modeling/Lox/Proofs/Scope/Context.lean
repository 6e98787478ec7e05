import Lox.Scope.Resolution
import Mathlib.Logic.Equiv.Basic

/-! # Contexts

The scopes that are open at a place of a resolved program, innermost first: the construct that opened
each one and the names that it holds so far. A piece of a program fits a context if its uses of
variables, of `this` and of `super` have the depths of scopes that hold the names.

The names of each scope may be spelled in another way. A program is respelled by spelling what a
scope declares and the uses that lead there alike.
-/
namespace Lox

/-- What a scope is opened for. The scope of `this` belongs to a method and that of `super` to the
declaration of a subclass. -/
inductive Origin
  | world
  | block (pos : Pos) (form : Form) (body : List Stmt)
  | routine (r : Routine)
  | receiver (method : Routine)
  | superclass (name : Name)

structure Layer where
  origin : Origin
  names : List String := []

abbrev Context := List Layer

namespace Context

def scopes (Γ : Context) : Scopes := Γ.map (·.names)

def origins (Γ : Context) : List Origin := Γ.map (·.origin)

def declare (Γ : Context) (name : String) : Context :=
  match Γ with
  | [] => []
  | layer :: outer => { layer with names := name :: layer.names } :: outer

def declareAll (Γ : Context) (names : List Name) : Context :=
  names.foldl (fun Γ n => Γ.declare n.text) Γ

def afterStmt (Γ : Context) (s : Stmt) : Context :=
  match s.declared? with
  | some name => Γ.declare name.text
  | none => Γ

/-- The context of the methods of a class, which depends on whether it has a superclass. -/
def ofClass {α : Type} (Γ : Context) (name : Name) (superclass : Option α) : Context :=
  match superclass with
  | some _ => ⟨.superclass name,["super"]⟩ :: Γ
  | none => Γ

def ofMethod (Γ : Context) (r : Routine) : Context := ⟨.receiver r,["this"]⟩ :: Γ

def ofRoutine (Γ : Context) (r : Routine) : Context := declareAll (⟨.routine r,[]⟩ :: Γ) r.params

/-- The scope at a depth holds a name. Global names have no depth. -/
def Binds (Γ : Context) (depth : Option Nat) (name : String) : Prop :=
  ∀ d ∈ depth, ∃ layer, Γ[d]? = some layer ∧ name ∈ layer.names

/-- There is a scope at a depth. -/
def Reaches (Γ : Context) (depth : Option Nat) : Prop := ∀ d ∈ depth, d < Γ.length

@[simp] theorem scopes_declare (Γ : Context) (name : String) :
    (Γ.declare name).scopes = Γ.scopes.declare name := by cases Γ <;> rfl

@[simp] theorem origins_declare (Γ : Context) (name : String) :
    (Γ.declare name).origins = Γ.origins := by cases Γ <;> rfl

@[simp] theorem scopes_declareAll (Γ : Context) (names : List Name) :
    (Γ.declareAll names).scopes = Γ.scopes.declareAll names := by
  induction names generalizing Γ with
  | nil => rfl
  | cons n names ih => exact (ih (Γ.declare n.text)).trans (by rw [scopes_declare]; rfl)

@[simp] theorem origins_declareAll (Γ : Context) (names : List Name) :
    (Γ.declareAll names).origins = Γ.origins := by
  induction names generalizing Γ with
  | nil => rfl
  | cons n names ih => exact (ih (Γ.declare n.text)).trans (origins_declare Γ n.text)

@[simp] theorem scopes_afterStmt (Γ : Context) (s : Stmt) :
    (Γ.afterStmt s).scopes = Γ.scopes.afterStmt s := by
  rw [afterStmt,Scopes.afterStmt]
  cases s.declared? with
  | none => rfl
  | some name => exact scopes_declare Γ name.text

@[simp] theorem origins_afterStmt (Γ : Context) (s : Stmt) :
    (Γ.afterStmt s).origins = Γ.origins := by
  rw [afterStmt]
  cases s.declared? with
  | none => rfl
  | some name => exact origins_declare Γ name.text

end Context

/-- The origins around the methods of a class. -/
def classOrigins {α : Type} (os : List Origin) (name : Name) (superclass : Option α) : List Origin :=
  match superclass with
  | some _ => .superclass name :: os
  | none => os

namespace Context

@[simp] theorem origins_ofClass {α : Type} (Γ : Context) (name : Name) (superclass : Option α) :
    (Γ.ofClass name superclass).origins = classOrigins Γ.origins name superclass := by
  cases superclass <;> rfl

@[simp] theorem origins_ofRoutine (Γ : Context) (r : Routine) :
    (Γ.ofRoutine r).origins = .routine r :: Γ.origins := origins_declareAll _ r.params

@[simp] theorem origins_ofMethod (Γ : Context) (r : Routine) :
    (Γ.ofMethod r).origins = .receiver r :: Γ.origins := rfl

@[simp] theorem origins_cons (layer : Layer) (Γ : Context) :
    origins (layer :: Γ) = layer.origin :: origins Γ := rfl

end Context

/-! ## Fitting programs -/

section
variable (use : Expr → Prop) (Γ : Context)

mutual

/-- The expression fits a context, and its uses of scopes are as is asked for. -/
def Expr.Fits : Expr → Prop
  | .literal _ _ => True
  | .grouping _ inner => inner.Fits
  | .var r => use (.var r) ∧ Γ.Binds r.depth r.name.text
  | .assign target value => use (.assign target value) ∧ Γ.Reaches target.depth ∧ value.Fits
  | .unary _ _ right => right.Fits
  | .binary left _ _ right | .logical left _ _ right => left.Fits ∧ right.Fits
  | .call callee _ args => callee.Fits ∧ ArgumentsFit args
  | .get object _ => object.Fits
  | .set object _ value => object.Fits ∧ value.Fits
  | .this pos depth => use (.this pos depth) ∧ ∃ d, depth = some d ∧ Γ.Binds (some d) "this"
  | .super pos method depth => use (.super pos method depth) ∧
      ∃ d, depth = some (d + 1) ∧ Γ.Binds (some (d + 1)) "super" ∧ Γ.Binds (some d) "this"
termination_by structural e => e

def ArgumentsFit : List Expr → Prop
  | [] => True
  | e :: es => e.Fits ∧ ArgumentsFit es
termination_by structural es => es

end

end

/-- How the names of each scope are spelled. -/
structure Spelling where
  inScope : Origin → Equiv.Perm String

namespace Spelling

/-- A name at a depth, for scopes of these origins. -/
def along (spell : Spelling) (os : List Origin) (depth : Option Nat) (name : String) : String :=
  match depth.bind fun d => os[d]? with
  | some o => spell.inScope o name
  | none => name

/-- A name that the innermost scope declares. -/
def own (spell : Spelling) (os : List Origin) (name : String) : String :=
  spell.along os (some 0) name

end Spelling

section
variable (spell : Spelling) (use : Context → Expr → Prop)

mutual

/-- The statement fits a context. A variable is not bound yet in its initializer, nor a class where
its superclass is read. Functions and classes keep their names, which are printed. -/
def Stmt.Fits (Γ : Context) : Stmt → Prop
  | .expression e | .print _ e => e.Fits (use Γ) Γ
  | .var _ init => ∀ e ∈ init, e.Fits (use Γ) Γ
  | .block pos form body => BodyFits (⟨.block pos form body,[]⟩ :: Γ) body
  | .branch _ condition yes none => condition.Fits (use Γ) Γ ∧ yes.Fits Γ
  | .branch _ condition yes (some no) => condition.Fits (use Γ) Γ ∧ yes.Fits Γ ∧ no.Fits Γ
  | .loop _ _ condition body increment =>
    condition.Fits (use Γ) Γ ∧ body.Fits Γ ∧ ∀ e ∈ increment, e.Fits (use Γ) Γ
  | .jump _ _ => True
  | .function r =>
    spell.own Γ.origins r.name.text = r.name.text ∧
      r.Fits ((Γ.declare r.name.text).ofRoutine r)
  | .leave _ value => ∀ e ∈ value, e.Fits (use Γ) Γ
  | .klass name superclass methods =>
    spell.own Γ.origins name.text = name.text ∧
      (∀ r ∈ superclass, (Expr.var r).Fits (use Γ) Γ) ∧
      MethodsFit ((Γ.declare name.text).ofClass name superclass) methods
termination_by structural s => s

/-- The body of a routine fits a context that holds its parameters. -/
def Routine.Fits (Γ : Context) : Routine → Prop
  | ⟨_,_,body⟩ => BodyFits Γ body
termination_by structural r => r

def BodyFits (Γ : Context) : List Stmt → Prop
  | [] => True
  | s :: rest => s.Fits Γ ∧ BodyFits (Γ.afterStmt s) rest
termination_by structural ss => ss

def MethodsFit (Γ : Context) : List Routine → Prop
  | [] => True
  | r :: rest => r.Fits ((Γ.ofMethod r).ofRoutine r) ∧ MethodsFit Γ rest
termination_by structural rs => rs

end

end

/-! ## Respelling -/

section
variable (spell : Spelling)

def Reference.respell (os : List Origin) (r : Reference) : Reference :=
  { r with name.text := spell.along os r.depth r.name.text }

mutual

def Expr.respell (os : List Origin) : Expr → Expr
  | .literal value pos => .literal value pos
  | .grouping paren inner => .grouping paren (inner.respell os)
  | .var r => .var (r.respell spell os)
  | .assign target value => .assign (target.respell spell os) (value.respell os)
  | .unary op pos right => .unary op pos (right.respell os)
  | .binary left op pos right => .binary (left.respell os) op pos (right.respell os)
  | .logical left op pos right => .logical (left.respell os) op pos (right.respell os)
  | .call callee paren args => .call (callee.respell os) paren (respellArguments os args)
  | .get object name => .get (object.respell os) name
  | .set object name value => .set (object.respell os) name (value.respell os)
  | .this pos depth => .this pos depth
  | .super pos method depth => .super pos method depth
termination_by structural e => e

def respellArguments (os : List Origin) : List Expr → List Expr
  | [] => []
  | e :: es => e.respell os :: respellArguments os es
termination_by structural es => es

end

mutual

def Stmt.respell (os : List Origin) : Stmt → Stmt
  | .expression e => .expression (e.respell spell os)
  | .print pos e => .print pos (e.respell spell os)
  | .var name init =>
    .var { name with text := spell.own os name.text } (init.map (·.respell spell os))
  | .block pos form body => .block pos form (respellAll (.block pos form body :: os) body)
  | .branch pos condition yes none =>
    .branch pos (condition.respell spell os) (yes.respell os) none
  | .branch pos condition yes (some no) =>
    .branch pos (condition.respell spell os) (yes.respell os) (some (no.respell os))
  | .loop pos form condition body increment =>
    .loop pos form (condition.respell spell os) (body.respell os)
      (increment.map (·.respell spell os))
  | .jump pos jump => .jump pos jump
  | .function r => .function (r.respell (.routine r :: os))
  | .leave pos value => .leave pos (value.map (·.respell spell os))
  | .klass name superclass methods =>
    .klass name (superclass.map (·.respell spell os))
      (respellMethods (classOrigins os name superclass) methods)
termination_by structural s => s

/-- The origins are those in the routine, its own one first. -/
def Routine.respell (os : List Origin) : Routine → Routine
  | ⟨name,params,body⟩ =>
    ⟨name,params.map fun p => { p with text := spell.own os p.text },respellAll os body⟩
termination_by structural r => r

def respellAll (os : List Origin) : List Stmt → List Stmt
  | [] => []
  | s :: rest => s.respell os :: respellAll os rest
termination_by structural ss => ss

def respellMethods (os : List Origin) : List Routine → List Routine
  | [] => []
  | r :: rest => r.respell (.routine r :: .receiver r :: os) :: respellMethods os rest
termination_by structural rs => rs

end

end

/-! ## The plain spelling -/

namespace Spelling

/-- Names as they are. -/
def asWritten : Spelling := ⟨fun _ => Equiv.refl String⟩

@[simp] theorem along_asWritten (os : List Origin) (depth : Option Nat) (name : String) :
    asWritten.along os depth name = name := by
  rw [along]
  split <;> rfl

@[simp] theorem own_asWritten (os : List Origin) (name : String) : asWritten.own os name = name :=
  along_asWritten os (some 0) name

end Spelling

@[simp] theorem Reference.respell_asWritten (os : List Origin) (r : Reference) :
    r.respell .asWritten os = r := by
  simp only [Reference.respell,Spelling.along_asWritten]

mutual

@[simp] theorem Expr.respell_asWritten (os : List Origin) : (e : Expr) → e.respell .asWritten os = e
  | .literal _ _ => rfl
  | .grouping _ e | .unary _ _ e | .get e _ => by simp only [Expr.respell,Expr.respell_asWritten os e]
  | .var r => by simp only [Expr.respell,Reference.respell_asWritten]
  | .assign r e => by
    simp only [Expr.respell,Reference.respell_asWritten,Expr.respell_asWritten os e]
  | .binary d _ _ e | .logical d _ _ e | .set d _ e => by
    simp only [Expr.respell,Expr.respell_asWritten os d,Expr.respell_asWritten os e]
  | .call e _ es => by
    simp only [Expr.respell,Expr.respell_asWritten os e,respellArguments_asWritten os es]
  | .this _ _ | .super _ _ _ => rfl

@[simp] theorem respellArguments_asWritten (os : List Origin) :
    (es : List Expr) → respellArguments .asWritten os es = es
  | [] => rfl
  | e :: es => by
    simp only [respellArguments,Expr.respell_asWritten os e,respellArguments_asWritten os es]

end

mutual

@[simp] theorem Stmt.respell_asWritten (os : List Origin) : (s : Stmt) → s.respell .asWritten os = s
  | .expression _ | .print _ _ | .var _ _ | .leave _ _ => by simp [Stmt.respell]
  | .block _ _ body => by simp only [Stmt.respell,respellAll_asWritten _ body]
  | .branch _ _ yes none => by
    simp only [Stmt.respell,Expr.respell_asWritten,Stmt.respell_asWritten os yes]
  | .branch _ _ yes (some no) => by
    simp only [Stmt.respell,Expr.respell_asWritten,Stmt.respell_asWritten os yes,
      Stmt.respell_asWritten os no]
  | .loop _ _ _ body _ => by simp [Stmt.respell,Stmt.respell_asWritten os body]
  | .jump _ _ => rfl
  | .function r => by simp only [Stmt.respell,Routine.respell_asWritten _ r]
  | .klass _ _ rs => by simp [Stmt.respell,respellMethods_asWritten _ rs]

@[simp] theorem Routine.respell_asWritten (os : List Origin) :
    (r : Routine) → r.respell .asWritten os = r
  | ⟨_,_,body⟩ => by simp [Routine.respell,respellAll_asWritten os body]

@[simp] theorem respellAll_asWritten (os : List Origin) :
    (ss : List Stmt) → respellAll .asWritten os ss = ss
  | [] => rfl
  | s :: ss => by
    simp only [respellAll,Stmt.respell_asWritten os s,respellAll_asWritten os ss]

@[simp] theorem respellMethods_asWritten (os : List Origin) :
    (rs : List Routine) → respellMethods .asWritten os rs = rs
  | [] => rfl
  | r :: rs => by
    simp only [respellMethods,Routine.respell_asWritten _ r,respellMethods_asWritten os rs]

end

end Lox
