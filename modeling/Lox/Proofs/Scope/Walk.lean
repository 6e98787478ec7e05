import Lox.Proofs.Ast.Built
import Lox.Proofs.Scope.Violations
import Lox.Proofs.Session.Blame

/-! # One walk over a program

The rules of scope can be checked in one walk that keeps what surrounds it in fields. Routines, classes and
loops change the fields and put back what they found, and every scope that is opened is closed. The walk
reports the errors of the program in order, and behind it the fields are as they were at the start.
-/
namespace Lox

/-- A walk that checks the rules of scope. -/
structure Walker where
  /-- The open scopes, innermost first. A name is not ready before its initializer has been visited. -/
  scopes : List (Bindings Bool) := []
  errors : List Diagnostic := []
  routine : Option RoutineKind := none
  klass : ClassContext := .none
  loopDepth : Nat := 0

namespace Walker

def report (w : Walker) (e : ScopeError) (token : Name) : Walker :=
  { w with errors := w.errors ++ scopeError e token.pos token.text }

def beginScope (w : Walker) : Walker := { w with scopes := {} :: w.scopes }

def endScope (w : Walker) : Walker := { w with scopes := w.scopes.tail }

/-- Puts a name in the innermost scope. Global names are in none. -/
def put (scopes : List (Bindings Bool)) (name : String) (ready : Bool) : List (Bindings Bool) :=
  match scopes with
  | [] => []
  | scope :: outer => scope.set name ready :: outer

/-- Whether the innermost scope has a name. -/
def holds (scopes : List (Bindings Bool)) (name : String) : Bool :=
  match scopes with
  | [] => false
  | scope :: _ => scope.contains name

/-- Whether a name of the innermost scope stands in its own initializer. -/
def awaits (scopes : List (Bindings Bool)) (name : String) : Bool :=
  match scopes with
  | [] => false
  | scope :: _ => scope.get? name == some false

def declare (w : Walker) (name : Name) : Walker :=
  let w := if holds w.scopes name.text then w.report .alreadyDeclared name else w
  { w with scopes := put w.scopes name.text false }

def define (w : Walker) (name : Name) : Walker := { w with scopes := put w.scopes name.text true }

end Walker

mutual

def Expr.walk (w : Walker) : Expr → Walker
  | .literal _ _ => w
  | .grouping _ e | .assign _ e | .unary _ _ e | .get e _ => e.walk w
  | .var r => if Walker.awaits w.scopes r.name.text then w.report .ownInitializer r.name else w
  | .binary left _ _ right | .logical left _ _ right => right.walk (left.walk w)
  | .call callee _ args => walkArguments (callee.walk w) args
  | .set object _ value => object.walk (value.walk w)
  | .this pos _ =>
    match w.klass with
    | .none => w.report .thisOutsideClass ⟨"this",pos⟩
    | _ => w
  | .super pos _ _ =>
    match w.klass with
    | .none => w.report .superOutsideClass ⟨"super",pos⟩
    | .plain => w.report .superWithoutSuperclass ⟨"super",pos⟩
    | .derived => w
termination_by structural e => e

def walkArguments (w : Walker) : List Expr → Walker
  | [] => w
  | e :: es => walkArguments (e.walk w) es
termination_by structural es => es

end

def Expr.walkOption (w : Walker) : Option Expr → Walker
  | none => w
  | some e => e.walk w

namespace Walker

def enterLoop (w : Walker) : Walker := { w with loopDepth := w.loopDepth + 1 }

def leaveLoop (w : Walker) : Walker := { w with loopDepth := w.loopDepth - 1 }

/-- Parameters are declared one by one. -/
def parameters (w : Walker) (params : List Name) : Walker :=
  params.foldl (fun w p => (w.declare p).define p) w

/-- Opens the scope of a function or method, which is out of all loops. -/
def enter (w : Walker) (kind : RoutineKind) : Walker :=
  { w with routine := some kind,loopDepth := 0 }.beginScope

def inClass (w : Walker) (klass : ClassContext) : Walker := { w with klass }

/-- Opens a scope that holds one name. -/
def beginScopeOf (w : Walker) (name : String) : Walker :=
  { w.beginScope with scopes := put w.beginScope.scopes name true }

/-- Visits the superclass of a class and opens the scope that holds `super`. -/
def superclass (w : Walker) (name : Name) : Option Reference → Walker
  | none => w
  | some r =>
    let w := if r.name.text = name.text then w.report .ownSuperclass r.name else w
    ((Expr.var r).walk (w.inClass .derived)).beginScopeOf "super"

/-- Closes the scopes around the methods of a class. -/
def endClass (w : Walker) (superclass : Option Reference) : Walker :=
  if superclass.isSome then w.endScope.endScope else w.endScope

end Walker

mutual

def Stmt.walk (w : Walker) : Stmt → Walker
  | .expression e | .print _ e => e.walk w
  | .var name init => (Expr.walkOption (w.declare name) init).define name
  | .block _ _ body => (walkAll w.beginScope body).endScope
  | .branch _ condition yes none => yes.walk (condition.walk w)
  | .branch _ condition yes (some no) => no.walk (yes.walk (condition.walk w))
  | .loop _ _ condition body increment =>
    (Expr.walkOption (body.walk (condition.walk w).enterLoop) increment).leaveLoop
  | .jump pos j => if w.loopDepth = 0 then w.report (.jumpOutsideLoop j) ⟨j.word,pos⟩ else w
  | .function r => r.walk ((w.declare r.name).define r.name) .function
  | .leave pos value =>
    Expr.walkOption (if w.routine.isNone then w.report .topLevelReturn ⟨"return",pos⟩ else w) value
  | .klass name superclass methods =>
    let named := ((w.inClass .plain).declare name).define name
    let inside := (named.superclass name superclass).beginScopeOf "this"
    ((walkMethods inside methods).endClass superclass).inClass w.klass
termination_by structural s => s

def Routine.walk (w : Walker) (kind : RoutineKind) : Routine → Walker
  | ⟨_,params,body⟩ =>
    { (walkAll ((w.enter kind).parameters params) body).endScope with
      routine := w.routine
      loopDepth := w.loopDepth }
termination_by structural r => r

def walkAll (w : Walker) : List Stmt → Walker
  | [] => w
  | s :: rest => walkAll (s.walk w) rest
termination_by structural ss => ss

def walkMethods (w : Walker) : List Routine → Walker
  | [] => w
  | r :: rest => walkMethods (r.walk w .method) rest
termination_by structural rs => rs

end

def Program.walk (p : Program) : Walker := walkAll {} p

/-! ## What the fields stand for -/

namespace Walker
variable {w : Walker} {s : Surroundings}

/-- The open scopes hold the names that are declared so far. -/
abbrev Agree (scopes : List (Bindings Bool)) (names : Scopes) : Prop :=
  List.Forall₂ (fun (scope : Bindings Bool) (names : List String) => ∀ text, scope.contains text ↔ text ∈ names)
    scopes names

/-- The fields are those of the surroundings that a walk has got to. -/
structure Fits (w : Walker) (s : Surroundings) : Prop where
  scopes : Agree w.scopes s.scopes
  waits : ∀ text, awaits w.scopes text ↔ s.initializing = some text
  routine : w.routine.isSome = s.inRoutine
  loops : w.loopDepth ≠ 0 ↔ s.inLoop
  klass : w.klass = s.klass

/-- Errors that are added change nothing else. -/
def adding (w : Walker) (more : List Diagnostic) : Walker := { w with errors := w.errors ++ more }

/-- The same walk in other scopes. -/
def within (w : Walker) (scopes : List (Bindings Bool)) : Walker := { w with scopes }

theorem adding_nil (w : Walker) : w.adding [] = w := by simp [adding]

theorem adding_adding (w : Walker) (first second : List Diagnostic) :
    (w.adding first).adding second = w.adding (first ++ second) := by simp [adding]

section
variable (w : Walker) (scopes other : List (Bindings Bool)) (more : List Diagnostic)

@[simp] theorem scopes_within : (w.within scopes).scopes = scopes := rfl

@[simp] theorem scopes_adding : (w.adding more).scopes = w.scopes := rfl

@[simp] theorem within_within : (w.within scopes).within other = w.within other := rfl

@[simp] theorem adding_within : (w.within scopes).adding more = (w.adding more).within scopes := rfl

@[simp] theorem define_within (name : Name) :
    (w.within scopes).define name = w.within (put scopes name.text true) := rfl

theorem leaveLoop_adding : (w.enterLoop.adding more).leaveLoop = w.adding more := rfl

@[simp] theorem endScope_within : (w.within scopes).endScope = w.within scopes.tail := rfl

end

theorem Fits.adding (fits : w.Fits s) (more : List Diagnostic) : (w.adding more).Fits s :=
  ⟨fits.scopes,fits.waits,fits.routine,fits.loops,fits.klass⟩

end Walker

section
variable {w : Walker} {s : Surroundings}

mutual

/-- A walk over an expression adds its errors. -/
theorem Expr.walk_eq {w : Walker} {s : Surroundings} (fits : w.Fits s) : (e : Expr) →
    e.walk w = w.adding (e.scopeErrors s)
  | .literal _ _ => w.adding_nil.symm
  | .grouping _ e | .assign _ e | .unary _ _ e | .get e _ => e.walk_eq fits
  | .var r => by
    simp only [Expr.walk,Expr.scopeErrors,fits.waits]
    split
    · rfl
    · exact w.adding_nil.symm
  | .binary left _ _ right | .logical left _ _ right => by
    rw [Expr.walk,left.walk_eq fits,right.walk_eq (fits.adding _),w.adding_adding]
    rfl
  | .call callee _ args => by
    rw [Expr.walk,callee.walk_eq fits,walkArguments_eq (fits.adding _) args,w.adding_adding]
    rfl
  | .set object _ value => by
    rw [Expr.walk,value.walk_eq fits,object.walk_eq (fits.adding _),w.adding_adding]
    rfl
  | .this pos _ => by
    simp only [Expr.walk,Expr.scopeErrors,fits.klass]
    cases s.klass with
    | none => rfl
    | _ => exact w.adding_nil.symm
  | .super pos _ _ => by
    simp only [Expr.walk,Expr.scopeErrors,fits.klass]
    cases s.klass with
    | derived => exact w.adding_nil.symm
    | _ => rfl

theorem walkArguments_eq {w : Walker} {s : Surroundings} (fits : w.Fits s) : (es : List Expr) →
    walkArguments w es = w.adding (argumentErrors s es)
  | [] => w.adding_nil.symm
  | e :: es => by
    rw [walkArguments,e.walk_eq fits,walkArguments_eq (fits.adding _) es,w.adding_adding]
    rfl

end

theorem Expr.walkOption_eq (fits : w.Fits s) (e : Option Expr) :
    Expr.walkOption w e = w.adding (Expr.optionErrors s e) := by
  cases e with
  | none => exact w.adding_nil.symm
  | some e => exact e.walk_eq fits

end

namespace Walker
variable {w : Walker} {s : Surroundings}

/-! ## Scopes -/

/-- The scopes behind a declared name. -/
def settled (scopes : List (Bindings Bool)) (name : Name) : List (Bindings Bool) :=
  put (put scopes name.text false) name.text true

/-- The scopes behind a statement. -/
def behind (scopes : List (Bindings Bool)) (t : Stmt) : List (Bindings Bool) :=
  match t.declared? with
  | some name => settled scopes name
  | none => scopes

/-- A walk that has added the errors of a statement. -/
def past (w : Walker) (t : Stmt) (more : List Diagnostic) : Walker :=
  (w.adding more).within (behind w.scopes t)

theorem past_of_part {t : Stmt} (part : t.declared? = none) (w : Walker) (more : List Diagnostic) :
    w.past t more = w.adding more := by
  simp only [past,behind,part]
  rfl

theorem tail_put (scopes : List (Bindings Bool)) (name : String) (ready : Bool) :
    (put scopes name ready).tail = scopes.tail := by
  cases scopes <;> rfl

theorem tail_settled (scopes : List (Bindings Bool)) (name : Name) :
    (settled scopes name).tail = scopes.tail := by rw [settled,tail_put,tail_put]

theorem tail_behind (scopes : List (Bindings Bool)) (t : Stmt) : (behind scopes t).tail = scopes.tail := by
  unfold behind
  split
  · exact tail_settled scopes _
  · rfl

theorem tail_foldl_behind (scopes : List (Bindings Bool)) (ss : List Stmt) :
    (ss.foldl behind scopes).tail = scopes.tail := by
  induction ss generalizing scopes with
  | nil => rfl
  | cons t rest ih => rw [List.foldl_cons,ih,tail_behind]

theorem tail_foldl_settled (scopes : List (Bindings Bool)) (names : List Name) :
    (names.foldl settled scopes).tail = scopes.tail := by
  induction names generalizing scopes with
  | nil => rfl
  | cons name rest ih => rw [List.foldl_cons,ih,tail_settled]

theorem contains_set (b : Bindings Bool) (name text : String) (ready : Bool) :
    (b.set name ready).contains text ↔ text = name ∨ b.contains text := by
  simp only [Bindings.contains,Bindings.get?_set]
  split
  · next same => simp [same]
  · next other => simp [Ne.symm other]

theorem Agree.put {scopes : List (Bindings Bool)} {names : Scopes} (same : Agree scopes names)
    (name : String) (ready : Bool) : Agree (put scopes name ready) (names.declare name) := by
  cases same with
  | nil => exact .nil
  | cons here outer =>
    refine .cons (fun text => ?_) outer
    rw [contains_set,here,List.mem_cons]

theorem Agree.settled {scopes : List (Bindings Bool)} {names : Scopes} (same : Agree scopes names)
    (name : Name) : Agree (settled scopes name) (names.declare name.text) := by
  cases same with
  | nil => exact .nil
  | cons here outer =>
    refine .cons (fun text => ?_) outer
    rw [contains_set,contains_set,here,List.mem_cons,or_self_left]

/-- The names of the innermost scope that are not ready. -/
theorem awaits_put (scopes : List (Bindings Bool)) (name text : String) (ready : Bool) :
    awaits (put scopes name ready) text ↔
      if text = name then scopes ≠ [] ∧ ready = false else awaits scopes text := by
  cases scopes with
  | nil => simp [awaits,put]
  | cons scope outer =>
    simp only [awaits,put,Bindings.get?_set]
    by_cases same : name = text
    · simp [same]
    · simp [same,Ne.symm same]

theorem awaits_settled {scopes : List (Bindings Bool)} (quiet : ∀ text, awaits scopes text = false)
    (name : Name) (text : String) : awaits (settled scopes name) text = false := by
  rw [← Bool.not_eq_true,settled,awaits_put]
  split
  · simp
  · next other =>
    rw [awaits_put,if_neg other,quiet]
    exact Bool.false_ne_true

namespace Fits

/-- What is reported about a declaration. -/
theorem declare_eq (fits : w.Fits s) (name : Name) : w.declare name =
    (w.adding (declarationErrors s.scopes name)).within (put w.scopes name.text false) := by
  have reported : declarationErrors s.scopes name =
      if holds w.scopes name.text then scopeError .alreadyDeclared name.pos name.text else [] := by
    have same := fits.scopes
    generalize w.scopes = scopes,s.scopes = names at same ⊢
    cases same with
    | nil => rfl
    | cons here outer => simp only [declarationErrors,holds,List.contains_iff_mem,here]
  rw [reported,Walker.declare]
  split
  · rfl
  · rw [w.adding_nil,within]

/-- Outside of initializers no name is waited for. -/
theorem ready (fits : w.Fits s) (quiet : s.initializing = none) (text : String) :
    awaits w.scopes text = false := by
  rw [← Bool.not_eq_true,fits.waits,quiet]
  exact Option.some_ne_none _ ∘ Eq.symm

/-- Other scopes in which all names are ready. -/
theorem inside (fits : w.Fits s) {scopes : List (Bindings Bool)} {names : Scopes}
    (same : Agree scopes names) (ready : ∀ text, awaits scopes text = false) (quiet : s.initializing = none) :
    (w.within scopes).Fits { s with scopes := names } where
  scopes := same
  waits text := by
    rw [scopes_within,quiet,ready]
    simp
  routine := fits.routine
  loops := fits.loops
  klass := fits.klass

section
variable (fits : w.Fits s) (quiet : s.initializing = none)
include fits quiet

/-- A variable waits for its initializer unless it is global. -/
theorem initializer (name : Name) :
    (w.within (put w.scopes name.text false)).Fits (s.initializer name.text) where
  scopes := fits.scopes.put name.text false
  waits text := by
    have global : s.scopes.isEmpty ↔ w.scopes = [] := by
      rw [List.isEmpty_iff_length_eq_zero,← fits.scopes.length_eq,List.length_eq_zero_iff]
    refine (awaits_put w.scopes name.text text false).trans ?_
    rw [fits.ready quiet]
    by_cases empty : w.scopes = []
    · simp [Surroundings.initializer,global.mpr empty,empty]
    · simp [Surroundings.initializer,mt global.mp empty,empty,eq_comm]
  routine := fits.routine
  loops := fits.loops
  klass := fits.klass

/-- Behind a declaration its name is ready. -/
theorem declare (name : Name) : (w.within (Walker.settled w.scopes name)).Fits (s.declare name.text) := by
  refine fits.inside (fits.scopes.settled name) (awaits_settled (fits.ready quiet) name) quiet

theorem afterStmt (t : Stmt) : (w.within (behind w.scopes t)).Fits (s.afterStmt t) := by
  unfold behind Surroundings.afterStmt Scopes.afterStmt
  cases t.declared? with
  | some name => exact fits.declare quiet name
  | none => exact fits

theorem openScope : w.beginScope.Fits s.openScope :=
  fits.inside (.cons (fun _ => by simp [Bindings.contains,Bindings.get?,Bindings.find]) fits.scopes) (fun _ => rfl) quiet

theorem enter (kind : RoutineKind) : (w.enter kind).Fits s.routine :=
  have opened := fits.openScope quiet
  ⟨opened.scopes,opened.waits,rfl,by simp [Walker.enter,beginScope,Surroundings.routine],opened.klass⟩

omit quiet in
theorem enterLoop : w.enterLoop.Fits { s with inLoop := true } :=
  ⟨fits.scopes,fits.waits,fits.routine,⟨fun _ => rfl,fun _ => Nat.succ_ne_zero _⟩,fits.klass⟩

omit quiet in
/-- A name that is declared and needs no initializer. -/
theorem define_eq (name : Name) : (w.declare name).define name =
    (w.adding (declarationErrors s.scopes name)).within (Walker.settled w.scopes name) := by
  rw [fits.declare_eq]
  rfl

omit quiet in
theorem inClass (klass : ClassContext) : (w.inClass klass).Fits { s with klass } :=
  ⟨fits.scopes,fits.waits,fits.routine,fits.loops,rfl⟩

/-- In a scope of one name. -/
theorem beginScopeOf (name : String) : (w.beginScopeOf name).Fits { s with scopes := [name] :: s.scopes } := by
  have ready : ∀ text, awaits (put w.beginScope.scopes name true) text = false := by
    intro text
    rw [← Bool.not_eq_true,beginScope,awaits_put]
    split
    · simp
    · exact Bool.false_ne_true
  refine fits.inside (.cons (fun text => ?_) fits.scopes) ready quiet
  rw [contains_set,List.mem_singleton]
  exact or_iff_left Bool.false_ne_true

/-- What is reported about the superclass of a class, and in what scopes its methods are visited. -/
theorem superclass_eq (plain : s.klass = .plain) (name : Name) (superclass : Option Reference) :
    ∃ inside : Walker, inside.Fits (s.classBody superclass) ∧
      (w.superclass name superclass).beginScopeOf "this" = inside.adding (superclassErrors name superclass) ∧
      ∀ more klass, ((inside.adding more).endClass superclass).inClass klass =
        (w.adding more).inClass klass := by
  cases superclass with
  | none =>
    refine ⟨w.beginScopeOf "this",?_,(adding_nil _).symm,fun _ _ => rfl⟩
    have opened := fits.beginScopeOf quiet "this"
    simp only [Surroundings.classBody,Scopes.ofClass]
    rw [Option.isSome_none,if_neg Bool.false_ne_true,← plain]
    exact opened
  | some r =>
    have visited := (fits.adding (superclassErrors name (some r))).inClass .derived
    refine ⟨((w.inClass .derived).beginScopeOf "super").beginScopeOf "this",?_,?_,fun _ _ => rfl⟩
    · exact ((fits.inClass .derived).beginScopeOf quiet "super").beginScopeOf quiet "this"
    · have reported : (if r.name.text = name.text then w.report .ownSuperclass r.name else w) =
          w.adding (superclassErrors name (some r)) := by
        simp only [superclassErrors]
        split
        · rfl
        · exact w.adding_nil.symm
      have silent : (Expr.var r).walk ((w.adding (superclassErrors name (some r))).inClass .derived) =
          (w.adding (superclassErrors name (some r))).inClass .derived := by
        rw [(Expr.var r).walk_eq visited,Expr.scopeErrors,if_neg (by simp [quiet])]
        exact adding_nil _
      rw [superclass,reported,silent]
      rfl

/-- Parameters are declared in the scope of the body. -/
theorem parameters_fit (params : List Name) :
    (w.within (params.foldl Walker.settled w.scopes)).Fits
      { s with scopes := s.scopes.declareAll params } := by
  induction params generalizing w s with
  | nil => exact fits
  | cons p ps ih => exact ih (fits.declare quiet p) quiet

theorem parameters_eq (params : List Name) : w.parameters params =
    (w.adding (parameterErrors s.scopes params)).within (params.foldl Walker.settled w.scopes) := by
  induction params generalizing w s with
  | nil => exact w.adding_nil.symm
  | cons p ps ih =>
    have first := fits.define_eq p
    have rest := ih ((fits.declare quiet p).adding (declarationErrors s.scopes p)) quiet
    rw [Walker.parameters,List.foldl_cons,first]
    refine rest.trans ?_
    simp only [parameterErrors,Walker.adding,List.append_assoc,List.foldl_cons]
    rfl

end
end Fits
end Walker

variable {T : Token → Prop}

mutual

/-- A walk over a statement adds its errors and leaves its declaration in the innermost scope. -/
theorem Stmt.walk_eq {w : Walker} {s : Surroundings} (fits : w.Fits s) (quiet : s.initializing = none) :
    (t : Stmt) → t.Built T → t.walk w = w.past t (t.scopeErrors s)
  | .expression e, _ | .print _ e, _ => e.walk_eq fits
  | .var name init, _ => by
    have inside := (fits.initializer quiet name).adding (declarationErrors s.scopes name)
    rw [Stmt.walk,fits.declare_eq]
    have visited := Expr.walkOption_eq inside init
    rw [Walker.adding_within] at visited
    rw [visited,Walker.adding_within,Walker.adding_adding,Walker.define_within]
    rfl
  | .block _ _ body, built => by
    rw [Stmt.walk,walkAll_eq (fits.openScope quiet) quiet body built,Walker.endScope_within,
      Walker.tail_foldl_behind]
    rfl
  | .branch _ condition yes none, built => by
    have first := fits.adding (condition.scopeErrors s)
    rw [Stmt.walk,condition.walk_eq fits,yes.walk_eq first quiet built.2.1,
      Walker.past_of_part built.2.2,w.adding_adding]
    rfl
  | .branch _ condition yes (some no), built => by
    have first := fits.adding (condition.scopeErrors s)
    have second := first.adding (yes.scopeErrors s)
    rw [Stmt.walk,condition.walk_eq fits,yes.walk_eq first quiet built.2.1,
      Walker.past_of_part built.2.2.1,no.walk_eq second quiet built.2.2.2.1,
      Walker.past_of_part built.2.2.2.2,Walker.adding_adding,Walker.adding_adding,← List.append_assoc]
    exact (Walker.past_of_part rfl ..).symm
  | .loop _ _ condition body increment, built => by
    have inside := (fits.adding (condition.scopeErrors s)).enterLoop
    have behind := inside.adding (body.scopeErrors { s with inLoop := true })
    rw [Walker.past_of_part rfl,Stmt.walk,condition.walk_eq fits]
    rw [body.walk_eq inside quiet built.2.1,Walker.past_of_part built.2.2.1,
      Expr.walkOption_eq behind increment,Walker.adding_adding,Walker.leaveLoop_adding,w.adding_adding,
      ← List.append_assoc]
    rfl
  | .jump pos j, _ => by
    have loops := fits.loops
    rw [Walker.past_of_part rfl,Stmt.walk,Stmt.scopeErrors]
    cases inside : s.inLoop with
    | true =>
      rw [if_neg (loops.mpr inside)]
      exact w.adding_nil.symm
    | false =>
      have outside : w.loopDepth = 0 := by simpa [inside] using loops
      rw [if_pos outside]
      rfl
  | .function r, built => by
    have declared := (fits.declare quiet r.name).adding (declarationErrors s.scopes r.name)
    rw [Stmt.walk,fits.define_eq]
    refine (r.walk_eq declared quiet .function built).trans ?_
    simp only [Walker.adding,List.append_assoc]
    rfl
  | .leave pos value, _ => by
    have outside : w.routine.isNone = !s.inRoutine := by rw [← fits.routine,Option.not_isSome]
    have keyword : (if w.routine.isNone then w.report .topLevelReturn ⟨"return",pos⟩ else w) =
        w.adding (if s.inRoutine then [] else scopeError .topLevelReturn pos "return") := by
      rw [outside]
      cases s.inRoutine with
      | true => exact w.adding_nil.symm
      | false => rfl
    rw [Stmt.walk,keyword,Expr.walkOption_eq (fits.adding _) value,w.adding_adding]
    rfl
  | .klass name superclass methods, built => by
    have named := (fits.inClass .plain).declare quiet name
    obtain ⟨inside,around,opened,closed⟩ := (named.adding (declarationErrors s.scopes name)).superclass_eq
      quiet rfl name superclass
    have visited := walkMethods_eq (around.adding (superclassErrors name superclass)) quiet methods built.2.2
    rw [Walker.adding_within] at opened
    rw [Stmt.walk,(fits.inClass .plain).define_eq,opened,visited,inside.adding_adding,closed]
    simp only [Walker.adding_adding,← List.append_assoc]
    rfl

/-- A walk over a function or method adds its errors and changes nothing else. -/
theorem Routine.walk_eq {w : Walker} {s : Surroundings} (fits : w.Fits s) (quiet : s.initializing = none)
    (kind : RoutineKind) : (r : Routine) → r.Built T → r.walk w kind = w.adding (r.scopeErrors s)
  | ⟨_,params,body⟩, built => by
    have entered := fits.enter quiet kind
    have inside := (entered.parameters_fit quiet params).adding (parameterErrors s.routine.scopes params)
    have all := walkAll_eq inside quiet body built.2.2
    have opened : (w.enter kind).parameters params =
        ((w.enter kind).within (params.foldl Walker.settled (w.enter kind).scopes)).adding
          (parameterErrors s.routine.scopes params) := entered.parameters_eq quiet params
    rw [Routine.walk,opened,all]
    simp only [Walker.endScope_within,Walker.scopes_within,Walker.adding_within,
      Walker.adding_adding,Walker.within_within,Walker.tail_foldl_behind,Walker.tail_foldl_settled]
    rfl

theorem walkAll_eq {w : Walker} {s : Surroundings} (fits : w.Fits s) (quiet : s.initializing = none) :
    (ss : List Stmt) → BodyBuilt T ss →
      walkAll w ss = (w.adding (blockErrors s ss)).within (ss.foldl Walker.behind w.scopes)
  | [], _ => w.adding_nil.symm
  | t :: rest, built => by
    have first := (fits.afterStmt quiet t).adding (t.scopeErrors s)
    rw [walkAll,t.walk_eq fits quiet built.1]
    refine (walkAll_eq first quiet rest built.2).trans ?_
    simp only [Walker.adding,List.append_assoc]
    rfl

theorem walkMethods_eq {w : Walker} {s : Surroundings} (fits : w.Fits s) (quiet : s.initializing = none) :
    (rs : List Routine) → MethodsBuilt T rs → walkMethods w rs = w.adding (methodErrors s rs)
  | [], _ => w.adding_nil.symm
  | r :: rest, built => by
    rw [walkMethods,r.walk_eq fits quiet .method built.1,
      walkMethods_eq (fits.adding _) quiet rest built.2,w.adding_adding]
    rfl

end

/-- A walk that starts outside of everything ends there. -/
theorem Program.walk_eq {p : Program} (built : BodyBuilt T p) : p.walk = { errors := p.scopeErrors } := by
  have start : Walker.Fits {} {} := ⟨.nil,fun _ => by simp [Walker.awaits],rfl,by simp,rfl⟩
  have global : p.foldl Walker.behind [] = [] := by
    induction p with
    | nil => rfl
    | cons t rest ih =>
      have outside : Walker.behind [] t = [] := by
        unfold Walker.behind
        split <;> rfl
      rw [List.foldl_cons,outside,ih built.2]
  rw [Program.walk,walkAll_eq start rfl p built,global]
  rfl

/-- What a source reports about scopes. A walk over its program reports exactly the violations of the rules,
one for each node that breaks one, in the order of the nodes and at their tokens. Behind it all scopes are
closed, and it is in no loop, routine or class. -/
theorem scope_errors_exact (source : String) :
    (parse source).program.walk = { errors := (parse source).program.scopeErrors } ∧
      (parse source).program.scopeErrors =
        (parse source).program.occurrences.filterMap Occurrence.diagnostic? ∧
      ∀ (a : Ancestry) (node : Ruled) (d : Diagnostic), Occurrence.diagnostic? (a,node) = some d ↔
        ∃ e, a.Violates node e ∧ d = ⟨.scope e,node.token.pos,.token node.token.text⟩ :=
  ⟨Program.walk_eq (parseScan_built (T := (· ∈ (scan source).tokens)) (scan_tokens_ne_nil source) fun _ => id),
    Program.scopeErrors_eq _,fun _ _ _ => Ancestry.diagnostic?_eq_some_iff⟩

/-- A function stands in a loop, but its body does not. -/
example : (parse "while (true) { fun f(a, a) { break; } } return this;").program.scopeErrors.map (·.cause) =
    [.scope .alreadyDeclared,.scope (.jumpOutsideLoop .leave),.scope .topLevelReturn,
      .scope .thisOutsideClass] := by decide +kernel

end Lox
