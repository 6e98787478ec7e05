import Lox.Ast.Description
import Lox.Machine

/-! # Evaluation

Expressions give values, statements at most a signal: to leave a loop, to go on with its next
round, or to return from a function. Evaluation is a recursion on a bound for nested calls of
these definitions; each evaluation of a node also uses up one step of the machine, and the
bound that `Machine.run` gives is never met before the steps are.
-/
namespace Lox
open Exec

/-- The number that an operand has to be. -/
def numbers? : Value → Value → Option (Float × Float)
  | .number x, .number y => some (x,y)
  | _, _ => none

def addValues (pos : Pos) : Value → Value → Exec Value
  | .number x, .number y => return .number (x + y)
  | .string s, .string t => return .string (s ++ t)
  | _, _ => raise pos .operandsNotAddable

/-- An operation that needs two numbers. -/
def onNumbers (pos : Pos) (left right : Value) (f : Float → Float → Exec Value) : Exec Value :=
  match numbers? left right with
  | some (x,y) => f x y
  | none => raise pos .operandsNotNumbers

def divide (pos : Pos) (x y : Float) : Exec Value :=
  if y == 0 then raise pos .divisionByZero else return .number (x / y)

def applyBinary (op : BinaryOp) (pos : Pos) (left right : Value) : Exec Value :=
  match op with
  | .equal => return .bool (left.equal right)
  | .notEqual => return .bool (!left.equal right)
  | .plus => addValues pos left right
  | .minus => onNumbers pos left right fun x y => return .number (x - y)
  | .times => onNumbers pos left right fun x y => return .number (x * y)
  | .divide => onNumbers pos left right (divide pos)
  | .less => onNumbers pos left right fun x y => return .bool (x < y)
  | .lessEqual => onNumbers pos left right fun x y => return .bool (x ≤ y)
  | .greater => onNumbers pos left right fun x y => return .bool (y < x)
  | .greaterEqual => onNumbers pos left right fun x y => return .bool (y ≤ x)

def applyUnary (op : UnaryOp) (pos : Pos) (right : Value) : Exec Value :=
  match op, right with
  | .minus, .number x => return .number (-x)
  | .minus, _ => raise pos .operandNotNumber
  | .not, _ => return .bool (!right.isTruthy)

def constantValue : Constant → Value
  | .nil => .nil
  | .bool b => .bool b
  | .always => .bool true
  | .number x _ => .number x
  | .string s => .string s

/-- The value of a variable: at its depth, or global. -/
def readVariable (r : Reference) : Exec Value :=
  match r.depth with
  | some d => fun m => reading r.name.pos (fun h => h.lookupAt m.current d r.name.text) m
  | none => fun m => reading r.name.pos (fun h => h.lookup m.globals r.name.text) m

def assignVariable (r : Reference) (x : Value) : Exec Unit :=
  match r.depth with
  | some d => fun m => onHeap r.name.pos (Heap.assignAt m.current d r.name.text x) m
  | none => fun m => onHeap r.name.pos (Heap.assign m.globals r.name.text x) m

/-- The instance that a value is. -/
def instance? (x : Value) : Exec (Option Ref) := fun m =>
  match x with
  | .object r => .ok (if m.heap.kindOf r = .instanceOf then some r else none) m
  | _ => .ok none m

def class? (x : Value) : Exec (Option Ref) := fun m =>
  match x with
  | .object r => .ok (if m.heap.kindOf r = .klass then some r else none) m
  | _ => .ok none m

/-- A property as a value: a method is bound to the instance. -/
def getProperty (object : Value) (name : Name) : Exec Value := do
  match ← instance? object with
  | none => raise name.pos .noProperties
  | some r =>
    match ← reading name.pos (·.property r name.text) with
    | .field x => return x
    | .method f => return .bound f r

def readThis (pos : Pos) (depth : Option Nat) : Exec Value :=
  match depth with
  | none => fault .unresolved
  | some d => fun m => reading pos (fun h => h.lookupAt m.current d "this") m

/-- A method of the superclass, bound to the instance one scope further in. -/
def readSuper (pos : Pos) (method : Name) (depth : Option Nat) : Exec Value := do
  match depth with
  | none => fault .unresolved
  | some d =>
    let env ← currentEnvironment
    let superclass ← reading pos (·.lookupAt env d "super")
    let receiver ← reading pos (·.lookupAt env (d - 1) "this")
    match ← class? superclass, receiver with
    | none, _ => raise pos .superclassNotClass
    | some c, .object r =>
      match ← reading pos (·.findMethod c method.text) with
      | some f => return .bound f r
      | none => raise method.pos (.undefinedProperty method.text)
    | some _, _ => fault .wrongKind

/-- Logs an operation with its two operands. -/
def traceBinary (op : BinaryOp) (left right : Value) : Exec Unit := fun m =>
  if m.level.logs .verbose then
    match left.inspect m.heap, right.inspect m.heap with
    | .ok l, .ok r => trace .verbose (fun _ => s!"  Binary: {l} {op.symbol} {r}") m
    | .error e, _ | _, .error e => .error (e.halt .start) m
  else .ok () m

/-- Whether a call may start: the callee is callable and takes so many arguments. -/
def checkCall (pos : Pos) (callee : Value) (count : Nat) : Exec Unit := fun m =>
  if callee.isCallable m.heap then
    match callee.arity m.heap with
    | .error e => .error (e.halt pos) m
    | .ok arity =>
      if count = arity then .ok () m else .error (.error ⟨.wrongArity arity count,pos⟩) m
  else .error (.error ⟨.notCallable,pos⟩) m

/-- Logs a call that has been entered. -/
def traceCall (callee : Value) : Exec Unit := fun m =>
  if m.level.logs .verbose then
    match callee.inspect m.heap with
    | .ok text =>
      trace .verbose (fun _ => s!"apply_function: Calling {text} (depth {m.frames.length})") m
    | .error e => .error (e.halt .start) m
  else .ok () m

def bindParameters (env : Ref) : List Name → List Value → Exec Unit
  | p :: ps, x :: xs => do
    define env p.text x
    bindParameters env ps xs
  | _, _ => return ()

def newFunction (routine : Routine) (closure : Ref) : Exec Ref :=
  allocate (.function routine (some closure))

/-- The method table of a class, whose functions are kept in use as they are made. -/
def newMethods (closure : Ref) : List Routine → Bindings Ref → Exec (Bindings Ref)
  | [], made => return made
  | r :: rest, made => do
    let f ← newFunction r closure
    keep (.object f)
    newMethods closure rest (made.set r.name.text f)

/-- The environment of the methods of a class: one that binds `super` if there is a superclass. -/
def methodEnvironment (superclass : Option Ref) : Exec Ref := do
  let env ← currentEnvironment
  match superclass with
  | none => return env
  | some c =>
    let inner ← newEnvironment (some env)
    define inner "super" (.object c)
    keep (.object inner)
    return inner

/-- Declares a class over an evaluated superclass. -/
def declareClass (name : Name) (superclass : Option Ref) (methods : List Routine) : Exec Unit := do
  let closure ← methodEnvironment superclass
  let table ← newMethods closure methods {}
  let c ← allocate (.klass name.text superclass table)
  let env ← currentEnvironment
  define env name.text (.object c)

def declareFunction (r : Routine) : Exec Unit := do
  let env ← currentEnvironment
  let f ← newFunction r env
  define env r.name.text (.object f)

/-- A superclass has to be a class, and is in use while its subclass is made. -/
def checkSuperclass (r : Reference) (x : Value) : Exec Ref := do
  match ← class? x with
  | none => raise r.name.pos .superclassNotClass
  | some c =>
    keep x
    return c

mutual

def evaluate : Nat → Expr → Exec Value
  | 0, _ => halt .cut
  | n + 1, e => do
    tick
    traceNode e.nodeName
    match e with
    | .literal value _ => return constantValue value
    | .grouping _ inner => evaluate n inner
    | .var r => readVariable r
    | .assign target value =>
      let x ← evaluate n value
      assignVariable target x
      return x
    | .unary op pos right =>
      let x ← evaluate n right
      applyUnary op pos x
    | .binary left op pos right =>
      let x ← evaluate n left
      let y ← keeping x (evaluate n right)
      traceBinary op x y
      applyBinary op pos x y
    | .logical left .or _ right =>
      let x ← evaluate n left
      if x.isTruthy then return x else evaluate n right
    | .logical left .and _ right =>
      let x ← evaluate n left
      if x.isTruthy then evaluate n right else return x
    | .call callee paren args =>
      trace .verbose fun _ => "  Call node: " ++ callee.description
      releasing do
        let f ← evaluate n callee
        keep f
        let xs ← evaluateAll n args
        trace .verbose fun _ => s!"  Arguments evaluated: count: {xs.length}"
        checkCall paren f xs.length
        enterCall paren
        inCall f do
          traceCall f
          call n f xs
    | .get object name =>
      let x ← evaluate n object
      getProperty x name
    | .set object name value =>
      let target ← evaluate n object
      match ← instance? target with
      | none => raise name.pos .noFields
      | some r =>
        let x ← keeping target (evaluate n value)
        onHeap name.pos (Heap.setField r name.text x)
        return x
    | .this pos depth => readThis pos depth
    | .super pos method depth => readSuper pos method depth
termination_by structural n => n

/-- Arguments from left to right, each kept in use. -/
def evaluateAll : Nat → List Expr → Exec (List Value)
  | 0, _ => halt .cut
  | _ + 1, [] => return []
  | n + 1, e :: es => do
    let x ← evaluate n e
    keep x
    let xs ← evaluateAll n es
    return x :: xs
termination_by structural n => n

/-- Runs a callee on the right number of arguments. -/
def call : Nat → Value → List Value → Exec Value
  | 0, _, _ => halt .cut
  | n + 1, callee, xs => do
    match callee with
    | .native _ => readClock
    | .bound f receiver => callBound n f receiver xs
    | .object r => fun m =>
      if m.heap.kindOf r = .klass then instantiate n r xs m else callFunction n r xs m
    | _ => fault .wrongKind
termination_by structural n => n

def callFunction : Nat → Ref → List Value → Exec Value
  | 0, _, _ => halt .cut
  | n + 1, f, xs => do
    let (routine,closure) ← reading .start (·.function f)
    invoke n routine closure xs
termination_by structural n => n

/-- A method runs in an environment inside one that binds `this`. -/
def callBound : Nat → Ref → Ref → List Value → Exec Value
  | 0, _, _, _ => halt .cut
  | n + 1, f, receiver, xs => do
    let (routine,closure) ← reading .start (·.function f)
    let env ← newEnvironment closure
    define env "this" (.object receiver)
    invoke n routine (some env) xs
termination_by structural n => n

/-- Calling a class makes an instance and runs its initializer on it, if the class has one. -/
def instantiate : Nat → Ref → List Value → Exec Value
  | 0, _, _ => halt .cut
  | n + 1, c, xs => do
    let _ ← reading .start (·.live c)
    let r ← allocate (.instanceOf (some c) {})
    match ← reading .start (·.findMethod c "init") with
    | none => return .object r
    | some init =>
      let _ ← keeping (.object r) (callBound n init r xs)
      return .object r
termination_by structural n => n

/-- Runs a body in a new environment that binds the parameters. -/
def invoke : Nat → Routine → Option Ref → List Value → Exec Value
  | 0, _, _, _ => halt .cut
  | n + 1, routine, enclosing, xs => do
    let env ← newEnvironment enclosing
    bindParameters env routine.params xs
    match ← inEnvironment env (executeAll n routine.body) with
    | some (.return x) => return x
    | _ => return .nil
termination_by structural n => n

def execute : Nat → Stmt → Exec (Option Signal)
  | 0, _ => halt .cut
  | n + 1, s => do
    tick
    traceNode s.nodeName
    match s with
    | .expression e =>
      let _ ← evaluate n e
      return none
    | .print pos e =>
      let x ← evaluate n e
      let text ← reading pos x.inspect
      print (text ++ "\n")
      return none
    | .var name init =>
      let x ← match init with
        | some e => evaluate n e
        | none => pure .nil
      let env ← currentEnvironment
      define env name.text x
      return none
    | .block _ _ body =>
      trace .verbose fun _ => s!"eval_block_statement: len={body.length}"
      let outer ← currentEnvironment
      let env ← newEnvironment (some outer)
      inEnvironment env (executeAll n body)
    | .branch _ condition yes no =>
      let x ← evaluate n condition
      if x.isTruthy then execute n yes
      else match no with
        | some s => execute n s
        | none => return none
    | .loop _ _ condition body increment => loop n condition body increment
    | .jump _ .leave => return some .leave
    | .jump _ .next => return some .next
    | .leave _ value =>
      match value with
      | some e =>
        let x ← evaluate n e
        return some (.return x)
      | none => return some (.return .nil)
    | .function r =>
      trace .verbose fun _ => "  FunctionStatement node: " ++ r.name.text
      declareFunction r
      return none
    | .klass name superclass methods =>
      trace .verbose fun _ => "  ClassStatement node: " ++ name.text
      releasing do
        let base ← match superclass with
          | some r => do
            let x ← evaluate n (.var r)
            some <$> checkSuperclass r x
          | none => pure none
        declareClass name base methods
        return none
termination_by structural n => n

/-- Statements in order, up to the first signal. -/
def executeAll : Nat → List Stmt → Exec (Option Signal)
  | 0, _ => halt .cut
  | _ + 1, [] => return none
  | n + 1, s :: rest => do
    match ← execute n s with
    | some signal => return some signal
    | none => executeAll n rest
termination_by structural n => n

/-- The rounds of a loop. Its increment runs behind the body, also when the body went on early. -/
def loop : Nat → Expr → Stmt → Option Expr → Exec (Option Signal)
  | 0, _, _, _ => halt .cut
  | n + 1, condition, body, increment => do
    let x ← evaluate n condition
    if x.isTruthy then
      match ← execute n body with
      | some (.return x) => return some (.return x)
      | some .leave => return none
      | _ =>
        match increment with
        | some e =>
          let _ ← execute n (.expression e)
          loop n condition body increment
        | none => loop n condition body increment
    else return none
termination_by structural n => n

end

/-- The statements of a program in order, whatever they signal. -/
def executeProgram (bound : Nat) : Program → Exec Unit
  | [] => return ()
  | s :: rest => do
    let _ ← execute bound s
    executeProgram bound rest

end Lox
