import Lox.Scope.Rules

/-! # Violations of the rules of scope

What the rules of scope say of a node depends on its ancestors in the tree alone. All nodes that the rules
are about are listed with their ancestors, in the order in which they are visited. The errors of a program
are the violations among them, each reported once and at the token of its node.
-/
namespace Lox

/-- What a node can stand in. -/
inductive Ancestor
  /-- A block, behind some of its statements. -/
  | block (before : List Stmt)
  /-- A function or a method, behind some of its parameters and of the statements of its body. -/
  | routine (params : List Name) (before : List Stmt)
  /-- The methods of a class. -/
  | klass (superclass : Option Reference)
  /-- The body of a loop or what runs behind it. -/
  | loop
  | initializer (name : Name)

/-- The ancestors of a node from inside out. Global statements have none. -/
abbrev Ancestry := List Ancestor

/-- A node that a rule of scope is about. -/
inductive Ruled
  /-- A declaration or a parameter. -/
  | declaration (name : Name)
  | read (r : Reference)
  | this (pos : Pos)
  | super (pos : Pos)
  | jump (pos : Pos) (j : Jump)
  | return (pos : Pos)
  /-- A class with its superclass. -/
  | inheritance (name : Name) (superclass : Reference)

/-- The name that an error about the node points at. -/
def Ruled.token : Ruled → Name
  | .declaration name => name
  | .read r | .inheritance _ r => r.name
  | .this pos => ⟨"this",pos⟩
  | .super pos => ⟨"super",pos⟩
  | .jump pos j => ⟨j.word,pos⟩
  | .return pos => ⟨"return",pos⟩

/-! ## The rules -/

namespace Ancestry

/-- The names declared so far in the innermost scope, unless that is the global one. -/
def scope? : Ancestry → Option (List Name)
  | [] => none
  | .block before :: _ => some (before.filterMap Stmt.declared?)
  | .routine params before :: _ => some (params ++ before.filterMap Stmt.declared?)
  | .klass _ :: _ => some []
  | .loop :: a => scope? a
  | .initializer name :: a => (scope? a).map (· ++ [name])

/-- There is a loop around, in the same function or method. -/
def inLoop : Ancestry → Bool
  | [] | .routine .. :: _ => false
  | .loop :: _ => true
  | .block _ :: a | .klass _ :: a | .initializer _ :: a => inLoop a

def inRoutine : Ancestry → Bool
  | [] => false
  | .routine .. :: _ => true
  | .block _ :: a | .klass _ :: a | .loop :: a | .initializer _ :: a => inRoutine a

/-- The superclass clause of the innermost class around. -/
def class? : Ancestry → Option (Option Reference)
  | [] => none
  | .klass superclass :: _ => some superclass
  | .block _ :: a | .routine .. :: a | .loop :: a | .initializer _ :: a => class? a

/-- A node with these ancestors breaks a rule of scope. -/
inductive Violates (a : Ancestry) : Ruled → ScopeError → Prop
  | jump {pos : Pos} {j : Jump} : a.inLoop = false → Violates a (.jump pos j) (.jumpOutsideLoop j)
  | return {pos : Pos} : a.inRoutine = false → Violates a (.return pos) .topLevelReturn
  | this {pos : Pos} : a.class? = none → Violates a (.this pos) .thisOutsideClass
  | super {pos : Pos} : a.class? = none → Violates a (.super pos) .superOutsideClass
  | superclass {pos : Pos} : a.class? = some none → Violates a (.super pos) .superWithoutSuperclass
  | declaration {name earlier : Name} {names : List Name} : a.scope? = some names → earlier ∈ names →
      earlier.text = name.text → Violates a (.declaration name) .alreadyDeclared
  | read {r : Reference} {name : Name} {outer : Ancestry} : a = .initializer name :: outer →
      outer.scope?.isSome → name.text = r.name.text → Violates a (.read r) .ownInitializer
  | inheritance {name : Name} {r : Reference} : r.name.text = name.text →
      Violates a (.inheritance name r) .ownSuperclass

/-- The variable in whose initializer a node stands, unless it is a global one. -/
def initializing? : Ancestry → Option String
  | .initializer name :: outer => if (scope? outer).isSome then some name.text else none
  | _ => none

/-- The rule that a node breaks, if it breaks one. -/
def error? (a : Ancestry) : Ruled → Option ScopeError
  | .declaration name =>
    match a.scope? with
    | none => none
    | some names => if name.text ∈ names.map (·.text) then some .alreadyDeclared else none
  | .read r => if a.initializing? = some r.name.text then some .ownInitializer else none
  | .this _ =>
    match a.class? with
    | none => some .thisOutsideClass
    | some _ => none
  | .super _ =>
    match a.class? with
    | none => some .superOutsideClass
    | some none => some .superWithoutSuperclass
    | some (some _) => none
  | .jump _ j => if a.inLoop then none else some (.jumpOutsideLoop j)
  | .return _ => if a.inRoutine then none else some .topLevelReturn
  | .inheritance name r => if r.name.text = name.text then some .ownSuperclass else none

theorem initializing?_eq_some_iff {a : Ancestry} {text : String} : a.initializing? = some text ↔
    ∃ name outer, a = .initializer name :: outer ∧ (scope? outer).isSome ∧ name.text = text := by
  constructor
  · intro found
    unfold initializing? at found
    split at found
    · next name outer =>
      split at found
      · next inner => exact ⟨name,outer,rfl,inner,Option.some.inj found⟩
      · cases found
    · cases found
  · rintro ⟨name,outer,rfl,inner,rfl⟩
    simp only [initializing?,inner,if_true]

/-- A node breaks at most one rule, and which one can be found out. -/
theorem error?_eq_some_iff {a : Ancestry} {node : Ruled} {e : ScopeError} :
    a.error? node = some e ↔ a.Violates node e := by
  constructor
  · intro found
    cases node with
    | declaration name =>
      cases scope : a.scope? with
      | none => simp [error?,scope] at found
      | some names =>
        simp only [error?,scope,List.mem_map] at found
        split at found
        · next declared =>
          obtain ⟨earlier,before,same⟩ := declared
          cases found
          exact .declaration scope before same
        · cases found
    | read r =>
      simp only [error?] at found
      split at found
      · next inside =>
        obtain ⟨name,outer,here,inner,same⟩ := initializing?_eq_some_iff.mp inside
        cases found
        exact .read here inner same
      · cases found
    | this pos =>
      cases inside : a.class? with
      | none =>
        simp only [error?,inside] at found
        cases found
        exact .this inside
      | some superclass => simp [error?,inside] at found
    | super pos =>
      rcases inside : a.class? with _ | _ | superclass
      · simp only [error?,inside] at found
        cases found
        exact .super inside
      · simp only [error?,inside] at found
        cases found
        exact .superclass inside
      · simp [error?,inside] at found
    | jump pos j =>
      simp only [error?] at found
      split at found
      · cases found
      · next outside =>
        cases found
        exact .jump (Bool.eq_false_iff.mpr outside)
    | «return» pos =>
      simp only [error?] at found
      split at found
      · cases found
      · next outside =>
        cases found
        exact .return (Bool.eq_false_iff.mpr outside)
    | inheritance name r =>
      simp only [error?] at found
      split at found
      · next same =>
        cases found
        exact .inheritance same
      · cases found
  · intro broken
    cases broken with
    | jump outside | «return» outside => simp [error?,outside]
    | this outside | super outside | superclass outside => simp only [error?,outside]
    | declaration scope before same =>
      simp only [error?,scope]
      rw [if_pos (List.mem_map.mpr ⟨_,before,same⟩)]
    | read here inner same =>
      simp only [error?]
      rw [if_pos (initializing?_eq_some_iff.mpr ⟨_,_,here,inner,same⟩)]
    | inheritance same => simp only [error?,if_pos same]

/-- The error that is reported about a node. -/
def diagnostic? (a : Ancestry) (node : Ruled) : Option Diagnostic :=
  (a.error? node).map fun e => ⟨.scope e,node.token.pos,.token node.token.text⟩

theorem diagnostic?_eq_some_iff {a : Ancestry} {node : Ruled} {d : Diagnostic} :
    a.diagnostic? node = some d ↔
      ∃ e, a.Violates node e ∧ d = ⟨.scope e,node.token.pos,.token node.token.text⟩ := by
  simp only [diagnostic?,Option.map_eq_some_iff,error?_eq_some_iff,eq_comm (b := d)]

/-- The ancestors behind one more statement of the innermost block or body. -/
def behind : Ancestry → Stmt → Ancestry
  | .block before :: a, s => .block (before ++ [s]) :: a
  | .routine params before :: a, s => .routine params (before ++ [s]) :: a
  | a, _ => a

end Ancestry

/-! ## The nodes of a program -/

mutual

/-- The nodes of an expression that rules are about. An assigned property's value comes before its object. -/
def Expr.ruled : Expr → List Ruled
  | .literal _ _ => []
  | .grouping _ e | .assign _ e | .unary _ _ e | .get e _ => e.ruled
  | .var r => [.read r]
  | .binary left _ _ right | .logical left _ _ right => left.ruled ++ right.ruled
  | .call callee _ args => callee.ruled ++ ruledArguments args
  | .set object _ value => value.ruled ++ object.ruled
  | .this pos _ => [.this pos]
  | .super pos _ _ => [.super pos]
termination_by structural e => e

def ruledArguments : List Expr → List Ruled
  | [] => []
  | e :: es => e.ruled ++ ruledArguments es
termination_by structural es => es

end

/-- A node with its ancestors. -/
abbrev Occurrence := Ancestry × Ruled

def Expr.occurrences (a : Ancestry) (e : Expr) : List Occurrence := e.ruled.map (a,·)

def Expr.optionOccurrences (a : Ancestry) : Option Expr → List Occurrence
  | none => []
  | some e => e.occurrences a

def superclassOccurrences (a : Ancestry) (name : Name) : Option Reference → List Occurrence
  | none => []
  | some r => [(a,.inheritance name r),(a,.read r)]

/-- Each parameter stands behind those before it. -/
def parameterOccurrences (a : Ancestry) (before : List Name) : List Name → List Occurrence
  | [] => []
  | p :: ps => (.routine before [] :: a,.declaration p) :: parameterOccurrences a (before ++ [p]) ps

mutual

def Stmt.occurrences (a : Ancestry) : Stmt → List Occurrence
  | .expression e | .print _ e => e.occurrences a
  | .var name init => (a,.declaration name) :: Expr.optionOccurrences (.initializer name :: a) init
  | .block _ _ body => bodyOccurrences (.block [] :: a) body
  | .branch _ condition yes none => condition.occurrences a ++ yes.occurrences a
  | .branch _ condition yes (some no) =>
    condition.occurrences a ++ yes.occurrences a ++ no.occurrences a
  | .loop _ _ condition body increment =>
    condition.occurrences a ++ body.occurrences (.loop :: a) ++
      Expr.optionOccurrences (.loop :: a) increment
  | .jump pos j => [(a,.jump pos j)]
  | .function r => (a,.declaration r.name) :: r.occurrences a
  | .leave pos value => (a,.return pos) :: Expr.optionOccurrences a value
  | .klass name superclass methods =>
    (a,.declaration name) :: superclassOccurrences a name superclass ++
      methodOccurrences (.klass superclass :: a) methods
termination_by structural s => s

def Routine.occurrences (a : Ancestry) : Routine → List Occurrence
  | ⟨_,params,body⟩ => parameterOccurrences a [] params ++ bodyOccurrences (.routine params [] :: a) body
termination_by structural r => r

def bodyOccurrences (a : Ancestry) : List Stmt → List Occurrence
  | [] => []
  | s :: rest => s.occurrences a ++ bodyOccurrences (a.behind s) rest
termination_by structural ss => ss

def methodOccurrences (a : Ancestry) : List Routine → List Occurrence
  | [] => []
  | r :: rest => r.occurrences a ++ methodOccurrences a rest
termination_by structural rs => rs

end

/-- All nodes of a program that rules of scope are about, as they are visited. -/
def Program.occurrences (p : Program) : List Occurrence := bodyOccurrences [] p

/-! ## What surrounds a node -/

/-- What the superclass clause of an enclosing class makes of it. -/
def ClassContext.ofClause : Option (Option Reference) → ClassContext
  | .none => .none
  | .some .none => .plain
  | .some (.some _) => .derived

/-- A list of declared names and the scope that holds their texts. -/
abbrev Ancestry.Holds (names : List Name) (scope : List String) : Prop :=
  ∀ text : String, text ∈ scope ↔ text ∈ names.map (·.text)

theorem Ancestry.Holds.declare {names : List Name} {scope : List String} (same : Ancestry.Holds names scope)
    (name : Name) : Ancestry.Holds (names ++ [name]) (name.text :: scope) := by
  intro text
  simp only [List.mem_cons,same text,List.map_append,List.mem_append,List.map_cons,List.map_nil,
    List.not_mem_nil,or_false]
  exact or_comm

/-- What the rules look at is what the ancestors tell. -/
structure Ancestry.Describes (a : Ancestry) (s : Surroundings) : Prop where
  scope : Option.Rel Holds a.scope? s.scopes.head?
  inLoop : s.inLoop = a.inLoop
  inRoutine : s.inRoutine = a.inRoutine
  klass : s.klass = .ofClause a.class?
  initializing : s.initializing = a.initializing?

/-- The error that is reported about a node where it occurs. -/
def Occurrence.diagnostic? (o : Occurrence) : Option Diagnostic := o.1.diagnostic? o.2

namespace Ancestry
variable {a : Ancestry} {s : Surroundings}

/-- Statements stand in a row: globally, in a block or in the body of a routine. -/
def IsRow : Ancestry → Prop
  | [] | .block _ :: _ | .routine .. :: _ => True
  | _ => False

theorem IsRow.behind (row : a.IsRow) (t : Stmt) : (a.behind t).IsRow := by
  unfold IsRow at row
  split at row
  · trivial
  · trivial
  · trivial
  · exact row.elim

theorem filterMap_declared?_append (before : List Stmt) (t : Stmt) :
    (before ++ [t]).filterMap Stmt.declared? = before.filterMap Stmt.declared? ++ t.declared?.toList := by
  rw [List.filterMap_append]
  cases declared : t.declared? <;> simp [declared]

theorem scope?_behind (row : a.IsRow) (t : Stmt) :
    (a.behind t).scope? = a.scope?.map (· ++ t.declared?.toList) := by
  unfold IsRow at row
  split at row
  · rfl
  · exact congrArg some (filterMap_declared?_append _ t)
  · refine congrArg some ?_
    rw [filterMap_declared?_append]
    exact (List.append_assoc ..).symm
  · exact row.elim

theorem inLoop_behind (a : Ancestry) (t : Stmt) : (a.behind t).inLoop = a.inLoop := by
  unfold Ancestry.behind
  split <;> rfl

theorem inRoutine_behind (a : Ancestry) (t : Stmt) : (a.behind t).inRoutine = a.inRoutine := by
  unfold Ancestry.behind
  split <;> rfl

theorem class?_behind (a : Ancestry) (t : Stmt) : (a.behind t).class? = a.class? := by
  unfold Ancestry.behind
  split <;> rfl

theorem initializing?_behind (a : Ancestry) (t : Stmt) : (a.behind t).initializing? = a.initializing? := by
  unfold Ancestry.behind
  split <;> rfl

theorem rel_declare {names : Option (List Name)} {scopes : Scopes}
    (same : Option.Rel Holds names scopes.head?) (name : Name) :
    Option.Rel Holds (names.map (· ++ [name])) (scopes.declare name.text).head? := by
  cases scopes with
  | nil =>
    cases same
    exact .none
  | cons scope outer =>
    cases same with
    | some same => exact .some (same.declare name)

/-- One more statement in a row declares in the scope what it does in the tree. -/
theorem rel_afterStmt {names : Option (List Name)} {scopes : Scopes}
    (same : Option.Rel Holds names scopes.head?) (t : Stmt) :
    Option.Rel Holds (names.map (· ++ t.declared?.toList)) (scopes.afterStmt t).head? := by
  unfold Scopes.afterStmt
  cases t.declared? with
  | none => simpa using same
  | some name => exact rel_declare same name

theorem Describes.isSome_scope? (d : a.Describes s) : a.scope?.isSome = !s.scopes.isEmpty := by
  have scope := d.scope
  cases scopes : s.scopes with
  | nil =>
    rw [scopes] at scope
    generalize a.scope? = o at scope
    cases scope
    rfl
  | cons head outer =>
    rw [scopes] at scope
    generalize a.scope? = o at scope
    cases scope
    rfl

namespace Describes

theorem start : Describes [] {} := ⟨.none,rfl,rfl,rfl,rfl⟩

/-- What a row of statements looks at behind one more of them. -/
theorem behind (d : a.Describes s) (row : a.IsRow) (t : Stmt) : (a.behind t).Describes (s.afterStmt t) where
  scope := by
    rw [scope?_behind row]
    exact rel_afterStmt d.scope t
  inLoop := by rw [inLoop_behind]; exact d.inLoop
  inRoutine := by rw [inRoutine_behind]; exact d.inRoutine
  klass := by rw [class?_behind]; exact d.klass
  initializing := by rw [initializing?_behind]; exact d.initializing

section
variable (d : a.Describes s) (quiet : s.initializing = none)
include d quiet

theorem block : Describes (.block [] :: a) s.openScope :=
  ⟨.some fun _ => .rfl,d.inLoop,d.inRoutine,d.klass,quiet⟩

theorem loop : Describes (.loop :: a) { s with inLoop := true } :=
  ⟨d.scope,rfl,d.inRoutine,d.klass,quiet⟩

omit quiet in
theorem initializer (name : Name) : Describes (.initializer name :: a) (s.initializer name.text) where
  scope := rel_declare d.scope name
  inLoop := d.inLoop
  inRoutine := d.inRoutine
  klass := d.klass
  initializing := by
    simp only [Surroundings.initializer,Ancestry.initializing?,d.isSome_scope?]
    cases s.scopes <;> rfl

end

/-- Inside a routine it matters only what class is around. -/
theorem routine (klass : s.klass = .ofClause a.class?) (quiet : s.initializing = none) :
    Describes (.routine [] [] :: a) s.routine :=
  ⟨.some fun _ => .rfl,rfl,rfl,klass,quiet⟩

/-- A parameter is declared in the scope of the body. -/
theorem parameter {before : List Name} (d : Describes (.routine before [] :: a) s) (p : Name) :
    Describes (.routine (before ++ [p]) [] :: a) (s.declare p.text) where
  scope := by
    have grown := rel_declare d.scope p
    simp only [scope?,List.filterMap_nil,List.append_nil,Option.map_some] at grown ⊢
    exact grown
  inLoop := d.inLoop
  inRoutine := d.inRoutine
  klass := d.klass
  initializing := d.initializing

end Describes

/-! ## Violations are what is reported -/

/-- A node that breaks no rule, or the one that is looked at. -/
theorem toList_diagnostic? {node : Ruled} {c : Prop} [Decidable c] {e : ScopeError}
    (same : a.error? node = if c then some e else none) :
    (a.diagnostic? node).toList = if c then scopeError e node.token.pos node.token.text else [] := by
  rw [diagnostic?,same]
  split <;> rfl

namespace Describes

/-- What is reported about a declaration. -/
theorem declaration (d : a.Describes s) (name : Name) :
    declarationErrors s.scopes name = (a.diagnostic? (.declaration name)).toList := by
  have scope := d.scope
  cases scopes : s.scopes with
  | nil =>
    rw [scopes] at scope
    simp only [diagnostic?,error?,declarationErrors]
    generalize a.scope? = o at scope ⊢
    cases scope
    rfl
  | cons head outer =>
    rw [scopes] at scope
    cases names : a.scope? with
    | none =>
      rw [names] at scope
      cases scope
    | some names' =>
      rw [names] at scope
      cases scope with
      | some same =>
        have rule : a.error? (.declaration name) =
            if head.contains name.text then some .alreadyDeclared else none := by
          simp only [error?,names,List.contains_iff_mem,same name.text]
        rw [toList_diagnostic? rule]
        rfl

theorem read (d : a.Describes s) (r : Reference) :
    (Expr.var r).scopeErrors s = (a.diagnostic? (.read r)).toList := by
  have rule : a.error? (.read r) =
      if s.initializing = some r.name.text then some .ownInitializer else none := by
    rw [d.initializing]
    rfl
  rw [toList_diagnostic? rule]
  rfl

theorem this (d : a.Describes s) (pos : Pos) (depth : Option Nat) :
    (Expr.this pos depth).scopeErrors s = (a.diagnostic? (.this pos)).toList := by
  simp only [Expr.scopeErrors,d.klass,diagnostic?,error?]
  rcases a.class? with _ | _ | superclass <;> rfl

theorem super (d : a.Describes s) (pos : Pos) (method : Name) (depth : Option Nat) :
    (Expr.super pos method depth).scopeErrors s = (a.diagnostic? (.super pos)).toList := by
  simp only [Expr.scopeErrors,d.klass,diagnostic?,error?]
  rcases a.class? with _ | _ | superclass <;> rfl

theorem jump (d : a.Describes s) (pos : Pos) (j : Jump) :
    (Stmt.jump pos j).scopeErrors s = (a.diagnostic? (.jump pos j)).toList := by
  simp only [Stmt.scopeErrors,d.inLoop,diagnostic?,error?]
  cases a.inLoop <;> rfl

theorem «return» (d : a.Describes s) (pos : Pos) :
    (if s.inRoutine then [] else scopeError .topLevelReturn pos "return") =
      (a.diagnostic? (.return pos)).toList := by
  simp only [d.inRoutine,diagnostic?,error?]
  cases a.inRoutine <;> rfl

end Describes

theorem inheritance (a : Ancestry) (name : Name) (r : Reference) :
    superclassErrors name (some r) = (a.diagnostic? (.inheritance name r)).toList := by
  have rule : a.error? (.inheritance name r) =
      if r.name.text = name.text then some .ownSuperclass else none := rfl
  rw [toList_diagnostic? rule]
  rfl

end Ancestry

theorem filterMap_cons_toList {α β : Type} (f : α → Option β) (x : α) (l : List α) :
    (x :: l).filterMap f = (f x).toList ++ l.filterMap f := by
  rw [List.filterMap_cons]
  cases f x <;> rfl

section
variable {a : Ancestry} {s : Surroundings}

mutual

/-- What is reported about an expression is what its nodes violate. -/
theorem Expr.scopeErrors_eq (d : a.Describes s) : (e : Expr) →
    e.scopeErrors s = e.ruled.filterMap a.diagnostic?
  | .literal _ _ => rfl
  | .grouping _ e | .assign _ e | .unary _ _ e | .get e _ => e.scopeErrors_eq d
  | .var r => by rw [d.read,Expr.ruled,filterMap_cons_toList,List.filterMap_nil,List.append_nil]
  | .binary left _ _ right | .logical left _ _ right => by
    rw [Expr.scopeErrors,Expr.ruled,List.filterMap_append,left.scopeErrors_eq d,right.scopeErrors_eq d]
  | .call callee _ args => by
    rw [Expr.scopeErrors,Expr.ruled,List.filterMap_append,callee.scopeErrors_eq d,argumentErrors_eq d args]
  | .set object _ value => by
    rw [Expr.scopeErrors,Expr.ruled,List.filterMap_append,value.scopeErrors_eq d,object.scopeErrors_eq d]
  | .this pos _ => by rw [d.this,Expr.ruled,filterMap_cons_toList,List.filterMap_nil,List.append_nil]
  | .super pos _ _ => by rw [d.super,Expr.ruled,filterMap_cons_toList,List.filterMap_nil,List.append_nil]

theorem argumentErrors_eq (d : a.Describes s) : (es : List Expr) →
    argumentErrors s es = (ruledArguments es).filterMap a.diagnostic?
  | [] => rfl
  | e :: es => by
    rw [argumentErrors,ruledArguments,List.filterMap_append,e.scopeErrors_eq d,argumentErrors_eq d es]

end

theorem Expr.scopeErrors_occurrences (d : a.Describes s) (e : Expr) :
    e.scopeErrors s = (e.occurrences a).filterMap Occurrence.diagnostic? := by
  rw [Expr.occurrences,List.filterMap_map]
  exact e.scopeErrors_eq d

theorem Expr.optionErrors_occurrences (d : a.Describes s) (e : Option Expr) :
    Expr.optionErrors s e = (Expr.optionOccurrences a e).filterMap Occurrence.diagnostic? := by
  cases e with
  | none => rfl
  | some e => exact e.scopeErrors_occurrences d

/-- A superclass is read outside of all initializers. -/
theorem superclassErrors_occurrences (quiet : a.initializing? = none) (name : Name)
    (superclass : Option Reference) : superclassErrors name superclass =
      (superclassOccurrences a name superclass).filterMap Occurrence.diagnostic? := by
  cases superclass with
  | none => rfl
  | some r =>
    have read : a.diagnostic? (.read r) = none := by
      simp only [Ancestry.diagnostic?,Ancestry.error?,quiet,reduceCtorEq,if_false,Option.map_none]
    rw [superclassOccurrences,filterMap_cons_toList,filterMap_cons_toList,List.filterMap_nil,
      show Occurrence.diagnostic? (a,.read r) = none from read,a.inheritance name r]
    exact (List.append_nil _).symm

theorem parameterErrors_occurrences {before : List Name} (d : Ancestry.Describes (.routine before [] :: a) s)
    (params : List Name) : parameterErrors s.scopes params =
      (parameterOccurrences a before params).filterMap Occurrence.diagnostic? := by
  induction params generalizing before s with
  | nil => rfl
  | cons p ps ih =>
    rw [parameterErrors,parameterOccurrences,filterMap_cons_toList,d.declaration p]
    exact congrArg _ (ih (d.parameter p))

theorem Ancestry.Describes.parameters {before : List Name}
    (d : Ancestry.Describes (.routine before [] :: a) s) (params : List Name) :
    Ancestry.Describes (.routine (before ++ params) [] :: a)
      { s with scopes := s.scopes.declareAll params } := by
  induction params generalizing before s with
  | nil =>
    rw [List.append_nil]
    exact d
  | cons p ps ih =>
    rw [List.append_cons]
    exact ih (d.parameter p)

mutual

/-- What is reported about a statement is what the nodes in it violate where they occur. -/
theorem Stmt.scopeErrors_eq {a : Ancestry} {s : Surroundings} (d : a.Describes s)
    (quiet : s.initializing = none) : (t : Stmt) →
    t.scopeErrors s = (t.occurrences a).filterMap Occurrence.diagnostic?
  | .expression e | .print _ e => e.scopeErrors_occurrences d
  | .var name init => by
    rw [Stmt.scopeErrors,Stmt.occurrences,filterMap_cons_toList,d.declaration name,
      Expr.optionErrors_occurrences (d.initializer name) init]
    rfl
  | .block _ _ body => bodyErrors_eq (d.block quiet) quiet trivial body
  | .branch _ condition yes none => by
    rw [Stmt.scopeErrors,Stmt.occurrences,List.filterMap_append,condition.scopeErrors_occurrences d,
      yes.scopeErrors_eq d quiet]
  | .branch _ condition yes (some no) => by
    rw [Stmt.scopeErrors,Stmt.occurrences,List.filterMap_append,List.filterMap_append,
      condition.scopeErrors_occurrences d,yes.scopeErrors_eq d quiet,no.scopeErrors_eq d quiet]
  | .loop _ _ condition body increment => by
    rw [Stmt.scopeErrors,Stmt.occurrences,List.filterMap_append,List.filterMap_append,
      condition.scopeErrors_occurrences d,body.scopeErrors_eq (d.loop quiet) quiet,
      Expr.optionErrors_occurrences (d.loop quiet)]
  | .jump pos j => by
    rw [d.jump,Stmt.occurrences,filterMap_cons_toList,List.filterMap_nil,List.append_nil]
    rfl
  | .function r => by
    rw [Stmt.scopeErrors,Stmt.occurrences,filterMap_cons_toList,d.declaration r.name,
      r.scopeErrors_eq (s := s.declare r.name.text) d.klass quiet]
    rfl
  | .leave pos value => by
    rw [Stmt.scopeErrors,Stmt.occurrences,filterMap_cons_toList,d.return,
      Expr.optionErrors_occurrences d]
    rfl
  | .klass name superclass methods => by
    have inner : ((s.declare name.text).classBody superclass).klass =
        .ofClause (Ancestry.class? (.klass superclass :: a)) := by cases superclass <;> rfl
    rw [Stmt.scopeErrors,Stmt.occurrences,List.filterMap_append,filterMap_cons_toList,d.declaration name,
      superclassErrors_occurrences (d.initializing.symm.trans quiet) name superclass,
      methodErrors_eq inner quiet methods]
    rfl

/-- Inside a routine it matters only what class is around. -/
theorem Routine.scopeErrors_eq {a : Ancestry} {s : Surroundings} (klass : s.klass = .ofClause a.class?)
    (quiet : s.initializing = none) : (r : Routine) →
    r.scopeErrors s = (r.occurrences a).filterMap Occurrence.diagnostic?
  | ⟨_,params,body⟩ => by
    have d := Ancestry.Describes.routine klass quiet
    rw [Routine.scopeErrors,Routine.occurrences,List.filterMap_append,
      parameterErrors_occurrences d params,bodyErrors_eq (d.parameters params) quiet trivial body]
    rfl

theorem bodyErrors_eq {a : Ancestry} {s : Surroundings} (d : a.Describes s)
    (quiet : s.initializing = none) (row : a.IsRow) : (ss : List Stmt) →
    blockErrors s ss = (bodyOccurrences a ss).filterMap Occurrence.diagnostic?
  | [] => rfl
  | t :: rest => by
    rw [blockErrors,bodyOccurrences,List.filterMap_append,t.scopeErrors_eq d quiet,
      bodyErrors_eq (d.behind row t) quiet (row.behind t) rest]

theorem methodErrors_eq {a : Ancestry} {s : Surroundings} (klass : s.klass = .ofClause a.class?)
    (quiet : s.initializing = none) : (rs : List Routine) →
    methodErrors s rs = (methodOccurrences a rs).filterMap Occurrence.diagnostic?
  | [] => rfl
  | r :: rest => by
    rw [methodErrors,methodOccurrences,List.filterMap_append,r.scopeErrors_eq klass quiet,
      methodErrors_eq klass quiet rest]

end

end

/-- The errors of a program are the violations of its nodes, in the order of the nodes. -/
theorem Program.scopeErrors_eq (p : Program) :
    p.scopeErrors = p.occurrences.filterMap Occurrence.diagnostic? :=
  bodyErrors_eq .start rfl trivial p

end Lox
