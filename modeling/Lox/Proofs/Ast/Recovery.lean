import Lox.Proofs.Ast.Bounds
import Lox.Proofs.Ast.Earliest
import Lox.Proofs.Ast.Origins

/-! # Recovery

Parsing goes on behind each declaration that is given up, to the end of the tokens. A declaration uses up a
token before the end or the closing brace of a block is looked for again, whether it is given up or not. It is
given up with an error of its own: parsers inside it may have given up others, but each has recorded one more
error. The calls of a parser are listed to count them.
-/
namespace Lox
namespace Parser

/-! ## Calls -/

/-- A parser of declarations, or of what may have declarations inside. -/
inductive Form
  | declaration
  | declarations (inBlock : Bool)
  | block
  | routine (kind : RoutineKind) (name : Name)
  | classDeclaration
  | methods
  | statement

/-- A form that is to be parsed from a state, with a bound on nested calls. -/
structure Call where
  bound : ℕ
  form : Form
  state : State

/-- What a form needs besides eight nested calls for each token. -/
def Form.need : Form → ℕ
  | .declaration => 3
  | .declarations _ => 4
  | .block => 5
  | .statement => 2
  | .routine _ _ | .classDeclaration | .methods => 0

section
variable {α β : Type}

/-- What is called behind a parser, if it does not give up. -/
def behind (x : Parser α) (next : α → State → List Call) (s : State) : List Call :=
  match x s with
  | .ok v t => next v t
  | .error _ _ => []

end

/-- A condition in parentheses. -/
def condition (n : ℕ) (opening closing : ParseError) : Parser Expr := do
  let _ ← expect .leftParen opening
  let d ← expression n lowestLevel
  let _ ← expect .rightParen closing
  return d

/-- The parameters of a routine, up to the opening brace of its body. -/
def signature (n : ℕ) (kind : RoutineKind) : Parser (List Name) := do
  let _ ← expect .leftParen (.noParameters kind)
  let params ← if ← atKind .rightParen then pure [] else parameters n 0
  let _ ← expect .rightParen .unclosedParameters
  let _ ← expect .leftBrace (.noBody kind)
  return params

/-- The name and the superclass of a class, up to the opening brace of its body. -/
def classHead : Parser (Name × Option Reference) := do
  let name ← expectName .noClassName
  let superclass ← if ← atKind .less then do
      let _ ← advance
      let base ← expectName .noSuperclassName
      pure (some ⟨base,none⟩)
    else pure none
  let _ ← expect .leftBrace .noClassBody
  return (name,superclass)

/-- The clauses of a `for`, in parentheses. -/
def forClauses (n : ℕ) (t : Token) : Parser (Option Stmt × Expr × Option Expr) := do
  let _ ← expect .leftParen .noForClauses
  let init ← forInitializer n
  let test ← forCondition n t
  let increment ← forIncrement n
  return (init,test,increment)

namespace Call

/-- The calls that a call makes itself, in order. -/
def inside : Call → List Call
  | ⟨0,_,_⟩ => []
  | ⟨n + 1,.declaration,s⟩ =>
    match s.peek.kind with
    | .kwClass => [⟨n,.classDeclaration,s.advance⟩]
    | .kwFun => behind (expectName .noFunctionName) (fun name t => [⟨n,.routine .function name,t⟩]) s.advance
    | .kwVar => []
    | _ => [⟨n,.statement,s⟩]
  | ⟨n + 1,.declarations inBlock,s⟩ =>
    if s.peek.kind = .eof || (inBlock && s.peek.kind = .rightBrace) then []
    else ⟨n,.declaration,s⟩ :: behind (declaration n) (fun _ t => [⟨n,.declarations inBlock,t⟩]) s
  | ⟨n + 1,.block,s⟩ => [⟨n,.declarations true,s⟩]
  | ⟨n + 1,.routine kind _,s⟩ => behind (signature n kind) (fun _ t => [⟨n,.block,t⟩]) s
  | ⟨n + 1,.classDeclaration,s⟩ => behind classHead (fun _ t => [⟨n,.methods,t⟩]) s
  | ⟨n + 1,.methods,s⟩ =>
    if s.peek.kind = .rightBrace || s.peek.kind = .eof then []
    else behind (expectName .noMethodName) (fun name t => ⟨n,.routine .method name,t⟩ ::
      behind (routine n .method name) (fun _ u => [⟨n,.methods,u⟩]) t) s
  | ⟨n + 1,.statement,s⟩ =>
    match s.peek.kind with
    | .kwIf => behind (condition n .noIfCondition .unclosedIfCondition) (fun _ t => ⟨n,.statement,t⟩ ::
        behind (statement n) (fun _ u => if u.peek.kind = .kwElse then [⟨n,.statement,u.advance⟩] else []) t)
        s.advance
    | .kwWhile => behind (condition n .noWhileCondition .unclosedWhileCondition)
        (fun _ t => [⟨n,.statement,t⟩]) s.advance
    | .kwFor => behind (forClauses n s.peek) (fun _ t => [⟨n,.statement,t⟩]) s.advance
    | .leftBrace => [⟨n,.block,s.advance⟩]
    | _ => []

/-- The calls made in a call down to a depth, itself first. -/
def within : ℕ → Call → List Call
  | 0, _ => []
  | k + 1, c => c :: c.inside.flatMap (within k)

/-- All calls made in a call, itself first. -/
def all (c : Call) : List Call := within (c.bound + 1) c

/-- Whether a call is of a declaration that is given up. -/
def givenUp : Call → Bool
  | ⟨n,.declaration,s⟩ =>
    match declaration n s with
    | .ok none _ => true
    | _ => false
  | _ => false

/-- The number of declarations that are given up in a call. -/
def lost (c : Call) : ℕ := c.all.countP givenUp

/-! ## Bounds -/

/-- The tokens end, and the bound on nested calls is large enough for them. -/
structure Adequate (c : Call) : Prop where
  ended : c.state.Ended
  enough : 8 * c.state.rest.length + c.form.need ≤ c.bound

end Call

section
variable {α β : Type} {a b n k l : ℕ} {s : State} {c d : Call}

theorem mem_behind {x : Parser α} {next : α → State → List Call} (gets : Gets a b s (x s)) (mem : c ∈ behind x next s) :
    ∃ v t, x s = .ok v t ∧ t.Ended ∧ t.rest.length ≤ a ∧ c ∈ next v t := by
  unfold behind at mem
  cases ex : x s with
  | error e t =>
    rw [ex] at mem
    cases mem
  | ok v t =>
    rw [ex] at mem gets
    cases gets with
    | ok on less => exact ⟨v,t,rfl,on.ended,less,mem⟩

theorem gets_expectName (ended : s.Ended) (e : ParseError) :
    Gets (s.rest.length - 1) s.rest.length s (expectName e s) :=
  (reads_expectName ended e (Nat.le_refl _)).gets

theorem gets_expect (ended : s.Ended) {k : Token.Kind} (more : k ≠ .eof) (e : ParseError)
    (left : s.rest.length ≤ b) : Gets (s.rest.length - 1) b s (expect k e s) :=
  (reads_expect ended more e left).gets

theorem gets_condition {e e' : ParseError} (enough : 8 * s.rest.length + 1 ≤ n) (ended : s.Ended) :
    Gets (s.rest.length - 1) s.rest.length s (condition n e e' s) := by
  refine (gets_expect ended (by decide) e (Nat.le_refl _)).bind fun _ t _ on₁ less₁ => ?_
  have pos := on₁.ended.pos
  refine ((gets_expression (by omega) on₁.ended).weaken (Nat.le_refl _) (by omega)).bind fun d u _ on₂ less₂ => ?_
  refine (gets_expect on₂.ended (by decide) e' (by omega)).bind fun _ v _ on₃ less₃ => ?_
  exact .ok (.refl on₃.ended) (by omega)

theorem gets_signature {kind : RoutineKind} (enough : 8 * s.rest.length ≤ n + 1) (ended : s.Ended) :
    Gets (s.rest.length - 3) s.rest.length s (signature n kind s) := by
  refine (gets_expect ended (by decide) _ (Nat.le_refl _)).bind fun _ t _ on₁ less₁ => ?_
  have finish (params : List Name) : ∀ u : State, u.Ended → u.rest.length ≤ t.rest.length →
      Gets (s.rest.length - 3) s.rest.length u ((do
        let _ ← expect .rightParen .unclosedParameters
        let _ ← expect .leftBrace (.noBody kind)
        return params) u) := by
    intro u ended₂ less₂
    refine (gets_expect ended₂ (by decide) _ (by omega)).bind fun _ v _ on₃ less₃ => ?_
    refine (gets_expect on₃.ended (by decide) _ (by omega)).bind fun _ w _ on₄ less₄ => ?_
    exact .ok (.refl on₄.ended) (by omega)
  refine Gets.bind (a := t.rest.length) (.ok (.refl on₁.ended) (Nat.le_refl _)) fun close u e _ _ => ?_
  cases e
  dsimp only
  split
  · exact finish [] t on₁.ended (Nat.le_refl _)
  · have pos := on₁.ended.pos
    refine ((gets_parameters (by omega) on₁.ended).weaken (Nat.le_refl _) (by omega)).bind fun params u _ on₂ less₂ => ?_
    exact finish params u on₂.ended less₂

theorem gets_classHead (ended : s.Ended) : Gets (s.rest.length - 2) s.rest.length s (classHead s) := by
  refine (gets_expectName ended _).bind fun name t _ on₁ less₁ => ?_
  have finish (superclass : Option Reference) : ∀ u : State, u.Ended → u.rest.length ≤ t.rest.length →
      Gets (s.rest.length - 2) s.rest.length u ((do
        let _ ← expect .leftBrace .noClassBody
        return (name,superclass)) u) := by
    intro u ended₂ less₂
    refine (gets_expect ended₂ (by decide) _ (by omega)).bind fun _ v _ on₃ less₃ => ?_
    exact .ok (.refl on₃.ended) (by omega)
  refine Gets.bind (a := t.rest.length) (.ok (.refl on₁.ended) (Nat.le_refl _)) fun derived u e _ _ => ?_
  cases e
  dsimp only
  split
  · next derived =>
    have more : t.peek.kind ≠ .eof := fun e => by simp [e] at derived
    refine (reads_advance on₁.ended more).gets.bind fun _ u _ on₂ less₂ => ?_
    refine ((gets_expectName on₂.ended _).weaken (Nat.le_refl _) (by omega)).bind fun base v _ on₃ less₃ => ?_
    exact finish (some ⟨base,none⟩) v on₃.ended (by omega)
  · exact finish none t on₁.ended (Nat.le_refl _)

theorem gets_forClauses {t : Token} (enough : 8 * s.rest.length ≤ n + 1) (ended : s.Ended) :
    Gets (s.rest.length - 1) s.rest.length s (forClauses n t s) := by
  refine (gets_expect ended (by decide) _ (Nat.le_refl _)).bind fun _ u _ on₁ less₁ => ?_
  have pos := on₁.ended.pos
  have first := (forInitializer_inStep (P := Eq) fresh_default.ne_nil (Nat.le_refl n) (by omega) on₁.ended).gets
  refine (first.weaken (Nat.le_refl _) (by omega)).bind fun init v _ on₂ less₂ => ?_
  have test := (forCondition_inStep (P := Eq) fresh_default.ne_nil (Nat.le_refl n) (by omega) on₂.ended
    (Std.Refl.refl t)).gets
  refine (test.weaken (Nat.le_refl _) (by omega)).bind fun d w _ on₃ less₃ => ?_
  have last := (forIncrement_inStep (P := Eq) fresh_default.ne_nil (Nat.le_refl n) (by omega) on₃.ended).gets
  refine (last.weaken (Nat.le_refl _) (by omega)).bind fun e x _ on₄ less₄ => ?_
  exact .ok (.refl on₄.ended) (by omega)

namespace Call

/-- A call that is made with a bound, and the bound is adequate. -/
def Suits (n : ℕ) (c : Call) : Prop := c.bound = n ∧ c.Adequate

theorem suits_of_mem_singleton {form : Form} (ended : s.Ended) (enough : 8 * s.rest.length + form.need ≤ n)
    (mem : c ∈ [⟨n,form,s⟩]) : c.Suits n := by
  cases List.mem_singleton.mp mem
  exact ⟨rfl,ended,enough⟩

section
variable (ended : s.Ended)
include ended

theorem suits_declaration (enough : 8 * s.rest.length + 3 ≤ n + 1) (mem : c ∈ inside ⟨n + 1,.declaration,s⟩) :
    c.Suits n := by
  have statement (mem : c ∈ [⟨n,.statement,s⟩]) : c.Suits n :=
    suits_of_mem_singleton ended (by simp only [Form.need]; omega) mem
  simp only [inside] at mem
  cases kind : s.peek.kind with
  | kwClass =>
    rw [kind] at mem
    have less := length_advance (ended.two_le (by simp [kind]))
    exact suits_of_mem_singleton (onward_advance ended).ended (by simp only [Form.need]; omega) mem
  | kwFun =>
    rw [kind] at mem
    have less := length_advance (ended.two_le (by simp [kind]))
    obtain ⟨name,t,-,ended',less',mem⟩ := mem_behind (gets_expectName (onward_advance ended).ended _) mem
    exact suits_of_mem_singleton ended' (by simp only [Form.need]; omega) mem
  | kwVar =>
    rw [kind] at mem
    cases mem
  | _ =>
    rw [kind] at mem
    exact statement mem

theorem suits_declarations {inBlock : Bool} (enough : 8 * s.rest.length + 4 ≤ n + 1)
    (mem : c ∈ inside ⟨n + 1,.declarations inBlock,s⟩) : c.Suits n := by
  simp only [inside] at mem
  split at mem
  · cases mem
  · next more =>
    have two := ended.two_le fun e => by simp [e] at more
    rcases List.mem_cons.mp mem with rfl | mem
    · exact ⟨rfl,ended,by simp only [Form.need]; omega⟩
    · have gets := ((statementsGet n).declaration (Nat.le_refl n) (b := 0) (by omega) ended).gets
      obtain ⟨v,t,-,ended',less,mem⟩ := mem_behind gets mem
      exact suits_of_mem_singleton ended' (by simp only [Form.need]; omega) mem

theorem suits_routine {kind : RoutineKind} {name : Name} (enough : 8 * s.rest.length ≤ n + 1)
    (mem : c ∈ inside ⟨n + 1,.routine kind name,s⟩) : c.Suits n := by
  obtain ⟨params,t,-,ended',less,mem⟩ := mem_behind (gets_signature enough ended) mem
  have pos := ended'.pos
  exact suits_of_mem_singleton ended' (by simp only [Form.need]; omega) mem

theorem suits_classDeclaration (enough : 8 * s.rest.length ≤ n + 1)
    (mem : c ∈ inside ⟨n + 1,.classDeclaration,s⟩) : c.Suits n := by
  obtain ⟨head,t,-,ended',less,mem⟩ := mem_behind (gets_classHead ended) mem
  have pos := ended'.pos
  exact suits_of_mem_singleton ended' (by simp only [Form.need]; omega) mem

theorem suits_methods (enough : 8 * s.rest.length ≤ n + 1) (mem : c ∈ inside ⟨n + 1,.methods,s⟩) :
    c.Suits n := by
  simp only [inside] at mem
  split at mem
  · cases mem
  · next more =>
    have two := ended.two_le fun e => by simp [e] at more
    obtain ⟨name,t,-,ended₁,less₁,mem⟩ := mem_behind (gets_expectName ended _) mem
    rcases List.mem_cons.mp mem with rfl | mem
    · exact ⟨rfl,ended₁,by simp only [Form.need]; omega⟩
    · obtain ⟨routine,u,-,ended₂,less₂,mem⟩ := mem_behind (gets_routine (by omega) ended₁) mem
      exact suits_of_mem_singleton ended₂ (by simp only [Form.need]; omega) mem

theorem suits_statement (enough : 8 * s.rest.length + 2 ≤ n + 1) (mem : c ∈ inside ⟨n + 1,.statement,s⟩) :
    c.Suits n := by
  simp only [inside] at mem
  have ended₁ := (onward_advance ended).ended
  cases kind : s.peek.kind with
  | kwIf =>
    rw [kind] at mem
    have two := ended.two_le (by simp [kind])
    have less₁ := length_advance two
    obtain ⟨d,t,-,ended₂,less₂,mem⟩ := mem_behind (gets_condition (by omega) ended₁) mem
    rcases List.mem_cons.mp mem with rfl | mem
    · exact ⟨rfl,ended₂,by simp only [Form.need]; omega⟩
    · have gets := ((statementsGet n).statement (Nat.le_refl n) (by omega) ended₂).gets
      obtain ⟨yes,u,-,ended₃,less₃,mem⟩ := mem_behind gets mem
      split at mem
      · next other =>
        have less₄ := length_advance (ended₃.two_le (by simp [other]))
        exact suits_of_mem_singleton (onward_advance ended₃).ended (by simp only [Form.need]; omega) mem
      · cases mem
  | kwWhile =>
    rw [kind] at mem
    have two := ended.two_le (by simp [kind])
    have less₁ := length_advance two
    obtain ⟨d,t,-,ended₂,less₂,mem⟩ := mem_behind (gets_condition (by omega) ended₁) mem
    exact suits_of_mem_singleton ended₂ (by simp only [Form.need]; omega) mem
  | kwFor =>
    rw [kind] at mem
    have two := ended.two_le (by simp [kind])
    have less₁ := length_advance two
    obtain ⟨clauses,t,-,ended₂,less₂,mem⟩ := mem_behind (gets_forClauses (by omega) ended₁) mem
    exact suits_of_mem_singleton ended₂ (by simp only [Form.need]; omega) mem
  | leftBrace =>
    rw [kind] at mem
    have two := ended.two_le (by simp [kind])
    have less₁ := length_advance two
    exact suits_of_mem_singleton ended₁ (by simp only [Form.need]; omega) mem
  | _ =>
    rw [kind] at mem
    cases mem

end

/-- A call with an adequate bound makes only such calls, with a bound that is less by one. -/
theorem Adequate.inside (adequate : c.Adequate) (mem : d ∈ c.inside) : d.Adequate ∧ d.bound + 1 = c.bound := by
  obtain ⟨n,form,s⟩ := c
  obtain ⟨ended,enough⟩ := adequate
  cases n with
  | zero => cases mem
  | succ n =>
    have suits : d.Suits n := by
      cases form with
      | declaration => exact suits_declaration ended enough mem
      | declarations inBlock => exact suits_declarations ended enough mem
      | block => exact suits_of_mem_singleton ended (show 8 * s.rest.length + Form.need (.declarations true) ≤ n from
          Nat.le_of_succ_le_succ enough) mem
      | routine kind name => exact suits_routine ended enough mem
      | classDeclaration => exact suits_classDeclaration ended enough mem
      | methods => exact suits_methods ended enough mem
      | statement => exact suits_statement ended enough mem
    exact ⟨suits.2,congrArg (· + 1) suits.1⟩

end Call

/-! ## Errors of one's own -/

/-- So many errors are recorded, and one more on giving up. -/
inductive Pays (k : ℕ) (s : State) : EStateM.Result Abort State α → Prop
  | ok {v t} : s.errors.length + k ≤ t.errors.length → Pays k s (.ok v t)
  | error {e t} : s.errors.length + k < t.errors.length → Pays k s (.error e t)

theorem Gets.pays {r : EStateM.Result Abort State α} (h : Gets a b s r) : Pays 0 s r := by
  cases h with
  | ok on _ => exact .ok on.errors_le
  | error _ grew _ => exact .error grew

theorem Pays.bind {x : Parser α} {f : α → Parser β} {l : α → State → ℕ} (first : Pays k s (x s))
    (next : ∀ v t, x s = .ok v t → Pays (l v t) t (f v t)) :
    Pays (k + match x s with | .ok v t => l v t | .error _ _ => 0) s ((x >>= f) s) := by
  simp only [Bind.bind,EStateM.bind]
  cases ex : x s with
  | error e t =>
    rw [ex] at first
    cases first with
    | error grew => exact .error grew
  | ok v t =>
    rw [ex] at first
    have rest := next v t ex
    cases first with
    | ok grew =>
      dsimp only
      cases ef : f v t with
      | ok w u =>
        rw [ef] at rest
        cases rest with
        | ok grew' => exact .ok (by omega)
      | error e u =>
        rw [ef] at rest
        cases rest with
        | error grew' => exact .error (by omega)

/-- A parser that records no error behind another one. -/
theorem Pays.next {x : Parser α} {f : α → Parser β} (first : Pays k s (x s))
    (next : ∀ v t, x s = .ok v t → Pays 0 t (f v t)) : Pays k s ((x >>= f) s) := by
  have both := first.bind (l := fun _ _ => 0) next
  cases ex : x s with
  | ok v t => simpa only [ex,Nat.add_zero] using both
  | error e t => simpa only [ex,Nat.add_zero] using both

theorem Pays.map {x : Parser α} {f : α → β} (h : Pays k s (x s)) : Pays k s ((f <$> x) s) := by
  simp only [Functor.map,EStateM.map]
  cases ex : x s with
  | ok v t =>
    rw [ex] at h
    cases h with
    | ok grew => exact .ok grew
  | error e t =>
    rw [ex] at h
    cases h with
    | error grew => exact .error grew

theorem Pays.past {f : Token → Parser α} (ended : s.Ended) (h : Pays k s.advance (f s.peek s.advance)) :
    Pays k s ((advance >>= f) s) := by
  rw [advance_bind f ended]
  cases ef : f s.peek s.advance with
  | ok v t =>
    rw [ef] at h
    cases h with
    | ok grew => exact .ok (errors_advance s ▸ grew)
  | error e t =>
    rw [ef] at h
    cases h with
    | error grew => exact .error (errors_advance s ▸ grew)

namespace Call

/-- The number of declarations that are given up in some calls. -/
def lostIn (cs : List Call) : ℕ := (cs.map lost).sum

theorem lost_eq (adequate : c.Adequate) : c.lost = lostIn c.inside + if c.givenUp then 1 else 0 := by
  have inner : c.inside.map (List.countP givenUp ∘ within c.bound) = c.inside.map lost := by
    refine List.map_congr_left fun d mem => ?_
    rw [lost,all,(adequate.inside mem).2]
    rfl
  rw [lost,all,within,List.countP_cons,List.countP_flatMap,inner,lostIn]

/-- What a call comes to is paid for with errors. -/
def Pays (c : Call) : Prop :=
  match c.form with
  | .declaration => Parser.Pays c.lost c.state (Parser.declaration c.bound c.state)
  | .declarations inBlock => Parser.Pays c.lost c.state (Parser.declarations c.bound inBlock c.state)
  | .block => Parser.Pays c.lost c.state (Parser.block c.bound c.state)
  | .routine kind name => Parser.Pays c.lost c.state (Parser.routine c.bound kind name c.state)
  | .classDeclaration => Parser.Pays c.lost c.state (Parser.classDeclaration c.bound c.state)
  | .methods => Parser.Pays c.lost c.state (Parser.methods c.bound c.state)
  | .statement => Parser.Pays c.lost c.state (Parser.statement c.bound c.state)

theorem lostIn_singleton (c : Call) : lostIn [c] = c.lost := List.sum_singleton

theorem lostIn_behind (x : Parser α) (next : α → State → List Call) (s : State) :
    lostIn (behind x next s) = match x s with | .ok v t => lostIn (next v t) | .error _ _ => 0 := by
  unfold behind
  cases x s <;> rfl

theorem pays_behind {x : Parser α} {f : α → Parser β} {next : α → State → List Call} (first : Parser.Pays k s (x s))
    (rest : ∀ v t, x s = .ok v t → Parser.Pays (lostIn (next v t)) t (f v t)) :
    Parser.Pays (k + lostIn (behind x next s)) s ((x >>= f) s) := by
  rw [lostIn_behind]
  exact first.bind rest

theorem lost_eq_inside (adequate : c.Adequate) (other : c.givenUp = false) : c.lost = lostIn c.inside := by
  simp [lost_eq adequate,other]

theorem mem_behind_of_eq {x : Parser α} {next : α → State → List Call} {v : α} {t : State} (e : x s = .ok v t)
    (mem : c ∈ next v t) : c ∈ behind x next s := by
  rw [behind,e]
  exact mem

section
variable (ended : s.Ended)
include ended

theorem pays_declaration (enough : 8 * s.rest.length + 3 ≤ n + 1)
    (ih : ∀ d ∈ inside ⟨n + 1,.declaration,s⟩, d.Pays) : Pays ⟨n + 1,.declaration,s⟩ := by
  have inner : ∃ p, Parser.declaration (n + 1) = recovering p ∧
      Parser.Pays (lostIn (inside ⟨n + 1,.declaration,s⟩)) s (p s) := by
    refine ⟨_,rfl,?_⟩
    rw [peek_bind]
    simp only [inside] at ih ⊢
    have statement (ih : ∀ d ∈ [Call.mk n .statement s], d.Pays) :
        Parser.Pays (lostIn [⟨n,.statement,s⟩]) s (Parser.statement n s) := by
      have alone : Pays ⟨n,.statement,s⟩ := List.forall_mem_singleton.mp ih
      rw [lostIn_singleton]
      exact alone
    have ended₁ := (onward_advance ended).ended
    cases kind : s.peek.kind with
    | kwClass =>
      have alone : Pays ⟨n,.classDeclaration,s.advance⟩ := ih _ (by simp only [kind,List.mem_singleton])
      exact .past ended (by rw [lostIn_singleton]; exact alone)
    | kwFun =>
      rw [kind] at ih
      refine .past ended ?_
      rw [← Nat.zero_add (lostIn _)]
      refine pays_behind (gets_expectName ended₁ _).pays fun name t e => .map ?_
      exact ih ⟨n,.routine .function name,t⟩ (mem_behind_of_eq e List.mem_cons_self)
    | kwVar =>
      have less := length_advance (ended.two_le (by simp [kind]))
      exact .past ended (variableDeclaration_inStep (P := Eq) fresh_default.ne_nil (Nat.le_refl n) (by omega)
        ended₁).gets.pays
    | _ =>
      rw [kind] at ih
      exact statement ih
  obtain ⟨p,declaration,pays⟩ := inner
  have adequate : Adequate ⟨n + 1,.declaration,s⟩ := ⟨ended,enough⟩
  show Parser.Pays (lost ⟨n + 1,.declaration,s⟩) s (Parser.declaration (n + 1) s)
  rw [lost_eq adequate,givenUp,declaration,recovering_eq]
  cases ex : p s with
  | ok v t =>
    rw [ex] at pays
    cases pays with
    | ok grew => exact .ok grew
  | error e t =>
    -- The error that gives this declaration up is its own.
    rw [ex] at pays
    cases pays with
    | error grew => exact .ok grew

theorem pays_declarations {inBlock : Bool} (enough : 8 * s.rest.length + 4 ≤ n + 1)
    (ih : ∀ d ∈ inside ⟨n + 1,.declarations inBlock,s⟩, d.Pays) : Pays ⟨n + 1,.declarations inBlock,s⟩ := by
  have adequate : Adequate ⟨n + 1,.declarations inBlock,s⟩ := ⟨ended,enough⟩
  show Parser.Pays (lost ⟨n + 1,.declarations inBlock,s⟩) s (Parser.declarations (n + 1) inBlock s)
  rw [lost_eq_inside adequate rfl,Parser.declarations,peek_bind]
  simp only [inside] at ih ⊢
  split
  · exact .ok (Nat.le_refl _)
  · next more =>
    rw [if_neg more,List.forall_mem_cons] at ih
    refine pays_behind ih.1 fun v t e => ?_
    have others : Pays ⟨n,.declarations inBlock,t⟩ := ih.2 _ (mem_behind_of_eq e List.mem_cons_self)
    cases v with
    | none => exact others
    | some d => exact Parser.Pays.next others fun _ _ _ => .ok (Nat.le_refl _)

theorem pays_block (enough : 8 * s.rest.length + 5 ≤ n + 1) (ih : ∀ d ∈ inside ⟨n + 1,.block,s⟩, d.Pays) :
    Pays ⟨n + 1,.block,s⟩ := by
  have adequate : Adequate ⟨n + 1,.block,s⟩ := ⟨ended,enough⟩
  show Parser.Pays (lost ⟨n + 1,.block,s⟩) s (Parser.block (n + 1) s)
  rw [lost_eq_inside adequate rfl,Parser.block]
  have body : Pays ⟨n,.declarations true,s⟩ := List.forall_mem_singleton.mp ih
  refine Parser.Pays.next body fun body t e => ?_
  have gets : Gets s.rest.length 0 s (Parser.declarations n true s) := gets_declarations (by omega) ended
  rw [e] at gets
  cases gets with
  | ok on _ =>
    refine .past on.ended ?_
    split
    · exact .ok (Nat.le_refl _)
    · exact .error (Nat.lt_succ_self _)

omit ended in
theorem routine_eq_signature (n : ℕ) (kind : RoutineKind) (name : Name) : Parser.routine (n + 1) kind name =
    (do let params ← signature n kind; return ⟨name,params,← Parser.block n⟩) := by
  rw [Parser.routine,signature]
  simp only [bind_assoc]
  refine bind_congr fun _ => bind_congr fun close => ?_
  cases close <;> simp

omit ended in
theorem classDeclaration_eq_classHead (n : ℕ) : Parser.classDeclaration (n + 1) =
    (do
      let (name,superclass) ← classHead
      let members ← Parser.methods n
      let _ ← expect .rightBrace .unclosedClassBody
      return .klass name superclass members) := by
  rw [Parser.classDeclaration,classHead]
  simp only [bind_assoc]
  refine bind_congr fun _ => bind_congr fun derived => ?_
  cases derived <;> simp

theorem pays_routine {kind : RoutineKind} {name : Name} (enough : 8 * s.rest.length ≤ n + 1)
    (ih : ∀ d ∈ inside ⟨n + 1,.routine kind name,s⟩, d.Pays) : Pays ⟨n + 1,.routine kind name,s⟩ := by
  have adequate : Adequate ⟨n + 1,.routine kind name,s⟩ := ⟨ended,enough⟩
  show Parser.Pays (lost ⟨n + 1,.routine kind name,s⟩) s (Parser.routine (n + 1) kind name s)
  rw [lost_eq_inside adequate rfl,routine_eq_signature,← Nat.zero_add (lostIn _)]
  refine pays_behind (gets_signature enough ended).pays fun params t e => ?_
  have body : Pays ⟨n,.block,t⟩ := ih _ (mem_behind_of_eq e List.mem_cons_self)
  rw [lostIn_singleton]
  exact Parser.Pays.next body fun _ _ _ => .ok (Nat.le_refl _)

theorem pays_classDeclaration (enough : 8 * s.rest.length ≤ n + 1)
    (ih : ∀ d ∈ inside ⟨n + 1,.classDeclaration,s⟩, d.Pays) : Pays ⟨n + 1,.classDeclaration,s⟩ := by
  have adequate : Adequate ⟨n + 1,.classDeclaration,s⟩ := ⟨ended,enough⟩
  show Parser.Pays (lost ⟨n + 1,.classDeclaration,s⟩) s (Parser.classDeclaration (n + 1) s)
  rw [lost_eq_inside adequate rfl,classDeclaration_eq_classHead,← Nat.zero_add (lostIn _)]
  refine pays_behind (gets_classHead ended).pays fun head t e => ?_
  have members : Pays ⟨n,.methods,t⟩ := ih _ (mem_behind_of_eq e List.mem_cons_self)
  have made := adequate.inside (mem_behind_of_eq e List.mem_cons_self)
  rw [lostIn_singleton]
  refine Parser.Pays.next members fun members u e' => ?_
  have gets := ((statementsGet n).methods (Nat.le_refl n) made.1.enough made.1.ended).gets
  rw [e'] at gets
  cases gets with
  | ok on _ =>
    exact (gets_expect on.ended (by decide) _ (Nat.le_refl _)).pays.next fun _ _ _ => .ok (Nat.le_refl _)

theorem pays_methods (enough : 8 * s.rest.length ≤ n + 1) (ih : ∀ d ∈ inside ⟨n + 1,.methods,s⟩, d.Pays) :
    Pays ⟨n + 1,.methods,s⟩ := by
  have adequate : Adequate ⟨n + 1,.methods,s⟩ := ⟨ended,enough⟩
  show Parser.Pays (lost ⟨n + 1,.methods,s⟩) s (Parser.methods (n + 1) s)
  rw [lost_eq_inside adequate rfl,Parser.methods,peek_bind]
  simp only [inside] at ih ⊢
  split
  · exact .ok (Nat.le_refl _)
  · next more =>
    rw [if_neg more] at ih
    rw [← Nat.zero_add (lostIn _)]
    refine pays_behind (gets_expectName ended _).pays fun name t e => ?_
    have head : Pays ⟨n,.routine .method name,t⟩ := ih _ (mem_behind_of_eq e List.mem_cons_self)
    refine pays_behind head fun routine u e' => ?_
    have others : Pays ⟨n,.methods,u⟩ :=
      ih _ (mem_behind_of_eq e (List.mem_cons_of_mem _ (mem_behind_of_eq e' List.mem_cons_self)))
    rw [lostIn_singleton]
    exact Parser.Pays.next others fun _ _ _ => .ok (Nat.le_refl _)

omit ended in
theorem condition_bind (n : ℕ) (e e' : ParseError) (f : Expr → Parser α) : condition n e e' >>= f =
    (do
      let _ ← expect .leftParen e
      let d ← expression n lowestLevel
      let _ ← expect .rightParen e'
      f d) := by
  simp only [condition,bind_assoc,pure_bind]

omit ended in
theorem forClauses_bind (n : ℕ) (t : Token) (f : Option Stmt × Expr × Option Expr → Parser α) :
    forClauses n t >>= f =
    (do
      let _ ← expect .leftParen .noForClauses
      let init ← forInitializer n
      let test ← forCondition n t
      let increment ← forIncrement n
      f (init,test,increment)) := by
  simp only [forClauses,bind_assoc,pure_bind]

theorem pays_statement (enough : 8 * s.rest.length + 2 ≤ n + 1)
    (ih : ∀ d ∈ inside ⟨n + 1,.statement,s⟩, d.Pays) : Pays ⟨n + 1,.statement,s⟩ := by
  have adequate : Adequate ⟨n + 1,.statement,s⟩ := ⟨ended,enough⟩
  show Parser.Pays (lost ⟨n + 1,.statement,s⟩) s (Parser.statement (n + 1) s)
  rw [lost_eq_inside adequate rfl]
  -- A statement with no declarations inside.
  have simple (alone : inside ⟨n + 1,.statement,s⟩ = []) :
      Parser.Pays (lostIn (inside ⟨n + 1,.statement,s⟩)) s (Parser.statement (n + 1) s) := by
    rw [alone]
    exact ((statementsGet (n + 1)).statement (Nat.le_refl _) enough ended).gets.pays
  have ended₁ := (onward_advance ended).ended
  cases kind : s.peek.kind with
  | kwIf =>
    have two := ended.two_le (by simp [kind])
    have less := length_advance two
    simp only [inside,kind] at ih ⊢
    rw [Parser.statement,peek_bind,kind]
    refine .past ended ?_
    rw [← condition_bind,← Nat.zero_add (lostIn _)]
    refine pays_behind (gets_condition (by omega) ended₁).pays fun d t e => ?_
    have yes : Pays ⟨n,.statement,t⟩ := ih _ (mem_behind_of_eq e List.mem_cons_self)
    refine pays_behind yes fun yes u e' => ?_
    rw [atKind_bind]
    have first : Gets (s.advance.rest.length - 1) s.advance.rest.length s.advance
      (condition n .noIfCondition .unclosedIfCondition s.advance) := gets_condition (by omega) ended₁
    rw [e] at first
    cases first with
    | ok on₁ less₁ =>
      have second := ((statementsGet n).statement (Nat.le_refl n) (by omega) on₁.ended).gets
      rw [e'] at second
      cases second with
      | ok on₂ _ =>
        by_cases other : u.peek.kind = .kwElse
        · have no : Pays ⟨n,.statement,u.advance⟩ := by
            refine ih _ (mem_behind_of_eq e (List.mem_cons_of_mem _ (mem_behind_of_eq e' ?_)))
            rw [if_pos other]
            exact List.mem_cons_self
          simp only [other,decide_true,if_true]
          refine .past on₂.ended ?_
          rw [lostIn_singleton]
          exact Parser.Pays.next no fun _ _ _ => .ok (Nat.le_refl _)
        · simp only [other,decide_false,if_false]
          exact .ok (Nat.le_refl _)
  | kwWhile =>
    have two := ended.two_le (by simp [kind])
    have less := length_advance two
    simp only [inside,kind] at ih ⊢
    rw [Parser.statement,peek_bind,kind]
    refine .past ended ?_
    rw [← condition_bind,← Nat.zero_add (lostIn _)]
    refine pays_behind (gets_condition (by omega) ended₁).pays fun d t e => ?_
    have body : Pays ⟨n,.statement,t⟩ := ih _ (mem_behind_of_eq e List.mem_cons_self)
    rw [lostIn_singleton]
    exact Parser.Pays.next body fun _ _ _ => .ok (Nat.le_refl _)
  | kwFor =>
    have two := ended.two_le (by simp [kind])
    have less := length_advance two
    simp only [inside,kind] at ih ⊢
    rw [Parser.statement,peek_bind,kind]
    refine .past ended ?_
    rw [← Nat.zero_add (lostIn _)]
    have whole := forClauses_bind n s.peek fun c => do
      let body ← Parser.statement n
      return forLoop s.peek.pos c.1 c.2.1 c.2.2 body
    refine whole ▸ pays_behind (gets_forClauses (by omega) ended₁).pays fun clauses t e => ?_
    have body : Pays ⟨n,.statement,t⟩ := ih _ (mem_behind_of_eq e List.mem_cons_self)
    rw [lostIn_singleton]
    exact Parser.Pays.next body fun _ _ _ => .ok (Nat.le_refl _)
  | leftBrace =>
    have less := length_advance (ended.two_le (by simp [kind]))
    simp only [inside,kind] at ih ⊢
    rw [Parser.statement,peek_bind,kind]
    refine .past ended ?_
    have body : Pays ⟨n,.block,s.advance⟩ := List.forall_mem_singleton.mp ih
    rw [lostIn_singleton]
    exact Parser.Pays.next body fun _ _ _ => .ok (Nat.le_refl _)
  | _ => exact simple (by simp only [inside,kind])

end

theorem Adequate.within (adequate : c.Adequate) (k : ℕ) : ∀ d ∈ c.within k, d.Adequate := by
  induction k generalizing c with
  | zero => exact List.forall_mem_nil _
  | succ k ih =>
    refine List.forall_mem_cons.mpr ⟨adequate,fun d mem => ?_⟩
    obtain ⟨e,inside,mem⟩ := List.mem_flatMap.mp mem
    exact ih (adequate.inside inside).1 d mem

/-- Every declaration that is given up in a call has an error of its own, and so has the call if it gives up. -/
theorem pays (c : Call) (adequate : c.Adequate) : c.Pays := by
  obtain ⟨n,form,s⟩ := c
  induction n generalizing form s with
  | zero =>
    have pos := adequate.ended.pos
    have enough := adequate.enough
    dsimp only at pos enough
    omega
  | succ n ih =>
    have inner : ∀ d ∈ inside ⟨n + 1,form,s⟩, d.Pays := by
      intro d mem
      obtain ⟨adequate',bound⟩ := adequate.inside mem
      obtain ⟨m,form',t⟩ := d
      obtain rfl : m = n := Nat.succ_inj.mp bound
      exact ih form' t adequate'
    obtain ⟨ended,enough⟩ := adequate
    cases form with
    | declaration => exact pays_declaration ended enough inner
    | declarations inBlock => exact pays_declarations ended enough inner
    | block => exact pays_block ended enough inner
    | routine kind name => exact pays_routine ended enough inner
    | classDeclaration => exact pays_classDeclaration ended enough inner
    | methods => exact pays_methods ended enough inner
    | statement => exact pays_statement ended enough inner

end Call

/-! ## Progress -/

theorem exists_of_bind_eq_ok {x : Parser α} {f : α → Parser β} {v : β} {t : State} (h : (x >>= f) s = .ok v t) :
    ∃ w u, x s = .ok w u ∧ f w u = .ok v t := by
  simp only [Bind.bind,EStateM.bind] at h
  cases ex : x s with
  | ok w u =>
    rw [ex] at h
    exact ⟨w,u,rfl,h⟩
  | error e u =>
    rw [ex] at h
    cases h

/-- Declarations end before the end of the tokens or, in a block, before its closing brace. -/
theorem peek_of_declarations {inBlock : Bool} {p : List Stmt} {t : State}
    (h : declarations n inBlock s = .ok p t) : t.peek.kind = .eof ∨ inBlock ∧ t.peek.kind = .rightBrace := by
  induction n generalizing s p with
  | zero => cases h
  | succ n ih =>
    rw [declarations,peek_bind] at h
    split at h
    · next stop =>
      cases h
      simpa using stop
    · obtain ⟨v,u,-,h⟩ := exists_of_bind_eq_ok h
      cases v with
      | none => exact ih h
      | some d =>
        obtain ⟨rest,w,others,h⟩ := exists_of_bind_eq_ok h
        cases h
        exact ih others

/-- Declarations that are not at their end go on with one that uses up a token. -/
theorem Call.Adequate.progress {inBlock : Bool} (adequate : c.Adequate) (form : c.form = .declarations inBlock)
    (more : c.state.peek.kind ≠ .eof) : ∃ v t, Parser.declaration (c.bound - 1) c.state = .ok v t ∧
      t.rest <:+ c.state.rest ∧ t.rest.length < c.state.rest.length := by
  obtain ⟨ended,enough⟩ := adequate
  rw [form,Form.need] at enough
  obtain ⟨v,t,e,on,less⟩ := declaration_eq_ok (n := c.bound - 1) (by omega) ended
  have two := ended.two_le more
  exact ⟨v,t,e,on.rest,by omega⟩

/-- Skipping passes no word that starts a statement, and a semicolon only as the last thing. -/
theorem skip_spec (last : Token) {ts : List Token} (ended : Ended ts) :
    ∃ passed, ts = passed ++ (skip last ts).2 ∧ (∀ t ∈ passed, startsStatement t.kind = false) ∧
      (∀ t ∈ (last :: passed).dropLast, t.kind ≠ .semicolon) ∧
      ((skip last ts).1.kind = .eof ∨ (skip last ts).1.kind = .semicolon ∨
        ∃ t rest, (skip last ts).2 = t :: rest ∧ startsStatement t.kind) := by
  fun_induction skip last ts with
  | case1 last =>
    obtain ⟨us,e,same,-,-⟩ := ended
    simp at same
  | case2 last t rest stop =>
    refine ⟨[],rfl,List.forall_mem_nil _,List.forall_mem_nil _,?_⟩
    simp only [Bool.or_eq_true,decide_eq_true_eq] at stop
    rcases stop with (eof | semicolon) | word
    · exact .inl eof
    · exact .inr (.inl semicolon)
    · exact .inr (.inr ⟨t,rest,rfl,word⟩)
  | case3 last t rest go empty =>
    obtain rfl := List.isEmpty_iff.mp empty
    refine ⟨[],rfl,List.forall_mem_nil _,List.forall_mem_nil _,.inl ?_⟩
    obtain ⟨us,e,same,kind,-⟩ := ended
    obtain ⟨rfl,rfl⟩ : us = [] ∧ t = e := by
      cases us with
      | nil => simpa using same
      | cons u us => simp at same
    exact kind
  | case4 last t rest go more ih =>
    simp only [Bool.or_eq_true,decide_eq_true_eq,not_or,Bool.not_eq_true] at go
    have rest' : Ended rest := ended.of_suffix (List.suffix_cons t rest) fun e => more (List.isEmpty_iff.mpr e)
    obtain ⟨passed,split,words,semicolons,stop⟩ := ih rest'
    refine ⟨t :: passed,congrArg (t :: ·) split,List.forall_mem_cons.mpr ⟨go.2,words⟩,?_,stop⟩
    rw [List.dropLast_cons_cons]
    exact List.forall_mem_cons.mpr ⟨go.1.2,semicolons⟩

end

/-! ## Errors of scanning -/

theorem tokensFrom_ne_nil (p : Pos) (ps : List Piece) : tokensFrom p ps ≠ [] := by
  induction ps generalizing p with
  | nil => exact List.cons_ne_nil _ _
  | cons x ps ih =>
    cases x with
    | token => exact List.cons_ne_nil _ _
    | _ => exact ih _

/-- Errors of scanning stand one behind another, at no token and before the last one. -/
theorem scanErrors_apart {p : Pos} {ps : List Piece} (some : ∀ x ∈ ps, x.text ≠ []) :
    ((scanErrorsFrom p ps).Pairwise fun d e => d.pos.before e.pos) ∧
      ∀ d ∈ scanErrorsFrom p ps, (∀ t ∈ tokensFrom p ps, d.pos ≠ t.pos) ∧
        ∀ e, (tokensFrom p ps).getLast? = Option.some e → d.pos.before e.pos := by
  induction ps generalizing p with
  | nil => exact ⟨.nil,List.forall_mem_nil _⟩
  | cons x ps ih =>
    rw [List.forall_mem_cons] at some
    obtain ⟨ordered,apart⟩ := ih some.2 (p := p.after x.text)
    obtain ⟨c,cs,text⟩ := List.exists_cons_of_ne_nil some.1
    have far : p.before (p.after x.text) := text ▸ p.before_after_cons c cs
    have behind : ∀ t ∈ tokensFrom (p.after x.text) ps, p.before t.pos := fun t ht =>
      Pos.before_of_not_before far ((tokensFrom_ordered some.2).2 t ht)
    have errors : ∀ e ∈ scanErrorsFrom (p.after x.text) ps, p.before e.pos := fun e he =>
      Pos.before_of_not_before far (not_before_of_mem_scanErrors he)
    have tokens : ∀ t ∈ tokensFrom (p.after x.text) ps, p ≠ t.pos := fun t ht same =>
      p.not_before_self (same ▸ behind t ht)
    have last : ∀ e, (tokensFrom (p.after x.text) ps).getLast? = Option.some e → p.before e.pos := fun e he =>
      behind e (List.mem_of_getLast? he)
    cases x with
    | stray c | unterminated text =>
      exact ⟨List.pairwise_cons.mpr ⟨errors,ordered⟩,List.forall_mem_cons.mpr ⟨⟨tokens,last⟩,apart⟩⟩
    | blank c | comment text => exact ⟨ordered,apart⟩
    | token kind spelling literal =>
      refine ⟨ordered,fun d hd => ⟨?_,fun e he => ?_⟩⟩
      · refine List.forall_mem_cons.mpr ⟨fun same => ?_,(apart d hd).1⟩
        have behind := errors d hd
        rw [same] at behind
        exact p.not_before_self behind
      · refine (apart d hd).2 e ?_
        rw [tokensFrom,List.getLast?_cons] at he
        cases only : (tokensFrom (p.after (Piece.token kind spelling literal).text) ps).getLast? with
        | none => exact absurd (List.getLast?_eq_none_iff.mp only) (tokensFrom_ne_nil _ _)
        | some t =>
          rw [only] at he
          exact he

/-! ## The main statement -/

/-- Where skipping stops: behind a semicolon, before a word that starts a statement, or at the end. -/
def State.Stops (s : State) : Prop :=
  s.last.kind = .semicolon ∨ startsStatement s.peek.kind ∨ s.last.kind = .eof

/-- Synchronizing passes no word that starts a statement, and a semicolon only as the last thing. -/
structure State.Synchronized (s t : State) : Prop where
  stops : t.Stops
  errors : t.errors = s.errors
  passed : ∃ passed, s.rest = passed ++ t.rest ∧ (∀ u ∈ passed, startsStatement u.kind = false) ∧
    ∀ u ∈ (s.last :: passed).dropLast, u.kind ≠ .semicolon

theorem synchronized (s : State) (ended : s.Ended) : ∃ t, synchronize s = .ok () t ∧ s.Synchronized t := by
  obtain ⟨passed,split,words,semicolons,stop⟩ := skip_spec s.last ended
  refine ⟨s.skipped,rfl,?_,rfl,passed,split,words,semicolons⟩
  rcases stop with eof | semicolon | ⟨t,rest,ahead,word⟩
  · exact .inr (.inr eof)
  · exact .inl semicolon
  · refine .inr (.inl ?_)
    have next : s.skipped.peek = t := by simp only [State.peek,State.skipped,ahead,List.headD_cons]
    rw [next]
    exact word

/-- A source of which nothing has been read. -/
def State.ofSource (source : String) : State := { last := default, rest := (scan source).tokens }

/-- The call that parses a source. -/
def Call.ofSource (source : String) : Call :=
  ⟨enough (scan source).tokens.length,.declarations false,.ofSource source⟩

/-- Parsing reaches the end of every source and loses no error of scanning. No larger bound on nested calls
makes a difference. Wherever declarations are read, one more uses up a token, and synchronizing stops where
one can start. In the end only the last token is left, which is the one for the end and stands behind every
error of scanning. Each of these errors is found once among all errors, which are sorted by position. The
other errors stand at tokens, and they are no fewer than the declarations that were given up. -/
theorem parsing_reaches_end (source : String) : ∃ program final e,
    (∀ n ≥ enough (scan source).tokens.length, declarations n false (.ofSource source) = .ok program final) ∧
    (∀ c ∈ (Call.ofSource source).all, ∀ inBlock, c.form = .declarations inBlock → c.state.peek.kind ≠ .eof →
      ∃ v t, declaration (c.bound - 1) c.state = .ok v t ∧
        t.rest <:+ c.state.rest ∧ t.rest.length < c.state.rest.length) ∧
    (∀ s : State, s.Ended → ∃ t, synchronize s = .ok () t ∧ s.Synchronized t) ∧
    (final.rest = [e] ∧ (scan source).tokens.getLast? = some e ∧ e.kind = .eof ∧
      ∀ d ∈ (scan source).errors, d.pos.before e.pos) ∧
    parse source = ⟨program,Diagnostic.sort ((scan source).errors ++ final.errors.reverse)⟩ ∧
    (parse source).errors.Pairwise (fun d e => ¬e.pos.before d.pos) ∧
    (parse source).errors.Perm ((scan source).errors ++ final.errors) ∧
    (∀ d ∈ (scan source).errors, (parse source).errors.count d = 1) ∧
    (∀ d ∈ final.errors, ∃ t ∈ (scan source).tokens, d.pos = t.pos) ∧
    (Call.ofSource source).all.countP Call.givenUp ≤ final.errors.length := by
  set ts := (scan source).tokens
  set start := State.ofSource source
  set run := Call.ofSource source
  have ended : start.Ended := ended_scan source
  have bound : 8 * start.rest.length + 4 ≤ enough ts.length := by
    show 8 * ts.length + 4 ≤ enough ts.length
    unfold enough
    omega
  have adequate : run.Adequate := ⟨ended,bound⟩
  obtain ⟨program,final,read,on⟩ : ∃ p t, declarations (enough ts.length) false start = .ok p t ∧ Onward start t :=
    declarations_eq_ok bound ended
  have pays : Pays run.lost start (declarations (enough ts.length) false start) := Call.pays run adequate
  have finish : final.peek.kind = .eof := (peek_of_declarations read).resolve_right fun h => Bool.false_ne_true h.1
  obtain ⟨vs,ahead⟩ := on.ended.rest_eq
  have left := on.ended.le_one finish
  rw [ahead,List.length_cons] at left
  obtain rfl := List.length_eq_zero_iff.mp (Nat.le_zero.mp (Nat.le_of_succ_le_succ left))
  have last : ts.getLast? = some final.peek := by
    obtain ⟨front,split⟩ := on.rest
    rw [ahead] at split
    rw [show ts = front ++ [final.peek] from split.symm,List.getLast?_concat]
  have pieces : ∀ x ∈ pieces source.toList, x.text ≠ [] := fun x hx => text_ne_nil_of_mem_pieces hx
  obtain ⟨ordered,apart⟩ := scanErrors_apart (p := .start) pieces
  have parsed : parse source = ⟨program,Diagnostic.sort ((scan source).errors ++ final.errors.reverse)⟩ := by
    rw [parse,parseScan]
    simp only [show declarations (enough (scan source).tokens.length) false
      { last := default, rest := (scan source).tokens } = .ok program final from read]
  have all : (parse source).errors.Perm ((scan source).errors ++ final.errors) := by
    rw [parsed]
    exact (List.mergeSort_perm _ _).trans ((List.reverse_perm final.errors).append_left _)
  have places : ∀ d ∈ final.errors, ∃ t ∈ ts, d.pos = t.pos := by
    have stays := (statementsStay (S := fun p => ∃ t ∈ ts, p = t.pos) (enough ts.length)).declarations false start
      ⟨List.ne_nil_of_length_pos ended.pos,fun t ht => ⟨t,ht,rfl⟩,List.forall_mem_nil _⟩
    rw [read] at stays
    cases stays with
    | ok _ within => exact within.errors
  refine ⟨program,final,final.peek,fun n more => ?_,fun c mem inBlock form more => ?_,synchronized,
    ⟨ahead,last,finish,fun d hd => (apart d hd).2 _ last⟩,parsed,?_,all,fun d hd => ?_,places,?_⟩
  · exact ((statementsUnbounded _).declarations more bound ended).symm.trans read
  · exact (adequate.within _ c mem).progress form more
  · rw [parsed]
    exact pairwise_sort _
  · have once : (scan source).errors.count d = 1 := by
      refine List.count_eq_one_of_mem ?_ hd
      refine List.Pairwise.imp (fun {d e} early same => ?_) ordered
      rw [same] at early
      exact Pos.not_before_self _ early
    have other : d ∉ final.errors := fun mem => by
      obtain ⟨t,ht,same⟩ := places d mem
      exact (apart d hd).1 t ht same
    rw [all.count_eq,List.count_append,once,List.count_eq_zero_of_not_mem other]
  · rw [read] at pays
    cases pays with
    | ok grew => exact (Nat.zero_add _).symm.trans_le grew

/-- Three declarations in a block, which are given up, and so is the block without its closing brace. -/
def unfinished : String := "\x7b print ; var 1; @ fun"

example : (Call.ofSource unfinished).lost = 4 := by decide +kernel

theorem parsing_reaches_end_unfinished : ∃ program final,
    declarations (enough (scan unfinished).tokens.length + 1) false (.ofSource unfinished) = .ok program final ∧
    ⟨.scan (.strayCharacter '@'),⟨1,18⟩,.none⟩ ∈ (scan unfinished).errors ∧
    (parse unfinished).errors.count ⟨.scan (.strayCharacter '@'),⟨1,18⟩,.none⟩ = 1 ∧
    (Call.ofSource unfinished).all.countP Call.givenUp = 4 ∧ 4 ≤ final.errors.length := by
  have stray : (⟨.scan (.strayCharacter '@'),⟨1,18⟩,.none⟩ : Diagnostic) ∈ (scan unfinished).errors := by
    decide +kernel
  have lost : (Call.ofSource unfinished).all.countP Call.givenUp = 4 := by decide +kernel
  obtain ⟨program,final,e,read,-,-,-,-,-,-,once,-,own⟩ := parsing_reaches_end unfinished
  exact ⟨program,final,read _ (Nat.le_succ _),stray,once _ stray,lost,lost.symm.trans_le own⟩

end Parser
end Lox
