import Lox.Proofs.Ast.Wording

/-! # What the parsers of statements read

Each statement that is read in silence is one of the grammar, with its words between the states.
A branch takes the `else` behind it, so a statement that would take one has none behind it.
-/
namespace Lox

open Word

theorem separated_cons_of_ne_nil (ws : List Word) {wss : List (List Word)} (h : wss ≠ []) :
    separated (ws :: wss) = ws ++ fixed .comma :: separated wss := by
  cases wss with
  | nil => exact absurd rfl h
  | cons vs wss => rfl

theorem Expr.Grammatical.clause {e : Expr} (h : e.Grammatical) : e.GrammaticalClause := by
  cases e with
  | literal value _ =>
    cases value with
    | always => exact h.elim
    | _ => exact h
  | _ => exact h

namespace Parser
variable {b : Nat} {s : State}

/-- The words of some names with commas between them. -/
def nameWords (ps : List Name) : List Word := separated (ps.map fun p => [identifier p.text])

theorem parameters_read {n count : Nat} (enough : 8 * s.rest.length ≤ n) (ended : s.Ended) :
    Reads s.rest.length s.rest.length s (parameters n count) fun ps t =>
      count ≤ maxArguments →
        Between s (nameWords ps) t ∧ count + ps.length ≤ maxArguments ∧ ps ≠ [] := by
  induction n generalizing count s with
  | zero =>
    have := ended.pos
    omega
  | succ n ih =>
    rw [parameters_eq]
    have rest : ∀ {t : State}, t.Ended → t.rest.length ≤ s.rest.length →
        Reads s.rest.length s.rest.length t (furtherParameters n count)
          fun ps u => count < maxArguments →
            Between t (nameWords ps) u ∧ count + ps.length ≤ maxArguments ∧ ps ≠ [] := by
      intro t ended less
      refine (reads_expectName ended _ less).bind fun head t' _ on less' => ?_
      refine (reads_atKind on.ended .comma).bind fun comma _ ex _ _ => ?_
      cases ex
      split
      · next comma =>
        have two := on.ended.two_le fun e => by simp [e] at comma
        refine reads_past on.ended (of_decide_eq_true comma) (by decide) (by decide)
          fun u ended' less'' => ?_
        refine ((ih (by omega) ended').within (by omega)).bind fun others v _ on' less₃ => ?_
        refine .pure on'.ended (by omega) fun told comma _ name few => ?_
        obtain ⟨between,size,more⟩ := told few
        refine ⟨?_,by rw [List.length_cons]; omega,List.cons_ne_nil _ _⟩
        rw [nameWords,List.map_cons,separated_cons_of_ne_nil _ (by simp [more])]
        exact (name.trans comma).trans between
      · exact .pure on.ended (by omega) fun _ name few => ⟨name,few,List.cons_ne_nil _ _⟩
    split
    · refine (reads_peek ended).bind fun u t ex on less => ?_
      refine (reads_report on.ended u .tooManyParameters (R := fun _ _ => False)).bind
        fun _ t' _ on' less' => ?_
      exact (rest on'.ended (by omega)).weaken (Nat.le_refl _) (Nat.le_refl _)
        fun _ _ _ loud => loud.elim
    · next few =>
      exact (rest ended (Nat.le_refl _)).weaken (Nat.le_refl _) (Nat.le_refl _)
        fun _ _ told _ => told (Nat.lt_of_not_le few)

/-! ## Parts of statements -/

section
variable {n : Nat} (enough : 8 * s.rest.length + 1 ≤ n) (ended : s.Ended)
include enough ended

theorem expression_reads : Reads (s.rest.length - 1) (max 1 (s.rest.length - 1)) s
    (expression n lowestLevel) fun e t => Between s e.words t ∧ e.Grammatical :=
  ((expressionsRead n).expression enough ended).weaken (Nat.le_refl _) (Nat.le_refl _)
    fun _ _ ⟨between,operand⟩ => ⟨between,operand.grammatical⟩

/-- An expression and the token behind it. -/
theorem closed_reads {k : Token.Kind} (hk : k ≠ .eof) (one : k.spelling? ≠ none) (e : ParseError)
    {α : Type} (f : Expr → α) {Q : α → State → Prop}
    (hq : ∀ d t, Between s (d.words ++ [fixed k]) t → d.Grammatical → Q (f d) t) :
    Reads (s.rest.length - 1) (max 1 (s.rest.length - 1)) s
      (do
        let d ← expression n lowestLevel
        let _ ← expect k e
        return f d) Q := by
  refine (expression_reads enough ended).bind fun d t _ on less => ?_
  refine reads_over on.ended hk one _ (by omega) fun u ended' less' => ?_
  refine .pure ended' (by omega) fun close ⟨between,grammatical⟩ => ?_
  exact hq d u (between.trans close) grammatical

theorem expressionStatement_reads :
    Reads (s.rest.length - 1) (max 1 (s.rest.length - 1)) s (expressionStatement n) fun d t =>
      Between s d.words t ∧ ∃ e, d = .expression e ∧ e.Grammatical :=
  closed_reads enough ended (by decide) (by decide) _ _ fun e _ between grammatical =>
    ⟨between,e,rfl,grammatical⟩

theorem variableDeclaration_reads :
    Reads (s.rest.length - 1) s.rest.length s (variableDeclaration n) fun d t =>
      (∃ ws, d.words = fixed .kwVar :: ws ∧ Between s ws t) ∧
        ∃ name init, d = .var name init ∧ Expr.GrammaticalOption init := by
  rw [variableDeclaration_eq]
  refine (reads_expectName ended _ (Nat.le_refl _)).bind fun name t _ on less => ?_
  have finish : ∀ {u : State} {init : Option Expr}, u.Ended → u.rest.length ≤ s.rest.length →
      Reads (s.rest.length - 1) s.rest.length u (variableTail name init)
        fun d v => Between t (initializerWords init) u → Expr.GrammaticalOption init →
          Between s [identifier name.text] t →
            (∃ ws, d.words = fixed .kwVar :: ws ∧ Between s ws v) ∧
              ∃ name init, d = .var name init ∧ Expr.GrammaticalOption init := by
    intro u init ended' less'
    refine reads_over ended' (by decide) (by decide) _ less' fun v ended'' less'' => ?_
    refine .pure ended'' (by omega) fun close value grammatical first => ?_
    exact ⟨⟨_,rfl,(first.trans value).trans close⟩,name,init,rfl,grammatical⟩
  refine (reads_atKind on.ended .equal).bind fun equal u ex _ _ => ?_
  cases ex
  split
  · next equal =>
    have two := on.ended.two_le fun e => by simp [e] at equal
    refine reads_past on.ended (of_decide_eq_true equal) (by decide) (by decide)
      fun u ended' less' => ?_
    refine ((expression_reads (by omega) ended').within (by omega)).bind fun e v _ on' less'' => ?_
    refine (finish on'.ended (by omega)).weaken (Nat.le_refl _) (Nat.le_refl _) ?_
    intro d w told ⟨between,grammatical⟩ equals _ first
    exact told (equals.trans between) grammatical first
  · refine (finish on.ended (by omega)).weaken (Nat.le_refl _) (Nat.le_refl _) ?_
    intro d w told _ first
    exact told (.refl t) trivial first

omit enough in
theorem jumpStatement_reads (t : Token) (j : Jump) :
    Reads (s.rest.length - 1) s.rest.length s (jumpStatement t j) fun d u =>
      Between s [fixed .semicolon] u ∧ d = .jump t.pos j :=
  reads_over ended (by decide) (by decide) _ (Nat.le_refl _) fun _ ended' less =>
    .pure ended' less fun close => ⟨close,rfl⟩

theorem printStatement_reads (t : Token) :
    Reads (s.rest.length - 1) (max 1 (s.rest.length - 1)) s (printStatement n t) fun d u =>
      (∃ ws, d.words = fixed .kwPrint :: ws ∧ Between s ws u) ∧
        ∃ e, d = .print t.pos e ∧ e.Grammatical :=
  closed_reads enough ended (by decide) (by decide) _ _ fun e _ between grammatical =>
    ⟨⟨_,rfl,between⟩,e,rfl,grammatical⟩

theorem returnStatement_reads (t : Token) :
    Reads (s.rest.length - 1) s.rest.length s (returnStatement n t) fun d u =>
      (∃ ws, d.words = fixed .kwReturn :: ws ∧ Between s ws u) ∧
        ∃ value, d = .leave t.pos value ∧ Expr.GrammaticalOption value := by
  have pos := ended.pos
  refine (reads_atKind ended .semicolon).bind fun semicolon u ex _ _ => ?_
  cases ex
  split
  · refine reads_over ended (by decide) (by decide) _ (Nat.le_refl _) fun v ended' less => ?_
    exact .pure ended' less fun close _ => ⟨⟨_,rfl,close⟩,none,rfl,trivial⟩
  · have value : Reads (s.rest.length - 1) (max 1 (s.rest.length - 1)) s
        (some <$> expression n lowestLevel) fun v u =>
          Between s (Expr.optionWords v) u ∧ Expr.GrammaticalOption v :=
      (expression_reads enough ended).map fun _ _ => id
    refine (value.within (by omega)).bind fun v u _ on less => ?_
    refine reads_over on.ended (by decide) (by decide) _ (by omega) fun w ended' less' => ?_
    refine .pure ended' (by omega) fun close ⟨between,grammatical⟩ _ => ?_
    exact ⟨⟨_,rfl,between.trans close⟩,v,rfl,grammatical⟩

/-- The words of the first clause of a `for`, with its semicolon. -/
def clauseStartWords : Option Stmt → List Word
  | none => [fixed .semicolon]
  | some d => d.words

theorem forInitializer_reads :
    Reads (s.rest.length - 1) s.rest.length s (forInitializer n) fun init t =>
      Between s (clauseStartWords init) t ∧ ∀ d ∈ init, d.Grammatical ∧ d.IsInitializer := by
  have pos := ended.pos
  refine (reads_peek ended).bind fun t u ex _ _ => ?_
  cases ex
  have other : Reads (s.rest.length - 1) s.rest.length s (some <$> expressionStatement n)
      fun init t => True → Between s (clauseStartWords init) t ∧
        ∀ d ∈ init, d.Grammatical ∧ d.IsInitializer := by
    refine ((expressionStatement_reads enough ended).within (by omega)).map ?_
    rintro _ t ⟨between,e,rfl,grammatical⟩ -
    exact ⟨between,fun _ h => by cases h; exact ⟨grammatical,trivial⟩⟩
  cases kind : s.peek.kind with
  | semicolon =>
    refine reads_past ended kind (by decide) (by decide) fun t ended' less => ?_
    exact .pure ended' less fun between _ => ⟨between,nofun⟩
  | kwVar =>
    have two := ended.two_le (by simp [kind])
    refine reads_past ended kind (by decide) (by decide) fun t ended' less => ?_
    refine ((variableDeclaration_reads (by omega) ended').map ?_).weaken (by omega) (by omega)
      fun _ _ => id
    rintro _ u ⟨⟨ws,words,between⟩,name,init,rfl,grammatical⟩ first -
    refine ⟨?_,fun _ h => by cases h; exact ⟨grammatical,trivial⟩⟩
    rw [clauseStartWords,words]
    exact first.trans between
  | _ => exact other

theorem forCondition_reads (t : Token) :
    Reads (s.rest.length - 1) s.rest.length s (forCondition n t) fun e u =>
      Between s (e.words ++ [fixed .semicolon]) u ∧ e.GrammaticalClause := by
  have pos := ended.pos
  refine (reads_atKind ended .semicolon).bind fun semicolon u ex _ _ => ?_
  cases ex
  split
  · next semicolon =>
    refine reads_past ended (of_decide_eq_true semicolon) (by decide) (by decide)
      fun v ended' less => ?_
    exact .pure ended' less fun between _ => ⟨between,trivial⟩
  · exact (closed_reads enough ended (by decide) (by decide) _ id
      fun _ _ between grammatical _ => ⟨between,grammatical.clause⟩).within (by omega)

theorem forIncrement_reads :
    Reads (s.rest.length - 1) s.rest.length s (forIncrement n) fun v t =>
      Between s (Expr.optionWords v ++ [fixed .rightParen]) t ∧ Expr.GrammaticalOption v := by
  have pos := ended.pos
  refine (reads_atKind ended .rightParen).bind fun close u ex _ _ => ?_
  cases ex
  split
  · next close =>
    refine reads_past ended (of_decide_eq_true close) (by decide) (by decide) fun v ended' less => ?_
    exact .pure ended' less fun between _ => ⟨between,trivial⟩
  · exact (closed_reads enough ended (by decide) (by decide) _ some
      fun _ _ between grammatical _ => ⟨between,grammatical⟩).within (by omega)

end

/-- A condition in parentheses, with what is made of it behind its words. -/
theorem condition_reads {n a : Nat} (enough : 8 * s.rest.length ≤ n) (ended : s.Ended)
    {next : Expr → Parser Stmt} {Q : Stmt → State → Prop} {e e' : ParseError}
    (hb : s.rest.length ≤ b)
    (rest : ∀ d (t : State), t.Ended → t.rest.length ≤ s.rest.length - 1 →
      Reads a b t (next d) fun v u =>
        d.Grammatical → Between s (parenthesized d.words) t → Q v u) :
    Reads a b s (conditionThen n e e' next) Q := by
  refine reads_over ended (by decide) (by decide) _ hb fun t ended₁ less₁ => ?_
  have := ended₁.pos
  refine ((expression_reads (by omega) ended₁).within (by omega)).bind fun d u _ on less₂ => ?_
  refine reads_over on.ended (by decide) (by decide) _ (by omega) fun v ended₂ less₃ => ?_
  refine (rest d v ended₂ (by omega)).weaken (Nat.le_refl _) (Nat.le_refl _) ?_
  intro _ w told close ⟨inside,grammatical⟩ paren
  exact told grammatical ((paren.trans inside).trans close)

/-! ## Statements -/

/-- A declaration or statement behind its first word. -/
theorem reads_behind {x : Parser Stmt} {k : Token.Kind} {Q : Stmt → State → Prop} (ended : s.Ended)
    (kind : s.peek.kind = k) (hk : k ≠ .eof) (one : k.spelling? ≠ none)
    (rest : ∀ t : State, t.Ended → t.rest.length ≤ s.rest.length - 1 →
      Reads (s.rest.length - 1) (s.rest.length - 1) t x fun d u =>
        (∃ ws, d.words = fixed k :: ws ∧ Between t ws u) ∧ Q d u) :
    Reads (s.rest.length - 1) (max 1 (s.rest.length - 1)) s (do let _ ← advance; x)
      fun d u => True → Between s d.words u ∧ Q d u := by
  refine reads_past ended kind hk one fun t ended' less => ?_
  refine (rest t ended' less).weaken (Nat.le_refl _) (by omega) ?_
  rintro d u ⟨⟨ws,words,between⟩,told⟩ first -
  exact ⟨words ▸ first.trans between,told⟩

/-- A statement that is no declaration and may stand before what follows. -/
structure IsStatement (d : Stmt) (t : State) : Prop where
  grammatical : d.Grammatical
  statement : ¬d.IsDeclaration
  next : d.TakesElse → t.peek.kind ≠ .kwElse

theorem IsStatement.of_simple {d : Stmt} {t : State} (h : d.Grammatical) (statement : ¬d.IsDeclaration)
    (ends : ¬d.TakesElse) : IsStatement d t :=
  ⟨h,statement,fun takes => absurd takes ends⟩

theorem words_forLoop (pos : Pos) (init : Option Stmt) (condition : Expr) (increment : Option Expr)
    (body : Stmt) : (forLoop pos init condition increment body).words =
      [fixed .kwFor] ++ [fixed .leftParen] ++ clauseStartWords init ++
        (condition.words ++ [fixed .semicolon]) ++
        (Expr.optionWords increment ++ [fixed .rightParen]) ++ body.words := by
  cases init <;> simp [forLoop,Stmt.words,clauseWords,clauseStartWords]

theorem isStatement_forLoop {pos : Pos} {init : Option Stmt} {condition : Expr}
    {increment : Option Expr} {body : Stmt} {t : State}
    (first : ∀ d ∈ init, d.Grammatical ∧ d.IsInitializer) (test : condition.GrammaticalClause)
    (last : Expr.GrammaticalOption increment) (isBody : IsStatement body t) :
    IsStatement (forLoop pos init condition increment body) t := by
  cases init with
  | none => exact ⟨⟨test,isBody.grammatical,isBody.statement,last⟩,id,isBody.next⟩
  | some d =>
    obtain ⟨grammatical,initializer⟩ := first d rfl
    exact ⟨⟨grammatical,initializer,test,isBody.grammatical,isBody.statement,last⟩,id,isBody.next⟩

/-- A declaration that is given up has met an error. -/
theorem reads_recovering {x : Parser Stmt} {Q : Stmt → State → Prop}
    (h : Reads (s.rest.length - 1) (max 1 (s.rest.length - 1)) s x Q) :
    Reads (max 1 (s.rest.length - 1)) b s (recovering x) fun v t => ∃ d, v = some d ∧ Q d t := by
  refine ⟨h.gets.recovering,fun {v t} spelled e quiet => ?_⟩
  rw [recovering_eq] at e
  have gets := h.gets
  cases ex : x s with
  | ok d u =>
    rw [ex] at e
    cases e
    exact ⟨d,rfl,h.tells spelled ex quiet⟩
  | error _ u =>
    rw [ex] at e gets
    cases e
    cases gets with
    | error _ grew _ => exact absurd quiet (Nat.not_le_of_lt grew)

/-- What the parsers of statements read under a bound on nested calls that is large enough. -/
structure SentencesRead (n : Nat) : Prop where
  declaration {s : State} {b : Nat} : 8 * s.rest.length + 3 ≤ n → s.Ended →
    Reads (max 1 (s.rest.length - 1)) b s (declaration n) fun v t =>
      ∃ d, v = some d ∧ Between s d.words t ∧ d.Grammatical
  declarations {inBlock : Bool} {s : State} {b : Nat} : 8 * s.rest.length + 4 ≤ n → s.Ended →
    Reads s.rest.length b s (declarations n inBlock) fun body t =>
      Between s (statementWords body) t ∧ GrammaticalList body ∧
        (inBlock = false → t.peek.kind = .eof)
  block {s : State} : 8 * s.rest.length + 5 ≤ n → s.Ended →
    Reads (s.rest.length - 1) s.rest.length s (block n) fun body t =>
      Between s (statementWords body ++ [fixed .rightBrace]) t ∧ GrammaticalList body
  routine {kind : RoutineKind} {name : Name} {s : State} : 8 * s.rest.length ≤ n → s.Ended →
    Reads (s.rest.length - 1) s.rest.length s (routine n kind name) fun r t =>
      (∃ ws, r.words = identifier name.text :: ws ∧ Between s ws t) ∧ r.Grammatical
  classDeclaration {s : State} : 8 * s.rest.length ≤ n → s.Ended →
    Reads (s.rest.length - 1) s.rest.length s (classDeclaration n) fun d t =>
      (∃ ws, d.words = fixed .kwClass :: ws ∧ Between s ws t) ∧ d.Grammatical
  methods {s : State} : 8 * s.rest.length ≤ n → s.Ended →
    Reads s.rest.length s.rest.length s (methods n) fun rs t =>
      Between s (methodWords rs) t ∧ GrammaticalMethods rs
  statement {s : State} : 8 * s.rest.length + 2 ≤ n → s.Ended →
    Reads (s.rest.length - 1) (max 1 (s.rest.length - 1)) s (statement n) fun d t =>
      Between s d.words t ∧ IsStatement d t

namespace SentencesRead
variable {n : Nat} (h : SentencesRead n)
include h

theorem declarations_succ {inBlock : Bool} (enough : 8 * s.rest.length + 4 ≤ n + 1)
    (ended : s.Ended) :
    Reads s.rest.length b s (Parser.declarations (n + 1) inBlock) fun body t =>
      Between s (statementWords body) t ∧ GrammaticalList body ∧
        (inBlock = false → t.peek.kind = .eof) := by
  rw [Parser.declarations]
  refine (reads_peek ended).bind fun t u ex _ _ => ?_
  cases ex
  split
  · next finish =>
    refine .pure ended (Nat.le_refl _) fun _ => ⟨.refl s,trivial,fun top => ?_⟩
    simpa [top] using finish
  · next more =>
    have two := ended.two_le fun e => by simp [e] at more
    refine (h.declaration (by omega) ended).bind fun v t _ on less => ?_
    cases v with
    | none =>
      refine (h.declarations (by omega) on.ended).weaken (by omega) (Nat.le_refl _) ?_
      rintro body u - ⟨d,none,-⟩
      cases none
    | some d =>
      refine (h.declarations (by omega) on.ended).bind fun body u _ on' less' => ?_
      refine .pure on'.ended (by omega) ?_
      rintro ⟨between,grammatical,finish⟩ ⟨_,same,first,grammatical'⟩ -
      cases same
      exact ⟨first.trans between,⟨grammatical',grammatical⟩,finish⟩

theorem block_succ (enough : 8 * s.rest.length + 5 ≤ n + 1) (ended : s.Ended) :
    Reads (s.rest.length - 1) s.rest.length s (Parser.block (n + 1)) fun body t =>
      Between s (statementWords body ++ [fixed .rightBrace]) t ∧ GrammaticalList body := by
  rw [Parser.block]
  refine (h.declarations (by omega) ended).bind fun body t _ on less => ?_
  by_cases finish : t.peek.kind = .eof
  · -- Behind the last declaration is the end, and the block is not closed.
    have on' := onward_advance on.ended
    refine .of_error (e := .abort) (t := { t.advance with
      errors := ⟨.parse .unclosedBlock,t.peek.pos,place t.peek⟩ :: t.advance.errors }) ?_
      ⟨on'.ended,on'.rest,on'.errors.trans (List.suffix_cons _ _)⟩
      (Nat.lt_succ_of_le on'.errors_le) (Nat.le_trans on'.length_le less)
    simp only [Bind.bind,EStateM.bind,advance_eq on.ended,finish]
    rfl
  · refine (reads_advance on.ended finish).bind fun u v _ on' less' => ?_
    split
    · next close =>
      refine .pure on'.ended (by omega) ?_
      rintro ⟨spelled,between'⟩ ⟨between,grammatical,-⟩
      rw [spelled.eq_fixed close (by decide)] at between'
      exact ⟨between.trans between',grammatical⟩
    · exact reads_giveUp on'.ended _ _ (by omega)

theorem routine_succ {kind : RoutineKind} {name : Name} (enough : 8 * s.rest.length ≤ n + 1)
    (ended : s.Ended) :
    Reads (s.rest.length - 1) s.rest.length s (Parser.routine (n + 1) kind name) fun r t =>
      (∃ ws, r.words = identifier name.text :: ws ∧ Between s ws t) ∧ r.Grammatical := by
  rw [routine_eq]
  refine reads_over ended (by decide) (by decide) _ (Nat.le_refl _) fun s' ended' less => ?_
  have finish : ∀ {u : State} {ps : List Name}, u.Ended → u.rest.length ≤ s'.rest.length →
      Reads (s.rest.length - 1) s.rest.length u (routineTail n kind name ps)
        fun r t => Between s' (nameWords ps) u → ps.length ≤ maxArguments →
          Between s [fixed .leftParen] s' →
            (∃ ws, r.words = identifier name.text :: ws ∧ Between s ws t) ∧ r.Grammatical := by
    intro u ps ended₁ less₁
    refine reads_over ended₁ (by decide) (by decide) _ (by omega) fun v ended₂ less₂ => ?_
    refine reads_over ended₂ (by decide) (by decide) _ (by omega) fun w ended₃ less₃ => ?_
    have := ended₃.pos
    refine ((h.block (by omega) ended₃).within (by omega)).bind fun body t _ on less₄ => ?_
    refine .pure on.ended (by omega) ?_
    rintro ⟨inside,grammatical⟩ brace close names few paren
    refine ⟨⟨_,rfl,?_⟩,few,grammatical⟩
    exact ((paren.trans names).trans close).trans (brace.trans inside)
  refine (reads_atKind ended' .rightParen).bind fun close u ex _ _ => ?_
  cases ex
  split
  · exact (finish ended' (Nat.le_refl _)).weaken (Nat.le_refl _) (Nat.le_refl _)
      fun _ _ told _ paren => told (.refl s') (Nat.zero_le _) paren
  · refine ((parameters_read (by omega) ended').within (by omega)).bind fun ps u _ on less' => ?_
    refine (finish on.ended less').weaken (Nat.le_refl _) (Nat.le_refl _) ?_
    intro r t told names _ paren
    obtain ⟨between,few,-⟩ := names (Nat.zero_le _)
    exact told between (by omega) paren

theorem methods_succ (enough : 8 * s.rest.length ≤ n + 1) (ended : s.Ended) :
    Reads s.rest.length s.rest.length s (Parser.methods (n + 1)) fun rs t =>
      Between s (methodWords rs) t ∧ GrammaticalMethods rs := by
  rw [Parser.methods]
  refine (reads_peek ended).bind fun t u ex _ _ => ?_
  cases ex
  split
  · exact .pure ended (Nat.le_refl _) fun _ => ⟨.refl s,trivial⟩
  · refine (reads_expectName ended _ (Nat.le_refl _)).bind fun name t _ on less => ?_
    refine ((h.routine (by omega) on.ended).within (by omega)).bind fun head u _ on' less' => ?_
    refine ((h.methods (by omega) on'.ended).within (by omega)).bind fun others v _ on'' less'' => ?_
    refine .pure on''.ended (by omega) ?_
    rintro ⟨between,grammatical⟩ ⟨⟨ws,words,inside⟩,grammatical'⟩ first -
    refine ⟨?_,grammatical',grammatical⟩
    rw [methodWords,words]
    exact (first.trans inside).trans between

theorem classDeclaration_succ (enough : 8 * s.rest.length ≤ n + 1) (ended : s.Ended) :
    Reads (s.rest.length - 1) s.rest.length s (Parser.classDeclaration (n + 1)) fun d t =>
      (∃ ws, d.words = fixed .kwClass :: ws ∧ Between s ws t) ∧ d.Grammatical := by
  rw [classDeclaration_eq]
  refine (reads_expectName ended _ (Nat.le_refl _)).bind fun name s' _ on less => ?_
  have finish : ∀ {u : State} {r : Option Reference}, u.Ended → u.rest.length ≤ s'.rest.length →
      Reads (s.rest.length - 1) s.rest.length u (classTail n name r)
        fun d t => Between s' (superclassWords r) u → Between s [identifier name.text] s' →
          (∃ ws, d.words = fixed .kwClass :: ws ∧ Between s ws t) ∧ d.Grammatical := by
    intro u r ended₁ less₁
    refine reads_over ended₁ (by decide) (by decide) _ (by omega) fun v ended₂ less₂ => ?_
    refine ((h.methods (by omega) ended₂).within (by omega)).bind fun members w _ on less₃ => ?_
    refine reads_over on.ended (by decide) (by decide) _ (by omega) fun x ended₃ less₄ => ?_
    refine .pure ended₃ (by omega) ?_
    rintro close ⟨inside,grammatical⟩ brace superclass first
    exact ⟨⟨_,rfl,(first.trans superclass).trans ((brace.trans inside).trans close)⟩,grammatical⟩
  refine (reads_atKind on.ended .less).bind fun derived u ex _ _ => ?_
  cases ex
  split
  · next derived =>
    have two := on.ended.two_le fun e => by simp [e] at derived
    refine reads_past on.ended (of_decide_eq_true derived) (by decide) (by decide)
      fun u ended₁ less₁ => ?_
    refine (reads_expectName ended₁ _ (by omega)).bind fun base v _ on' less₂ => ?_
    refine (finish on'.ended (by omega)).weaken (Nat.le_refl _) (Nat.le_refl _) ?_
    intro d t told name derived _ first
    exact told (derived.trans name) first
  · exact (finish on.ended (Nat.le_refl _)).weaken (Nat.le_refl _) (Nat.le_refl _)
      fun _ _ told _ first => told (.refl s') first

theorem branchTail_reads (enough : 8 * s.rest.length + 2 ≤ n) (ended : s.Ended) (pos : Pos) (d : Expr) :
    Reads (s.rest.length - 1) s.rest.length s (branchTail n pos d) fun c u => d.Grammatical →
      (∃ ws, c.words = fixed .kwIf :: (parenthesized d.words ++ ws) ∧ Between s ws u) ∧
        IsStatement c u := by
  have := ended.pos
  refine ((h.statement enough ended).within (by omega)).bind fun yes t _ on less => ?_
  refine (reads_atKind on.ended .kwElse).bind fun other _ ex _ _ => ?_
  cases ex
  split
  · next other =>
    have two := on.ended.two_le fun e => by simp [e] at other
    have other := of_decide_eq_true other
    refine reads_past on.ended other (by decide) (by decide) fun u ended' less' => ?_
    refine ((h.statement (by omega) ended').within (by omega)).bind fun no v _ on' less'' => ?_
    refine .pure on'.ended (by omega) ?_
    rintro ⟨inside',isNo⟩ otherwise - ⟨inside,isYes⟩ test
    refine ⟨⟨yes.words ++ fixed .kwElse :: no.words,?_,?_⟩,?_⟩
    · simp only [Stmt.words,List.cons_append,List.append_assoc]
    · exact inside.trans (otherwise.trans inside')
    · exact ⟨⟨test,isYes.grammatical,isYes.statement,fun takes => isYes.next takes other,
        isNo.grammatical,isNo.statement⟩,id,isNo.next⟩
  · next none =>
    refine .pure on.ended less ?_
    rintro - ⟨inside,isYes⟩ test
    refine ⟨⟨_,rfl,inside⟩,⟨test,isYes.grammatical,isYes.statement⟩,id,fun _ other => ?_⟩
    exact none (decide_eq_true other)

theorem forTail_reads (enough : 8 * s.rest.length ≤ n) (ended : s.Ended) (t : Token) :
    Reads (s.rest.length - 1) s.rest.length s (forTail n t) fun d u =>
      (∃ ws, d.words = fixed .kwFor :: ws ∧ Between s ws u) ∧ IsStatement d u := by
  refine reads_over ended (by decide) (by decide) _ (Nat.le_refl _) fun u ended' less => ?_
  have := ended'.pos
  refine ((forInitializer_reads (by omega) ended').within (by omega)).bind fun init v _ on₁ less₁ => ?_
  refine ((forCondition_reads (by omega) on₁.ended _).within (by omega)).bind
    fun test w _ on₂ less₂ => ?_
  refine ((forIncrement_reads (by omega) on₂.ended).within (by omega)).bind
    fun increment z _ on₃ less₃ => ?_
  refine ((h.statement (by omega) on₃.ended).within (by omega)).bind fun body _ _ on₄ less₄ => ?_
  refine .pure on₄.ended (by omega) ?_
  rintro ⟨inside,isBody⟩ ⟨between₃,last⟩ ⟨between₂,condition⟩ ⟨between₁,first⟩ paren
  refine ⟨⟨_,?_,(((paren.trans between₁).trans between₂).trans between₃).trans inside⟩,
    isStatement_forLoop first condition last isBody⟩
  rw [words_forLoop]
  rfl

theorem statement_succ (enough : 8 * s.rest.length + 2 ≤ n + 1) (ended : s.Ended) :
    Reads (s.rest.length - 1) (max 1 (s.rest.length - 1)) s (Parser.statement (n + 1)) fun d t =>
      Between s d.words t ∧ IsStatement d t := by
  rw [Parser.statement]
  refine (reads_peek ended).bind fun t s' ex _ _ => ?_
  cases ex
  cases kind : s.peek.kind with
  | kwPrint =>
    refine reads_behind ended kind (by decide) (by decide) fun t ended' less => ?_
    refine (printStatement_reads (by omega) ended' _).weaken (by omega) (by have := ended'.pos; omega) ?_
    rintro _ u ⟨between,e,rfl,grammatical⟩
    exact ⟨between,.of_simple grammatical id id⟩
  | kwReturn =>
    refine reads_behind ended kind (by decide) (by decide) fun t ended' less => ?_
    refine (returnStatement_reads (by omega) ended' _).weaken (by omega) (by omega) ?_
    rintro _ u ⟨between,e,rfl,grammatical⟩
    exact ⟨between,.of_simple grammatical id id⟩
  | kwIf =>
    refine reads_behind ended kind (by decide) (by decide) fun t ended₁ less₁ => ?_
    refine condition_reads (by omega) ended₁ less₁ fun d u ended₂ less₂ => ?_
    have := ended₂.pos
    refine (h.branchTail_reads (by omega) ended₂ _ d).weaken (by omega) (by omega) ?_
    intro c v told test between
    obtain ⟨⟨ws,words,inside⟩,statement⟩ := told test
    exact ⟨⟨_,words,between.trans inside⟩,statement⟩
  | kwWhile =>
    refine reads_behind ended kind (by decide) (by decide) fun t ended₁ less₁ => ?_
    refine condition_reads (by omega) ended₁ less₁ fun d u ended₂ less₂ => ?_
    have := ended₂.pos
    refine ((h.statement (by omega) ended₂).within (by omega)).bind fun body v _ on less₃ => ?_
    refine .pure on.ended (by omega) ?_
    rintro ⟨inside,isBody⟩ test between
    exact ⟨⟨_,rfl,between.trans inside⟩,⟨test,isBody.grammatical,isBody.statement,rfl⟩,id,isBody.next⟩
  | kwFor =>
    refine reads_behind ended kind (by decide) (by decide) fun t ended' less => ?_
    exact (h.forTail_reads (by omega) ended' _).weaken (by omega) less fun _ _ => id
  | kwBreak =>
    refine reads_behind ended kind (by decide) (by decide) fun t ended' less => ?_
    refine (jumpStatement_reads ended' _ _).weaken (by omega) (by omega) ?_
    rintro _ u ⟨close,rfl⟩
    exact ⟨⟨_,rfl,close⟩,.of_simple trivial id id⟩
  | kwContinue =>
    refine reads_behind ended kind (by decide) (by decide) fun t ended' less => ?_
    refine (jumpStatement_reads ended' _ _).weaken (by omega) (by omega) ?_
    rintro _ u ⟨close,rfl⟩
    exact ⟨⟨_,rfl,close⟩,.of_simple trivial id id⟩
  | leftBrace =>
    refine reads_behind ended kind (by decide) (by decide) fun t ended' less => ?_
    have := ended'.pos
    refine ((h.block (by omega) ended').within (by omega)).bind fun body u _ on less' => ?_
    refine .pure on.ended (by omega) ?_
    rintro ⟨inside,grammatical⟩
    exact ⟨⟨_,rfl,inside⟩,.of_simple grammatical id id⟩
  | _ =>
    refine (expressionStatement_reads (by omega) ended).weaken (Nat.le_refl _) (Nat.le_refl _) ?_
    rintro _ t ⟨between,e,rfl,grammatical⟩ -
    exact ⟨between,.of_simple grammatical id id⟩

theorem declaration_succ (enough : 8 * s.rest.length + 3 ≤ n + 1) (ended : s.Ended) :
    Reads (max 1 (s.rest.length - 1)) b s (Parser.declaration (n + 1)) fun v t =>
      ∃ d, v = some d ∧ Between s d.words t ∧ d.Grammatical := by
  rw [Parser.declaration]
  refine reads_recovering ?_
  refine (reads_peek ended).bind fun t u ex _ _ => ?_
  cases ex
  have statement : Reads (s.rest.length - 1) (max 1 (s.rest.length - 1)) s (Parser.statement n)
      fun d t => True → Between s d.words t ∧ d.Grammatical :=
    (h.statement (by omega) ended).weaken (Nat.le_refl _) (Nat.le_refl _)
      fun _ _ read _ => ⟨read.1,read.2.grammatical⟩
  cases kind : s.peek.kind with
  | kwClass =>
    refine reads_behind (Q := fun d _ => d.Grammatical) ended kind (by decide) (by decide) fun t ended' less => ?_
    exact (h.classDeclaration (by omega) ended').weaken (by omega) (by omega) fun _ _ => id
  | kwFun =>
    refine reads_behind (Q := fun d _ => d.Grammatical) ended kind (by decide) (by decide) fun t ended' less => ?_
    have two := ended'.pos
    refine (reads_expectName ended' _ (by omega)).bind fun name u _ on less' => ?_
    refine ((h.routine (by omega) on.ended).map ?_).weaken (by omega) (by omega) fun _ _ => id
    rintro r v ⟨⟨ws,words,between⟩,grammatical⟩ first
    refine ⟨⟨identifier name.text :: ws,?_,first.trans between⟩,grammatical⟩
    rw [Stmt.words,words]
  | kwVar =>
    refine reads_behind (Q := fun d _ => d.Grammatical) ended kind (by decide) (by decide) fun t ended' less => ?_
    have two := ended'.pos
    refine (variableDeclaration_reads (by omega) ended').weaken (by omega) (by omega) ?_
    rintro _ u ⟨between,name,init,rfl,grammatical⟩
    exact ⟨between,grammatical⟩
  | _ => exact statement

end SentencesRead

theorem sentencesRead (n : Nat) : SentencesRead n := by
  induction n with
  | zero =>
    constructor
    case routine => exact fun enough ended => absurd enough ended.unspent
    case classDeclaration => exact fun enough ended => absurd enough ended.unspent
    case methods => exact fun enough ended => absurd enough ended.unspent
    all_goals intros; omega
  | succ n ih =>
    exact ⟨ih.declaration_succ,ih.declarations_succ,ih.block_succ,ih.routine_succ,
      ih.classDeclaration_succ,ih.methods_succ,ih.statement_succ⟩

end Parser
end Lox
