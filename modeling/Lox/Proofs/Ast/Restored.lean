import Lox.Proofs.Ast.Rendered
import Lox.Proofs.Ast.Sentences

/-! # Parsing rendered statements

The parser gives the words of a program back as that program. Behind a statement that would take
an `else` there is none, so each `else` goes to the branch that it was written for.
-/
namespace Lox
theorem Expr.GrammaticalClause.cases {e : Expr} (h : e.GrammaticalClause) :
    (∃ pos, e = .literal .always pos) ∨ e.Grammatical := by
  cases e with
  | literal value pos =>
    cases value with
    | always => exact .inl ⟨pos,rfl⟩
    | _ => exact .inr h
  | _ => exact .inr h

theorem GrammaticalClauses.cases {ss : List Stmt} (h : GrammaticalClauses ss) :
    ∃ init pos condition body increment, ss = [init,.loop pos .clauses condition body increment] ∧
      (init.Grammatical ∧ init.IsInitializer) ∧ condition.GrammaticalClause ∧ body.Grammatical ∧
        ¬body.IsDeclaration ∧ Expr.GrammaticalOption increment := by
  rw [GrammaticalClauses.eq_def] at h
  split at h
  · next init pos condition body increment =>
    exact ⟨init,pos,condition,body,increment,rfl,⟨h.1,h.2.1⟩,h.2.2⟩
  · exact h.elim

namespace Parser
open Word

section
variable {s : State} {us vs : List Token} {ws : List Word} {w : Word} {n : Nat}

/-- An expression in front of a word that is no operator. -/
theorem yields_closed {β : Type} {R : β → Prop} {e : Expr} {f : Expr → Parser β}
    (grammatical : e.Grammatical) (ahead : Ahead s (e.words ++ w :: ws) us)
    (closes : level w.kind = 0) (enough : 8 * e.words.length + 1 ≤ n)
    (next : ∀ d t, Expr.Alike Anywhere e.unresolved d → Ahead t (w :: ws) us → Yields (f d) t vs R) :
    Yields (do let d ← expression n lowestLevel; f d) s vs R := by
  obtain ⟨vs,front,kind,behind⟩ := ahead.append_cons
  have stop : level (nextKind vs) = 0 := kind ▸ closes
  refine ((retrieved e grammatical).yields front (Nat.le_of_eq stop) (.inl (level_pos e)) enough).bind
    fun d t rest like => ?_
  exact next d t like (behind t rest)

/-- A condition in parentheses. -/
theorem yields_condition {β : Type} {R : β → Prop} {e : Expr} {f : Expr → Parser β}
    {error error' : ParseError} (grammatical : e.Grammatical)
    (ahead : Ahead s (parenthesized e.words ++ ws) us) (enough : 8 * e.words.length + 1 ≤ n)
    (next : ∀ d t, Expr.Alike Anywhere e.unresolved d → Ahead t ws us → Yields (f d) t vs R) :
    Yields (conditionThen n error error' f) s vs R := by
  replace ahead : Ahead s (fixed .leftParen :: (e.words ++ fixed .rightParen :: ws)) us := by
    simpa [parenthesized] using ahead
  refine yields_over ahead rfl fun _ t _ behind => ?_
  refine yields_closed grammatical behind rfl enough fun d u like behind' => ?_
  exact yields_over behind' rfl fun _ v _ after => next d v like after

theorem parameters_yield {ps : List Name} {count : Nat} (more : ps ≠ [])
    (ahead : Ahead s (nameWords ps) us) (next : nextKind us = .rightParen)
    (few : count + ps.length ≤ maxArguments) (enough : 8 * (nameWords ps).length + 1 ≤ n) :
    Yields (parameters n count) s us (List.Forall₂ (Name.Alike Anywhere) ps) := by
  induction n generalizing ps count s with
  | zero => omega
  | succ n ih =>
    obtain ⟨p,ps,rfl⟩ := List.exists_cons_of_ne_nil more
    rw [parameters,if_neg (by rw [List.length_cons] at few; omega)]
    by_cases last : ps = []
    · subst last
      refine yields_name ahead fun name t text behind => ?_
      refine yields_else ?_ (.pure behind.rest_eq (.cons ⟨text.symm,trivial⟩ .nil))
      rw [kind_peek behind.rest_eq behind.more,next]
      decide
    · have words : nameWords (p :: ps) = identifier p.text :: fixed .comma :: nameWords ps := by
        rw [nameWords,List.map_cons,separated_cons_of_ne_nil _ (by simp [last])]
        rfl
      rw [words] at ahead enough
      simp only [List.length_cons] at few enough
      refine yields_name ahead fun name t text behind => ?_
      refine yields_then behind.kind (yields_past behind fun _ u _ behind' => ?_)
      refine (ih last behind' (by omega) (by omega)).bind fun others v rest likes => ?_
      exact .pure rest (.cons ⟨text.symm,trivial⟩ likes)

/-! ## Parts of statements -/

theorem expressionStatement_yields {e : Expr} (grammatical : e.Grammatical)
    (ahead : Ahead s (Stmt.expression e).words us) (enough : 8 * e.words.length + 1 ≤ n) :
    Yields (expressionStatement n) s us (Stmt.Alike Anywhere (Stmt.expression e).unresolved) :=
  yields_closed grammatical ahead rfl enough fun _ _ like behind =>
    yields_over behind rfl fun _ _ _ behind' => .pure behind'.rest_eq (.expression like)

theorem variableDeclaration_yields {name : Name} {init : Option Expr}
    (grammatical : Expr.GrammaticalOption init)
    (ahead : Ahead s (identifier name.text :: initializerWords init ++ [fixed .semicolon]) us)
    (enough : 8 * (initializerWords init).length + 1 ≤ n) :
    Yields (variableDeclaration n) s us (Stmt.Alike Anywhere (Stmt.var name init).unresolved) := by
  refine yields_name ahead fun name' t text behind => ?_
  cases init with
  | none =>
    refine yields_else (by rw [behind.kind]; decide) ?_
    exact yields_over behind rfl fun _ u _ behind' =>
      .pure behind'.rest_eq (.var ⟨text.symm,trivial⟩ .none)
  | some e =>
    refine yields_then behind.kind (yields_past behind fun _ u _ behind' => ?_)
    refine yields_closed grammatical behind' rfl
      (by simp only [initializerWords,List.length_cons] at enough; omega) fun d v like behind'' => ?_
    exact yields_over behind'' rfl fun _ x _ behind₃ =>
      .pure behind₃.rest_eq (.var ⟨text.symm,trivial⟩ (.some like))

theorem jumpStatement_yields {j : Jump} {pos : Pos} (t : Token)
    (ahead : Ahead s [fixed .semicolon] us) :
    Yields (jumpStatement t j) s us (Stmt.Alike Anywhere (.jump pos j)) :=
  yields_over ahead rfl fun _ _ _ behind => .pure behind.rest_eq (.jump trivial)

theorem printStatement_yields {e : Expr} {pos : Pos} (t : Token) (grammatical : e.Grammatical)
    (ahead : Ahead s (e.words ++ [fixed .semicolon]) us) (enough : 8 * e.words.length + 1 ≤ n) :
    Yields (printStatement n t) s us (Stmt.Alike Anywhere (.print pos e.unresolved)) :=
  yields_closed grammatical ahead rfl enough fun _ _ like behind =>
    yields_over behind rfl fun _ _ _ behind' => .pure behind'.rest_eq (.print trivial like)

theorem returnStatement_yields {value : Option Expr} {pos : Pos} (t : Token)
    (grammatical : Expr.GrammaticalOption value)
    (ahead : Ahead s (Expr.optionWords value ++ [fixed .semicolon]) us)
    (enough : 8 * (Expr.optionWords value).length + 1 ≤ n) :
    Yields (returnStatement n t) s us
      (Stmt.Alike Anywhere (.leave pos (value.map Expr.unresolved))) := by
  cases value with
  | none =>
    refine yields_then ahead.kind ?_
    exact yields_over ahead rfl fun _ u _ behind => .pure behind.rest_eq (.leave trivial .none)
  | some e =>
    have starts := ahead.starts grammatical
    refine yields_else (fun close => by simp [close,startsExpression] at starts) ?_
    obtain ⟨vs,front,kind,behind⟩ := ahead.append_cons
    have value : Yields (some <$> expression n lowestLevel) s vs
        (Option.Rel (Expr.Alike Anywhere) (some e.unresolved)) :=
      ((retrieved e grammatical).yields front (by rw [kind]; decide) (.inl (level_pos e)) enough).map
        fun _ => .some
    refine value.bind fun d u rest like => ?_
    exact yields_over (behind u rest) rfl fun _ _ _ behind' =>
      .pure behind'.rest_eq (.leave trivial like)

theorem forInitializer_yields {init : Option Stmt}
    (grammatical : ∀ d ∈ init, d.Grammatical ∧ d.IsInitializer)
    (ahead : Ahead s (clauseStartWords init) us) (enough : 8 * (clauseStartWords init).length + 1 ≤ n) :
    Yields (forInitializer n) s us (Option.Rel (Stmt.Alike Anywhere) (init.map Stmt.unresolved)) := by
  apply yields_peek
  cases init with
  | none =>
    rw [ahead.kind]
    exact yields_past ahead fun _ _ _ behind => .pure behind.rest_eq .none
  | some d =>
    obtain ⟨grammatical,initializer⟩ := grammatical d rfl
    cases d with
    | var name init =>
      rw [ahead.kind]
      refine yields_past ahead fun _ u _ behind => ?_
      simp only [clauseStartWords,Stmt.words,List.length_cons,List.length_append] at enough
      exact (variableDeclaration_yields grammatical behind (by omega)).map fun _ => .some
    | expression e =>
      have starts := ahead.starts grammatical
      simp only [clauseStartWords,Stmt.words,List.length_append] at enough
      have found : Yields (some <$> expressionStatement n) s us
          (Option.Rel (Stmt.Alike Anywhere) (some (Stmt.expression e).unresolved)) :=
        (expressionStatement_yields grammatical ahead (by omega)).map fun _ => .some
      cases kind : s.peek.kind with
      | semicolon | kwVar => simp [kind,startsExpression] at starts
      | _ => exact found
    | _ => exact initializer.elim

theorem forCondition_yields {e : Expr} (t : Token) (grammatical : e.GrammaticalClause)
    (ahead : Ahead s (e.words ++ [fixed .semicolon]) us) (enough : 8 * e.words.length + 1 ≤ n) :
    Yields (forCondition n t) s us (Expr.Alike Anywhere e.unresolved) := by
  rcases grammatical.cases with ⟨pos,rfl⟩ | grammatical
  · refine yields_then ahead.kind (yields_past ahead fun _ u _ behind => ?_)
    exact .pure behind.rest_eq (.literal trivial)
  · have starts := ahead.starts grammatical
    refine yields_else (fun close => by simp [close,startsExpression] at starts) ?_
    exact yields_closed grammatical ahead rfl enough fun _ _ like behind =>
      yields_over behind rfl fun _ _ _ behind' => .pure behind'.rest_eq like

theorem forIncrement_yields {increment : Option Expr} (grammatical : Expr.GrammaticalOption increment)
    (ahead : Ahead s (Expr.optionWords increment ++ [fixed .rightParen]) us)
    (enough : 8 * (Expr.optionWords increment).length + 1 ≤ n) :
    Yields (forIncrement n) s us
      (Option.Rel (Expr.Alike Anywhere) (increment.map Expr.unresolved)) := by
  cases increment with
  | none =>
    refine yields_then ahead.kind (yields_past ahead fun _ u _ behind => ?_)
    exact .pure behind.rest_eq .none
  | some e =>
    have starts := ahead.starts grammatical
    refine yields_else (fun close => by simp [close,startsExpression] at starts) ?_
    exact yields_closed grammatical ahead rfl enough fun _ _ like behind =>
      yields_over behind rfl fun _ _ _ behind' => .pure behind'.rest_eq (.some like)

end

/-! ## Statements -/

/-- A word that can start a statement. -/
structure StartsStatement (d : Stmt) (k : Token.Kind) : Prop where
  eof : k ≠ .eof
  brace : k ≠ .rightBrace
  other : k ≠ .kwElse
  statement : ¬d.IsDeclaration → k ≠ .kwClass ∧ k ≠ .kwFun ∧ k ≠ .kwVar

theorem StartsStatement.of_expression {d : Stmt} {k : Token.Kind} (h : startsExpression k) :
    StartsStatement d k := by
  constructor
  case statement => intro _; revert h; cases k <;> decide
  all_goals revert h; cases k <;> decide

theorem statement_head : ∀ {d : Stmt}, d.Grammatical →
    ∃ w ws, d.words = w :: ws ∧ StartsStatement d w.kind
  | .expression e, h => by
    obtain ⟨w,ws,words,starts⟩ := words_head (e := e) h
    exact ⟨w,_,by rw [Stmt.words,words]; rfl,.of_expression starts⟩
  | .print _ _, _ | .block _ .plain _, _ | .block _ .clauses _, _ | .branch _ _ _ none, _
  | .branch _ _ _ (some _), _ | .loop _ .plain _ _ _, _ | .loop _ .clauses _ _ _, _
  | .jump _ .leave, _ | .jump _ .next, _ | .leave _ _, _ =>
    ⟨_,_,rfl,by decide,by decide,by decide,fun _ => by decide⟩
  | .var _ _, _ | .function _, _ | .klass _ _ _, _ =>
    ⟨_,_,rfl,by decide,by decide,by decide,fun other => absurd trivial other⟩

theorem words_routine (r : Routine) : r.words = identifier r.name.text :: r.words.tail := by
  cases r
  rfl

/-- What the words of statements are read as under a bound on nested calls that is large enough. -/
structure StatementsRestored (n : Nat) : Prop where
  declaration {d : Stmt} {s : State} {us : List Token} : d.Grammatical → Ahead s d.words us →
    nextKind us ≠ .kwElse → 8 * d.words.length + 3 ≤ n →
    Yields (declaration n) s us (Option.Rel (Stmt.Alike Anywhere) (some d.unresolved))
  declarations {body : List Stmt} {inBlock : Bool} {s : State} {us : List Token} :
    GrammaticalList body → Ahead s (statementWords body) us →
    (nextKind us = .eof ∨ inBlock ∧ nextKind us = .rightBrace) →
    8 * (statementWords body).length + 4 ≤ n →
    Yields (declarations n inBlock) s us (BodyAlike Anywhere (unresolvedAll body))
  block {body : List Stmt} {s : State} {us : List Token} : GrammaticalList body →
    Ahead s (statementWords body ++ [fixed .rightBrace]) us →
    8 * (statementWords body).length + 5 ≤ n →
    Yields (block n) s us (BodyAlike Anywhere (unresolvedAll body))
  routine {kind : RoutineKind} {r : Routine} {name : Name} {s : State} {us : List Token} :
    r.Grammatical → name.text = r.name.text → Ahead s r.words.tail us → 8 * r.words.length ≤ n →
    Yields (routine n kind name) s us (RoutineAlike Anywhere r.unresolved)
  methods {rs : List Routine} {s : State} {us : List Token} : GrammaticalMethods rs →
    Ahead s (methodWords rs) us → nextKind us = .rightBrace → 8 * (methodWords rs).length + 1 ≤ n →
    Yields (methods n) s us (RoutinesAlike Anywhere (unresolvedMethods rs))
  classDeclaration {name : Name} {base : Option Reference} {rs : List Routine} {s : State}
    {us : List Token} : GrammaticalMethods rs →
    Ahead s (Stmt.klass name base rs).words.tail us → 8 * (Stmt.klass name base rs).words.length ≤ n →
    Yields (classDeclaration n) s us (Stmt.Alike Anywhere (Stmt.klass name base rs).unresolved)
  statement {d : Stmt} {s : State} {us : List Token} : d.Grammatical → ¬d.IsDeclaration →
    Ahead s d.words us → (d.TakesElse → nextKind us ≠ .kwElse) → 8 * d.words.length + 2 ≤ n →
    Yields (statement n) s us (Stmt.Alike Anywhere d.unresolved)

theorem Yields.recovering {x : Parser Stmt} {s : State} {us : List Token} {Q : Stmt → Stmt → Prop}
    {d : Stmt} (h : Yields x s us (Q d)) : Yields (recovering x) s us (Option.Rel Q (some d)) := by
  obtain ⟨v,t,e,rest,silent,told⟩ := h
  exact ⟨some v,t,by rw [recovering_eq,e],rest,silent,.some told⟩

namespace StatementsRestored
variable {n : Nat} {s : State} {us : List Token} (h : StatementsRestored n)
include h

theorem declaration_succ {d : Stmt} (grammatical : d.Grammatical) (ahead : Ahead s d.words us)
    (next : nextKind us ≠ .kwElse) (enough : 8 * d.words.length + 3 ≤ n + 1) :
    Yields (Parser.declaration (n + 1)) s us (Option.Rel (Stmt.Alike Anywhere) (some d.unresolved)) := by
  rw [Parser.declaration]
  apply Yields.recovering
  apply yields_peek
  cases d with
  | klass name base rs =>
    rw [ahead.kind]
    exact yields_past ahead fun _ _ _ behind => h.classDeclaration grammatical behind (by omega)
  | function r =>
    simp only [Stmt.words,List.length_cons] at enough
    rw [ahead.kind]
    refine yields_past ahead fun _ t _ behind => ?_
    rw [words_routine] at behind
    refine yields_name behind fun name u text behind' => ?_
    exact (h.routine grammatical text behind' (by omega)).map fun _ => .function
  | var name init =>
    simp only [Stmt.words,List.length_cons,List.length_append] at enough
    rw [ahead.kind]
    refine yields_past ahead fun _ t _ behind => ?_
    exact variableDeclaration_yields grammatical behind (by omega)
  | _ =>
    have found := h.statement grammatical id ahead (fun _ => next) (by omega)
    obtain ⟨w,ws,words,starts⟩ := statement_head grammatical
    obtain ⟨noClass,noFun,noVar⟩ := starts.statement id
    rw [words] at ahead
    rw [← ahead.kind] at noClass noFun noVar
    cases kind : s.peek.kind with
    | kwClass => exact absurd kind noClass
    | kwFun => exact absurd kind noFun
    | kwVar => exact absurd kind noVar
    | _ => exact found

theorem declarations_succ {body : List Stmt} {inBlock : Bool} (grammatical : GrammaticalList body)
    (ahead : Ahead s (statementWords body) us)
    (next : nextKind us = .eof ∨ inBlock ∧ nextKind us = .rightBrace)
    (enough : 8 * (statementWords body).length + 4 ≤ n + 1) :
    Yields (Parser.declarations (n + 1) inBlock) s us (BodyAlike Anywhere (unresolvedAll body)) := by
  rw [Parser.declarations]
  apply yields_peek
  cases body with
  | nil =>
    rw [kind_peek ahead.rest_eq ahead.more]
    rcases next with finish | ⟨rfl,finish⟩ <;> rw [finish] <;> exact .pure ahead.rest_eq .nil
  | cons d body =>
    obtain ⟨grammatical,others⟩ := grammatical
    obtain ⟨w,ws,words,starts⟩ := statement_head grammatical
    rw [statementWords,List.length_append] at enough
    rw [statementWords] at ahead
    have kind : s.peek.kind = w.kind := by
      rw [words] at ahead
      exact ahead.kind
    have size : 1 ≤ d.words.length := by rw [words]; exact Nat.le_add_left _ _
    have more : (decide (s.peek.kind = .eof) || inBlock && decide (s.peek.kind = .rightBrace)) = false := by
      simp [kind,starts.eof,starts.brace]
    rw [more]
    obtain ⟨vs,front,behind⟩ := ahead.append
    have other : nextKind vs ≠ .kwElse := by
      have back := behind ⟨default,vs,[]⟩ rfl
      rw [← kind_peek (s := ⟨default,vs,[]⟩) rfl front.more]
      cases body with
      | nil =>
        rw [kind_peek back.rest_eq back.more]
        rcases next with finish | ⟨-,finish⟩ <;> simp [finish]
      | cons c body =>
        obtain ⟨w,ws,words,starts⟩ := statement_head others.1
        rw [statementWords,words] at back
        rw [back.kind]
        exact starts.other
    refine (h.declaration grammatical front other (by omega)).bind fun v t rest like => ?_
    cases like with
    | some like =>
      refine (h.declarations others (behind t rest) next (by omega)).bind fun body' u rest' likes => ?_
      exact .pure rest' (.cons like likes)

theorem block_succ {body : List Stmt} (grammatical : GrammaticalList body)
    (ahead : Ahead s (statementWords body ++ [fixed .rightBrace]) us)
    (enough : 8 * (statementWords body).length + 5 ≤ n + 1) :
    Yields (Parser.block (n + 1)) s us (BodyAlike Anywhere (unresolvedAll body)) := by
  rw [Parser.block]
  obtain ⟨vs,front,kind,behind⟩ := ahead.append_cons
  refine (h.declarations grammatical front (.inr ⟨rfl,kind⟩) (by omega)).bind
    fun body' t rest like => ?_
  refine yields_past (behind t rest) fun u v same after => ?_
  have close : u.kind = .rightBrace := same ▸ (behind t rest).kind
  rw [if_pos close]
  exact .pure after.rest_eq like

theorem routine_succ {kind : RoutineKind} {r : Routine} {name : Name} (grammatical : r.Grammatical)
    (text : name.text = r.name.text) (ahead : Ahead s r.words.tail us)
    (enough : 8 * r.words.length ≤ n + 1) :
    Yields (Parser.routine (n + 1) kind name) s us (RoutineAlike Anywhere r.unresolved) := by
  obtain ⟨name',params,body⟩ := r
  obtain ⟨few,grammatical⟩ := grammatical
  simp only [Routine.words,List.length_cons,List.length_append,length_parenthesized,braced,
    List.length_nil] at enough
  replace ahead : Ahead s (fixed .leftParen :: (nameWords params ++
      fixed .rightParen :: fixed .leftBrace :: (statementWords body ++ [fixed .rightBrace]))) us := by
    simpa [Routine.words,parenthesized,braced,nameWords] using ahead
  rw [routine_eq]
  refine yields_over ahead rfl fun _ t _ behind => ?_
  have finish : ∀ {u : State} {ps : List Name}, List.Forall₂ (Name.Alike Anywhere) params ps →
      Ahead u (fixed .rightParen :: fixed .leftBrace :: (statementWords body ++ [fixed .rightBrace]))
        us →
      Yields (routineTail n kind name ps) u us
        (RoutineAlike Anywhere (⟨name',params,body⟩ : Routine).unresolved) := by
    intro u ps likes close
    refine yields_over close rfl fun _ v _ brace => ?_
    refine yields_over brace rfl fun _ w _ inside => ?_
    refine (h.block grammatical inside (by omega)).bind fun body' x rest like => ?_
    exact .pure rest (.mk ⟨text.symm,trivial⟩ likes like)
  cases params with
  | nil => exact yields_then behind.kind (finish .nil behind)
  | cons p ps =>
    obtain ⟨vs,front,next,close⟩ := behind.append_cons
    have starts : t.peek.kind = .identifier := by
      rw [nameWords,List.map_cons,separated_cons] at front
      exact front.kind
    refine yields_else (by rw [starts]; decide) ?_
    have size : (nameWords (p :: ps)).length = (separated
        (List.map (fun p => [identifier p.text]) (p :: ps))).length := rfl
    refine (parameters_yield (List.cons_ne_nil p ps) front next (by simpa using few) (by omega)).bind
      fun qs u rest likes => ?_
    exact finish likes (close u rest)

theorem methods_succ {rs : List Routine} (grammatical : GrammaticalMethods rs)
    (ahead : Ahead s (methodWords rs) us) (next : nextKind us = .rightBrace)
    (enough : 8 * (methodWords rs).length + 1 ≤ n + 1) :
    Yields (Parser.methods (n + 1)) s us (RoutinesAlike Anywhere (unresolvedMethods rs)) := by
  rw [Parser.methods]
  apply yields_peek
  cases rs with
  | nil =>
    rw [kind_peek ahead.rest_eq ahead.more,next]
    exact .pure ahead.rest_eq .nil
  | cons r rs =>
    rw [methodWords,words_routine,List.cons_append] at ahead
    rw [methodWords,words_routine,List.length_append,List.length_cons] at enough
    have size : r.words.length = r.words.tail.length + 1 := by rw [words_routine]; rfl
    rw [ahead.kind]
    refine yields_name ahead fun name t text behind => ?_
    obtain ⟨vs,front,rest⟩ := behind.append
    refine (h.routine grammatical.1 text front (by omega)).bind fun head u same like => ?_
    refine (h.methods grammatical.2 (rest u same) next (by omega)).bind fun others v same' likes => ?_
    exact .pure same' (.cons like likes)

theorem classDeclaration_succ {name : Name} {base : Option Reference} {rs : List Routine}
    (grammatical : GrammaticalMethods rs) (ahead : Ahead s (Stmt.klass name base rs).words.tail us)
    (enough : 8 * (Stmt.klass name base rs).words.length ≤ n + 1) :
    Yields (Parser.classDeclaration (n + 1)) s us
      (Stmt.Alike Anywhere (Stmt.klass name base rs).unresolved) := by
  simp only [Stmt.words,List.length_cons,List.length_append,braced,List.length_nil] at enough
  replace ahead : Ahead s (identifier name.text :: (superclassWords base ++
      fixed .leftBrace :: (methodWords rs ++ [fixed .rightBrace]))) us := ahead
  rw [classDeclaration_eq]
  refine yields_name ahead fun name' t text behind => ?_
  have finish : ∀ {u : State} {r : Option Reference},
      Option.Rel (Reference.Alike Anywhere) (base.map Reference.unresolved) r →
      Ahead u (fixed .leftBrace :: (methodWords rs ++ [fixed .rightBrace])) us →
      Yields (classTail n name' r) u us
        (Stmt.Alike Anywhere (Stmt.klass name base rs).unresolved) := by
    intro u r superclass brace
    refine yields_over brace rfl fun _ v _ inside => ?_
    obtain ⟨vs,front,next,close⟩ := inside.append_cons
    refine (h.methods grammatical front next (by omega)).bind fun members w rest likes => ?_
    exact yields_over (close w rest) rfl fun _ x _ after =>
      .pure after.rest_eq (.klass ⟨text.symm,trivial⟩ superclass likes)
  cases base with
  | none => exact yields_else (by rw [behind.kind]; decide) (finish .none behind)
  | some r =>
    refine yields_then behind.kind (yields_past behind fun _ u _ behind' => ?_)
    refine yields_name behind' fun base v text' behind'' => ?_
    exact finish (.some ⟨⟨text'.symm,trivial⟩,rfl⟩) behind''

/-- The clauses of a `for` and its body, behind the word `for`. -/
theorem forTail_yields {init : Option Stmt} {condition : Expr} {increment : Option Expr} {body : Stmt}
    {pos : Pos} (first : ∀ d ∈ init, d.Grammatical ∧ d.IsInitializer)
    (test : condition.GrammaticalClause) (last : Expr.GrammaticalOption increment)
    (grammatical : body.Grammatical) (statement : ¬body.IsDeclaration)
    (next : body.TakesElse → nextKind us ≠ .kwElse)
    (ahead : Ahead s (forLoop pos init condition increment body).words.tail us)
    (enough : 8 * (forLoop pos init condition increment body).words.length + 2 ≤ n + 1) (t : Token) :
    Yields (forTail n t) s us (Stmt.Alike Anywhere (forLoop pos (init.map Stmt.unresolved)
      condition.unresolved (increment.map Expr.unresolved) body.unresolved)) := by
  rw [words_forLoop] at ahead enough
  simp only [List.length_append,List.length_cons,List.length_nil] at enough
  replace ahead : Ahead s (fixed .leftParen :: (clauseStartWords init ++
      ((condition.words ++ [fixed .semicolon]) ++
        ((Expr.optionWords increment ++ [fixed .rightParen]) ++ body.words)))) us := by
    simpa using ahead
  refine yields_over ahead rfl fun _ u _ behind => ?_
  obtain ⟨vs,front,rest⟩ := behind.append
  refine (forInitializer_yields first front (by omega)).bind fun init' v same like₁ => ?_
  obtain ⟨vs',front',rest'⟩ := (rest v same).append
  refine (forCondition_yields t test front' (by omega)).bind fun test' w same' like₂ => ?_
  obtain ⟨vs'',front'',rest''⟩ := (rest' w same').append
  refine (forIncrement_yields last front'' (by omega)).bind fun last' x same'' like₃ => ?_
  refine (h.statement grammatical statement (rest'' x same'') next (by omega)).bind
    fun body' y same₃ like₄ => ?_
  exact .pure same₃ (forLoop_alike trivial like₁ like₂ like₃ like₄)

theorem statement_succ {d : Stmt} (grammatical : d.Grammatical) (statement : ¬d.IsDeclaration)
    (ahead : Ahead s d.words us) (next : d.TakesElse → nextKind us ≠ .kwElse)
    (enough : 8 * d.words.length + 2 ≤ n + 1) :
    Yields (Parser.statement (n + 1)) s us (Stmt.Alike Anywhere d.unresolved) := by
  rw [Parser.statement]
  apply yields_peek
  cases d with
  | var | function | klass => exact absurd trivial statement
  | expression e =>
    have starts := ahead.starts grammatical
    simp only [Stmt.words,List.length_append] at enough
    have found := expressionStatement_yields (n := n) grammatical ahead (by omega)
    cases kind : s.peek.kind with
    | kwPrint | kwReturn | kwIf | kwWhile | kwFor | kwBreak | kwContinue | leftBrace =>
      simp [kind,startsExpression] at starts
    | _ => exact found
  | print pos e =>
    simp only [Stmt.words,List.length_append,List.length_cons] at enough
    rw [ahead.kind]
    exact yields_past ahead fun _ _ _ behind => printStatement_yields _ grammatical behind (by omega)
  | leave pos value =>
    simp only [Stmt.words,List.length_append,List.length_cons] at enough
    rw [ahead.kind]
    exact yields_past ahead fun _ _ _ behind => returnStatement_yields _ grammatical behind (by omega)
  | jump pos j =>
    rw [ahead.kind]
    cases j with
    | leave => exact yields_past ahead fun _ _ _ behind => jumpStatement_yields _ behind
    | next => exact yields_past ahead fun _ _ _ behind => jumpStatement_yields _ behind
  | block pos form body =>
    cases form with
    | plain =>
      simp only [Stmt.words,braced,List.length_append,List.length_cons] at enough
      rw [ahead.kind]
      refine yields_past ahead fun _ t _ behind => ?_
      refine (h.block grammatical behind (by omega)).bind fun body' u rest like => ?_
      exact .pure rest (.block trivial like)
    | clauses =>
      obtain ⟨init,pos',condition,body,increment,rfl,first,test,grammatical,statement',last⟩ :=
        grammatical.cases
      rw [ahead.kind]
      refine yields_past ahead fun _ t _ behind => ?_
      have one : ∀ d ∈ some init, d.Grammatical ∧ d.IsInitializer := fun _ h => by cases h; exact first
      refine (h.forTail_yields one test last grammatical statement' next behind enough _).imp ?_
      intro c like
      cases like with
      | block _ body => exact .block trivial body
  | branch pos condition yes no =>
    cases no with
    | none =>
      obtain ⟨test,grammatical,statement'⟩ := grammatical
      simp only [Stmt.words,List.length_append,List.length_cons,length_parenthesized] at enough
      rw [ahead.kind]
      refine yields_past ahead fun _ t _ behind => yields_condition test behind (by omega)
        fun d u like inside => ?_
      refine (h.statement grammatical statement' inside (fun _ => next trivial) (by omega)).bind
        fun yes' v rest like' => ?_
      refine yields_else ?_ (.pure rest (.branch trivial like like'))
      rw [kind_peek rest inside.more]
      exact next trivial
    | some no =>
      obtain ⟨test,grammatical,statement',closed,grammatical',statement''⟩ := grammatical
      simp only [Stmt.words,List.length_append,List.length_cons,length_parenthesized] at enough
      simp only [Stmt.words,List.cons_append,List.append_assoc] at ahead
      rw [ahead.kind]
      refine yields_past ahead fun _ t _ behind => yields_condition test behind (by omega)
        fun d u like inside => ?_
      obtain ⟨vs,front,-,other⟩ := inside.append_cons
      refine (h.statement grammatical statement' front (fun takes => absurd takes closed)
        (by omega)).bind fun yes' v rest like' => ?_
      refine yields_then (other v rest).kind (yields_past (other v rest) fun _ w _ inside' => ?_)
      refine (h.statement grammatical' statement'' inside' next (by omega)).bind
        fun no' x rest' like'' => ?_
      exact .pure rest' (.branchElse trivial like like' like'')
  | loop pos form condition body increment =>
    cases form with
    | plain =>
      obtain ⟨test,grammatical,statement',rfl⟩ := grammatical
      simp only [Stmt.words,List.length_append,List.length_cons,length_parenthesized] at enough
      rw [ahead.kind]
      refine yields_past ahead fun _ t _ behind => yields_condition test behind (by omega)
        fun d u like inside => ?_
      refine (h.statement grammatical statement' inside next (by omega)).bind
        fun body' v rest like' => ?_
      exact .pure rest (.loop trivial like like' .none)
    | clauses =>
      obtain ⟨test,grammatical,statement',last⟩ := grammatical
      rw [ahead.kind]
      refine yields_past ahead fun _ t _ behind => ?_
      have none : ∀ d ∈ (none : Option Stmt), d.Grammatical ∧ d.IsInitializer := fun _ h => by cases h
      exact h.forTail_yields none test last grammatical statement' next behind enough _

end StatementsRestored

theorem statementsRestored (n : Nat) : StatementsRestored n := by
  induction n with
  | zero =>
    constructor
    case routine =>
      intro kind r name s us _ _ _ enough
      rw [words_routine,List.length_cons] at enough
      omega
    case classDeclaration =>
      intro name base rs s us _ _ enough
      simp only [Stmt.words,List.length_append,List.length_cons] at enough
      omega
    all_goals intros; omega
  | succ n ih =>
    exact ⟨ih.declaration_succ,ih.declarations_succ,ih.block_succ,ih.routine_succ,ih.methods_succ,
      ih.classDeclaration_succ,ih.statement_succ⟩

end Parser
end Lox
