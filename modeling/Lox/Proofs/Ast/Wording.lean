import Lox.Ast.Grammar
import Lox.Proofs.Ast.Statements
import Lox.Proofs.Token.Spelling

/-! # What a parser reads

A parser that meets no error has read the words of the tree that it gives back, no more and no
less, and the tree is one of the grammar. What an operator may stand behind is kept by a bound on
both sides: the tree so far binds at least as strongly as the operator that comes next.
-/
namespace Lox

open Word

theorem separated_cons (ws : List Word) (wss : List (List Word)) :
    separated (ws :: wss) = ws ++ wss.flatMap (fixed .comma :: ·) := by
  induction wss generalizing ws with
  | nil => simp [separated]
  | cons vs wss ih =>
    rw [separated,ih,List.flatMap_cons,List.cons_append]
    exact List.cons_ne_nil vs wss

theorem argumentWords_eq_map (es : List Expr) : argumentWords es = es.map Expr.words := by
  induction es with
  | nil => rfl
  | cons e es ih => rw [argumentWords,ih,List.map_cons]

theorem BinaryOp.spelling (op : BinaryOp) : op.kind.spelling? ≠ none := by
  cases op <;> decide

theorem LogicalOp.spelling (op : LogicalOp) : op.kind.spelling? ≠ none := by
  cases op <;> decide

theorem BinaryOp.level_lt (op : BinaryOp) : op.level < Expr.unaryLevel := by
  cases op <;> decide

theorem LogicalOp.level_lt (op : LogicalOp) : op.level < Expr.unaryLevel := by
  cases op <;> decide

namespace Parser

theorem binaryOp?_eq_some {k : Token.Kind} {op : BinaryOp} :
    binaryOp? k = some op ↔ k = op.kind := by
  cases k <;> cases op <;> decide

theorem logicalOp?_eq_some {k : Token.Kind} {op : LogicalOp} :
    logicalOp? k = some op ↔ k = op.kind := by
  cases k <;> cases op <;> decide

theorem level_binaryOp (op : BinaryOp) : level op.kind = op.level := by
  cases op <;> rfl

theorem level_logicalOp (op : LogicalOp) : level op.kind = op.level := by
  cases op <;> rfl

theorem level_le_callLevel (k : Token.Kind) : level k ≤ Expr.callLevel := by
  cases k <;> decide

/-- The kinds with a level that are no binary or logical operator. -/
theorem eq_of_level_pos {k : Token.Kind} (h : 0 < level k) (binary : binaryOp? k = none)
    (logical : logicalOp? k = none) : k = .equal ∨ k = .dot ∨ k = .leftParen := by
  cases k <;> revert h binary logical <;> decide

theorem spelling_of_level {k : Token.Kind} (h : 0 < level k) : k.spelling? ≠ none := by
  cases k <;> revert h <;> decide

/-- The tokens left are spelled as their kinds are written. -/
def State.Spelled (s : State) : Prop := ∀ t ∈ s.rest, t.word.Spelled

/-- Some words lie between two states. -/
def Between (s : State) (ws : List Word) (t : State) : Prop :=
  s.rest.map Token.word = ws ++ t.rest.map Token.word

theorem Between.refl (s : State) : Between s [] s := rfl

theorem Between.trans {s t u : State} {ws vs : List Word} (st : Between s ws t)
    (tu : Between t vs u) : Between s (ws ++ vs) u := by
  rw [Between,st,tu,List.append_assoc]

theorem State.Spelled.onward {s t : State} (h : s.Spelled) (on : Onward s t) : t.Spelled :=
  fun u hu => h u (on.rest.subset hu)

theorem State.Spelled.peek {s : State} (h : s.Spelled) (ended : s.Ended) : s.peek.word.Spelled := by
  obtain ⟨ts,e,rest,-,-⟩ := ended
  refine h s.peek ?_
  cases ts <;> simp [State.peek,rest]

/-- A parser gets on, and what it gives back in silence is as told. -/
structure Reads {α : Type} (a b : Nat) (s : State) (x : Parser α) (Q : α → State → Prop) : Prop where
  gets : Gets a b s (x s)
  tells : ∀ {v t}, s.Spelled → x s = .ok v t → t.errors.length ≤ s.errors.length → Q v t

section
variable {α β : Type} {a b a' b' : Nat} {s t : State} {Q Q' : α → State → Prop}
  {R : β → State → Prop}

theorem Reads.weaken {x : Parser α} (h : Reads a b s x Q) (ha : a ≤ a') (hb : b ≤ b')
    (hq : ∀ v t, Q v t → Q' v t) : Reads a' b' s x Q' :=
  ⟨h.gets.weaken ha hb,fun spelled e quiet => hq _ _ (h.tells spelled e quiet)⟩

theorem Reads.within {x : Parser α} (h : Reads a b s x Q) (hb : b ≤ b') : Reads a b' s x Q :=
  h.weaken (Nat.le_refl a) hb fun _ _ => id

theorem Reads.pure {v : α} (ended : s.Ended) (ha : s.rest.length ≤ a) (h : Q v s) :
    Reads a b s (pure v) Q :=
  ⟨.ok (.refl ended) ha,fun _ e _ => by cases e; exact h⟩

theorem Reads.bind {x : Parser α} {f : α → Parser β} (first : Reads a b s x Q)
    (next : ∀ v t, x s = .ok v t → Onward s t → t.rest.length ≤ a →
      Reads a' b t (f v) fun w u => Q v t → R w u) : Reads a' b s (x >>= f) R := by
  refine ⟨first.gets.bind fun v t e on less => (next v t e on less).gets,fun spelled e quiet => ?_⟩
  simp only [Bind.bind,EStateM.bind] at e
  cases ex : x s with
  | error _ _ => rw [ex] at e; cases e
  | ok v t =>
    have gets := first.gets
    rw [ex] at e gets
    cases gets with
    | ok on less =>
      have rest := next v t ex on less
      have later := rest.gets
      dsimp only at e
      rw [e] at later
      cases later with
      | ok on' _ =>
        have told := first.tells spelled ex (Nat.le_trans on'.errors_le quiet)
        exact rest.tells (spelled.onward on) e (Nat.le_trans quiet on.errors_le) told

theorem Reads.map {x : Parser α} {f : α → β} (h : Reads a b s x Q) (hq : ∀ v t, Q v t → R (f v) t) :
    Reads a b s (f <$> x) R := by
  refine ⟨h.gets.map,fun spelled e quiet => ?_⟩
  simp only [Functor.map,EStateM.map] at e
  cases ex : x s with
  | error _ _ => rw [ex] at e; cases e
  | ok v t =>
    rw [ex] at e
    cases e
    exact hq v _ (h.tells spelled ex quiet)

/-- A parser that gives up or reports an error reads nothing in silence. -/
theorem Reads.of_loud {x : Parser α} (gets : Gets a b s (x s))
    (loud : ∀ v t, x s = .ok v t → s.errors.length < t.errors.length) : Reads a b s x Q :=
  ⟨gets,fun _ e quiet => absurd quiet (Nat.not_le_of_lt (loud _ _ e))⟩

theorem Reads.of_error {x : Parser α} {e : Abort} (h : x s = .error e t) (on : Onward s t)
    (grew : s.errors.length < t.errors.length) (hb : t.rest.length ≤ b) : Reads a b s x Q :=
  .of_loud (h ▸ .error on grew hb) fun v u e => by rw [h] at e; cases e

/-! ## Single operations -/

theorem reads_peek (ended : s.Ended) : Reads s.rest.length b s peek fun _ _ => True :=
  ⟨.ok (.refl ended) (Nat.le_refl _),fun _ _ _ => trivial⟩

theorem reads_atKind (ended : s.Ended) (k : Token.Kind) :
    Reads s.rest.length b s (atKind k) fun _ _ => True :=
  ⟨.ok (.refl ended) (Nat.le_refl _),fun _ _ _ => trivial⟩

theorem reads_advance (ended : s.Ended) (more : s.peek.kind ≠ .eof) :
    Reads (s.rest.length - 1) b s advance fun v t => v.word.Spelled ∧ Between s [v.word] t := by
  constructor
  · rw [advance_eq ended]
    exact .ok (onward_advance ended) (Nat.le_of_eq (length_advance (ended.two_le more)))
  · intro v t spelled e _
    rw [advance_eq ended] at e
    cases e
    refine ⟨spelled.peek ended,?_⟩
    obtain ⟨ts,e,rest,kind,-⟩ := ended
    rcases ts with _ | ⟨t,_ | ⟨u,ts⟩⟩
    · simp [State.peek,rest,kind] at more
    all_goals simp [Between,State.advance,State.peek,rest]

theorem advance_fst {v : Token} (ended : s.Ended) (e : advance s = .ok v t) : v = s.peek := by
  rw [advance_eq ended] at e
  cases e
  rfl

theorem gets_giveUp (ended : s.Ended) (t : Token) (e : ParseError) (hb : s.rest.length ≤ b) :
    Gets a b s (Parser.fail (α := α) t e s) :=
  .error (t := { s with errors := ⟨.parse e,t.pos,place t⟩ :: s.errors })
    ⟨ended,List.suffix_refl _,List.suffix_cons _ _⟩ (Nat.lt_succ_self _) hb

theorem reads_giveUp (ended : s.Ended) (t : Token) (e : ParseError) (hb : s.rest.length ≤ b) :
    Reads a b s (Parser.fail t e) Q :=
  .of_loud (gets_giveUp ended t e hb) nofun

theorem reads_expect (ended : s.Ended) {k : Token.Kind} (hk : k ≠ .eof) (e : ParseError)
    (hb : s.rest.length ≤ b) : Reads (s.rest.length - 1) b s (expect k e) fun v t =>
      v.kind = k ∧ v.word.Spelled ∧ Between s [v.word] t := by
  refine (reads_peek ended).bind fun t s' ex _ _ => ?_
  cases ex
  split
  · next h =>
    refine ⟨(reads_advance ended (h ▸ hk)).gets,fun spelled e quiet _ => ?_⟩
    exact ⟨advance_fst ended e ▸ h,(reads_advance (b := b) ended (h ▸ hk)).tells spelled e quiet⟩
  · exact reads_giveUp ended _ e hb

/-- A token that has to come next, of a kind that is always written alike. -/
theorem reads_fixed (ended : s.Ended) {k : Token.Kind} (hk : k ≠ .eof) (one : k.spelling? ≠ none)
    (e : ParseError) (hb : s.rest.length ≤ b) :
    Reads (s.rest.length - 1) b s (expect k e) fun _ t => Between s [fixed k] t :=
  (reads_expect ended hk e hb).weaken (Nat.le_refl _) (Nat.le_refl _) fun v t ⟨kind,spelled,between⟩ => by
    exact spelled.eq_fixed kind one ▸ between

/-- A parser behind a token that has to come next. -/
theorem reads_over {x : Parser α} (ended : s.Ended) {k : Token.Kind} (hk : k ≠ .eof)
    (one : k.spelling? ≠ none) (e : ParseError) (hb : s.rest.length ≤ b)
    (h : ∀ t : State, t.Ended → t.rest.length ≤ s.rest.length - 1 →
      Reads a b t x fun v u => Between s [fixed k] t → Q v u) :
    Reads a b s (do let _ ← expect k e; x) Q :=
  (reads_fixed ended hk one e hb).bind fun _ t _ on less => h t on.ended less

/-- A token that has been looked at. -/
theorem reads_next (ended : s.Ended) {k : Token.Kind} (kind : s.peek.kind = k) (hk : k ≠ .eof)
    (one : k.spelling? ≠ none) :
    Reads (s.rest.length - 1) b s advance fun _ t => Between s [fixed k] t := by
  refine ⟨(reads_advance ended (kind ▸ hk)).gets,fun {v t} spelled e quiet => ?_⟩
  obtain ⟨spelled,between⟩ := (reads_advance (b := b) ended (kind ▸ hk)).tells spelled e quiet
  have kind : v.kind = k := advance_fst ended e ▸ kind
  exact spelled.eq_fixed kind one ▸ between

/-- A parser behind a token that has been looked at. -/
theorem reads_past {x : Parser α} (ended : s.Ended) {k : Token.Kind} (kind : s.peek.kind = k)
    (hk : k ≠ .eof) (one : k.spelling? ≠ none)
    (h : ∀ t : State, t.Ended → t.rest.length ≤ s.rest.length - 1 →
      Reads a b t x fun v u => Between s [fixed k] t → Q v u) :
    Reads a b s (do let _ ← advance; x) Q :=
  (reads_next ended kind hk one).bind fun _ t _ on less => h t on.ended less

theorem reads_expectName (ended : s.Ended) (e : ParseError) (hb : s.rest.length ≤ b) :
    Reads (s.rest.length - 1) b s (expectName e) fun v t => Between s [identifier v.text] t := by
  refine (reads_expect ended (by decide) e hb).bind fun v t _ on less => ?_
  refine .pure on.ended less fun ⟨kind,spelled,between⟩ => ?_
  have word : v.word = identifier v.lexeme := spelled.eq_identifier kind
  exact word ▸ between

theorem reads_report (ended : s.Ended) (t : Token) (e : ParseError) {R : Unit → State → Prop} :
    Reads s.rest.length b s (report t e) R := by
  refine .of_loud (.ok ⟨ended,List.suffix_refl _,List.suffix_cons _ _⟩ (Nat.le_refl _)) ?_
  rintro _ _ ⟨⟩
  exact Nat.lt_succ_self _

end

/-! ## Expressions -/

/-- An expression whose operators all bind more strongly than a level, and what follows binds no
more strongly. -/
structure IsOperand (lower : Nat) (e : Expr) (t : State) : Prop where
  grammatical : e.Grammatical
  level : min (lower + 1) Expr.unaryLevel ≤ e.level
  next : Parser.level t.peek.kind ≤ lower

/-- An expression that the operator behind it may take for its left operand. -/
structure IsLeft (e : Expr) (t : State) : Prop where
  grammatical : e.Grammatical
  next : Parser.level t.peek.kind ≤ e.level

theorem IsLeft.of_callLevel {e : Expr} {t : State} (h : e.Grammatical)
    (level : Expr.callLevel ≤ e.level) : IsLeft e t :=
  ⟨h,Nat.le_trans (level_le_callLevel _) level⟩

theorem isLeft_of_primary {e : Expr} {t : State} (h : e.Grammatical)
    (level : e.level = Expr.callLevel + 1) : IsLeft e t ∧ Expr.unaryLevel ≤ e.level :=
  ⟨.of_callLevel h (by omega),by rw [level]; decide⟩

/-- A token that stands for a constant is its one word. -/
theorem words_constant {t : Token} {value : Constant} (spelled : t.word.Spelled)
    (h : constant? t = some value) :
    value.words = [t.word] ∧ (Expr.literal value t.pos).Grammatical := by
  obtain ⟨kind,lexeme,literal,pos⟩ := t
  simp only [constant?] at h
  split at h
  · cases h
    exact ⟨rfl,trivial⟩
  · cases h
    obtain ⟨_,text,value⟩ := spelled.string rfl
    cases value
    exact ⟨by rw [Constant.words,← text]; rfl,trivial⟩
  · cases h
    exact ⟨by rw [spelled.eq_fixed (k := .kwTrue) rfl (by decide)]; rfl,trivial⟩
  · cases h
    exact ⟨by rw [spelled.eq_fixed (k := .kwFalse) rfl (by decide)]; rfl,trivial⟩
  · cases h
    exact ⟨by rw [spelled.eq_fixed (k := .kwNil) rfl (by decide)]; rfl,trivial⟩
  · cases h

/-- An assignment to what can be assigned to. -/
theorem reads_assignment {b : Nat} {s : State} (ended : s.Ended) (equals : Token) (left value : Expr) :
    Reads s.rest.length b s (assignment equals left value) fun e t =>
      left.Grammatical → value.Grammatical → t = s ∧
        e.words = left.words ++ fixed .equal :: value.words ∧ e.Grammatical ∧
          e.level = Expr.assignmentLevel := by
  have invalid : Reads s.rest.length b s (do report equals .invalidTarget; return left) fun e t =>
      left.Grammatical → value.Grammatical → t = s ∧
        e.words = left.words ++ fixed .equal :: value.words ∧ e.Grammatical ∧
          e.level = Expr.assignmentLevel := by
    refine (reads_report ended equals .invalidTarget (R := fun _ _ => False)).bind
      fun _ t _ on less => ?_
    exact .pure on.ended less fun loud => loud.elim
  cases left with
  | var r => exact .pure ended (Nat.le_refl _) fun _ grammatical => ⟨rfl,rfl,grammatical,rfl⟩
  | get object name =>
    refine .pure ended (Nat.le_refl _) fun ⟨grammatical,strong⟩ grammatical' => ?_
    exact ⟨rfl,by simp [Expr.words],⟨grammatical,strong,grammatical'⟩,rfl⟩
  | _ => exact invalid

/-- What the parsers of expressions read under a bound on nested calls that is large enough. -/
structure ExpressionsRead (n : Nat) : Prop where
  expression {lower : Nat} {s : State} : 8 * s.rest.length + 1 ≤ n → s.Ended →
    Reads (s.rest.length - 1) (max 1 (s.rest.length - 1)) s (expression n lower) fun e t =>
      Between s e.words t ∧ IsOperand lower e t
  operand {s : State} : 8 * s.rest.length ≤ n → s.Ended →
    Reads (s.rest.length - 1) (max 1 (s.rest.length - 1)) s (operand n) fun e t =>
      Between s e.words t ∧ IsLeft e t ∧ Expr.unaryLevel ≤ e.level
  operators {lower : Nat} {left : Expr} {s : State} : 8 * s.rest.length ≤ n → s.Ended →
    Reads s.rest.length s.rest.length s (operators n lower left) fun e t =>
      IsLeft left s → min (lower + 1) Expr.unaryLevel ≤ left.level →
        (∃ ws, e.words = left.words ++ ws ∧ Between s ws t) ∧ IsOperand lower e t
  extend {op : Token} {left : Expr} {s : State} : 8 * s.rest.length + 2 ≤ n → s.Ended →
    0 < level op.kind →
    Reads s.rest.length s.rest.length s (extend n op left) fun e t =>
      left.Grammatical → level op.kind ≤ left.level →
        (∃ ws, e.words = left.words ++ fixed op.kind :: ws ∧ Between s ws t) ∧ IsLeft e t ∧
          e.level = level op.kind
  arguments {count : Nat} {s : State} : 8 * s.rest.length ≤ n → s.Ended →
    Reads s.rest.length s.rest.length s (arguments n count) fun es t =>
      1 ≤ count → count ≤ maxArguments →
        Between s ((es.map Expr.words).flatMap (fixed .comma :: ·)) t ∧
          Expr.GrammaticalArguments es ∧ count + es.length ≤ maxArguments

namespace ExpressionsRead
variable {n : Nat} {s : State} (h : ExpressionsRead n)
include h

theorem expression_succ {lower : Nat} (enough : 8 * s.rest.length + 1 ≤ n + 1) (ended : s.Ended) :
    Reads (s.rest.length - 1) (max 1 (s.rest.length - 1)) s (Parser.expression (n + 1) lower)
      fun e t => Between s e.words t ∧ IsOperand lower e t := by
  rw [Parser.expression]
  refine (h.operand (by omega) ended).bind fun left t _ on less => ?_
  refine (h.operators (by omega) on.ended).weaken less (by omega) ?_
  rintro e u told ⟨between,left,level⟩
  obtain ⟨⟨ws,words,between'⟩,operand⟩ := told left (Nat.le_trans (Nat.min_le_right _ _) level)
  exact ⟨words ▸ between.trans between',operand⟩

theorem operand_succ (enough : 8 * s.rest.length ≤ n + 1) (ended : s.Ended) :
    Reads (s.rest.length - 1) (max 1 (s.rest.length - 1)) s (Parser.operand (n + 1))
      fun e t => Between s e.words t ∧ IsLeft e t ∧ Expr.unaryLevel ≤ e.level := by
  by_cases finish : s.peek.kind = .eof
  · -- At the end there is no operand.
    have on := onward_advance ended
    have less := on.length_le
    have few := ended.le_one finish
    refine .of_error (e := .abort) (t := { s.advance with
      errors := ⟨.parse .noExpression,s.peek.pos,place s.peek⟩ :: s.advance.errors }) ?_
      ⟨on.ended,on.rest,on.errors.trans (List.suffix_cons _ _)⟩ (Nat.lt_succ_of_le on.errors_le)
      (Nat.le_trans (Nat.le_trans less few) (Nat.le_max_left _ _))
    rw [Parser.operand]
    simp only [Bind.bind,EStateM.bind,advance_eq ended,finish,constant?]
    rfl
  have two := ended.two_le finish
  rw [Parser.operand]
  refine (reads_advance ended finish).bind fun t s' ex on less => ?_
  have unary : ∀ op : UnaryOp, t.kind = op.kind →
      Reads (s.rest.length - 1) (max 1 (s.rest.length - 1)) s'
        (do return .unary op t.pos (← Parser.expression n unaryLevel))
        fun e u => t.word.Spelled ∧ Between s [t.word] s' →
          Between s e.words u ∧ IsLeft e u ∧ Expr.unaryLevel ≤ e.level := by
    intro op kind
    refine ((h.expression (by omega) on.ended).within (by omega)).bind fun right u _ on' less' => ?_
    refine .pure on'.ended (by omega) ?_
    rintro ⟨between',operand⟩ ⟨spelled,between⟩
    rw [spelled.eq_fixed kind (by cases op <;> decide)] at between
    exact ⟨between.trans between',⟨⟨operand.grammatical,operand.level⟩,operand.next⟩,Nat.le_refl _⟩
  have fixed : ∀ {k : Token.Kind}, t.kind = k → k.spelling? ≠ none →
      t.word.Spelled ∧ Between s [t.word] s' → Between s [Word.fixed k] s' :=
    fun kind one given => given.1.eq_fixed kind one ▸ given.2
  cases kind : t.kind with
  | identifier =>
    refine .pure on.ended less ?_
    rintro ⟨spelled,between⟩
    rw [spelled.eq_identifier kind] at between
    exact ⟨between,isLeft_of_primary trivial rfl⟩
  | kwThis =>
    refine .pure on.ended less fun between => ?_
    exact ⟨fixed kind (by decide) between,isLeft_of_primary trivial rfl⟩
  | kwSuper =>
    refine reads_over on.ended (by decide) (by decide) _ (by omega) fun s'' ended' less' => ?_
    refine (reads_expectName ended' _ (by omega)).bind fun method u _ on'' less'' => ?_
    refine .pure on''.ended (by omega) fun name dot between => ?_
    exact ⟨((fixed kind (by decide) between).trans dot).trans name,isLeft_of_primary trivial rfl⟩
  | leftParen =>
    refine ((h.expression (by omega) on.ended).within (by omega)).bind fun inner u _ on' less' => ?_
    refine reads_over on'.ended (by decide) (by decide) _ (by omega) fun _ ended'' less'' => ?_
    refine .pure ended'' (by omega) ?_
    rintro close ⟨inside,operand⟩ between
    exact ⟨((fixed kind (by decide) between).trans inside).trans close,
      isLeft_of_primary operand.grammatical rfl⟩
  | bang => exact unary .not kind
  | minus => exact unary .minus kind
  | _ =>
    cases value : constant? t with
    | none => exact reads_giveUp on.ended _ _ (by omega)
    | some value' =>
      refine .pure on.ended less ?_
      rintro ⟨spelled,between⟩
      obtain ⟨words,given⟩ := words_constant spelled value
      exact ⟨by rwa [Expr.words,words],isLeft_of_primary given rfl⟩

theorem operators_succ {lower : Nat} {left : Expr} (enough : 8 * s.rest.length ≤ n + 1)
    (ended : s.Ended) :
    Reads s.rest.length s.rest.length s (Parser.operators (n + 1) lower left) fun e t =>
      IsLeft left s → min (lower + 1) Expr.unaryLevel ≤ left.level →
        (∃ ws, e.words = left.words ++ ws ∧ Between s ws t) ∧ IsOperand lower e t := by
  rw [Parser.operators]
  refine (reads_peek ended).bind fun op s' ex _ _ => ?_
  cases ex
  split
  · next higher =>
    have more : s.peek.kind ≠ .eof := fun e => by simp [e,level] at higher
    have two := ended.two_le more
    refine (reads_advance ended more).bind fun op s' ex on less => ?_
    obtain rfl := advance_fst ended ex
    refine ((h.extend (by omega) on.ended (Nat.zero_lt_of_lt higher)).within (by omega)).bind
      fun left' s'' _ on' less' => ?_
    refine (h.operators (by omega) on'.ended).weaken (by omega) (by omega) ?_
    rintro e u later extended ⟨spelled,between⟩ - isLeft level
    obtain ⟨⟨ws,words,between'⟩,isLeft',same⟩ := extended isLeft.grammatical isLeft.next
    obtain ⟨⟨ws',words',between''⟩,operand⟩ := later isLeft' (by omega)
    rw [spelled.eq_fixed rfl (spelling_of_level (Nat.zero_lt_of_lt higher))] at between
    refine ⟨⟨Word.fixed s.peek.kind :: ws ++ ws',?_,(between.trans between').trans between''⟩,operand⟩
    rw [words',words,List.append_assoc]
  · next lower =>
    refine .pure ended (Nat.le_refl _) fun _ isLeft level => ?_
    exact ⟨⟨[],(List.append_nil _).symm,.refl s⟩,isLeft.grammatical,level,Nat.le_of_not_lt lower⟩

theorem arguments_succ {count : Nat} (enough : 8 * s.rest.length ≤ n + 1) (ended : s.Ended) :
    Reads s.rest.length s.rest.length s (Parser.arguments (n + 1) count) fun es t =>
      1 ≤ count → count ≤ maxArguments →
        Between s ((es.map Expr.words).flatMap (Word.fixed .comma :: ·)) t ∧
          Expr.GrammaticalArguments es ∧ count + es.length ≤ maxArguments := by
  rw [arguments_eq]
  refine (reads_atKind ended .comma).bind fun comma s' ex _ _ => ?_
  cases ex
  split
  · next comma =>
    have two := ended.two_le fun e => by simp [e] at comma
    refine reads_past ended (of_decide_eq_true comma) (by decide) (by decide) fun t ended' less => ?_
    have rest : ∀ {t : State}, t.Ended → t.rest.length ≤ s.rest.length - 1 →
        Reads s.rest.length s.rest.length t (furtherArguments n count)
          fun es u => Between s [Word.fixed .comma] t → count < maxArguments →
            Between s ((es.map Expr.words).flatMap (Word.fixed .comma :: ·)) u ∧
              Expr.GrammaticalArguments es ∧ count + es.length ≤ maxArguments := by
      intro t ended' less
      refine ((h.expression (by omega) ended').within (by omega)).bind fun head t' _ on less' => ?_
      refine ((h.arguments (by omega) on.ended).within (by omega)).bind fun others u _ on' less'' => ?_
      refine .pure on'.ended (by omega) ?_
      rintro told ⟨first,operand⟩ comma few
      obtain ⟨between,grammatical,size⟩ := told (by omega) few
      exact ⟨(comma.trans first).trans between,⟨operand.grammatical,grammatical⟩,
        by rw [List.length_cons]; omega⟩
    split
    · next many =>
      refine (reads_peek ended').bind fun u t' ex on' less' => ?_
      refine (reads_report on'.ended u .tooManyArguments (R := fun _ _ => False)).bind
        fun _ t'' _ on'' less'' => ?_
      exact (rest on''.ended (by omega)).weaken (Nat.le_refl _) (Nat.le_refl _)
        fun _ _ _ loud => loud.elim
    · next few =>
      exact (rest ended' less).weaken (Nat.le_refl _) (Nat.le_refl _)
        fun _ _ told comma _ _ _ => told comma (Nat.lt_of_not_le few)
  · refine .pure ended (Nat.le_refl _) fun _ _ less => ?_
    exact ⟨.refl s,trivial,less⟩

theorem extend_succ {op : Token} {left : Expr} (enough : 8 * s.rest.length + 2 ≤ n + 1)
    (ended : s.Ended) (higher : 0 < level op.kind) :
    Reads s.rest.length s.rest.length s (Parser.extend (n + 1) op left) fun e t =>
      left.Grammatical → level op.kind ≤ left.level →
        (∃ ws, e.words = left.words ++ Word.fixed op.kind :: ws ∧ Between s ws t) ∧ IsLeft e t ∧
          e.level = level op.kind := by
  have pos := ended.pos
  have operand : ∀ lower, Reads (s.rest.length - 1) s.rest.length s (Parser.expression n lower)
      fun e t => Between s e.words t ∧ IsOperand lower e t :=
    fun lower => (h.expression (by omega) ended).within (by omega)
  rw [Parser.extend]
  split
  · next op' binary =>
    have kind := binaryOp?_eq_some.mp binary
    have level := kind ▸ level_binaryOp op'
    have below := op'.level_lt
    refine (operand _).bind fun right t _ on less => ?_
    refine .pure on.ended (by omega) ?_
    rintro ⟨between,right⟩ grammatical strong
    have bound := right.level
    refine ⟨⟨_,by rw [kind]; rfl,between⟩,⟨⟨grammatical,right.grammatical,by omega,by omega⟩,?_⟩,?_⟩
    · exact Nat.le_trans right.next (Nat.le_of_eq level)
    · exact level.symm
  · next op' _ logical =>
    have kind := logicalOp?_eq_some.mp logical
    have level := kind ▸ level_logicalOp op'
    have below := op'.level_lt
    refine (operand _).bind fun right t _ on less => ?_
    refine .pure on.ended (by omega) ?_
    rintro ⟨between,right⟩ grammatical strong
    have bound := right.level
    refine ⟨⟨_,by rw [kind]; rfl,between⟩,⟨⟨grammatical,right.grammatical,by omega,by omega⟩,?_⟩,?_⟩
    · exact Nat.le_trans right.next (Nat.le_of_eq level)
    · exact level.symm
  · next kind =>
    refine (operand _).bind fun value t _ on less => ?_
    refine (reads_assignment on.ended op left value).weaken (by omega) (by omega) ?_
    rintro e u told ⟨between,operand⟩ grammatical -
    obtain ⟨rfl,words,grammatical',level⟩ := told grammatical operand.grammatical
    rw [kind]
    exact ⟨⟨_,words,between⟩,⟨grammatical',Nat.le_trans operand.next (Nat.zero_le _)⟩,level⟩
  · next kind =>
    refine (reads_expectName ended _ (Nat.le_refl _)).bind fun name t _ on less => ?_
    refine .pure on.ended (by omega) fun between grammatical strong => ?_
    rw [kind] at strong ⊢
    exact ⟨⟨_,rfl,between⟩,.of_callLevel ⟨grammatical,strong⟩ (Nat.le_refl _),rfl⟩
  · next binary logical assign access =>
    have kind : op.kind = .leftParen := by
      obtain kind | kind | kind := eq_of_level_pos higher binary logical
      · exact absurd kind assign
      · exact absurd kind access
      · exact kind
    refine (reads_atKind ended .rightParen).bind fun close s' ex _ _ => ?_
    cases ex
    rw [kind]
    split
    · next close =>
      refine (reads_next ended (of_decide_eq_true close) (by decide) (by decide)).bind
        fun _ t _ on less => ?_
      refine .pure on.ended (by omega) fun between _ grammatical strong => ?_
      refine ⟨⟨_,rfl,between⟩,.of_callLevel ?_ (Nat.le_refl _),rfl⟩
      exact ⟨grammatical,strong,trivial,Nat.zero_le _⟩
    · refine (operand _).bind fun head t _ on less => ?_
      refine ((h.arguments (by omega) on.ended).within (by omega)).bind fun others u _ on' less' => ?_
      refine (reads_fixed on'.ended (by decide) (by decide) _ (by omega)).bind
        fun close v _ on'' less'' => ?_
      refine .pure on''.ended (by omega) ?_
      rintro between told ⟨between',operand⟩ - grammatical strong
      obtain ⟨between'',grammatical',size⟩ := told (Nat.le_refl 1) (by decide)
      refine ⟨⟨_,?_,(between'.trans between'').trans between⟩,.of_callLevel ?_ (Nat.le_refl _),rfl⟩
      · rw [Expr.words,argumentWords_eq_map,List.map_cons,separated_cons]
        rfl
      · exact ⟨grammatical,strong,⟨operand.grammatical,grammatical'⟩,by rw [List.length_cons]; omega⟩

end ExpressionsRead

theorem expressionsRead (n : Nat) : ExpressionsRead n := by
  induction n with
  | zero =>
    constructor
    case operand => exact fun enough ended => absurd enough ended.unspent
    case operators => exact fun enough ended => absurd enough ended.unspent
    case arguments => exact fun enough ended => absurd enough ended.unspent
    all_goals intros; omega
  | succ n ih =>
    exact ⟨ih.expression_succ,ih.operand_succ,ih.operators_succ,ih.extend_succ,ih.arguments_succ⟩

end Parser
end Lox
