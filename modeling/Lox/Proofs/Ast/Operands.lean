import Lox.Proofs.Ast.Tracking

/-! # Expressions on the track of the grammar

The parser of expressions takes an operand and the operators behind it. What it leaves to the parser
around it starts with no operator that it could have taken: this is what keeps it on the track.
-/
namespace Lox
namespace Parser
open Lox.Symbol Token.Kind

/-- Words that start with no operator above a level. -/
def Low (lower : ℕ) (K : Language Token.Kind) : Prop := ∀ k w, k :: w ∈ K → level k ≤ lower

section
variable {ts : List Token} {K : Language Token.Kind} {s : State} {k : Token.Kind} {ss : List Symbol}
  {lower upper n : ℕ}

theorem low_token (h : level k ≤ lower) : Low lower (language (.token k :: ss) * K) := by
  intro l w hw
  obtain ⟨rfl,-⟩ := cons_mem_token.mp hw
  exact h

theorem low_moreArguments : Low 0 (language [moreArguments,rightParen] * K) := by
  intro k w hw
  obtain ⟨form,rule,hw⟩ := exists_form Rule.lastArgument.phrase hw
  cases rule <;> obtain ⟨rfl,-⟩ := cons_mem_token.mp hw <;> exact le_rfl

theorem low_tails (low : Low lower K) {bound : ℕ} (hl : lower ≤ bound) (hu : upper ≤ bound) :
    Low bound (tails lower upper * K) := by
  intro k w hw
  rw [mem_tails_cons low] at hw
  split at hw
  · exact hw.1.trans hu
  · exact (low k w hw).trans hl

theorem le_levelAfter (h : lower < level k) : lower ≤ levelAfter k := by
  unfold levelAfter
  split
  · next assign =>
    subst assign
    exact Nat.le_of_lt_succ h
  · exact h.le

theorem proper_behind (k : Token.Kind) : ∀ a ∈ behind k, a.Proper := by
  cases k <;> simp [behind,level,Proper]

/-- A token that is an expression by itself. -/
theorem constant?_ne_none {t : Token} (valued : t.Valued) (word : t.kind ∈ words)
    (name : t.kind ≠ .identifier) (this : t.kind ≠ .kwThis) : constant? t ≠ none := by
  obtain ⟨kind,lexeme,literal,pos⟩ := t
  cases kind <;> simp only [words,List.mem_cons,List.not_mem_nil,reduceCtorEq,or_self,or_false,or_true] at word
  case identifier => exact absurd rfl name
  case kwThis => exact absurd rfl this
  case number =>
    obtain ⟨x,rfl⟩ := valued.number rfl
    intro none
    cases none
  case string =>
    obtain ⟨x,rfl⟩ := valued.string rfl
    intro none
    cases none
  all_goals
    intro none
    cases none

theorem mem_words_of_constant? {t : Token} {value : Constant} (h : constant? t = some value) :
    t.kind ∈ words := by
  unfold constant? at h
  split at h
  case h_6 => cases h
  all_goals simp_all [words]

theorem Follows.operand (f : Follows ts (language [.expression (min (lower + 1) 8)] * K) s)
    (ended : s.Ended) (few : lower ≤ 8) (operand : Operand s.peek.kind ss upper) :
    Follows ts (language ss * (tails lower upper * K)) s.advance := by
  refine f.past ended operand.ne_eof ?_ fun w => ?_
  · exact exists_mem_mul (exists_mem_language operand.proper) (exists_mem_mul ⟨[],.nil⟩ f.exists_right)
  · rw [mem_expression_cons few]
    constructor
    · rintro ⟨ss',upper',operand',h⟩
      obtain ⟨rfl,rfl⟩ := operand.unique operand'
      exact h
    · exact fun h => ⟨ss,upper,operand,h⟩

/-- What the parsers of expressions do on the track under a bound on nested calls that is large
enough. -/
structure ExpressionsTrack (ts : List Token) (n : ℕ) : Prop where
  expression (lower : ℕ) {K : Language Token.Kind} {s : State} : 8 * s.rest.length + 1 ≤ n →
    s.Ended → lower ≤ 8 → Low lower K →
    Follows ts (language [.expression (min (lower + 1) 8)] * K) s ∨ Strays ts s →
    Leads ts (fun t => Follows ts K t ∧ level t.peek.kind ≤ lower) (expression n lower s)
  operand {lower : ℕ} {K : Language Token.Kind} {s : State} : 8 * s.rest.length ≤ n →
    s.Ended → lower ≤ 8 → Low lower K →
    Follows ts (language [.expression (min (lower + 1) 8)] * K) s ∨ Strays ts s →
    Leads ts (fun t => ∃ upper, Follows ts (tails lower upper * K) t ∧ level t.peek.kind ≤ upper)
      (operand n s)
  operators {lower : ℕ} {left : Expr} {K : Language Token.Kind} {s : State} :
    8 * s.rest.length ≤ n → s.Ended → Low lower K →
    (∃ upper, Follows ts (tails lower upper * K) s ∧ level s.peek.kind ≤ upper) ∨ Strays ts s →
    Leads ts (fun t => Follows ts K t ∧ level t.peek.kind ≤ lower) (operators n lower left s)
  extend {op : Token} {left : Expr} {K : Language Token.Kind} {s : State} :
    8 * s.rest.length + 2 ≤ n → s.Ended → 0 < level op.kind → Low (levelAfter op.kind) K →
    Follows ts (language (behind op.kind) * K) s ∨ Strays ts s →
    Leads ts (fun t => Follows ts K t ∧ level t.peek.kind ≤ levelAfter op.kind) (extend n op left s)
  arguments (count : ℕ) {K : Language Token.Kind} {s : State} : 8 * s.rest.length ≤ n → s.Ended →
    Follows ts (language [moreArguments,rightParen] * K) s ∨ Strays ts s →
    Leads ts (Follows ts (language [rightParen] * K)) (arguments n count s)

/-- An assignment stays where it is, also one to what cannot be assigned to. -/
theorem leads_assignment {equals : Token} {left d : Expr} (ended : s.Ended)
    (on : (Follows ts K s ∧ level s.peek.kind ≤ lower) ∨ Strays ts s) :
    Leads ts (fun t => Follows ts K t ∧ level t.peek.kind ≤ lower) (assignment equals left d s) := by
  have invalid : Leads ts (fun t => Follows ts K t ∧ level t.peek.kind ≤ lower)
      ((do report equals .invalidTarget; return left : Parser Expr) s) :=
    leads_report ended _ rfl fun t _ _ same follows strays =>
      .ok (on.imp (And.imp (follows K) (same ▸ ·)) strays)
  cases left with
  | var r => exact .ok on
  | get object name => exact .ok on
  | _ => exact invalid

namespace ExpressionsTrack
variable (h : ExpressionsTrack ts n)
include h

theorem expression_succ (enough : 8 * s.rest.length + 1 ≤ n + 1) (ended : s.Ended) (few : lower ≤ 8)
    (low : Low lower K)
    (on : Follows ts (language [.expression (min (lower + 1) 8)] * K) s ∨ Strays ts s) :
    Leads ts (fun t => Follows ts K t ∧ level t.peek.kind ≤ lower)
      (Parser.expression (n + 1) lower s) := by
  have reads := (expressionsRead n).operand (s := s) (by omega) ended
  rw [Parser.expression]
  refine (h.operand (by omega) ended few low on).bind reads.gets fun left t onward less on => ?_
  exact h.operators (by omega) onward.ended low on

theorem operand_succ (valued : ∀ t ∈ ts, t.Valued) (enough : 8 * s.rest.length ≤ n + 1)
    (ended : s.Ended) (few : lower ≤ 8) (low : Low lower K)
    (on : Follows ts (language [.expression (min (lower + 1) 8)] * K) s ∨ Strays ts s) :
    Leads ts (fun t => ∃ upper, Follows ts (tails lower upper * K) t ∧ level t.peek.kind ≤ upper)
      (Parser.operand (n + 1) s) := by
  rw [Parser.operand,advance_bind _ ended]
  have ended' := (onward_advance ended).ended
  have past : ∀ {ss upper}, Operand s.peek.kind ss upper →
      Follows ts (language ss * (tails lower upper * K)) s.advance ∨ Strays ts s.advance :=
    fun operand => on.imp (fun f => f.operand ended few operand) Strays.advance
  have less : ∀ {ss upper}, Operand s.peek.kind ss upper →
      s.advance.rest.length = s.rest.length - 1 ∧ 2 ≤ s.rest.length := by
    intro ss upper operand
    have two := ended.two_le operand.ne_eof
    exact ⟨length_advance two,two⟩
  have finish : ∀ {t : State} {e : Expr},
      Follows ts (language [] * (tails lower 9 * K)) t ∨ Strays ts t → Leads ts
        (fun t => ∃ upper, Follows ts (tails lower upper * K) t ∧ level t.peek.kind ≤ upper)
        ((pure e : Parser Expr) t) := by
    intro t e on
    rw [language_nil_mul] at on
    exact .ok (on.imp_left fun f => ⟨9,f,level_le_callLevel _⟩)
  have unary : ∀ {op : UnaryOp}, s.peek.kind ∈ [bang,minus] → Leads ts
      (fun t => ∃ upper, Follows ts (tails lower upper * K) t ∧ level t.peek.kind ≤ upper)
      ((do return .unary op s.peek.pos (← Parser.expression n unaryLevel) : Parser Expr) s.advance) := by
    intro op prefixed
    obtain ⟨shorter,two⟩ := less (.negation prefixed)
    have inner := h.expression 8 (by omega) ended' le_rfl (low_tails low few le_rfl)
      (past (.negation prefixed))
    refine inner.bind ((expressionsRead n).expression (by omega) ended').gets fun e t _ _ on => ?_
    exact .ok (on.imp_left fun f => ⟨8,f⟩)
  -- A token that starts no expression has no value either.
  have nothing : constant? s.peek = none → s.peek.kind ≠ .identifier → s.peek.kind ≠ .kwThis →
      s.peek.kind ≠ .kwSuper → s.peek.kind ≠ .leftParen → s.peek.kind ∉ [bang,minus] → Leads ts
        (fun t => ∃ upper, Follows ts (tails lower upper * K) t ∧ level t.peek.kind ≤ upper)
        ((fail s.peek .noExpression : Parser Expr) s.advance) := by
    intro constant name this inherited group prefixed
    refine leads_fail (on.imp_left fun f => ⟨f,fun w hw => ?_⟩) ended rfl (suffix_advance s)
      (errors_advance s)
    obtain ⟨ss,upper,operand,-⟩ := (mem_expression_cons few).mp hw
    rcases operand.kind with word | kind | kind | kind
    · exact constant?_ne_none (valued _ (f.mem ended)) word name this constant
    · exact inherited kind
    · exact group kind
    · exact prefixed kind
  cases kind : s.peek.kind with
  | identifier => exact finish (past (.word (by rw [kind]; decide)))
  | kwThis => exact finish (past (.word (by rw [kind]; decide)))
  | kwSuper =>
    have operand : Operand s.peek.kind [dot,identifier] 9 := kind ▸ .super
    refine leads_expect (past operand) ended' (by decide) rfl fun _ t ended _ on => ?_
    exact leads_expectName on ended rfl fun _ u _ _ on => finish on
  | leftParen =>
    have operand : Operand s.peek.kind [.expression 1,rightParen] 9 := kind ▸ .group
    obtain ⟨shorter,two⟩ := less operand
    have on := past operand
    rw [language_cons_mul] at on
    have inner := h.expression 0 (by omega) ended' (Nat.zero_le 8) (low_token le_rfl) on
    refine inner.bind ((expressionsRead n).expression (by omega) ended').gets fun e t on _ on' => ?_
    exact leads_expect (on'.imp_left And.left) on.ended (by decide) rfl fun _ u _ _ on => finish on
  | bang => exact unary (by rw [kind]; decide)
  | minus => exact unary (by rw [kind]; decide)
  | _ =>
    cases constant : constant? s.peek with
    | some c => exact finish (past (.word (mem_words_of_constant? constant)))
    | none =>
      exact nothing constant (by simp [kind]) (by simp [kind]) (by simp [kind]) (by simp [kind])
        (by simp [kind])

theorem operators_succ {left : Expr} (enough : 8 * s.rest.length ≤ n + 1) (ended : s.Ended)
    (low : Low lower K)
    (on : (∃ upper, Follows ts (tails lower upper * K) s ∧ level s.peek.kind ≤ upper) ∨ Strays ts s) :
    Leads ts (fun t => Follows ts K t ∧ level t.peek.kind ≤ lower)
      (Parser.operators (n + 1) lower left s) := by
  rw [Parser.operators,peek_bind]
  split
  · next higher =>
    have more : s.peek.kind ≠ .eof := fun e => by simp [e,level] at higher
    have less := length_advance (ended.two_le more)
    have two := ended.two_le more
    have ended' := (onward_advance ended).ended
    have after := le_levelAfter higher
    have past : Follows ts (language (behind s.peek.kind) * (tails lower (levelAfter s.peek.kind) * K))
        s.advance ∨ Strays ts s.advance := by
      rcases on with ⟨upper,follows,fits⟩ | strays
      swap
      · exact .inr strays.advance
      refine .inl (follows.past ended more ?_ fun w => ?_)
      · exact exists_mem_mul (exists_mem_language (proper_behind _))
          (exists_mem_mul ⟨[],.nil⟩ follows.exists_right)
      · rw [mem_tails_cons low,if_pos higher]
        exact and_iff_right fits
    rw [advance_bind _ ended]
    have pos := Nat.zero_lt_of_lt higher
    refine (h.extend (by omega) ended' pos (low_tails low after le_rfl) past).bind
      ((expressionsRead n).extend (by omega) ended' pos).gets fun left' t onward less' on => ?_
    refine h.operators (by omega) onward.ended low (on.imp_left fun on => ⟨_,on⟩)
  · next lower =>
    rcases on with ⟨upper,follows,-⟩ | strays
    swap
    · exact .ok (.inr strays)
    refine .ok (.inl ⟨follows.narrow follows.exists_right ?_ fun w hw => ?_,Nat.le_of_not_lt lower⟩)
    · intro w hw
      exact Language.mem_mul.mpr ⟨[],.nil,w,hw,rfl⟩
    · rwa [mem_tails_cons low,if_neg lower] at hw

theorem arguments_succ {count : ℕ} (enough : 8 * s.rest.length ≤ n + 1) (ended : s.Ended)
    (on : Follows ts (language [moreArguments,rightParen] * K) s ∨ Strays ts s) :
    Leads ts (Follows ts (language [rightParen] * K)) (Parser.arguments (n + 1) count s) := by
  rw [arguments_eq,atKind_bind]
  split
  · next kind =>
    have kind := of_decide_eq_true kind
    have two := ended.two_le fun e => by simp [e] at kind
    have on : Follows ts (language [comma,.expression 1,moreArguments,rightParen] * K) s ∨ Strays ts s :=
      on.imp_left fun f => f.taken optional_moreArguments fun w hw => by
        rw [kind] at hw
        cases (cons_mem_token.mp hw).1
    refine leads_past on ended kind (by decide) fun _ t ended' less on => ?_
    have rest : ∀ {t : State}, t.Ended → t.rest.length ≤ s.rest.length - 1 →
        Follows ts (language [.expression 1,moreArguments,rightParen] * K) t ∨ Strays ts t →
        Leads ts (Follows ts (language [rightParen] * K)) (furtherArguments n count t) := by
      intro t ended less on
      rw [language_cons_mul] at on
      have inner := h.expression 0 (by omega) ended (Nat.zero_le 8) low_moreArguments on
      refine inner.bind ((expressionsRead n).expression (by omega) ended).gets fun _ u on less' on' => ?_
      have others := h.arguments (count + 1) (by omega) on.ended (on'.imp_left And.left)
      refine others.bind ((expressionsRead n).arguments (by omega) on.ended).gets fun _ v _ _ on => ?_
      exact .ok on
    split
    · rw [peek_bind]
      refine leads_report ended' _ rfl fun u ended'' less' _ follows strays => ?_
      exact rest ended'' (less'.trans less) (on.imp (follows _) strays)
    · exact rest ended' less on
  · next other =>
    exact .ok (on.imp_left fun f => f.skipped optional_moreArguments fun w hw =>
      other (decide_eq_true (cons_mem_token.mp hw).1))

/-- The arguments of a call, behind the opening parenthesis. -/
theorem call {left : Expr} (ended : s.Ended) (enough : 8 * s.rest.length + 1 ≤ n)
    (on : Follows ts (language [.arguments,rightParen] * K) s ∨ Strays ts s) :
    Leads ts (fun t => Follows ts K t ∧ level t.peek.kind ≤ levelAfter leftParen)
      (callTail n left s) := by
  have finish : ∀ {t : State} {e : Expr}, Follows ts (language [] * K) t ∨ Strays ts t →
      Leads ts (fun t => Follows ts K t ∧ level t.peek.kind ≤ levelAfter leftParen)
        ((pure e : Parser Expr) t) := by
    intro t e on
    rw [language_nil_mul] at on
    exact .ok (on.imp_left fun f => ⟨f,level_le_callLevel _⟩)
  have pos := ended.pos
  rw [callTail,atKind_bind]
  split
  · next close =>
    have close := of_decide_eq_true close
    have on : Follows ts (language [rightParen] * K) s ∨ Strays ts s :=
      on.imp_left fun f => f.skipped optional_arguments fun w hw => by
        have start := starts_of_cons rfl hw
        rw [close] at start
        cases start
    exact leads_past on ended close (by decide) fun _ t _ _ on => finish on
  · next other =>
    have on : Follows ts (language [.expression 1,moreArguments,rightParen] * K) s ∨ Strays ts s :=
      on.imp_left fun f => f.taken optional_arguments fun w hw =>
        absurd (decide_eq_true (cons_mem_token.mp hw).1) other
    rw [language_cons_mul] at on
    refine (h.expression 0 (by omega) ended (Nat.zero_le 8) low_moreArguments on).bind
      ((expressionsRead n).expression (by omega) ended).gets fun _ t onward less on => ?_
    refine (h.arguments 1 (by omega) onward.ended (on.imp_left And.left)).bind
      ((expressionsRead n).arguments (by omega) onward.ended).gets fun _ u onward' _ on => ?_
    exact leads_expect on onward'.ended (by decide) rfl fun _ v _ _ on => finish on

theorem extend_succ {op : Token} {left : Expr} (enough : 8 * s.rest.length + 2 ≤ n + 1)
    (ended : s.Ended) (higher : 0 < level op.kind) (low : Low (levelAfter op.kind) K)
    (on : Follows ts (language (behind op.kind) * K) s ∨ Strays ts s) :
    Leads ts (fun t => Follows ts K t ∧ level t.peek.kind ≤ levelAfter op.kind)
      (Parser.extend (n + 1) op left s) := by
  have pos := ended.pos
  have gets : ∀ lower, Gets _ _ s (Parser.expression n lower s) := fun _ =>
    ((expressionsRead n).expression (by omega) ended).gets
  -- An operator that joins takes an operand that binds more strongly.
  have joined : ∀ {f : Expr → Expr}, op.kind ≠ equal → op.kind ≠ dot → op.kind ≠ leftParen → Leads ts
      (fun t => Follows ts K t ∧ level t.peek.kind ≤ levelAfter op.kind)
      ((do return f (← Parser.expression n (level op.kind)) : Parser Expr) s) := by
    intro f assign access callee
    obtain ⟨-,two,most,right,-⟩ := mem_joining (mem_joining_level higher assign access callee)
    have after : levelAfter op.kind = level op.kind := by rw [levelAfter,if_neg assign]
    rw [after] at low ⊢
    rw [right,show level op.kind + 1 = min (level op.kind + 1) 8 by omega] at on
    refine (h.expression _ (by omega) ended (by omega) low on).bind (gets _) fun d t _ _ on => ?_
    exact .ok on
  rw [Parser.extend]
  cases binary : binaryOp? op.kind with
  | some _ =>
    exact joined (fun e => by simp [e,binaryOp?] at binary)
      (fun e => by simp [e,binaryOp?] at binary) (fun e => by simp [e,binaryOp?] at binary)
  | none =>
    cases logical : logicalOp? op.kind with
    | some _ =>
      exact joined (fun e => by simp [e,logicalOp?] at logical)
        (fun e => by simp [e,logicalOp?] at logical) (fun e => by simp [e,logicalOp?] at logical)
    | none =>
      obtain kind | kind | kind := eq_of_level_pos higher binary logical
      · rw [kind] at low on ⊢
        refine (h.expression 0 (by omega) ended (Nat.zero_le 8) low on).bind (gets _)
          fun d t onward _ on => ?_
        exact leads_assignment onward.ended on
      · rw [kind] at low on ⊢
        refine leads_expectName on ended rfl fun _ t _ _ on => ?_
        rw [language_nil_mul] at on
        exact .ok (on.imp_left fun f => ⟨f,level_le_callLevel _⟩)
      · rw [kind] at on ⊢
        exact h.call ended (by omega) on

end ExpressionsTrack

theorem expressionsTrack (valued : ∀ t ∈ ts, t.Valued) (n : ℕ) : ExpressionsTrack ts n := by
  induction n with
  | zero =>
    constructor
    case operand => exact fun enough ended => absurd enough ended.unspent
    case operators => exact fun enough ended => absurd enough ended.unspent
    case arguments =>
      intro count K s enough ended
      exact absurd enough ended.unspent
    all_goals intros; omega
  | succ n ih =>
    exact ⟨fun _ => ih.expression_succ,ih.operand_succ valued,ih.operators_succ,ih.extend_succ,
      fun _ => ih.arguments_succ⟩

end
end Parser
end Lox
