import Lox.Proofs.Ast.Phrases
import Lox.Proofs.Ast.Wording

/-! # Operators behind an operand

The expressions of a level are those that start with an operand and go on with operators that bind
more strongly than the level below it. What an operator may stand behind is bounded from above by the
operator before it.
-/
namespace Lox
namespace Symbol
open Token.Kind Lox.Parser

/-- How strongly the operators behind an operator and its right operand can bind. -/
def levelAfter (k : Token.Kind) : ℕ := if k = equal then 0 else level k

/-- What an operator has on its right. -/
def behind : Token.Kind → List Symbol
  | equal => [expression 1]
  | dot => [identifier]
  | leftParen => [arguments,rightParen]
  | k => [expression (level k + 1)]

/-- Operators with what they have on their right. All bind more strongly than `lower`, and the first
one at most as strongly as a bound. -/
inductive Tail (lower : ℕ) : ℕ → List Token.Kind → Prop
  | nil {upper} : Tail lower upper []
  | cons {upper k v w} : lower < level k → level k ≤ upper → v ∈ language (behind k) →
      Tail lower (levelAfter k) w → Tail lower upper (k :: (v ++ w))

def tails (lower upper : ℕ) : Language Token.Kind := {w | Tail lower upper w}

/-- A prefix operator with its operand. -/
def negations : Language Token.Kind := {w | ∃ op ∈ [bang,minus], ∃ v ∈ language [expression 8], w = op :: v}

section
variable {l l' lower upper : ℕ} {k : Token.Kind} {v w : List Token.Kind}

theorem mem_joining {op : Token.Kind} (h : op ∈ joining l) :
    level op = l ∧ 2 ≤ l ∧ l ≤ 7 ∧ behind op = [expression (l + 1)] ∧ op ≠ equal := by
  unfold joining at h
  split at h <;> revert h <;> cases op <;> simp [level,behind]

theorem mem_joining_level (h : 0 < level k) (h₁ : k ≠ equal) (h₂ : k ≠ dot) (h₃ : k ≠ leftParen) :
    k ∈ joining (level k) := by
  cases k <;> revert h h₁ h₂ h₃ <;> decide

/-! ## From operands and operators to expressions -/

/-- An operator makes an expression of its left operand and what it has on its right. -/
theorem mem_expression_levelAfter (pos : 0 < level k) (hv : v ∈ language [expression (max 2 (level k))])
    (hw : w ∈ language (behind k)) : v ++ k :: w ∈ language [expression (max 1 (levelAfter k))] := by
  have item : k :: w ∈ language (token k :: behind k) := .token hw
  have made : ∀ {l : ℕ}, Rule (expression l) (expression (max 2 (level k)) :: token k :: behind k) →
      v ++ k :: w ∈ language [expression l] := fun rule => by
    refine .form rule ?_
    rw [List.append_nil]
    exact Yields.append hv item
  by_cases assign : k = equal
  · subst assign
    exact made .assignment
  · have after : max 1 (levelAfter k) = level k := by rw [levelAfter,if_neg assign]; omega
    rw [after]
    by_cases access : k = dot
    · subst access
      exact made .property
    by_cases callee : k = leftParen
    · subst callee
      exact made .call
    · have joined := mem_joining_level pos assign access callee
      obtain ⟨-,two,-,right,-⟩ := mem_joining joined
      refine made ?_
      rw [right,max_eq_right two]
      exact .join joined

theorem Tail.mem_expression (tail : Tail lower upper w) (most : upper ≤ 9) (ne : upper ≠ 1)
    (bound : min (lower + 1) 8 ≤ max 1 upper) (hv : v ∈ language [expression (max 1 upper)]) :
    v ++ w ∈ language [expression (min (lower + 1) 8)] := by
  induction tail generalizing v with
  | nil =>
    rw [List.append_nil]
    exact expression_le (by omega) bound (by omega) hv
  | @cons upper k item rest higher fits hi _ ih =>
    have left : v ∈ language [expression (max 2 (level k))] :=
      expression_le (by omega) (by omega) (by omega) hv
    have more := mem_expression_levelAfter (by omega) left hi
    have after : levelAfter k ≤ 9 ∧ levelAfter k ≠ 1 ∧ min (lower + 1) 8 ≤ max 1 (levelAfter k) := by
      have := level_le_callLevel k
      unfold levelAfter Expr.callLevel at *
      split
      · next assign =>
        subst assign
        simp only [level] at higher
        omega
      · next assign =>
        have : level k ≠ 1 := by
          revert assign
          cases k <;> decide
        omega
    have whole := ih after.1 after.2.1 after.2.2 more
    rwa [List.append_assoc,List.cons_append] at whole

/-! ## From expressions to operands and operators -/

theorem Tail.mono {lower' : ℕ} (tail : Tail lower upper w) (h : lower' ≤ lower) : Tail lower' upper w := by
  induction tail with
  | nil => exact .nil
  | cons higher fits hv _ ih => exact .cons (h.trans_lt higher) fits hv ih

/-- No operator binds as strongly as a prefix operator. -/
theorem Tail.unary (tail : Tail 7 upper w) : Tail 8 upper w := by
  induction tail with
  | nil => exact .nil
  | @cons upper k _ _ higher fits hv _ ih =>
    refine .cons ?_ fits hv ih
    revert higher
    cases k <;> decide

/-- Another operator at the end, one that binds no more strongly than those before it. -/
theorem Tail.append {lower' upper : ℕ} (tail : Tail lower upper w) (pos : 1 ≤ lower) (less : lower' ≤ lower)
    (higher : lower' < level k) (weak : level k ≤ lower + 1) (fits : level k ≤ upper)
    (hv : v ∈ language (behind k)) : Tail lower' upper (w ++ k :: v) := by
  induction tail with
  | @nil upper =>
    have last : Tail lower' upper (k :: (v ++ [])) := .cons higher fits hv .nil
    rwa [List.append_nil] at last
  | @cons upper op item rest higher' fits' hi _ ih =>
    have assign : op ≠ equal := by
      rintro rfl
      simp only [level] at higher'
      omega
    have more := ih (by rw [levelAfter,if_neg assign]; omega)
    rw [List.cons_append,List.append_assoc]
    exact .cons (less.trans_lt higher') fits' hi more

/-- An operand with operators behind it that bind at least as strongly as a level. -/
inductive Operated (l : ℕ) : List Token.Kind → Prop
  | primary (v w : List Token.Kind) : v ∈ language [expression 10] → Tail (l - 1) 9 w →
      Operated l (v ++ w)
  | negated (v w : List Token.Kind) : l ≤ 8 → v ∈ negations → Tail (l - 1) 8 w → Operated l (v ++ w)

theorem Operated.mono (h : Operated l' w) (less : l ≤ l') : Operated l w := by
  cases h with
  | primary v w hv tail => exact .primary v w hv (tail.mono (by omega))
  | negated v w few hv tail => exact .negated v w (by omega) hv (tail.mono (by omega))

theorem Operated.append (h : Operated l v) (two : 2 ≤ l) (pos : 1 ≤ l') (less : l' ≤ l)
    (higher : l' ≤ level k) (weak : level k ≤ l) (hw : w ∈ language (behind k)) :
    Operated l' (v ++ k :: w) := by
  have := level_le_callLevel k
  unfold Expr.callLevel at this
  cases h with
  | primary v t hv tail =>
    rw [List.append_assoc]
    exact .primary v _ hv (tail.append (by omega) (by omega) (by omega) (by omega) (by omega) hw)
  | negated v t few hv tail =>
    rw [List.append_assoc]
    exact .negated v _ (by omega) hv (tail.append (by omega) (by omega) (by omega) (by omega) (by omega) hw)

theorem operated_of_mem (h : w ∈ language [expression l]) : Operated l w := by
  let M : Symbol → Language Token.Kind := fun a =>
    {w | w ∈ language [a] ∧ ∀ l, a = expression l → Operated l w}
  have sound : ∀ ss, (ss.map M).prod ≤ language ss := prod_le_language fun a w h => h.1
  -- An operator behind an expression of a higher level or its own.
  have operator : ∀ {l l' op w}, 2 ≤ l → 1 ≤ l' → l' ≤ l → l' ≤ level op → level op ≤ l →
      w ∈ ((expression l :: token op :: behind op).map M).prod → Operated l' w := by
    intro l l' op w two pos less higher weak hw
    obtain ⟨u,hu,v,hv,rfl⟩ := Language.mem_mul.mp hw
    obtain ⟨_,ht,_,hx,rfl⟩ := Language.mem_mul.mp hv
    obtain rfl := eq_of_mem_token ht.1
    exact (hu.2 l rfl).append two pos less higher weak (sound _ hx)
  have forms : ∀ a form, Rule a form → (form.map M).prod ≤ M a := by
    intro a form rule w hw
    refine ⟨?_,?_⟩
    · refine .form rule ?_
      rw [List.append_nil]
      exact sound form hw
    rintro l rfl
    cases rule with
    | assignment => exact operator (by decide) (by decide) (by decide) (by decide) (by decide) hw
    | join hop =>
      obtain ⟨same,two,-,right,-⟩ := mem_joining hop
      rw [← right] at hw
      exact operator two (by omega) le_rfl same.ge same.le hw
    | negation hop =>
      obtain ⟨u,hu,v,hv,rfl⟩ := Language.mem_mul.mp hw
      obtain rfl := eq_of_mem_token hu.1
      rw [← List.append_nil (_ ++ v)]
      exact .negated _ [] le_rfl ⟨_,hop,v,sound [_] hv,rfl⟩ .nil
    | call => exact operator (by decide) (by decide) (by decide) (by decide) (by decide) hw
    | property => exact operator (by decide) (by decide) (by decide) (by decide) (by decide) hw
    | stronger pos less =>
      rw [List.map_singleton,List.prod_singleton] at hw
      exact (hw.2 _ rfl).mono (Nat.le_succ l)
    | word hk =>
      rw [← List.append_nil w]
      exact .primary w [] (.form (.word hk) (sound _ hw)) .nil
    | super =>
      rw [← List.append_nil w]
      exact .primary w [] (.form .super (sound _ hw)) .nil
    | group =>
      rw [← List.append_nil w]
      exact .primary w [] (.form .group (sound _ hw)) .nil
  refine (mem_of_closed (M := M) (fun k => ⟨.token .nil,fun l e => by cases e⟩) forms h).2 l rfl

theorem Operated.split (h : Operated (min (lower + 1) 8) w) (few : lower ≤ 8) :
    (∃ u ∈ language [expression 10], ∃ v ∈ tails lower 9, u ++ v = w) ∨
      ∃ u ∈ negations, ∃ v ∈ tails lower 8, u ++ v = w := by
  have shift : ∀ {upper : ℕ} {w : List Token.Kind}, Tail (min (lower + 1) 8 - 1) upper w →
      Tail lower upper w := by
    intro upper w tail
    rcases few.eq_or_lt with rfl | few
    · exact tail.unary
    · rwa [show min (lower + 1) 8 - 1 = lower by omega] at tail
  cases h with
  | primary u v hu tail => exact .inl ⟨u,hu,v,shift tail,rfl⟩
  | negated u v _ hu tail => exact .inr ⟨u,hu,v,shift tail,rfl⟩

/-- An expression whose operators bind more strongly than a level is an operand with such operators
behind it. -/
theorem language_expression (few : lower ≤ 8) : language [expression (min (lower + 1) 8)] =
    language [expression 10] * tails lower 9 + negations * tails lower 8 := by
  ext w
  rw [Language.mem_add,Language.mem_mul,Language.mem_mul]
  constructor
  · intro h
    exact (operated_of_mem h).split few
  · rintro (⟨u,hu,v,hv,rfl⟩ | ⟨u,⟨op,hop,x,hx,rfl⟩,v,hv,rfl⟩)
    · exact Tail.mem_expression hv le_rfl (by decide) (by omega)
        (expression_le (by decide) (by decide) le_rfl hu)
    · refine Tail.mem_expression hv (by decide) (by decide) (by omega) ?_
      exact .form (.negation hop) (.token hx)

/-! ## The next token -/

/-- What an operand goes on with behind its first token, and how strongly the operators behind it can
bind. -/
inductive Operand : Token.Kind → List Symbol → ℕ → Prop
  | word {t} : t ∈ words → Operand t [] 9
  | super : Operand kwSuper [dot,identifier] 9
  | group : Operand leftParen [expression 1,rightParen] 9
  | negation {t} : t ∈ [bang,minus] → Operand t [expression 8] 8

theorem Operand.unique {ss ss' : List Symbol} {u u' : ℕ} (h : Operand k ss u) (h' : Operand k ss' u') :
    ss' = ss ∧ u' = u := by
  have apart : k ∈ words → k ∉ [bang,minus] := by cases k <;> simp [words]
  cases h <;> cases h' <;> simp_all [words]

theorem Operand.kind {ss : List Symbol} (h : Operand k ss upper) :
    k ∈ words ∨ k = kwSuper ∨ k = leftParen ∨ k ∈ [bang,minus] := by
  cases h <;> simp_all

theorem Operand.ne_eof {ss : List Symbol} (h : Operand k ss upper) : k ≠ eof := by
  rintro rfl
  have := h.kind
  simp [words] at this

theorem Operand.proper {ss : List Symbol} (h : Operand k ss upper) : ∀ a ∈ ss, a.Proper := by
  cases h <;> simp [Proper]

theorem mem_primary_cons {K : Language Token.Kind} : k :: w ∈ language [expression 10] * K ↔
    ∃ ss, Operand k ss 9 ∧ w ∈ language ss * K := by
  constructor
  · intro h
    obtain ⟨form,rule,h⟩ := exists_form Rule.super.phrase h
    rw [List.append_nil] at h
    cases rule with
    | join hop => cases hop
    | stronger _ less => exact absurd less (Nat.lt_irrefl 10)
    | word hk =>
      obtain ⟨rfl,rest⟩ := cons_mem_token.mp h
      exact ⟨_,.word hk,rest⟩
    | super =>
      obtain ⟨rfl,rest⟩ := cons_mem_token.mp h
      exact ⟨_,.super,rest⟩
    | group =>
      obtain ⟨rfl,rest⟩ := cons_mem_token.mp h
      exact ⟨_,.group,rest⟩
  · rintro ⟨ss,operand,h⟩
    have rule : Rule (expression 10) (token k :: ss) := by
      cases operand with
      | word hk => exact .word hk
      | super => exact .super
      | group => exact .group
    exact rule.le_single (cons_mem_token.mpr ⟨rfl,h⟩)

theorem mem_negations_cons {K : Language Token.Kind} : k :: w ∈ negations * K ↔
    ∃ ss, Operand k ss 8 ∧ w ∈ language ss * K := by
  simp only [Language.mem_mul]
  constructor
  · rintro ⟨_,⟨op,hop,u,hu,rfl⟩,v,hv,e⟩
    cases e
    exact ⟨_,.negation hop,u,hu,v,hv,rfl⟩
  · rintro ⟨ss,operand,u,hu,v,hv,rfl⟩
    cases operand with
    | negation hop => exact ⟨k :: u,⟨k,hop,u,hu,rfl⟩,v,hv,rfl⟩

/-- What a word of an expression goes on with, by its first token. -/
theorem mem_expression_cons {K : Language Token.Kind} (few : lower ≤ 8) :
    k :: w ∈ language [expression (min (lower + 1) 8)] * K ↔
      ∃ ss upper, Operand k ss upper ∧ w ∈ language ss * (tails lower upper * K) := by
  rw [language_expression few,add_mul,mul_assoc,mul_assoc,Language.mem_add,mem_primary_cons,
    mem_negations_cons]
  constructor
  · rintro (⟨ss,operand,h⟩ | ⟨ss,operand,h⟩)
    · exact ⟨ss,9,operand,h⟩
    · exact ⟨ss,8,operand,h⟩
  · rintro ⟨ss,upper,operand,h⟩
    cases operand with
    | negation hop => exact .inr ⟨_,.negation hop,h⟩
    | word hk => exact .inl ⟨_,.word hk,h⟩
    | super => exact .inl ⟨_,.super,h⟩
    | group => exact .inl ⟨_,.group,h⟩

/-- What operators go on with, by the next token. -/
theorem mem_tails_cons {K : Language Token.Kind} (low : ∀ k w, k :: w ∈ K → level k ≤ lower) :
    k :: w ∈ tails lower upper * K ↔ if lower < level k then
      level k ≤ upper ∧ w ∈ language (behind k) * (tails lower (levelAfter k) * K) else k :: w ∈ K := by
  simp only [Language.mem_mul]
  constructor
  · rintro ⟨u,tail,v,hv,e⟩
    cases tail with
    | nil =>
      cases e
      rwa [if_neg (Nat.not_lt_of_le (low k w hv))]
    | cons higher fits hi tail =>
      cases e
      rw [if_pos higher]
      exact ⟨fits,_,hi,_,⟨_,tail,v,hv,rfl⟩,(List.append_assoc _ _ _).symm⟩
  · split
    · next higher =>
      rintro ⟨fits,x,hx,_,⟨t,tail,v,hv,rfl⟩,rfl⟩
      exact ⟨k :: (x ++ t),.cons higher fits hx tail,v,hv,by rw [List.cons_append,List.append_assoc]⟩
    · intro h
      exact ⟨[],.nil,k :: w,h,rfl⟩

end
end Symbol
end Lox
