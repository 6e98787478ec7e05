import Lox.Ast.Unresolved
import Lox.Proofs.Ast.Wording

/-! # Parsing rendered expressions

The parser gives the words of an expression back as that expression. It comes to the loop over
operators with the whole expression on the left as long as the token behind binds no more
strongly; the bound on nested calls that is left then is enough for the tokens that are left.
-/
namespace Lox
namespace Parser
open Word

/-- Trees that differ in nothing but their positions. -/
def Anywhere (_ _ : Pos) : Prop := True

/-- The tokens of some words come next, and other tokens behind them. -/
structure Ahead (s : State) (ws : List Word) (us : List Token) : Prop where
  more : us ≠ []
  words : ∃ ts, s.rest = ts ++ us ∧ ts.map Token.word = ws

/-- A parser succeeds in silence in front of some tokens. -/
def Yields {α : Type} (x : Parser α) (s : State) (us : List Token) (Q : α → Prop) : Prop :=
  ∃ v t, x s = .ok v t ∧ t.rest = us ∧ t.errors = s.errors ∧ Q v

/-- The kind of the first of some tokens. -/
def nextKind (us : List Token) : Token.Kind := (us.headD default).kind

section
variable {α β : Type} {s : State} {us vs : List Token} {ws ws' : List Word} {w : Word}
  {Q Q' : α → Prop} {R : β → Prop}

theorem kind_peek (h : s.rest = us) (more : us ≠ []) : s.peek.kind = nextKind us := by
  obtain ⟨u,us,rfl⟩ := List.exists_cons_of_ne_nil more
  simp [State.peek,h,nextKind]

theorem Ahead.nil (more : us ≠ []) (h : s.rest = us) : Ahead s [] us := ⟨more,[],h,rfl⟩

theorem Ahead.rest_eq (h : Ahead s [] us) : s.rest = us := by
  obtain ⟨-,ts,rest,words⟩ := h
  obtain rfl := List.map_eq_nil_iff.mp words
  exact rest

theorem Ahead.append (h : Ahead s (ws ++ ws') us) :
    ∃ vs, Ahead s ws vs ∧ ∀ t : State, t.rest = vs → Ahead t ws' us := by
  obtain ⟨more,ts,rest,words⟩ := h
  obtain ⟨ts,ts',rfl,rfl,rfl⟩ := List.map_eq_append_iff.mp words
  refine ⟨ts' ++ us,⟨by simp [more],ts,by rw [rest,List.append_assoc],rfl⟩,fun _ same => ?_⟩
  exact ⟨more,ts',same,rfl⟩

theorem Ahead.peek (h : Ahead s (w :: ws) us) : s.peek.word = w := by
  obtain ⟨-,ts,rest,words⟩ := h
  obtain ⟨t,ts,rfl,word,rfl⟩ := List.map_eq_cons_iff.mp words
  rw [State.peek,rest]
  exact word

theorem Ahead.kind (h : Ahead s (w :: ws) us) : s.peek.kind = w.kind := congrArg Word.kind h.peek

/-- What stands in front of a word is followed by its kind. -/
theorem Ahead.append_cons (h : Ahead s (ws ++ w :: ws') us) :
    ∃ vs, Ahead s ws vs ∧ nextKind vs = w.kind ∧ ∀ t : State, t.rest = vs → Ahead t (w :: ws') us := by
  obtain ⟨vs,front,behind⟩ := h.append
  have back := behind ⟨default,vs,[]⟩ rfl
  exact ⟨vs,front,(kind_peek rfl front.more).symm.trans back.kind,behind⟩

theorem Yields.bind {x : Parser α} {f : α → Parser β} (first : Yields x s us Q)
    (next : ∀ v t, t.rest = us → Q v → Yields (f v) t vs R) : Yields (x >>= f) s vs R := by
  obtain ⟨v,t,e,rest,silent,told⟩ := first
  obtain ⟨w,u,e',rest',silent',told'⟩ := next v t rest told
  refine ⟨w,u,?_,rest',silent'.trans silent,told'⟩
  simp only [Bind.bind,EStateM.bind,e,e']

theorem Yields.pure {v : α} (h : s.rest = us) (told : Q v) : Yields (pure v) s us Q :=
  ⟨v,s,rfl,h,rfl,told⟩

theorem Yields.imp {x : Parser α} (h : Yields x s us Q) (hq : ∀ v, Q v → Q' v) :
    Yields x s us Q' := by
  obtain ⟨v,t,e,rest,silent,told⟩ := h
  exact ⟨v,t,e,rest,silent,hq v told⟩

theorem Yields.map {x : Parser α} {f : α → β} (h : Yields x s us Q) (hq : ∀ v, Q v → R (f v)) :
    Yields (f <$> x) s us R := by
  obtain ⟨v,t,e,rest,silent,told⟩ := h
  refine ⟨f v,t,?_,rest,silent,hq v told⟩
  simp only [Functor.map,EStateM.map,e]

/-! ## Single operations -/

theorem yields_peek {f : Token → Parser β} (h : Yields (f s.peek) s us R) :
    Yields (do let t ← peek; f t) s us R := h

/-- A choice by the kind of the next token. -/
theorem yields_then {x y : Parser β} {k : Token.Kind} (found : s.peek.kind = k)
    (h : Yields x s us R) : Yields (do if ← atKind k then x else y) s us R := by
  obtain ⟨v,t,e,told⟩ := h
  refine ⟨v,t,?_,told⟩
  simp only [Bind.bind,EStateM.bind,atKind,found,decide_true,if_true,e]

theorem yields_else {x y : Parser β} {k : Token.Kind} (other : s.peek.kind ≠ k)
    (h : Yields y s us R) : Yields (do if ← atKind k then x else y) s us R := by
  obtain ⟨v,t,e,told⟩ := h
  refine ⟨v,t,?_,told⟩
  simp only [Bind.bind,EStateM.bind,atKind,other,decide_false,Bool.false_eq_true,if_false,e]

/-- A parser behind the next word. -/
theorem yields_past {f : Token → Parser β} (h : Ahead s (w :: ws) us)
    (next : ∀ v t, v = s.peek → Ahead t ws us → Yields (f v) t vs R) :
    Yields (do let v ← advance; f v) s vs R := by
  obtain ⟨more,ts,rest,words⟩ := h
  obtain ⟨t,ts,rfl,rfl,rfl⟩ := List.map_eq_cons_iff.mp words
  obtain ⟨u,us',eq⟩ : ∃ u us', ts ++ us = u :: us' := List.exists_cons_of_ne_nil (by simp [more])
  have moved : advance s = .ok s.peek { s with last := t, rest := u :: us' } := by
    simp only [advance,rest_advance (rest.trans (congrArg (t :: ·) eq)),State.peek,rest,
      List.cons_append,List.headD_cons]
  obtain ⟨v,t',e,rest',silent,told⟩ :=
    next s.peek { s with last := t, rest := u :: us' } rfl ⟨more,ts,eq.symm,rfl⟩
  refine ⟨v,t',?_,rest',silent,told⟩
  simp only [Bind.bind,EStateM.bind,moved,e]

/-- A parser behind a word that has to come next. -/
theorem yields_over {f : Token → Parser β} {k : Token.Kind} {e : ParseError}
    (h : Ahead s (w :: ws) us) (kind : w.kind = k)
    (next : ∀ v t, v = s.peek → Ahead t ws us → Yields (f v) t vs R) :
    Yields (do let v ← expect k e; f v) s vs R := by
  have found : s.peek.kind = k := h.kind.trans kind
  obtain ⟨v,t,e',told⟩ := yields_past h next
  refine ⟨v,t,?_,told⟩
  simp only [Bind.bind,EStateM.bind,expect,Parser.peek,found,if_true] at e' ⊢
  exact e'

/-- A parser behind a name. -/
theorem yields_name {f : Name → Parser β} {text : String} {e : ParseError}
    (h : Ahead s (identifier text :: ws) us)
    (next : ∀ (name : Name) t, name.text = text → Ahead t ws us → Yields (f name) t vs R) :
    Yields (do let name ← expectName e; f name) s vs R := by
  have found := yields_over (k := .identifier) (e := e) (f := fun v => f ⟨v.lexeme,v.pos⟩) h rfl fun v t same ahead =>
    next ⟨v.lexeme,v.pos⟩ t (by rw [same]; exact congrArg Word.lexeme h.peek) ahead
  obtain ⟨v,t,e',told⟩ := found
  refine ⟨v,t,?_,told⟩
  simp only [Bind.bind,EStateM.bind,expectName] at e' ⊢
  cases e'' : expect .identifier e s with
  | ok v t => rw [e''] at e'; exact e'
  | error _ _ => rw [e''] at e'; cases e'

end

/-! ## Operators -/

section
variable {s : State} {us vs : List Token} {n lower size : Nat} {d e : Expr}

/-- The parser of an expression comes to the loop over operators with a tree of so many words. -/
def Continues (n lower : Nat) (s : State) (us : List Token) (e : Expr) (size : Nat) : Prop :=
  ∃ m v t, expression n lower s = operators m lower v t ∧ t.rest = us ∧ t.errors = s.errors ∧
    Expr.Alike Anywhere e v ∧ n ≤ m + 8 * size

theorem continues_operand (pos : 0 < size)
    (h : Yields (operand n) s us (Expr.Alike Anywhere e)) : Continues (n + 1) lower s us e size := by
  obtain ⟨v,t,e',rest,silent,like⟩ := h
  refine ⟨n,v,t,?_,rest,silent,like,by omega⟩
  simp only [expression,Bind.bind,EStateM.bind,e']

/-- One more operator behind an expression. -/
theorem Continues.extend (first : Continues n lower s vs d size) (enough : 8 * size + 1 ≤ n)
    {size' : Nat} (more : size < size')
    (next : ∀ m v t, n ≤ m + 1 + 8 * size → t.rest = vs → Expr.Alike Anywhere d v →
      lower < level t.peek.kind ∧
        Yields (do let _ ← advance; Parser.extend m t.peek v) t us (Expr.Alike Anywhere e)) :
    Continues n lower s us e size' := by
  obtain ⟨m,v,t,e',rest,silent,like,bound⟩ := first
  obtain ⟨m,rfl⟩ : ∃ l, m = l + 1 := ⟨m - 1,by omega⟩
  obtain ⟨higher,w,u,e'',rest',silent',like'⟩ := next m v t bound rest like
  refine ⟨m,w,u,?_,rest',silent'.trans silent,like',by omega⟩
  rw [e',operators]
  simp only [Bind.bind,EStateM.bind,peek,if_pos higher] at e'' ⊢
  cases ea : advance t with
  | error _ _ => rw [ea] at e''; cases e''
  | ok a t' =>
    rw [ea] at e''
    simp only at e'' ⊢
    rw [e'']

/-- The loop stops at a token that binds no more strongly than asked. -/
theorem Continues.yields (h : Continues n lower s us e size) (enough : 8 * size + 1 ≤ n)
    (more : us ≠ []) (stop : level (nextKind us) ≤ lower) :
    Yields (expression n lower) s us (Expr.Alike Anywhere e) := by
  obtain ⟨m,v,t,e',rest,silent,like,bound⟩ := h
  obtain ⟨m,rfl⟩ : ∃ l, m = l + 1 := ⟨m - 1,by omega⟩
  refine ⟨v,t,?_,rest,silent,like⟩
  have none : ¬lower < level t.peek.kind := by
    rw [kind_peek rest more]
    exact Nat.not_lt_of_le stop
  rw [e',operators]
  simp only [Bind.bind,EStateM.bind,peek,if_neg none]
  rfl

end

/-! ## Expressions -/

/-- What the words of an expression are read as, wherever it can stand: no operator behind it binds
more strongly, and none at all stands behind an assignment. -/
def Retrieved (e : Expr) : Prop :=
  ∀ ⦃s : State⦄ ⦃us : List Token⦄ ⦃n lower : Nat⦄, Ahead s e.words us →
    level (nextKind us) ≤ e.level → (e.level = Expr.assignmentLevel → level (nextKind us) = 0) →
    (lower < e.level ∨ lower = Expr.unaryLevel ∧ lower ≤ e.level) → 8 * e.words.length + 1 ≤ n →
    Continues n lower s us e.unresolved e.words.length

/-- What the words of further arguments are read as. -/
def ArgumentsRetrieved (es : List Expr) : Prop :=
  ∀ ⦃s : State⦄ ⦃us : List Token⦄ ⦃n count : Nat⦄,
    Ahead s ((es.map Expr.words).flatMap (fixed .comma :: ·)) us → nextKind us = .rightParen →
    count + es.length ≤ maxArguments →
    8 * ((es.map Expr.words).flatMap (fixed .comma :: ·)).length + 1 ≤ n →
    Yields (arguments n count) s us (ArgumentsAlike Anywhere (unresolvedArguments es))

theorem Retrieved.yields {e : Expr} (h : Retrieved e) {s : State} {us : List Token} {n lower : Nat}
    (ahead : Ahead s e.words us) (stop : level (nextKind us) ≤ lower)
    (weak : lower < e.level ∨ lower = Expr.unaryLevel ∧ lower ≤ e.level)
    (enough : 8 * e.words.length + 1 ≤ n) :
    Yields (expression n lower) s us (Expr.Alike Anywhere e.unresolved) := by
  have le : lower ≤ e.level := weak.elim Nat.le_of_lt And.right
  refine (h ahead (Nat.le_trans stop le) ?_ weak enough).yields enough ahead.more stop
  intro assignment
  simp only [Expr.assignmentLevel,Expr.unaryLevel] at *
  omega

theorem length_parenthesized (ws : List Word) : (parenthesized ws).length = ws.length + 2 := by
  simp [parenthesized]

theorem level_pos (e : Expr) : lowestLevel < e.level := by
  cases e with
  | binary _ op => cases op <;> exact Nat.zero_lt_succ _
  | logical _ op => cases op <;> exact Nat.zero_lt_succ _
  | _ => exact Nat.zero_lt_succ _

theorem constant?_of_words {value : Constant} {t : Token} (h : value.words = [t.word]) :
    constant? t = some value := by
  obtain ⟨kind,lexeme,literal,pos⟩ := t
  cases value with
  | bool b => cases b <;> cases h <;> rfl
  | always => cases h
  | _ => cases h; rfl

theorem yields_constant {s : State} {us : List Token} {n : Nat} {value : Constant} {pos : Pos}
    {w : Word} (words : value.words = [w]) (h : Ahead s [w] us) :
    Yields (operand (n + 1)) s us (Expr.Alike Anywhere (.literal value pos)) := by
  rw [operand]
  refine yields_past h fun t s' same behind => ?_
  have constant : constant? t = some value :=
    constant?_of_words (by rw [words,same,h.peek])
  cases kind : t.kind with
  | identifier | kwThis | kwSuper | leftParen | bang | minus => simp [constant?,kind] at constant
  | _ =>
    rw [constant]
    exact .pure behind.rest_eq (.literal trivial)

theorem retrieved_literal {value : Constant} {pos : Pos} (h : (Expr.literal value pos).Grammatical) :
    Retrieved (.literal value pos) := by
  intro s us n lower ahead _ _ _ enough
  obtain ⟨w,words⟩ : ∃ w, value.words = [w] := by
    cases value with
    | always => exact h.elim
    | bool b => cases b <;> exact ⟨_,rfl⟩
    | _ => exact ⟨_,rfl⟩
  simp only [Expr.words,words] at ahead enough ⊢
  obtain ⟨n,rfl⟩ : ∃ l, n = l + 2 := ⟨n - 2,by simp only [List.length_singleton] at enough; omega⟩
  exact continues_operand Nat.one_pos (yields_constant words ahead)

theorem retrieved_var (r : Reference) : Retrieved (.var r) := by
  intro s us n lower ahead _ _ _ enough
  obtain ⟨n,rfl⟩ : ∃ l, n = l + 2 := ⟨n - 2,by simp only [Expr.words,List.length_singleton] at enough; omega⟩
  refine continues_operand (by simp [Expr.words]) ?_
  rw [operand]
  refine yields_past ahead fun t s' same behind => ?_
  have word : t.word = identifier r.name.text := same ▸ ahead.peek
  have kind : t.kind = .identifier := congrArg Word.kind word
  simp only [kind]
  exact .pure behind.rest_eq (.var ⟨⟨(congrArg Word.lexeme word).symm,trivial⟩,rfl⟩)

theorem retrieved_this (pos : Pos) (depth : Option Nat) : Retrieved (.this pos depth) := by
  intro s us n lower ahead _ _ _ enough
  obtain ⟨n,rfl⟩ : ∃ l, n = l + 2 := ⟨n - 2,by simp only [Expr.words,List.length_singleton] at enough; omega⟩
  refine continues_operand (by simp [Expr.words]) ?_
  rw [operand]
  refine yields_past ahead fun t s' same behind => ?_
  have kind : t.kind = .kwThis := same ▸ ahead.kind
  simp only [kind]
  exact .pure behind.rest_eq (.this trivial)

theorem retrieved_super (pos : Pos) (method : Name) (depth : Option Nat) :
    Retrieved (.super pos method depth) := by
  intro s us n lower ahead _ _ _ enough
  obtain ⟨n,rfl⟩ : ∃ l, n = l + 2 := ⟨n - 2,by simp only [Expr.words,List.length_cons] at enough; omega⟩
  refine continues_operand (by simp [Expr.words]) ?_
  rw [operand]
  refine yields_past ahead fun t s' same behind => ?_
  have kind : t.kind = .kwSuper := same ▸ ahead.kind
  simp only [kind]
  refine yields_over behind rfl fun _ s'' _ behind' => ?_
  refine yields_name behind' fun name u text behind'' => ?_
  exact .pure behind''.rest_eq (.super trivial ⟨text.symm,trivial⟩)

theorem retrieved_grouping {pos : Pos} {inner : Expr} (h : Retrieved inner) :
    Retrieved (.grouping pos inner) := by
  intro s us n lower ahead _ _ _ enough
  simp only [Expr.words,length_parenthesized] at enough ⊢
  obtain ⟨n,rfl⟩ : ∃ l, n = l + 2 := ⟨n - 2,by omega⟩
  refine continues_operand (by omega) ?_
  rw [operand]
  refine yields_past ahead fun t s' same behind => ?_
  have kind : t.kind = .leftParen := same ▸ ahead.kind
  simp only [kind]
  obtain ⟨vs,inside,next,close⟩ := behind.append_cons
  have stop : level (nextKind vs) = 0 := by rw [next]; rfl
  refine (h.yields inside (Nat.le_of_eq stop) (.inl (level_pos inner)) (by omega)).bind fun d u rest like => ?_
  refine yields_over (close u rest) rfl fun _ v _ behind' => ?_
  exact .pure behind'.rest_eq (.grouping trivial like)

theorem retrieved_unary {op : UnaryOp} {pos : Pos} {right : Expr} (h : Retrieved right)
    (strong : Expr.unaryLevel ≤ right.level) : Retrieved (.unary op pos right) := by
  intro s us n lower ahead stop _ _ enough
  simp only [Expr.words,List.length_cons] at enough ⊢
  obtain ⟨n,rfl⟩ : ∃ l, n = l + 2 := ⟨n - 2,by omega⟩
  refine continues_operand (by omega) ?_
  rw [operand]
  refine yields_past ahead fun t s' same behind => ?_
  have kind : t.kind = op.kind := same ▸ ahead.kind
  have inside := h.yields behind stop (.inr ⟨rfl,strong⟩) (n := n) (by omega)
  rw [kind]
  cases op with
  | minus => exact inside.bind fun d u rest like => .pure rest (.unary trivial like)
  | not => exact inside.bind fun d u rest like => .pure rest (.unary trivial like)

/-- An operator behind its left operand. -/
theorem Retrieved.operator {left e : Expr} {k : Token.Kind} {ws : List Word} (h : Retrieved left)
    (words : e.words = left.words ++ fixed k :: ws) (same : e.level = level k)
    (weak : level k ≤ left.level) (target : left.level ≠ Expr.assignmentLevel)
    (read : ∀ {m : Nat} {op : Token} {d : Expr} {t : State} {us : List Token}, 8 * ws.length + 1 ≤ m →
      op.kind = k → Expr.Alike Anywhere left.unresolved d → Ahead t ws us →
      level (nextKind us) ≤ level k → (level k = Expr.assignmentLevel → level (nextKind us) = 0) →
      Yields (Parser.extend (m + 1) op d) t us (Expr.Alike Anywhere e.unresolved)) :
    Retrieved e := by
  intro s us n lower ahead stop right strong enough
  rw [same] at stop right strong
  rw [words,List.length_append,List.length_cons] at enough ⊢
  rw [words] at ahead
  have higher : lower < level k := by
    have other : level k ≠ Expr.unaryLevel := by cases k <;> decide
    omega
  obtain ⟨vs,front,next,behind⟩ := ahead.append_cons
  have first := @h s vs n lower front (by rw [next]; exact weak)
    (fun assignment => absurd assignment target) (.inl (Nat.lt_of_lt_of_le higher weak)) (by omega)
  refine first.extend (by omega) (by omega) fun m d t bound rest like => ?_
  have after := behind t rest
  have kind : t.peek.kind = k := after.kind
  refine ⟨kind ▸ higher,yields_past after fun _ u _ operand => ?_⟩
  obtain ⟨m,rfl⟩ : ∃ l, m = l + 1 := ⟨m - 1,by omega⟩
  exact read (by omega) kind like operand stop right

theorem retrieved_binary {left right : Expr} {op : BinaryOp} {pos : Pos} (hl : Retrieved left)
    (hr : Retrieved right) (weak : op.level ≤ left.level) (strong : op.level < right.level) :
    Retrieved (.binary left op pos right) := by
  have higher : Expr.assignmentLevel < op.level := by cases op <;> decide
  refine hl.operator rfl (level_binaryOp op).symm (level_binaryOp op ▸ weak) (by omega) ?_
  intro m t d u us enough kind like ahead stop _
  rw [extend,kind,binaryOp?_eq_some.mpr rfl]
  refine (hr.yields ahead stop (.inl (level_binaryOp op ▸ strong)) enough).bind fun c v rest like' => ?_
  exact .pure rest (.binary like trivial like')

theorem retrieved_logical {left right : Expr} {op : LogicalOp} {pos : Pos} (hl : Retrieved left)
    (hr : Retrieved right) (weak : op.level ≤ left.level) (strong : op.level < right.level) :
    Retrieved (.logical left op pos right) := by
  have higher : Expr.assignmentLevel < op.level := by cases op <;> decide
  have other : binaryOp? op.kind = none := by cases op <;> rfl
  refine hl.operator rfl (level_logicalOp op).symm (level_logicalOp op ▸ weak) (by omega) ?_
  intro m t d u us enough kind like ahead stop _
  rw [extend,kind,other,logicalOp?_eq_some.mpr rfl]
  refine (hr.yields ahead stop (.inl (level_logicalOp op ▸ strong)) enough).bind fun c v rest like' => ?_
  exact .pure rest (.logical like trivial like')

theorem retrieved_get {object : Expr} {name : Name} (h : Retrieved object)
    (strong : Expr.callLevel ≤ object.level) : Retrieved (.get object name) := by
  refine h.operator (k := .dot) rfl rfl strong (Nat.ne_of_gt (Nat.lt_of_lt_of_le (by decide) strong)) ?_
  intro m t d u us enough kind like ahead stop _
  rw [extend,kind]
  refine yields_name ahead fun name' v text behind => ?_
  exact .pure behind.rest_eq (.get like ⟨text.symm,trivial⟩)

theorem retrieved_assign {target : Reference} {value : Expr} (h : Retrieved value) :
    Retrieved (.assign target value) := by
  have primary : Expr.assignmentLevel < (Expr.var target).level := Nat.lt_add_left 8 Nat.one_lt_two
  have words : (Expr.assign target value).words =
      (Expr.var target).words ++ fixed .equal :: value.words := rfl
  refine (retrieved_var target).operator words rfl (Nat.le_of_lt primary) (Nat.ne_of_gt primary) ?_
  intro m t d u us enough kind like ahead _ none
  rw [extend,kind]
  refine (h.yields ahead (Nat.le_of_eq (none rfl)) (.inl (level_pos value)) enough).bind
    fun c v rest like' => ?_
  cases like with
  | var like => exact .pure rest (.assign like like')

theorem retrieved_set {object value : Expr} {name : Name} (ho : Retrieved object)
    (hv : Retrieved value) (strong : Expr.callLevel ≤ object.level) :
    Retrieved (.set object name value) := by
  have words : (Expr.set object name value).words =
      (Expr.get object name).words ++ fixed .equal :: value.words := by
    simp [Expr.words]
  have access : Expr.assignmentLevel < (Expr.get object name).level := Nat.lt_add_left 7 Nat.one_lt_two
  refine (retrieved_get ho strong).operator words rfl (Nat.le_of_lt access) (Nat.ne_of_gt access) ?_
  intro m t d u us enough kind like ahead _ none
  rw [extend,kind]
  refine (hv.yields ahead (Nat.le_of_eq (none rfl)) (.inl (level_pos value)) enough).bind
    fun c v rest like' => ?_
  cases like with
  | get like name => exact .pure rest (.set like name like')

/-- The kinds that an expression can start with. -/
def startsExpression : Token.Kind → Bool
  | .identifier | .number | .string | .kwTrue | .kwFalse | .kwNil | .kwThis | .kwSuper | .leftParen
  | .bang | .minus => true
  | _ => false

theorem words_head : ∀ {e : Expr}, e.Grammatical →
    ∃ w ws, e.words = w :: ws ∧ startsExpression w.kind
  | .literal (.bool true) _, _ | .literal (.bool false) _, _ | .literal .nil _, _
  | .literal (.number _ _) _, _ | .literal (.string _) _, _ => ⟨_,_,rfl,rfl⟩
  | .var _, _ | .assign _ _, _ | .this _ _, _ | .super _ _ _, _ => ⟨_,_,rfl,rfl⟩
  | .grouping _ _, _ => ⟨_,_,rfl,rfl⟩
  | .unary .minus _ _, _ | .unary .not _ _, _ => ⟨_,_,rfl,rfl⟩
  | .binary left _ _ _, h => by
    obtain ⟨w,ws,words,starts⟩ := words_head (e := left) h.1
    exact ⟨w,_,by rw [Expr.words,words]; rfl,starts⟩
  | .logical left _ _ _, h => by
    obtain ⟨w,ws,words,starts⟩ := words_head (e := left) h.1
    exact ⟨w,_,by rw [Expr.words,words]; rfl,starts⟩
  | .call callee _ _, h => by
    obtain ⟨w,ws,words,starts⟩ := words_head (e := callee) h.1
    exact ⟨w,_,by rw [Expr.words,words]; rfl,starts⟩
  | .get object _, h => by
    obtain ⟨w,ws,words,starts⟩ := words_head (e := object) h.1
    exact ⟨w,_,by rw [Expr.words,words]; rfl,starts⟩
  | .set object _ _, h => by
    obtain ⟨w,ws,words,starts⟩ := words_head (e := object) h.1
    exact ⟨w,_,by rw [Expr.words,words]; rfl,starts⟩

/-- In front of an expression stands a token that it can start with. -/
theorem Ahead.starts {e : Expr} {s : State} {us : List Token} {ws : List Word} (h : e.Grammatical)
    (ahead : Ahead s (e.words ++ ws) us) : startsExpression s.peek.kind := by
  obtain ⟨w,ws',words,starts⟩ := words_head h
  rw [words,List.cons_append] at ahead
  rw [ahead.kind]
  exact starts

theorem argumentsRetrieved_nil : ArgumentsRetrieved [] := by
  intro s us n count ahead next _ enough
  obtain ⟨n,rfl⟩ : ∃ l, n = l + 1 := ⟨n - 1,by omega⟩
  rw [arguments]
  refine yields_else ?_ (.pure ahead.rest_eq .nil)
  rw [kind_peek ahead.rest_eq ahead.more,next]
  decide

theorem argumentsRetrieved_cons {e : Expr} {es : List Expr} (he : Retrieved e)
    (hes : ArgumentsRetrieved es) : ArgumentsRetrieved (e :: es) := by
  intro s us n count ahead next few enough
  simp only [List.map_cons,List.flatMap_cons,List.cons_append,List.length_cons,
    List.length_append] at ahead few enough
  obtain ⟨n,rfl⟩ : ∃ l, n = l + 1 := ⟨n - 1,by omega⟩
  rw [arguments]
  refine yields_then ahead.kind (yields_past ahead fun _ t _ behind => ?_)
  rw [if_neg (by omega)]
  obtain ⟨vs,front,rest⟩ := behind.append
  have stop : level (nextKind vs) = 0 := by
    have back := rest ⟨default,vs,[]⟩ rfl
    cases es with
    | nil => rw [show vs = us from back.rest_eq,next]; rfl
    | cons d ds =>
      rw [← kind_peek (s := ⟨default,vs,[]⟩) rfl front.more,back.kind]
      rfl
  refine (he.yields front (Nat.le_of_eq stop) (.inl (level_pos e)) (by omega)).bind
    fun d u same like => ?_
  refine (hes (rest u same) next (by omega) (by omega)).bind fun ds v same' likes => ?_
  exact .pure same' (.cons like likes)

theorem retrieved_call {callee : Expr} {paren : Pos} {args : List Expr} (hc : Retrieved callee)
    (ha : ∀ e es, args = e :: es → e.Grammatical ∧ Retrieved e ∧ ArgumentsRetrieved es)
    (strong : Expr.callLevel ≤ callee.level) (few : args.length ≤ maxArguments) :
    Retrieved (.call callee paren args) := by
  have words : (Expr.call callee paren args).words = callee.words ++ fixed .leftParen ::
      (separated (args.map Expr.words) ++ [fixed .rightParen]) := by
    rw [Expr.words,argumentWords_eq_map]
    rfl
  refine hc.operator words rfl strong (Nat.ne_of_gt (Nat.lt_of_lt_of_le (by decide) strong)) ?_
  intro m t d u us enough kind like ahead stop _
  rw [extend,kind]
  cases args with
  | nil =>
    refine yields_then ahead.kind (yields_past ahead fun close v _ behind => ?_)
    exact .pure behind.rest_eq (.call like trivial .nil)
  | cons e es =>
    obtain ⟨grammatical,he,hes⟩ := ha e es rfl
    rw [List.map_cons,separated_cons,List.append_assoc] at ahead enough
    simp only [List.length_append,List.length_singleton] at enough
    have starts := ahead.starts grammatical
    refine yields_else (fun close => by simp [close,startsExpression] at starts) ?_
    obtain ⟨vs,front,rest⟩ := ahead.append
    have stop : level (nextKind vs) = 0 := by
      have back := rest ⟨default,vs,[]⟩ rfl
      rw [← kind_peek (s := ⟨default,vs,[]⟩) rfl front.more]
      cases es with
      | nil => rw [back.kind]; rfl
      | cons d ds => rw [Ahead.kind (by simpa using back)]; rfl
    refine (he.yields front (Nat.le_of_eq stop) (.inl (level_pos e)) (by omega)).bind
      fun head v same like' => ?_
    obtain ⟨ws,inside,next,close⟩ := (rest v same).append_cons
    refine (hes inside next (by simpa [Nat.add_comm] using few) (by omega)).bind
      fun others w same' likes => ?_
    refine yields_over (close w same') rfl fun c x _ behind => ?_
    exact .pure behind.rest_eq (.call like trivial (.cons like' likes))

mutual

/-- The words of an expression of the grammar are read as that expression. -/
theorem retrieved : (e : Expr) → e.Grammatical → Retrieved e
  | .literal _ _, h => retrieved_literal h
  | .grouping _ inner, h => retrieved_grouping (retrieved inner h)
  | .var r, _ => retrieved_var r
  | .assign _ value, h => retrieved_assign (retrieved value h)
  | .unary _ _ right, h => retrieved_unary (retrieved right h.1) h.2
  | .binary left _ _ right, h =>
    retrieved_binary (retrieved left h.1) (retrieved right h.2.1) h.2.2.1 h.2.2.2
  | .logical left _ _ right, h =>
    retrieved_logical (retrieved left h.1) (retrieved right h.2.1) h.2.2.1 h.2.2.2
  | .call callee _ [], h => retrieved_call (retrieved callee h.1) nofun h.2.1 h.2.2.2
  | .call callee _ (e :: es), h => by
    have head := retrieved e h.2.2.1.1
    have others := argumentsRetrieved es h.2.2.1.2
    refine retrieved_call (retrieved callee h.1) ?_ h.2.1 h.2.2.2
    intro _ _ same
    cases same
    exact ⟨h.2.2.1.1,head,others⟩
  | .get object _, h => retrieved_get (retrieved object h.1) h.2
  | .set object _ value, h => retrieved_set (retrieved object h.1) (retrieved value h.2.2) h.2.1
  | .this pos depth, _ => retrieved_this pos depth
  | .super pos method depth, _ => retrieved_super pos method depth
termination_by structural e => e

theorem argumentsRetrieved : (es : List Expr) → Expr.GrammaticalArguments es → ArgumentsRetrieved es
  | [], _ => argumentsRetrieved_nil
  | e :: es, h => argumentsRetrieved_cons (retrieved e h.1) (argumentsRetrieved es h.2)
termination_by structural es => es

end

end Parser
end Lox
