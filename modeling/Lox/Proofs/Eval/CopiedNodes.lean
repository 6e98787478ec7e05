import Lox.Proofs.Eval.Balance
import Lox.Proofs.Machine.Copies

/-! # Single nodes on copies

What the operations behind single nodes do to a machine and its copy.
-/
namespace Lox
open Machine Exec

namespace Copying
variable {C : Copying} {W V : World} {Γ Δ : Context} {m k : Machine}

variable (C) in
/-- A value that a program can have, and its copy. -/
def Copied (W : World) (x y : Value) : Prop := W.Holds x ∧ y = C.value x

/-- A reading of a value and of its copy. -/
theorem ends_reading_value (pos : Pos) (pair : C.Pair W Γ m k) {u v : Heap Value → Except Failure Value}
    (answers : C.Answers (C.Copied W) (u m.heap) (v k.heap)) :
    C.Ends W C.Copied (fun _ => Γ) (reading pos u m) (reading pos v k) :=
  (ends_reading pos pair answers).imp fun _ _ _ _ _ up ⟨holds,same⟩ pair =>
    ⟨⟨up.holds holds,same⟩,pair⟩

/-! ## Names -/

theorem along_eq {d : Nat} {layer : Layer} (h : Γ[d]? = some layer) (name : String) :
    C.spelling.along Γ.origins (some d) name = C.spelling.inScope layer.origin name := by
  have origin : Γ.origins[d]? = some layer.origin := by
    rw [Context.origins,List.getElem?_map,h]
    rfl
  simp only [Spelling.along,Option.bind_some,origin]

theorem own_eq {e : Ref} {f : Frame} (there : W.Provides e Γ) (role : W e = some (.environment f))
    (name : String) : C.spelling.own Γ.origins name = C.spelling.inScope f.origin name := by
  cases Γ with
  | nil =>
    obtain ⟨f',role',world⟩ := there
    cases role.symm.trans role'
    rw [world,C.plain]
    rfl
  | cons layer Γ =>
    obtain ⟨f',outer,role',origin,-⟩ := there
    cases role.symm.trans role'
    rw [origin]
    exact along_eq rfl name

/-! ## Variables -/

theorem ends_readVariable {r : Reference} (binds : Γ.Binds r.depth r.name.text)
    (pair : C.Pair W Γ m k) :
    C.Ends W C.Copied (fun _ => Γ) (readVariable r m)
      (readVariable (r.respell C.spelling Γ.origins) k) := by
  simp only [readVariable,Reference.respell]
  cases e : r.depth with
  | none =>
    have answers := answers_lookup pair.heaps pair.globals r.name.text
    rw [← pair.globals_eq] at answers
    exact ends_reading_value (u := fun h => h.lookup m.globals _)
      (v := fun h => h.lookup k.globals _) _ pair answers
  | some d =>
    obtain ⟨layer,at_depth,bound⟩ := binds d e
    have answers := answers_lookupAt pair.heaps pair.here at_depth bound
    rw [← pair.current_eq,← along_eq at_depth] at answers
    exact ends_reading_value (u := fun h => h.lookupAt m.current d _)
      (v := fun h => h.lookupAt k.current d _) _ pair answers

theorem ends_assignVariable {r : Reference} (named : C.named r.name.text)
    (reaches : Γ.Reaches r.depth) (pair : C.Pair W Γ m k)
    {x : Value} (hx : W.Holds x) :
    C.Ends W (fun _ _ _ => True) (fun _ => Γ) (assignVariable r x m)
      (assignVariable (r.respell C.spelling Γ.origins) (C.value x) k) := by
  simp only [assignVariable,Reference.respell]
  have weaken : ∀ {x y}, C.Ends W (fun U _ _ => W.Grows U) (fun _ => Γ) x y →
      C.Ends W (fun _ (_ _ : Unit) => True) (fun _ => Γ) x y :=
    fun ends => ends.imp fun _ _ _ _ _ _ _ pair => ⟨trivial,pair⟩
  cases e : r.depth with
  | none =>
    have writes := writes_assign_global pair.heaps pair.globals named hx
    rw [← pair.globals_eq] at writes
    exact weaken (ends_onHeap _ pair (.refl W) pair.here writes)
  | some d =>
    obtain ⟨layer,at_depth⟩ : ∃ layer, Γ[d]? = some layer :=
      ⟨_,List.getElem?_eq_getElem (reaches d e)⟩
    have writes := writes_assignAt pair.heaps pair.here at_depth named hx
    rw [← pair.current_eq,← along_eq at_depth] at writes
    exact weaken (ends_onHeap _ pair (.refl W) pair.here writes)

theorem ends_define (pair : C.Pair W Γ m k) {e : Ref} (there : W.Provides e Δ) (name : String)
    {x : Value} (hx : ∀ V : World, W.Grows V → V.Provides e (Δ.declare name) → V.Holds x) :
    C.Ends W (fun V _ _ => V.Provides e (Δ.declare name)) (fun _ => Γ) (define e name x m)
      (define (C.ref e) (C.spelling.own Δ.origins name) (C.value x) k) := by
  obtain ⟨f,role⟩ := there.isEnvironment
  have up := World.grows_put role (.environment (List.subset_cons_self name f.names))
  have provides := there.declare role name
  rw [own_eq there role]
  refine (ends_onHeap .start pair up (up.provides pair.here)
    (writes_define pair.heaps role name (hx _ up provides))).imp fun V _ _ _ _ _ more pair => ?_
  exact ⟨more.provides provides,pair⟩

/-- What is defined in the environment at hand is provided by it. -/
theorem ends_define_here (pair : C.Pair W Γ m k) (name : String) {x : Value}
    (hx : ∀ V : World, W.Grows V → V.Provides m.current (Γ.declare name) → V.Holds x) :
    C.Ends W (fun _ _ _ => True) (fun _ => Γ.declare name) (define m.current name x m)
      (define k.current (C.spelling.own Γ.origins name) (C.value x) k) := by
  obtain ⟨f,role⟩ := pair.here.isEnvironment
  have up := World.grows_put role (.environment (List.subset_cons_self name f.names))
  have provides := pair.here.declare role name
  rw [own_eq pair.here role,pair.current_eq]
  exact (ends_onHeap .start pair up provides
    (writes_define pair.heaps role name (hx _ up provides))).imp
      fun _ _ _ _ _ _ _ pair => ⟨trivial,pair⟩

/-! ## Objects -/

theorem ends_instance? (pair : C.Pair W Γ m k) {x : Value} (hx : W.Holds x) :
    C.Ends W (fun V a b => b = a.map C.ref ∧ ∀ r ∈ a, x = .object r ∧ V r = some .instanceOf)
      (fun _ => Γ) (instance? x m) (instance? (C.value x) k) := by
  cases x with
  | object r =>
    have split : ∀ {R}, W r = some R → C.Ends W
        (fun V a b => b = a.map C.ref ∧ ∀ s ∈ a, Value.object r = .object s ∧
          V s = some .instanceOf) (fun _ => Γ)
        (instance? (.object r) m) (instance? (.object (C.ref r)) k) := by
      intro R role
      obtain ⟨left,right⟩ := kindOf_eq pair.heaps role
      simp only [instance?,left,right]
      cases R with
      | instanceOf =>
        refine .ok (.refl W) ⟨rfl,fun s hs => ?_⟩ pair
        obtain rfl := Option.mem_some_iff.mp hs
        exact ⟨rfl,role⟩
      | _ => exact .ok (.refl W) ⟨rfl,fun s hs => absurd hs (by simp [Role.kind])⟩ pair
    cases hx with
    | function h => exact split h.choose_spec.choose_spec.1
    | klass h => exact split h.choose_spec.choose_spec.1
    | instanceOf role => exact split role
  | _ => exact .ok (.refl W) ⟨rfl,fun _ h => absurd h (by simp)⟩ pair

theorem ends_class? (pair : C.Pair W Γ m k) {x : Value} (hx : W.Holds x) :
    C.Ends W (fun V a b => b = a.map C.ref ∧ ∀ r ∈ a, x = .object r ∧ ∃ n, V.IsClass r n)
      (fun _ => Γ) (class? x m) (class? (C.value x) k) := by
  cases x with
  | object r =>
    have other : ∀ {R}, W r = some R → R.kind ≠ .klass → C.Ends W
        (fun V a b => b = a.map C.ref ∧ ∀ s ∈ a, Value.object r = .object s ∧ ∃ n, V.IsClass s n)
        (fun _ => Γ) (class? (.object r) m) (class? (.object (C.ref r)) k) := by
      intro R role kind
      obtain ⟨left,right⟩ := kindOf_eq pair.heaps role
      simp only [class?,left,right,if_neg kind]
      exact .ok (.refl W) ⟨rfl,fun s hs => absurd hs (by simp)⟩ pair
    cases hx with
    | function h => exact other h.choose_spec.choose_spec.1 (by simp [Role.kind])
    | @klass n h =>
      obtain ⟨left,right⟩ := kindOf_eq pair.heaps h.choose_spec.choose_spec.1
      simp only [class?,Value.move,left,right]
      refine .ok (.refl W) ⟨rfl,fun s hs => ?_⟩ pair
      obtain rfl := Option.mem_some_iff.mp hs
      exact ⟨rfl,n,h⟩
    | instanceOf role => exact other role (by simp [Role.kind])
  | _ => exact .ok (.refl W) ⟨rfl,fun _ h => absurd h (by simp)⟩ pair

theorem ends_getProperty (pair : C.Pair W Γ m k) {x : Value} (hx : W.Holds x) (name : Name) :
    C.Ends W C.Copied (fun _ => Γ) (getProperty x name m) (getProperty (C.value x) name k) := by
  refine (ends_instance? pair hx).bind fun V a b m k _ up ⟨same,found⟩ pair => ?_
  subst same
  cases a with
  | none => exact ends_raise _ _ pair
  | some r =>
    obtain ⟨rfl,role⟩ := found r rfl
    have object := up.isObject hx
    refine (ends_reading _ pair (answers_property pair.heaps role name.text)).bind
      fun U p q m k _ up copied pair => ?_
    cases p with
    | field y =>
      obtain ⟨holds,rfl⟩ := copied
      exact .pure ⟨up.holds holds,rfl⟩ pair
    | method f =>
      obtain ⟨⟨n,method⟩,rfl⟩ := copied
      exact .pure ⟨⟨⟨n,up.isMethod method⟩,up.isObject object⟩,rfl⟩ pair

theorem ends_readThis (pos : Pos) {d : Nat} (binds : Γ.Binds (some d) "this") (pair : C.Pair W Γ m k) :
    C.Ends W C.Copied (fun _ => Γ) (readThis pos (some d) m) (readThis pos (some d) k) := by
  obtain ⟨layer,at_depth,bound⟩ := binds d rfl
  have answers := answers_lookupAt pair.heaps pair.here at_depth bound
  rw [C.this,← pair.current_eq] at answers
  exact ends_reading_value (u := fun h => h.lookupAt m.current d "this")
    (v := fun h => h.lookupAt k.current d "this") pos pair answers

theorem ends_readSuper (pos : Pos) (method : Name) {d : Nat} (super : Γ.Binds (some (d + 1)) "super")
    (this : Γ.Binds (some d) "this") (pair : C.Pair W Γ m k) :
    C.Ends W C.Copied (fun _ => Γ) (readSuper pos method (some (d + 1)) m)
      (readSuper pos method (some (d + 1)) k) := by
  obtain ⟨layer,at_depth,bound⟩ := super (d + 1) rfl
  obtain ⟨inner,at_inner,bound_inner⟩ := this d rfl
  simp only [readSuper]
  refine (ends_currentEnvironment pair).bind fun V env _ m k _ _ ⟨here,same⟩ pair => ?_
  subst same
  have answers := answers_lookupAt pair.heaps here at_depth bound
  rw [C.super] at answers
  refine (ends_reading pos pair answers).bind fun V s _ m k _ up ⟨holds,same⟩ pair => ?_
  subst same
  have here := up.provides here
  have answers := answers_lookupAt pair.heaps here at_inner bound_inner
  rw [C.this] at answers
  rw [show ((d + 1 : Nat) : Int) - 1 = d by omega]
  refine (ends_reading pos pair answers).bind fun V receiver _ m k _ up' ⟨object,same⟩ pair => ?_
  subst same
  refine (ends_class? pair (up'.holds (up.holds holds))).bind fun V c _ m k _ up ⟨same,found⟩ pair => ?_
  subst same
  cases c with
  | none => exact ends_raise _ _ pair
  | some c =>
    obtain ⟨rfl,n,klass⟩ := found c rfl
    have object := up.holds (up'.holds object)
    cases receiver with
    | object r =>
      refine (ends_reading pos pair (answers_findMethod pair.heaps klass method.text)).bind
        fun V f _ m k _ up ⟨methods,_,same⟩ pair => ?_
      subst same
      cases f with
      | none => exact ends_raise _ _ pair
      | some f =>
        obtain ⟨n,method⟩ := methods f rfl
        exact .pure ⟨⟨⟨n,up.isMethod method⟩,up.isObject object⟩,rfl⟩ pair
    | _ => exact .failure .start (.fault rfl) pair

/-! ## Operators -/

theorem numbers?_move (x y : Value) : numbers? (C.value x) (C.value y) = numbers? x y := by
  cases x <;> cases y <;> rfl

theorem ends_addValues (pos : Pos) (x y : Value) (pair : C.Pair W Γ m k) :
    C.Ends W C.Copied (fun _ => Γ) (addValues pos x y m) (addValues pos (C.value x) (C.value y) k) := by
  cases x <;> cases y <;> first
    | exact ends_raise pos _ pair
    | exact .pure ⟨trivial,rfl⟩ pair

theorem ends_onNumbers (pos : Pos) (x y : Value) {f : Float → Float → Exec Value}
    (pair : C.Pair W Γ m k) (h : ∀ a b, C.Ends W C.Copied (fun _ => Γ) (f a b m) (f a b k)) :
    C.Ends W C.Copied (fun _ => Γ) (onNumbers pos x y f m)
      (onNumbers pos (C.value x) (C.value y) f k) := by
  rw [onNumbers,onNumbers,numbers?_move]
  cases numbers? x y with
  | some p => exact h p.1 p.2
  | none => exact ends_raise pos _ pair

theorem ends_divide (pos : Pos) (x y : Float) (pair : C.Pair W Γ m k) :
    C.Ends W C.Copied (fun _ => Γ) (divide pos x y m) (divide pos x y k) := by
  rw [divide]
  split
  · exact ends_raise pos _ pair
  · exact .pure ⟨trivial,rfl⟩ pair

theorem ends_applyBinary (op : BinaryOp) (pos : Pos) (x y : Value) (pair : C.Pair W Γ m k) :
    C.Ends W C.Copied (fun _ => Γ) (applyBinary op pos x y m)
      (applyBinary op pos (C.value x) (C.value y) k) := by
  have same := Value.equal_move C.ascending.injective x y
  cases op with
  | equal | notEqual => exact .pure ⟨trivial,by rw [same]; rfl⟩ pair
  | plus => exact ends_addValues pos x y pair
  | divide => exact ends_onNumbers pos x y pair fun a b => ends_divide pos a b pair
  | minus | times | less | lessEqual | greater | greaterEqual =>
    exact ends_onNumbers pos x y pair fun _ _ => .pure ⟨trivial,rfl⟩ pair

theorem ends_applyUnary (op : UnaryOp) (pos : Pos) (x : Value) (pair : C.Pair W Γ m k) :
    C.Ends W C.Copied (fun _ => Γ) (applyUnary op pos x m) (applyUnary op pos (C.value x) k) := by
  cases op with
  | minus =>
    cases x <;> first
      | exact .pure ⟨trivial,rfl⟩ pair
      | exact ends_raise pos _ pair
  | not =>
    simp only [applyUnary,Value.isTruthy_move]
    exact .pure ⟨trivial,rfl⟩ pair

theorem ends_traceBinary (op : BinaryOp) {x y : Value} (hx : W.Holds x) (hy : W.Holds y)
    (pair : C.Pair W Γ m k) :
    C.Ends W (fun _ _ _ => True) (fun _ => Γ) (traceBinary op x y m)
      (traceBinary op (C.value x) (C.value y) k) := by
  have left := answers_inspect pair.heaps hx
  have right := answers_inspect pair.heaps hy
  simp only [traceBinary]
  rw [pair.level_eq]
  split
  · generalize x.inspect m.heap = a,(C.value x).inspect k.heap = a',y.inspect m.heap = b,
      (C.value y).inspect k.heap = b' at left right
    cases left with
    | error fails => exact .error (.refl W) (.failure .start fails) pair
    | ok same =>
      cases right with
      | error fails => exact .error (.refl W) (.failure .start fails) pair
      | ok same' => exact ends_trace pair _ fun _ => by rw [same,same']
  · exact .ok (.refl W) trivial pair

/-! ## Calls -/

theorem ends_checkCall (pos : Pos) {f : Value} (count : Nat) (hf : W.Holds f) (pair : C.Pair W Γ m k) :
    C.Ends W (fun V _ _ => V.Takes f count) (fun _ => Γ) (checkCall pos f count m)
      (checkCall pos (C.value f) count k) := by
  simp only [checkCall,isCallable_eq pair.heaps hf]
  split
  · next callable =>
    have answers := answers_arity pair.heaps hf callable
    generalize f.arity m.heap = a,(C.value f).arity k.heap = b at answers
    cases answers with
    | error fails => exact .error (.refl W) (.failure pos fails) pair
    | ok same =>
      obtain ⟨rfl,takes⟩ := same
      dsimp only
      split
      · next same => exact .ok (.refl W) (same ▸ takes) pair
      · exact .error (.refl W) (.failure pos (.cause _)) pair
  · exact .error (.refl W) (.failure pos (.cause _)) pair

theorem ends_traceCall {f : Value} (hf : W.Holds f) (pair : C.Pair W Γ m k) :
    C.Ends W (fun _ _ _ => True) (fun _ => Γ) (traceCall f m) (traceCall (C.value f) k) := by
  have text := answers_inspect pair.heaps hf
  simp only [traceCall]
  rw [pair.level_eq]
  split
  · generalize f.inspect m.heap = a,(C.value f).inspect k.heap = b at text
    cases text with
    | error fails => exact .error (.refl W) (.failure .start fails) pair
    | ok same => exact ends_trace pair _ fun _ => by rw [same,pair.frames_eq,List.length_map]
  · exact .ok (.refl W) trivial pair

theorem ends_bindParameters {env : Ref} {ps : List Name} {xs : List Value} (there : W.Provides env Δ)
    (all : ps.length = xs.length) (hold : ∀ x ∈ xs, W.Holds x) (pair : C.Pair W Γ m k) :
    C.Ends W (fun V _ _ => V.Provides env (Δ.declareAll ps)) (fun _ => Γ) (bindParameters env ps xs m)
      (bindParameters (C.ref env)
        (ps.map fun p => { p with text := C.spelling.own Δ.origins p.text })
        (xs.map C.value) k) := by
  induction ps generalizing xs W Δ m k with
  | nil =>
    obtain rfl : xs = [] := List.length_eq_zero_iff.mp all.symm
    exact .pure there pair
  | cons p ps ih =>
    cases xs with
    | nil => cases all
    | cons x xs =>
      simp only [bindParameters,List.map_cons]
      have hx := hold x List.mem_cons_self
      refine (ends_define pair there p.text fun V up _ => up.holds hx).bind
        fun V _ _ m k _ up there pair => ?_
      have rest := ih there (Nat.succ.inj all)
        (fun x hx => up.holds (hold x (List.mem_cons_of_mem _ hx))) pair
      rwa [Context.origins_declare] at rest

/-! ## Declarations -/

theorem origins_ofFunction (Γ : Context) (method : Bool) (r : Routine) :
    (Γ.ofFunction method r).origins =
      .routine r :: if method then .receiver r :: Γ.origins else Γ.origins := by
  cases method <;> simp [Context.ofFunction]

theorem ends_newEnvironment {o : Origin} {outer : Ref} (around : W.Provides outer Δ)
    (made : C.made ⟨m.heap.cells.size⟩ o) (pair : C.Pair W Γ m k) :
    C.Ends W (fun V a b => V.Provides a (⟨o,[]⟩ :: Δ) ∧ b = C.ref a ∧
        ∃ f, V a = some (.environment f) ∧ f.parent = some outer) (fun _ => Γ)
      (newEnvironment (some outer) m) (newEnvironment (some (C.ref outer)) k) := by
  let f : Frame := { origin := o, parent := some outer }
  have up := World.grows_put_new (fresh pair.heaps) (.environment f)
  have content : C.Content (W.put ⟨m.heap.cells.size⟩ (.environment f)) ⟨m.heap.cells.size⟩
      (.environment f) (.environment {} f.parent) := by
    refine .environment (fun _ h => absurd h List.not_mem_nil)
      (fun _ h => absurd h List.not_mem_nil) (fun s hs => ?_) made
    obtain rfl := Option.mem_some_iff.mp hs
    exact up.isEnvironment around.isEnvironment
  refine (ends_allocate pair content).imp fun V a b m k up ⟨_,role,same⟩ pair => ?_
  exact ⟨⟨⟨f,outer,role,rfl,List.nil_subset _,rfl,up.provides around⟩,same,f,role,rfl⟩,pair⟩

theorem ends_newFunction (method : Bool) {r : Routine} {closure : Ref}
    (env : W.IsEnvironment closure) (fits : r.Fits C.spelling C.use (Δ.ofFunction method r))
    (pair : C.Pair W Γ m k) :
    C.Ends W (fun V a b => V a = some (.function method closure Δ r.arity) ∧ b = C.ref a) (fun _ => Γ)
      (newFunction r closure m)
      (newFunction (r.respell C.spelling (Δ.ofFunction method r).origins) (C.ref closure) k) := by
  have up := World.grows_put_new (fresh pair.heaps) (.function method closure Δ r.arity)
  refine (ends_allocate pair (.function rfl (up.isEnvironment env) fits)).imp ?_
  exact fun V a b _ _ _ ⟨_,role,same⟩ pair => ⟨⟨role,same⟩,pair⟩

theorem ends_declareFunction {r : Routine}
    (keeps : C.spelling.own Γ.origins r.name.text = r.name.text)
    (fits : r.Fits C.spelling C.use ((Γ.declare r.name.text).ofRoutine r)) (pair : C.Pair W Γ m k) :
    C.Ends W (fun _ _ _ => True) (fun _ => Γ.declare r.name.text) (declareFunction r m)
      (declareFunction (r.respell C.spelling (.routine r :: Γ.origins)) k) := by
  have origins := origins_ofFunction (Γ.declare r.name.text) false r
  rw [Context.origins_declare] at origins
  have made := ends_newFunction false pair.here.isEnvironment fits pair
  rw [origins,← pair.current_eq] at made
  refine Ends.bind (f := fun f => define m.current r.name.text (.object f))
    (g := fun f => define k.current _ (.object f)) made fun V a b m' k' e up ⟨role,same⟩ pair' => ?_
  subst same
  have here : m'.current = m.current := ((leads_allocate _).ok e).current
  have there : k'.current = k.current := by rw [pair'.current_eq,here,pair.current_eq]
  have defined := ends_define_here pair' r.name.text (x := .object a) fun U up provides =>
    .function ⟨_,_,up.function role,here ▸ provides⟩
  rw [here,there,keeps] at defined
  rw [Guise.name_respell]
  exact defined

theorem ends_newMethods {closure : Ref} {rs : List Routine} (made : Bindings Ref)
    (env : W.IsEnvironment closure) (fit : MethodsFit C.spelling C.use Δ rs)
    (known : ∀ f ∈ made.values, ∃ n, W f = some (.function true closure Δ n)) (pair : C.Pair W Γ m k) :
    C.Ends W (fun V a b => b = a.transport id C.ref ∧
        ∀ f ∈ a.values, ∃ n, V f = some (.function true closure Δ n)) (fun _ => Γ)
      (newMethods closure rs made m)
      (newMethods (C.ref closure) (respellMethods C.spelling Δ.origins rs)
        (made.transport id C.ref) k) := by
  induction rs generalizing W made m k with
  | nil => exact .pure ⟨rfl,known⟩ pair
  | cons r rs ih =>
    obtain ⟨fits,fit⟩ := fit
    have function := ends_newFunction true env fits pair
    rw [origins_ofFunction,if_pos rfl] at function
    refine function.bind fun V f _ m k _ up ⟨role,same⟩ pair => ?_
    subst same
    refine (ends_keep pair (.object f)).bind fun U _ _ m k _ up' _ pair => ?_
    have put := made.set_transport (Equiv.refl String) C.ref r.name.text f
    have rest := ih (made.set r.name.text f) (up'.isEnvironment (up.isEnvironment env)) fit
      (fun g hg => ?_) pair
    · simp only [Guise.name_respell]
      rw [show (made.transport id C.ref).set r.name.text (C.ref f) =
        (made.set r.name.text f).transport id C.ref from put]
      exact rest
    · rcases made.eq_or_mem_of_mem_values_set _ _ hg with rfl | hg
      · exact ⟨_,up'.function role⟩
      · exact (known g hg).imp fun _ role => up'.function (up.function role)

/-- The environment of methods provides their context as soon as the one around it binds the name of
their class. -/
theorem ends_methodEnvironment (name : Name) {superclass : Option Ref}
    (classes : ∀ c ∈ superclass, ∃ n, W.IsClass c n)
    (made : superclass.isSome → C.made ⟨m.heap.cells.size⟩ (.superclass name)) (pair : C.Pair W Γ m k) :
    C.Ends W (fun V a b => b = C.ref a ∧ V.IsEnvironment a ∧ ∀ U : World, V.Grows U →
        U.Provides m.current (Γ.declare name.text) →
        U.Provides a ((Γ.declare name.text).ofClass name superclass)) (fun _ => Γ)
      (methodEnvironment superclass m) (methodEnvironment (superclass.map C.ref) k) := by
  refine (ends_currentEnvironment pair).bind fun V env _ m' k' e up ⟨here,same⟩ pair => ?_
  subst same
  cases e
  cases superclass with
  | none => exact .pure ⟨rfl,here.isEnvironment,fun U _ provides => provides⟩ pair
  | some c =>
    obtain ⟨n,klass⟩ := classes c rfl
    refine (ends_newEnvironment here (made rfl) pair).bind
      fun U inner _ m' k' _ up' ⟨inside,same,f,role,parent⟩ pair => ?_
    subst same
    have holds : U.Holds (.object c) := .klass (up'.isClass (up.isClass klass))
    have defines := ends_define pair inside "super" fun T more _ => more.holds holds
    rw [own_eq inside role,C.super] at defines
    refine defines.bind fun T _ _ m' k' _ more inside pair => ?_
    refine (ends_keep pair (.object inner)).bind fun S _ _ m' k' _ up₃ _ pair => ?_
    obtain ⟨names,-,role⟩ := (more.trans up₃).environment role
    have inside := up₃.provides inside
    refine .pure ⟨rfl,inside.isEnvironment,fun R up₄ around => ?_⟩ pair
    obtain ⟨names,-,role⟩ := up₄.environment role
    exact (up₄.provides inside).within role parent around

theorem initializes_of_functions {superclass : Option Ref} {methods : Bindings Ref} {closure : Ref}
    (classes : ∀ c ∈ superclass, ∃ n, W.IsClass c n)
    (functions : ∀ f ∈ methods.values, ∃ n, W f = some (.function true closure Δ n)) :
    ∃ n, W.Initializes superclass methods n := by
  simp only [World.Initializes]
  cases e : methods.get? "init" with
  | some f =>
    obtain ⟨n,role⟩ := functions f (methods.mem_values_of_get? e)
    exact ⟨n,closure,Δ,role⟩
  | none =>
    cases superclass with
    | none => exact ⟨0,rfl⟩
    | some c =>
      obtain ⟨n,s,ms,role,-⟩ := classes c rfl
      exact ⟨n,s,ms,role⟩

theorem ends_declareClass {name : Name} {superclass : Option Ref} {rs : List Routine}
    (keeps : C.spelling.own Γ.origins name.text = name.text)
    (fit : MethodsFit C.spelling C.use ((Γ.declare name.text).ofClass name superclass) rs)
    (classes : ∀ c ∈ superclass, ∃ n, W.IsClass c n)
    (made : superclass.isSome → C.made ⟨m.heap.cells.size⟩ (.superclass name)) (pair : C.Pair W Γ m k) :
    C.Ends W (fun _ _ _ => True) (fun _ => Γ.declare name.text) (declareClass name superclass rs m)
      (declareClass name (superclass.map C.ref)
        (respellMethods C.spelling (classOrigins Γ.origins name superclass) rs) k) := by
  refine (ends_methodEnvironment name classes made pair).bind
    fun V closure _ m₁ k₁ e₁ up ⟨same,env,ready⟩ pair => ?_
  subst same
  have methods := ends_newMethods {} env fit (fun _ h => absurd h List.not_mem_nil) pair
  rw [Context.origins_ofClass,Context.origins_declare] at methods
  refine methods.bind fun U table _ m₂ k₂ e₂ up₂ ⟨same,functions⟩ pair => ?_
  subst same
  have classes : ∀ c ∈ superclass, ∃ n, U.IsClass c n := fun c hc =>
    (classes c hc).imp fun _ klass => up₂.isClass (up.isClass klass)
  obtain ⟨n,initializes⟩ := initializes_of_functions classes functions
  have up₃ := World.grows_put_new (fresh pair.heaps) (.klass superclass table n)
  have content : C.Content U ⟨m₂.heap.cells.size⟩ (.klass superclass table n)
      (.klass name.text superclass table) :=
    .klass classes (fun f hf => ⟨_,_,functions f hf⟩) initializes
  refine (ends_allocate pair (content.grows up₃)).bind fun T c _ m₃ k₃ e₃ up₄ ⟨_,role,same⟩ pair => ?_
  subst same
  have here : m₃.current = m.current :=
    (((leads_allocate _).carries.ok e₃).current.trans ((leads_newMethods _ _ _).ok e₂).current).trans
      ((leads_methodEnvironment _).ok e₁).current
  have defined := ends_define_here pair name.text (x := .object c) fun S more provides => by
    rw [here] at provides
    have provides := ready S (up₂.trans (up₄.trans more)) provides
    refine .klass (n := n) ⟨superclass,table,more.klass role,fun f hf => ?_⟩
    obtain ⟨n,role⟩ := functions f hf
    exact ⟨n,closure,_,more.function (up₄.function role),provides⟩
  rw [keeps] at defined
  exact defined

theorem ends_checkSuperclass (r : Reference) {x : Value} (hx : W.Holds x) (pair : C.Pair W Γ m k) :
    C.Ends W (fun V a b => b = C.ref a ∧ ∃ n, V.IsClass a n) (fun _ => Γ) (checkSuperclass r x m)
      (checkSuperclass (r.respell C.spelling Γ.origins) (C.value x) k) := by
  refine (ends_class? pair hx).bind fun V c _ m k _ up ⟨same,found⟩ pair => ?_
  subst same
  cases c with
  | none => exact ends_raise _ _ pair
  | some c =>
    obtain ⟨rfl,n,klass⟩ := found c rfl
    refine (ends_keep pair (.object c)).bind fun U _ _ m k _ up' _ pair => ?_
    exact .pure ⟨rfl,n,up'.isClass klass⟩ pair

end Copying
end Lox
