import Lox.Proofs.Session.Settings
import Lox.Settings.Store

/-! # Loading of settings

A stored value is taken over if its key accepts it, and it is passed over if it is refused. So each key holds
what is stored for it or what it held before, no matter what is stored for the others. A file breaks off the
loading if it is some other JSON value than an object, or if it stores a value of a kind that is never
converted, an infinite value or an integer that is no double. The keys in front of such a value are taken
over and those behind it are not.
-/
namespace Lox.Settings

/-! ## Conversion -/

/-- What a key holds once a value is set for it. -/
def coerce (key : Key) (v : Json) : Except SettingError Json :=
  match key with
  | .debugLevel => (toLevel v).map (.string ·.name)
  | .threshold | .maxCallDepth => (toPositive key v).map fun n : Nat => .int n
  | .growth => (toFactor key v).map .float
  | .stress => (toBool key v).map .bool

/-- Whether a stored value of a key makes a file unusable. -/
def Unusable (key : Key) (v : Json) : Prop :=
  match key, v with
  | .debugLevel, _ | .stress, _ => False
  | _, .null | _, .array _ | _, .object _ => True
  | .threshold, .float x | .maxCallDepth, .float x => x.isInf
  | .growth, .int n => (Number.ofInt n).isInf
  | _, _ => False

theorem Key.name_injective {k l : Key} (h : k.name = l.name) : k = l := by
  have := congrArg Key.ofName? h
  simpa only [Key.ofName?_name,Option.some.injEq] using this

theorem Key.eq_name_of_ofName? {name : String} {key : Key} (h : Key.ofName? name = some key) : name = key.name := by
  have found := List.find?_some h
  exact (of_decide_eq_true found).symm

theorem Key.ne_name_of_ofName? {name : String} (h : Key.ofName? name = none) (key : Key) : name ≠ key.name := by
  rintro rfl
  rw [Key.ofName?_name] at h
  cases h

theorem truncate_eq_infinite_iff (x : Float) : Number.truncate x = .error .infinite ↔ x.isInf := by
  rw [Number.truncate,Number.Parts.of_eq]
  show _ ↔ x.toModel.unpack.isInf
  cases x.toModel.unpack with
  | infinity => exact ⟨fun _ => rfl,fun _ => rfl⟩
  | _ => constructor <;> rintro ⟨⟩

theorem toInt_breaks_iff (v : Json) :
    (∃ e, toInt v = .error e ∧ e.isRefusal = false) ↔ Unusable .threshold v := by
  cases v with
  | string s =>
    simp only [toInt,Unusable,iff_false]
    rintro ⟨e,failed,breaks⟩
    split at failed <;> cases failed <;> cases breaks
  | float x =>
    rw [Unusable,← truncate_eq_infinite_iff,toInt]
    cases Number.truncate x with
    | ok n => simp
    | error e => cases e <;> simp [SettingError.isRefusal]
  | null | array _ | object _ => exact ⟨fun _ => trivial,fun _ => ⟨_,rfl,rfl⟩⟩
  | bool _ | int _ => exact ⟨nofun,nofun⟩

theorem toFloat_breaks_iff (v : Json) :
    (∃ e, toFloat v = .error e ∧ e.isRefusal = false) ↔ Unusable .growth v := by
  cases v with
  | string s =>
    simp only [toFloat,Unusable,iff_false]
    rintro ⟨e,failed,breaks⟩
    split at failed <;> cases failed
    cases breaks
  | int n =>
    simp only [toFloat,Unusable]
    by_cases infinite : (Number.ofInt n).isInf <;> simp [infinite,SettingError.isRefusal]
  | null | array _ | object _ => exact ⟨fun _ => trivial,fun _ => ⟨_,rfl,rfl⟩⟩
  | bool _ | float _ => exact ⟨nofun,nofun⟩

theorem toPositive_breaks_iff (key : Key) (v : Json) :
    (∃ e, toPositive key v = .error e ∧ e.isRefusal = false) ↔ Unusable .threshold v := by
  rw [← toInt_breaks_iff,toPositive]
  cases toInt v with
  | error e => simp [Bind.bind,Except.bind]
  | ok n =>
    simp only [Bind.bind,Except.bind]
    by_cases small : n < 1 <;> simp [small,SettingError.isRefusal,pure,Except.pure]

theorem toFactor_breaks_iff (key : Key) (v : Json) :
    (∃ e, toFactor key v = .error e ∧ e.isRefusal = false) ↔ Unusable .growth v := by
  rw [← toFloat_breaks_iff,toFactor]
  cases toFloat v with
  | error e => exact Iff.rfl
  | ok x =>
    simp only [Bind.bind,Except.bind]
    by_cases small : x ≤ 1 <;> simp [small,SettingError.isRefusal,pure,Except.pure]

theorem unusable_maxCallDepth_iff (v : Json) : Unusable .maxCallDepth v ↔ Unusable .threshold v := by
  cases v <;> rfl

section
variable {α : Type} {x : Except SettingError α} {f : α → Json}

theorem map_breaks_iff {P : Prop} (h : (∃ e, x = .error e ∧ e.isRefusal = false) ↔ P) :
    (∃ e, x.map f = .error e ∧ e.isRefusal = false) ↔ P := by
  rw [← h]
  cases x with
  | ok a => exact ⟨nofun,nofun⟩
  | error e => simp [Except.map]

theorem exists_of_map_eq_ok {w : Json} (h : x.map f = .ok w) : ∃ a, x = .ok a ∧ f a = w := by
  cases x with
  | ok a =>
    cases h
    exact ⟨a,rfl,rfl⟩
  | error e => cases h

theorem replaced_eq {s : Settings} {key : Key} {g : α → Settings} (held : ∀ a, (g a).get key = f a)
    (kept : ∀ a, ∀ other ≠ key, (g a).get other = s.get other) :
    (∃ e, x.map f = .error e ∧ (do return g (← x)) = .error e) ∨
    ∃ t, (do return g (← x)) = .ok t ∧ x.map f = .ok (t.get key) ∧ ∀ other ≠ key, t.get other = s.get other := by
  cases x with
  | ok a => exact .inr ⟨g a,rfl,by rw [held]; rfl,kept a⟩
  | error e => exact .inl ⟨e,rfl,rfl⟩

end

/-- A value is unusable if its conversion ends in an error that is no refusal. -/
theorem coerce_breaks_iff (key : Key) (v : Json) :
    (∃ e, coerce key v = .error e ∧ e.isRefusal = false) ↔ Unusable key v := by
  cases key with
  | debugLevel =>
    refine map_breaks_iff ⟨?_,nofun⟩
    rintro ⟨e,failed,breaks⟩
    simp only [toLevel] at failed
    split at failed <;> cases failed
    cases breaks
  | stress =>
    refine map_breaks_iff ⟨?_,nofun⟩
    rintro ⟨e,failed,breaks⟩
    simp only [toBool] at failed
    repeat' split at failed
    all_goals cases failed
    cases breaks
  | threshold => exact map_breaks_iff (toPositive_breaks_iff _ v)
  | maxCallDepth => exact (map_breaks_iff (toPositive_breaks_iff _ v)).trans (unusable_maxCallDepth_iff v).symm
  | growth => exact map_breaks_iff (toFactor_breaks_iff _ v)

/-- An update changes the value of its key alone, to what the key makes of the new value. -/
theorem update_eq (s : Settings) (key : Key) (v : Json) :
    (∃ e, coerce key v = .error e ∧ s.update key v = .error e) ∨
    ∃ t, s.update key v = .ok t ∧ coerce key v = .ok (t.get key) ∧ ∀ other ≠ key, t.get other = s.get other := by
  cases key <;>
    exact replaced_eq (fun _ => rfl) (fun _ other ne => by cases other <;> first | rfl | exact absurd rfl ne)

/-- What a key holds after an update is accepted again, and it stays. -/
theorem coerce_coerce {key : Key} {v w : Json} (h : coerce key v = .ok w) : coerce key w = .ok w := by
  cases key with
  | debugLevel =>
    obtain ⟨level,-,rfl⟩ := exists_of_map_eq_ok h
    have named : toLevel (.string level.name) = .ok level := by cases level <;> decide +kernel
    simp only [coerce,named,Except.map]
  | threshold | maxCallDepth =>
    obtain ⟨n,converted,rfl⟩ := exists_of_map_eq_ok h
    have positive := le_of_toPositive converted
    have large : ¬(n : Int) < 1 := by omega
    simp only [coerce,toPositive,toInt,Bind.bind,Except.bind,large,if_false,pure,Except.pure,Except.map,
      Int.toNat_natCast]
  | growth =>
    obtain ⟨x,converted,rfl⟩ := exists_of_map_eq_ok h
    have above := not_le_of_toFactor converted
    simp only [coerce,toFactor,toFloat,Bind.bind,Except.bind,above,if_false,pure,Except.pure,Except.map]
  | stress =>
    obtain ⟨b,-,rfl⟩ := exists_of_map_eq_ok h
    rfl

/-! ## Stored values -/

/-- The value that a text stores for a key. -/
def stored? (text : String) (key : Key) : Option Json := (Json.parse text).bind (·.field? key.name)

/-- What a key holds after a value that may be stored for it was taken over or passed over. -/
def taken (s : Settings) (key : Key) (v : Option Json) : Json :=
  (v.bind fun v => (coerce key v).toOption).getD (s.get key)

theorem get?_foldl_set (members : List (String × Json)) (b : Bindings Json) (name : String) :
    (members.foldl (fun b (k,v) => b.set k v) b).get? name = (Json.member? name members).or (b.get? name) := by
  induction members generalizing b with
  | nil => rfl
  | cons member rest ih =>
    obtain ⟨k,v⟩ := member
    rw [List.foldl_cons,ih,Bindings.get?_set,Json.member?]
    cases Json.member? name rest <;> by_cases e : k = name <;> simp [e]

/-- Of the values of one name the last is kept. -/
theorem get?_distinct (members : List (String × Json)) (name : String) :
    (distinct members).get? name = Json.member? name members := by
  rw [distinct,get?_foldl_set,Bindings.get?_empty,Option.or_none]

theorem nodup_names_foldl_set (members : List (String × Json)) {b : Bindings Json} (h : b.names.Nodup) :
    (members.foldl (fun b (k,v) => b.set k v) b).names.Nodup := by
  induction members generalizing b with
  | nil => exact h
  | cons member rest ih =>
    refine ih ?_
    rw [Bindings.names_set]
    split
    · exact h
    · next fresh =>
      rw [Bindings.contains_iff] at fresh
      exact List.nodup_append.mpr ⟨h,List.nodup_singleton _,by simpa using fun a ha => ne_of_mem_of_not_mem ha fresh⟩

theorem find_of_mem {name : String} {v : Json} {entries : List (String × Json)}
    (distinct : (entries.map (·.1)).Nodup) (mem : (name,v) ∈ entries) : Bindings.find name entries = some v := by
  induction entries with
  | nil => cases mem
  | cons entry rest ih =>
    obtain ⟨fresh,distinct⟩ := List.nodup_cons.mp distinct
    rcases List.mem_cons.mp mem with rfl | mem
    · exact if_pos rfl
    · have apart : entry.1 ≠ name := fun e => fresh (List.mem_map.mpr ⟨_,mem,e.symm⟩)
      rw [Bindings.find,if_neg apart]
      exact ih distinct mem

theorem nodup_distinct (members : List (String × Json)) : ((distinct members).entries.map (·.1)).Nodup :=
  nodup_names_foldl_set members List.nodup_nil

/-! ## Taking over -/

/-- The values of a list that are stored for keys can all be used. -/
def Usable (entries : List (String × Json)) : Prop := ∀ key v, (key.name,v) ∈ entries → ¬Unusable key v

/-- What a value that can be used does to its key, whether it is accepted or refused. -/
theorem takeOver_cons (s : Settings) {key : Key} {v : Json} (usable : ¬Unusable key v)
    (rest : List (String × Json)) :
    ∃ t : Settings, s.takeOver ((key.name,v) :: rest) = t.takeOver rest ∧ t.get key = s.taken key (some v) ∧
      ∀ other ≠ key, t.get other = s.get other := by
  simp only [takeOver,set,Key.ofName?_name]
  rcases update_eq s key v with ⟨e,failed,error⟩ | ⟨t,ok,accepted,kept⟩
  · have refused : e.isRefusal := by
      by_contra breaks
      exact usable ((coerce_breaks_iff key v).mp ⟨e,failed,Bool.eq_false_of_not_eq_true breaks⟩)
    rw [error]
    refine ⟨s,if_pos refused,?_,fun _ _ => rfl⟩
    simp [taken,failed,Except.toOption]
  · rw [ok]
    refine ⟨t,rfl,?_,kept⟩
    simp [taken,accepted,Except.toOption]

theorem takeOver_unknown (s : Settings) {name : String} (unknown : Key.ofName? name = none) (v : Json)
    (rest : List (String × Json)) : s.takeOver ((name,v) :: rest) = s.takeOver rest := by
  simp [takeOver,set,unknown,SettingError.isRefusal]

/-- Values that can be used are all taken over or passed over, each for its own key. -/
theorem takeOver_usable (s : Settings) {entries : List (String × Json)} (usable : Usable entries)
    (distinct : (entries.map (·.1)).Nodup) (after : List (String × Json)) :
    ∃ t : Settings, s.takeOver (entries ++ after) = t.takeOver after ∧
      ∀ key, t.get key = s.taken key (Bindings.find key.name entries) := by
  induction entries generalizing s with
  | nil => exact ⟨s,rfl,fun _ => rfl⟩
  | cons entry rest ih =>
    obtain ⟨name,v⟩ := entry
    obtain ⟨fresh,distinct'⟩ := List.nodup_cons.mp distinct
    have usable' : Usable rest := fun key w mem => usable key w (List.mem_cons_of_mem _ mem)
    cases known : Key.ofName? name with
    | none =>
      obtain ⟨t,taken,held⟩ := ih s usable' distinct'
      refine ⟨t,(takeOver_unknown s known v _).trans taken,fun key => ?_⟩
      rw [held,Bindings.find,if_neg (Key.ne_name_of_ofName? known key)]
    | some key =>
      obtain rfl := Key.eq_name_of_ofName? known
      obtain ⟨u,first,own,others⟩ := takeOver_cons s (usable key v List.mem_cons_self) (rest ++ after)
      obtain ⟨t,taken,held⟩ := ih u usable' distinct'
      refine ⟨t,first.trans taken,fun k => ?_⟩
      rw [held]
      by_cases same : k = key
      · subst same
        have absent : Bindings.find k.name rest = none :=
          Option.not_isSome_iff_eq_none.mp fun found => fresh ((Bindings.find_isSome_iff _ _).mp found)
        rw [absent,Bindings.find,if_pos rfl]
        exact own
      · have apart : ¬key.name = k.name := fun e => same (Key.name_injective e).symm
        rw [Bindings.find,if_neg apart,Settings.taken,Settings.taken,others k same]

/-- A list has values that can be used only, or there is a first one that cannot. -/
theorem usable_or_exists (entries : List (String × Json)) : Usable entries ∨
    ∃ before key v after, entries = before ++ (key.name,v) :: after ∧ Usable before ∧ Unusable key v := by
  induction entries with
  | nil => exact .inl fun _ _ mem => absurd mem List.not_mem_nil
  | cons entry rest ih =>
    obtain ⟨name,v⟩ := entry
    by_cases first : ∃ key : Key, name = key.name ∧ Unusable key v
    · obtain ⟨key,rfl,unusable⟩ := first
      exact .inr ⟨[],key,v,rest,rfl,fun _ _ mem => absurd mem List.not_mem_nil,unusable⟩
    · have head : ∀ key w, (key.name,w) = (name,v) → ¬Unusable key w := by
        intro key w e unusable
        cases e
        exact first ⟨key,rfl,unusable⟩
      rcases ih with usable | ⟨before,key,w,after,rfl,usable,unusable⟩
      · exact .inl fun key w mem => (List.mem_cons.mp mem).elim (head key w) (usable key w)
      · exact .inr ⟨(name,v) :: before,key,w,after,rfl,
          fun key w mem => (List.mem_cons.mp mem).elim (head key w) (usable key w),unusable⟩

theorem takeOver_unusable (s : Settings) {key : Key} {v : Json} (unusable : Unusable key v)
    (rest : List (String × Json)) :
    ∃ e, coerce key v = .error e ∧ s.takeOver ((key.name,v) :: rest) = (some e,s) := by
  obtain ⟨e,failed,breaks⟩ := (coerce_breaks_iff key v).mpr unusable
  refine ⟨e,failed,?_⟩
  rcases update_eq s key v with ⟨f,failed',error⟩ | ⟨t,-,accepted,-⟩
  · cases failed.symm.trans failed'
    simp [takeOver,set,Key.ofName?_name,error,breaks]
  · cases failed.symm.trans accepted

/-! ## The main statement -/

/-- A text that loading fails on: another JSON value than an object, or an object with a value that cannot be
used. A text that is no JSON is passed over. -/
def Broken (text : String) : Prop :=
  (∃ v, Json.parse text = some v ∧ ∀ members, v ≠ .object members) ∨
  ∃ key v, stored? text key = some v ∧ Unusable key v

theorem not_broken_iff {text : String} {members : List (String × Json)}
    (object : Json.parse text = some (.object members)) :
    ¬Broken text ↔ Usable (distinct members).entries := by
  have stored (key : Key) : stored? text key = Bindings.find key.name (distinct members).entries := by
    rw [stored?,object]
    exact (get?_distinct members key.name).symm
  constructor
  · intro whole key v mem unusable
    refine whole (.inr ⟨key,v,?_,unusable⟩)
    rw [stored]
    exact find_of_mem (nodup_distinct members) mem
  · rintro usable (⟨v,parsed,other⟩ | ⟨key,v,found,unusable⟩)
    · exact other members (Option.some.inj (parsed.symm.trans object))
    · rw [stored] at found
      exact usable key v (Bindings.mem_of_find found) unusable

theorem load_intact (s : Settings) {text : String} (intact : ¬Broken text) :
    ∃ t : Settings, s.load text = (none,t) ∧ ∀ key, t.get key = s.taken key (stored? text key) := by
  cases parsed : Json.parse text with
  | none => exact ⟨s,by rw [load,parsed],fun key => by simp [stored?,parsed,taken]⟩
  | some v =>
    obtain ⟨members,rfl⟩ : ∃ members, v = .object members := by
      by_contra other
      exact intact (.inl ⟨v,parsed,not_exists.mp other⟩)
    obtain ⟨t,taken,held⟩ := takeOver_usable s ((not_broken_iff parsed).mp intact) (nodup_distinct members) []
    rw [List.append_nil] at taken
    refine ⟨t,by simp [load,parsed,taken,takeOver],fun key => (held key).trans ?_⟩
    rw [stored?,parsed]
    exact congrArg _ (get?_distinct members key.name)

/-- What loading comes to where it fails: nothing was taken over, or what stands in front of a value that cannot
be used. -/
inductive StopsAt (s : Settings) (text : String) : LoadError → Settings → Prop
  | start {v : Json} : Json.parse text = some v → (∀ members, v ≠ .object members) → StopsAt s text .notAnObject s
  | value {members before after key v e t} : Json.parse text = some (.object members) →
      (distinct members).entries = before ++ (Key.name key,v) :: after → Usable before → Unusable key v →
      coerce key v = .error e → (∀ k, Settings.get t k = s.taken k (Bindings.find k.name before)) →
      StopsAt s text (.value e) t

theorem load_broken (s : Settings) {text : String} (broken : Broken text) :
    ∃ e t, s.load text = (some e,t) ∧ s.StopsAt text e t := by
  by_cases object : ∃ members, Json.parse text = some (.object members)
  · obtain ⟨members,parsed⟩ := object
    have unusable := not_imp_not.mpr (not_broken_iff parsed).mpr (not_not.mpr broken)
    obtain ⟨before,key,v,after,split,usable,unusable⟩ := (usable_or_exists _).resolve_left unusable
    have apart := nodup_distinct members
    rw [split,List.map_append,List.nodup_append] at apart
    obtain ⟨t,taken,held⟩ := takeOver_usable s usable apart.1 ((key.name,v) :: after)
    obtain ⟨e,failed,stops⟩ := takeOver_unusable t unusable after
    exact ⟨.value e,t,by simp [load,parsed,split,taken,stops],.value parsed split usable unusable failed held⟩
  · rcases broken with ⟨v,parsed,other⟩ | ⟨key,v,found,-⟩
    · refine ⟨.notAnObject,s,?_,.start parsed other⟩
      rw [load,parsed]
      cases v with
      | object members => exact absurd rfl (other members)
      | _ => rfl
    · -- Only an object has members.
      obtain ⟨v,parsed,member⟩ := Option.bind_eq_some_iff.mp found
      cases v with
      | object members => exact absurd ⟨members,parsed⟩ object
      | _ => cases member

/-- A text that is not broken is loaded, and each key then holds what it makes of the last value that is stored
for it, or what it held before if there is none or if that value is refused. Nothing else counts. Of a broken
text the keys in front of the first value that cannot be used are loaded like that and the others stay. A store
starts unless the text of its file is broken. -/
theorem loading_by_key (s : Settings) (text : String) :
    (¬Broken text → ∃ t : Settings, s.load text = (none,t) ∧ ∀ key, t.get key = s.taken key (stored? text key)) ∧
    (Broken text → ∃ e t, s.load text = (some e,t) ∧ s.StopsAt text e t) ∧
    ∀ o, (∃ store, Store.start (some text) o = .ok store) ↔ ¬Broken text := by
  refine ⟨load_intact s,load_broken s,fun o => ⟨?_,fun intact => ?_⟩⟩
  · rintro ⟨store,started⟩ broken
    obtain ⟨e,t,loaded,-⟩ := load_broken {} broken
    simp [Store.start,Store.loadFile,loaded] at started
  · obtain ⟨t,loaded,-⟩ := load_intact {} intact
    simp [Store.start,Store.loadFile,loaded]

/-- A value that is accepted, one that is refused, one of no key and one that is no boolean but counts as true. -/
def mixed : String :=
  "\x7b\"max_call_depth\": \"7\", \"gc_initial_threshold\": 0, \"colour\": null, \"gc_stress\": [1]\x7d"

theorem loading_by_key_mixed : ¬Broken mixed ∧ ∃ t : Settings, load {} mixed = (none,t) ∧
    t.maxCallDepth = 7 ∧ t.threshold = 256 ∧ t.stress = true := by
  have parsed : Json.parse mixed = some (.object [("max_call_depth",.string "7"),("gc_initial_threshold",.int 0),
      ("colour",.null),("gc_stress",.array [.int 1])]) := by cbv
  have intact : ¬Broken mixed := by
    refine (not_broken_iff parsed).mpr fun key v mem unusable => ?_
    have entries : (key.name,v) ∈ [("max_call_depth",Json.string "7"),("gc_initial_threshold",.int 0),
      ("colour",.null),("gc_stress",.array [.int 1])] := mem
    simp only [List.mem_cons,List.not_mem_nil,or_false,Prod.mk.injEq] at entries
    rcases entries with ⟨-,rfl⟩ | ⟨-,rfl⟩ | ⟨name,-⟩ | ⟨name,rfl⟩
    · cases key <;> cases unusable
    · cases key with
      | growth =>
        have finite : (Number.ofInt 0).isInf = false := by decide +kernel
        cases finite.symm.trans unusable
      | _ => cases unusable
    · cases key <;> exact absurd name (by decide)
    · obtain rfl : key = .stress := Key.name_injective name
      cases unusable
  obtain ⟨t,loaded,held⟩ := (loading_by_key {} mixed).1 intact
  have depth : t.get .maxCallDepth = .int 7 := by
    rw [held,stored?,parsed]
    cbv
  have threshold : t.get .threshold = .int 256 := by
    rw [held,stored?,parsed]
    cbv
  have stress : t.get .stress = .bool true := by
    rw [held,stored?,parsed]
    cbv
  exact ⟨intact,t,loaded,Int.ofNat.inj (Json.int.inj depth),Int.ofNat.inj (Json.int.inj threshold),
    Json.bool.inj stress⟩

/-- Some texts make loading fail, and with an unusable value of one key the others are lost. -/
theorem unusable_value_breaks_loading :
    (∃ e, Store.start (some "[]") {} = .error e) ∧
    (load {} "\x7b\"max_call_depth\": null, \"gc_stress\": true\x7d").1 = some (.value .unfit) ∧
    (load {} "\x7b\"max_call_depth\": Infinity\x7d").1 = some (.value .outOfRange) ∧
    (load {} "\x7b\"max_call_depth\": null, \"gc_stress\": true\x7d").2.stress = false ∧
    (load {} "\x7b\"gc_stress\": true\x7d").2.stress = true := by
  refine ⟨?_,by decide +kernel,by decide +kernel,by decide +kernel,by decide +kernel⟩
  have refused : (Store.start (some "[]") {}).toBool = false := by decide +kernel
  cases started : Store.start (some "[]") {} with
  | error e => exact ⟨e,rfl⟩
  | ok _ =>
    rw [started] at refused
    cases refused

end Lox.Settings
