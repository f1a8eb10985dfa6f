import Ecphoria.Memory.SchemaCheck
import Mathlib.Tactic.Linarith

/-! Where the validator and the standard agree: on schemas in the forms the validator implements and
documents of integers, and in general up to the forms it reads loosely. -/
namespace Ecphoria.Schema
open Library

/-- A document whose numbers are integers that a double holds exactly. -/
inductive Whole : Json → Prop
  | null : Whole .null
  | bool (b : Bool) : Whole (.bool b)
  | int {n : Int} (small : n.natAbs ≤ 2 ^ 53) : Whole (.int n)
  | str (s : String) : Whole (.str s)
  | arr {items : List Json} (whole : ∀ item ∈ items, Whole item) : Whole (.arr items)
  | obj {fields : List (String × Json)} (whole : ∀ field ∈ fields, Whole field.2) : Whole (.obj fields)

/-- A value in which no integer is written as a float. -/
inductive Told : Json → Prop
  | null : Told .null
  | bool (b : Bool) : Told (.bool b)
  | int (n : Int) : Told (.int n)
  | float {x : Rat} (fraction : ∀ n : Int, x ≠ n) : Told (.float x)
  | str (s : String) : Told (.str s)
  | arr {items : List Json} (told : ∀ item ∈ items, Told item) : Told (.arr items)
  | obj {fields : List (String × Json)} (told : ∀ field ∈ fields, Told field.2) : Told (.obj fields)

theorem Whole.told {v : Json} (whole : Whole v) : Told v := by
  induction whole with
  | null => exact .null
  | bool b => exact .bool b
  | int _ => exact .int _
  | str s => exact .str s
  | arr _ ih => exact .arr ih
  | obj _ ih => exact .obj ih

section Reals

theorem realItems_eq_map (items : List Json) : realItems items = items.map reals := by
  induction items with
  | nil => rfl
  | cons item items ih => rw [realItems,ih,List.map_cons]

theorem realFields_eq_map (fields : List (String × Json)) :
    realFields fields = fields.map (fun field => (field.1,reals field.2)) := by
  induction fields with
  | nil => rfl
  | cons field fields ih => rw [realFields,ih,List.map_cons]

theorem reals_inj {v w : Json} (whole : Whole v) (told : Told w) (same : reals v = reals w) : v = w := by
  induction whole generalizing w with
  | null => cases told <;> simp_all [reals]
  | bool b => cases told <;> simp_all [reals]
  | @int n small =>
    cases told with
    | float fraction =>
      simp only [reals,Json.float.injEq] at same
      exact absurd same.symm (fraction n)
    | _ => simp_all [reals]
  | str s => cases told <;> simp_all [reals]
  | @arr items _ ih =>
    cases told with
    | arr told =>
      simp only [reals,Json.arr.injEq,realItems_eq_map] at same
      rw [eq_of_map_eq same (fun a here b there => ih a here (told b there))]
    | _ => simp_all [reals]
  | @obj fields _ ih =>
    cases told with
    | obj told =>
      simp only [reals,Json.obj.injEq,realFields_eq_map] at same
      rw [eq_of_map_eq same (fun a here b there equal =>
        Prod.ext (Prod.mk.inj equal).1 (ih a here (told b there) (Prod.mk.inj equal).2))]
    | _ => simp_all [reals]

end Reals

section Types

theorem hasType_of_matches {t : String} {v : Json} (matched : typeMatches t v = true) : HasType t v := by
  unfold typeMatches at matched
  split at matched
  next =>
    cases v with
    | int n => exact .number rfl
    | float x => exact .number rfl
    | _ => cases matched
  next =>
    cases v with
    | int n => exact .integer rfl
    | _ => cases matched
  next =>
    rw [beq_iff_eq] at matched
    subst matched
    cases v with
    | null => exact .null
    | bool b => exact .boolean b
    | int n =>
      simp only [typeName]
      split
      · exact .integer rfl
      · exact .number rfl
    | float x => exact .number rfl
    | str s => exact .string s
    | arr items => exact .array items
    | obj fields => exact .object fields

theorem matches_of_hasType {t : String} {v : Json} (whole : Whole v) (typed : HasType t v) :
    typeMatches t v = true := by
  cases typed with
  | integer integral =>
    cases whole with
    | @int n small =>
      simp only [typeMatches,isInteger,decide_eq_true_eq]
      omega
    | _ => cases integral
  | number numeric =>
    cases whole with
    | int small => rfl
    | _ => cases numeric
  | _ => rfl

end Types

section Bounds

theorem natural_of_asU64 {v : Json} {n : Nat} (read : asU64 v = some n) : natural v = some n := by
  cases v with
  | int m =>
    simp only [asU64,Option.ite_none_right_eq_some,Option.some.injEq] at read
    obtain ⟨⟨positive,-⟩,rfl⟩ := read
    simp [natural,number,positive]
  | _ => cases read

theorem asU64_eq_natural {n : Nat} (small : n < 2 ^ 64) : asU64 (.int n) = natural (.int n) := by
  have bounds : 0 ≤ (n : Int) ∧ (n : Int) < 2 ^ 64 := by omega
  have read : asU64 (.int n) = some n := by rw [asU64,if_pos bounds,Int.toNat_natCast]
  rw [read,natural_of_asU64 read]

theorem asF64_isSome {v : Json} : (asF64 v).isSome = (number v).isSome := by cases v <;> rfl

theorem asF64_whole {v : Json} (whole : Whole v) : asF64 v = number v := by
  cases whole with
  | int small => rw [asF64,number,f64OfInt_exact small]
  | _ => rfl

end Bounds

section Implemented

def boundKeywords : List String := ["minLength","maxLength","minItems","maxItems"]

def limitKeywords : List String := ["minimum","maximum"]

def knownTypes : List String := ["null","boolean","integer","number","string","array","object"]

/-- The forms of the keywords that are implemented, at every depth, with what may stand in `const`
and `enum` and which numbers may bound a length. -/
inductive Implemented (e : Engine) (values : Json → Prop) (lengths : Nat → Prop) : Json → Prop
  | schema {fields : List (String × Json)} (known : ∀ field ∈ fields, field.1 ∈ supported)
    (types : ∀ v, fields.lookup "type" = some v → (∃ t ∈ knownTypes, v = .str t) ∨
      ∃ ts : List String, ts ≠ [] ∧ (∀ t ∈ ts, t ∈ knownTypes) ∧ v = .arr (ts.map .str))
    (properties : ∀ v, fields.lookup "properties" = some v → ∃ props, v = .obj props)
    (required : ∀ v, fields.lookup "required" = some v → ∃ names : List String, v = .arr (names.map .str))
    (additional : ∀ v, fields.lookup "additionalProperties" = some v → ∃ b, v = .bool b)
    (enumeration : ∀ v, fields.lookup "enum" = some v → ∃ allowed, v = .arr allowed ∧ ∀ a ∈ allowed, values a)
    (constant : ∀ v, fields.lookup "const" = some v → values v)
    (pattern : ∀ v, fields.lookup "pattern" = some v → ∃ p, v = .str p ∧ e.regex p = .ok ())
    (bounds : ∀ key ∈ boundKeywords, ∀ v, fields.lookup key = some v →
      ∃ n : Nat, v = .int n ∧ lengths n)
    (limits : ∀ key ∈ limitKeywords, ∀ v, fields.lookup key = some v →
      ∃ n : Int, v = .int n ∧ n.natAbs ≤ 2 ^ 53)
    (unique : ∀ v, fields.lookup "uniqueItems" = some v → ∃ b, v = .bool b)
    (format : ∀ v, fields.lookup "format" = some v → ∃ f ∈ supportedFormats, v = .str f)
    (members : ∀ field ∈ propertySchemas fields, Implemented e values lengths field.2)
    (items : ∀ sub, fields.lookup "items" = some sub → Implemented e values lengths sub) :
    Implemented e values lengths (.obj fields)

variable {e : Engine} {values : Json → Prop} {lengths : Nat → Prop} {fields : List (String × Json)} {path : String}

theorem compileMembers_some {props : List (String × Json)} (path : String)
    (made : ∀ prop ∈ props, ∀ path, ∃ node, compileNode e prop.2 path = .ok node) :
    ∃ nodes, compileMembers e props path = .ok nodes := by
  induction props with
  | nil => exact ⟨[],by rw [compileMembers]⟩
  | cons prop props ih =>
    obtain ⟨name,sub⟩ := prop
    obtain ⟨node,first⟩ := made (name,sub) List.mem_cons_self s!"{path}/{name}"
    obtain ⟨nodes,rest⟩ := ih (fun prop later => made prop (List.mem_cons_of_mem _ later))
    refine ⟨(name,node) :: nodes,?_⟩
    rw [compileMembers,first,rest]
    rfl

theorem compileProperties_some {nodes : List (String × Node)}
    (object : ∀ v, fields.lookup "properties" = some v → ∃ props, v = .obj props)
    (made : compileMembers e (propertySchemas fields) path = .ok nodes) :
    compileProperties e fields path = .ok nodes := by
  induction fields with
  | nil =>
    rw [propertySchemas,List.lookup_nil,compileMembers] at made
    rw [compileProperties]
    exact made
  | cons field fields ih =>
    obtain ⟨key,v⟩ := field
    by_cases named : key = "properties"
    · subst named
      obtain ⟨props,rfl⟩ := object v List.lookup_cons_self
      rw [propertySchemas,List.lookup_cons_self] at made
      simpa [compileProperties] using made
    · have apart : ("properties" == key) = false := beq_false_of_ne (Ne.symm named)
      have later : compileProperties e fields path = .ok nodes := by
        apply ih
        · simpa only [List.lookup_cons,apart] using object
        · simpa only [propertySchemas,List.lookup_cons,apart] using made
      cases v <;> simpa [compileProperties,named] using later

variable (path) in
theorem compileItems_some
    (made : ∀ sub, fields.lookup "items" = some sub → ∀ path, ∃ node, compileNode e sub path = .ok node) :
    ∃ items, compileItems e fields path = .ok items := by
  induction fields with
  | nil => exact ⟨none,by rw [compileItems]⟩
  | cons field fields ih =>
    obtain ⟨key,v⟩ := field
    rw [compileItems]
    split
    next named =>
      subst named
      obtain ⟨node,inner⟩ := made v List.lookup_cons_self s!"{path}/items"
      exact ⟨some node,by rw [inner]; rfl⟩
    next named =>
      apply ih
      simpa only [List.lookup_cons,beq_false_of_ne (Ne.symm named)] using made

theorem Implemented.compiles {S : Json} (implemented : Implemented e values lengths S) (path : String) :
    ∃ node, compileNode e S path = .ok node := by
  induction implemented generalizing path with
  | @schema fields known types properties required additional enumeration constant pattern bounds limits unique
      format _ _ ofMember ofItems =>
    obtain ⟨typeList,htypes⟩ : ∃ out, compileTypes path (fields.lookup "type") = .ok out := by
      cases found : fields.lookup "type" with
      | none => exact ⟨_,rfl⟩
      | some v =>
        obtain ⟨t,-,rfl⟩ | ⟨ts,-,-,rfl⟩ := types v found
        · exact ⟨_,rfl⟩
        · exact ⟨_,entries_strings "type" ts⟩
    obtain ⟨names,hrequired⟩ : ∃ out, compileRequired path (fields.lookup "required") = .ok out := by
      cases found : fields.lookup "required" with
      | none => exact ⟨_,rfl⟩
      | some v =>
        obtain ⟨names,rfl⟩ := required v found
        exact ⟨_,entries_strings "required" names⟩
    obtain ⟨re,hpattern⟩ : ∃ out, compilePattern e path (fields.lookup "pattern") = .ok out := by
      cases found : fields.lookup "pattern" with
      | none => exact ⟨_,rfl⟩
      | some v =>
        obtain ⟨p,rfl,valid⟩ := pattern v found
        exact ⟨some p,by rw [compilePattern,valid]⟩
    obtain ⟨form,hformat⟩ : ∃ out, compileFormat path (fields.lookup "format") = .ok out := by
      cases found : fields.lookup "format" with
      | none => exact ⟨_,rfl⟩
      | some v =>
        obtain ⟨f,listed,rfl⟩ := format v found
        exact ⟨some f,by rw [compileFormat,if_pos (List.contains_iff_mem.mpr listed)]⟩
    obtain ⟨nodes,hmembers⟩ := compileMembers_some path ofMember
    obtain ⟨items,hitems⟩ := compileItems_some path ofItems
    rw [compileNode,unsupported_none.mpr known,htypes,compileProperties_some properties hmembers,hrequired,hpattern,
      hformat,hitems]
    exact ⟨_,rfl⟩

end Implemented

section Agreement

/-- Two readings that take the keywords of a schema object for a value in one way. -/
structure Alike (r q : Reading) (fields : List (String × Json)) (value : Json) : Prop where
  typed : ∀ t, r.typed t value ↔ q.typed t value
  enumerated : ∀ allowed, fields.lookup "enum" = some (.arr allowed) → ∀ a ∈ allowed,
    (r.same value a ↔ q.same value a)
  constant : ∀ expected, fields.lookup "const" = some expected → (r.same value expected ↔ q.same value expected)
  bound : ∀ key ∈ boundKeywords, (fields.lookup key).bind r.bound = (fields.lookup key).bind q.bound
  limit : ∀ key ∈ limitKeywords, (fields.lookup key).bind r.number = (fields.lookup key).bind q.number
  number : r.number value = q.number value
  matched : ∀ p s, r.matched p s ↔ q.matched p s
  format : ∀ f s, r.format f s ↔ q.format f s
  unique : ∀ items, value = .arr items → ∀ a ∈ items, ∀ b ∈ items, (r.same b a ↔ q.same b a)
  known : ∀ field ∈ fields, field.1 ∈ supported

variable {r q : Reading} {fields : List (String × Json)} {value : Json}

theorem Alike.symm (alike : Alike r q fields value) : Alike q r fields value where
  typed t := (alike.typed t).symm
  enumerated allowed found a member := (alike.enumerated allowed found a member).symm
  constant expected found := (alike.constant expected found).symm
  bound key listed := (alike.bound key listed).symm
  limit key listed := (alike.limit key listed).symm
  number := alike.number.symm
  matched p s := (alike.matched p s).symm
  format f s := (alike.format f s).symm
  unique items arr a here b there := (alike.unique items arr a here b there).symm
  known := alike.known

theorem Alike.asserts (alike : Alike r q fields value) (asserts : Asserts r fields value) : Asserts q fields value where
  typed := asserts.typed.imp id (fun ⟨t,listed,typed⟩ => ⟨t,listed,(alike.typed t).mp typed⟩)
  enumerated allowed found := by
    obtain ⟨a,member,same⟩ := asserts.enumerated allowed found
    exact ⟨a,member,(alike.enumerated allowed found a member).mp same⟩
  constant expected found := (alike.constant expected found).mp (asserts.constant expected found)
  minLength s str n found := asserts.minLength s str n ((alike.bound "minLength" (by decide)).trans found)
  maxLength s str n found := asserts.maxLength s str n ((alike.bound "maxLength" (by decide)).trans found)
  pattern s str p found := (alike.matched p s).mp (asserts.pattern s str p found)
  format s str f found := (alike.format f s).mp (asserts.format s str f found)
  minimum x numeric m found := asserts.minimum x (alike.number.trans numeric) m
    ((alike.limit "minimum" (by decide)).trans found)
  maximum x numeric m found := asserts.maximum x (alike.number.trans numeric) m
    ((alike.limit "maximum" (by decide)).trans found)
  minItems items arr n found := asserts.minItems items arr n ((alike.bound "minItems" (by decide)).trans found)
  maxItems items arr n found := asserts.maxItems items arr n ((alike.bound "maxItems" (by decide)).trans found)
  uniqueItems items arr on := (asserts.uniqueItems items arr on).imp_of_mem (fun here there apart same =>
    apart ((alike.unique items arr _ here _ there).mpr same))
  required := asserts.required
  additional := asserts.additional
  beyond := by
    rintro ⟨field,member,unknown⟩
    exact absurd (alike.known field member) unknown

theorem Alike.asserts_iff (alike : Alike r q fields value) : Asserts r fields value ↔ Asserts q fields value :=
  ⟨alike.asserts,alike.symm.asserts⟩

end Agreement

section Forms

variable {e : Engine} {beyond : List (String × Json) → Json → Prop}

/-- What the standard says of a value, with the patterns and formats as the engine decides them. -/
def Satisfies (e : Engine) (beyond : List (String × Json) → Json → Prop) : Json → Json → Prop :=
  Meets (standard (fun p s => e.isMatch p s = true) (fun f s => formatOk e f s = true) beyond)

theorem whole_child {members : List (String × Json)} (whole : Whole (.obj members)) {name : String} {child : Json}
    (found : members.lookup name = some child) : Whole child := by
  obtain ⟨before,after,rfl,-⟩ := List.lookup_eq_some_iff.mp found
  cases whole with
  | obj whole => exact whole (name,child) (by simp)

variable (beyond) in
theorem Implemented.alike {fields : List (String × Json)} {value : Json}
    (implemented : Implemented e Told (· < 2 ^ 64) (.obj fields)) (whole : Whole value) :
    Alike (validator e)
      (standard (fun p s => e.isMatch p s = true) (fun f s => formatOk e f s = true) beyond) fields value := by
  have same {v w : Json} (whole : Whole v) (told : Told w) : v = w ↔ reals v = reals w :=
    ⟨fun equal => congrArg reals equal,reals_inj whole told⟩
  cases implemented with
  | schema known types properties required additional enumeration constant pattern bounds limits unique format =>
    constructor
    case typed => exact fun t => ⟨hasType_of_matches,matches_of_hasType whole⟩
    case enumerated =>
      intro allowed found a member
      obtain ⟨other,equal,told⟩ := enumeration _ found
      cases equal
      exact same whole (told a member)
    case constant => exact fun expected found => same whole (constant expected found)
    case bound =>
      refine fun key listed => Option.bind_congr fun v found => ?_
      obtain ⟨n,rfl,small⟩ := bounds key listed v found
      rw [validator_bound,standard_bound,asU64_eq_natural small]
    case limit =>
      refine fun key listed => Option.bind_congr fun v found => ?_
      obtain ⟨n,rfl,small⟩ := limits key listed v found
      rw [validator_number,standard_number,asF64_whole (.int small)]
    case number => exact asF64_whole whole
    case matched => exact fun p s => Iff.rfl
    case format => exact fun f s => Iff.rfl
    case unique =>
      rintro items rfl a here b there
      cases whole with
      | arr whole => exact same (whole b there) (whole a here).told
    case known => exact known

theorem Implemented.meets_iff {S value : Json} (implemented : Implemented e Told (· < 2 ^ 64) S) (whole : Whole value) :
    Meets (validator e) S value ↔ Satisfies e beyond S value := by
  induction implemented generalizing value with
  | schema known types properties required additional enumeration constant pattern bounds limits unique format
      members items ofMember ofItems =>
    have alike := Implemented.alike beyond (.schema known types properties required additional enumeration
      constant pattern bounds limits unique format members items) whole
    rw [Satisfies,meets_schema,meets_schema,alike.asserts_iff]
    refine and_congr Iff.rfl (and_congr ?_ (and_congr ?_ ?_))
    · refine forall_congr' fun object => forall_congr' fun equal => forall_congr' fun field => forall_congr' fun listed =>
        forall_congr' fun child => forall_congr' fun found => ?_
      subst equal
      exact ofMember field listed (whole_child whole found)
    · refine forall_congr' fun values => forall_congr' fun equal => forall_congr' fun sub => forall_congr' fun found =>
        forall_congr' fun item => forall_congr' fun member => ?_
      subst equal
      cases whole with
      | arr whole => exact ofItems sub found (whole item member)
    · -- in these forms `additionalProperties` is no schema
      refine ⟨fun _ _ object _ sub found => ?_,fun _ nested => nested.elim⟩
      obtain ⟨b,equal⟩ := additional _ found
      cases equal

/-- On the forms it implements the validator is exact for documents of integers. -/
theorem validate_exact {S : Json} (implemented : Implemented e Told (· < 2 ^ 64) S) :
    ∃ node, compile e S = .ok node ∧
      ∀ beyond value, Whole value → (validate e node value = [] ↔ Satisfies e beyond S value) := by
  obtain ⟨node,ok⟩ := implemented.compiles "#"
  exact ⟨node,ok,fun beyond value whole => (check_nil ok value "").trans (implemented.meets_iff whole)⟩

/-- Patterns without special characters, and no text that is a date or an identifier. -/
def Engine.bare : Engine where
  regex _ := .ok ()
  isMatch p s := decide (p.toList <:+: s.toList)
  parseFromRfc3339 _ := false
  parseDate _ := false
  parseUuid _ := false
  text _ := ""
  float _ := ""

def countsSchema : Json := .obj [("items",.obj [("minimum",.int 0),("type",.str "integer")]),("type",.str "array"),
  ("uniqueItems",.bool true)]

theorem implemented_counts : Implemented e Told (· < 2 ^ 64) countsSchema := by
  have integers : Implemented e Told (· < 2 ^ 64) (.obj [("minimum",.int 0),("type",.str "integer")]) := by
    constructor <;> simp [supported,List.lookup_cons,List.lookup_nil,boundKeywords,limitKeywords,knownTypes,propertySchemas]
  constructor
  case items =>
    intro sub found
    cases found
    exact integers
  all_goals simp [supported,List.lookup_cons,List.lookup_nil,boundKeywords,limitKeywords,knownTypes,propertySchemas]

theorem validate_counts : ∃ node, compile .bare countsSchema = .ok node ∧
    (validate .bare node (.arr [.int 1,.int 1]) = [] ↔
      Satisfies .bare (fun _ _ => True) countsSchema (.arr [.int 1,.int 1])) := by
  obtain ⟨node,ok,exact⟩ := validate_exact (implemented_counts (e := .bare))
  exact ⟨node,ok,exact _ _ (.arr (by simp [Whole.int]))⟩

/-- A constant written as a float is the same number to the standard and another value to the
validator. -/
theorem integral_float_refused : ¬∀ (e : Engine) (S : Json), Implemented e (fun _ => True) (fun _ => True) S →
    ∃ node, compile e S = .ok node ∧
      ∀ beyond value, Whole value → (validate e node value = [] ↔ Satisfies e beyond S value) := by
  intro claim
  have implemented : Implemented .bare (fun _ => True) (fun _ => True) (.obj [("const",.float 1)]) := by
    constructor <;> simp [supported,List.lookup_cons,List.lookup_nil,boundKeywords,limitKeywords,propertySchemas]
  obtain ⟨node,ok,exact⟩ := claim .bare _ implemented
  have satisfied : Satisfies .bare (fun _ _ => True) (.obj [("const",.float 1)]) (.int 1) := by
    rw [Satisfies,meets_schema,asserts_iff]
    simp [List.lookup_cons,List.lookup_nil,typeNames,strings,propertySchemas,standard,reals]
  have passed := (exact (fun _ _ => True) (.int 1) (.int (by decide))).mpr satisfied
  cases ok
  revert passed
  decide

end Forms

section Slips

inductive Sized : String → String → Json → Nat → Prop
  | chars (s : String) : Sized "minLength" "maxLength" (.str s) s.length
  | items (values : List Json) : Sized "minItems" "maxItems" (.arr values) values.length

/-- An assertion that a value breaks in a form the validator reads as absent or as a looser one: a
schema under `additionalProperties`, a bound on a length that is no `u64` literal, a limit that
differs from the value by less than a double shows, items that are the same number written once as an
integer and once as a float. -/
inductive Slips (std : Reading) : Json → Json → Prop
  | extra {fields members : List (String × Json)} {member : String × Json} {sub : List (String × Json)}
    (found : fields.lookup "additionalProperties" = some (.obj sub)) (listed : member ∈ members)
    (unnamed : member.1 ∉ (propertySchemas fields).map Prod.fst) (broken : ¬Meets std (.obj sub) member.2) :
    Slips std (.obj fields) (.obj members)
  | short {fields : List (String × Json)} {least most : String} {value bound : Json} {size n : Nat}
    (sized : Sized least most value size) (found : fields.lookup least = some bound) (unread : asU64 bound = none)
    (exact : natural bound = some n) (broken : size < n) : Slips std (.obj fields) value
  | long {fields : List (String × Json)} {least most : String} {value bound : Json} {size n : Nat}
    (sized : Sized least most value size) (found : fields.lookup most = some bound) (unread : asU64 bound = none)
    (exact : natural bound = some n) (broken : n < size) : Slips std (.obj fields) value
  | low {fields : List (String × Json)} {value bound : Json} {x m x' m' : Rat}
    (found : fields.lookup "minimum" = some bound) (exact : number value = some x) (limit : number bound = some m)
    (broken : x < m) (read : asF64 value = some x') (readLimit : asF64 bound = some m') (passes : m' ≤ x') :
    Slips std (.obj fields) value
  | high {fields : List (String × Json)} {value bound : Json} {x m x' m' : Rat}
    (found : fields.lookup "maximum" = some bound) (exact : number value = some x) (limit : number bound = some m)
    (broken : m < x) (read : asF64 value = some x') (readLimit : asF64 bound = some m') (passes : x' ≤ m') :
    Slips std (.obj fields) value
  | repeated {fields : List (String × Json)} {items : List Json}
    (found : fields.lookup "uniqueItems" = some (.bool true))
    (broken : ¬items.Pairwise (fun a b => reals b ≠ reals a)) (passes : items.Pairwise (fun a b => b ≠ a)) :
    Slips std (.obj fields) (.arr items)
  | property {fields members : List (String × Json)} {field : String × Json} {child : Json}
    (listed : field ∈ propertySchemas fields) (found : members.lookup field.1 = some child)
    (slips : Slips std field.2 child) : Slips std (.obj fields) (.obj members)
  | item {fields : List (String × Json)} {values : List Json} {sub item : Json}
    (found : fields.lookup "items" = some sub) (listed : item ∈ values) (slips : Slips std sub item) :
    Slips std (.obj fields) (.arr values)

variable {e : Engine} {matched format : String → String → Prop} {beyond : List (String × Json) → Json → Prop}

theorem Slips.breaks {S value : Json} (slips : Slips (standard matched format beyond) S value) :
    ¬Meets (standard matched format beyond) S value := by
  induction slips with
  | extra found listed unnamed broken =>
    intro meets
    exact broken ((meets_schema.mp meets).2.2.2 trivial _ rfl _ found _ listed unnamed)
  | short sized found _ exact broken =>
    intro meets
    obtain ⟨asserts,-⟩ := meets_schema.mp meets
    cases sized with
    | chars s => exact absurd (asserts.minLength s rfl _ (by rw [found]; exact exact)) (by omega)
    | items values => exact absurd (asserts.minItems values rfl _ (by rw [found]; exact exact)) (by omega)
  | long sized found _ exact broken =>
    intro meets
    obtain ⟨asserts,-⟩ := meets_schema.mp meets
    cases sized with
    | chars s => exact absurd (asserts.maxLength s rfl _ (by rw [found]; exact exact)) (by omega)
    | items values => exact absurd (asserts.maxItems values rfl _ (by rw [found]; exact exact)) (by omega)
  | low found exact limit broken =>
    intro meets
    exact absurd broken (not_lt.mpr ((meets_schema.mp meets).1.minimum _ exact _ (by rw [found]; exact limit)))
  | high found exact limit broken =>
    intro meets
    exact absurd broken (not_lt.mpr ((meets_schema.mp meets).1.maximum _ exact _ (by rw [found]; exact limit)))
  | repeated found broken =>
    intro meets
    exact broken ((meets_schema.mp meets).1.uniqueItems _ rfl found)
  | property listed found _ ih =>
    intro meets
    exact ih ((meets_schema.mp meets).2.1 _ rfl _ listed _ found)
  | item found listed _ ih =>
    intro meets
    exact ih ((meets_schema.mp meets).2.2.1 _ rfl _ found _ listed)

section Read

variable {fields : List (String × Json)} {value : Json} {least most : String} {size : Nat}

theorem least_of_read (sound : ¬Slips (standard matched format beyond) (.obj fields) value)
    (sized : Sized least most value size) (read : ∀ k, (fields.lookup least).bind asU64 = some k → k ≤ size) (n : Nat)
    (found : (fields.lookup least).bind natural = some n) : n ≤ size := by
  obtain ⟨bound,listed,exact⟩ := Option.bind_eq_some_iff.mp found
  cases taken : asU64 bound with
  | none =>
    by_contra short
    exact sound (.short sized listed taken exact (by omega))
  | some k =>
    have same := Option.some.inj ((natural_of_asU64 taken).symm.trans exact)
    exact same ▸ read k (by rw [listed]; exact taken)

theorem most_of_read (sound : ¬Slips (standard matched format beyond) (.obj fields) value)
    (sized : Sized least most value size) (read : ∀ k, (fields.lookup most).bind asU64 = some k → size ≤ k) (n : Nat)
    (found : (fields.lookup most).bind natural = some n) : size ≤ n := by
  obtain ⟨bound,listed,exact⟩ := Option.bind_eq_some_iff.mp found
  cases taken : asU64 bound with
  | none =>
    by_contra long
    exact sound (.long sized listed taken exact (by omega))
  | some k =>
    have same := Option.some.inj ((natural_of_asU64 taken).symm.trans exact)
    exact same ▸ read k (by rw [listed]; exact taken)

theorem asF64_of_number {v : Json} {x : Rat} (exact : number v = some x) : ∃ x', asF64 v = some x' :=
  Option.isSome_iff_exists.mp (by rw [asF64_isSome,exact]; rfl)

theorem asserts_of_read (known : ∀ field ∈ fields, field.1 ∈ supported) (asserts : Asserts (validator e) fields value)
    (looser : ∀ f s, formatOk e f s = true → format f s)
    (sound : ¬Slips (standard (fun p s => e.isMatch p s = true) format beyond) (.obj fields) value) :
    Asserts (standard (fun p s => e.isMatch p s = true) format beyond) fields value where
  typed := asserts.typed.imp id (fun ⟨t,listed,typed⟩ => ⟨t,listed,hasType_of_matches typed⟩)
  enumerated allowed found := by
    obtain ⟨a,member,same⟩ := asserts.enumerated allowed found
    exact ⟨a,member,congrArg reals same⟩
  constant expected found := congrArg reals (asserts.constant expected found)
  minLength := by
    rintro s rfl
    exact least_of_read sound (.chars s) (asserts.minLength s rfl)
  maxLength := by
    rintro s rfl
    exact most_of_read sound (.chars s) (asserts.maxLength s rfl)
  pattern := asserts.pattern
  format s str f found := looser f s (asserts.format s str f found)
  minimum x exact m found := by
    obtain ⟨bound,listed,limit⟩ := Option.bind_eq_some_iff.mp found
    obtain ⟨x',read⟩ := asF64_of_number exact
    obtain ⟨m',readLimit⟩ := asF64_of_number limit
    by_contra low
    exact sound (.low listed exact limit (not_le.mp low) read readLimit
      (asserts.minimum x' read m' (by rw [listed]; exact readLimit)))
  maximum x exact m found := by
    obtain ⟨bound,listed,limit⟩ := Option.bind_eq_some_iff.mp found
    obtain ⟨x',read⟩ := asF64_of_number exact
    obtain ⟨m',readLimit⟩ := asF64_of_number limit
    by_contra high
    exact sound (.high listed exact limit (not_le.mp high) read readLimit
      (asserts.maximum x' read m' (by rw [listed]; exact readLimit)))
  minItems := by
    rintro items rfl
    exact least_of_read sound (.items items) (asserts.minItems items rfl)
  maxItems := by
    rintro items rfl
    exact most_of_read sound (.items items) (asserts.maxItems items rfl)
  uniqueItems := by
    rintro items rfl on
    by_contra repeated
    exact sound (.repeated on repeated (asserts.uniqueItems items rfl on))
  required := asserts.required
  additional := asserts.additional
  beyond := by
    rintro ⟨field,member,unknown⟩
    exact absurd (known field member) unknown

end Read

theorem Compiled.property {fields : List (String × Json)} {node : Node} (compiled : Compiled e fields node)
    {field : String × Json} (listed : field ∈ propertySchemas fields) :
    ∃ at' sub, compileNode e field.2 at' = .ok sub := by
  obtain ⟨sub,-,-,at',made⟩ := exists_of_forall₂ compiled.properties listed
  exact ⟨at',sub.2,made⟩

theorem Compiled.item {fields : List (String × Json)} {node : Node} (compiled : Compiled e fields node)
    {sub : Json} (found : fields.lookup "items" = some sub) : ∃ at' inner, compileNode e sub at' = .ok inner := by
  have related := compiled.items
  rw [found] at related
  generalize node.items = items at related
  cases related with
  | some made =>
    obtain ⟨at',made⟩ := made
    exact ⟨at',_,made⟩

theorem meets_of_read {S value : Json} {node : Node} {at' : String} (ok : compileNode e S at' = .ok node)
    (looser : ∀ f s, formatOk e f s = true → format f s) (read : Meets (validator e) S value)
    (sound : ¬Slips (standard (fun p s => e.isMatch p s = true) format beyond) S value) :
    Meets (standard (fun p s => e.isMatch p s = true) format beyond) S value := by
  induction S using schema_induction generalizing node at' value with
  | step S ih =>
    obtain ⟨fields,rfl,compiled⟩ := compileNode_ok ok
    obtain ⟨ofProperty,ofItems⟩ := ih fields rfl
    obtain ⟨asserts,properties,items,-⟩ := meets_schema.mp read
    refine .schema (asserts_of_read compiled.known asserts looser sound) ?_ ?_ ?_
    · rintro members rfl field listed child found
      obtain ⟨at',sub,made⟩ := compiled.property listed
      exact ofProperty field listed made (properties members rfl field listed child found)
        (fun slips => sound (.property listed found slips))
    · rintro values rfl sub found item listed
      obtain ⟨at',inner,made⟩ := compiled.item found
      exact ofItems sub found made (items values rfl sub found item listed)
        (fun slips => sound (.item found listed slips))
    · rintro - members rfl sub found member listed unnamed
      by_contra broken
      exact sound (.extra found listed unnamed broken)

/-- What the standard asserts of a value, where a format is an annotation. -/
def Asserted (e : Engine) (beyond : List (String × Json) → Json → Prop) : Json → Json → Prop :=
  Meets (standard (fun p s => e.isMatch p s = true) (fun _ _ => True) beyond)

/-- A value that passes meets every assertion of an accepted schema exactly when it breaks none in a
form that is read loosely, or breaks one that is read. -/
theorem accepted_sound_iff {S : Json} {node : Node} (ok : compile e S = .ok node) (value : Json) :
    (validate e node value = [] → Asserted e beyond S value) ↔
      (Meets (validator e) S value →
        ¬Slips (standard (fun p s => e.isMatch p s = true) (fun _ _ => True) beyond) S value) := by
  rw [validate,check_nil ok]
  exact forall_congr' fun read =>
    ⟨fun meets slips => slips.breaks meets,meets_of_read ok (fun _ _ _ => trivial) read⟩

/-- A schema document, as the standard's own schema has the supported keywords. -/
inductive Valid : Json → Prop
  | bool (b : Bool) : Valid (.bool b)
  | schema {fields : List (String × Json)}
    (types : ∀ v, fields.lookup "type" = some v → (∃ t ∈ knownTypes, v = .str t) ∨
      ∃ ts : List String, ts ≠ [] ∧ ts.Nodup ∧ (∀ t ∈ ts, t ∈ knownTypes) ∧ v = .arr (ts.map .str))
    (properties : ∀ v, fields.lookup "properties" = some v → ∃ props, v = .obj props)
    (members : ∀ field ∈ propertySchemas fields, Valid field.2)
    (required : ∀ v, fields.lookup "required" = some v → ∃ names : List String, names.Nodup ∧ v = .arr (names.map .str))
    (additional : ∀ v, fields.lookup "additionalProperties" = some v → Valid v)
    (items : ∀ v, fields.lookup "items" = some v → Valid v)
    (enumeration : ∀ v, fields.lookup "enum" = some v → ∃ allowed, v = .arr allowed)
    (texts : ∀ key ∈ ["$schema","$id","title","description","pattern","format"], ∀ v, fields.lookup key = some v →
      ∃ s, v = .str s)
    (examples : ∀ v, fields.lookup "examples" = some v → ∃ values, v = .arr values)
    (bounds : ∀ key ∈ boundKeywords, ∀ v, fields.lookup key = some v → ∃ n, natural v = some n)
    (limits : ∀ key ∈ limitKeywords, ∀ v, fields.lookup key = some v → ∃ x, number v = some x)
    (unique : ∀ v, fields.lookup "uniqueItems" = some v → ∃ b, v = .bool b) : Valid (.obj fields)

def textsSchema : Json := .obj [("additionalProperties",.obj [("type",.str "string")])]

theorem valid_texts : Valid textsSchema := by
  have text : Valid (.obj [("type",.str "string")]) := by
    constructor <;> simp [List.lookup_cons,List.lookup_nil,boundKeywords,limitKeywords,knownTypes,propertySchemas]
  constructor
  case additional =>
    intro v found
    cases found
    exact text
  all_goals simp [List.lookup_cons,List.lookup_nil,boundKeywords,limitKeywords,propertySchemas]

theorem HasType.text {t : String} {v : Json} (typed : HasType t v) (text : t = "string") : ∃ s, v = .str s := by
  cases typed with
  | string s => exact ⟨s,rfl⟩
  | _ => simp_all

theorem slips_texts : Slips (standard matched format beyond) textsSchema (.obj [("a",.int 1)]) := by
  have member : ("a",Json.int 1) ∈ [("a",Json.int 1)] := List.mem_cons_self
  refine .extra rfl member (by simp [propertySchemas,List.lookup_cons,List.lookup_nil]) ?_
  intro meets
  rcases (meets_schema.mp meets).1.typed with none | ⟨t,listed,typed⟩
  · cases none
  · obtain ⟨s,text⟩ := HasType.text typed (List.mem_singleton.mp listed)
    cases text

/-- A schema for the further members is accepted and never looked at. -/
theorem additional_schema_ignored : ¬∀ (e : Engine) (beyond : List (String × Json) → Json → Prop) (S : Json) (node : Node)
    (value : Json), Valid S → compile e S = .ok node → validate e node value = [] → Asserted e beyond S value :=
  fun claim => slips_texts.breaks (claim .bare (fun _ _ => True) textsSchema _ (.obj [("a",.int 1)]) valid_texts rfl rfl)

theorem accepted_sound_texts : ∃ node, compile .bare textsSchema = .ok node ∧
    ((validate .bare node (.obj [("a",.str "x")]) = [] →
      Asserted .bare (fun _ _ => True) textsSchema (.obj [("a",.str "x")])) ↔
    (Meets (validator .bare) textsSchema (.obj [("a",.str "x")]) →
      ¬Slips (standard (fun p s => Engine.bare.isMatch p s = true) (fun _ _ => True) (fun _ _ => True)) textsSchema
        (.obj [("a",.str "x")]))) :=
  ⟨_,rfl,accepted_sound_iff rfl _⟩

end Slips

end Ecphoria.Schema
