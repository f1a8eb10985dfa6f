import Ecphoria.Memory.Schema
import Mathlib.Tactic.MkIffOfInductiveProp

/-! What the keywords of a schema assert of a value, over a reading that settles what readers differ
on: when a value has a type, when two values are the same, which number a bound is. The validator is
one reading, the standard another. -/
namespace Ecphoria.Schema

/-- How a reader takes the parts of the keywords. -/
structure Reading where
  typed : String → Json → Prop
  same : Json → Json → Prop
  bound : Json → Option Nat
  number : Json → Option Rat
  matched : String → String → Prop
  format : String → String → Prop
  /-- Whether a schema under `additionalProperties` is applied. -/
  nested : Prop
  /-- What keywords beyond the supported ones say. -/
  beyond : List (String × Json) → Json → Prop

def strings : Option Json → List String
  | some (.arr items) => items.filterMap Json.asStr
  | _ => []

def typeNames : Option Json → List String
  | some (.str t) => [t]
  | other => strings other

def propertySchemas (fields : List (String × Json)) : List (String × Json) :=
  match fields.lookup "properties" with
  | some (.obj props) => props
  | _ => []

@[mk_iff asserts_iff]
structure Asserts (r : Reading) (fields : List (String × Json)) (value : Json) : Prop where
  typed : typeNames (fields.lookup "type") = [] ∨ ∃ t ∈ typeNames (fields.lookup "type"), r.typed t value
  enumerated : ∀ allowed, fields.lookup "enum" = some (.arr allowed) → ∃ a ∈ allowed, r.same value a
  constant : ∀ expected, fields.lookup "const" = some expected → r.same value expected
  minLength : ∀ s, value = .str s → ∀ n, (fields.lookup "minLength").bind r.bound = some n → n ≤ s.length
  maxLength : ∀ s, value = .str s → ∀ n, (fields.lookup "maxLength").bind r.bound = some n → s.length ≤ n
  pattern : ∀ s, value = .str s → ∀ p, fields.lookup "pattern" = some (.str p) → r.matched p s
  format : ∀ s, value = .str s → ∀ f, fields.lookup "format" = some (.str f) → r.format f s
  minimum : ∀ x, r.number value = some x → ∀ m, (fields.lookup "minimum").bind r.number = some m → m ≤ x
  maximum : ∀ x, r.number value = some x → ∀ m, (fields.lookup "maximum").bind r.number = some m → x ≤ m
  minItems : ∀ items, value = .arr items → ∀ n, (fields.lookup "minItems").bind r.bound = some n → n ≤ items.length
  maxItems : ∀ items, value = .arr items → ∀ n, (fields.lookup "maxItems").bind r.bound = some n → items.length ≤ n
  uniqueItems : ∀ items, value = .arr items → fields.lookup "uniqueItems" = some (.bool true) →
    items.Pairwise (fun a b => ¬r.same b a)
  required : ∀ members, value = .obj members → ∀ name ∈ strings (fields.lookup "required"),
    (members.lookup name).isSome
  additional : ∀ members, value = .obj members → fields.lookup "additionalProperties" = some (.bool false) →
    ∀ member ∈ members, member.1 ∈ (propertySchemas fields).map Prod.fst
  beyond : (∃ field ∈ fields, field.1 ∉ supported) → r.beyond fields value

/-- A value meets a schema when it meets what the schema says of it and its members and items meet
the schemas given for them. -/
inductive Meets (r : Reading) : Json → Json → Prop
  | anything (value : Json) : Meets r (.bool true) value
  | schema {fields : List (String × Json)} {value : Json} (asserts : Asserts r fields value)
    (properties : ∀ members, value = .obj members → ∀ field ∈ propertySchemas fields,
      ∀ child, members.lookup field.1 = some child → Meets r field.2 child)
    (items : ∀ values, value = .arr values → ∀ sub, fields.lookup "items" = some sub →
      ∀ item ∈ values, Meets r sub item)
    (additional : r.nested → ∀ members, value = .obj members → ∀ sub,
      fields.lookup "additionalProperties" = some (.obj sub) →
      ∀ member ∈ members, member.1 ∉ (propertySchemas fields).map Prod.fst → Meets r (.obj sub) member.2) :
    Meets r (.obj fields) value

theorem meets_schema {r : Reading} {fields : List (String × Json)} {value : Json} :
    Meets r (.obj fields) value ↔ Asserts r fields value ∧
      (∀ members, value = .obj members → ∀ field ∈ propertySchemas fields,
        ∀ child, members.lookup field.1 = some child → Meets r field.2 child) ∧
      (∀ values, value = .arr values → ∀ sub, fields.lookup "items" = some sub → ∀ item ∈ values, Meets r sub item) ∧
      (r.nested → ∀ members, value = .obj members → ∀ sub, fields.lookup "additionalProperties" = some (.obj sub) →
        ∀ member ∈ members, member.1 ∉ (propertySchemas fields).map Prod.fst → Meets r (.obj sub) member.2) := by
  constructor
  · rintro (_ | ⟨asserts,properties,items,additional⟩)
    exact ⟨asserts,properties,items,additional⟩
  · rintro ⟨asserts,properties,items,additional⟩
    exact .schema asserts properties items additional

section Standard

def number : Json → Option Rat
  | .int n => some n
  | .float x => some x
  | _ => none

/-- A bound on a length is a number without a fraction, however it is written. -/
def natural (v : Json) : Option Nat :=
  (number v).bind (fun x => if x.den = 1 ∧ 0 ≤ x.num then some x.num.toNat else none)

mutual

/-- The value with each number as the number it is: two values are the same when these agree. -/
def reals : Json → Json
  | .int n => .float n
  | .arr items => .arr (realItems items)
  | .obj fields => .obj (realFields fields)
  | other => other

def realItems : List Json → List Json
  | [] => []
  | item :: items => reals item :: realItems items

def realFields : List (String × Json) → List (String × Json)
  | [] => []
  | (name,value) :: fields => (name,reals value) :: realFields fields

end

inductive HasType : String → Json → Prop
  | null : HasType "null" .null
  | boolean (b : Bool) : HasType "boolean" (.bool b)
  | integer {v : Json} {n : Int} (whole : number v = some (n : Rat)) : HasType "integer" v
  | number {v : Json} {x : Rat} (numeric : number v = some x) : HasType "number" v
  | string (s : String) : HasType "string" (.str s)
  | array (items : List Json) : HasType "array" (.arr items)
  | object (fields : List (String × Json)) : HasType "object" (.obj fields)

variable (matched format : String → String → Prop) (beyond : List (String × Json) → Json → Prop)

/-- The keywords as the 2020-12 draft reads them. -/
def standard : Reading where
  typed := HasType
  same a b := reals a = reals b
  bound := natural
  number := number
  matched := matched
  format := format
  nested := True
  beyond := beyond

end Standard

def validator (e : Engine) : Reading where
  typed t v := typeMatches t v = true
  same a b := a = b
  bound := asU64
  number := asF64
  matched p s := e.isMatch p s = true
  format f s := formatOk e f s = true
  nested := False
  beyond _ _ := True

section Fields

variable (e : Engine) (matched format : String → String → Prop) (beyond : List (String × Json) → Json → Prop)

@[simp] theorem validator_bound : (validator e).bound = asU64 := rfl
@[simp] theorem validator_number : (validator e).number = asF64 := rfl
@[simp] theorem standard_bound : (standard matched format beyond).bound = natural := rfl
@[simp] theorem standard_number : (standard matched format beyond).number = number := rfl

end Fields

section Subschemas

variable {fields : List (String × Json)}

theorem sizeOf_lookup {key : String} {v : Json} (found : fields.lookup key = some v) :
    sizeOf v < sizeOf (Json.obj fields) := by
  have field : (key,v) ∈ fields := by
    obtain ⟨before,after,rfl,-⟩ := List.lookup_eq_some_iff.mp found
    simp
  have smaller := List.sizeOf_lt_of_mem field
  simp only [Prod.mk.sizeOf_spec,Json.obj.sizeOf_spec] at smaller ⊢
  omega

theorem sizeOf_propertySchema {field : String × Json} (listed : field ∈ propertySchemas fields) :
    sizeOf field.2 < sizeOf (Json.obj fields) := by
  unfold propertySchemas at listed
  split at listed
  next props found =>
    have outer := sizeOf_lookup found
    have inner := List.sizeOf_lt_of_mem listed
    obtain ⟨name,sub⟩ := field
    simp only [Prod.mk.sizeOf_spec,Json.obj.sizeOf_spec] at outer inner ⊢
    omega
  next => cases listed

theorem schema_induction {P : Json → Prop}
    (step : ∀ S, (∀ fields, S = .obj fields → (∀ field ∈ propertySchemas fields, P field.2) ∧
      ∀ sub, fields.lookup "items" = some sub → P sub) → P S) (S : Json) : P S := by
  induction size : sizeOf S using Nat.strong_induction_on generalizing S with
  | h size ih =>
    apply step
    rintro fields rfl
    constructor
    · intro field listed
      exact ih _ (size ▸ sizeOf_propertySchema listed) _ rfl
    · intro sub found
      exact ih _ (size ▸ sizeOf_lookup found) _ rfl

end Subschemas

section Compiled

variable {e : Engine} {fields : List (String × Json)} {path : String}

theorem bind_ok {A B : Type} {x : Except String A} {f : A → Except String B} {b : B} (ok : x >>= f = .ok b) :
    ∃ a, x = .ok a ∧ f a = .ok b := by
  cases x with
  | error error => cases ok
  | ok a => exact ⟨a,rfl,ok⟩

theorem unsupported_none : unsupported path fields = none ↔ ∀ field ∈ fields, field.1 ∈ supported := by
  simp [unsupported,List.find?_eq_none]

theorem entries_ok {keyword : String} {items : List Json} {out : List String}
    (ok : entries path keyword items = .ok out) : items = out.map .str := by
  induction items generalizing out with
  | nil =>
    cases ok
    rfl
  | cons item items ih =>
    unfold entries at ok ih
    rw [List.mapM_cons] at ok
    cases item with
    | str t =>
      cases rest : items.mapM (entry path keyword) with
      | error error =>
        rw [rest] at ok
        cases ok
      | ok names =>
        rw [rest] at ok
        cases ok
        rw [ih rest]
        rfl
    | _ => cases ok

theorem entries_strings (keyword : String) (names : List String) :
    entries path keyword (names.map .str) = .ok names := by
  induction names with
  | nil => rfl
  | cons name names ih =>
    unfold entries at ih ⊢
    rw [List.map_cons,List.mapM_cons,ih]
    rfl

theorem filterMap_asStr (names : List String) : (names.map Json.str).filterMap Json.asStr = names := by
  rw [List.filterMap_map]
  exact List.filterMap_some

theorem compileTypes_ok {found : Option Json} {types : List String} (ok : compileTypes path found = .ok types) :
    types = typeNames found := by
  unfold compileTypes at ok
  split at ok
  next => cases ok; rfl
  next => cases ok; rfl
  next ts =>
    rw [entries_ok ok]
    exact (filterMap_asStr types).symm
  next => cases ok

theorem compileRequired_ok {found : Option Json} {required : List String}
    (ok : compileRequired path found = .ok required) : required = strings found := by
  unfold compileRequired at ok
  split at ok
  next => cases ok; rfl
  next ts =>
    rw [entries_ok ok]
    exact (filterMap_asStr required).symm
  next => cases ok

theorem compilePattern_ok {found : Option Json} {pattern : Option String}
    (ok : compilePattern e path found = .ok pattern) (p : String) : pattern = some p ↔ found = some (.str p) := by
  unfold compilePattern at ok
  split at ok
  next => cases ok; simp
  next q =>
    split at ok
    · cases ok
      simp
    · cases ok
  next => cases ok

theorem compileFormat_ok {found : Option Json} {format : Option String}
    (ok : compileFormat path found = .ok format) (f : String) : format = some f ↔ found = some (.str f) := by
  unfold compileFormat at ok
  split at ok
  next => cases ok; simp
  next q =>
    split at ok
    · cases ok
      simp
    · cases ok
  next => cases ok

theorem compileMembers_ok {props : List (String × Json)} {nodes : List (String × Node)}
    (ok : compileMembers e props path = .ok nodes) :
    List.Forall₂ (fun prop node => prop.1 = node.1 ∧ ∃ at', compileNode e prop.2 at' = .ok node.2) props nodes := by
  induction props generalizing nodes with
  | nil =>
    rw [compileMembers] at ok
    cases ok
    exact .nil
  | cons prop props ih =>
    obtain ⟨name,sub⟩ := prop
    rw [compileMembers] at ok
    cases first : compileNode e sub s!"{path}/{name}" with
    | error error =>
      rw [first] at ok
      cases ok
    | ok node =>
      cases rest : compileMembers e props path with
      | error error =>
        rw [first,rest] at ok
        cases ok
      | ok others =>
        rw [first,rest] at ok
        cases ok
        exact .cons ⟨rfl,_,first⟩ (ih rest)

theorem compileProperties_ok {nodes : List (String × Node)} (ok : compileProperties e fields path = .ok nodes) :
    compileMembers e (propertySchemas fields) path = .ok nodes := by
  induction fields with
  | nil =>
    rw [compileProperties] at ok
    rw [propertySchemas,List.lookup_nil,compileMembers]
    exact ok
  | cons field fields ih =>
    obtain ⟨key,v⟩ := field
    by_cases named : key = "properties"
    · subst named
      rw [propertySchemas,List.lookup_cons_self]
      cases v with
      | obj props => simpa [compileProperties] using ok
      | _ => simp [compileProperties] at ok
    · have apart : ("properties" == key) = false := beq_false_of_ne (Ne.symm named)
      have later : compileProperties e fields path = .ok nodes := by
        cases v <;> simpa [compileProperties,named] using ok
      have same : propertySchemas ((key,v) :: fields) = propertySchemas fields := by
        simp only [propertySchemas,List.lookup_cons,apart]
      rw [same]
      exact ih later

theorem compileItems_ok {items : Option Node} (ok : compileItems e fields path = .ok items) :
    Option.Rel (fun sub node => ∃ at', compileNode e sub at' = .ok node) (fields.lookup "items") items := by
  induction fields with
  | nil =>
    rw [compileItems] at ok
    cases ok
    exact .none
  | cons field fields ih =>
    obtain ⟨key,v⟩ := field
    by_cases named : key = "items"
    · subst named
      rw [compileItems,if_pos rfl] at ok
      rw [List.lookup_cons_self]
      cases inner : compileNode e v s!"{path}/items" with
      | error error =>
        rw [inner] at ok
        cases ok
      | ok node =>
        rw [inner] at ok
        cases ok
        exact .some ⟨_,inner⟩
    · rw [compileItems,if_neg named] at ok
      rw [List.lookup_cons,beq_false_of_ne (Ne.symm named)]
      exact ih ok

structure Compiled (e : Engine) (fields : List (String × Json)) (node : Node) : Prop where
  known : ∀ field ∈ fields, field.1 ∈ supported
  own : node.toAssertions =
    assertions fields (typeNames (fields.lookup "type")) (strings (fields.lookup "required")) node.pattern node.format
  pattern : ∀ p, node.pattern = some p ↔ fields.lookup "pattern" = some (.str p)
  format : ∀ f, node.format = some f ↔ fields.lookup "format" = some (.str f)
  properties : List.Forall₂ (fun prop sub => prop.1 = sub.1 ∧ ∃ at', compileNode e prop.2 at' = .ok sub.2)
    (propertySchemas fields) node.properties
  items : Option.Rel (fun sub inner => ∃ at', compileNode e sub at' = .ok inner) (fields.lookup "items") node.items

theorem compileNode_ok {S : Json} {node : Node} (ok : compileNode e S path = .ok node) :
    ∃ fields, S = .obj fields ∧ Compiled e fields node := by
  cases S with
  | obj fields =>
    refine ⟨fields,rfl,?_⟩
    rw [compileNode] at ok
    split at ok
    next => cases ok
    next known =>
      obtain ⟨types,htypes,ok⟩ := bind_ok ok
      obtain ⟨properties,hproperties,ok⟩ := bind_ok ok
      obtain ⟨required,hrequired,ok⟩ := bind_ok ok
      obtain ⟨pattern,hpattern,ok⟩ := bind_ok ok
      obtain ⟨format,hformat,ok⟩ := bind_ok ok
      obtain ⟨items,hitems,ok⟩ := bind_ok ok
      cases ok
      exact {
        known := unsupported_none.mp known
        own := by rw [compileTypes_ok htypes,compileRequired_ok hrequired]; rfl
        pattern := compilePattern_ok hpattern
        format := compileFormat_ok hformat
        properties := compileMembers_ok (compileProperties_ok hproperties)
        items := compileItems_ok hitems }
  | _ => cases ok

end Compiled

end Ecphoria.Schema
