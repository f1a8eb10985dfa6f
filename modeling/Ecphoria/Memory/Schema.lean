import Ecphoria.Data
import Mathlib.Data.List.Infix

/-! The validator of the fact schemas: a schema document is compiled into a node, refused where it
holds a keyword that is not known, and a value is checked against the node with every violation
collected. -/
namespace Ecphoria.Schema

/-- What the validator calls of the regular expressions, the dates, the identifiers and the printing
of values. -/
structure Engine where
  regex : String → Except String Unit
  isMatch : String → String → Bool
  parseFromRfc3339 : String → Bool
  parseDate : String → Bool
  parseUuid : String → Bool
  text : Json → String
  float : Rat → String

def supported : List String :=
  ["$schema","$id","title","description","examples","default",
    "type","properties","required","additionalProperties","enum","const","pattern","minLength",
    "maxLength","minimum","maximum","minItems","maxItems","uniqueItems","items","format"]

def supportedFormats : List String := ["date-time","date","uri","uuid"]

structure Assertions where
  types : List String
  required : List String
  additionalProperties : Bool
  enumeration : Option (List Json)
  constant : Option Json
  pattern : Option String
  minLength : Option Nat
  maxLength : Option Nat
  minimum : Option Rat
  maximum : Option Rat
  minItems : Option Nat
  maxItems : Option Nat
  uniqueItems : Bool
  format : Option String

structure Node extends Assertions where
  properties : List (String × Node)
  items : Option Node

section Equality

mutual

/-- `==` of two values: an integer never equals a float, and a map lists its members by key. -/
def eqValue : Json → Json → Bool
  | .null,.null => true
  | .bool a,.bool b => a == b
  | .int a,.int b => a == b
  | .float a,.float b => a == b
  | .str a,.str b => a == b
  | .arr a,.arr b => eqItems a b
  | .obj a,.obj b => eqFields a b
  | _,_ => false

def eqItems : List Json → List Json → Bool
  | [],[] => true
  | a :: as,b :: bs => eqValue a b && eqItems as bs
  | _,_ => false

def eqFields : List (String × Json) → List (String × Json) → Bool
  | [],[] => true
  | (k,a) :: as,(l,b) :: bs => k == l && eqValue a b && eqFields as bs
  | _,_ => false

end

mutual

theorem eqValue_iff (a b : Json) : eqValue a b = true ↔ a = b := by
  cases a with
  | arr as => cases b <;> simp [eqValue,eqItems_iff as]
  | obj as => cases b <;> simp [eqValue,eqFields_iff as]
  | _ => cases b <;> simp [eqValue]

theorem eqItems_iff (as bs : List Json) : eqItems as bs = true ↔ as = bs := by
  cases as with
  | nil => cases bs <;> simp [eqItems]
  | cons a as => cases bs <;> simp [eqItems,eqValue_iff a,eqItems_iff as]

theorem eqFields_iff (as bs : List (String × Json)) : eqFields as bs = true ↔ as = bs := by
  match as,bs with
  | [],[] | [],_ :: _ | _ :: _,[] => simp [eqFields]
  | (k,a) :: as,(l,b) :: bs => simp [eqFields,eqValue_iff a,eqFields_iff as]

end

end Equality

section Numbers

/-- An integer literal that fits neither `i64` nor `u64` is a float once it is parsed. -/
def isInteger (n : Int) : Bool := decide (-2 ^ 63 ≤ n ∧ n < 2 ^ 64)

def asU64 : Json → Option Nat
  | .int n => if 0 ≤ n ∧ n < 2 ^ 64 then some n.toNat else none
  | _ => none

/-- The double nearest to a natural number, ties to the even significand. -/
def nearest (m : Nat) : Rat :=
  if m ≤ 2 ^ 53 then m
  else
    let unit := 2 ^ (m.log2 - 52)
    let down := m / unit
    let rest := 2 * (m % unit)
    if rest < unit ∨ rest = unit ∧ down % 2 = 0 then ((down * unit : Nat) : Rat)
    else (((down + 1) * unit : Nat) : Rat)

def f64OfInt (n : Int) : Rat := if 0 ≤ n then nearest n.toNat else -nearest (-n).toNat

def asF64 : Json → Option Rat
  | .int n => some (f64OfInt n)
  | .float x => some x
  | _ => none

def asBool : Json → Option Bool
  | .bool b => some b
  | _ => none

def asArray : Json → Option (List Json)
  | .arr items => some items
  | _ => none

theorem nearest_exact {m : Nat} (small : m ≤ 2 ^ 53) : nearest m = m := if_pos small

theorem f64OfInt_exact {n : Int} (small : n.natAbs ≤ 2 ^ 53) : f64OfInt n = n := by
  unfold f64OfInt
  split
  next positive =>
    rw [nearest_exact (by omega)]
    exact_mod_cast Int.toNat_of_nonneg positive
  next negative =>
    rw [nearest_exact (by omega)]
    have back : ((-n).toNat : Int) = -n := Int.toNat_of_nonneg (by omega)
    have cast : (((-n).toNat : Nat) : Rat) = -(n : Rat) := by exact_mod_cast back
    rw [cast,neg_neg]

end Numbers

section Compile

variable (e : Engine)

def unsupported (path : String) (fields : List (String × Json)) : Option String :=
  (fields.find? (fun field => !supported.contains field.1)).map (fun field =>
    s!"{path}: unsupported schema keyword `" ++ field.1 ++ "` — see memory::schema::SUPPORTED")

/-- An entry of `type` or `required`. -/
def entry (path keyword : String) : Json → Except String String
  | .str t => .ok t
  | _ => .error (s!"{path}: `" ++ keyword ++ "` entries must be strings")

def entries (path keyword : String) (items : List Json) : Except String (List String) :=
  items.mapM (entry path keyword)

def compileTypes (path : String) : Option Json → Except String (List String)
  | none => .ok []
  | some (.str t) => .ok [t]
  | some (.arr ts) => entries path "type" ts
  | some _ => .error s!"{path}: `type` must be a string or an array"

def compileRequired (path : String) : Option Json → Except String (List String)
  | none => .ok []
  | some (.arr items) => entries path "required" items
  | some _ => .error s!"{path}: `required` must be an array"

def compilePattern (path : String) : Option Json → Except String (Option String)
  | none => .ok none
  | some (.str p) =>
    match e.regex p with
    | .ok () => .ok (some p)
    | .error error => .error s!"{path}: invalid `pattern` regex: {error}"
  | some _ => .error s!"{path}: `pattern` must be a string"

def compileFormat (path : String) : Option Json → Except String (Option String)
  | none => .ok none
  | some (.str f) =>
    if supportedFormats.contains f then .ok (some f)
    else .error (s!"{path}: unsupported `format` `" ++ f ++ "` — supported: "
      ++ ", ".intercalate supportedFormats)
  | some _ => .error s!"{path}: `format` must be a string"

/-- The keywords that are read without a check of their form: another form is as good as none. -/
def assertions (fields : List (String × Json)) (types required : List String) (pattern format : Option String) :
    Assertions where
  types := types
  required := required
  additionalProperties := ((fields.lookup "additionalProperties").bind asBool).getD true
  enumeration := (fields.lookup "enum").bind asArray
  constant := fields.lookup "const"
  pattern := pattern
  minLength := (fields.lookup "minLength").bind asU64
  maxLength := (fields.lookup "maxLength").bind asU64
  minimum := (fields.lookup "minimum").bind asF64
  maximum := (fields.lookup "maximum").bind asF64
  minItems := (fields.lookup "minItems").bind asU64
  maxItems := (fields.lookup "maxItems").bind asU64
  uniqueItems := ((fields.lookup "uniqueItems").bind asBool).getD false
  format := format

mutual

def compileNode : Json → String → Except String Node
  | .obj fields,path =>
    match unsupported path fields with
    | some error => .error error
    | none => do
      let types ← compileTypes path (fields.lookup "type")
      let properties ← compileProperties fields path
      let required ← compileRequired path (fields.lookup "required")
      let pattern ← compilePattern e path (fields.lookup "pattern")
      let format ← compileFormat path (fields.lookup "format")
      let items ← compileItems fields path
      return ⟨assertions fields types required pattern format,properties,items⟩
  | _,path => .error s!"{path}: a schema must be an object"

/-- `obj.get("properties")` and the loop over its members. -/
def compileProperties : List (String × Json) → String → Except String (List (String × Node))
  | [],_ => .ok []
  | (key,.obj props) :: fields,path =>
    if key = "properties" then compileMembers props path else compileProperties fields path
  | (key,_) :: fields,path =>
    if key = "properties" then .error s!"{path}: `properties` must be an object"
    else compileProperties fields path

def compileMembers : List (String × Json) → String → Except String (List (String × Node))
  | [],_ => .ok []
  | (name,sub) :: props,path => do
    let node ← compileNode sub s!"{path}/{name}"
    let rest ← compileMembers props path
    return (name,node) :: rest

/-- `obj.get("items")`. -/
def compileItems : List (String × Json) → String → Except String (Option Node)
  | [],_ => .ok none
  | (key,sub) :: fields,path =>
    if key = "items" then (compileNode sub s!"{path}/items").map some else compileItems fields path

end

def compile (schema : Json) : Except String Node := compileNode e schema "#"

end Compile

section Check

variable (e : Engine)

/-- `""` is the document root. -/
def at' (path : String) : String :=
  if path = "" then "<root>" else String.ofList (path.toList.dropWhile (· == '.'))

def typeName : Json → String
  | .null => "null"
  | .bool _ => "boolean"
  | .int n => if isInteger n then "integer" else "number"
  | .float _ => "number"
  | .str _ => "string"
  | .arr _ => "array"
  | .obj _ => "object"

def isNumber : Json → Bool
  | .int _ | .float _ => true
  | _ => false

def typeMatches (expected : String) (value : Json) : Bool :=
  match expected with
  | "number" => isNumber value
  | "integer" => match value with
    | .int n => isInteger n
    | _ => false
  | other => other == typeName value

def render : Json → String
  | .str s => s!"`{s}`"
  | other => s!"`" ++ e.text other ++ "`"

def formatOk (format s : String) : Bool :=
  match format with
  | "date-time" => e.parseFromRfc3339 s
  | "date" => e.parseDate s
  | "uuid" => e.parseUuid s
  | "uri" => decide ("://".toList <:+: s.toList) && !s.toList.any isWhitespace
  | _ => true

/-- The error of an assertion that the node holds and the value breaks. -/
def broken {A : Type} (assertion : Option A) (breaks : A → Bool) (error : A → String) : List String :=
  match assertion with
  | some a => if breaks a then [error a] else []
  | none => []

def checkString (node : Assertions) (s path : String) : List String :=
  let len := s.length
  broken node.minLength (fun min => len < min) (fun min => at' path ++ s!": must be at least {min} characters") ++
  broken node.maxLength (fun max => max < len) (fun max => at' path ++ s!": must be at most {max} characters") ++
  broken node.pattern (fun re => !e.isMatch re s) (fun re => at' path ++ s!": must match /{re}/") ++
  broken node.format (fun format => !formatOk e format s) (fun format => at' path ++ s!": not a valid {format}")

def checkNumber (node : Assertions) (n : Rat) (path : String) : List String :=
  broken node.minimum (fun min => n < min) (fun min => at' path ++ ": must be >= " ++ e.float min) ++
  broken node.maximum (fun max => max < n) (fun max => at' path ++ ": must be <= " ++ e.float max)

/-- The first item that stands before itself: the loop over the items with the slice before each. -/
def firstDuplicate : List Json → List Json → Option Json
  | _,[] => none
  | before,item :: items =>
    if before.any (eqValue item) then some item else firstDuplicate (before ++ [item]) items

def checkUnique (node : Assertions) (items : List Json) (path : String) : List String :=
  if node.uniqueItems then
    match firstDuplicate [] items with
    | some item => [at' path ++ ": duplicate item " ++ render e item]
    | none => []
  else []

def checkArray (node : Assertions) (items : List Json) (path : String) : List String :=
  broken node.minItems (fun min => items.length < min) (fun min => at' path ++ s!": must have at least {min} items") ++
  broken node.maxItems (fun max => max < items.length) (fun max => at' path ++ s!": must have at most {max} items") ++
  checkUnique e node items path

def checkEnum (node : Assertions) (value : Json) (path : String) : List String :=
  broken node.enumeration (fun allowed => !allowed.any (eqValue value)) (fun allowed =>
    at' path ++ ": must be one of " ++ ", ".intercalate (allowed.map (render e)))

def checkConst (node : Assertions) (value : Json) (path : String) : List String :=
  broken node.constant (fun expected => !eqValue value expected) (fun expected =>
    at' path ++ ": must be " ++ render e expected)

def checkRequired (node : Assertions) (members : List (String × Json)) (path : String) : List String :=
  (node.required.filter (fun name => (members.lookup name).isNone)).map (fun name =>
    at' path ++ ": missing required field `" ++ name ++ "`")

def checkUnknown (node : Assertions) (known : List String) (members : List (String × Json)) (path : String) :
    List String :=
  if node.additionalProperties then []
  else (members.filter (fun member => !known.contains member.1)).map (fun member =>
    at' path ++ ": unknown field `" ++ member.1 ++ "`")

mutual

def check : Node → Json → String → List String
  | ⟨node,properties,items⟩,value,path =>
    if !node.types.isEmpty && !node.types.any (fun t => typeMatches t value) then
      -- every remaining assertion assumes the type
      [at' path ++ ": expected " ++ " or ".intercalate node.types ++ ", got " ++ typeName value]
    else
      checkEnum e node value path ++ checkConst e node value path ++
      match value with
      | .str s => checkString e node s path
      | .int n => checkNumber e node (f64OfInt n) path
      | .float x => checkNumber e node x path
      | .arr values => checkArray e node values path ++ checkItems items values path
      | .obj members => checkRequired node members path ++ checkProperties properties members path ++
          checkUnknown node (properties.map Prod.fst) members path
      | _ => []

def checkProperties : List (String × Node) → List (String × Json) → String → List String
  | [],_,_ => []
  | (name,sub) :: properties,members,path =>
    (match members.lookup name with
      | some child => check sub child s!"{path}.{name}"
      | none => []) ++ checkProperties properties members path

def checkItems : Option Node → List Json → String → List String
  | none,_,_ => []
  | some sub,values,path => values.zipIdx.flatMap (fun item => check sub item.1 (path ++ s!"[{item.2}]"))

end

def validate (node : Node) (value : Json) : List String := check e node value ""

end Check

end Ecphoria.Schema
