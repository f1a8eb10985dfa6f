import Ecphoria.Library.Grouping
import Ecphoria.Memory.SchemaMeaning

/-! A compiled node finds no violation exactly in the values that meet the schema as the validator
reads it. Each check is read on its own, then the recursion by induction on the schema. -/
namespace Ecphoria.Schema
open Library

variable {e : Engine} {path : String}

theorem broken_nil {A : Type} {assertion : Option A} {breaks : A → Bool} {error : A → String} :
    broken assertion breaks error = [] ↔ ∀ a, assertion = some a → breaks a = false := by
  cases assertion <;> simp [broken]

section Parts

variable {node : Assertions}

theorem checkString_nil {s : String} : checkString e node s path = [] ↔
    (∀ n, node.minLength = some n → n ≤ s.length) ∧ (∀ n, node.maxLength = some n → s.length ≤ n) ∧
    (∀ p, node.pattern = some p → e.isMatch p s = true) ∧ ∀ f, node.format = some f → formatOk e f s = true := by
  simp only [checkString,List.append_eq_nil_iff,broken_nil,decide_eq_false_iff_not,not_lt,Bool.not_eq_false',and_assoc]

theorem checkNumber_nil {n : Rat} : checkNumber e node n path = [] ↔
    (∀ m, node.minimum = some m → m ≤ n) ∧ ∀ m, node.maximum = some m → n ≤ m := by
  simp only [checkNumber,List.append_eq_nil_iff,broken_nil,decide_eq_false_iff_not,not_lt]

theorem firstDuplicate_none {before items : List Json} : firstDuplicate before items = none ↔
    (∀ a ∈ before, ∀ b ∈ items, b ≠ a) ∧ items.Pairwise (fun a b => b ≠ a) := by
  induction items generalizing before with
  | nil => simp [firstDuplicate]
  | cons item items ih =>
    have seen : before.any (eqValue item) = true ↔ item ∈ before := by simp [eqValue_iff]
    rw [firstDuplicate]
    split
    next found =>
      simp only [reduceCtorEq,false_iff,not_and]
      intro apart
      exact absurd rfl (apart item (seen.mp found) item List.mem_cons_self)
    next fresh =>
      rw [ih]
      have new : ∀ a ∈ before, item ≠ a := by
        rintro a member rfl
        exact fresh (seen.mpr member)
      simp only [List.mem_append,List.mem_singleton,List.forall_mem_cons,List.pairwise_cons]
      constructor
      · rintro ⟨apart,unique⟩
        exact ⟨fun a member => ⟨new a member,apart a (.inl member)⟩,apart item (.inr rfl),unique⟩
      · rintro ⟨apart,first,unique⟩
        refine ⟨?_,unique⟩
        rintro a (member | rfl)
        · exact (apart a member).2
        · exact first

theorem checkUnique_nil {items : List Json} : checkUnique e node items path = [] ↔
    (node.uniqueItems = true → items.Pairwise (fun a b => b ≠ a)) := by
  have distinct : firstDuplicate [] items = none ↔ _ := firstDuplicate_none
  unfold checkUnique
  split
  next on => cases found : firstDuplicate [] items <;> simp_all
  next off => simp [off]

theorem checkArray_nil {items : List Json} : checkArray e node items path = [] ↔
    (∀ n, node.minItems = some n → n ≤ items.length) ∧ (∀ n, node.maxItems = some n → items.length ≤ n) ∧
    (node.uniqueItems = true → items.Pairwise (fun a b => b ≠ a)) := by
  simp only [checkArray,List.append_eq_nil_iff,broken_nil,decide_eq_false_iff_not,not_lt,checkUnique_nil,and_assoc]

theorem checkEnum_nil {value : Json} :
    checkEnum e node value path = [] ↔ ∀ allowed, node.enumeration = some allowed → value ∈ allowed := by
  simp [checkEnum,broken_nil,eqValue_iff]

theorem checkConst_nil {value : Json} :
    checkConst e node value path = [] ↔ ∀ expected, node.constant = some expected → value = expected := by
  simp [checkConst,broken_nil,eqValue_iff]

theorem checkRequired_nil {members : List (String × Json)} :
    checkRequired node members path = [] ↔ ∀ name ∈ node.required, (members.lookup name).isSome := by
  simp [checkRequired]

theorem checkUnknown_nil {known : List String} {members : List (String × Json)} :
    checkUnknown node known members path = [] ↔
      (node.additionalProperties = false → ∀ member ∈ members, member.1 ∈ known) := by
  cases allowed : node.additionalProperties <;> simp [checkUnknown,allowed]

theorem typed_iff {types : List String} {value : Json} :
    (!types.isEmpty && !types.any (fun t => typeMatches t value)) = false ↔
      types = [] ∨ ∃ t ∈ types, typeMatches t value = true := by
  simp [← List.any_eq_true,or_iff_not_imp_left]

end Parts

section Recursion

variable {r : Reading}

theorem checkProperties_nil {props : List (String × Json)} {nodes : List (String × Node)}
    {members : List (String × Json)}
    (children : List.Forall₂ (fun prop node => prop.1 = node.1 ∧
      ∀ v p, check e node.2 v p = [] ↔ Meets r prop.2 v) props nodes) :
    checkProperties e nodes members path = [] ↔
      ∀ prop ∈ props, ∀ child, members.lookup prop.1 = some child → Meets r prop.2 child := by
  induction children with
  | nil => simp [checkProperties]
  | @cons prop node props nodes first rest ih =>
    obtain ⟨name,sub⟩ := node
    obtain ⟨named,exact⟩ := first
    change prop.1 = name at named
    subst named
    rw [checkProperties,List.append_eq_nil_iff,ih,List.forall_mem_cons]
    refine and_congr ?_ Iff.rfl
    cases members.lookup prop.1 with
    | none => simp
    | some child => simpa using exact child _

theorem checkItems_nil {sub : Node} {S : Json} (exact : ∀ v p, check e sub v p = [] ↔ Meets r S v)
    {values : List Json} : checkItems e (some sub) values path = [] ↔ ∀ v ∈ values, Meets r S v := by
  simp only [checkItems,List.flatMap_eq_nil_iff,exact]
  constructor
  · intro all v member
    obtain ⟨i,inside,rfl⟩ := List.getElem_of_mem member
    exact all (values[i],i) (by simp [List.mk_mem_zipIdx_iff_getElem?,inside])
  · rintro all ⟨v,i⟩ member
    exact all v (List.mem_of_getElem? (List.mk_mem_zipIdx_iff_getElem?.mp member))

theorem gated_nil {gate : Bool} {error : String} {errors : List String} :
    (if gate = true then [error] else errors) = [] ↔ gate = false ∧ errors = [] := by
  cases gate <;> simp

section Held

variable {fields : List (String × Json)} {key : String}

theorem asArray_iff {allowed : List Json} :
    (fields.lookup key).bind asArray = some allowed ↔ fields.lookup key = some (.arr allowed) := by
  cases fields.lookup key with
  | none => simp
  | some v => cases v <;> simp [asArray]

theorem asBool_on : ((fields.lookup key).bind asBool).getD false = true ↔ fields.lookup key = some (.bool true) := by
  cases fields.lookup key with
  | none => simp
  | some v => cases v <;> simp [asBool]

theorem asBool_off : ((fields.lookup key).bind asBool).getD true = false ↔ fields.lookup key = some (.bool false) := by
  cases fields.lookup key with
  | none => simp
  | some v => cases v <;> simp [asBool]

structure Held (fields : List (String × Json)) (own : Assertions) : Prop where
  types : own.types = typeNames (fields.lookup "type")
  required : own.required = strings (fields.lookup "required")
  additional : own.additionalProperties = false ↔ fields.lookup "additionalProperties" = some (.bool false)
  enumeration : ∀ allowed, own.enumeration = some allowed ↔ fields.lookup "enum" = some (.arr allowed)
  constant : own.constant = fields.lookup "const"
  pattern : ∀ p, own.pattern = some p ↔ fields.lookup "pattern" = some (.str p)
  minLength : own.minLength = (fields.lookup "minLength").bind asU64
  maxLength : own.maxLength = (fields.lookup "maxLength").bind asU64
  minimum : own.minimum = (fields.lookup "minimum").bind asF64
  maximum : own.maximum = (fields.lookup "maximum").bind asF64
  minItems : own.minItems = (fields.lookup "minItems").bind asU64
  maxItems : own.maxItems = (fields.lookup "maxItems").bind asU64
  unique : own.uniqueItems = true ↔ fields.lookup "uniqueItems" = some (.bool true)
  format : ∀ f, own.format = some f ↔ fields.lookup "format" = some (.str f)

theorem Compiled.held {node : Node} (compiled : Compiled e fields node) : Held fields node.toAssertions where
  types := congrArg Assertions.types compiled.own
  required := congrArg Assertions.required compiled.own
  additional := (iff_of_eq (congrArg (·.additionalProperties = false) compiled.own)).trans asBool_off
  enumeration allowed := (iff_of_eq (congrArg (·.enumeration = some allowed) compiled.own)).trans asArray_iff
  constant := congrArg Assertions.constant compiled.own
  pattern := compiled.pattern
  minLength := congrArg Assertions.minLength compiled.own
  maxLength := congrArg Assertions.maxLength compiled.own
  minimum := congrArg Assertions.minimum compiled.own
  maximum := congrArg Assertions.maximum compiled.own
  minItems := congrArg Assertions.minItems compiled.own
  maxItems := congrArg Assertions.maxItems compiled.own
  unique := (iff_of_eq (congrArg (·.uniqueItems = true) compiled.own)).trans asBool_on
  format := compiled.format

theorem Compiled.names {node : Node} (compiled : Compiled e fields node) :
    node.properties.map Prod.fst = (propertySchemas fields).map Prod.fst := by
  have pairs := compiled.properties
  generalize propertySchemas fields = props,node.properties = nodes at pairs ⊢
  induction pairs with
  | nil => rfl
  | cons first _ ih => rw [List.map_cons,List.map_cons,ih,first.1]

end Held

theorem check_nil {S : Json} {node : Node} {at' : String} (ok : compileNode e S at' = .ok node) (value : Json)
    (path : String) : check e node value path = [] ↔ Meets (validator e) S value := by
  induction S using schema_induction generalizing node at' value path with
  | step S ih =>
    obtain ⟨fields,rfl,compiled⟩ := compileNode_ok ok
    obtain ⟨ofProperty,ofItems⟩ := ih fields rfl
    clear ih ok
    have children : List.Forall₂ (fun prop sub => prop.1 = sub.1 ∧
        ∀ v p, check e sub.2 v p = [] ↔ Meets (validator e) prop.2 v) (propertySchemas fields) node.properties := by
      apply forall₂_of_mem compiled.properties
      rintro prop listed sub ⟨named,at',made⟩
      exact ⟨named,ofProperty prop listed made⟩
    have elements (values : List Json) (path : String) : checkItems e node.items values path = [] ↔
        ∀ sub, fields.lookup "items" = some sub → ∀ item ∈ values, Meets (validator e) sub item := by
      have related := compiled.items
      generalize node.items = items at related ⊢
      cases found : fields.lookup "items" with
      | none =>
        rw [found] at related
        cases related
        simp [checkItems]
      | some T =>
        rw [found] at related
        cases related with
        | some made =>
          obtain ⟨at',made⟩ := made
          simp [checkItems_nil (ofItems T found made)]
    have held := compiled.held
    have names := compiled.names
    obtain ⟨own,properties,items⟩ := node
    dsimp only at held names children elements
    rw [meets_schema,asserts_iff]
    have own_nil (value : Json) : checkEnum e own value path = [] ∧ checkConst e own value path = [] ↔
        (∀ allowed, fields.lookup "enum" = some (.arr allowed) → ∃ a ∈ allowed, value = a) ∧
        ∀ expected, fields.lookup "const" = some expected → value = expected := by
      simp only [checkEnum_nil,checkConst_nil,held.enumeration,held.constant,exists_eq_right']
    cases value with
    | null | bool b =>
      simp only [check,gated_nil,typed_iff,List.append_eq_nil_iff,own_nil,held.types]
      simp only [validator,asF64,reduceCtorEq,false_implies,implies_true,and_true]
    | int n | float x =>
      simp only [check,gated_nil,typed_iff,List.append_eq_nil_iff,own_nil,held.types,checkNumber_nil,held.minimum,
        held.maximum]
      simp only [validator,asF64,reduceCtorEq,false_implies,implies_true,and_true,true_and,Option.some.injEq,
        forall_eq',and_assoc]
    | str s =>
      simp only [check,gated_nil,typed_iff,List.append_eq_nil_iff,own_nil,held.types,checkString_nil,held.minLength,
        held.maxLength,held.pattern,held.format]
      simp only [validator,asF64,reduceCtorEq,false_implies,implies_true,and_true,Json.str.injEq,
        forall_eq',and_assoc]
    | arr values =>
      simp only [check,gated_nil,typed_iff,List.append_eq_nil_iff,own_nil,held.types,checkArray_nil,held.minItems,
        held.maxItems,held.unique,elements]
      simp only [validator,asF64,reduceCtorEq,false_implies,implies_true,and_true,true_and,Json.arr.injEq,
        forall_eq',and_assoc]
    | obj members =>
      simp only [check,gated_nil,typed_iff,List.append_eq_nil_iff,own_nil,held.types,checkRequired_nil,
        checkProperties_nil children,checkUnknown_nil,held.required,held.additional,names]
      simp only [validator,asF64,reduceCtorEq,false_implies,implies_true,and_true,true_and,Json.obj.injEq,
        forall_eq',and_assoc]
      -- the code looks for unknown members after the members that have a schema
      exact and_congr Iff.rfl (and_congr Iff.rfl (and_congr Iff.rfl (and_congr Iff.rfl and_comm)))

end Recursion

end Ecphoria.Schema
