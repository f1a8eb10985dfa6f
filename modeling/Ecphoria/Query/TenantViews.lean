import Ecphoria.Query.Literals
import Ecphoria.Cluster.Shards
import Ecphoria.Library.Outputs

/-! The SQL of a tenant. Its tables are renamed to views of its own rows, which are made once for a tenant, and what a query
reads through them is a matter of these rows and of nothing else that belongs to a tenant. -/
namespace Ecphoria.Query
open Library

/-- A relation as a statement names it, the outermost identifier first. -/
abbrev ObjectName := List String

/-- The parser and the database. An answer is the rows of a text over what the names stand for. -/
structure SqlLibrary where
  Stmt : Type
  parse : String → Except String (List Stmt)
  isQuery : Stmt → Bool
  relations : Stmt → List ObjectName
  functions : Stmt → List ObjectName
  rename : (ObjectName → ObjectName) → Stmt → Stmt
  print : Stmt → String
  answer : (ObjectName → List Json) → String → Except String (List Json)

/-- `to_ascii_lowercase` -/
def asciiLower (s : String) : String := String.ofList (s.toList.map Char.toLower)

/-- The tables of a store that have a tenant: their views are told apart by the table. -/
structure OwnedTables where
  names : List String
  apart : ∀ a ∈ names, ∀ b ∈ names, (a ++ "__t_").toList <+: (b ++ "__t_").toList → a = b
  lower : ∀ a ∈ names, asciiLower (a ++ "__t_") = a ++ "__t_"

def episodicTables : OwnedTables := ⟨["episodic","sessions"],by decide,by decide⟩

def cognitionTables : OwnedTables :=
  ⟨["memories","memory_edges","memory_grants","memory_attachments"],by decide,by decide⟩

def forbiddenSqlFunctions : List String :=
  ["read_text","read_blob","read_csv","read_csv_auto","read_json","read_json_auto","read_json_objects","read_ndjson",
    "read_ndjson_auto","read_ndjson_objects","read_parquet","read_xlsx","parquet_scan","parquet_metadata","parquet_schema",
    "parquet_file_metadata","parquet_kv_metadata","csv_sniff","sniff_csv","glob"]

def isForbiddenSqlFunction (name : String) : Bool := forbiddenSqlFunctions.contains (asciiLower name)

def forbiddenName (name : ObjectName) : Bool := name.getLast?.any isForbiddenSqlFunction

def hexWord (h : UInt64) : List Char := (List.range 16).map (fun i => Uuid.hexDigit (h.toNat / 16 ^ (15 - i)))

def sanitized (tenant : String) : List Char :=
  (tenant.toList.map (fun c => if c.isAlphanum then c.toLower else '_')).take 40

/-- What a view name has of the tenant: its letters and digits, and the hash of all of it. -/
def viewSuffix (tenant : String) : String := String.ofList (sanitized tenant ++ '_' :: hexWord (shardHash tenant))

def tenantScopedViewName (table tenant : String) : String := table ++ "__t_" ++ viewSuffix tenant

def lastName (name : ObjectName) : String := (name.getLast?.map asciiLower).getD ""

def internalView (owned : OwnedTables) (last : String) : Bool := owned.names.any (fun b => (b ++ "__t_").toList.isPrefixOf last.toList)

def scopeName (owned : OwnedTables) (tenant : String) (name : ObjectName) : Option ObjectName :=
  if owned.names.contains (lastName name) then some [tenantScopedViewName (lastName name) tenant]
  else if internalView owned (lastName name) then none
  else some name

section
variable (lib : SqlLibrary) (owned : OwnedTables)

def validateReadOnly (sql : String) : Except String Unit :=
  match lib.parse sql with
  | .error e => .error ("SQL parse error: " ++ e)
  | .ok [] => .error "empty SQL statement"
  | .ok stmts =>
    match stmts.find? (fun s => !lib.isQuery s) with
    | some other => .error ("only SELECT queries are allowed, got: " ++ lib.print other)
    | none =>
      if stmts.any (fun s => (lib.relations s).any forbiddenName || (lib.functions s).any forbiddenName) then
        .error "SQL function is not permitted (filesystem/network access is disabled)"
      else .ok ()

def rescoped (tenant : String) (s : lib.Stmt) : lib.Stmt := lib.rename (fun name => (scopeName owned tenant name).getD name) s

def joined (stmts : List lib.Stmt) : String := String.intercalate "; " (stmts.map lib.print)

/-- `scope_sql_to_view` and `scope_tables`, over the tables of the store. -/
def scopeTables (sql tenant : String) : Except String String :=
  match lib.parse sql with
  | .error e => .error ("SQL parse error (tenant scope): " ++ e)
  | .ok [] => .error "empty SQL statement"
  | .ok stmts =>
    if stmts.any (fun s => (lib.relations s).any (fun name => (scopeName owned tenant name).isNone)) then
      .error "reference to an internal per-tenant view is not permitted"
    else .ok (joined lib (stmts.map (rescoped lib owned tenant)))

end

structure SqlRow where
  tenant : String
  row : Json

abbrev Views := String → Option (String × List Char)

/-- A store as SQL sees it: the tables with a tenant, the views, and what other names stand for. The relations of the
catalogue itself show which views there are. The names of the tenants whose views were made are kept while the process
lives. -/
structure SqlStore where
  tables : String → List SqlRow
  others : Views → ObjectName → List Json
  views : Views
  created : List String

def undoubled : List Char → List Char
  | '\'' :: '\'' :: rest => '\'' :: undoubled rest
  | c :: rest => c :: undoubled rest
  | [] => []

def ownRows (tables : String → List SqlRow) (table tenant : String) : List Json :=
  ((tables table).filter (fun r => r.tenant = tenant)).map SqlRow.row

namespace SqlStore

def plain (owned : OwnedTables) (s : SqlStore) (name : ObjectName) : List Json :=
  if owned.names.contains (lastName name) then (s.tables (lastName name)).map SqlRow.row else s.others s.views name

def catalog (owned : OwnedTables) (s : SqlStore) (name : ObjectName) : List Json :=
  match name with
  | [v] =>
    match s.views v with
    | some (table,literal) => ownRows s.tables table (String.ofList (undoubled literal))
    | none => s.plain owned name
  | _ => s.plain owned name

def withView (tenant : String) (s : SqlStore) (table : String) : SqlStore :=
  let view := tenantScopedViewName table tenant
  { s with views := fun v => if v = view then some (table,doubled tenant.toList) else s.views v }

def makeViews (s : SqlStore) (tenant : String) (tables : List String) : SqlStore := tables.foldl (withView tenant) s

/-- The views of a tenant are made once; the database may refuse to go on after some. -/
def ensureViews (owned : OwnedTables) (s : SqlStore) (tenant : String) (refused : Option (Nat × String)) :
    Except String Unit × SqlStore :=
  if s.created.contains tenant then (.ok (),s)
  else
    match refused with
    | some (made,e) => (.error ("create tenant view: " ++ e),s.makeViews tenant (owned.names.take made))
    | none =>
      let s := s.makeViews tenant owned.names
      (.ok (),{ s with created := tenant :: s.created })

section
variable (lib : SqlLibrary) (owned : OwnedTables)

/-- `query_sql_limited`, over what the names stand for. -/
def limited (catalog : ObjectName → List Json) (sql : String) (maxRows : Nat) : Except String (List Json) := do
  validateReadOnly lib sql
  let rows ← lib.answer catalog sql
  return rows.take maxRows

/-- `query_sql_for_tenant` of the store of events: scoped, then given its views, then looked at. -/
def eventQuery (s : SqlStore) (sql tenant : String) (maxRows : Nat) (refused : Option (Nat × String)) :
    Except String (List Json) × SqlStore :=
  match scopeTables lib owned sql tenant with
  | .error e => (.error e,s)
  | .ok rewritten =>
    match s.ensureViews owned tenant refused with
    | (.error e,s) => (.error e,s)
    | (.ok (),s) => (limited lib (s.catalog owned) rewritten maxRows,s)

/-- `query_sql` of the store of memories with a tenant: looked at as it came, then scoped and given its views. -/
def memoryQuery (s : SqlStore) (sql tenant : String) (maxRows : Nat) (refused : Option (Nat × String)) :
    Except String (List Json) × SqlStore :=
  match validateReadOnly lib sql with
  | .error e => (.error e,s)
  | .ok () =>
    match scopeTables lib owned sql tenant with
    | .error e => (.error e,s)
    | .ok rewritten =>
      match s.ensureViews owned tenant refused with
      | (.error e,s) => (.error e,s)
      | (.ok (),s) => ((lib.answer (s.catalog owned) rewritten).map (List.take maxRows),s)

end

end SqlStore

/-- Which of the two stores it is. -/
inductive SqlSide where
  | events
  | memories

def SqlSide.owned : SqlSide → OwnedTables
  | .events => episodicTables
  | .memories => cognitionTables

/-- What befalls a store: its rows change, the process starts again, or a tenant asks and the database makes
its views or refuses. -/
inductive SqlEvent where
  | write (tables : String → List SqlRow) (others : Views → ObjectName → List Json)
  | restart
  | query (tenant sql : String) (maxRows : Nat) (refused : Option (Nat × String))

namespace SqlStore

def query (lib : SqlLibrary) (side : SqlSide) (s : SqlStore) (sql tenant : String) (maxRows : Nat)
    (refused : Option (Nat × String)) : Except String (List Json) × SqlStore :=
  match side with
  | .events => s.eventQuery lib side.owned sql tenant maxRows refused
  | .memories => s.memoryQuery lib side.owned sql tenant maxRows refused

def step (lib : SqlLibrary) (side : SqlSide) (s : SqlStore) : SqlEvent → SqlStore
  | .write tables others => { s with tables := tables,others := others }
  | .restart => { s with created := [] }
  | .query tenant sql maxRows refused => (s.query lib side sql tenant maxRows refused).2

end SqlStore

def ownViews (owned : OwnedTables) (tenant : String) : Views := fun v =>
  (owned.names.find? (fun table => v = tenantScopedViewName table tenant)).map (fun table => (table,doubled tenant.toList))

/-- What a tenant may read: its rows of the tables, under the names of its views, and what belongs to no tenant. -/
def ownCatalog (owned : OwnedTables) (tenant : String) (tables : String → List SqlRow) (others : Views → ObjectName → List Json)
    (name : ObjectName) : List Json :=
  match owned.names.find? (fun table => name = [tenantScopedViewName table tenant]) with
  | some table => ownRows tables table tenant
  | none =>
    if owned.names.contains (lastName name) || internalView owned (lastName name) then [] else others (ownViews owned tenant) name

def ownAnswer (lib : SqlLibrary) (side : SqlSide) (tables : String → List SqlRow) (others : Views → ObjectName → List Json)
    (sql tenant : String) (maxRows : Nat) : Except String (List Json) :=
  match side with
  | .events => do
    let rewritten ← scopeTables lib episodicTables sql tenant
    SqlStore.limited lib (ownCatalog episodicTables tenant tables others) rewritten maxRows
  | .memories => do
    validateReadOnly lib sql
    let rewritten ← scopeTables lib cognitionTables sql tenant
    (lib.answer (ownCatalog cognitionTables tenant tables others) rewritten).map (List.take maxRows)

/-- The parser and the printer agree on what is scoped. -/
structure SqlLibrary.Lawful (lib : SqlLibrary) : Prop where
  relations_rename : ∀ f s, lib.relations (lib.rename f s) = (lib.relations s).map f
  reparse : ∀ owned sql tenant stmts, lib.parse sql = .ok stmts →
    lib.parse (joined lib (stmts.map (rescoped lib owned tenant))) = .ok (stmts.map (rescoped lib owned tenant))

/-- A text reads what it names and nothing else. -/
def SqlLibrary.ReadsNamed (lib : SqlLibrary) (sql : String) : Prop :=
  ∀ stmts, lib.parse sql = .ok stmts → ∀ c d : ObjectName → List Json,
    (∀ s ∈ stmts, ∀ name ∈ lib.relations s, c name = d name) → lib.answer c sql = lib.answer d sql

/-- The text names no relation of the catalogue: what it names shows nothing of the views. -/
def SqlStore.Uncatalogued (lib : SqlLibrary) (s : SqlStore) (sql : String) : Prop :=
  ∀ stmts, lib.parse sql = .ok stmts → ∀ stmt ∈ stmts, ∀ name ∈ lib.relations stmt,
    ∀ v w : Views, s.others v name = s.others w name

def askers : SqlEvent → List String
  | .query tenant _ _ _ => [tenant]
  | _ => []

theorem undoubled_doubled (s : List Char) : undoubled (doubled s) = s := by
  induction s with
  | nil => rfl
  | cons c s ih =>
    rw [doubled_cons]
    split
    next quote =>
      rw [quote]
      exact congrArg (List.cons '\'') ih
    next plain =>
      rw [List.singleton_append,undoubled]
      · rw [ih]
      · rintro rest rfl
        exact absurd rfl plain

theorem hexWord_inj {g h : UInt64} (same : hexWord g = hexWord h) : g = h := by
  refine UInt64.toNat_inj.mp (hexDigits_inj 16 (UInt64.toNat_lt g) (UInt64.toNat_lt h) fun j inside => ?_)
  have digit := List.map_inj_left.mp same (15 - j) (List.mem_range.mpr (by omega))
  have place : 15 - (15 - j) = j := by omega
  rw [place] at digit
  exact Uuid.hexDigit_inj digit

/-- Tenants share the names of their views when their first letters and digits are the same and their hashes collide. -/
theorem viewSuffix_eq_iff {a b : String} :
    viewSuffix a = viewSuffix b ↔ sanitized a = sanitized b ∧ shardHash a = shardHash b := by
  constructor
  · intro same
    have lists := congrArg String.toList same
    simp only [viewSuffix,String.toList_ofList] at lists
    obtain ⟨letters,words⟩ := List.append_inj' lists rfl
    exact ⟨letters,hexWord_inj (List.cons.inj words).2⟩
  · rintro ⟨letters,hashes⟩
    rw [viewSuffix,viewSuffix,letters,hashes]

theorem viewName_toList (table tenant : String) :
    (tenantScopedViewName table tenant).toList = (table ++ "__t_").toList ++ (viewSuffix tenant).toList := by
  rw [tenantScopedViewName,String.toList_append]

section
variable {owned : OwnedTables} {tenant other table : String}

theorem viewName_inj {second : String} (first : table ∈ owned.names) (last : second ∈ owned.names)
    (same : tenantScopedViewName table tenant = tenantScopedViewName second other) :
    table = second ∧ viewSuffix tenant = viewSuffix other := by
  have lists := congrArg String.toList same
  rw [viewName_toList,viewName_toList] at lists
  have one : table = second := by
    rcases List.prefix_or_prefix_of_prefix (List.prefix_append _ _) (lists ▸ List.prefix_append _ _) with front | front
    · exact (owned.apart second last table first front).symm
    · exact owned.apart table first second last front
  subst one
  exact ⟨rfl,String.toList_inj.mp (List.append_cancel_left lists)⟩

theorem asciiLower_toList (s : String) : (asciiLower s).toList = s.toList.map Char.toLower := String.toList_ofList

theorem lastName_view (inside : table ∈ owned.names) (tenant : String) :
    internalView owned (lastName [tenantScopedViewName table tenant]) = true := by
  refine List.any_eq_true.mpr ⟨table,inside,?_⟩
  rw [List.isPrefixOf_iff_prefix]
  have small := congrArg String.toList (owned.lower table inside)
  rw [asciiLower_toList] at small
  change (table ++ "__t_").toList <+: (asciiLower (tenantScopedViewName table tenant)).toList
  rw [asciiLower_toList,viewName_toList,List.map_append,small]
  exact List.prefix_append _ _

end

/-- The views of a store are its own, and a tenant whose views were made has them. -/
structure Viewed (owned : OwnedTables) (asked : List String) (s : SqlStore) : Prop where
  asked : ∀ tenant ∈ s.created, tenant ∈ asked
  made : ∀ tenant ∈ s.created, ∀ table ∈ owned.names,
    s.views (tenantScopedViewName table tenant) = some (table,doubled tenant.toList)
  internal : ∀ v, s.views v ≠ none → internalView owned (lastName [v]) = true

/-- No two of the tenants share the names of their views. -/
def Distinct (tenants : List String) : Prop := ∀ a ∈ tenants, ∀ b ∈ tenants, viewSuffix a = viewSuffix b → a = b

namespace SqlStore
variable {owned : OwnedTables} {s : SqlStore} {tenant : String} {asked : List String}

theorem makeViews_same (s : SqlStore) (tenant : String) (tables : List String) :
    (s.makeViews tenant tables).tables = s.tables ∧ (s.makeViews tenant tables).others = s.others ∧
      (s.makeViews tenant tables).created = s.created := by
  induction tables generalizing s with
  | nil => exact ⟨rfl,rfl,rfl⟩
  | cons table tables ih => exact ih (s.withView tenant table)

theorem makeViews_views (s : SqlStore) (tenant : String) (tables : List String) (v : String) :
    (∃ table ∈ tables,v = tenantScopedViewName table tenant ∧ (s.makeViews tenant tables).views v = some (table,doubled tenant.toList)) ∨
      (∀ table ∈ tables, v ≠ tenantScopedViewName table tenant) ∧ (s.makeViews tenant tables).views v = s.views v := by
  induction tables generalizing s with
  | nil => exact .inr ⟨nofun,rfl⟩
  | cons table tables ih =>
    rcases ih (s.withView tenant table) with ⟨other,inside,named,made⟩ | ⟨unnamed,kept⟩
    · exact .inl ⟨other,List.mem_cons_of_mem table inside,named,made⟩
    · by_cases named : v = tenantScopedViewName table tenant
      · exact .inl ⟨table,List.mem_cons_self,named,kept.trans (if_pos named)⟩
      · exact .inr ⟨List.forall_mem_cons.mpr ⟨named,unnamed⟩,kept.trans (if_neg named)⟩

end SqlStore

namespace Viewed
variable {owned : OwnedTables} {s : SqlStore} {tenant : String} {asked : List String}

theorem makeViews (viewed : Viewed owned asked s) (distinct : Distinct (tenant :: asked)) (new : tenant ∉ s.created)
    {tables : List String} (some : tables ⊆ owned.names) : Viewed owned asked (s.makeViews tenant tables) := by
  obtain ⟨_,_,created⟩ := s.makeViews_same tenant tables
  refine ⟨fun other known => viewed.asked other (created ▸ known),fun other known table inside => ?_,fun v found => ?_⟩
  · rw [created] at known
    rcases s.makeViews_views tenant tables (tenantScopedViewName table other) with ⟨own,listed,named,_⟩ | ⟨_,kept⟩
    · have same := (viewName_inj inside (some listed) named).2
      have one := distinct other (List.mem_cons_of_mem tenant (viewed.asked other known)) tenant List.mem_cons_self same
      exact absurd (one ▸ known) new
    · rw [kept]
      exact viewed.made other known table inside
  · rcases s.makeViews_views tenant tables v with ⟨own,listed,named,_⟩ | ⟨_,kept⟩
    · rw [named]
      exact lastName_view (some listed) tenant
    · exact viewed.internal v (kept ▸ found)

theorem mono (viewed : Viewed owned asked s) (more : List String) : Viewed owned (asked ++ more) s :=
  { viewed with asked := fun other known => List.mem_append_left more (viewed.asked other known) }

theorem ensured (viewed : Viewed owned asked s) (distinct : Distinct (tenant :: asked)) (refused : Option (Nat × String)) :
    Viewed owned (asked ++ [tenant]) (s.ensureViews owned tenant refused).2 ∧
      (s.ensureViews owned tenant refused).2.tables = s.tables ∧ (s.ensureViews owned tenant refused).2.others = s.others ∧
      ((s.ensureViews owned tenant refused).1 = .ok () → tenant ∈ (s.ensureViews owned tenant refused).2.created) := by
  unfold SqlStore.ensureViews
  split
  next known => exact ⟨viewed.mono [tenant],rfl,rfl,fun _ => by simpa using known⟩
  next new =>
    have unknown : tenant ∉ s.created := by simpa using new
    cases refused with
    | some cut =>
      obtain ⟨made,e⟩ := cut
      obtain ⟨tables,others,_⟩ := s.makeViews_same tenant (owned.names.take made)
      exact ⟨(viewed.makeViews distinct unknown (List.take_subset made owned.names)).mono [tenant],tables,others,nofun⟩
    | none =>
      obtain ⟨tables,others,created⟩ := s.makeViews_same tenant owned.names
      have kept := viewed.makeViews distinct unknown (List.Subset.refl owned.names)
      refine ⟨⟨?_,?_,kept.internal⟩,tables,others,fun _ => List.mem_cons_self⟩
      · intro other listed
        rcases List.mem_cons.mp listed with rfl | before
        · exact List.mem_append_right _ (List.mem_singleton_self other)
        · exact List.mem_append_left _ (viewed.asked other (created ▸ before))
      · intro other listed table inside
        rcases List.mem_cons.mp listed with rfl | before
        · rcases s.makeViews_views other owned.names (tenantScopedViewName table other) with ⟨own,there,named,made⟩ | ⟨unnamed,_⟩
          · have one : table = own := (viewName_inj inside there named).1
            rw [one] at made ⊢
            exact made
          · exact absurd rfl (unnamed table inside)
        · exact kept.made other before table inside

theorem catalog (viewed : Viewed owned asked s) (known : tenant ∈ s.created) {name renamed : ObjectName}
    (allowed : scopeName owned tenant name = some renamed) (shown : ∀ v w : Views, s.others v name = s.others w name) :
    s.catalog owned renamed = ownCatalog owned tenant s.tables s.others renamed := by
  unfold scopeName at allowed
  split at allowed
  next inside =>
    obtain rfl := Option.some_inj.mp allowed
    have listed : lastName name ∈ owned.names := by simpa using inside
    have made := viewed.made tenant known (lastName name) listed
    unfold ownCatalog
    split
    next table found =>
      have named : tenantScopedViewName (lastName name) tenant = tenantScopedViewName table tenant := by
        simpa using List.find?_some found
      have one : lastName name = table := (viewName_inj listed (List.mem_of_find?_eq_some found) named).1
      rw [one] at made ⊢
      simp only [SqlStore.catalog,made,undoubled_doubled,String.ofList_toList]
    next missing =>
      have none := List.find?_eq_none.mp missing (lastName name) listed
      simp at none
  next outside =>
    split at allowed
    next => cases allowed
    next plain =>
      obtain rfl := Option.some_inj.mp allowed
      have own : s.plain owned name = s.others (ownViews owned tenant) name := by
        rw [SqlStore.plain,if_neg outside,shown s.views]
      have read : s.catalog owned name = s.others (ownViews owned tenant) name := by
        unfold SqlStore.catalog
        split
        next v =>
          cases view : s.views v with
          | none => exact own
          | some made => exact absurd (viewed.internal v (by simp [view])) (by simpa using plain)
        next => exact own
      rw [read,ownCatalog]
      split
      next table found =>
        have named : name = [tenantScopedViewName table tenant] := by simpa using List.find?_some found
        exact absurd (named ▸ lastName_view (List.mem_of_find?_eq_some found) tenant) (by simpa using plain)
      next => rw [if_neg (by simpa [plain] using outside)]

end Viewed

section
variable {lib : SqlLibrary} {owned : OwnedTables} {side : SqlSide} {s start : SqlStore} {sql tenant rewritten : String} {asked : List String}

theorem scopeTables_ok (scoping : scopeTables lib owned sql tenant = .ok rewritten) : ∃ stmts,lib.parse sql = .ok stmts ∧
    rewritten = joined lib (stmts.map (rescoped lib owned tenant)) ∧
    ∀ stmt ∈ stmts, ∀ name ∈ lib.relations stmt, (scopeName owned tenant name).isSome = true := by
  unfold scopeTables at scoping
  split at scoping
  next => cases scoping
  next => cases scoping
  next stmts parsed some =>
    split at scoping
    next => cases scoping
    next allowed =>
      refine ⟨stmts,some,(Except.ok.inj scoping).symm,fun stmt inside name named => ?_⟩
      by_contra refused
      have none : (scopeName owned tenant name).isNone = true := by simpa using refused
      exact allowed (List.any_eq_true.mpr ⟨stmt,inside,List.any_eq_true.mpr ⟨name,named,none⟩⟩)

theorem answer_own (lawful : lib.Lawful) (viewed : Viewed owned asked s) (known : tenant ∈ s.created)
    (scoping : scopeTables lib owned sql tenant = .ok rewritten) (reads : lib.ReadsNamed rewritten)
    (apart : s.Uncatalogued lib sql) :
    lib.answer (s.catalog owned) rewritten = lib.answer (ownCatalog owned tenant s.tables s.others) rewritten := by
  obtain ⟨stmts,parsed,rfl,allowed⟩ := scopeTables_ok scoping
  refine reads _ (lawful.reparse owned sql tenant stmts parsed) _ _ (fun stmt inside name named => ?_)
  obtain ⟨before,listed,rfl⟩ := List.mem_map.mp inside
  rw [rescoped,lawful.relations_rename] at named
  obtain ⟨original,there,rfl⟩ := List.mem_map.mp named
  obtain ⟨renamed,is⟩ := Option.isSome_iff_exists.mp (allowed before listed original there)
  rw [is,Option.getD_some]
  exact viewed.catalog known is (apart stmts parsed before listed original there)

theorem Distinct.subset {few many : List String} (distinct : Distinct many) (some : few ⊆ many) : Distinct few :=
  fun a one b other => distinct a (some one) b (some other)

theorem ensureViews_none (owned : OwnedTables) (s : SqlStore) (tenant : String) : (s.ensureViews owned tenant none).1 = .ok () := by
  unfold SqlStore.ensureViews
  split
  next => rfl
  next => rfl

theorem eventQuery_own (lawful : lib.Lawful) (viewed : Viewed episodicTables asked s) (distinct : Distinct (tenant :: asked))
    (maxRows : Nat) (refused : Option (Nat × String)) :
    Viewed episodicTables (asked ++ [tenant]) (s.query lib .events sql tenant maxRows refused).2 ∧
      (refused = none → (∀ rewritten, scopeTables lib episodicTables sql tenant = .ok rewritten → lib.ReadsNamed rewritten) →
        s.Uncatalogued lib sql →
        (s.query lib .events sql tenant maxRows refused).1 = ownAnswer lib .events s.tables s.others sql tenant maxRows) := by
  obtain ⟨kept,tables,others,known⟩ := viewed.ensured distinct refused
  unfold SqlStore.query SqlStore.eventQuery ownAnswer
  simp only [SqlSide.owned]
  cases scoping : scopeTables lib episodicTables sql tenant with
  | error e => exact ⟨viewed.mono [tenant],fun _ _ _ => rfl⟩
  | ok rewritten =>
    generalize ensured : s.ensureViews episodicTables tenant refused = done at kept tables others known
    obtain ⟨made,after⟩ := done
    cases made with
    | error e =>
      refine ⟨kept,fun none _ _ => ?_⟩
      subst none
      have ready := ensureViews_none episodicTables s tenant
      rw [ensured] at ready
      cases ready
    | ok =>
      refine ⟨kept,fun _ reads apart => ?_⟩
      have own := answer_own lawful kept (known rfl) scoping (reads rewritten rfl)
        (by rwa [SqlStore.Uncatalogued,others])
      rw [tables,others] at own
      simp only [SqlStore.limited,own]
      rfl

theorem memoryQuery_own (lawful : lib.Lawful) (viewed : Viewed cognitionTables asked s) (distinct : Distinct (tenant :: asked))
    (maxRows : Nat) (refused : Option (Nat × String)) :
    Viewed cognitionTables (asked ++ [tenant]) (s.query lib .memories sql tenant maxRows refused).2 ∧
      (refused = none → (∀ rewritten, scopeTables lib cognitionTables sql tenant = .ok rewritten → lib.ReadsNamed rewritten) →
        s.Uncatalogued lib sql →
        (s.query lib .memories sql tenant maxRows refused).1 = ownAnswer lib .memories s.tables s.others sql tenant maxRows) := by
  obtain ⟨kept,tables,others,known⟩ := viewed.ensured distinct refused
  unfold SqlStore.query SqlStore.memoryQuery ownAnswer
  simp only [SqlSide.owned]
  cases valid : validateReadOnly lib sql with
  | error e => exact ⟨viewed.mono [tenant],fun _ _ _ => rfl⟩
  | ok =>
    cases scoping : scopeTables lib cognitionTables sql tenant with
    | error e => exact ⟨viewed.mono [tenant],fun _ _ _ => rfl⟩
    | ok rewritten =>
      generalize ensured : s.ensureViews cognitionTables tenant refused = done at kept tables others known
      obtain ⟨made,after⟩ := done
      cases made with
      | error e =>
        refine ⟨kept,fun none _ _ => ?_⟩
        subst none
        have ready := ensureViews_none cognitionTables s tenant
        rw [ensured] at ready
        cases ready
      | ok =>
        refine ⟨kept,fun _ reads apart => ?_⟩
        have own := answer_own lawful kept (known rfl) scoping (reads rewritten rfl)
          (by rwa [SqlStore.Uncatalogued,others])
        rw [tables,others] at own
        simp only [own]
        rfl

theorem query_own (lawful : lib.Lawful) (viewed : Viewed side.owned asked s) (distinct : Distinct (tenant :: asked)) (maxRows : Nat)
    (refused : Option (Nat × String)) :
    Viewed side.owned (asked ++ [tenant]) (s.query lib side sql tenant maxRows refused).2 ∧
      (refused = none → (∀ rewritten, scopeTables lib side.owned sql tenant = .ok rewritten → lib.ReadsNamed rewritten) →
        s.Uncatalogued lib sql →
        (s.query lib side sql tenant maxRows refused).1 = ownAnswer lib side s.tables s.others sql tenant maxRows) := by
  cases side with
  | events => exact eventQuery_own lawful viewed distinct maxRows refused
  | memories => exact memoryQuery_own lawful viewed distinct maxRows refused

theorem Viewed.run (lawful : lib.Lawful) (fresh : start.created = [])
    (own : ∀ v, start.views v ≠ none → internalView side.owned (lastName [v]) = true) (inputs : List SqlEvent)
    (distinct : Distinct (inputs.flatMap askers)) :
    Viewed side.owned (inputs.flatMap askers) (Library.run (SqlStore.step lib side) start inputs) := by
  induction inputs using List.reverseRecOn with
  | nil => exact ⟨by simp [fresh],by simp [fresh],own⟩
  | append_singleton inputs i ih =>
    rw [List.flatMap_append] at distinct ⊢
    have before := ih (distinct.subset (List.subset_append_left _ _))
    rw [run_append]
    cases i with
    | write tables others => exact { before.mono [] with }
    | restart => exact ⟨nofun,nofun,before.internal⟩
    | query tenant sql maxRows refused =>
      refine (query_own lawful before (distinct.subset ?_) maxRows refused).1
      refine List.cons_subset.mpr ⟨List.mem_append_right _ ?_,List.subset_append_left _ _⟩
      simp [askers]

end

section
private def wordChar (c : Char) : Bool := c.isAlphanum || c = '_'

private theorem wordChar_toLower {c : Char} (word : wordChar c = true) : wordChar c.toLower = true := by
  by_cases upper : c.val ≥ 'A'.val ∧ c.val ≤ 'Z'.val
  · have letters : ∀ n < 26, wordChar (Char.ofNat (n + 97)) = true := by decide
    have low : 65 ≤ c.val.toNat := UInt32.le_iff_toNat_le.mp upper.1
    have high : c.val.toNat ≤ 90 := UInt32.le_iff_toNat_le.mp upper.2
    have moved : c.toLower.toNat = c.val.toNat - 65 + 97 := by
      have lowered : c.toLower.val = c.val + 32 := by
        unfold Char.toLower
        rw [dif_pos upper]
        rfl
      rw [Char.toNat,lowered,UInt32.toNat_add]
      change (c.val.toNat + 32) % 2 ^ 32 = _
      omega
    rw [← Char.ofNat_toNat c.toLower,moved]
    exact letters _ (by omega)
  · unfold Char.toLower
    rw [dif_neg upper]
    exact word

private theorem wordChar_hexDigit (n : Nat) : wordChar (Uuid.hexDigit n) = true := by
  have digits : ∀ n < 16, wordChar (Nat.digitChar n) = true := by decide
  exact digits (n % 16) (Nat.mod_lt n (by decide))

private def word (s : String) : Bool := !s.toList.isEmpty && s.toList.all wordChar

/-- The name in a text that selects all of a relation. -/
private def selected (sql : String) : Option String :=
  if "SELECT * FROM ".toList.isPrefixOf sql.toList && word (String.ofList (sql.toList.drop 14)) then
    some (String.ofList (sql.toList.drop 14))
  else none

def selecting : SqlLibrary where
  Stmt := ObjectName
  parse sql := match selected sql with
    | some name => .ok [[name]]
    | none => .error "expected SELECT * FROM and a name"
  isQuery _ := true
  relations name := [name]
  functions _ := []
  rename f name := f name
  print name := "SELECT * FROM " ++ name.headD ""
  answer catalog sql := match selected sql with
    | some name => .ok (catalog [name])
    | none => .error "syntax error"

private theorem selected_print {name : String} (plain : word name = true) : selected ("SELECT * FROM " ++ name) = some name := by
  have front : "SELECT * FROM ".toList.isPrefixOf ("SELECT * FROM " ++ name).toList = true := by
    rw [String.toList_append]
    exact List.isPrefixOf_iff_prefix.mpr (List.prefix_append _ _)
  have rest : String.ofList (("SELECT * FROM " ++ name).toList.drop 14) = name := by
    rw [String.toList_append,List.drop_left' (by decide),String.ofList_toList]
  simp only [selected,front,rest,plain,Bool.and_self,if_true]

private theorem word_view {table : String} (tenant : String) (plain : word table = true) :
    word (tenantScopedViewName table tenant) = true := by
  obtain ⟨some,chars⟩ := Bool.and_eq_true_iff.mp plain
  have letters : (viewSuffix tenant).toList.all wordChar = true := by
    rw [viewSuffix,String.toList_ofList,List.all_append,List.all_cons,sanitized,hexWord]
    refine Bool.and_eq_true_iff.mpr ⟨List.all_eq_true.mpr (fun c inside => ?_),?_⟩
    · obtain ⟨d,_,rfl⟩ := List.mem_map.mp (List.mem_of_mem_take inside)
      split
      next alphanumeric => exact wordChar_toLower (by simp [wordChar,alphanumeric])
      next => rfl
    · refine Bool.and_eq_true_iff.mpr ⟨rfl,?_⟩
      rw [List.all_map]
      exact List.all_eq_true.mpr (fun i _ => wordChar_hexDigit _)
  have marked : "__t_".toList.all wordChar = true := by decide
  have nonempty : (table.toList ++ "__t_".toList ++ (viewSuffix tenant).toList).isEmpty = false := by simp
  rw [word,viewName_toList,String.toList_append,nonempty,List.all_append,List.all_append,chars,marked,letters]
  rfl

private theorem word_lower {name : String} (plain : word name = true) : word (asciiLower name) = true := by
  obtain ⟨some,chars⟩ := Bool.and_eq_true_iff.mp plain
  refine Bool.and_eq_true_iff.mpr ⟨?_,?_⟩
  · rw [asciiLower_toList]
    simpa using some
  · rw [asciiLower_toList,List.all_map]
    exact List.all_eq_true.mpr (fun c inside => wordChar_toLower (List.all_eq_true.mp chars c inside))

theorem selecting_lawful : selecting.Lawful where
  relations_rename _ _ := rfl
  reparse owned sql tenant stmts parsed := by
    change (match selected sql with
      | some name => Except.ok [[name]]
      | none => .error "expected SELECT * FROM and a name") = .ok stmts at parsed
    cases found : selected sql with
    | none =>
      rw [found] at parsed
      cases parsed
    | some name =>
      rw [found] at parsed
      obtain rfl : stmts = [[name]] := (Except.ok.inj parsed).symm
      have plain : word name = true := by
        unfold selected at found
        split at found
        next given => exact Option.some_inj.mp found ▸ (Bool.and_eq_true_iff.mp given).2
        next => cases found
      have one : ∃ renamed,(scopeName owned tenant [name]).getD [name] = [renamed] ∧ word renamed = true := by
        unfold scopeName
        split
        next => exact ⟨_,rfl,word_view tenant (word_lower plain)⟩
        next =>
          split
          next => exact ⟨name,rfl,plain⟩
          next => exact ⟨name,rfl,plain⟩
      obtain ⟨renamed,is,word⟩ := one
      have one : [[name]].map (rescoped selecting owned tenant) = [[renamed]] := congrArg (fun name => [name]) is
      have text : joined selecting [[renamed]] = "SELECT * FROM " ++ renamed := String.intercalate_singleton
      rw [one]
      refine (congrArg selecting.parse text).trans ?_
      change (match selected ("SELECT * FROM " ++ renamed) with
        | some name => Except.ok [[name]]
        | none => .error "expected SELECT * FROM and a name") = .ok [[renamed]]
      rw [selected_print word]

/-- A catalogue relation that shows whether the views of acme are made. -/
private def shown (views : Views) (name : ObjectName) : List Json :=
  if name = ["duckdb_views"] ∧ (views (tenantScopedViewName "episodic" "acme")).isSome then [.str "acme"] else []

def twoTenants : List SqlEvent :=
  [.query "acme" "SELECT * FROM episodic" 10 none,
    .write (fun _ => [⟨"acme",.str "a"⟩,⟨"globex",.str "g"⟩]) shown,
    .restart,
    .query "globex" "SELECT * FROM sessions" 10 (some (1,"disk is full"))]

end

end Ecphoria.Query
