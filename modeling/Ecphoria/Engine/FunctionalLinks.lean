import Ecphoria.Engine.Subgraph
import Ecphoria.Library.Transition

/-! Functional relations: a new edge closes the active ones of its source and relation at
the clock reading it begins with. After a run every edge ends where the next one of its
relation begins, so an edge that is replaced within a microsecond is valid at no instant. -/
namespace Ecphoria

open Library

/-- A call with the clock reading and the id that it draws, and the clock of the insertion. -/
structure FunctionalLink where
  tenant : String
  src : String
  relation : String
  dst : String
  source : Option Uuid
  now : Int
  id : Uuid
  created : Int
deriving DecidableEq,Repr

namespace FunctionalLink

def edge (l : FunctionalLink) : Edge :=
  { id := l.id
    src := l.src
    relation := l.relation
    dst := l.dst
    weight := 1
    sourceMemoryId := l.source
    validFrom := some l.now
    validTo := none
    state := .active
    invalidatedBy := none }

/-- Both calls set the relation of one source. -/
def Rivals (a b : FunctionalLink) : Prop := a.tenant = b.tenant ∧ a.src = b.src ∧ a.relation = b.relation

instance (a b : FunctionalLink) : Decidable (Rivals a b) := inferInstanceAs (Decidable (_ ∧ _ ∧ _))

end FunctionalLink

def memoryLinkFunctional (table : EdgeTable) (l : FunctionalLink) : EdgeTable :=
  (table.supersedeEdges l.tenant l.src l.relation l.now (some l.id)).addEdge l.tenant l.edge l.created

section
/- `readOrder` is the order in which the store reads rows that the query does not order. -/
variable (readOrder : List EdgeRow → List EdgeRow) (table : EdgeTable) (tenant : String)

/-- The heaviest rows first. `limit as i64` is negative from `2^63` on, which the query refuses. -/
def listEdges (limit : Nat) : Option (List Edge) :=
  if 2 ^ 63 ≤ limit then none
  else
    let rows := (readOrder (table.rows.filter (fun row => row.tenantId = tenant && row.edge.state = .active))).insertionSort
      (fun a b => b.edge.weight ≤ a.edge.weight)
    some ((rows.take limit).map EdgeRow.edge)

/-- `ORDER BY valid_from`: the rows without one come last. -/
def beganBefore (a b : EdgeRow) : Bool :=
  match a.edge.validFrom,b.edge.validFrom with
  | _,none => true
  | none,some _ => false
  | some f,some g => f ≤ g

def listEdgesAll (limit : Nat) : Option (List Edge) :=
  if 2 ^ 63 ≤ limit then none
  else some ((((readOrder (tenantRows table tenant)).insertionSort (fun a b => beganBefore a b = true)).take limit).map
    EdgeRow.edge)

def Edge.holdsAt (t : Int) (e : Edge) : Bool := e.validFrom.all (fun f => f ≤ t) && e.validTo.all (fun stop => t < stop)

def edgesAsOf (maxRows : Nat) : Option Int → Option (List Edge)
  | none => listEdges readOrder table tenant maxRows
  | some t => (listEdgesAll readOrder table tenant maxRows).map (fun edges => edges.filter (Edge.holdsAt t))

def graphTriples (maxRows : Nat) (asOf : Option Int) : Option (List (String × String × Rat)) :=
  (edgesAsOf readOrder table tenant maxRows asOf).map (fun edges => edges.map (fun e => (e.src,e.dst,e.weight)))

def neighborsAsOf (entity : String) (instant : Int) (limit : Nat) : Option (List Edge) :=
  if 2 ^ 63 ≤ limit then none
  else
    let rows := (readOrder (table.rows.filter (fun row => incident tenant entity row &&
      row.edge.holdsAt (micros instant)))).insertionSort (fun a b => b.edge.weight ≤ a.edge.weight)
    some ((rows.take limit).map EdgeRow.edge)

def memoryNeighborsAsOf (maxRows : Nat) (entity : String) (instant : Int) (limit : Nat) : Option (List Edge) :=
  neighborsAsOf readOrder table tenant entity instant (min limit maxRows)

end

def ValidAt (e : Edge) (instant : Int) : Prop :=
  (∀ start, e.validFrom = some start → start ≤ instant) ∧ ∀ stop, e.validTo = some stop → instant < stop

def SameRelation (a b : EdgeRow) : Prop :=
  a.tenantId = b.tenantId ∧ a.edge.src = b.edge.src ∧ a.edge.relation = b.edge.relation

def Kept (l : FunctionalLink) (row : EdgeRow) : Prop :=
  row.id = l.id ∧ row.tenantId = l.tenant ∧ row.edge.src = l.src ∧ row.edge.relation = l.relation ∧
    row.edge.dst = l.dst ∧ row.edge.sourceMemoryId = l.source

/-- What the calls promise of the graph that they leave. -/
structure FunctionalLaw (links : List FunctionalLink) (table : EdgeTable) : Prop where
  oneValid : ∀ instant, ∀ a ∈ table.rows, ∀ b ∈ table.rows, SameRelation a b → ValidAt a.edge instant →
    ValidAt b.edge instant → a = b
  oneActive : ∀ a ∈ table.rows, ∀ b ∈ table.rows, SameRelation a b → a.edge.state = .active → b.edge.state = .active → a = b
  reachable : ∀ l ∈ links, ∃ row ∈ table.rows, Kept l row ∧ ∃ instant, ValidAt row.edge instant
  asOf : ∀ readOrder : List EdgeRow → List EdgeRow, (∀ rows, (readOrder rows).Perm rows) →
    ∀ tenant entity instant maxRows limit triples edges,
      graphTriples readOrder table tenant maxRows (some instant) = some triples →
      memoryNeighborsAsOf readOrder table tenant maxRows entity instant limit = some edges →
      (tenantRows table tenant).length ≤ maxRows →
      (table.rows.filter (fun row => incident tenant entity row && row.edge.holdsAt instant)).length ≤ limit →
      (edges.map (fun e => (e.src,e.dst,e.weight))).Perm
        (triples.filter (fun triple => triple.1 = entity || triple.2.1 = entity))

namespace FunctionalLink

def row (l : FunctionalLink) : EdgeRow :=
  { edge := { l.edge with validFrom := some (micros l.now) }, tenantId := l.tenant, createdAt := micros l.created }

end FunctionalLink

def EdgeRow.closedBy (row : EdgeRow) (n : FunctionalLink) : EdgeRow :=
  { row with edge := { row.edge with validTo := some (micros n.now), state := .superseded, invalidatedBy := some n.id } }

/-- The row of a call after later ones: the first rival of it has closed it. -/
def settled (l : FunctionalLink) (later : List FunctionalLink) : EdgeRow :=
  match later.find? (fun n => decide (l.Rivals n)) with
  | none => l.row
  | some n => l.row.closedBy n

def settledRows : List FunctionalLink → List EdgeRow
  | [] => []
  | l :: later => settled l later :: settledRows later

section
variable {l n : FunctionalLink} {later links : List FunctionalLink}

theorem settled_cases (l : FunctionalLink) (later : List FunctionalLink) :
    ((∀ n ∈ later, ¬l.Rivals n) ∧ settled l later = l.row) ∨
      ∃ before n after, later = before ++ n :: after ∧ (∀ m ∈ before, ¬l.Rivals m) ∧ l.Rivals n ∧
        settled l later = l.row.closedBy n := by
  cases found : later.find? (fun n => decide (l.Rivals n)) with
  | none =>
    left
    refine ⟨?_,by rw [settled,found]⟩
    intro n inside rival
    have none := List.find?_eq_none.mp found n inside
    simp [rival] at none
  | some n =>
    right
    obtain ⟨rival,before,after,cut,none⟩ := List.find?_eq_some_iff_append.mp found
    refine ⟨before,n,after,cut,?_,of_decide_eq_true rival,by rw [settled,found]⟩
    intro m inside
    have no := none m inside
    simpa using no

theorem settled_kept (l : FunctionalLink) (later : List FunctionalLink) :
    Kept l (settled l later) ∧ (settled l later).edge.validFrom = some (micros l.now) := by
  rcases settled_cases l later with ⟨_,same⟩ | ⟨_,_,_,_,_,_,same⟩ <;> rw [same] <;>
    exact ⟨⟨rfl,rfl,rfl,rfl,rfl,rfl⟩,rfl⟩

theorem settled_append (l n : FunctionalLink) (later : List FunctionalLink) : settled l (later ++ [n]) =
    if (settled l later).tenantId = n.tenant ∧ (settled l later).edge.src = n.src ∧
      (settled l later).edge.relation = n.relation ∧ (settled l later).edge.state = .active
    then (settled l later).closedBy n else settled l later := by
  unfold settled
  rw [List.find?_append]
  cases later.find? (fun n => decide (l.Rivals n)) with
  | some m => simp [EdgeRow.closedBy]
  | none =>
    by_cases rival : l.Rivals n
    · obtain ⟨tenant,src,relation⟩ := rival
      simp [FunctionalLink.Rivals,tenant,src,relation,FunctionalLink.row,FunctionalLink.edge]
    · have apart : ¬(l.tenant = n.tenant ∧ l.src = n.src ∧ l.relation = n.relation) := rival
      simp [rival,FunctionalLink.row,FunctionalLink.edge,apart]

theorem settledRows_append (links : List FunctionalLink) (n : FunctionalLink) :
    settledRows (links ++ [n]) = (settledRows links).map (fun row =>
      if row.tenantId = n.tenant && row.edge.src = n.src && row.edge.relation = n.relation && row.edge.state = .active
      then row.closedBy n else row) ++ [n.row] := by
  induction links with
  | nil => rfl
  | cons l links ih =>
    rw [List.cons_append,settledRows,ih,settledRows,List.map_cons,List.cons_append,settled_append]
    simp only [Bool.and_eq_true,decide_eq_true_eq,and_assoc]

theorem ids_settledRows (links : List FunctionalLink) :
    (settledRows links).map EdgeRow.id = links.map FunctionalLink.id := by
  induction links with
  | nil => rfl
  | cons l links ih => rw [settledRows,List.map_cons,List.map_cons,ih,(settled_kept l links).1.1]

theorem rows_run (fresh : (links.map FunctionalLink.id).Nodup) :
    (run memoryLinkFunctional Table.empty links).rows = settledRows links := by
  induction links using List.reverseRecOn with
  | nil => rfl
  | append_singleton links n ih =>
    rw [List.map_append,List.nodup_append] at fresh
    obtain ⟨distinct,_,apart⟩ := fresh
    have before := ih distinct
    rw [run_append,settledRows_append,← before]
    have closed : ((run memoryLinkFunctional Table.empty links).supersedeEdges n.tenant n.src n.relation n.now
        (some n.id)).rows = (run memoryLinkFunctional Table.empty links).rows.map (fun row =>
          if row.tenantId = n.tenant && row.edge.src = n.src && row.edge.relation = n.relation && row.edge.state = .active
          then row.closedBy n else row) := rfl
    have keys : ((run memoryLinkFunctional Table.empty links).supersedeEdges n.tenant n.src n.relation n.now
        (some n.id)).keys = links.map FunctionalLink.id := by
      refine (Table.keys_update _ _ _ _).trans ?_
      rw [Table.keys,before,ids_settledRows]
    have absent : n.row.id ∉ ((run memoryLinkFunctional Table.empty links).supersedeEdges n.tenant n.src n.relation n.now
        (some n.id)).keys := by
      rw [keys]
      intro inside
      exact apart n.id inside n.id (by simp) rfl
    rw [← closed,run_cons,run_nil,memoryLinkFunctional,EdgeTable.addEdge]
    exact (congrArg Table.rows (if_neg absent)).trans (Table.rows_upsert_fresh _ _ absent)

theorem mem_settledRows {row : EdgeRow} (member : row ∈ settledRows links) :
    ∃ before l later, links = before ++ l :: later ∧ row = settled l later := by
  induction links with
  | nil => cases member
  | cons l links ih =>
    rcases List.mem_cons.mp member with rfl | inside
    · exact ⟨[],l,links,rfl,rfl⟩
    · obtain ⟨before,m,later,cut,same⟩ := ih inside
      exact ⟨l :: before,m,later,by rw [cut,List.cons_append],same⟩

theorem settled_mem (before : List FunctionalLink) (l : FunctionalLink) (later : List FunctionalLink) :
    settled l later ∈ settledRows (before ++ l :: later) := by
  induction before with
  | nil => exact List.mem_cons_self
  | cons m before ih => exact List.mem_cons_of_mem _ ih

theorem first_rival_le {before after : List FunctionalLink} {m : FunctionalLink}
    (ordered : (before ++ n :: after).Pairwise (fun a b => a.now ≤ b.now)) (none : ∀ m ∈ before, ¬l.Rivals m)
    (inside : m ∈ before ++ n :: after) (rival : l.Rivals m) : micros n.now ≤ micros m.now := by
  apply micros_mono
  rcases List.mem_append.mp inside with early | late
  · exact absurd rival (none m early)
  · rcases List.mem_cons.mp late with rfl | last
    · exact le_refl _
    · exact (List.pairwise_cons.mp (List.pairwise_append.mp ordered).2.1).1 m last

theorem settledRows_ordered (ordered : links.Pairwise (fun a b => a.now ≤ b.now)) :
    (settledRows links).Pairwise (fun a b => SameRelation a b → a.edge.state = .superseded ∧
      ∃ stop start, a.edge.validTo = some stop ∧ b.edge.validFrom = some start ∧ stop ≤ start) := by
  induction links with
  | nil => exact .nil
  | cons l links ih =>
    obtain ⟨_,sorted⟩ := List.pairwise_cons.mp ordered
    refine List.pairwise_cons.mpr ⟨?_,ih sorted⟩
    intro b member same
    obtain ⟨front,m,back,cut,rfl⟩ := mem_settledRows member
    obtain ⟨⟨_,tenant,src,relation,_⟩,started⟩ := settled_kept m back
    obtain ⟨⟨_,ownTenant,ownSrc,ownRelation,_⟩,_⟩ := settled_kept l links
    have rival : l.Rivals m := by
      obtain ⟨first,second,third⟩ := same
      rw [ownTenant,tenant] at first
      rw [ownSrc,src] at second
      rw [ownRelation,relation] at third
      exact ⟨first,second,third⟩
    have inside : m ∈ links := by
      rw [cut]
      exact List.mem_append_right _ List.mem_cons_self
    rcases settled_cases l links with ⟨none,_⟩ | ⟨before,n,after,parts,none,_,closed⟩
    · exact absurd rival (none m inside)
    · rw [closed]
      rw [parts] at inside sorted
      exact ⟨rfl,micros n.now,micros m.now,rfl,started,first_rival_le sorted none inside rival⟩

theorem settled_reachable (ordered : (l :: later).Pairwise (fun a b => a.now ≤ b.now)) :
    (∃ instant, ValidAt (settled l later).edge instant) ↔ ∀ n ∈ later, l.Rivals n → micros l.now < micros n.now := by
  obtain ⟨_,sorted⟩ := List.pairwise_cons.mp ordered
  rcases settled_cases l later with ⟨none,same⟩ | ⟨before,n,after,cut,none,rival,same⟩
  · rw [same]
    refine iff_of_true ⟨micros l.now,?_,?_⟩ (fun n inside rival => absurd rival (none n inside))
    · intro start begun
      cases begun
      exact le_refl _
    · intro stop closed
      cases closed
  · rw [same]
    constructor
    · rintro ⟨instant,starts,ends⟩ m inside other
      have begun : micros l.now ≤ instant := starts _ rfl
      have shut : instant < micros n.now := ends _ rfl
      rw [cut] at inside sorted
      have first := first_rival_le sorted none inside other
      omega
    · intro apart
      refine ⟨micros l.now,?_,?_⟩
      · intro start begun
        cases begun
        exact le_refl _
      · intro stop closed
        cases closed
        exact apart n (by rw [cut]; simp) rival

def EdgesRecorded (table : EdgeTable) : Prop :=
  ∀ row ∈ table.rows, row.edge.validFrom.map micros = row.edge.validFrom ∧ row.edge.validTo.map micros = row.edge.validTo

theorem recorded_run (fresh : (links.map FunctionalLink.id).Nodup) :
    EdgesRecorded (run memoryLinkFunctional Table.empty links) := by
  intro row member
  rw [rows_run fresh] at member
  obtain ⟨before,l,later,_,rfl⟩ := mem_settledRows member
  rcases settled_cases l later with ⟨_,same⟩ | ⟨_,_,_,_,_,_,same⟩ <;> rw [same] <;>
    simp [FunctionalLink.row,FunctionalLink.edge,EdgeRow.closedBy]

theorem holdsAt_micros {e : Edge} (start : e.validFrom.map micros = e.validFrom) (stop : e.validTo.map micros = e.validTo)
    (instant : Int) : e.holdsAt (micros instant) = e.holdsAt instant := by
  have begins : e.validFrom.all (fun f => f ≤ micros instant) = e.validFrom.all (fun f => f ≤ instant) := by
    cases from_ : e.validFrom with
    | none => rfl
    | some f =>
      rw [from_] at start
      simp [le_micros_iff (Option.some.inj start)]
  have ends : e.validTo.all (fun f => micros instant < f) = e.validTo.all (fun f => instant < f) := by
    cases to_ : e.validTo with
    | none => rfl
    | some f =>
      rw [to_] at stop
      simp [micros_lt_iff (Option.some.inj stop)]
  rw [Edge.holdsAt,Edge.holdsAt,begins,ends]

theorem asOf_agree {table : EdgeTable} (recorded : EdgesRecorded table) {readOrder : List EdgeRow → List EdgeRow}
    (reordered : ∀ rows, (readOrder rows).Perm rows) {tenant entity : String} {instant : Int} {maxRows limit : Nat}
    {triples : List (String × String × Rat)} {edges : List Edge}
    (graph : graphTriples readOrder table tenant maxRows (some instant) = some triples)
    (near : memoryNeighborsAsOf readOrder table tenant maxRows entity instant limit = some edges)
    (all : (tenantRows table tenant).length ≤ maxRows)
    (few : (table.rows.filter (fun row => incident tenant entity row && row.edge.holdsAt instant)).length ≤ limit) :
    (edges.map (fun e => (e.src,e.dst,e.weight))).Perm
      (triples.filter (fun triple => triple.1 = entity || triple.2.1 = entity)) := by
  have selected : table.rows.filter (fun row => incident tenant entity row && row.edge.holdsAt (micros instant)) =
      table.rows.filter (fun row => incident tenant entity row && row.edge.holdsAt instant) := by
    refine List.filter_congr ?_
    intro row member
    rw [holdsAt_micros (recorded row member).1 (recorded row member).2]
  have within : (table.rows.filter (fun row => incident tenant entity row && row.edge.holdsAt instant)).length ≤ maxRows := by
    refine le_trans (List.Sublist.length_le ?_) all
    refine List.monotone_filter_right _ ?_
    intro row chosen
    simp only [incident,Bool.and_eq_true] at chosen
    exact chosen.1.1
  have answered : (edges.map (fun e => (e.src,e.dst,e.weight))).Perm ((table.rows.filter (fun row =>
      incident tenant entity row && row.edge.holdsAt instant)).map (fun row => (row.edge.src,row.edge.dst,row.edge.weight))) := by
    unfold memoryNeighborsAsOf neighborsAsOf at near
    split at near
    next => exact absurd near.symm (Option.some_ne_none _)
    next =>
      cases near
      rw [selected,List.map_map]
      have sorted := (List.perm_insertionSort (fun a b : EdgeRow => b.edge.weight ≤ a.edge.weight)
        (readOrder (table.rows.filter (fun row => incident tenant entity row && row.edge.holdsAt instant)))).trans
        (reordered _)
      rw [List.take_of_length_le (by rw [sorted.length_eq]; exact le_min few within)]
      exact sorted.map _
  have whole : (triples.filter (fun triple => triple.1 = entity || triple.2.1 = entity)).Perm ((table.rows.filter (fun row =>
      incident tenant entity row && row.edge.holdsAt instant)).map (fun row => (row.edge.src,row.edge.dst,row.edge.weight))) := by
    obtain ⟨valid,found,rfl⟩ := Option.map_eq_some_iff.mp graph
    obtain ⟨listed,read,rfl⟩ := Option.map_eq_some_iff.mp found
    unfold listEdgesAll at read
    split at read
    next => exact absurd read.symm (Option.some_ne_none _)
    next =>
      cases read
      have sorted := (List.perm_insertionSort (fun a b : EdgeRow => beganBefore a b = true)
        (readOrder (tenantRows table tenant))).trans (reordered _)
      rw [List.take_of_length_le (by rw [sorted.length_eq]; exact all),List.filter_map,List.filter_filter,
        List.filter_map,List.map_map]
      refine ((sorted.filter _).map _).trans ?_
      rw [tenantRows,List.filter_filter]
      refine List.Perm.of_eq ?_
      congr 1
      refine List.filter_congr ?_
      intro row _
      simp only [incident,Function.comp_apply]
      cases decide (row.tenantId = tenant) <;> simp
  exact answered.trans whole.symm

private theorem reachable_iff (ordered : links.Pairwise (fun a b => a.now ≤ b.now))
    (fresh : (links.map FunctionalLink.id).Nodup) :
    (∀ l ∈ links, ∃ row ∈ settledRows links, Kept l row ∧ ∃ instant, ValidAt row.edge instant) ↔
      links.Pairwise (fun a b => a.Rivals b → micros a.now < micros b.now) := by
  constructor
  · intro reachable
    have suffix : ∀ later before, links = before ++ later →
        later.Pairwise (fun a b => a.Rivals b → micros a.now < micros b.now) := by
      intro later
      induction later with
      | nil => exact fun _ _ => .nil
      | cons l later ih =>
        intro before cut
        refine List.pairwise_cons.mpr ⟨?_,ih (before ++ [l]) (by simp [cut])⟩
        have inside : l ∈ links := by simp [cut]
        obtain ⟨row,member,kept,valid⟩ := reachable l inside
        have own : settled l later ∈ settledRows links := cut ▸ settled_mem before l later
        have distinct : ((settledRows links).map EdgeRow.id).Nodup := by rwa [ids_settledRows]
        have same : row = settled l later := List.inj_on_of_nodup_map distinct member own
          (kept.1.trans (settled_kept l later).1.1.symm)
        rw [same] at valid
        rw [cut] at ordered
        exact (settled_reachable (List.pairwise_append.mp ordered).2.1).mp valid
    exact suffix links [] rfl
  · intro apart l inside
    obtain ⟨before,later,cut⟩ := List.append_of_mem inside
    rw [cut] at ordered apart
    refine ⟨settled l later,cut ▸ settled_mem before l later,(settled_kept l later).1,?_⟩
    exact (settled_reachable (List.pairwise_append.mp ordered).2.1).mpr
      (List.pairwise_cons.mp (List.pairwise_append.mp apart).2.1).1

theorem eq_of_overlap {p : EdgeRow → Prop} (ordered : links.Pairwise (fun a b => a.now ≤ b.now))
    (never : ∀ a b, p a → p b → a.edge.state = .superseded → ¬∃ stop start, a.edge.validTo = some stop ∧
      b.edge.validFrom = some start ∧ stop ≤ start) {a b : EdgeRow} (first : a ∈ settledRows links)
    (second : b ∈ settledRows links) (same : SameRelation a b) (left : p a) (right : p b) : a = b := by
  by_contra apart
  have symmetric : Std.Symm (fun x y => SameRelation x y → p x → p y → False) := by
    refine ⟨?_⟩
    intro x y excluded related py px
    exact excluded ⟨related.1.symm,related.2.1.symm,related.2.2.symm⟩ px py
  have pairs : (settledRows links).Pairwise (fun x y => SameRelation x y → p x → p y → False) := by
    refine (settledRows_ordered ordered).imp ?_
    intro x y closed related px py
    obtain ⟨shut,ends⟩ := closed related
    exact never x y px py shut ends
  exact pairs.forall first second apart same left right

/-- The calls keep their promises exactly when no call replaces an edge within its microsecond. -/
theorem functionalLaw_iff (ordered : links.Pairwise (fun a b => a.now ≤ b.now))
    (fresh : (links.map FunctionalLink.id).Nodup) :
    FunctionalLaw links (run memoryLinkFunctional Table.empty links) ↔
      links.Pairwise (fun a b => a.Rivals b → micros a.now < micros b.now) := by
  have rows := rows_run fresh
  rw [← reachable_iff ordered fresh,← rows]
  refine ⟨FunctionalLaw.reachable,?_⟩
  intro reachable
  refine ⟨?_,?_,reachable,?_⟩
  · intro instant a first b second same left right
    rw [rows] at first second
    refine eq_of_overlap (p := fun row => ValidAt row.edge instant) ordered ?_ first second same left right
    rintro x y ⟨_,ends⟩ ⟨begins,_⟩ _ ⟨stop,start,closed,begun,le⟩
    have before := ends stop closed
    have after := begins start begun
    omega
  · intro a first b second same left right
    rw [rows] at first second
    refine eq_of_overlap (p := fun row => row.edge.state = .active) ordered ?_ first second same left right
    intro x y active _ shut
    rw [active] at shut
    cases shut
  · intro readOrder reordered tenant entity instant maxRows limit triples edges graph near all few
    exact asOf_agree (recorded_run fresh) reordered graph near all few

end

def oncall (dst : String) (now : Int) (id : Uuid) : FunctionalLink := ⟨"acme","api","oncall",dst,none,now,id,now⟩

theorem functionalLaw_two : FunctionalLaw [oncall "ana" 1000 1,oncall "bo" 2500 2]
    (run memoryLinkFunctional Table.empty [oncall "ana" 1000 1,oncall "bo" 2500 2]) :=
  (functionalLaw_iff (by decide) (by decide)).mpr (by decide)

/-- Two calls within a microsecond: the first edge is valid at no instant. -/
theorem link_never_valid : ¬∀ links : List FunctionalLink, links.Pairwise (fun a b => a.now ≤ b.now) →
    (links.map FunctionalLink.id).Nodup → FunctionalLaw links (run memoryLinkFunctional Table.empty links) := by
  intro law
  have both := law [oncall "ana" 1000 1,oncall "bo" 1500 2] (by decide) (by decide)
  obtain ⟨row,member,⟨same,_⟩,instant,begins,ends⟩ := both.reachable (oncall "ana" 1000 1) (by decide)
  have first : row = (oncall "ana" 1000 1).row.closedBy (oncall "bo" 1500 2) := by
    have rows : (run memoryLinkFunctional Table.empty [oncall "ana" 1000 1,oncall "bo" 1500 2]).rows =
        [(oncall "ana" 1000 1).row.closedBy (oncall "bo" 1500 2),(oncall "bo" 1500 2).row] :=
      rows_run (by decide)
    rw [rows] at member
    rcases List.mem_cons.mp member with given | other
    · exact given
    · rw [List.mem_singleton.mp other] at same
      cases same
  rw [first] at begins ends
  have after : (1000 : Int) ≤ instant := begins 1000 rfl
  have before : instant < 1000 := ends 1000 rfl
  omega

end Ecphoria
