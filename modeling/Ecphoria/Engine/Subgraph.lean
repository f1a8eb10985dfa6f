import Ecphoria.Cognition.Store
import Ecphoria.Library.Hops
import Mathlib.Data.List.Perm.Subperm
import Mathlib.Data.List.Sort

/-! The neighbourhood of an entity in the graph, hop by hop. Every layer is expanded
by a query for each of its entities, which answers no more rows than the cap. -/
namespace Ecphoria

open Library

def incident (tenant entity : String) (row : EdgeRow) : Bool :=
  row.tenantId = tenant && (row.edge.src = entity || row.edge.dst = entity)

section
/- `readOrder` is the order in which the store reads the rows of an entity. -/
variable (readOrder : String → List EdgeRow → List EdgeRow) (table : EdgeTable) (tenant : String)

/-- The heaviest rows first. `limit as i64` is negative from `2^63` on, which the query refuses. -/
def neighbors (entity : String) (limit : Nat) : Option (List Edge) :=
  if 2 ^ 63 ≤ limit then none
  else
    let rows := (readOrder entity (table.rows.filter (incident tenant entity))).insertionSort
      (fun a b => b.edge.weight ≤ a.edge.weight)
    some ((rows.take limit).map EdgeRow.edge)

structure Subgraph where
  seenEntities : List String
  seenEdges : List Uuid
  edges : List Edge
  next : List String

/-- `if seen_entities.insert(endpoint) { next.push(endpoint) }`. -/
def Subgraph.meet (found : Subgraph) (endpoint : String) : Subgraph :=
  if endpoint ∈ found.seenEntities then found
  else { found with seenEntities := endpoint :: found.seenEntities, next := found.next ++ [endpoint] }

/-- The body of the loop over the edges of an entity; an error is the early return. -/
def Subgraph.take (cap : Nat) (found : Subgraph) (edge : Edge) : Except (List Edge) Subgraph :=
  if edge.id ∈ found.seenEdges then .ok found
  else
    let met := ({ found with seenEdges := edge.id :: found.seenEdges }.meet edge.src).meet edge.dst
    let taken := { met with edges := met.edges ++ [edge] }
    if cap ≤ taken.edges.length then .error taken.edges else .ok taken

def expand (cap : Nat) : List String → Subgraph → Option (Except (List Edge) Subgraph)
  | [], found => some (.ok found)
  | e :: frontier, found =>
    match neighbors readOrder table tenant e cap with
    | none => none
    | some edges =>
      match edges.foldlM (Subgraph.take cap) found with
      | .error returned => some (.error returned)
      | .ok found => expand cap frontier found

def layers (cap : Nat) : Nat → List String → Subgraph → Option (List Edge)
  | 0, _, found => some found.edges
  | hops + 1, frontier, found =>
    match expand readOrder table tenant cap frontier { found with next := [] } with
    | none => none
    | some (.error returned) => some returned
    | some (.ok found) => if found.next = [] then some found.edges else layers cap hops found.next found

def edgeCap (maxEdges maxRows : Nat) : Nat := max (min maxEdges maxRows) 1

def memorySubgraph (maxRows : Nat) (entity : String) (depth maxEdges : Nat) : Option (List Edge) :=
  layers readOrder table tenant (edgeCap maxEdges maxRows) (max depth 1) [entity] ⟨[entity],[],[],[]⟩

end

def TenantEdge (table : EdgeTable) (tenant : String) (edge : Edge) : Prop :=
  ∃ row ∈ table.rows, row.tenantId = tenant ∧ row.edge = edge

/-- Two entities with an edge of the tenant between them, in either direction. -/
def Adjacent (table : EdgeTable) (tenant x y : String) : Prop :=
  ∃ edge, TenantEdge table tenant edge ∧ ((edge.src = x ∧ edge.dst = y) ∨ (edge.dst = x ∧ edge.src = y))

/-- An entity is at distance at most `n` from another one. -/
def Hopped (table : EdgeTable) (tenant entity : String) (n : Nat) (x : String) : Prop :=
  ∃ m ≤ n, Hops (Adjacent table tenant) entity m x

/-- An edge has an endpoint at distance less than `depth`. -/
def Near (table : EdgeTable) (tenant entity : String) (depth : Nat) (edge : Edge) : Prop :=
  ∃ n < depth, ∃ x, (x = edge.src ∨ x = edge.dst) ∧ Hops (Adjacent table tenant) entity n x

section
variable {readOrder : String → List EdgeRow → List EdgeRow} {table : EdgeTable} {tenant entity : String} {cap : Nat}

def tenantRows (table : EdgeTable) (tenant : String) : List EdgeRow :=
  table.rows.filter (fun row => row.tenantId = tenant)

private theorem tenantEdge_unique {a b : Edge} (left : TenantEdge table tenant a) (right : TenantEdge table tenant b)
    (same : a.id = b.id) : a = b := by
  obtain ⟨row,inside,_,rfl⟩ := left
  obtain ⟨other,also,_,rfl⟩ := right
  rw [table.eq_of_key inside also same]

/-- A query answers edges of the entity, and all of them where the tenant has fewer than it may answer. -/
private theorem neighbors_incident (reordered : ∀ entity rows, (readOrder entity rows).Perm rows) {e : String}
    {edges : List Edge} (answered : neighbors readOrder table tenant e cap = some edges) :
    (∀ edge ∈ edges, TenantEdge table tenant edge ∧ (edge.src = e ∨ edge.dst = e)) ∧
      ((tenantRows table tenant).length < cap →
        ∀ edge, TenantEdge table tenant edge → (edge.src = e ∨ edge.dst = e) → edge ∈ edges) := by
  unfold neighbors at answered
  split at answered
  next => exact absurd answered.symm (Option.some_ne_none _)
  next =>
    have sorted := (List.perm_insertionSort (fun a b : EdgeRow => b.edge.weight ≤ a.edge.weight)
      (readOrder e (table.rows.filter (incident tenant e)))).trans (reordered e _)
    obtain rfl := Option.some.inj answered
    refine ⟨?_,?_⟩
    · intro edge listed
      obtain ⟨row,taken,rfl⟩ := List.mem_map.mp listed
      have known := sorted.mem_iff.mp (List.mem_of_mem_take taken)
      obtain ⟨inside,touches⟩ := List.mem_filter.mp known
      simp only [incident,Bool.and_eq_true,Bool.or_eq_true,decide_eq_true_eq] at touches
      exact ⟨⟨row,inside,touches.1,rfl⟩,touches.2⟩
    · rintro few edge ⟨row,inside,owned,rfl⟩ touches
      have fits : ((readOrder e (table.rows.filter (incident tenant e))).insertionSort
          (fun a b => b.edge.weight ≤ a.edge.weight)).length ≤ cap := by
        rw [sorted.length_eq]
        refine le_trans ?_ few.le
        apply List.Sublist.length_le
        refine List.monotone_filter_right _ ?_
        intro other touches
        simp only [incident,Bool.and_eq_true,decide_eq_true_eq] at touches
        exact decide_eq_true touches.1
      rw [List.take_of_length_le fits]
      refine List.mem_map_of_mem (sorted.mem_iff.mpr (List.mem_filter.mpr ⟨inside,?_⟩))
      simpa [incident,owned] using touches

private theorem near_mono {n m : Nat} {edge : Edge} (near : Near table tenant entity n edge) (le : n ≤ m) :
    Near table tenant entity m edge := by
  obtain ⟨hops,few,x,endpoint,reached⟩ := near
  exact ⟨hops,lt_of_lt_of_le few le,x,endpoint,reached⟩

/-- What may be returned: distinct edges of the tenant, no more than the cap, each near the entity. -/
structure Capped (table : EdgeTable) (tenant entity : String) (cap depth : Nat) (edges : List Edge) : Prop where
  distinct : (edges.map Edge.id).Nodup
  few : edges.length ≤ cap
  near : ∀ edge ∈ edges, TenantEdge table tenant edge ∧ Near table tenant entity depth edge

private theorem fits_length {depth : Nat} {edges : List Edge} (fits : Capped table tenant entity cap depth edges) :
    edges.length ≤ (tenantRows table tenant).length := by
  have inside : edges.map Edge.id ⊆ (tenantRows table tenant).map EdgeRow.id := by
    intro id listed
    obtain ⟨edge,known,rfl⟩ := List.mem_map.mp listed
    obtain ⟨⟨row,stored,owned,rfl⟩,_⟩ := fits.near edge known
    exact List.mem_map.mpr ⟨row,List.mem_filter.mpr ⟨stored,decide_eq_true owned⟩,rfl⟩
  simpa using (List.subperm_of_subset fits.distinct inside).length_le

/-- The state of the search while it makes the hop that comes to `depth`. -/
structure Sound (table : EdgeTable) (tenant entity : String) (cap depth : Nat) (found : Subgraph) : Prop where
  distinct : (found.edges.map Edge.id).Nodup
  ids : ∀ id, id ∈ found.seenEdges ↔ id ∈ found.edges.map Edge.id
  few : found.edges.length < cap
  near : ∀ edge ∈ found.edges, TenantEdge table tenant edge ∧ Near table tenant entity depth edge
  next : ∀ x ∈ found.next, Hopped table tenant entity depth x
  ends : ∀ edge ∈ found.edges, edge.src ∈ found.seenEntities ∧ edge.dst ∈ found.seenEntities

theorem Sound.fits {depth : Nat} {found : Subgraph} (sound : Sound table tenant entity cap depth found) :
    Capped table tenant entity cap depth found.edges := ⟨sound.distinct,sound.few.le,sound.near⟩

/-- Nothing found is lost, and every entity met since is in the next layer. -/
structure Extended (before after : Subgraph) : Prop where
  edges : ∀ edge ∈ before.edges, edge ∈ after.edges
  entities : ∀ x ∈ before.seenEntities, x ∈ after.seenEntities
  next : ∀ x ∈ before.next, x ∈ after.next
  met : ∀ x ∈ after.seenEntities, x ∈ before.seenEntities ∨ x ∈ after.next

theorem Extended.refl (found : Subgraph) : Extended found found :=
  ⟨fun _ known => known,fun _ known => known,fun _ known => known,fun _ known => Or.inl known⟩

theorem Extended.trans {first second third : Subgraph} (left : Extended first second) (right : Extended second third) :
    Extended first third :=
  ⟨fun edge known => right.edges edge (left.edges edge known),fun x known => right.entities x (left.entities x known),
    fun x known => right.next x (left.next x known),
    fun x known => (right.met x known).elim (fun earlier => (left.met x earlier).imp_right (right.next x)) Or.inr⟩

private theorem grown_meet (found : Subgraph) (endpoint : String) : Extended found (found.meet endpoint) := by
  unfold Subgraph.meet
  split
  next => exact Extended.refl found
  next =>
    refine ⟨fun _ known => known,fun x known => List.mem_cons_of_mem _ known,fun x known => List.mem_append_left _ known,?_⟩
    intro x known
    rcases List.mem_cons.mp known with rfl | earlier
    · exact Or.inr (by simp)
    · exact Or.inl earlier

private theorem mem_meet (found : Subgraph) (endpoint : String) : endpoint ∈ (found.meet endpoint).seenEntities := by
  unfold Subgraph.meet
  split
  next known => exact known
  next => exact List.mem_cons_self

@[simp] theorem meet_edges (found : Subgraph) (endpoint : String) : (found.meet endpoint).edges = found.edges := by
  unfold Subgraph.meet
  split <;> rfl

@[simp] theorem meet_seenEdges (found : Subgraph) (endpoint : String) :
    (found.meet endpoint).seenEdges = found.seenEdges := by
  unfold Subgraph.meet
  split <;> rfl

private theorem next_meet {found : Subgraph} {endpoint x : String} (listed : x ∈ (found.meet endpoint).next) :
    x ∈ found.next ∨ x = endpoint := by
  unfold Subgraph.meet at listed
  split at listed
  next => exact Or.inl listed
  next =>
    rcases List.mem_append.mp listed with earlier | new
    · exact Or.inl earlier
    · exact Or.inr (List.mem_singleton.mp new)

private theorem within_end {depth : Nat} {edge : Edge} {e x : String} (owned : TenantEdge table tenant edge)
    (touches : edge.src = e ∨ edge.dst = e) (within : Hopped table tenant entity depth e)
    (endpoint : x = edge.src ∨ x = edge.dst) : Hopped table tenant entity (depth + 1) x := by
  obtain ⟨hops,few,reached⟩ := within
  by_cases same : x = e
  · exact ⟨hops,by omega,same ▸ reached⟩
  · refine ⟨hops + 1,by omega,.next reached ⟨edge,owned,?_⟩⟩
    rcases touches with source | target
    · refine Or.inl ⟨source,?_⟩
      rcases endpoint with rfl | rfl
      · exact absurd source same
      · rfl
    · refine Or.inr ⟨target,?_⟩
      rcases endpoint with rfl | rfl
      · rfl
      · exact absurd target same

private theorem near_edge {depth : Nat} {edge : Edge} {e : String} (touches : edge.src = e ∨ edge.dst = e)
    (within : Hopped table tenant entity depth e) : Near table tenant entity (depth + 1) edge := by
  obtain ⟨hops,few,reached⟩ := within
  exact ⟨hops,Nat.lt_succ_of_le few,e,touches.imp Eq.symm Eq.symm,reached⟩

/-- One edge of an entity of the layer: either the cap is reached, or the edge is among those found. -/
private theorem take_sound {depth : Nat} {found : Subgraph} {edge : Edge} {e : String}
    (sound : Sound table tenant entity cap (depth + 1) found) (owned : TenantEdge table tenant edge)
    (touches : edge.src = e ∨ edge.dst = e) (within : Hopped table tenant entity depth e) :
    (∃ returned, found.take cap edge = .error returned ∧ Capped table tenant entity cap (depth + 1) returned ∧
      cap ≤ returned.length) ∨
    ∃ after, found.take cap edge = .ok after ∧ Sound table tenant entity cap (depth + 1) after ∧ Extended found after ∧
      edge ∈ after.edges := by
  by_cases known : edge.id ∈ found.seenEdges
  · refine Or.inr ⟨found,if_pos known,sound,Extended.refl found,?_⟩
    obtain ⟨other,listed,same⟩ := List.mem_map.mp ((sound.ids edge.id).mp known)
    rwa [← tenantEdge_unique (sound.near other listed).1 owned same]
  · obtain ⟨met,marked⟩ : ∃ met, met =
        ({ found with seenEdges := edge.id :: found.seenEdges }.meet edge.src).meet edge.dst := ⟨_,rfl⟩
    have edges : met.edges = found.edges := by simp [marked]
    have ids : met.seenEdges = edge.id :: found.seenEdges := by simp [marked]
    have first := grown_meet { found with seenEdges := edge.id :: found.seenEdges } edge.src
    have second := grown_meet ({ found with seenEdges := edge.id :: found.seenEdges }.meet edge.src) edge.dst
    have grown : Extended { found with seenEdges := edge.id :: found.seenEdges } met := marked ▸ first.trans second
    have next : ∀ x ∈ met.next, Hopped table tenant entity (depth + 1) x := by
      intro x listed
      rw [marked] at listed
      rcases next_meet listed with earlier | rfl
      · rcases next_meet earlier with old | rfl
        · exact sound.next x old
        · exact within_end owned touches within (Or.inl rfl)
      · exact within_end owned touches within (Or.inr rfl)
    have fresh : edge.id ∉ found.edges.map Edge.id := fun inside => known ((sound.ids edge.id).mpr inside)
    have distinct : ((found.edges ++ [edge]).map Edge.id).Nodup := by
      rw [List.map_append]
      exact sound.distinct.append (List.nodup_singleton _) (List.disjoint_singleton.mpr fresh)
    have near : ∀ other ∈ found.edges ++ [edge],
        TenantEdge table tenant other ∧ Near table tenant entity (depth + 1) other := by
      intro other listed
      rcases List.mem_append.mp listed with old | new
      · exact sound.near other old
      · rw [List.mem_singleton.mp new]
        exact ⟨owned,near_edge touches within⟩
    have step : found.take cap edge = if cap ≤ (found.edges ++ [edge]).length then .error (found.edges ++ [edge])
        else .ok { met with edges := found.edges ++ [edge] } := by
      rw [Subgraph.take,if_neg known,← marked]
      simp only [edges]
    have count : (found.edges ++ [edge]).length = found.edges.length + 1 := List.length_append
    have below := sound.few
    by_cases full : cap ≤ (found.edges ++ [edge]).length
    · rw [if_pos full] at step
      exact Or.inl ⟨_,step,⟨distinct,by omega,near⟩,full⟩
    · rw [if_neg full] at step
      refine Or.inr ⟨_,step,⟨distinct,?_,Nat.lt_of_not_le full,near,next,?_⟩,⟨?_,grown.entities,grown.next,grown.met⟩,by simp⟩
      · intro id
        change id ∈ met.seenEdges ↔ id ∈ (found.edges ++ [edge]).map Edge.id
        rw [ids,List.mem_cons,sound.ids id,List.map_append,List.mem_append,List.map_singleton,List.mem_singleton]
        exact or_comm
      · intro other listed
        rcases List.mem_append.mp listed with old | new
        · exact (sound.ends other old).imp (grown.entities _) (grown.entities _)
        · rw [List.mem_singleton.mp new]
          refine ⟨?_,?_⟩
          · change edge.src ∈ met.seenEntities
            rw [marked]
            exact second.entities _ (mem_meet _ _)
          · change edge.dst ∈ met.seenEntities
            rw [marked]
            exact mem_meet _ _
      · intro other listed
        exact List.mem_append_left _ listed

private theorem take_all_sound {depth : Nat} {e : String} (edges : List Edge)
    (incident : ∀ edge ∈ edges, TenantEdge table tenant edge ∧ (edge.src = e ∨ edge.dst = e))
    (within : Hopped table tenant entity depth e) {found : Subgraph}
    (sound : Sound table tenant entity cap (depth + 1) found) :
    (∃ returned, edges.foldlM (Subgraph.take cap) found = .error returned ∧
      Capped table tenant entity cap (depth + 1) returned ∧ cap ≤ returned.length) ∨
    ∃ after, edges.foldlM (Subgraph.take cap) found = .ok after ∧ Sound table tenant entity cap (depth + 1) after ∧
      Extended found after ∧ ∀ edge ∈ edges, edge ∈ after.edges := by
  induction edges generalizing found with
  | nil => exact Or.inr ⟨found,rfl,sound,Extended.refl found,by simp⟩
  | cons edge edges ih =>
    obtain ⟨owned,touches⟩ := incident edge List.mem_cons_self
    rw [List.foldlM_cons]
    rcases take_sound sound owned touches within with ⟨returned,step,fits,full⟩ | ⟨middle,step,kept,grown,taken⟩
    · exact Or.inl ⟨returned,by rw [step]; rfl,fits,full⟩
    · have run : (found.take cap edge >>= fun found => edges.foldlM (Subgraph.take cap) found) =
          edges.foldlM (Subgraph.take cap) middle := by
        rw [step]
        rfl
      rw [run]
      rcases ih (fun other inside => incident other (List.mem_cons_of_mem _ inside)) kept with
        stopped | ⟨after,rest,last,more,all⟩
      · exact Or.inl stopped
      · refine Or.inr ⟨after,rest,last,grown.trans more,?_⟩
        intro other listed
        rcases List.mem_cons.mp listed with rfl | later
        · exact more.edges _ taken
        · exact all other later

/-- One layer: either the cap is reached, or every entity of the layer is expanded, and completely so where the tenant
has fewer edges than the cap. -/
private theorem expand_sound (reordered : ∀ entity rows, (readOrder entity rows).Perm rows) {depth : Nat}
    (frontier : List String) (within : ∀ e ∈ frontier, Hopped table tenant entity depth e) {found : Subgraph}
    (sound : Sound table tenant entity cap (depth + 1) found) {result : Except (List Edge) Subgraph}
    (run : expand readOrder table tenant cap frontier found = some result) :
    (∃ returned, result = .error returned ∧ Capped table tenant entity cap (depth + 1) returned ∧
      cap ≤ returned.length) ∨
    ∃ after, result = .ok after ∧ Sound table tenant entity cap (depth + 1) after ∧ Extended found after ∧
      ((tenantRows table tenant).length < cap → ∀ e ∈ frontier, ∀ edge, TenantEdge table tenant edge →
        (edge.src = e ∨ edge.dst = e) → edge ∈ after.edges) := by
  induction frontier generalizing found with
  | nil =>
    obtain rfl := Option.some.inj run
    exact Or.inr ⟨found,rfl,sound,Extended.refl found,by simp⟩
  | cons e frontier ih =>
    rw [expand] at run
    cases answered : neighbors readOrder table tenant e cap with
    | none => exact absurd (answered ▸ run) (by simp)
    | some edges =>
      obtain ⟨incident,all⟩ := neighbors_incident reordered answered
      rw [answered] at run
      dsimp only at run
      rcases take_all_sound edges incident (within e List.mem_cons_self) sound with
        ⟨returned,step,fits,full⟩ | ⟨middle,step,kept,grown,taken⟩
      · rw [step] at run
        obtain rfl := Option.some.inj run
        exact Or.inl ⟨returned,rfl,fits,full⟩
      · rw [step] at run
        rcases ih (fun other inside => within other (List.mem_cons_of_mem _ inside)) kept run with
          stopped | ⟨after,ended,last,more,whole⟩
        · exact Or.inl stopped
        · refine Or.inr ⟨after,ended,last,grown.trans more,?_⟩
          intro few other listed edge owned touches
          rcases List.mem_cons.mp listed with rfl | later
          · exact more.edges _ (taken edge (all few edge owned touches))
          · exact whole few other later edge owned touches

/-- What is known of the search at the start of a layer where the tenant has fewer edges than the cap: the entities
seen are those of the layer and those whose edges are all found. -/
structure Covered (table : EdgeTable) (tenant entity : String) (depth : Nat) (frontier : List String)
    (found : Subgraph) : Prop where
  seen : ∀ x ∈ found.seenEntities, x ∈ frontier ∨
    ∀ edge, TenantEdge table tenant edge → (edge.src = x ∨ edge.dst = x) → edge ∈ found.edges
  within : ∀ x, Hopped table tenant entity depth x → x ∈ found.seenEntities
  full : ∀ edge, TenantEdge table tenant edge → Near table tenant entity depth edge → edge ∈ found.edges

private theorem done_after {depth : Nat} {frontier : List String} {found after : Subgraph}
    (covered : Covered table tenant entity depth frontier found) (grown : Extended found after)
    (whole : ∀ e ∈ frontier, ∀ edge, TenantEdge table tenant edge → (edge.src = e ∨ edge.dst = e) → edge ∈ after.edges)
    {x : String} (known : x ∈ found.seenEntities) {edge : Edge} (owned : TenantEdge table tenant edge)
    (touches : edge.src = x ∨ edge.dst = x) : edge ∈ after.edges := by
  rcases covered.seen x known with here | done
  · exact whole x here edge owned touches
  · exact grown.edges edge (done edge owned touches)

private theorem covered_step {depth : Nat} {frontier : List String} {found after : Subgraph}
    (covered : Covered table tenant entity depth frontier found) (grown : Extended found after)
    (sound : Sound table tenant entity cap (depth + 1) after)
    (whole : ∀ e ∈ frontier, ∀ edge, TenantEdge table tenant edge → (edge.src = e ∨ edge.dst = e) → edge ∈ after.edges) :
    Covered table tenant entity (depth + 1) after.next after := by
  refine ⟨?_,?_,?_⟩
  · intro x known
    rcases grown.met x known with earlier | new
    · exact Or.inr (fun edge owned touches => done_after covered grown whole earlier owned touches)
    · exact Or.inl new
  · rintro x ⟨hops,few,reached⟩
    rcases Nat.lt_or_ge depth hops with last | nearer
    · obtain rfl : hops = depth + 1 := by omega
      cases reached with
      | @next _ y _ before hop =>
        obtain ⟨edge,owned,joins⟩ := hop
        have known := covered.within y ⟨depth,le_rfl,before⟩
        have touches : edge.src = y ∨ edge.dst = y := joins.imp And.left And.left
        have ends := sound.ends edge (done_after covered grown whole known owned touches)
        rcases joins with ⟨_,rfl⟩ | ⟨_,rfl⟩
        · exact ends.2
        · exact ends.1
    · exact grown.entities x (covered.within x ⟨hops,nearer,reached⟩)
  · rintro edge owned ⟨hops,few,x,endpoint,reached⟩
    have known := covered.within x ⟨hops,Nat.le_of_lt_succ few,reached⟩
    exact done_after covered grown whole known owned (endpoint.imp Eq.symm Eq.symm)

private theorem covered_closed {depth : Nat} {found : Subgraph} (covered : Covered table tenant entity depth [] found)
    (ends : ∀ edge ∈ found.edges, edge.src ∈ found.seenEntities ∧ edge.dst ∈ found.seenEntities) {edge : Edge}
    (owned : TenantEdge table tenant edge) {n : Nat} (near : Near table tenant entity n edge) : edge ∈ found.edges := by
  have done (x : String) (known : x ∈ found.seenEntities) (edge : Edge) (owned : TenantEdge table tenant edge)
      (touches : edge.src = x ∨ edge.dst = x) : edge ∈ found.edges :=
    (covered.seen x known).elim (fun here => absurd here List.not_mem_nil) (fun all => all edge owned touches)
  obtain ⟨hops,_,x,endpoint,reached⟩ := near
  have known : x ∈ found.seenEntities := by
    refine reached.closed (fun x => x ∈ found.seenEntities) (covered.within entity ⟨0,Nat.zero_le _,.here⟩) ?_
    rintro y z inside ⟨other,owned,joins⟩
    have both := ends other (done y inside other owned (joins.imp And.left And.left))
    rcases joins with ⟨_,rfl⟩ | ⟨_,rfl⟩
    · exact both.2
    · exact both.1
  exact done x known edge owned (endpoint.imp Eq.symm Eq.symm)

theorem layers_exact (reordered : ∀ entity rows, (readOrder entity rows).Perm rows) (hops : Nat) {depth : Nat}
    {frontier : List String} (within : ∀ e ∈ frontier, Hopped table tenant entity depth e) {found : Subgraph}
    (sound : Sound table tenant entity cap depth found) {edges : List Edge}
    (run : layers readOrder table tenant cap hops frontier found = some edges) :
    Capped table tenant entity cap (depth + hops) edges ∧
      ((tenantRows table tenant).length < cap → Covered table tenant entity depth frontier found →
        ∀ edge, TenantEdge table tenant edge → Near table tenant entity (depth + hops) edge → edge ∈ edges) := by
  induction hops generalizing depth frontier found with
  | zero =>
    obtain rfl := Option.some.inj run
    exact ⟨sound.fits,fun _ covered => covered.full⟩
  | succ hops ih =>
    have start : Sound table tenant entity cap (depth + 1) { found with next := [] } :=
      ⟨sound.distinct,sound.ids,sound.few,fun edge listed => (sound.near edge listed).imp_right (fun near =>
        near_mono near (Nat.le_succ _)),fun x listed => absurd listed List.not_mem_nil,sound.ends⟩
    rw [layers] at run
    cases expanded : expand readOrder table tenant cap frontier { found with next := [] } with
    | none => exact absurd (expanded ▸ run) (by simp)
    | some result =>
      rw [expanded] at run
      rcases expand_sound reordered frontier within start expanded with
        ⟨returned,rfl,fits,full⟩ | ⟨after,rfl,kept,grown,whole⟩
      · obtain rfl := Option.some.inj run
        refine ⟨⟨fits.distinct,fits.few,fun edge listed => (fits.near edge listed).imp_right (fun near =>
          near_mono near (by omega))⟩,?_⟩
        intro few
        have length := fits_length fits
        omega
      · have step (few : (tenantRows table tenant).length < cap)
            (covered : Covered table tenant entity depth frontier found) :
            Covered table tenant entity (depth + 1) after.next after := by
          have reset : Covered table tenant entity depth frontier { found with next := [] } :=
            ⟨covered.seen,covered.within,covered.full⟩
          exact covered_step reset grown kept (whole few)
        change (if after.next = [] then some after.edges else layers readOrder table tenant cap hops after.next after) =
          some edges at run
        split at run
        next empty =>
          obtain rfl := Option.some.inj run
          refine ⟨⟨kept.distinct,kept.few.le,fun edge listed => (kept.near edge listed).imp_right (fun near =>
            near_mono near (by omega))⟩,?_⟩
          intro few covered edge owned near
          exact covered_closed (empty ▸ step few covered) kept.ends owned near
        next =>
          obtain ⟨fits,exact_all⟩ := ih kept.next kept run
          have sum : depth + 1 + hops = depth + (hops + 1) := by omega
          rw [sum] at fits exact_all
          exact ⟨fits,fun few covered => exact_all few (step few covered)⟩

variable (readOrder table tenant) in
private theorem expand_answers (small : cap < 2 ^ 63) (frontier : List String) (found : Subgraph) :
    ∃ result, expand readOrder table tenant cap frontier found = some result := by
  induction frontier generalizing found with
  | nil => exact ⟨_,rfl⟩
  | cons e frontier ih =>
    rw [expand,neighbors,if_neg (not_le.mpr small)]
    dsimp only
    split
    next => exact ⟨_,rfl⟩
    next after _ => exact ih after

variable (readOrder table tenant) in
private theorem layers_answers (small : cap < 2 ^ 63) (hops : Nat) (frontier : List String) (found : Subgraph) :
    ∃ edges, layers readOrder table tenant cap hops frontier found = some edges := by
  induction hops generalizing frontier found with
  | zero => exact ⟨_,rfl⟩
  | succ hops ih =>
    obtain ⟨result,expanded⟩ := expand_answers readOrder table tenant small frontier { found with next := [] }
    rw [layers,expanded]
    cases result with
    | error returned => exact ⟨_,rfl⟩
    | ok after =>
      dsimp only
      split
      next => exact ⟨_,rfl⟩
      next => exact ih _ _

end

/-- The subgraph under the cap, whatever order the store reads equal weights in: the call answers wherever the store
takes the cap for a limit, and what it answers is distinct, near, within the cap, and all there is where the tenant has
fewer edges than that. -/
theorem memorySubgraph_exact (readOrder : String → List EdgeRow → List EdgeRow)
    (reordered : ∀ entity rows, (readOrder entity rows).Perm rows) (table : EdgeTable) (tenant : String) (maxRows : Nat)
    (entity : String) (depth maxEdges : Nat) (some_depth : 1 ≤ depth) :
    (edgeCap maxEdges maxRows < 2 ^ 63 →
      ∃ edges, memorySubgraph readOrder table tenant maxRows entity depth maxEdges = some edges) ∧
    ∀ edges, memorySubgraph readOrder table tenant maxRows entity depth maxEdges = some edges →
      (edges.map Edge.id).Nodup ∧ edges.length ≤ edgeCap maxEdges maxRows ∧
      (∀ edge ∈ edges, TenantEdge table tenant edge ∧ ∃ n < depth, ∃ x, (x = edge.src ∨ x = edge.dst) ∧
        Hops (Adjacent table tenant) entity n x) ∧
      ((tenantRows table tenant).length < edgeCap maxEdges maxRows →
        ∀ edge, TenantEdge table tenant edge → (∃ n < depth, ∃ x, (x = edge.src ∨ x = edge.dst) ∧
          Hops (Adjacent table tenant) entity n x) → edge ∈ edges) := by
  refine ⟨fun small => layers_answers readOrder table tenant small _ _ _,?_⟩
  intro edges run
  have start : Hopped table tenant entity 0 entity := ⟨0,le_rfl,.here⟩
  have sound : Sound table tenant entity (edgeCap maxEdges maxRows) 0 ⟨[entity],[],[],[]⟩ := by
    refine ⟨List.nodup_nil,by simp,?_,by simp,by simp,by simp⟩
    exact Nat.lt_of_lt_of_le Nat.zero_lt_one (le_max_right _ _)
  have covered : Covered table tenant entity 0 [entity] ⟨[entity],[],[],[]⟩ := by
    refine ⟨fun x known => Or.inl known,?_,?_⟩
    · rintro x ⟨hops,few,reached⟩
      obtain rfl : hops = 0 := Nat.le_zero.mp few
      cases reached
      exact List.mem_singleton_self _
    · rintro edge _ ⟨hops,few,_⟩
      exact absurd few (Nat.not_lt_zero _)
  have within : ∀ e ∈ [entity], Hopped table tenant entity 0 e := by
    intro e listed
    rw [List.mem_singleton.mp listed]
    exact start
  obtain ⟨fits,all⟩ := layers_exact reordered (max depth 1) within sound run
  rw [Nat.zero_add,max_eq_left some_depth] at fits all
  exact ⟨fits.distinct,fits.few,fits.near,fun few => all few covered⟩

private def toEdge (id : Uuid) (src dst : String) : EdgeRow :=
  ⟨⟨id,src,"to",dst,1,none,none,none,.active,none⟩,"default",0⟩

/-- A chain of three edges, and two hops from its start. -/
def chainEdges : EdgeTable := ⟨[toEdge 1 "A" "B",toEdge 2 "B" "C",toEdge 3 "C" "D"],by decide⟩

theorem memorySubgraph_of_chain :
    (∃ edges, memorySubgraph (fun _ => List.reverse) chainEdges "default" 10000 "A" 2 100 = some edges) ∧
    ∀ edges, memorySubgraph (fun _ => List.reverse) chainEdges "default" 10000 "A" 2 100 = some edges →
      (edges.map Edge.id).Nodup ∧ edges.length ≤ edgeCap 100 10000 ∧
      (∀ edge ∈ edges, TenantEdge chainEdges "default" edge ∧ ∃ n < 2, ∃ x, (x = edge.src ∨ x = edge.dst) ∧
        Hops (Adjacent chainEdges "default") "A" n x) ∧
      ∀ edge, TenantEdge chainEdges "default" edge → (∃ n < 2, ∃ x, (x = edge.src ∨ x = edge.dst) ∧
        Hops (Adjacent chainEdges "default") "A" n x) → edge ∈ edges := by
  obtain ⟨answers,law⟩ := memorySubgraph_exact (fun _ => List.reverse) (fun _ => List.reverse_perm) chainEdges "default"
    10000 "A" 2 100 (by decide)
  refine ⟨answers (by decide),fun edges run => ?_⟩
  obtain ⟨distinct,few,near,all⟩ := law edges run
  exact ⟨distinct,few,near,all (by decide)⟩

end Ecphoria
