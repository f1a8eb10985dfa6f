import Ecphoria.Engine.Frame
import Ecphoria.Engine.Ingest
import Ecphoria.Memory.StateScan

/-! Calls on everything a tenant has: erasing it, and moving it to another engine by
export and import. Each store is swept by a statement of its own. -/
namespace Ecphoria
open Library

def clampNat (n low high : Nat) : Nat := max low (min n high)

namespace MemoryTable

def ofTenant (tenant : String) (row : MemoryRow) : Bool := row.memory.scope.tenantId = tenant

def listByTenant (t : MemoryTable) (tenant : String) (limit : Nat) : List Memory :=
  (((t.rows.filter (fun row => ofTenant tenant row && row.memory.state = .active)).map MemoryRow.memory).insertionSort
    (fun a b => b.updatedAt ≤ a.updatedAt)).take (clampNat limit 1 1000000)

def importMemories (t : MemoryTable) (memories : List Memory) : MemoryTable :=
  t.upsertRows (memories.map (fun m => ⟨m,none⟩))

end MemoryTable

/-- `parse_event`: the row as an event again. -/
def EventRow.parseEvent (row : EventRow) : Event where
  id := row.id
  source := row.source
  eventType := row.eventType
  payload := row.payload
  timestamp := row.ts
  parentId := row.parentId
  traceId := row.traceId
  tags := match row.tags with
    | some tags => (tags.toList.splitOn ',').map String.ofList
    | none => []
  idempotencyKey := row.idempotencyKey

def EpisodicTable.eventsByTenant (t : EpisodicTable) (tenant : String) (limit : Nat) : List Event :=
  (((t.rows.filter (fun row => row.tenantId = tenant)).insertionSort (fun a b => a.ts ≤ b.ts)).take
    (clampNat limit 1 10000000)).map EventRow.parseEvent

def vectorTenant (entry : SemanticEntry) : Option String := (entry.metadata.get "tenant_id").bind Json.asStr

def SemanticStore.deleteByTenant (store : SemanticStore) (tenant : String) : Nat × SemanticStore :=
  let ids := (store.entries.rows.filter (fun entry => vectorTenant entry = some tenant)).map SemanticEntry.id
  (ids.length,ids.foldl SemanticStore.delete store)

structure TenantSnapshot where
  events : List Event
  memories : List Memory
  state : List (String × String × Json)

structure DeletedTenant where
  tenant : String
  eventsDeleted : Nat
  memoriesDeleted : Nat
  stateDeleted : Nat
  vectorsDeleted : Nat
deriving DecidableEq,Repr

structure ImportedTenant where
  events : Nat
  memories : Nat
  state : Nat
deriving DecidableEq,Repr

def tenantAgents (tenant : String) : String := tenant ++ "\x1f"

namespace Engine

def dropEvents (e : Engine) (tenant : String) : Engine :=
  { e with
    episodic := e.episodic.delete (fun row => row.tenantId = tenant)
    sessions := e.sessions.delete (fun row => row.tenantId = tenant) }

/-- `MemoryStore::delete_by_tenant`, with the indexes of the deleted rows. The grants and the attachments of the
tenant, kept in the same database, are not part of it. -/
def dropMemories (e : Engine) (tenant : String) : Engine :=
  let ids := (e.memories.rows.filter (MemoryTable.ofTenant tenant)).map MemoryRow.id
  ids.foldl forgetIndexes
    { e with
      memories := e.memories.delete (MemoryTable.ofTenant tenant)
      edges := e.edges.delete (fun row => row.tenantId = tenant) }

def deleteTenant (e : Engine) (tenant : String) : DeletedTenant × Engine :=
  let events := (e.episodic.rows.filter (fun row => row.tenantId = tenant)).length
  let memories := (e.memories.rows.filter (MemoryTable.ofTenant tenant)).length
  let e := (e.dropEvents tenant).dropMemories tenant
  let (state,table) := e.state.deleteByPrefix (tenantAgents tenant)
  let (vectors,semantic) := e.semantic.deleteByTenant tenant
  (⟨tenant,events,memories,state,vectors⟩,{ e with state := table, semantic := semantic })

def exportTenant (e : Engine) (tenant : String) : TenantSnapshot where
  events := e.episodic.eventsByTenant tenant 10000000
  memories := e.memories.listByTenant tenant 10000000
  state := e.state.exportByPrefix (tenantAgents tenant)

/-- Of the tables, erasing a tenant sweeps five and leaves the grants, the attachments and the runs alone. -/
theorem deleteTenant_tables (e : Engine) (tenant : String) :
    (e.deleteTenant tenant).2.tables =
      { e.tables with
        memories := e.memories.delete (MemoryTable.ofTenant tenant)
        edges := e.edges.delete (fun row => row.tenantId = tenant)
        episodic := e.episodic.delete (fun row => row.tenantId = tenant)
        sessions := e.sessions.delete (fun row => row.tenantId = tenant)
        state := e.state.delete (StateTable.hasPrefix (tenantAgents tenant)) } := by
  have swept : ((e.dropEvents tenant).dropMemories tenant).tables =
      { e.tables with
        memories := e.memories.delete (MemoryTable.ofTenant tenant)
        edges := e.edges.delete (fun row => row.tenantId = tenant)
        episodic := e.episodic.delete (fun row => row.tenantId = tenant)
        sessions := e.sessions.delete (fun row => row.tenantId = tenant) } := (forgetAll_frame _ _).1
  have last : (e.deleteTenant tenant).2.tables =
      ({ ((e.dropEvents tenant).dropMemories tenant).tables with
        state := Table.delete ((e.dropEvents tenant).dropMemories tenant).tables.state
          (StateTable.hasPrefix (tenantAgents tenant)) } : Tables) := rfl
  rw [last,swept]
  rfl

def importState (t : StateTable) (entries : List (String × String × Json)) (now : Int) : StateTable :=
  entries.foldl (fun t (agentId,key,value) => (t.set agentId key value now).2) t

end Engine

section
variable (env : Env)

def importTenant (e : Engine) (embedder : Embedder) (now : Int) (tenant : String) (snapshot : TenantSnapshot) :
    Except Failure ImportedTenant × Engine :=
  match if snapshot.events.isEmpty then (.ok 0,e) else ingestForTenant env e embedder snapshot.events tenant with
  | (.error failure,e) => (.error failure,e)
  | (.ok events,e) =>
    (.ok ⟨events,snapshot.memories.length,snapshot.state.length⟩,
      { e with
        memories := e.memories.importMemories snapshot.memories
        state := Engine.importState e.state snapshot.state now })

def migrateTenantTo (source dest : Engine) (embedder : Embedder) (now : Int) (tenant : String) :
    Except Failure ImportedTenant × Engine × Engine :=
  match importTenant env dest embedder now tenant (source.exportTenant tenant) with
  | (.error failure,dest) => (.error failure,source,dest)
  | (.ok imported,dest) => (.ok imported,(source.deleteTenant tenant).2,dest)

end

end Ecphoria
