import Ecphoria.Memory.Records
import Ecphoria.Library.Like

/-! The statements of the state store that read or select whole agents. An agent id
carries its tenant in front, so selecting a tenant is matching a pattern. -/
namespace Ecphoria
open Library

structure StateEntry where
  agentId : String
  key : String
  value : Json
  version : Nat

def StateRow.toEntry (row : StateRow) : StateEntry := ⟨row.agentId,row.key,row.value,row.version⟩

namespace StateTable

/-- `clock` is what `datetime('now')` reads; both sides of the comparison are text. -/
def get (env : Env) (t : StateTable) (agentId key : String) (clock : String) : Option StateEntry :=
  ((t.find (agentId,key)).filter (fun row =>
    match row.expiresAt with
    | some instant => clock < env.rfc3339 instant
    | none => true)).map StateRow.toEntry

def prefixPattern (before : String) : String := String.ofList (likeEscape before.toList ++ ['%'])

def hasPrefix (before : String) (row : StateRow) : Bool := like (some '\\') (prefixPattern before) row.agentId

def deleteByPrefix (t : StateTable) (before : String) : Nat × StateTable :=
  ((t.rows.filter (hasPrefix before)).length,t.delete (hasPrefix before))

def exportByPrefix (t : StateTable) (before : String) : List (String × String × Json) :=
  (t.rows.filter (hasPrefix before)).map (fun row => (row.agentId,row.key,row.value))

def rowsLike (t : StateTable) (pattern : String) : List StateRow :=
  t.rows.filter (fun row => like none pattern row.agentId)

def agentsLike (t : StateTable) (pattern : String) : List String :=
  ((t.rowsLike pattern).map StateRow.agentId).dedup.insertionSort (· ≤ ·)

theorem hasPrefix_iff (before : String) (row : StateRow) :
    hasPrefix before row = true ↔ before.toList.map Char.toLower <+: row.agentId.toList.map Char.toLower :=
  like_escape before row.agentId

theorem find_set (t : StateTable) (agentId key : String) (value : Json) (now : Int) (k : String × String) :
    (t.set agentId key value now).2.find k =
      if (agentId,key) = k then some (t.nextRow agentId key value now) else t.find k := by
  have row : (t.nextRow agentId key value now).primary = (agentId,key) := by
    unfold nextRow
    split
    next old found => exact ((Table.find_eq_some _ _ _).mp found).2
    next => rfl
  rw [set,Table.find_upsert,row]

theorem get_set_apart (env : Env) (t : StateTable) {agentId key other otherKey : String} (value : Json) (now : Int)
    (clock : String) (apart : other ≠ agentId) :
    get env (t.set agentId key value now).2 other otherKey clock = get env t other otherKey clock := by
  have kept : (t.set agentId key value now).2.find (other,otherKey) = t.find (other,otherKey) := by
    rw [find_set,if_neg]
    intro same
    exact apart (congrArg Prod.fst same.symm)
  rw [get,get,kept]

end StateTable

end Ecphoria
