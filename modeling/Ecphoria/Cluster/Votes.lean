import Ecphoria.Cluster.LogRecovery
import Mathlib.Data.Prod.Lex

/-! The votes of a node over crashes and restarts. A vote is saved to disk before it is
remembered; at a restart the store is opened again, or else replaced by one in memory. -/
namespace Ecphoria.Raft
open Library

/-- How `MemStore::open` ends: before the schema is made, so that the node falls back to memory; in the schema, where
the process ends; or with a cache of what the queries bring back. -/
inductive Opening (B : Type) where
  | failed
  | panicked
  | opened (unread : MetaKey → Bool) (lost : LogRow B → Bool)

/-- A node, whether its store is on disk, and the votes that were saved with success. -/
structure VotingNode (V M R B : Type) where
  disk : Disk B
  running : Option (Bool × Cache V M R)
  granted : List V

/-- `landed` says of a save that is cut off whether it had reached the disk. -/
inductive VoteInput (V B : Type) where
  | saveVote (vote : V) (fails : Bool)
  | cut (vote : V) (landed : Bool)
  | crash
  | start (opening : Opening B)

section
variable {V M R B : Type} [Inhabited M] (wire : Wire V M R B)

def Cache.empty : Cache V M R := ⟨fun _ => none,none,none,none,default,none,none⟩

/-- What hydrating finds: a query that fails is taken for an absent value, a row that does not come for an absent row. -/
def Disk.seen (db : Disk B) (unread : MetaKey → Bool) (lost : LogRow B → Bool) : Disk B :=
  ⟨db.log.delete lost,fun key => if unread key then none else db.info key⟩

namespace VotingNode

/-- `save_vote` of the store that is in memory. -/
def rememberVote (node : VotingNode V M R B) (cache : Cache V M R) (vote : V) : VotingNode V M R B :=
  match wire.vote.encode vote with
  | some _ => { node with running := some (false,{ cache with vote := some vote }), granted := vote :: node.granted }
  | none => node

def saveVote (node : VotingNode V M R B) (vote : V) (fails : Bool) : VotingNode V M R B :=
  match node.running with
  | none => node
  | some (false,cache) => node.rememberVote wire cache vote
  | some (true,cache) =>
    match (Raft.saveVote wire vote).exec (fun _ _ => fails) ⟨node.disk,cache⟩ with
    | (.ok _,s) => ⟨s.db,some (true,s.cache),vote :: node.granted⟩
    | (.error _,s) => ⟨s.db,some (true,s.cache),node.granted⟩

def cutSave (node : VotingNode V M R B) (vote : V) (landed : Bool) : VotingNode V M R B :=
  match node.running with
  | none => node
  | some (persistent,_) =>
    let disk := match wire.vote.encode vote with
      | some data => if persistent && landed then node.disk.saved .vote data else node.disk
      | none => node.disk
    ⟨disk,none,node.granted⟩

def start (node : VotingNode V M R B) : Opening B → VotingNode V M R B
  | .failed => { node with running := some (false,.empty) }
  | .panicked => { node with running := none }
  | .opened unread lost => { node with running := some (true,hydrate wire (node.disk.seen unread lost)) }

def step (node : VotingNode V M R B) : VoteInput V B → VotingNode V M R B
  | .saveVote vote fails => node.saveVote wire vote fails
  | .cut vote landed => node.cutSave wire vote landed
  | .crash => { node with running := none }
  | .start opening => node.start wire opening

end VotingNode

variable [Preorder V]

def Opening.ReadsVote : Opening B → Prop
  | .failed => False
  | .panicked => True
  | .opened unread _ => unread .vote = false

/-- `read_vote` answers a vote at least as large as any that was saved. -/
def Covers (granted : List V) (read : Option V) : Prop := ∀ vote ∈ granted, ∃ held, read = some held ∧ vote ≤ held

def Remembers (node : VotingNode V M R B) : Prop :=
  ∀ persistent cache, node.running = some (persistent,cache) → Covers node.granted cache.vote

def Increasing (node : VotingNode V M R B) : VoteInput V B → Prop
  | .saveVote vote _ | .cut vote _ =>
    ∀ persistent cache held, node.running = some (persistent,cache) → cache.vote = some held → held ≤ vote
  | .crash | .start _ => True

/-- The database opens, and the vote in it is read. -/
def Reopens (_ : VotingNode V M R B) : VoteInput V B → Prop
  | .start opening => opening.ReadsVote
  | _ => True

/-- The vote on disk covers what was saved, and so does that of a running node, whose store is on disk. -/
structure Durable (node : VotingNode V M R B) : Prop where
  disk : Covers node.granted ((node.disk.info .vote).bind wire.vote.decode)
  running : ∀ persistent cache, node.running = some (persistent,cache) →
    persistent = true ∧ Covers node.granted cache.vote

section
variable {wire} {node : VotingNode V M R B}

theorem Covers.increase {granted : List V} {read : Option V} {vote : V} (covers : Covers granted read)
    (larger : ∀ held, read = some held → held ≤ vote) : Covers granted (some vote) := by
  intro old inside
  obtain ⟨held,found,below⟩ := covers old inside
  exact ⟨vote,rfl,below.trans (larger held found)⟩

theorem Covers.grant {granted : List V} {read : Option V} {vote : V} (covers : Covers granted read)
    (larger : ∀ held, read = some held → held ≤ vote) : Covers (vote :: granted) (some vote) := by
  intro old inside
  rcases List.mem_cons.mp inside with rfl | before
  · exact ⟨old,rfl,le_refl old⟩
  · exact covers.increase larger old before

theorem Disk.saved_vote {db : Disk B} {data : B} : (db.saved .vote data).info .vote = some data := by
  simp [Disk.saved]

omit [Inhabited M] in
theorem Durable.saveVote (plain : wire.Plain) (durable : Durable wire node) {vote : V} {fails : Bool}
    (increasing : Increasing node (.saveVote vote fails)) : Durable wire (node.saveVote wire vote fails) := by
  unfold VotingNode.saveVote
  cases state : node.running with
  | none => exact durable
  | some store =>
    obtain ⟨persistent,cache⟩ := store
    obtain ⟨rfl,covers⟩ := durable.running persistent cache state
    obtain ⟨data,written,back⟩ := plain.vote vote
    have larger : ∀ held, cache.vote = some held → held ≤ vote := fun held => increasing true cache held state
    cases fails with
    | true =>
      have stopped : (Raft.saveVote wire vote).exec (fun _ _ => true) (⟨node.disk,cache⟩ : StoreInner V M R B) =
          (.error .write,⟨node.disk,cache⟩) := by
        simp only [Raft.saveVote,encoded,written]
        rfl
      dsimp only
      rw [stopped]
      refine ⟨durable.disk,?_⟩
      rintro _ _ ⟨⟩
      exact ⟨rfl,covers⟩
    | false =>
      have saved : (Raft.saveVote wire vote).exec (fun _ _ => false) (⟨node.disk,cache⟩ : StoreInner V M R B) =
          (.ok (),⟨node.disk.saved .vote data,{ cache with vote := some vote }⟩) := by
        simp only [Raft.saveVote,encoded,written]
        rfl
      dsimp only
      rw [saved]
      refine ⟨?_,?_⟩
      · rw [Disk.saved_vote]
        change Covers (vote :: node.granted) (wire.vote.decode data)
        rw [back]
        exact covers.grant larger
      · rintro _ _ ⟨⟩
        exact ⟨rfl,covers.grant larger⟩

omit [Inhabited M] in
theorem Durable.cutSave (plain : wire.Plain) (durable : Durable wire node) {vote : V} {landed : Bool}
    (increasing : Increasing node (.cut vote landed)) : Durable wire (node.cutSave wire vote landed) := by
  unfold VotingNode.cutSave
  cases state : node.running with
  | none => exact durable
  | some store =>
    obtain ⟨persistent,cache⟩ := store
    obtain ⟨rfl,covers⟩ := durable.running persistent cache state
    obtain ⟨data,written,back⟩ := plain.vote vote
    refine ⟨?_,fun _ _ running => by cases running⟩
    rw [written]
    cases landed with
    | false => exact durable.disk
    | true =>
      change Covers node.granted (((node.disk.saved .vote data).info .vote).bind wire.vote.decode)
      rw [Disk.saved_vote]
      change Covers node.granted (wire.vote.decode data)
      rw [back]
      exact covers.increase (fun held => increasing true cache held state)

theorem Durable.start (durable : Durable wire node) {opening : Opening B} (reads : opening.ReadsVote) :
    Durable wire (node.start wire opening) := by
  cases opening with
  | failed => exact absurd reads id
  | panicked => exact ⟨durable.disk,fun _ _ running => by cases running⟩
  | opened unread lost =>
    refine ⟨durable.disk,?_⟩
    rintro _ _ ⟨⟩
    refine ⟨rfl,?_⟩
    have seen : (hydrate wire (node.disk.seen unread lost)).vote = (node.disk.info .vote).bind wire.vote.decode := by
      have read : (node.disk.seen unread lost).info .vote = node.disk.info .vote :=
        if_neg (fun missed => by rw [show unread .vote = false from reads] at missed; cases missed)
      rw [hydrate,read]
    rw [seen]
    exact durable.disk

theorem Durable.step (plain : wire.Plain) (durable : Durable wire node) {input : VoteInput V B}
    (increasing : Increasing node input) (reopens : Reopens node input) : Durable wire (node.step wire input) := by
  cases input with
  | saveVote vote fails => exact durable.saveVote plain increasing
  | cut vote landed => exact durable.cutSave plain increasing
  | crash => exact ⟨durable.disk,fun _ _ running => by cases running⟩
  | start opening => exact durable.start reopens

/-- Every state of a run in which the database is opened and its vote is read at each start. -/
theorem votes_remembered (plain : wire.Plain) (disk : Disk B) (inputs : List (VoteInput V B))
    (increasing : Along (VotingNode.step wire) Increasing (⟨disk,none,[]⟩ : VotingNode V M R B) inputs)
    (reopens : Along (VotingNode.step wire) Reopens (⟨disk,none,[]⟩ : VotingNode V M R B) inputs) :
    Throughout (VotingNode.step wire) Remembers (⟨disk,none,[]⟩ : VotingNode V M R B) inputs := by
  have init : Durable wire (⟨disk,none,[]⟩ : VotingNode V M R B) := by
    refine ⟨?_,?_⟩
    · intro vote inside
      cases inside
    · intro persistent cache running
      cases running
  intro n persistent cache running
  have durable := ((increasing.and reopens).take n).invariant init
    (fun node input durable ok => durable.step plain ok.1 ok.2)
  exact (durable.running persistent cache running).2

end

end

/-- By term, then by commitment to a leader. -/
instance : Preorder Vote := Preorder.lift (fun vote => toLex (vote.term,vote.committed))

def firstVote : Vote := ⟨1,1,true⟩

def readable : Opening MsgPack := .opened (fun _ => false) (fun _ => false)

def voteThenRestart (opening : Opening MsgPack) : List (VoteInput Vote MsgPack) :=
  [.start readable,.saveVote firstVote false,.crash,.start opening]

theorem voteThenRestart_increasing (opening : Opening MsgPack) :
    Along (VotingNode.step compactWire) Increasing (⟨Disk.empty,none,[]⟩ : VotingNode Vote (List Nat) Nat MsgPack)
      (voteThenRestart opening) := by
  refine ⟨trivial,?_,trivial,trivial,trivial⟩
  rintro _ _ held ⟨⟩ found
  cases found

theorem votes_remembered_restart : compactWire.Plain ∧
    Along (VotingNode.step compactWire) Increasing (⟨Disk.empty,none,[]⟩ : VotingNode Vote (List Nat) Nat MsgPack)
      (voteThenRestart readable) ∧
    Along (VotingNode.step compactWire) Reopens (⟨Disk.empty,none,[]⟩ : VotingNode Vote (List Nat) Nat MsgPack)
      (voteThenRestart readable) ∧
    Throughout (VotingNode.step compactWire) Remembers (⟨Disk.empty,none,[]⟩ : VotingNode Vote (List Nat) Nat MsgPack)
      (voteThenRestart readable) := by
  have reopens : Along (VotingNode.step compactWire) Reopens
      (⟨Disk.empty,none,[]⟩ : VotingNode Vote (List Nat) Nat MsgPack) (voteThenRestart readable) :=
    ⟨rfl,trivial,trivial,rfl,trivial⟩
  exact ⟨compactWire_plain,voteThenRestart_increasing readable,reopens,
    votes_remembered compactWire_plain Disk.empty _ (voteThenRestart_increasing readable) reopens⟩

/-- The database does not open at the restart: the node runs from memory, and its vote is gone. -/
theorem vote_forgotten :
    Along (VotingNode.step compactWire) Increasing (⟨Disk.empty,none,[]⟩ : VotingNode Vote (List Nat) Nat MsgPack)
      (voteThenRestart .failed) ∧
    ¬Throughout (VotingNode.step compactWire) Remembers
      (⟨Disk.empty,none,[]⟩ : VotingNode Vote (List Nat) Nat MsgPack) (voteThenRestart .failed) := by
  refine ⟨voteThenRestart_increasing .failed,?_⟩
  intro remembers
  obtain ⟨held,read,_⟩ := remembers 4 false .empty rfl firstVote List.mem_cons_self
  cases read

end Ecphoria.Raft
