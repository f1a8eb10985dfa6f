import Ecphoria.Library.Outputs
import Mathlib.Data.List.Basic
import Mathlib.Algebra.GroupWithZero.Nat

/-! Bounded queues of a sender that never waits. A mailbox that is full takes no more; of a subscription to a broadcast,
a receiver that falls behind loses the oldest and is told how many. -/
namespace Ecphoria.Library

structure Mailbox (α : Type) (capacity : Nat) where
  items : List α
  bound : items.length ≤ capacity

namespace Mailbox
variable {α : Type} {capacity : Nat}

def empty : Mailbox α capacity := ⟨[],Nat.zero_le capacity⟩

def trySend (m : Mailbox α capacity) (a : α) : Option (Mailbox α capacity) :=
  if room : m.items.length < capacity then some ⟨m.items ++ [a],by rw [List.length_append]; exact room⟩ else none

def receive (m : Mailbox α capacity) : Option (α × Mailbox α capacity) :=
  match items : m.items with
  | [] => none
  | a :: rest => some (a,⟨rest,Nat.le_of_succ_le (by simpa [items] using m.bound)⟩)

theorem trySend_cases (m : Mailbox α capacity) (a : α) :
    (∃ sent,m.trySend a = some sent ∧ sent.items = m.items ++ [a]) ∨ m.trySend a = none ∧ m.items.length = capacity := by
  unfold trySend
  by_cases room : m.items.length < capacity
  · exact .inl ⟨_,dif_pos room,rfl⟩
  · exact .inr ⟨dif_neg room,Nat.le_antisymm m.bound (Nat.le_of_not_lt room)⟩

theorem receive_cases (m : Mailbox α capacity) :
    m.receive = none ∧ m.items = [] ∨ ∃ a rest,m.receive = some (a,rest) ∧ m.items = a :: rest.items := by
  unfold receive
  split
  next items => exact .inl ⟨rfl,items⟩
  next a rest items => exact .inr ⟨a,_,rfl,items⟩

end Mailbox

structure Subscription (α : Type) (capacity : Nat) where
  items : List α
  missed : Nat
  bound : items.length ≤ capacity

inductive Received (α : Type) where
  | nothing
  | lagged (missed : Nat)
  | item (a : α)

namespace Subscription
variable {α : Type} {capacity : Nat}

def start : Subscription α capacity := ⟨[],0,Nat.zero_le capacity⟩

def publish (s : Subscription α capacity) (a : α) : Subscription α capacity where
  items := (s.items ++ [a]).drop (s.items.length + 1 - capacity)
  missed := s.missed + (s.items.length + 1 - capacity)
  bound := by
    rw [List.length_drop,List.length_append,List.length_singleton]
    omega

def receive (s : Subscription α capacity) : Received α × Subscription α capacity :=
  if 0 < s.missed then (.lagged s.missed,{ s with missed := 0 })
  else
    match items : s.items with
    | [] => (.nothing,s)
    | a :: rest => (.item a,⟨rest,0,Nat.le_of_succ_le (by simpa [items] using s.bound)⟩)

theorem publish_split (s : Subscription α capacity) (a : α) :
    ∃ lost, s.items ++ [a] = lost ++ (s.publish a).items ∧ (s.publish a).missed = s.missed + lost.length := by
  refine ⟨(s.items ++ [a]).take (s.items.length + 1 - capacity),(List.take_append_drop _ _).symm,?_⟩
  rw [List.length_take,List.length_append,List.length_singleton,Nat.min_eq_left (Nat.sub_le _ _)]
  rfl

inductive Receipt (s : Subscription α capacity) : Received α × Subscription α capacity → Prop
  | nothing (told : s.missed = 0) (empty : s.items = []) : Receipt s (.nothing,s)
  | lagged (behind : 0 < s.missed) : Receipt s (.lagged s.missed,{ s with missed := 0 })
  | item (told : s.missed = 0) (a : α) (rest : Subscription α capacity) (items : s.items = a :: rest.items)
      (none : rest.missed = 0) : Receipt s (.item a,rest)

theorem receive_receipt (s : Subscription α capacity) : s.Receipt s.receive := by
  unfold receive
  split
  next behind => exact .lagged behind
  next told =>
    split
    next items => exact .nothing (Nat.eq_zero_of_not_pos told) items
    next a rest items => exact .item (Nat.eq_zero_of_not_pos told) a _ items rfl

end Subscription

def Received.items {α : Type} : Received α → List α
  | .item a => [a]
  | _ => []

def Received.lost {α : Type} : Received α → Nat
  | .lagged missed => missed
  | _ => 0

/-- What a step of a system does to a subscription: a publication, a receipt, or nothing. -/
inductive Subscription.Moves {α : Type} {capacity : Nat} (s : Subscription α capacity) :
    List α → Received α → Subscription α capacity → Prop
  | publish (a : α) : Moves s [a] .nothing (s.publish a)
  | receive : Moves s [] s.receive.1 s.receive.2
  | rest : Moves s [] .nothing s

/-- What a move takes in comes out, in order, or is lost, and all that is lost is told or still to be told. -/
theorem Subscription.Moves.books {α : Type} {capacity : Nat} {s next : Subscription α capacity} {published : List α} {got : Received α}
    (moves : s.Moves published got next) : (got.items ++ next.items).Sublist (s.items ++ published) ∧
      s.missed + s.items.length + published.length = got.lost + got.items.length + next.missed + next.items.length := by
  cases moves with
  | publish a =>
    obtain ⟨lost,split,missed⟩ := s.publish_split a
    refine ⟨split ▸ List.sublist_append_right _ _,?_⟩
    have lengths := congrArg List.length split
    rw [List.length_append,List.length_append,List.length_singleton] at lengths
    simp only [Received.items,Received.lost,List.length_nil,List.length_singleton,missed]
    omega
  | receive =>
    generalize received : s.receive = answer
    have receipt := s.receive_receipt
    rw [received] at receipt
    cases receipt with
    | nothing told empty => exact ⟨by simp [Received.items],by simp [Received.items,Received.lost]⟩
    | lagged behind => exact ⟨by simp [Received.items],by simp [Received.items,Received.lost]⟩
    | item told a rest items none =>
      refine ⟨by simp [Received.items,items],?_⟩
      simp only [Received.items,Received.lost,items,told,none,List.length_cons,List.length_nil]
      omega
  | rest => exact ⟨by simp [Received.items],by simp [Received.items,Received.lost]⟩

/-- Over a run of a system that moves a subscription: what is received is what was published, in order, but for what is pending
and what was lost. -/
theorem subscription_books {σ ι α : Type} {step : σ → ι → σ} {capacity : Nat} {sub : σ → Subscription α capacity}
    {published : σ → ι → List α} {got : σ → ι → Received α}
    (each : ∀ s i, (sub s).Moves (published s i) (got s i) (sub (step s i))) (s : σ) (inputs : List ι) :
    (outputs step (fun s i => (got s i).items) s inputs ++ (sub (run step s inputs)).items).Sublist
      ((sub s).items ++ outputs step published s inputs) ∧
    (sub s).missed + (sub s).items.length + (outputs step published s inputs).length =
      (outputs step (fun s i => [(got s i).lost]) s inputs).sum + (outputs step (fun s i => (got s i).items) s inputs).length +
        (sub (run step s inputs)).missed + (sub (run step s inputs)).items.length := by
  refine ⟨@outputs_passed _ _ _ step _ _ (fun s => (sub s).items) (fun s i => (each s i).books.1) s inputs,?_⟩
  induction inputs generalizing s with
  | nil => simp [outputs]
  | cons i inputs ih =>
    have count := (each s i).books.2
    have later := ih (step s i)
    simp only [outputs,run_cons,List.length_append,List.sum_append,List.sum_singleton]
    omega

end Ecphoria.Library
