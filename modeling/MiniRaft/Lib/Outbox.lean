import Mathlib.Data.List.Basic
import Mathlib.Logic.Relation

/-!
# Outboxes

What is put into an outbox waits in a queue, is taken out with all that waits, and goes out one after the other. One that
does not get out whole takes those behind it in its batch along; nothing is put back, and nothing overtakes.
-/

namespace Lib

/-- All that was put in; what waits; what was taken out and has not gone; and what has gone, with whether it was whole. -/
structure Outbox (α : Type*) where
  sent : List α
  queue : List α
  batch : List α
  out : List (α × Bool)

namespace Outbox

variable {α : Type*} {o o' : Outbox α}

/-- Nothing was put in yet. -/
def empty : Outbox α := ⟨[], [], [], []⟩

/-- All that has not been lost, what has gone first. -/
def all (o : Outbox α) : List α := o.out.map Prod.fst ++ (o.batch ++ o.queue)

inductive Move (o : Outbox α) : Outbox α → Prop where
  | put (a : α) : Move o { o with
      sent := o.sent ++ [a]
      queue := o.queue ++ [a] }
  | take (idle : o.batch = []) : Move o { o with
      batch := o.queue
      queue := [] }
  | finish {a : α} {batch : List α} (next : o.batch = a :: batch) : Move o { o with
      batch := batch
      out := o.out ++ [(a, true)] }
  | lose {a : α} {batch : List α} (next : o.batch = a :: batch) : Move o { o with
      batch := []
      out := o.out ++ [(a, false)] }

def Moves : Outbox α → Outbox α → Prop := Relation.ReflTransGen Move

/-- What is left is in the order it was put in, and is all of it while nothing was lost. -/
structure InOrder (o : Outbox α) : Prop where
  sublist : o.all.Sublist o.sent
  all_of_whole : (∀ x ∈ o.out, x.2 = true) → o.all = o.sent

theorem InOrder.move (order : o.InOrder) (move : Move o o') : o'.InOrder := by
  obtain ⟨sublist, whole⟩ := order
  unfold all at sublist whole
  cases move with
  | put a =>
    have longer : o.out.map Prod.fst ++ (o.batch ++ (o.queue ++ [a])) = o.out.map Prod.fst ++ (o.batch ++ o.queue) ++ [a] := by
      rw [List.append_assoc, List.append_assoc]
    constructor
    · unfold all
      rw [longer]
      exact sublist.append (List.Sublist.refl [a])
    · intro none_
      unfold all
      rw [longer, whole none_]
  | take idle =>
    rw [idle, List.nil_append] at sublist whole
    constructor
    · unfold all
      rwa [List.append_nil]
    · intro none_
      unfold all
      rw [List.append_nil, whole none_]
  | @finish a batch next =>
    have same : (o.out ++ [(a, true)]).map Prod.fst ++ (batch ++ o.queue) = o.out.map Prod.fst ++ (o.batch ++ o.queue) := by
      rw [next, List.map_append, List.append_assoc]
      rfl
    constructor
    · unfold all
      rwa [same]
    · intro none_
      unfold all
      rw [same]
      exact whole fun x mem => none_ x (List.mem_append_left _ mem)
  | @lose a batch next =>
    constructor
    · refine List.Sublist.trans ?_ sublist
      unfold all
      rw [next, List.map_append, List.append_assoc]
      apply (List.Sublist.refl _).append
      exact (List.sublist_append_right batch o.queue).cons_cons a
    · intro none_
      have := none_ (a, false) (List.mem_append_right _ (List.mem_singleton_self _))
      cases this

/-- **What goes out of an outbox** goes in the order it was put in, and nothing is missing while nothing was lost. -/
theorem Moves.inOrder (moves : Moves empty o) : o.InOrder := by
  induction moves with
  | refl => exact ⟨List.Sublist.refl _, fun _ => rfl⟩
  | tail _ move order => exact order.move move

end Outbox

end Lib
