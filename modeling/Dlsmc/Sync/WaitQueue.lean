import Dlsmc.Framework.Operations
import Dlsmc.Sync.GtMutex
import Dlsmc.Sync.GtWait

/-!
# The waiter queues are first in, first out

`queue_push`, `queue_pop` and `queue_remove` on the queues of `gt_wait.c`
(`GtWait.execQueue`), and what `gt_mutex.c` does to its queue: `remove_waiter`,
and the parts of `dlsm_gt_mutex_lock` and `dlsm_gt_mutex_unlock` that append a
waiter and take the first one (`GtMutex.execQueue`). Each sequence of them does
what it does to lists.
-/

namespace Dlsmc

/-- An operation of a waiter queue. -/
def QueueOp.ofWait {ι α : Type} : QueueOp ι α → Bool
  | .push _ _ | .pop _ | .remove _ _ => true
  | .popUnless _ _ | .stealSurplus _ => false

namespace GtWait

/-- The queues of all objects. -/
def queues (s : State) : Queues Nat Nat := ⟨s.next, s.head, s.tail⟩

@[simp] theorem queues_setLinks (s : State) (o : Nat) (q : Links Nat) :
    queues (setLinks s o q) = (queues s).set o q := rfl

/-- `queue_pop` -/
def queuePop (s : State) (o : Nat) : Option Nat × State :=
  match (links s o).pop with
  | none => (none, s)
  | some (n, q) => (some n, setLinks s o q)

/-- One of `queue_push`, `queue_pop` and `queue_remove`; `fuel` bounds the loops of the last. -/
def execQueue (fuel : Nat) (s : State) : QueueOp Nat Nat → Option (State × QueueResult Nat)
  | .push o n => some (queuePush s o n, .done)
  | .pop o => some ((queuePop s o).2, .node (queuePop s o).1)
  | .remove o n => ((links s o).remove n fuel).map fun r => (setLinks s o r.2, .removed r.1)
  | .popUnless _ _ | .stealSurplus _ => none

/-- `dlsm_gt_condition_signal` takes the first waiter. -/
theorem signal_queuePop (s : State) (o : Nat) : signal s o =
    if s.qlock o = true ∨ s.kind o ≠ .condition then none
    else
      match queuePop s o with
      | (none, s) => some s
      | (some n, s) => some { s with granted := Function.update s.granted n true } := by
  unfold signal queuePop
  split
  · rfl
  · cases (links s o).pop <;> rfl

theorem queueRemove_execQueue (s : State) (o n fuel : Nat) :
    queueRemove s o n fuel = (execQueue fuel s (.remove o n)).map Prod.fst := by
  simp only [queueRemove, execQueue, Option.map_map]
  rfl

/-- The queues hold the lists, with room for `n` more nodes within the bound of the loops. -/
structure Holds (fuel n : Nat) (s : State) (l : Nat → List Nat) : Prop where
  repr : (queues s).Repr l
  room : ∀ o, (l o).length + n ≤ fuel

theorem Holds.of_repr {fuel n : Nat} {s s' : State} {l : Nat → List Nat} {o : QueueOp Nat Nat}
    (h : Holds fuel (n + 1) s l) (hr : (queues s').Repr (fifo l o).1) : Holds fuel n s' (fifo l o).1 := by
  refine ⟨hr, fun i => ?_⟩
  have := h.room i
  have := length_fifo l o i
  omega

theorem refines_execQueue (fuel : Nat) :
    Refines (execQueue fuel) fifo (fun l o => o.Legal l ∧ o.ofWait = true) (Holds fuel) := by
  rintro n s l o h ⟨hlegal, hop⟩
  cases o with
  | push o a => exact ⟨_, rfl, h.of_repr (h.repr.push hlegal)⟩
  | pop o =>
    cases hl : l o with
    | nil =>
      have hr := h.repr.repr o
      rw [hl] at hr
      have hpop : queuePop s o = (none, s) := by
        rw [queuePop, show (links s o).pop = none from hr.pop_nil]
      have hspec : fifo l (.pop o) = (l, .node none) := takeIf_nil hl true
      refine ⟨s, ?_, h.of_repr ?_⟩
      · rw [execQueue, hpop, hspec]
      · rw [hspec]
        exact h.repr
    | cons a l' =>
      have hr := h.repr.repr o
      rw [hl] at hr
      obtain ⟨q, hq, hq', hf⟩ := hr.pop_cons
      have hpop : queuePop s o = (some a, setLinks s o q) := by
        rw [queuePop, show (links s o).pop = some (a, q) from hq]
      have hspec : fifo l (.pop o) = (Function.update l o l', .node (some a)) := takeIf_cons hl
      refine ⟨setLinks s o q, ?_, h.of_repr ?_⟩
      · rw [execQueue, hpop, hspec]
      · rw [hspec]
        exact h.repr.tail hl hq' hf
  | remove o a =>
    have hlen := h.room o
    have hne : (links s o).remove a fuel ≠ none := (h.repr.repr o).remove_of_lt (by omega)
    obtain ⟨⟨b, q⟩, hq⟩ := Option.ne_none_iff_exists'.mp hne
    obtain ⟨rfl, hrepr⟩ := h.repr.remove hq
    exact ⟨setLinks s o q, by simp [execQueue, hq, fifo], h.of_repr hrepr⟩
  | popUnless | stealSurplus => cases hop

end GtWait

namespace GtMutex

/-- What `dlsm_gt_mutex_unlock` does to the queue; the node's own link stays. -/
def dequeue (q : Links Nat) : Option Nat × Links Nat :=
  match q.head with
  | none => (none, q)
  | some w => (some w, { q with head := q.next w, tail := if q.next w = none then none else q.tail })

theorem lock_queue {s : State} {t : Nat} (hi : s.initialized = true) (hl : s.locked = true) (ho : s.owner ≠ some t) :
    (lock s t).1.queue = s.queue.push t := by
  simp [lock, hi, hl, ho, enqueue]

theorem unlock_queue {s : State} {t : Nat} (hi : s.initialized = true) (hl : s.locked = true) (ho : s.owner = some t) :
    (unlock s t).1.queue = (dequeue s.queue).2 := by
  unfold unlock dequeue
  rw [if_neg (by simp [hi]), if_neg (by simp [hl, ho])]
  cases s.queue.head <;> rfl

/-- One of the operations on the queue of a mutex. -/
def execQueue (fuel : Nat) (q : Links Nat) : QueueOp Unit Nat → Option (Links Nat × QueueResult Nat)
  | .push _ t => some (q.push t, .done)
  | .pop _ => some ((dequeue q).2, .node (dequeue q).1)
  | .remove _ t => (removeWaiter q t fuel).map fun r => (r.2, .removed r.1)
  | .popUnless _ _ | .stealSurplus _ => none

structure Holds (fuel n : Nat) (q : Links Nat) (l : Unit → List Nat) : Prop where
  repr : q.Repr (l ())
  room : (l ()).length + n ≤ fuel

theorem Holds.of_repr {fuel n : Nat} {q q' : Links Nat} {l : Unit → List Nat} {o : QueueOp Unit Nat}
    (h : Holds fuel (n + 1) q l) (hr : q'.Repr ((fifo l o).1 ())) : Holds fuel n q' (fifo l o).1 := by
  refine ⟨hr, ?_⟩
  have := h.room
  have := length_fifo l o ()
  omega

theorem refines_execQueue (fuel : Nat) :
    Refines (execQueue fuel) fifo (fun l o => o.Legal l ∧ o.ofWait = true) (Holds fuel) := by
  rintro n q l o h ⟨hlegal, hop⟩
  cases o with
  | push o a =>
    refine ⟨_, rfl, h.of_repr ?_⟩
    simpa [fifo] using h.repr.push (hlegal ())
  | pop o =>
    cases hl : l () with
    | nil =>
      have hpop : dequeue q = (none, q) := by
        rw [dequeue, h.repr.head_eq_none.mpr hl]
      have hspec : fifo l (.pop o) = (l, .node none) := takeIf_nil hl true
      refine ⟨q, ?_, h.of_repr ?_⟩
      · rw [execQueue, hpop, hspec]
      · rw [hspec]
        exact h.repr
    | cons a l' =>
      have hr := h.repr
      rw [hl] at hr
      have hhead : q.head = some a := hr.chain.1
      have hspec : fifo l (.pop o) = (Function.update l o l', .node (some a)) := takeIf_cons hl
      refine ⟨{ q with head := q.next a, tail := if q.next a = none then none else q.tail }, ?_, h.of_repr ?_⟩
      · rw [execQueue, dequeue, hhead, hspec]
      · rw [hspec]
        exact ⟨hr.chain.2, by rw [hr.tail_of_cons]; rfl⟩
  | remove o a =>
    have hlen := h.room
    have hne : removeWaiter q a fuel ≠ none := h.repr.remove_of_lt (by omega)
    obtain ⟨⟨b, q'⟩, hq⟩ := Option.ne_none_iff_exists'.mp hne
    obtain ⟨rfl, hrepr, -⟩ := h.repr.remove hq
    refine ⟨q', by simp [execQueue, hq, fifo], h.of_repr ?_⟩
    simpa [fifo] using hrepr
  | popUnless | stealSurplus => cases hop

end GtMutex

end Dlsmc
