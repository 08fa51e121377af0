import Mathlib.Data.List.Perm.Subperm
import Mathlib.Data.List.FinRange
import Dlsmc.Sync.WaitQueue

/-!
# The run queues are first in, first out (`greenthread.c`)

Any number of `struct task_queue` and the calls of `queue_push`, `queue_pop`,
`queue_pop_unless` and `queue_steal_surplus` on them. A call holds the lock of
its queue, so it is one step. Tasks are named by their address, and each has
one link `t->next`, so it is in at most one queue.

`queue_steal_surplus` leaves `q->tail` alone: it takes a task only when there
is another one behind it (`refines_exec`).
-/

namespace Dlsmc.TaskQueue

/-- How many addresses a task may have; `NULL` is none of them. -/
def addresses : Nat := 2 ^ 64 - 1

/-- A task, by its address. -/
abbrev Task := Fin addresses

/-- The queues `ι` and the links of the tasks. -/
structure State (ι : Type) where
  next : Task → Option Task
  head : ι → Option Task
  tail : ι → Option Task
  size : ι → UInt64

variable {ι : Type}

def queues (s : State ι) : Queues ι Task := ⟨s.next, s.head, s.tail⟩

def links (s : State ι) (i : ι) : Links Task := (queues s).links i

section model

variable [DecidableEq ι]

/-- `s` with the queue `i` set to `q` and its size to `n`. -/
def setQueue (s : State ι) (i : ι) (q : Links Task) (n : UInt64) : State ι where
  next := q.next
  head := Function.update s.head i q.head
  tail := Function.update s.tail i q.tail
  size := Function.update s.size i n

@[simp] theorem queues_setQueue (s : State ι) (i : ι) (q : Links Task) (n : UInt64) :
    queues (setQueue s i q n) = (queues s).set i q := rfl

/-- `queue_push` -/
def queuePush (s : State ι) (i : ι) (t : Task) : State ι := setQueue s i ((links s i).push t) (s.size i + 1)

/-- `queue_pop` -/
def queuePop (s : State ι) (i : ι) : Option Task × State ι :=
  match (links s i).pop with
  | none => (none, s)
  | some (t, q) => (some t, setQueue s i q (s.size i - 1))

/-- `queue_pop_unless` -/
def queuePopUnless (s : State ι) (i : ι) (avoid : Option Task) : Option Task × State ι :=
  if s.head i = avoid then (none, s) else queuePop s i

/-- `queue_steal_surplus`; `none` if it follows `NULL`. -/
def queueStealSurplus (s : State ι) (i : ι) : Option (Option Task × State ι) :=
  if 1 < s.size i then
    match s.head i with
    | none => none
    | some t => some (some t, setQueue s i ⟨Function.update s.next t none, s.next t, s.tail i⟩ (s.size i - 1))
  else some (none, s)

/-- A call on a run queue; `none` if it follows `NULL`. -/
def exec (s : State ι) : QueueOp ι Task → Option (State ι × QueueResult Task)
  | .push i t => some (queuePush s i t, .done)
  | .pop i => some ((queuePop s i).2, .node (queuePop s i).1)
  | .popUnless i avoid => some ((queuePopUnless s i avoid).2, .node (queuePopUnless s i avoid).1)
  | .stealSurplus i => (queueStealSurplus s i).map fun r => (r.2, .node r.1)
  | .remove _ _ => none

end model

/-- The operations of a run queue. -/
def ofTask : QueueOp ι Task → Bool
  | .push _ _ | .pop _ | .popUnless _ _ | .stealSurplus _ => true
  | .remove _ _ => false

/-! ## Refinement -/

/-- The queues hold the lists, and know how long they are. -/
structure Holds (s : State ι) (l : ι → List Task) : Prop where
  repr : (queues s).Repr l
  size : ∀ i, s.size i = UInt64.ofNat (l i).length

theorem length_le_addresses {l : List Task} (h : l.Nodup) : l.length ≤ addresses := by
  have := (List.subperm_of_subset h fun t _ => List.mem_finRange t).length_le
  rwa [List.length_finRange] at this

variable {s : State ι} {l : ι → List Task} {i : ι}

/-- No queue is so long that its size wraps. -/
theorem Holds.toNat_size (h : Holds s l) (i : ι) : (s.size i).toNat = (l i).length := by
  have hle := length_le_addresses (h.repr.repr i).nodup
  have hlt : (l i).length < 2 ^ 64 := Nat.lt_of_le_of_lt hle (by decide)
  rw [h.size, UInt64.toNat_ofNat', Nat.mod_eq_of_lt hlt]

theorem Holds.one_lt (h : Holds s l) : 1 < s.size i ↔ 1 < (l i).length := by
  rw [← h.toNat_size, UInt64.lt_iff_toNat_lt]
  rfl

theorem Holds.head (h : Holds s l) (i : ι) : s.head i = (l i).head? := (h.repr.repr i).head

theorem Holds.size_tail (h : Holds s l) {t : Task} {l' : List Task} (hl : l i = t :: l') :
    s.size i - 1 = UInt64.ofNat l'.length := by
  rw [h.size, hl, List.length_cons, UInt64.ofNat_add]
  exact UInt64.add_sub_cancel _ _

variable [DecidableEq ι]

theorem Holds.set (h : Holds s l) {q : Links Task} {l' : List Task} {n : UInt64}
    (hr : ((queues s).set i q).Repr (Function.update l i l')) (hn : n = UInt64.ofNat l'.length) :
    Holds (setQueue s i q n) (Function.update l i l') := by
  refine ⟨hr, fun j => ?_⟩
  by_cases e : j = i
  · subst e
    simpa [setQueue] using hn
  · simpa [setQueue, Function.update_of_ne e] using h.size j

/-- `queue_pop` takes the first task, if there is one. -/
theorem Holds.queuePop (h : Holds s l) (i : ι) :
    QueueResult.node (queuePop s i).1 = (fifo l (.pop i)).2 ∧ Holds (queuePop s i).2 (fifo l (.pop i)).1 := by
  have hr := h.repr.repr i
  cases hl : l i with
  | nil =>
    rw [hl] at hr
    have hpop : TaskQueue.queuePop s i = (none, s) := by
      rw [TaskQueue.queuePop, show (links s i).pop = none from hr.pop_nil]
    have hspec : fifo l (.pop i) = (l, .node none) := takeIf_nil hl true
    rw [hpop, hspec]
    exact ⟨rfl, h⟩
  | cons t l' =>
    rw [hl] at hr
    obtain ⟨q, hq, hq', hf⟩ := hr.pop_cons
    have hpop : TaskQueue.queuePop s i = (some t, setQueue s i q (s.size i - 1)) := by
      rw [TaskQueue.queuePop, show (links s i).pop = some (t, q) from hq]
    have hspec : fifo l (.pop i) = (Function.update l i l', .node (some t)) := takeIf_cons hl
    rw [hpop, hspec]
    exact ⟨rfl, h.set (h.repr.tail hl hq' hf) (h.size_tail hl)⟩

/-- A task that is stolen has another one behind it, which `tail` points to or beyond. -/
theorem Holds.queueStealSurplus (h : Holds s l) (i : ι) : ∃ r, queueStealSurplus s i = some r ∧
    QueueResult.node r.1 = (fifo l (.stealSurplus i)).2 ∧ Holds r.2 (fifo l (.stealSurplus i)).1 := by
  unfold TaskQueue.queueStealSurplus
  by_cases hlt : 1 < (l i).length
  · rw [if_pos (h.one_lt.mpr hlt)]
    match hl : l i, hlt with
    | t :: u :: l', _ =>
      have hr := h.repr.repr i
      rw [hl] at hr
      have hspec : fifo l (.stealSurplus i) = (Function.update l i (u :: l'), .node (some t)) := by
        rw [fifo, decide_eq_true (by rw [hl]; simp)]
        exact takeIf_cons hl
      have hhead : s.head i = some t := hr.chain.1
      rw [hhead, hspec]
      refine ⟨_, rfl, rfl, h.set (h.repr.tail hl ⟨?_, ?_⟩ fun a ha => Function.update_of_ne ha _ _) (h.size_tail hl)⟩
      · refine hr.chain.2.congr fun a ha => Function.update_of_ne ?_ _ _
        rintro rfl
        exact (List.nodup_cons.mp hr.nodup).1 ha
      · exact hr.tail.trans List.getLast?_cons_cons
  · rw [if_neg (fun hs => hlt (h.one_lt.mp hs))]
    have hspec : fifo l (.stealSurplus i) = (l, .node none) := by
      rw [fifo, decide_eq_false hlt]
      rfl
    rw [hspec]
    exact ⟨_, rfl, rfl, h⟩

theorem refines_exec : Refines (exec (ι := ι)) fifo (fun l o => o.Legal l ∧ ofTask o = true) fun _ => Holds := by
  rintro n s l o h ⟨hlegal, hop⟩
  cases o with
  | push i t =>
    refine ⟨_, rfl, h.set (h.repr.push hlegal) ?_⟩
    rw [h.size, List.length_append, UInt64.ofNat_add]
    rfl
  | pop i =>
    obtain ⟨hres, hh⟩ := h.queuePop i
    exact ⟨_, by rw [exec, hres], hh⟩
  | popUnless i avoid =>
    have hhead := h.head i
    by_cases e : s.head i = avoid
    · have hspec : fifo l (.popUnless i avoid) = (l, .node none) := by
        rw [fifo, decide_eq_false (fun hne => hne (hhead ▸ e))]
        rfl
      rw [hspec]
      exact ⟨s, by rw [exec, queuePopUnless, if_pos e], h⟩
    · have hne : (l i).head? ≠ avoid := fun he => e (hhead.trans he)
      have hspec : fifo l (.popUnless i avoid) = fifo l (.pop i) := by
        simp only [fifo, decide_eq_true hne]
      obtain ⟨hres, hh⟩ := h.queuePop i
      rw [hspec]
      exact ⟨_, by rw [exec, queuePopUnless, if_neg e, hres], hh⟩
  | stealSurplus i =>
    obtain ⟨r, hr, hres, hh⟩ := h.queueStealSurplus i
    exact ⟨r.2, by rw [exec, hr, ← hres]; rfl, hh⟩
  | remove => cases hop

/-! ## Sequences of calls -/

/-- `head`, `next` and `tail` are one list without cycles. -/
structure IsList {α : Type} (q : Links α) (l : List α) : Prop where
  chain : IsChain q.next q.head l
  tail : q.tail = l.getLast?
  empty : q.head = none ↔ q.tail = none
  nodup : l.Nodup

theorem IsList.of_repr {α : Type} {q : Links α} {l : List α} (h : q.Repr l) : IsList q l :=
  ⟨h.chain, h.tail, h.head_eq_none.trans h.tail_eq_none.symm, h.nodup⟩

/-- The queues of the scheduler and of its waiters do, in every sequence of
calls, what the operations do to lists: they return the same, and afterwards
the links are those lists. -/
structure FirstInFirstOut : Prop where
  /-- `queue_push`, `queue_pop`, `queue_pop_unless` and `queue_steal_surplus` of `greenthread.c` -/
  task : ∀ {ι : Type} [DecidableEq ι] (s : State ι) (ops : List (QueueOp ι Task)),
    (∀ i, s.head i = none ∧ s.tail i = none ∧ s.size i = 0) →
    Allowed fifo (fun l o => o.Legal l ∧ ofTask o = true) (fun _ => []) ops →
    ∃ s', runOps exec s ops = some (s', (specOps fifo (fun _ => []) ops).2) ∧
      ∀ i, IsList (links s' i) ((specOps fifo (fun _ => []) ops).1 i) ∧
        (s'.size i).toNat = ((specOps fifo (fun _ => []) ops).1 i).length ∧ (s'.head i = none ↔ s'.size i = 0)
  /-- `queue_push`, `queue_pop` and `queue_remove` of `gt_wait.c` -/
  wait : ∀ (s : GtWait.State) (ops : List (QueueOp Nat Nat)) (fuel : Nat), (∀ o, s.head o = none ∧ s.tail o = none) →
    Allowed fifo (fun l o => o.Legal l ∧ o.ofWait = true) (fun _ => []) ops → ops.length ≤ fuel →
    ∃ s', runOps (GtWait.execQueue fuel) s ops = some (s', (specOps fifo (fun _ => []) ops).2) ∧
      ∀ o, IsList (GtWait.links s' o) ((specOps fifo (fun _ => []) ops).1 o)
  /-- `remove_waiter` of `gt_mutex.c`, and what its other code does to the queue -/
  mutex : ∀ (q : Links Nat) (ops : List (QueueOp Unit Nat)) (fuel : Nat), q.head = none → q.tail = none →
    Allowed fifo (fun l o => o.Legal l ∧ o.ofWait = true) (fun _ => []) ops → ops.length ≤ fuel →
    ∃ q', runOps (GtMutex.execQueue fuel) q ops = some (q', (specOps fifo (fun _ => []) ops).2) ∧
      IsList q' ((specOps fifo (fun _ => []) ops).1 ())

omit [DecidableEq ι] in
theorem repr_of_empty {α : Type} {s : Queues ι α} (h : ∀ i, s.head i = none ∧ s.tail i = none) : s.Repr fun _ => [] :=
  ⟨fun i => ⟨(h i).1, (h i).2⟩, by simp⟩

theorem firstInFirstOut : FirstInFirstOut where
  task s ops h ha := by
    have hh : Holds s fun _ => [] := ⟨repr_of_empty fun i => ⟨(h i).1, (h i).2.1⟩, fun i => (h i).2.2⟩
    obtain ⟨s', hrun, hh'⟩ := refines_exec.run (n := 0) hh ha
    refine ⟨s', hrun, fun i => ⟨.of_repr (hh'.repr.repr i), hh'.toNat_size i, ?_⟩⟩
    rw [hh'.head, List.head?_eq_none_iff, ← List.length_eq_zero_iff, ← hh'.toNat_size, ← UInt64.toNat_inj]
    rfl
  wait s ops fuel h ha hf := by
    have hh : GtWait.Holds fuel (ops.length + 0) s fun _ => [] := ⟨repr_of_empty h, fun _ => by simpa using hf⟩
    obtain ⟨s', hrun, hh'⟩ := (GtWait.refines_execQueue fuel).run hh ha
    exact ⟨s', hrun, fun o => .of_repr (hh'.repr.repr o)⟩
  mutex q ops fuel hh ht ha hf := by
    have hh : GtMutex.Holds fuel (ops.length + 0) q fun _ => [] := ⟨⟨hh, ht⟩, by simpa using hf⟩
    obtain ⟨q', hrun, hh'⟩ := (GtMutex.refines_execQueue fuel).run hh ha
    exact ⟨q', hrun, .of_repr hh'.repr⟩

/-! ## A sequence on each kind of queue -/

def task (n : Fin 8) : Task := n.castLE (by decide)

/-- A task that was stolen is pushed again, and comes behind the one that was left. -/
def surplusOps : List (QueueOp Bool Task) :=
  [.push false (task 1), .push false (task 2), .push true (task 3), .stealSurplus false, .push false (task 1),
    .popUnless false (some (task 2)), .pop false, .stealSurplus true]

/-- A waiter in the middle is removed. -/
def waiterOps {ι : Type} (i : ι) : List (QueueOp ι Nat) := [.push i 1, .push i 2, .push i 3, .remove i 2, .pop i]

theorem allowed_waiterOps {ι : Type} [DecidableEq ι] (i : ι) :
    Allowed fifo (fun l o => o.Legal l ∧ o.ofWait = true) (fun _ => []) (waiterOps i) := by
  have hne : ∀ {l : List Nat} {a : Nat}, a ∉ l → ∀ j, a ∉ Function.update (fun _ : ι => ([] : List Nat)) i l j := by
    intro l a ha j
    rw [Function.update_apply]
    split
    · exact ha
    · simp
  refine ⟨⟨by simp [QueueOp.Legal], rfl⟩, ⟨?_, rfl⟩, ⟨?_, rfl⟩, ⟨trivial, rfl⟩, ⟨trivial, rfl⟩, trivial⟩
  · simpa [QueueOp.Legal, fifo] using hne (l := [1]) (a := 2) (by simp)
  · simpa [QueueOp.Legal, fifo] using hne (l := [1, 2]) (a := 3) (by simp)

theorem firstInFirstOut_surplus :
    (∃ s', runOps exec (⟨fun _ => none, fun _ => none, fun _ => none, fun _ => 0⟩ : State Bool) surplusOps =
        some (s', [.done, .done, .done, .node (some (task 1)), .done, .node none, .node (some (task 2)), .node none]) ∧
      IsList (links s' false) [task 1] ∧ IsList (links s' true) [task 3] ∧ (s'.size false).toNat = 1) ∧
    (∃ s', runOps (GtWait.execQueue 5) (GtWait.State.initial (fun _ => .event) fun _ => false) (waiterOps 7) =
        some (s', [.done, .done, .done, .removed true, .node (some 1)]) ∧ IsList (GtWait.links s' 7) [3]) ∧
    ∃ q', runOps (GtMutex.execQueue 5) ⟨fun _ => none, none, none⟩ (waiterOps ()) =
        some (q', [.done, .done, .done, .removed true, .node (some 1)]) ∧ IsList q' [3] := by
  refine ⟨?_, ?_, ?_⟩
  · have hallowed : Allowed fifo (fun l o => o.Legal l ∧ ofTask o = true) (fun _ : Bool => []) surplusOps := by
      simp only [surplusOps, Allowed, QueueOp.Legal]
      decide +kernel
    obtain ⟨s', hrun, hlist⟩ := firstInFirstOut.task
      (⟨fun _ => none, fun _ => none, fun _ => none, fun _ => 0⟩ : State Bool) surplusOps (fun _ => ⟨rfl, rfl, rfl⟩)
      hallowed
    exact ⟨s', hrun, (hlist false).1, (hlist true).1, (hlist false).2.1⟩
  · obtain ⟨s', hrun, hlist⟩ := firstInFirstOut.wait (GtWait.State.initial (fun _ => .event) fun _ => false)
      (waiterOps 7) 5 (fun _ => ⟨rfl, rfl⟩) (allowed_waiterOps 7) (by decide)
    exact ⟨s', hrun, hlist 7⟩
  · obtain ⟨q', hrun, hlist⟩ := firstInFirstOut.mutex ⟨fun _ => none, none, none⟩ (waiterOps ()) 5 rfl rfl
      (allowed_waiterOps ()) (by decide)
    exact ⟨q', hrun, hlist⟩

end Dlsmc.TaskQueue
