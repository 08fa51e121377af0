import Mathlib.Data.List.Count
import Mathlib.Data.List.Nodup
import Mathlib.Data.List.Range
import Dlsmc.Greenthread.Runtime

/-!
# The gauges of the scheduler (`rt->stats`)

The threads that spawn, dispatch, yield, park, unpark and finish tasks, each
`STAT_INC` and `STAT_DEC` a step of its own, as is what takes a task from a
queue or puts it in one. The rest of a section under `t->lock` or `rt->lock` is
one step; a lock is held from one step to another where an update is made with
it. The gauges are integers, so that one that would wrap is negative.

Which queue a VP tries first is left open, and so is when `rt->state` changes.
Threads below `State.vps` are VPs, the others external ones.

What a gauge lacks or has too much belongs to a thread that is in a transition
(`Balance`), so that it is right between transitions.
-/

namespace Dlsmc.Gauges

open Dlsmc.Runtime (TaskState Queue Transition RtState)

/-- The fields of `rt->stats` that count tasks. -/
inductive Gauge where
  | ready
  | running
  | parked
  | taskControls
  | spawned
  | finished
  deriving DecidableEq

/-- Where a thread stands: at the access named, in a call about task `t`. -/
inductive Pc where
  /-- In its scheduler, in the task it runs, or outside of any call. -/
  | idle
  /-- `spawn_ex`, accepted: at `STAT_INC(rt, spawned)`. -/
  | spawned (t : Nat) (q : Queue)
  | controls (t : Nat) (q : Queue)
  /-- At `dlsm_ticket_lock_acquire`. -/
  | spawnLock (t : Nat) (q : Queue)
  /-- `task_make_ready`, with `t->lock`: at `STAT_INC(rt, ready)`. -/
  | readyInc (t : Nat) (q : Queue)
  | push (t : Nat) (q : Queue)
  /-- At `dlsm_ticket_lock_release`, before it returns. -/
  | unlock (t : Nat)
  /-- `vp_try_next` took `t` from a queue: at `dlsm_ticket_lock_acquire`. -/
  | popped (t : Nat)
  | readyDec (t : Nat)
  | runningInc (t : Nat)
  /-- `vp_main`: at `vp->current = t`. -/
  | enter (t : Nat)
  /-- `rt_enqueue`: at `STAT_DEC(rt, running)`. -/
  | yieldDec (t : Nat)
  | yieldLock (t : Nat)
  /-- `rt_park`: at `STAT_DEC(rt, running)`. -/
  | parkDec (t : Nat)
  | parkLock (t : Nat)
  | parkedInc (t : Nat)
  /-- `rt_task_done`: at `dlsm_ticket_lock_acquire`. -/
  | doneLock (t : Nat)
  | doneDec (t : Nat)
  | finishedInc (t : Nat)
  /-- At the section under `rt->lock`. -/
  | doneLive (t : Nat)
  | doneUnlock (t : Nat)
  /-- `task_execution_released` -/
  | exec (t : Nat)
  /-- At the call of `task_unlink`, with `t->lock`. -/
  | unlink (t : Nat)
  /-- `task_unlink`: at `STAT_DEC(rt, task_controls)`, with `rt->lock`. -/
  | controlsDec (t : Nat)
  | unlockRt (t : Nat)
  /-- `dlsm_gt_unpark`: at the section under `rt->lock`. -/
  | unpark (t : Nat)
  | unparkLock (t : Nat) (stopped : Bool)
  | parkedDec (t : Nat) (q : Queue)
  /-- `task_make_ready`, called by `dlsm_gt_unpark`. -/
  | unparkReady (t : Nat) (q : Queue)
  | retain (t : Nat)
  | release (t : Nat)
  deriving DecidableEq

structure State where
  threads : Nat
  vps : Nat
  /-- The group of a VP. -/
  group : Nat → Nat
  rtState : RtState
  /-- The thread that holds `rt->lock` between steps. -/
  rtLock : Option Nat
  live : Int
  allTasks : List Nat
  stats : Gauge → Int
  /-- The tasks in the run queues, each with its queue; those of one queue are in its order. -/
  entries : List (Queue × Nat)
  -- the threads
  pc : Nat → Pc
  /-- `vp->current` -/
  current : Nat → Option Nat
  /-- In `rt_task_done` for a task: the tasks still to be woken that wait for it. -/
  waiters : Nat → Option (Nat × List Nat)
  -- the tasks
  state : Nat → TaskState
  /-- The thread that holds `t->lock` between steps. -/
  lock : Nat → Option Nat
  priority : Nat → Nat
  groupId : Nat → Nat
  vpId : Nat → Option Nat
  lastVpId : Nat → Option Nat
  unparkPending : Nat → Bool
  externalRefs : Nat → Nat
  executionReleased : Nat → Bool
  /-- The tasks spawned, the last one first. -/
  accepted : List Nat

/-- A new runtime. -/
def State.initial (threads vps : Nat) (group : Nat → Nat) : State where
  threads := threads
  vps := vps
  group := group
  rtState := .created
  rtLock := none
  live := 0
  allTasks := []
  stats := fun _ => 0
  entries := []
  pc := fun _ => .idle
  current := fun _ => none
  waiters := fun _ => none
  state := fun _ => .none
  lock := fun _ => none
  priority := fun _ => 0
  groupId := fun _ => 0
  vpId := fun _ => none
  lastVpId := fun _ => none
  unparkPending := fun _ => false
  externalRefs := fun _ => 0
  executionReleased := fun _ => false
  accepted := []

def goto (s : State) (c : Nat) (pc : Pc) : State := { s with pc := Function.update s.pc c pc }

/-- `STAT_INC` and `STAT_DEC` -/
def stat (s : State) (g : Gauge) (d : Int) : State := { s with stats := Function.update s.stats g (s.stats g + d) }

def setState (s : State) (t : Nat) (x : TaskState) : State := { s with state := Function.update s.state t x }

def setLock (s : State) (t : Nat) (c : Option Nat) : State := { s with lock := Function.update s.lock t c }

/-- The call of `c` returns; in `rt_task_done` the next waiter is woken. -/
def ret (s : State) (c : Nat) : State :=
  match s.waiters c with
  | none => goto s c .idle
  | some (t, []) => { goto s c (.exec t) with waiters := Function.update s.waiters c none }
  | some (t, w :: ws) => { goto s c (.unpark w) with waiters := Function.update s.waiters c (some (t, ws)) }

/-- The tasks of a queue, in order. -/
def queue (s : State) (q : Queue) : List Nat := (s.entries.filter fun e => e.1 = q).map Prod.snd

/-- The queue a VP returns its task to in `rt_enqueue` and `rt_park`. -/
def ownQueue (s : State) (v t : Nat) : Queue :=
  match s.vpId t with
  | none => .loc v (s.priority t)
  | some w => .bound w (s.priority t)

/-- The queue `dlsm_gt_unpark` returns a parked task to. -/
def unparkQueue (s : State) (t : Nat) : Queue :=
  match s.vpId t, s.lastVpId t with
  | some w, _ => .bound w (s.priority t)
  | none, some l => .loc l (s.priority t)
  | none, none => .ready (s.groupId t) (s.priority t)

/-- The queue `dlsm_gt_spawn_ex` puts a new task in. -/
def spawnQueue (s : State) (c priority g : Nat) (vpId : Option Nat) : Queue :=
  match vpId with
  | some w => .bound w priority
  | none => if c < s.vps ∧ s.group c = g then .loc c priority else .ready g priority

/-- A queue VP `v` may take a task from; `steal` if it is another's. -/
def reaches (s : State) (v : Nat) : Queue → Option Bool
  | .bound w _ => if w = v then some false else none
  | .loc w _ => if w = v then some false else if w < s.vps ∧ s.group w = s.group v then some true else none
  | .ready g _ => if g = s.group v then some false else none

/-- `queue_pop`, `queue_pop_unless` or `queue_steal_surplus` takes the head of `q`. -/
def pop (s : State) (v : Nat) (q : Queue) : Option (Nat × State) :=
  match reaches s v q, queue s q with
  | some steal, t :: l =>
    if steal = true ∧ l = [] then none else some (t, { s with entries := s.entries.erase (q, t) })
  | _, _ => none

/-- A thread may begin a call: an external one, or a VP that runs a task. -/
def canCall (s : State) (c : Nat) : Bool :=
  decide (c < s.threads) && decide (s.pc c = .idle) && (decide (s.vps ≤ c) || (s.current c).isSome)

/-- `dlsm_gt_spawn_ex` to its acceptance, with the options of the task. -/
def spawnEx (s : State) (c t priority g : Nat) (vpId : Option Nat) : State :=
  if s.rtState = .created ∨ s.rtState = .running then
    goto { s with
      state := Function.update s.state t .new
      priority := Function.update s.priority t priority
      groupId := Function.update s.groupId t g
      vpId := Function.update s.vpId t vpId
      allTasks := t :: s.allTasks
      externalRefs := Function.update s.externalRefs t 1
      live := s.live + 1
      accepted := t :: s.accepted } c (.spawned t (spawnQueue s c priority g vpId))
  else s

/-- The task is one that others have a handle on. -/
def known (s : State) (t : Nat) : Prop := s.state t ≠ .none ∧ s.state t ≠ .new

instance (s : State) (t : Nat) : Decidable (known s t) := inferInstanceAs (Decidable (_ ∧ _))

/-- The next step of thread `c`; `ws` are the tasks that wait for the one that finishes. -/
def next (s : State) (c : Nat) (ws : List Nat) : Option State :=
  match s.pc c with
  | .idle => none
  | .spawned t q => some (goto (stat s .spawned 1) c (.controls t q))
  | .controls t q => some (goto (stat s .taskControls 1) c (.spawnLock t q))
  | .spawnLock t q =>
    if s.lock t ≠ none then none else some (goto (setState (setLock s t (some c)) t .ready) c (.readyInc t q))
  | .readyInc t q => some (goto (stat s .ready 1) c (.push t q))
  | .push t q => some (goto { s with entries := s.entries ++ [(q, t)] } c (.unlock t))
  | .unlock t => some (ret (setLock s t none) c)
  | .popped t =>
    if s.lock t ≠ none then none
    else some (goto { setState s t .running with lastVpId := Function.update s.lastVpId t (some c) } c (.readyDec t))
  | .readyDec t => some (goto (stat s .ready (-1)) c (.runningInc t))
  | .runningInc t => some (goto (stat s .running 1) c (.enter t))
  | .enter t => some { goto s c .idle with current := Function.update s.current c (some t) }
  | .yieldDec t => some (goto (stat s .running (-1)) c (.yieldLock t))
  | .yieldLock t =>
    if s.lock t ≠ none then none
    else some (goto (setState (setLock s t (some c)) t .ready) c (.readyInc t (ownQueue s c t)))
  | .parkDec t => some (goto (stat s .running (-1)) c (.parkLock t))
  | .parkLock t =>
    if s.lock t ≠ none then none
    else if s.unparkPending t = true then
      some (goto { setState (setLock s t (some c)) t .ready with
        unparkPending := Function.update s.unparkPending t false } c (.readyInc t (ownQueue s c t)))
    else some (goto (setState (setLock s t (some c)) t .parked) c (.parkedInc t))
  | .parkedInc t => some (goto (stat s .parked 1) c (.unlock t))
  | .doneLock t =>
    if s.lock t ≠ none then none else some (goto (setState (setLock s t (some c)) t .finished) c (.doneDec t))
  | .doneDec t => some (goto (stat s .running (-1)) c (.finishedInc t))
  | .finishedInc t => some (goto (stat s .finished 1) c (.doneLive t))
  | .doneLive t => if s.rtLock ≠ none then none else some (goto { s with live := s.live - 1 } c (.doneUnlock t))
  | .doneUnlock t =>
    if ∀ w ∈ ws, known s w then
      some (ret { setLock s t none with waiters := Function.update s.waiters c (some (t, ws)) } c)
    else none
  | .exec t =>
    if s.lock t ≠ none then none
    else
      let s' := { s with executionReleased := Function.update s.executionReleased t true }
      some (if s.externalRefs t = 0 then goto (setLock s' t (some c)) c (.unlink t) else ret s' c)
  | .unlink t =>
    if s.rtLock ≠ none then none
    else if t ∈ s.allTasks then
      some (goto { s with rtLock := some c, allTasks := s.allTasks.erase t } c (.controlsDec t))
    else some (goto s c (.unlock t))
  | .controlsDec t => some (goto (stat s .taskControls (-1)) c (.unlockRt t))
  | .unlockRt t => some (goto { s with rtLock := none } c (.unlock t))
  | .unpark t => if s.rtLock ≠ none then none else some (goto s c (.unparkLock t (s.rtState == .stopped)))
  | .unparkLock t stopped =>
    if s.lock t ≠ none then none
    else if s.state t = .finished ∨ stopped = true then some (ret s c)
    else if s.state t = .parked then some (goto (setLock s t (some c)) c (.parkedDec t (unparkQueue s t)))
    else some (ret { s with unparkPending := Function.update s.unparkPending t true } c)
  | .parkedDec t q => some (goto (stat s .parked (-1)) c (.unparkReady t q))
  | .unparkReady t q => some (goto (setState s t .ready) c (.readyInc t q))
  | .retain t =>
    if s.lock t ≠ none then none
    else if s.externalRefs t = Runtime.uint32Max then some (ret s c)
    else some (ret { s with externalRefs := Function.update s.externalRefs t (s.externalRefs t + 1) } c)
  | .release t =>
    if s.lock t ≠ none then none
    else if s.externalRefs t = 0 then some (ret s c)
    else
      let s' := { s with externalRefs := Function.update s.externalRefs t (s.externalRefs t - 1) }
      some (if s.externalRefs t - 1 = 0 ∧ s.state t = .finished ∧ s.executionReleased t = true then
        goto (setLock s' t (some c)) c (.unlink t) else ret s' c)

inductive Act where
  /-- `dlsm_gt_spawn_ex` of a task with its options. -/
  | spawn (c t priority g : Nat) (vpId : Option Nat)
  | unpark (c t : Nat)
  | retain (c t : Nat)
  | release (c t : Nat)
  /-- VP `v` takes a task from a queue. -/
  | pop (v : Nat) (q : Queue)
  /-- The task on VP `v` yields, parks or returns, and the VP is back on its stack. -/
  | leave (v : Nat) (tr : Transition)
  | setRtState (x : RtState)
  | next (c : Nat) (ws : List Nat)
  deriving DecidableEq

def step (s : State) : Act → Option State
  | .spawn c t p g w =>
    if canCall s c = true ∧ s.state t = .none ∧ s.rtLock = none then some (spawnEx s c t p g w) else none
  | .unpark c t => if canCall s c = true ∧ known s t then some (goto s c (.unpark t)) else none
  | .retain c t => if canCall s c = true ∧ known s t then some (goto s c (.retain t)) else none
  | .release c t => if canCall s c = true ∧ known s t then some (goto s c (.release t)) else none
  | .pop v q =>
    if v < s.vps ∧ s.pc v = .idle ∧ s.current v = none then (pop s v q).map fun r => goto r.2 v (.popped r.1) else none
  | .leave v tr =>
    match s.pc v, s.current v with
    | .idle, some t =>
      some { goto s v (match tr with
        | .yield => .yieldDec t
        | .park => .parkDec t
        | .finish => .doneLock t) with current := Function.update s.current v none }
    | _, _ => none
  | .setRtState x => if s.rtLock = none then some { s with rtState := x } else none
  | .next c ws => next s c ws

/-- Any number of VPs and other threads. -/
def machine : Machine State Act where
  init := fun s => ∃ threads vps group, vps ≤ threads ∧ s = State.initial threads vps group
  step := step

end Dlsmc.Gauges
