import Mathlib.Algebra.Group.Nat.Defs
import Mathlib.Logic.Function.Basic
import Dlsmc.Framework.Machine

/-!
# The green-thread runtime (`greenthread.c`, `vp_idle_pthread.c`)

One `dlsm_gt_runtime`: its VP threads, their run queues and idle states, its
tasks, and the calls of tasks and external threads on it (spawn, unpark, stop,
add_vp, start, run, wait). A section under a lock is one step, except that
`dlsm_gt_start` and `dlsm_gt_runtime_add_vp` hold `rt->lock` over several
steps, and a task's lock is held from the push in `task_make_ready` to a later
step. Every load, store and compare-exchange of `idle.state`, every probe of a
queue and every read of `rt->nvp` is a step of its own.

A thread executes its calls as a list of operations (`Op`): the first is
executed and replaced by what is left of it. A VP whose list is empty goes on
in its scheduler loop (`VPc`), and a running task may begin a call.

Threads can always be created and memory allocated, and `pthread_cond_wait`
does not fail; timers, blocking calls, statistics and the reclamation of tasks
are left out, and so are the destructors of task-local values:
`dlsm_gt_task_finish` reads `tls_vp` before it runs them and switches to that VP
after them, and here no destructor yields in between. `rt->live` is a number,
since 2^31 tasks do not fit in memory. `pushes`, `completions`, `accepted`,
`started` and `joined` record what happened; no step reads them.
-/

namespace Dlsmc.Runtime

inductive RtState where
  | created
  | running
  | stopping
  | joining
  | stopped
  deriving DecidableEq

/-- `t->state`; `none` before the task exists. -/
inductive TaskState where
  | none
  | new
  | ready
  | running
  | parked
  | finished
  deriving DecidableEq

inductive Transition where
  | yield
  | park
  | finish
  deriving DecidableEq

/-- `DLSM_GT_VP_RUNNING`, `DLSM_GT_VP_SPINNING`, `DLSM_GT_VP_SLEEPING` -/
inductive Idle where
  | running
  | spinning
  | sleeping
  deriving DecidableEq

def priorityLevels : Nat := 8

def localBurstMax : Nat := 64

def priorityBurst : Nat := 64

def intMax : Nat := 2 ^ 31 - 1

def uint32Max : Nat := 2 ^ 32 - 1

/-- The run queues of each priority. -/
inductive Queue where
  /-- `vp->bound[priority]` -/
  | bound (v priority : Nat)
  /-- `vp->local[priority]` -/
  | loc (v priority : Nat)
  /-- `rt->groups[g].ready[priority]` -/
  | ready (g priority : Nat)
  deriving DecidableEq

/-- The loop of `vp_try_next` that tries a priority: by aging, or in order. -/
inductive Pos where
  | aging (offset : Nat)
  | main (priority : Nat)
  deriving DecidableEq

/-- The next access of `vp_try_priority`. -/
inductive Probe where
  | boundUnless
  | localUnless
  | ready
  | localAgain
  | bound
  | loc
  | nvp
  | steal (nvp offset : Nat)
  deriving DecidableEq

/-- Where the scheduler loop of a VP stands; `second` is the scan after
`SPINNING` was published. -/
inductive VPc where
  /-- The thread has not been created. -/
  | off
  /-- At the entry of `vp_try_next`. -/
  | tryNext (second : Bool)
  | scan (second : Bool) (avoid : Option Nat) (pos : Pos) (probe : Probe)
  /-- `vp_try_next` took `t` from a queue. -/
  | popped (t : Nat)
  /-- At `vp_mark_running`, to run `t`. -/
  | mark (t : Nat)
  /-- At `runtime_is_shutdown`. -/
  | check (second : Bool)
  /-- At `dlsm_gt_vp_idle_spin`. -/
  | spin
  /-- In its loop, `SPINNING` published. -/
  | spinning
  /-- At `pthread_mutex_lock` in `dlsm_gt_vp_idle_sleep`. -/
  | sleepLock
  | sleepLoad
  | sleepStore
  /-- At `while (idle->state == SLEEPING)`, with the mutex. -/
  | sleepLoop
  /-- In `pthread_cond_wait`. -/
  | blocked
  | run (t : Nat)
  /-- Switched back from `t` with a transition to make. -/
  | switch (t : Nat) (tr : Transition)
  /-- At `vp_mark_running`, to exit. -/
  | exitMark
  | exited
  deriving DecidableEq

/-- The threads that execute calls. -/
inductive Actor where
  | vp (v : Nat)
  | ext (x : Nat)
  deriving DecidableEq

/-- Whom a producer wakes after a push. -/
inductive Wake where
  /-- `dlsm_gt_vp_idle_wake` of one VP. -/
  | vp (v : Nat)
  /-- `wake_group_vp` -/
  | group (g : Nat) (exclude : Option Nat)
  deriving DecidableEq

/-- The push a wake belongs to: the task and how many times it was pushed. -/
abbrev Tag := Option (Nat × Nat)

/-- The operations calls are made of. In `wake_group_vp`, `second` is the pass
for `SLEEPING`, `n` is the number of VPs read and `i` the VP visited. -/
inductive Op where
  /-- `task_make_ready` of a task just accepted, under its lock. -/
  | ready (t : Nat) (q : Queue) (w : Wake)
  | unlockTask (t : Nat)
  /-- `dlsm_gt_unpark`, to the read of `rt->state`. -/
  | unpark (t : Nat)
  | unparkSection (t : Nat) (stopped : Bool)
  /-- `dlsm_gt_vp_idle_wake` -/
  | wake (v : Nat) (tag : Tag)
  /-- Its section under the mutex. -/
  | wakeSection (v : Nat) (tag : Tag)
  /-- A pass of `wake_group_vp`, at the read of `rt->nvp`. -/
  | groupLoad (second : Bool) (g : Nat) (exclude : Option Nat) (tag : Tag)
  | groupScan (second : Bool) (n i g : Nat) (exclude : Option Nat) (tag : Tag)
  /-- `dlsm_gt_vp_idle_wake` of the candidate `i`. -/
  | groupWake (second : Bool) (n i g : Nat) (exclude : Option Nat) (tag : Tag)
  | groupSection (second : Bool) (n i g : Nat) (exclude : Option Nat) (tag : Tag)
  /-- `wake_all_vps` -/
  | wakeAll
  | allWake (n i : Nat)
  | allSection (n i : Nat)
  /-- `dlsm_gt_start`; `run` if `dlsm_gt_run` called it. -/
  | start (run : Bool)
  /-- The loop of `dlsm_gt_start` that creates VP `i`. -/
  | startVp (n i : Nat) (run : Bool)
  /-- `dlsm_gt_runtime_add_vp` with the lock, before the thread is created. -/
  | addCreate (v g : Nat)
  | addPublish (v g : Nat)
  | unlockRt
  /-- `dlsm_gt_wait` -/
  | wait
  | join (n i : Nat)
  | waitEnd
  deriving DecidableEq

structure State where
  rtState : RtState
  /-- The thread that holds `rt->lock` between steps. -/
  rtLock : Option Actor
  live : Nat
  shutdown : Bool
  stopRequested : Bool
  autoStop : Bool
  nvp : Nat
  startedVps : Nat
  ngroups : Nat
  groupNvp : Nat → Nat
  -- the VPs
  group : Nat → Nat
  pc : Nat → VPc
  idle : Nat → Idle
  /-- `idle.mutex` is held. -/
  mutex : Nat → Bool
  localBurst : Nat → Nat → Nat
  priorityDispatches : Nat → Nat
  agingCursor : Nat → Nat
  lastYielded : Nat → Option Nat
  -- the tasks
  state : Nat → TaskState
  lock : Nat → Bool
  priority : Nat → Nat
  groupId : Nat → Nat
  vpId : Nat → Option Nat
  lastVpId : Nat → Option Nat
  unparkPending : Nat → Bool
  queue : Queue → List Nat
  ops : Actor → List Op
  -- what happened
  pushes : Nat → Nat
  completions : Nat → Nat
  accepted : List Nat
  /-- `dlsm_gt_start` returned `DLSM_OK`. -/
  started : Bool
  /-- `dlsm_gt_wait` returned `DLSM_OK`. -/
  joined : Bool

/-- `dlsm_gt_runtime_new_ex` with VPs in the given groups. -/
def State.initial (groups : List Nat) : State where
  rtState := .created
  rtLock := none
  live := 0
  shutdown := false
  stopRequested := false
  autoStop := false
  nvp := groups.length
  startedVps := 0
  ngroups := groups.length
  groupNvp := fun g => groups.count g
  group := fun v => groups.getD v 0
  pc := fun _ => .off
  idle := fun _ => .running
  mutex := fun _ => false
  localBurst := fun _ _ => 0
  priorityDispatches := fun _ => 0
  agingCursor := fun _ => 1
  lastYielded := fun _ => none
  state := fun _ => .none
  lock := fun _ => false
  priority := fun _ => 0
  groupId := fun _ => 0
  vpId := fun _ => none
  lastVpId := fun _ => none
  unparkPending := fun _ => false
  queue := fun _ => []
  ops := fun _ => []
  pushes := fun _ => 0
  completions := fun _ => 0
  accepted := []
  started := false
  joined := false

/-! ## Run queues -/

def Queue.priority : Queue → Nat
  | .bound _ p | .loc _ p | .ready _ p => p

/-- `task_make_ready`; `t->lock` is taken before it and stays taken. -/
def taskMakeReady (s : State) (t : Nat) (q : Queue) : State :=
  { s with
    state := Function.update s.state t .ready
    lock := Function.update s.lock t true
    queue := Function.update s.queue q (s.queue q ++ [t])
    pushes := Function.update s.pushes t (s.pushes t + 1) }

/-- `queue_pop` -/
def queuePop (l : List Nat) : Option (Nat × List Nat) :=
  match l with
  | [] => none
  | t :: l => some (t, l)

/-- `queue_pop_unless` -/
def queuePopUnless (l : List Nat) (avoid : Option Nat) : Option (Nat × List Nat) :=
  match l with
  | [] => none
  | t :: l => if some t = avoid then none else some (t, l)

/-- `queue_steal_surplus` -/
def queueStealSurplus (l : List Nat) : Option (Nat × List Nat) :=
  match l with
  | t :: u :: l => some (t, u :: l)
  | _ => none

/-! ## The scheduler loop of a VP -/

def setPc (s : State) (v : Nat) (pc : VPc) : State := { s with pc := Function.update s.pc v pc }

/-- The priority tried at a position. -/
def Pos.priority (cursor : Nat) : Pos → Nat
  | .aging offset => 1 + (cursor - 1 + offset) % (priorityLevels - 1)
  | .main priority => priority

/-- The position after a priority without a task. -/
def Pos.next : Pos → Pos
  | .aging offset => if offset + 1 < priorityLevels - 1 then .aging (offset + 1) else .main 0
  | .main priority => .main (priority + 1)

/-- VP `v` took `t` from `q`, which leaves `l`: the counters that
`vp_try_next` keeps are its own. -/
def take (s : State) (v : Nat) (pos : Pos) (q : Queue) (t : Nat) (l : List Nat) (burst : Nat) : State :=
  let p := pos.priority (s.agingCursor v)
  { s with
    queue := Function.update s.queue q l
    localBurst := Function.update s.localBurst v (Function.update (s.localBurst v) p burst)
    agingCursor := match pos with
      | .aging _ => Function.update s.agingCursor v (if priorityLevels ≤ p + 1 then 1 else p + 1)
      | .main _ => s.agingCursor
    priorityDispatches := Function.update s.priorityDispatches v (match pos with
      | .aging _ => 0
      | .main _ => if s.priorityDispatches v < uint32Max then s.priorityDispatches v + 1 else s.priorityDispatches v)
    pc := Function.update s.pc v (.popped t) }

/-- One access of `vp_try_priority`: what it takes, from which queue, and
`local_burst` after it; or where the scan goes on. -/
def probe (s : State) (v : Nat) (avoid : Option Nat) (pos : Pos) :
    Probe → (Queue × Option (Nat × List Nat) × Nat) × (Pos × Probe) :=
  let p := pos.priority (s.agingCursor v)
  let burst := s.localBurst v p
  fun
  | .boundUnless => ((.bound v p, queuePopUnless (s.queue (.bound v p)) avoid, burst), (pos, .localUnless))
  | .localUnless =>
    ((.loc v p, if burst < localBurstMax then queuePopUnless (s.queue (.loc v p)) avoid else none, burst + 1),
      (pos, .ready))
  | .ready => ((.ready (s.group v) p, queuePop (s.queue (.ready (s.group v) p)), 0), (pos, .localAgain))
  | .localAgain => ((.loc v p, queuePopUnless (s.queue (.loc v p)) avoid, 1), (pos, .bound))
  | .bound => ((.bound v p, queuePop (s.queue (.bound v p)), burst), (pos, .loc))
  | .loc => ((.loc v p, queuePop (s.queue (.loc v p)), 1), (pos, .nvp))
  | .nvp => ((.loc v p, none, burst), (pos, .steal s.nvp 1))
  | .steal n offset =>
    let victim := (v + offset) % n
    ((.loc victim p,
        if offset < n ∧ s.group victim = s.group v then queueStealSurplus (s.queue (.loc victim p)) else none, burst),
      if offset + 1 < n then (pos, .steal n (offset + 1)) else (pos.next, .boundUnless))

/-- A step of the scan; it ends without a task after the last priority. -/
def scanStep (s : State) (v : Nat) (second : Bool) (avoid : Option Nat) (pos : Pos) (pr : Probe) : State :=
  if pos = .main priorityLevels then setPc s v (.check second)
  else
    match probe s v avoid pos pr with
    | ((q, some (t, l), burst), _) => take s v pos q t l burst
    | ((_, none, _), (pos, pr)) => setPc s v (.scan second avoid pos pr)

/-- The queue a VP returns its task to in `rt_enqueue` and `rt_park`. -/
def ownQueue (s : State) (v t : Nat) : Queue :=
  match s.vpId t with
  | none => .loc v (s.priority t)
  | some w => .bound w (s.priority t)

/-- `rt_enqueue` -/
def rtEnqueue (s : State) (v t : Nat) : State × List Op :=
  (setPc (taskMakeReady { s with lastYielded := Function.update s.lastYielded v (some t) } t (ownQueue s v t))
    v (.tryNext false), [.unlockTask t])

/-- `rt_park` -/
def rtPark (s : State) (v t : Nat) : State × List Op :=
  if s.unparkPending t = true then
    (setPc (taskMakeReady { s with unparkPending := Function.update s.unparkPending t false } t (ownQueue s v t))
      v (.tryNext false), [.unlockTask t])
  else (setPc { s with state := Function.update s.state t .parked } v (.tryNext false), [])

/-- `rt_task_done`: its section under the locks of the task and the runtime,
which readers of either cannot tell apart, then the wakeups of the tasks that
wait for `t` and, if this was the last task, of all VPs. -/
def rtTaskDone (s : State) (v t : Nat) (waiters : List Nat) : State × List Op :=
  let completed := s.live - 1 = 0 ∧ (s.stopRequested = true ∨ s.autoStop = true)
  (setPc { s with
      state := Function.update s.state t .finished
      completions := Function.update s.completions t (s.completions t + 1)
      live := s.live - 1
      shutdown := if completed then true else s.shutdown
      rtState := if completed ∧ s.rtState = .running then .stopping else s.rtState } v (.tryNext false),
    waiters.map .unpark ++ if completed then [.wakeAll] else [])

/-- A step of the scheduler loop of VP `v` (`sched_next`, `vp_main`), and the
operations it continues with; `waiters` are the tasks that wait for the one
that finishes. -/
def vpStep (s : State) (v : Nat) (waiters : List Nat) : Option (State × List Op) :=
  match s.pc v with
  | .off | .run _ | .exited => none
  | .tryNext second =>
    some (setPc { s with lastYielded := Function.update s.lastYielded v none } v
      (.scan second (s.lastYielded v)
        (if priorityBurst ≤ s.priorityDispatches v then .aging 0 else .main 0) .boundUnless), [])
  | .scan second avoid pos pr => some (scanStep s v second avoid pos pr, [])
  | .popped t =>
    if s.lock t = true then none
    else
      some (setPc { s with
        state := Function.update s.state t .running
        lastVpId := Function.update s.lastVpId t (some v) } v (.mark t), [])
  | .mark t => some (setPc { s with idle := Function.update s.idle v .running } v (.run t), [])
  | .check second =>
    if s.rtLock ≠ none then none
    else if s.shutdown = true then some (setPc s v (if second then .exitMark else .exited), [])
    else some (setPc s v (if second then .sleepLock else .spin), [])
  | .spin => some (setPc { s with idle := Function.update s.idle v .spinning } v .spinning, [])
  | .spinning => some (setPc s v (.tryNext true), [])
  | .sleepLock =>
    if s.mutex v = true then none
    else some (setPc { s with mutex := Function.update s.mutex v true } v .sleepLoad, [])
  | .sleepLoad =>
    if s.idle v = .spinning then some (setPc s v .sleepStore, [])
    else some (setPc { s with mutex := Function.update s.mutex v false } v (.tryNext false), [])
  | .sleepStore => some (setPc { s with idle := Function.update s.idle v .sleeping } v .sleepLoop, [])
  | .sleepLoop =>
    some (setPc { s with mutex := Function.update s.mutex v false } v
      (if s.idle v = .sleeping then .blocked else .tryNext false), [])
  | .blocked =>
    if s.mutex v = true then none
    else some (setPc { s with mutex := Function.update s.mutex v true } v .sleepLoop, [])
  | .switch t tr =>
    if s.lock t = true then none
    else
      match tr with
      | .yield => some (rtEnqueue s v t)
      | .park => some (rtPark s v t)
      | .finish => if s.rtLock ≠ none then none else some (rtTaskDone s v t waiters)
  | .exitMark => some (setPc { s with idle := Function.update s.idle v .running } v .exited, [])

/-! ## Wakeups -/

def setIdle (s : State) (v : Nat) (i : Idle) : State := { s with idle := Function.update s.idle v i }

/-- The first compare-exchange of `dlsm_gt_vp_idle_wake`: it succeeded, the
state was `RUNNING`, or the state was `SLEEPING`. -/
def idleWake (s : State) (v : Nat) (woken none asleep : List Op) : State × List Op :=
  match s.idle v with
  | .spinning => (setIdle s v .running, woken)
  | .running => (s, none)
  | .sleeping => (s, asleep)

/-- The section of `dlsm_gt_vp_idle_wake` under the mutex. -/
def idleWakeSection (s : State) (v : Nat) (woken none : List Op) : Option (State × List Op) :=
  if s.mutex v = true then .none
  else if s.idle v = .sleeping then some (setIdle s v .running, woken)
  else some (s, none)

/-- The wake of a producer, for the push `tag`. -/
def Wake.op (w : Wake) (tag : Tag) : Op :=
  match w with
  | .vp v => .wake v tag
  | .group g exclude => .groupLoad false g exclude tag

/-- `task_make_ready` by a producer, and what it continues with. -/
def makeReady (s : State) (t : Nat) (q : Queue) (w : Wake) : State × List Op :=
  (taskMakeReady s t q, [.unlockTask t, w.op (some (t, s.pushes t + 1))])

/-- The queue `dlsm_gt_unpark` returns a parked task to, and whom it wakes. -/
def unparkTarget (s : State) (t : Nat) : Queue × Wake :=
  match s.vpId t, s.lastVpId t with
  | some w, _ => (.bound w (s.priority t), .vp w)
  | none, some l => (.loc l (s.priority t), .vp l)
  | none, none => (.ready (s.groupId t) (s.priority t), .group (s.groupId t) none)

/-- The section of `dlsm_gt_unpark` under `t->lock`. -/
def unparkSection (s : State) (t : Nat) (stopped : Bool) : Option (State × List Op) :=
  if s.lock t = true then none
  else if s.state t = .finished ∨ stopped = true then some (s, [])
  else if s.state t = .parked then some (makeReady s t (unparkTarget s t).1 (unparkTarget s t).2)
  else some ({ s with unparkPending := Function.update s.unparkPending t true }, [])

/-- The state `wake_group_vp` looks for in its first and its second pass. -/
def desired (second : Bool) : Idle := if second then .sleeping else .spinning

/-- Visit candidate `i` of a pass of `wake_group_vp`. -/
def groupScan (s : State) (second : Bool) (n i g : Nat) (exclude : Option Nat) (tag : Tag) : List Op :=
  if n ≤ i then (if second then [] else [.groupLoad true g exclude tag])
  else if some i = exclude ∨ s.group i ≠ g then [.groupScan second n (i + 1) g exclude tag]
  else if s.idle i = desired second then [.groupWake second n i g exclude tag]
  else [.groupScan second n (i + 1) g exclude tag]

/-! ## The life of the runtime -/

/-- `dlsm_gt_start`, to the creation of the VP threads. -/
def gtStart (s : State) (a : Actor) (run : Bool) : Option (State × List Op) :=
  if s.rtLock ≠ none then none
  else if s.rtState ≠ .created then some (s, [])
  else if s.autoStop = true ∧ s.live = 0 then
    some ({ s with stopRequested := true, shutdown := true, rtState := .stopping, started := true },
      if run then [.wait] else [])
  else some ({ s with rtState := .running, rtLock := some a }, [.startVp s.nvp 0 run])

/-- `dlsm_gt_stop` -/
def gtStop (s : State) : Option (State × List Op) :=
  if s.rtLock ≠ none then none
  else if s.rtState = .created then
    some ({ s with stopRequested := true, shutdown := true, rtState := .stopped }, [])
  else if s.rtState ≠ .running then some (s, [])
  else
    some ({ s with
        stopRequested := true
        rtState := .stopping
        shutdown := if s.live = 0 then true else s.shutdown },
      if s.live = 0 then [.wakeAll] else [])

/-- `dlsm_gt_wait`, to the joins. -/
def gtWait (s : State) : Option (State × List Op) :=
  if s.rtLock ≠ none then none
  else if s.rtState = .stopping ∨ s.rtState = .running ∧ s.autoStop = true then
    some ({ s with rtState := .joining }, [.join s.startedVps 0])
  else some (s, [])

/-- `dlsm_gt_run`, to the call of `dlsm_gt_start`. -/
def gtRun (s : State) : Option (State × List Op) :=
  if s.rtLock ≠ none then none
  else if s.rtState ≠ .created then some (s, [])
  else some ({ s with autoStop := true }, [.start true])

/-- New tasks and VPs are accepted in these states of the runtime. -/
def accepts (s : State) : Bool := s.rtState == .created || s.rtState == .running

/-- `dlsm_gt_runtime_add_vp`, to `vp_init`. -/
def runtimeAddVp (s : State) (a : Actor) (g : Nat) : Option (State × List Op) :=
  if s.rtLock ≠ none then none
  else if accepts s = false then some (s, [])
  else if s.ngroups ≤ g ∨ s.groupNvp g = 0 then some (s, [])
  else if s.nvp = intMax then some (s, [])
  else
    some ({ s with
        rtLock := some a
        group := Function.update s.group s.nvp g
        agingCursor := Function.update s.agingCursor s.nvp 1
        idle := Function.update s.idle s.nvp .running },
      if s.rtState = .running then [.addCreate s.nvp g] else [.addPublish s.nvp g])

/-- The group of a task spawned by `a` with `group_id` or `DLSM_GT_GROUP_INHERIT`. -/
def spawnGroup (s : State) (a : Actor) (group : Option Nat) : Nat :=
  match group, a with
  | some g, _ => g
  | none, .vp v => s.group v
  | none, .ext _ => s.group 0

/-- The options of a task are accepted; `g` is the group it is to run in. -/
def optionsOk (s : State) (priority g : Nat) (vpId : Option Nat) : Bool :=
  decide (priority < priorityLevels) && decide (g < s.ngroups) && s.groupNvp g != 0 &&
    match vpId with
    | none => true
    | some w => decide (w < s.nvp) && s.group w == g

/-- The queue `dlsm_gt_spawn_ex` puts a new task in, and whom it wakes. -/
def spawnTarget (s : State) (a : Actor) (priority g : Nat) (vpId : Option Nat) : Queue × Wake :=
  match vpId, a with
  | some w, _ => (.bound w priority, .vp w)
  | none, .vp v =>
    if s.group v = g then (.loc v priority, .group g (some v)) else (.ready g priority, .group g none)
  | none, .ext _ => (.ready g priority, .group g none)

/-- Task `t` is accepted and handed to `dlsm_gt_spawn_ex`. -/
def accept (s : State) (t priority g : Nat) (vpId : Option Nat) : State :=
  { s with
    state := Function.update s.state t .new
    priority := Function.update s.priority t priority
    groupId := Function.update s.groupId t g
    vpId := Function.update s.vpId t vpId
    accepted := s.accepted ++ [t]
    live := s.live + 1 }

/-- `dlsm_gt_spawn_ex` with the options of task `t`, to its acceptance. The
checks of the options depend on counts that only grow, so they are made in the
same step. -/
def gtSpawnEx (s : State) (a : Actor) (t priority : Nat) (group vpId : Option Nat) : Option (State × List Op) :=
  if s.state t ≠ .none ∨ s.rtLock ≠ none then none
  else if optionsOk s priority (spawnGroup s a group) vpId = false ∨ accepts s = false then some (s, [])
  else
    some (accept s t priority (spawnGroup s a group) vpId,
      [.ready t (spawnTarget s a priority (spawnGroup s a group) vpId).1
        (spawnTarget s a priority (spawnGroup s a group) vpId).2])

/-- An operation of a call of `a`, and what is left of it. -/
def execOp (s : State) (a : Actor) : Op → Option (State × List Op)
  | .ready t q w => if s.lock t = true then none else some (makeReady s t q w)
  | .unlockTask t => some ({ s with lock := Function.update s.lock t false }, [])
  | .unpark t => if s.rtLock ≠ none then none else some (s, [.unparkSection t (s.rtState == .stopped)])
  | .unparkSection t stopped => unparkSection s t stopped
  | .wake v tag => some (idleWake s v [] [] [.wakeSection v tag])
  | .wakeSection v _ => idleWakeSection s v [] []
  | .groupLoad second g ex tag => some (s, [.groupScan second s.nvp 0 g ex tag])
  | .groupScan second n i g ex tag => some (s, groupScan s second n i g ex tag)
  | .groupWake second n i g ex tag =>
    some (idleWake s i [] [.groupScan second n (i + 1) g ex tag] [.groupSection second n i g ex tag])
  | .groupSection second n i g ex tag => idleWakeSection s i [] [.groupScan second n (i + 1) g ex tag]
  | .wakeAll => some (s, [.allWake s.nvp 0])
  | .allWake n i =>
    if n ≤ i then some (s, []) else some (idleWake s i [.allWake n (i + 1)] [.allWake n (i + 1)] [.allSection n i])
  | .allSection n i => idleWakeSection s i [.allWake n (i + 1)] [.allWake n (i + 1)]
  | .start run => gtStart s a run
  | .startVp n i run =>
    if i < n then
      some (setPc { s with startedVps := s.startedVps + 1 } i (.tryNext false), [.startVp n (i + 1) run])
    else some ({ s with rtLock := none, started := true }, if run then [.wait] else [])
  | .addCreate v g => some (setPc s v (.tryNext false), [.addPublish v g])
  | .addPublish v g =>
    let s' := { s with groupNvp := Function.update s.groupNvp g (s.groupNvp g + 1), nvp := v + 1 }
    if s.rtState = .running then
      some ({ s' with startedVps := s.startedVps + 1 }, [.wake v none, .unlockRt])
    else some (s', [.unlockRt])
  | .unlockRt => some ({ s with rtLock := none }, [])
  | .wait => gtWait s
  | .join n i =>
    if n ≤ i then some (s, [.waitEnd]) else if s.pc i = .exited then some (s, [.join n (i + 1)]) else none
  | .waitEnd => if s.rtLock ≠ none then none else some ({ s with rtState := .stopped, joined := true }, [])

/-! ## Steps -/

/-- What threads do. -/
inductive Act where
  | spawn (a : Actor) (t priority : Nat) (group vpId : Option Nat)
  | unpark (a : Actor) (t : Nat)
  | stop (a : Actor)
  | addVp (a : Actor) (g : Nat)
  | start (x : Nat)
  | run (x : Nat)
  | wait (x : Nat)
  /-- The task on VP `v` yields, parks or returns from its entry function, in
  the last case with no destructor that yields. -/
  | leave (v : Nat) (tr : Transition)
  /-- The next operation of a call. -/
  | op (a : Actor)
  /-- The next step of a scheduler loop. -/
  | vp (v : Nat) (waiters : List Nat)
  deriving DecidableEq

def setOps (s : State) (a : Actor) (l : List Op) : State := { s with ops := Function.update s.ops a l }

/-- A thread between two calls: an external one, or a VP that runs a task. -/
def canCall (s : State) (a : Actor) : Bool :=
  s.ops a == [] && match a with
    | .ext _ => true
    | .vp v => match s.pc v with
      | .run _ => true
      | _ => false

/-- The call `f` by thread `a`. -/
def call (s : State) (a : Actor) (f : Option (State × List Op)) : Option State :=
  if canCall s a then f.map fun r => setOps r.1 a r.2 else none

def step (s : State) : Act → Option State
  | .spawn a t p g w => call s a (gtSpawnEx s a t p g w)
  | .unpark a t => if s.state t = .none ∨ s.state t = .new then none else call s a (some (s, [.unpark t]))
  | .stop a => call s a (gtStop s)
  | .addVp a g => call s a (runtimeAddVp s a g)
  | .start x => call s (.ext x) (some (s, [.start false]))
  | .run x => call s (.ext x) (gtRun s)
  | .wait x => call s (.ext x) (some (s, [.wait]))
  | .leave v tr =>
    match s.ops (.vp v), s.pc v with
    | [], .run t => some (setPc s v (.switch t tr))
    | _, _ => none
  | .op a =>
    match s.ops a with
    | [] => none
    | o :: l => (execOp s a o).map fun r => setOps r.1 a (r.2 ++ l)
  | .vp v waiters =>
    if s.ops (.vp v) = [] ∧ ∀ w ∈ waiters, s.state w ≠ .none ∧ s.state w ≠ .new then
      (vpStep s v waiters).map fun r => setOps r.1 (.vp v) r.2
    else none

/-- A runtime of at least one VP, each in a group below their number. -/
def machine : Machine State Act where
  init := fun s => ∃ groups : List Nat, groups ≠ [] ∧ (∀ g ∈ groups, g < groups.length) ∧ s = State.initial groups
  step := step

end Dlsmc.Runtime
