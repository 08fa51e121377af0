import Mathlib.Algebra.Group.Nat.Defs
import Mathlib.Logic.Function.Basic
import Dlsmc.Framework.Machine

/-!
# Wakers and the reclamation of tasks (`greenthread.c`, `gt_mutex.c`, `gt_wait.c`)

Tasks of one runtime from their spawn to the `free` of their control block, and
the code that wakes them: the timer thread, the threads of the blocking pool
and any number of callers of `dlsm_gt_mutex_unlock`, `dlsm_gt_semaphore_post`
and `dlsm_gt_condition_signal`. Each of these first publishes what the task
waits for (`TIMER_EXPIRED`, `job->done`, `granted`) and calls `dlsm_gt_unpark`
in a later step.

A control block is never used for a second task here: reclaimed memory that is
touched again is a fault, whatever it holds. Of a sync object only the queue of
its waiters is kept; which VP runs a ready task, and when, is left open, and so
is which timer expires.

Two further wakers are left out, and with them what tasks wait for there:
`rt_task_done`, which unparks the tasks in `dlsm_gt_task_wait` after it set
`completion_done`, and `timer_main` once the runtime stops, which unparks the
tasks of the timers it cancels.
-/

namespace Dlsmc.Reclaim

/-- `t->state`. -/
inductive TaskState where
  | new
  | ready
  | running
  | parked
  | finished
  deriving DecidableEq

/-- Where the code of a task stands. -/
inductive Place where
  | user
  /-- `dlsm_gt_blocking_call`: at `while (!job.done)`. -/
  | blocking
  /-- `dlsm_gt_mutex_lock`, `dlsm_gt_semaphore_wait`, `dlsm_gt_condition_wait`
  on object `o`: at `while (!waiter.granted)`. -/
  | sync (o : Nat)
  /-- `dlsm_gt_mutex_timedlock`, `dlsm_gt_condition_timedwait`: before `park_until`. -/
  | timed (o : Nat)
  /-- `dlsm_gt_sleep_until`, with its timer registered; called by user code or
  as the `park_until` of a timed wait on `o`. -/
  | sleep (o : Option Nat)
  /-- A timed wait, `park_until` returned with `DLSM_OK` or not. -/
  | check (o : Nat) (ok : Bool)
  deriving DecidableEq

/-- The state of a task's timer node. -/
inductive Timer where
  | none
  | waiting
  | expired
  deriving DecidableEq

/-- The threads and calls that wake tasks. -/
inductive Waker where
  /-- `timer_main` -/
  | timer
  /-- `blocking_main` of thread `i` of the pool. -/
  | blocking (i : Nat)
  /-- A call that grants a sync object. -/
  | caller (i : Nat)
  deriving DecidableEq

inductive WakerPc where
  | idle
  /-- `blocking_main` executes the job of task `t`. -/
  | job (t : Nat)
  /-- About to execute `dlsm_gt_unpark(t)`. -/
  | unpark (t : Nat)
  deriving DecidableEq

structure State where
  state : Nat → TaskState
  place : Nat → Place
  /-- The task has switched to its VP with `TR_PARK`, and `rt_park` has not run yet. -/
  switching : Nat → Bool
  unparkPending : Nat → Bool
  /-- `job.done` or `waiter.granted` of the wait the task is in. -/
  released : Nat → Bool
  timer : Nat → Timer
  externalRefs : Nat → Nat
  executionReleased : Nat → Bool
  /-- The control block has been unlinked and freed. -/
  reclaimed : Nat → Bool
  /-- `rt->blocking_head`, the tasks of the jobs not started. -/
  jobs : List Nat
  /-- The waiters of each sync object. -/
  queue : Nat → List Nat
  /-- The wakers of this runtime. -/
  wakers : List Waker
  waker : Waker → WakerPc

/-- A runtime without tasks. -/
def State.initial (wakers : List Waker) : State where
  state := fun _ => .new
  place := fun _ => .user
  switching := fun _ => false
  unparkPending := fun _ => false
  released := fun _ => false
  timer := fun _ => .none
  externalRefs := fun _ => 0
  executionReleased := fun _ => false
  reclaimed := fun _ => false
  jobs := []
  queue := fun _ => []
  wakers := wakers
  waker := fun _ => .idle

inductive Act where
  /-- `dlsm_gt_spawn_ex`; `dlsm_gt_spawn_detached` is this and `release`. -/
  | spawn (t : Nat)
  | retain (t : Nat)
  | release (t : Nat)
  /-- A VP takes the task from a queue and switches to it. -/
  | dispatch (t : Nat)
  | yield (t : Nat)
  /-- `rt_park` -/
  | park (t : Nat)
  /-- The entry function returned: `rt_task_done`. -/
  | taskDone (t : Nat)
  | executionReleased (t : Nat)
  | blockingCall (t : Nat)
  /-- A wait on `o` that does not find it free. -/
  | syncWait (t o : Nat) (timed : Bool)
  /-- A wait reads `job.done` or `granted` and parks if it is 0. -/
  | poll (t : Nat)
  /-- `dlsm_gt_sleep_until`; `register` is whether it registers a timer, `ok`
  the status of `park_until` if it does not. -/
  | sleepUntil (t : Nat) (register ok : Bool)
  /-- `timer_wait_finish`; `cancelled` is what `dlsm_gt_cancelled` returns. -/
  | waitFinish (t : Nat) (cancelled : Bool)
  /-- The section of a timed wait under `qlock` after `park_until`. -/
  | check (t : Nat)
  /-- `blocking_main` takes the first job. -/
  | take (i : Nat)
  /-- `blocking_main` stores `job->done`. -/
  | jobDone (i : Nat)
  /-- `timer_main` marks the timer of `t` expired. -/
  | expire (t : Nat)
  /-- A call grants `o` to its first waiter. -/
  | grant (i o : Nat)
  /-- `dlsm_gt_unpark` -/
  | unpark (w : Waker)
  deriving DecidableEq

/-- The task runs on a VP. -/
def runs (s : State) (t : Nat) : Bool := s.state t == .running && !s.switching t

def uint32Max : Nat := 2 ^ 32 - 1

/-- `dlsm_gt_task_retain`, by a holder of a reference or by the task itself. -/
def taskRetain (s : State) (t : Nat) : Option State :=
  if s.externalRefs t = 0 ∧ runs s t = false then none
  else if s.externalRefs t = uint32Max then some s
  else some { s with externalRefs := Function.update s.externalRefs t (s.externalRefs t + 1) }

/-- `dlsm_gt_task_release`, by a holder of a reference. -/
def taskRelease (s : State) (t : Nat) : Option State :=
  if s.externalRefs t = 0 then none
  else
    let refs := s.externalRefs t - 1
    some { s with
      externalRefs := Function.update s.externalRefs t refs
      reclaimed := if refs = 0 ∧ s.state t = .finished ∧ s.executionReleased t = true then
        Function.update s.reclaimed t true else s.reclaimed }

/-- `task_execution_released`, and the `free` that follows it in `vp_main`. -/
def taskExecutionReleased (s : State) (t : Nat) : State :=
  { s with
    executionReleased := Function.update s.executionReleased t true
    reclaimed := if s.externalRefs t = 0 then Function.update s.reclaimed t true else s.reclaimed }

def setPlace (s : State) (t : Nat) (p : Place) : State := { s with place := Function.update s.place t p }

/-- `dlsm_gt_park`, to the switch to the VP. -/
def parkSwitch (s : State) (t : Nat) : State := { s with switching := Function.update s.switching t true }

/-- `rt_park` -/
def rtPark (s : State) (t : Nat) : State :=
  if s.unparkPending t = true then
    { s with
      switching := Function.update s.switching t false
      unparkPending := Function.update s.unparkPending t false
      state := Function.update s.state t .ready }
  else
    { s with
      switching := Function.update s.switching t false
      state := Function.update s.state t .parked }

/-- `dlsm_gt_unpark(t)` -/
def gtUnpark (s : State) (t : Nat) : State :=
  if s.state t = .finished then s
  else if s.state t = .parked then { s with state := Function.update s.state t .ready }
  else { s with unparkPending := Function.update s.unparkPending t true }

def setWaker (s : State) (w : Waker) (pc : WakerPc) : State := { s with waker := Function.update s.waker w pc }

/-- One turn of a loop `while (!job.done)` or `while (!waiter.granted)`. -/
def poll (s : State) (t : Nat) : State :=
  if s.released t = true then setPlace s t .user else parkSwitch s t

/-- `dlsm_gt_sleep_until`. After its timer is registered the task switches to
its VP. -/
def sleepUntil (s : State) (t : Nat) (register ok : Bool) (o : Option Nat) : State :=
  if register = true then
    parkSwitch (setPlace { s with timer := Function.update s.timer t .waiting } t (.sleep o)) t
  else
    match o with
    | none => s
    | some o => setPlace s t (.check o ok)

/-- `timer_wait_finish`, and the status `park_until` makes of it. -/
def waitFinish (s : State) (t : Nat) (cancelled : Bool) (o : Option Nat) : State :=
  let s' := { s with timer := Function.update s.timer t .none }
  match o with
  | none => setPlace s' t .user
  | some o => setPlace s' t (.check o (s.timer t != .expired && !cancelled))

/-- The section after `park_until` of a timed wait on `o`. -/
def check (s : State) (t o : Nat) (ok : Bool) : State :=
  if s.released t = true then setPlace s t .user
  else if ok = false then
    setPlace { s with queue := Function.update s.queue o ((s.queue o).erase t) } t .user
  else setPlace s t (.timed o)

def step (s : State) : Act → Option State
  | .spawn t =>
    if s.state t = .new then
      some { s with
        state := Function.update s.state t .ready
        externalRefs := Function.update s.externalRefs t 1 }
    else none
  | .retain t => taskRetain s t
  | .release t => taskRelease s t
  | .dispatch t =>
    if s.state t = .ready then some { s with state := Function.update s.state t .running } else none
  | .yield t => if runs s t then some { s with state := Function.update s.state t .ready } else none
  | .park t => if s.state t = .running ∧ s.switching t = true then some (rtPark s t) else none
  | .taskDone t =>
    if runs s t = true ∧ s.place t = .user then some { s with state := Function.update s.state t .finished }
    else none
  | .executionReleased t =>
    if s.state t = .finished ∧ s.executionReleased t = false then some (taskExecutionReleased s t) else none
  | .blockingCall t =>
    if runs s t = true ∧ s.place t = .user then
      some (setPlace { s with jobs := s.jobs ++ [t], released := Function.update s.released t false } t .blocking)
    else none
  | .syncWait t o timed =>
    if runs s t = true ∧ s.place t = .user then
      some (setPlace { s with
        queue := Function.update s.queue o (s.queue o ++ [t])
        released := Function.update s.released t false } t (if timed then .timed o else .sync o))
    else none
  | .poll t =>
    if runs s t = true then
      match s.place t with
      | .blocking | .sync _ => some (poll s t)
      | _ => none
    else none
  | .sleepUntil t register ok =>
    if runs s t = true then
      match s.place t with
      | .user => some (sleepUntil s t register ok none)
      | .timed o => some (sleepUntil s t register ok (some o))
      | _ => none
    else none
  | .waitFinish t cancelled =>
    if runs s t = true then
      match s.place t with
      | .sleep o => some (waitFinish s t cancelled o)
      | _ => none
    else none
  | .check t =>
    if runs s t = true then
      match s.place t with
      | .check o ok => some (check s t o ok)
      | _ => none
    else none
  | .take i =>
    match s.jobs with
    | [] => none
    | t :: jobs =>
      if Waker.blocking i ∈ s.wakers ∧ s.waker (.blocking i) = .idle then
        some (setWaker { s with jobs := jobs } (.blocking i) (.job t))
      else none
  | .jobDone i =>
    match s.waker (.blocking i) with
    | .job t => some (setWaker { s with released := Function.update s.released t true } (.blocking i) (.unpark t))
    | _ => none
  | .expire t =>
    if Waker.timer ∈ s.wakers ∧ s.waker .timer = .idle ∧ s.timer t = .waiting then
      some (setWaker { s with timer := Function.update s.timer t .expired } .timer (.unpark t))
    else none
  | .grant i o =>
    match s.queue o with
    | [] => none
    | t :: queue =>
      if Waker.caller i ∈ s.wakers ∧ s.waker (.caller i) = .idle then
        some (setWaker { s with
          queue := Function.update s.queue o queue
          released := Function.update s.released t true } (.caller i) (.unpark t))
      else none
  | .unpark w =>
    match s.waker w with
    | .unpark t => some (setWaker (gtUnpark s t) w .idle)
    | _ => none

/-- Any number of tasks and wakers. -/
def machine : Machine State Act where
  init := fun s => ∃ wakers, s = State.initial wakers
  step := step

/-- No waker is about to unpark `t`. -/
def quiet (s : State) (t : Nat) : Bool := s.wakers.all fun w => s.waker w != .unpark t

/-- A reference to `t` is held, or no waker is about to unpark it. -/
def safeToLeave (s : State) (t : Nat) : Bool := decide (0 < s.externalRefs t) || quiet s t

/-- A task returns from its wait, and loses its last reference outside a wait,
only when no waker is about to unpark it. -/
def settled (s : State) : Act → Bool
  | .poll t => !s.released t || safeToLeave s t
  | .waitFinish t _ => s.place t != .sleep none || safeToLeave s t
  | .check t =>
    match s.place t with
    | .check _ ok => (!s.released t && ok) || safeToLeave s t
    | _ => true
  | .release t => decide (s.externalRefs t ≠ 1) || s.place t != .user || quiet s t
  | _ => true

/-- No waker is about to unpark a task that was reclaimed. -/
def NoStaleWakeup (s : State) : Prop := ∀ w t, s.waker w = .unpark t → s.reclaimed t = false

end Dlsmc.Reclaim
