import Mathlib.Algebra.Group.Nat.Defs
import Dlsmc.Framework.Machine
import Dlsmc.Framework.IndexedHeap

/-!
# Timers and what tasks wait for (`greenthread.c`, `gt_mutex.c`, `gt_wait.c`)

The timer heap of a runtime with its thread (`timer_main`), and the calls with
which tasks wait: `dlsm_gt_sleep_until`, `dlsm_gt_ticker_wait`,
`dlsm_gt_task_wait`, the locks, semaphores and events of the sync library and
`dlsm_gt_blocking_call`, together with everything that ends a wait (expiry,
`dlsm_gt_task_cancel`, the reset and the stop of a ticker, grants,
`dlsm_gt_unpark`).

A section under a lock is one step, except that `dlsm_gt_ticker_reset` and
`dlsm_gt_ticker_stop` hold the mutex of the ticker over several. A task is
parked (`Pc.parked`) or not; between `dlsm_gt_park` and `rt_park`, in a run
queue and while it runs an unpark leaves a token (`unparkPending`). How VPs run
tasks is in `Dlsmc.Greenthread.Runtime`, and the statistics of lateness are
left out.

`serial`, `outcomes`, `owed` and `log` record what happened; no step reads
them.
-/

namespace Dlsmc.Timer

def UINT64_MAX : Nat := 2 ^ 64 - 1

def SIZE_MAX : Nat := 2 ^ 64 - 1

inductive TimerState where
  | waiting
  | expired
  | cancelled
  deriving DecidableEq

inductive Status where
  | ok
  | inval
  | state
  | nomem
  | wait
  | cancelled
  /-- `DLSM_SYNC_E_TIMEOUT` -/
  | timeout
  deriving DecidableEq

/-- The thread that executes calls: the timer thread, a task, or another one. -/
inductive Actor where
  | timer
  | task (t : Nat)
  | ext (x : Nat)
  deriving DecidableEq

/-- What tasks wait at in the sync library, and the queue of the blocking pool. -/
inductive Obj where
  | mutex (i : Nat)
  | semaphore (i : Nat)
  | event (i : Nat)
  | jobs
  deriving DecidableEq

/-- Who called `dlsm_gt_sleep_until`: user code, or `park_until` in
`dlsm_gt_mutex_timedlock`. `dlsm_gt_condition_timedwait`, the other caller of
`park_until`, is not modelled here. -/
inductive Caller where
  | user
  | timedlock (i : Nat)
  deriving DecidableEq

/-- What a task waits for with a timer: in `dlsm_gt_sleep_until`, or in
`dlsm_gt_ticker_wait` with the deadline and the generation it has read. -/
inductive Wait where
  | sleep (d : Nat) (c : Caller)
  | tick (k d g : Nat)
  deriving DecidableEq

def Wait.deadline : Wait → Nat
  | .sleep d _ => d
  | .tick _ d _ => d

/-- Why a task parks. -/
inductive Block where
  | timer (n : Nat) (w : Wait)
  | sync (o : Obj)
  /-- In `dlsm_gt_task_wait`. -/
  | done (u : Nat)
  deriving DecidableEq

/-- Where a thread goes on after `timer_cancel_task_wait`, or after its unparks. -/
inductive After where
  | ret
  /-- To unlock the mutex of ticker `k`. -/
  | unlock (k : Nat)
  | finish (n : Nat) (w : Wait)
  /-- The loop of `timer_main`. -/
  | timer
  deriving DecidableEq

/-- Where a thread stands in its call. -/
inductive Pc where
  | idle
  /-- `dlsm_gt_sleep_until`: at `dlsm_gt_cancelled`, and at the clock. -/
  | sleepCheck (d : Nat) (c : Caller)
  | sleepClock (d : Nat) (c : Caller)
  /-- `timer_wait_register` -/
  | register (w : Wait)
  /-- `dlsm_gt_park` -/
  | park (b : Block)
  | parked (b : Block)
  /-- `timer_wait_finish` of node `n` -/
  | finish (n : Nat) (w : Wait)
  /-- `sync_park_until_gt`: at `dlsm_gt_cancelled`. -/
  | parkUntil (i d : Nat)
  /-- `dlsm_gt_mutex_timedlock`: after `park_until` returned `st`. -/
  | recheck (i d : Nat) (st : Status)
  /-- `while (!granted)` -/
  | check (o : Obj)
  /-- `dlsm_gt_ticker_wait`: at the top of its loop, at the check for a stale
  generation, at the last section, and at the section after a failed
  registration. -/
  | tickLoop (k : Nat)
  | tickStale (n k d g : Nat)
  | tickEnd (k d g : Nat) (st : Status)
  | tickFail (k : Nat) (st : Status)
  /-- `dlsm_gt_ticker_reset`: at the clock, and at the mutex. -/
  | resetClock (k interval : Nat)
  | reset (k interval now : Nat)
  | unlockTicker (k : Nat)
  /-- `timer_cancel_task_wait` of task `t` -/
  | cancelTimer (t : Nat) (k : After)
  /-- `dlsm_gt_unpark` of the tasks of a list. -/
  | unparks (l : List Nat) (k : After)
  /-- A thread of the blocking pool executes the job of task `t`. -/
  | work (t : Nat)
  /-- `dlsm_gt_task_wait`: after the park. -/
  | waitEnd (u : Nat)
  /-- `rt_task_done`: at the completion mutex. -/
  | complete
  /-- `timer_main`: at the top of its loop, and in a wait on its condition. -/
  | timerLoop
  | timerWait (d : Option Nat)
  | exited
  deriving DecidableEq

structure Ticker where
  made : Bool
  interval : Nat
  nextDeadline : Nat
  generation : Nat
  stopped : Bool
  waiter : Option Nat
  /-- The mutex is held between steps. -/
  locked : Bool

/-- What a call of a task has returned. -/
inductive Ret where
  /-- `dlsm_gt_sleep_until(d)`, with the clock at its return. -/
  | sleep (t d : Nat) (st : Status) (clock : Nat)
  | tick (t k : Nat) (st : Status) (count : Nat)
  | taskWait (t u : Nat) (st : Status)
  deriving DecidableEq

structure State where
  clock : Nat
  -- the timer, under `timer_mutex`
  heap : IndexedHeap Nat
  capacity : Nat
  deadline : Nat → Nat
  sequence : Nat → Nat
  nodeState : Nat → TimerState
  nodeTask : Nat → Nat
  /-- The address is that of a node. -/
  allocated : Nat → Bool
  timerSequence : Nat
  timerStop : Bool
  /-- `timer_condition` was signalled since the timer thread waits. -/
  signalled : Bool
  timersRegistered : Nat
  timersExpired : Nat
  timersCancelled : Nat
  -- the tasks
  live : List Nat
  finished : Nat → Bool
  unparkPending : Nat → Bool
  cancelRequested : Nat → Bool
  timerNode : Nat → Option Nat
  completionDone : Nat → Bool
  completionWaiters : Nat → List Nat
  /-- `granted` of the node a task waits with. -/
  granted : Nat → Bool
  -- the objects
  ticker : Nat → Ticker
  queue : Obj → List Nat
  owner : Nat → Option Nat
  count : Nat → Nat
  eventSet : Nat → Bool
  pc : Actor → Pc
  -- what happened
  /-- How many registrations came before that of a node. -/
  serial : Nat → Nat
  /-- What became of each registration that has left `TIMER_WAITING`. -/
  outcomes : List (Nat × TimerState)
  /-- The unparks that threads are about to execute. -/
  owed : List (Actor × Nat)
  log : List Ret

def State.initial : State where
  clock := 1
  heap := ⟨fun _ => 0, 0, fun _ => SIZE_MAX⟩
  capacity := 0
  deadline := fun _ => 0
  sequence := fun _ => 0
  nodeState := fun _ => .waiting
  nodeTask := fun _ => 0
  allocated := fun _ => false
  timerSequence := 0
  timerStop := false
  signalled := false
  timersRegistered := 0
  timersExpired := 0
  timersCancelled := 0
  live := []
  finished := fun _ => false
  unparkPending := fun _ => false
  cancelRequested := fun _ => false
  timerNode := fun _ => none
  completionDone := fun _ => false
  completionWaiters := fun _ => []
  granted := fun _ => false
  ticker := fun _ => ⟨false, 0, 0, 0, false, none, false⟩
  queue := fun _ => []
  owner := fun _ => none
  count := fun _ => 0
  eventSet := fun _ => false
  pc := fun a => if a = .timer then .timerLoop else .idle
  serial := fun _ => 0
  outcomes := []
  owed := []
  log := []

/-- What the environment decides in a step: whether the clock can be read, the
address `calloc` returns, and whether `realloc` succeeds. -/
structure Env where
  clock : Bool
  calloc : Option Nat
  realloc : Bool
  deriving DecidableEq

/-- `dlsm_gt_now` -/
def gtNow (s : State) (e : Env) : Nat := if e.clock then s.clock else 0

def setPc (s : State) (a : Actor) (pc : Pc) : State := { s with pc := Function.update s.pc a pc }

/-! ## The timer heap -/

def timerLess (s : State) (left right : Nat) : Bool :=
  decide (s.deadline left < s.deadline right ∨
    s.deadline left = s.deadline right ∧ s.sequence left < s.sequence right)

/-- The capacity after `timer_heap_push` has made room, if it could. -/
def grow (s : State) (e : Env) : Option Nat :=
  if s.heap.count = s.capacity then
    let capacity := if s.capacity = 0 then 64 else s.capacity * 2 % 2 ^ 64
    if capacity < s.capacity ∨ SIZE_MAX / 8 < capacity ∨ e.realloc = false then none else some capacity
  else some s.capacity

/-- `pthread_cond_signal(&rt->timer_condition)` -/
def signal (s : State) : State :=
  match s.pc .timer with
  | .timerWait _ => { s with signalled := true }
  | _ => s

/-- Node `n` is taken out of the heap at index `i` and leaves `TIMER_WAITING`
for `st`. -/
def leave (s : State) (i n : Nat) (st : TimerState) : State :=
  let heap := match s.heap.remove (timerLess s) SIZE_MAX i with
    | some (_, heap) => heap
    | none => s.heap
  { s with
    heap := heap
    nodeState := Function.update s.nodeState n st
    timersExpired := if st = .expired then s.timersExpired + 1 else s.timersExpired
    timersCancelled := if st = .cancelled then s.timersCancelled + 1 else s.timersCancelled
    outcomes := s.outcomes ++ [(s.serial n, st)] }

/-- A waiting node is cancelled by a thread other than the timer. -/
def cancelNode (s : State) (n : Nat) : State :=
  let s' := leave s (s.heap.index n) n .cancelled
  if s.heap.index n = 0 then signal s' else s'

/-! ## Parking -/

/-- Where a task goes on after a park. -/
def Block.resume : Block → Pc
  | .timer n w => .finish n w
  | .sync o => .check o
  | .done u => .waitEnd u

/-- `rt_park` -/
def rtPark (s : State) (t : Nat) (b : Block) : State :=
  if s.unparkPending t = true then
    setPc { s with unparkPending := Function.update s.unparkPending t false } (.task t) b.resume
  else setPc s (.task t) (.parked b)

/-- `dlsm_gt_unpark` -/
def unpark (s : State) (t : Nat) : State :=
  if s.finished t = true then s
  else
    match s.pc (.task t) with
    | .parked b => setPc s (.task t) b.resume
    | _ => { s with unparkPending := Function.update s.unparkPending t true }

def After.pc : After → Pc
  | .ret => .idle
  | .unlock k => .unlockTicker k
  | .finish n w => .finish n w
  | .timer => .timerLoop

/-- Thread `a` goes on to unpark the tasks of `l`. -/
def willUnpark (s : State) (a : Actor) (l : List Nat) (k : After) : State :=
  if l = [] then setPc s a k.pc
  else setPc { s with owed := s.owed ++ l.map (Prod.mk a) } a (.unparks l k)

/-- The next unpark of thread `a`. -/
def unparkStep (s : State) (a : Actor) (l : List Nat) (k : After) : State :=
  match l with
  | [] => setPc s a k.pc
  | t :: l =>
    let s' := unpark { s with owed := s.owed.erase (a, t) } t
    setPc s' a (if l = [] then k.pc else .unparks l k)

/-- `timer_cancel_task_wait` of task `t` by thread `a`. -/
def timerCancelTaskWait (s : State) (a : Actor) (t : Nat) (k : After) : State :=
  match s.timerNode t with
  | some n =>
    if s.nodeState n = .waiting then willUnpark (cancelNode s n) a [t] k else setPc s a k.pc
  | none => setPc s a k.pc

/-! ## `dlsm_gt_sleep_until` -/

/-- It returns `st` to its caller. -/
def sleepRet (s : State) (t d : Nat) (c : Caller) (st : Status) : State :=
  match c with
  | .user => setPc { s with log := s.log ++ [.sleep t d st s.clock] } (.task t) .idle
  | .timedlock i =>
    match st with
    | .ok => setPc s (.task t) (.recheck i d .timeout)
    | .cancelled => setPc s (.task t) (.parkUntil i d)
    | _ => setPc s (.task t) (.recheck i d .wait)

def sleepCheck (s : State) (t d : Nat) (c : Caller) : State :=
  if s.cancelRequested t = true then sleepRet s t d c .cancelled
  else if d = 0 then sleepRet s t d c .inval
  else setPc s (.task t) (.sleepClock d c)

def sleepClock (s : State) (t d : Nat) (c : Caller) (e : Env) : State :=
  if gtNow s e = 0 then sleepRet s t d c .wait
  else if d ≤ gtNow s e then sleepRet s t d c .ok
  else setPc s (.task t) (.register (.sleep d c))

/-- The wait of task `t` ends with `st`: where it goes on. -/
def waitRet (s : State) (t : Nat) (w : Wait) (st : Status) : State :=
  match w with
  | .sleep d c => sleepRet s t d c st
  | .tick k d g => setPc s (.task t) (.tickEnd k d g st)

/-- `timer_wait_register` failed with `st`. -/
def registerFail (s : State) (t : Nat) (w : Wait) (st : Status) : State :=
  match w with
  | .sleep d c => sleepRet s t d c st
  | .tick k _ _ => setPc s (.task t) (.tickFail k st)

/-- Node `n` is registered for the wait `w` of task `t`, in a heap of the given capacity. -/
def registerNode (s : State) (t n : Nat) (w : Wait) (capacity : Nat) : State :=
  let s₁ := { s with
    deadline := Function.update s.deadline n w.deadline
    sequence := Function.update s.sequence n s.timerSequence
    nodeState := Function.update s.nodeState n .waiting
    nodeTask := Function.update s.nodeTask n t
    allocated := Function.update s.allocated n true
    timerSequence := (s.timerSequence + 1) % 2 ^ 64
    serial := Function.update s.serial n s.timersRegistered }
  let first := s.heap.count = 0 ∨ timerLess s₁ n (s.heap.arr 0) = true
  let s₂ := { s₁ with
    heap := s.heap.push (timerLess s₁) n
    capacity := capacity
    timersRegistered := s.timersRegistered + 1
    timerNode := Function.update s.timerNode t (some n) }
  setPc (if first then signal s₂ else s₂) (.task t)
    (match w with
      | .sleep _ _ => .park (.timer n w)
      | .tick k d g => .tickStale n k d g)

/-- `timer_wait_register` -/
def timerWaitRegister (s : State) (t : Nat) (w : Wait) (e : Env) : Option State :=
  match e.calloc with
  | none => some (registerFail s t w .nomem)
  | some n =>
    if s.allocated n = true then none
    else if s.timerStop = true ∨ s.timerNode t ≠ none then some (registerFail s t w .state)
    else
      match grow s e with
      | none => some (registerFail { s with timerSequence := (s.timerSequence + 1) % 2 ^ 64 } t w .nomem)
      | some capacity => some (registerNode s t n w capacity)

/-- `timer_wait_finish`, to the end of a node that still waits. -/
def finishNode (s : State) (n : Nat) : State := if s.nodeState n = .waiting then cancelNode s n else s

/-- What `timer_wait_finish` returns for node `n`. -/
def finishStatus (s : State) (n : Nat) : Status :=
  if (finishNode s n).nodeState n = .expired then .ok else .cancelled

/-- `timer_wait_finish` -/
def timerWaitFinish (s : State) (t n : Nat) (w : Wait) : State :=
  let s₁ := finishNode s n
  waitRet { s₁ with
    timerNode := Function.update s₁.timerNode t none
    allocated := Function.update s₁.allocated n false } t w (finishStatus s n)

/-! ## Tickers -/

def setTicker (s : State) (k : Nat) (tk : Ticker) : State := { s with ticker := Function.update s.ticker k tk }

/-- The sum of a time and an interval, at most `UINT64_MAX`. -/
def saturatingAdd (x y : Nat) : Nat := if UINT64_MAX - x < y then UINT64_MAX else x + y

/-- `dlsm_gt_ticker_wait` of ticker `k` returns `st` and `count`; it holds the mutex. -/
def tickRet (s : State) (t k : Nat) (st : Status) (count : Nat) : State :=
  setPc { setTicker s k { s.ticker k with waiter := none } with log := s.log ++ [.tick t k st count] } (.task t) .idle

def tickLoop (s : State) (t k : Nat) : Option State :=
  let tk := s.ticker k
  if tk.locked = true then none
  else if tk.stopped = true then some (tickRet s t k .cancelled 0)
  else some (setPc s (.task t) (.register (.tick k tk.nextDeadline tk.generation)))

def tickStale (s : State) (t n k d g : Nat) : Option State :=
  let tk := s.ticker k
  if tk.locked = true then none
  else if tk.stopped = true ∨ tk.generation ≠ g then
    some (setPc s (.task t) (.cancelTimer t (.finish n (.tick k d g))))
  else some (setPc s (.task t) (.park (.timer n (.tick k d g))))

/-- The last section of a round of `dlsm_gt_ticker_wait`. -/
def tickEnd (s : State) (t k d g : Nat) (st : Status) (e : Env) : Option State :=
  let tk := s.ticker k
  let now := gtNow s e
  if tk.locked = true then none
  else if tk.stopped = true then some (tickRet s t k .cancelled 0)
  else if tk.generation ≠ g then some (setPc s (.task t) (.tickLoop k))
  else if st ≠ .ok then some (tickRet s t k st 0)
  else if now = 0 then some (tickRet s t k .wait 0)
  else
    let count := if d < now then 1 + (now - d) / tk.interval else 1
    let advance := if UINT64_MAX / tk.interval < count then UINT64_MAX else count * tk.interval
    some (tickRet (setTicker s k { tk with nextDeadline := saturatingAdd d advance }) t k .ok count)

/-- `timer_cancel_task_wait` of the task that waits at ticker `k`, whose mutex thread `a` holds. -/
def cancelWaiter (s : State) (a : Actor) (k : Nat) : State :=
  match (s.ticker k).waiter with
  | none => setPc s a (.unlockTicker k)
  | some t => setPc s a (.cancelTimer t (.unlock k))

/-- `dlsm_gt_ticker_reset`, at the mutex. -/
def tickerReset (s : State) (a : Actor) (k interval now : Nat) : Option State :=
  let tk := s.ticker k
  if tk.locked = true then none
  else if tk.stopped = true then some (setPc s a .idle)
  else
    let generation := (tk.generation + 1) % 2 ^ 64
    some (cancelWaiter (setTicker s k { tk with
      interval := interval
      nextDeadline := saturatingAdd now interval
      generation := if generation = 0 then 1 else generation
      locked := true }) a k)

/-! ## Locks, semaphores, events and blocking calls -/

def setQueue (s : State) (o : Obj) (l : List Nat) : State := { s with queue := Function.update s.queue o l }

/-- Task `t` queues at `o`, and goes on at `pc`. -/
def enqueue (s : State) (t : Nat) (o : Obj) (pc : Pc) : State :=
  setPc (setQueue { s with granted := Function.update s.granted t false } o (s.queue o ++ [t])) (.task t) pc

/-- `dlsm_gt_mutex_lock`, `dlsm_gt_mutex_timedlock`: the section under the queue lock. -/
def mutexLock (s : State) (t i : Nat) (pc : Pc) : State :=
  match s.owner i with
  | none => { s with owner := Function.update s.owner i (some t) }
  | some u => if u = t then s else enqueue s t (.mutex i) pc

def mutexUnlock (s : State) (t i : Nat) : State :=
  if s.owner i ≠ some t then s
  else
    match s.queue (.mutex i) with
    | [] => { s with owner := Function.update s.owner i none }
    | u :: l =>
      willUnpark { setQueue s (.mutex i) l with
        owner := Function.update s.owner i (some u)
        granted := Function.update s.granted u true } (.task t) [u] .ret

def semaphoreWait (s : State) (t i : Nat) : State :=
  if 0 < s.count i then { s with count := Function.update s.count i (s.count i - 1) }
  else enqueue s t (.semaphore i) (.check (.semaphore i))

def semaphorePost (s : State) (a : Actor) (i : Nat) : State :=
  match s.queue (.semaphore i) with
  | u :: l =>
    willUnpark { setQueue s (.semaphore i) l with granted := Function.update s.granted u true } a [u] .ret
  | [] => if s.count i = UINT64_MAX then s else { s with count := Function.update s.count i (s.count i + 1) }

def eventWait (s : State) (t i : Nat) : State :=
  if s.eventSet i = true then s else enqueue s t (.event i) (.check (.event i))

/-- `dlsm_gt_event_set`; all that wait are granted under the queue lock. -/
def eventSignal (s : State) (a : Actor) (i : Nat) : State :=
  willUnpark { setQueue s (.event i) [] with
    eventSet := Function.update s.eventSet i true
    granted := fun u => if u ∈ s.queue (.event i) then true else s.granted u } a (s.queue (.event i)) .ret

/-- `dlsm_gt_mutex_timedlock`: the section after `park_until` returned `st`. -/
def timedRecheck (s : State) (t i d : Nat) (st : Status) : State :=
  if s.granted t = true then setPc s (.task t) .idle
  else if st ≠ .ok then setPc (setQueue s (.mutex i) ((s.queue (.mutex i)).erase t)) (.task t) .idle
  else setPc s (.task t) (.sleepCheck d (.timedlock i))

/-! ## The timer thread -/

/-- `timer_main`: from the top of its loop to where it releases the mutex. -/
def timerLoop (s : State) (e : Env) : State :=
  let n := s.heap.arr 0
  let now := gtNow s e
  if s.timerStop = true then
    if 0 < s.heap.count then willUnpark (leave s 0 n .cancelled) .timer [s.nodeTask n] .timer
    else setPc s .timer .exited
  else if s.heap.count = 0 then setPc s .timer (.timerWait none)
  else if now ≠ 0 ∧ s.deadline n ≤ now then willUnpark (leave s 0 n .expired) .timer [s.nodeTask n] .timer
  else setPc s .timer (.timerWait (some (s.deadline n)))

/-! ## Steps -/

/-- The next step of thread `a` in its call. -/
def next (s : State) (a : Actor) (e : Env) : Option State :=
  match a, s.pc a with
  | .task t, .sleepCheck d c => some (sleepCheck s t d c)
  | .task t, .sleepClock d c => some (sleepClock s t d c e)
  | .task t, .register w => timerWaitRegister s t w e
  | .task t, .park b => some (rtPark s t b)
  | .task t, .finish n w => some (timerWaitFinish s t n w)
  | .task t, .parkUntil i d =>
    some (setPc s (.task t) (.recheck i d (if s.cancelRequested t = true then .cancelled else .ok)))
  | .task t, .recheck i d st => some (timedRecheck s t i d st)
  | .task t, .check o => some (setPc s (.task t) (if s.granted t = true then .idle else .park (.sync o)))
  | .task t, .tickLoop k => tickLoop s t k
  | .task t, .tickStale n k d g => tickStale s t n k d g
  | .task t, .tickEnd k d g st => tickEnd s t k d g st e
  | .task t, .tickFail k st => if (s.ticker k).locked = true then none else some (tickRet s t k st 0)
  | .task t, .waitEnd u =>
    if s.completionDone u = true then some (setPc { s with log := s.log ++ [.taskWait t u .ok] } (.task t) .idle)
    else
      some (setPc { s with
        completionWaiters := Function.update s.completionWaiters u ((s.completionWaiters u).erase t)
        log := s.log ++ [.taskWait t u .cancelled] } (.task t) .idle)
  | .task t, .complete =>
    some (willUnpark { s with
      completionDone := Function.update s.completionDone t true
      completionWaiters := Function.update s.completionWaiters t [] } (.task t) (s.completionWaiters t) .ret)
  | a, .resetClock k interval => some (setPc s a (if gtNow s e = 0 then .idle else .reset k interval (gtNow s e)))
  | a, .reset k interval now => tickerReset s a k interval now
  | a, .unlockTicker k => some (setPc (setTicker s k { s.ticker k with locked := false }) a .idle)
  | a, .cancelTimer t k => some (timerCancelTaskWait s a t k)
  | a, .unparks l k => some (unparkStep s a l k)
  | a, .work t => some (willUnpark { s with granted := Function.update s.granted t true } a [t] .ret)
  | .timer, .timerLoop => some (timerLoop s e)
  | .timer, .timerWait _ => some (setPc { s with signalled := false } .timer .timerLoop)
  | _, _ => none

/-- The calls of tasks and other threads. -/
inductive Call where
  | sleepUntil (d : Nat)
  | tickerWait (k : Nat)
  | tickerReset (k interval : Nat)
  | tickerStop (k : Nat)
  | taskWait (u : Nat)
  | taskCancel (t : Nat)
  | unpark (t : Nat)
  | lock (i : Nat)
  | timedlock (i d : Nat)
  | unlock (i : Nat)
  | semaphoreWait (i : Nat)
  | semaphorePost (i : Nat)
  | eventWait (i : Nat)
  | eventSet (i : Nat)
  | eventReset (i : Nat)
  | blockingCall
  /-- A thread of the blocking pool takes a job. -/
  | takeJob
  /-- The entry function of the task returns. -/
  | exit
  deriving DecidableEq

/-- The calls only tasks make. -/
def taskCall (s : State) (t : Nat) : Call → Option State
  | .sleepUntil d => some (setPc s (.task t) (.sleepCheck d .user))
  | .tickerWait k =>
    let tk := s.ticker k
    if tk.locked = true ∨ tk.made = false then none
    else if tk.stopped = true ∨ tk.waiter ≠ none then some { s with log := s.log ++ [.tick t k .state 0] }
    else some (setPc (setTicker s k { tk with waiter := some t }) (.task t) (.tickLoop k))
  | .taskWait u =>
    if u = t then some { s with log := s.log ++ [.taskWait t u .state] }
    else if s.completionDone u = true then some { s with log := s.log ++ [.taskWait t u .ok] }
    else
      some (setPc { s with completionWaiters := Function.update s.completionWaiters u (t :: s.completionWaiters u) }
        (.task t) (.park (.done u)))
  | .lock i => some (mutexLock s t i (.check (.mutex i)))
  | .timedlock i d => if d = 0 then some s else some (mutexLock s t i (.sleepCheck d (.timedlock i)))
  | .unlock i => some (mutexUnlock s t i)
  | .semaphoreWait i => some (semaphoreWait s t i)
  | .eventWait i => some (eventWait s t i)
  | .blockingCall => some (enqueue s t .jobs (.check .jobs))
  | .exit =>
    some (setPc { s with finished := Function.update s.finished t true, live := s.live.erase t } (.task t) .complete)
  | _ => none

/-- The calls any thread makes. -/
def anyCall (s : State) (a : Actor) : Call → Option State
  | .tickerReset k interval =>
    if (s.ticker k).made = false then none
    else some (if interval = 0 then s else setPc s a (.resetClock k interval))
  | .tickerStop k =>
    let tk := s.ticker k
    if tk.locked = true ∨ tk.made = false then none
    else some (cancelWaiter (setTicker s k { tk with stopped := true, locked := true }) a k)
  | .taskCancel t =>
    if s.finished t = true then some s
    else some (setPc { s with cancelRequested := Function.update s.cancelRequested t true } a (.cancelTimer t .ret))
  | .unpark t => some (willUnpark s a [t] .ret)
  | .semaphorePost i => some (semaphorePost s a i)
  | .eventSet i => some (eventSignal s a i)
  | .eventReset i => some { s with eventSet := Function.update s.eventSet i false }
  | _ => none

inductive Act where
  /-- The clock advances to `c`. -/
  | clock (c : Nat)
  | spawn (t : Nat)
  /-- `dlsm_gt_ticker_new` -/
  | tickerNew (k interval : Nat) (e : Env)
  | call (a : Actor) (c : Call)
  /-- The next step of a thread. -/
  | next (a : Actor) (e : Env)
  /-- `timer_runtime_request_stop` -/
  | requestStop
  deriving DecidableEq

def call (s : State) (a : Actor) (c : Call) : Option State :=
  if s.pc a ≠ .idle then none
  else
    match a with
    | .timer => none
    | .task t => if t ∈ s.live then (taskCall s t c).or (anyCall s a c) else none
    | .ext _ =>
      match c, s.queue .jobs with
      | .takeJob, t :: l => some (setPc (setQueue s .jobs l) a (.work t))
      | c, _ => anyCall s a c

def step (s : State) : Act → Option State
  | .clock c => if s.clock ≤ c ∧ c ≤ UINT64_MAX then some { s with clock := c } else none
  | .spawn t =>
    if t ∈ s.live ∨ s.finished t = true ∨ s.timerStop = true then none else some { s with live := t :: s.live }
  | .tickerNew k interval e =>
    if (s.ticker k).made = true ∨ interval = 0 ∨ gtNow s e = 0 then none
    else some (setTicker s k ⟨true, interval, saturatingAdd (gtNow s e) interval, 1, false, none, false⟩)
  | .call a c => call s a c
  | .next a e => next s a e
  | .requestStop => some (signal { s with timerStop := true })

section
-- their equations are made here, once
attribute [local simp] next taskCall anyCall step
end

def machine : Machine State Act where
  init := fun s => s = State.initial
  step := step

end Dlsmc.Timer
