import Mathlib.Logic.Function.Basic
import Dlsmc.Framework.Machine
import Dlsmc.Greenthread.Runtime

/-!
# The pthreads of a runtime (`greenthread.c`)

Which threads `dlsm_gt_start` and `dlsm_gt_runtime_add_vp` create and who joins
them: the calls start, run, stop, wait, spawn and add_vp of any threads, the
completion of tasks, and the failures of `pthread_create` and of
`pthread_cond_wait` in `dlsm_gt_vp_idle_sleep`. A section under `rt->lock` is
one step (threads created in one cannot do anything before it ends but wait for
the lock), and every join is a step. What tasks do and how VPs sleep is in
`Dlsmc.Greenthread.Runtime`.

`joined` counts the joins of a thread, and `failing` says that a
`dlsm_gt_start` that failed is joining what it created; no step reads them.
-/

namespace Dlsmc.Threads

open Dlsmc.Runtime (RtState)

inductive Thread where
  | timer
  | blocking (i : Nat)
  | vp (i : Nat)
  deriving DecidableEq

inductive Status where
  | ok
  /-- `DLSM_GT_E_STATE` -/
  | state
  /-- `DLSM_GT_E_THREAD` -/
  | thread
  /-- `DLSM_GT_E_WAIT` -/
  | wait
  deriving DecidableEq

/-- Who executes calls: the task on a VP, or another thread. -/
inductive Actor where
  | vp (v : Nat)
  | ext (x : Nat)
  deriving DecidableEq

/-- Where the joins of `dlsm_gt_wait`, or of a `dlsm_gt_start` that failed, stand. -/
inductive Join where
  /-- `join_started_vps`, at the load of `started_vps`, and then at VP `i` of `n`. -/
  | load
  | vp (n i : Nat)
  /-- `blocking_runtime_join` -/
  | blocking (i : Nat)
  /-- At the timer thread. -/
  | timer
  /-- At the last section under the lock. -/
  | ended
  deriving DecidableEq

/-- What is left of a call. -/
inductive Op where
  /-- `dlsm_gt_start`; `run` if `dlsm_gt_run` called it. -/
  | start (run : Bool)
  | wait
  /-- `timer_runtime_request_stop` -/
  | timerStop
  /-- `blocking_runtime_request_stop` -/
  | blockingStop
  /-- The joins, with the `result` so far; `check` if `timer_started` is looked at. -/
  | join (j : Join) (result : Status) (check : Bool)
  /-- A VP returns from `vp_main`. -/
  | exit
  deriving DecidableEq

structure State where
  rtState : RtState
  live : Nat
  shutdown : Bool
  stopRequested : Bool
  autoStop : Bool
  fatal : Status
  nvp : Nat
  startedVps : Nat
  blockingThreadCount : Nat
  blockingStarted : Nat
  timerStarted : Bool
  timerStop : Bool
  blockingStop : Bool
  created : Thread → Bool
  exited : Thread → Bool
  ops : Actor → List Op
  /-- What the last call of a thread returned. -/
  result : Actor → Option Status
  -- what happened
  joined : Thread → Nat
  failing : Bool

/-- `dlsm_gt_runtime_new_ex` with `nvp` VPs and `n` threads for blocking calls. -/
def State.initial (nvp n : Nat) : State where
  rtState := .created
  live := 0
  shutdown := false
  stopRequested := false
  autoStop := false
  fatal := .ok
  nvp := nvp
  startedVps := 0
  blockingThreadCount := n
  blockingStarted := 0
  timerStarted := false
  timerStop := false
  blockingStop := false
  created := fun _ => false
  exited := fun _ => false
  ops := fun _ => []
  result := fun _ => none
  joined := fun _ => 0
  failing := false

/-- The threads created when all threads are to be and the first `k` calls of
`pthread_create` succeed: the timer, the blocking pool, the VPs. -/
def creates (s : State) (k : Nat) : Thread → Bool
  | .timer => decide (0 < k)
  | .blocking i => decide (i < s.blockingThreadCount ∧ i + 1 < k)
  | .vp i => decide (i < s.nvp ∧ i + 1 + s.blockingThreadCount < k)

/-- `dlsm_gt_start`; the first `k` calls of `pthread_create` succeed. -/
def gtStart (s : State) (run : Bool) (k : Nat) : State × List Op × Option Status :=
  if s.rtState ≠ .created then (s, [], some .state)
  else if s.autoStop = true ∧ s.live = 0 then
    ({ s with stopRequested := true, shutdown := true, rtState := .stopping },
      if run then ([.wait], none) else ([], some .ok))
  else if k = 0 then
    ({ s with timerStop := false, fatal := .thread, rtState := .stopped }, [], some .thread)
  else
    let s₁ := { s with
      rtState := .running
      timerStop := false
      timerStarted := true
      blockingStop := false
      blockingStarted := min (k - 1) s.blockingThreadCount
      startedVps := min (k - 1 - s.blockingThreadCount) s.nvp
      created := creates s k }
    if k - 1 < s.blockingThreadCount then
      ({ s₁ with fatal := .thread, stopRequested := true, shutdown := true, rtState := .stopping, failing := true },
        [.timerStop, .blockingStop, .join (.blocking 0) .thread false], none)
    else if k - 1 - s.blockingThreadCount < s.nvp then
      ({ s₁ with fatal := .thread, stopRequested := true, shutdown := true, rtState := .stopping, failing := true },
        [.timerStop, .blockingStop, .join .load .thread true], none)
    else (s₁, if run then ([.wait], none) else ([], some .ok))

/-- `dlsm_gt_wait`, to the joins. -/
def gtWait (s : State) : State × List Op × Option Status :=
  if s.rtState = .stopping ∨ s.rtState = .running ∧ s.autoStop = true then
    ({ s with rtState := .joining }, [.join .load s.fatal true], none)
  else (s, [], some .state)

/-- `dlsm_gt_stop` -/
def gtStop (s : State) : State × List Op × Option Status :=
  if s.rtState = .created then
    ({ s with stopRequested := true, shutdown := true, rtState := .stopped }, [], some .ok)
  else if s.rtState ≠ .running then (s, [], some .state)
  else
    ({ s with
        stopRequested := true
        rtState := .stopping
        shutdown := if s.live = 0 then true else s.shutdown },
      if s.live = 0 then [.timerStop, .blockingStop] else [], some .ok)

/-- `dlsm_gt_run`, to the call of `dlsm_gt_start`. -/
def gtRun (s : State) : State × List Op × Option Status :=
  if s.rtState ≠ .created then (s, [], some .state) else ({ s with autoStop := true }, [.start true], none)

/-- `pthread_join`, once the thread has exited. -/
def pthreadJoin (s : State) (th : Thread) : Option State :=
  if s.exited th = true then some { s with joined := Function.update s.joined th (s.joined th + 1) } else none

/-- The next step of the joins. The last section is the one of `dlsm_gt_wait`;
that of `dlsm_gt_start` keeps its `result`, which is not `DLSM_OK`. -/
def joinStep (s : State) (result : Status) (check : Bool) : Join → Option (State × List Op × Option Status)
  | .load => some (s, [.join (.vp s.startedVps 0) result check], none)
  | .vp n i =>
    if i < n then (pthreadJoin s (.vp i)).map fun s => (s, [.join (.vp n (i + 1)) result check], none)
    else some (s, [.join (.blocking 0) result check], none)
  | .blocking i =>
    if i < s.blockingStarted then
      (pthreadJoin s (.blocking i)).map fun s => (s, [.join (.blocking (i + 1)) result check], none)
    else some ({ s with blockingStarted := 0 }, [.join .timer result check], none)
  | .timer =>
    if check = true ∧ s.timerStarted = false then some (s, [.join .ended result check], none)
    else
      (pthreadJoin s .timer).map fun s => ({ s with timerStarted := false }, [.join .ended result check], none)
  | .ended =>
    let result := if result = .ok then s.fatal else result
    some ({ s with rtState := .stopped, fatal := result, failing := false }, [], some result)

/-- An operation of a call, and what is left of it; `k` is for `dlsm_gt_start`. -/
def execOp (s : State) (a : Actor) (k : Nat) : Op → Option (State × List Op × Option Status)
  | .start run => some (gtStart s run k)
  | .wait => some (gtWait s)
  | .timerStop => some ({ s with timerStop := true }, [], none)
  | .blockingStop => some (if s.blockingThreadCount = 0 then s else { s with blockingStop := true }, [], none)
  | .join j result check => joinStep s result check j
  | .exit =>
    match a with
    | .vp v => some ({ s with exited := Function.update s.exited (.vp v) true }, [], none)
    | .ext _ => none

inductive Act where
  | start (a : Actor)
  | run (a : Actor)
  | stop (a : Actor)
  | wait (a : Actor)
  /-- `dlsm_gt_spawn_ex` -/
  | spawn (a : Actor)
  /-- `dlsm_gt_runtime_add_vp`; `ok` is the outcome of `pthread_create`. -/
  | addVp (a : Actor) (ok : Bool)
  /-- The next operation of a call. -/
  | op (a : Actor) (k : Nat)
  /-- `rt_task_done` on VP `v`. -/
  | done (v : Nat)
  /-- `pthread_cond_wait` fails in `dlsm_gt_vp_idle_sleep` of VP `v`. -/
  | sleepFail (v : Nat)
  /-- VP `v` sees `shutdown` and exits. -/
  | vpExit (v : Nat)
  | timerExit
  | blockingExit (i : Nat)
  deriving DecidableEq

/-- The thread of VP `v` is running. -/
def alive (s : State) (v : Nat) : Bool := s.created (.vp v) && !s.exited (.vp v)

/-- A thread between two calls. -/
def canCall (s : State) (a : Actor) : Bool :=
  s.ops a == [] && match a with
    | .ext _ => true
    | .vp v => alive s v

/-- What thread `a` goes on with, before `l`. -/
def continues (a : Actor) (l : List Op) (r : State × List Op × Option Status) : State :=
  { r.1 with
    ops := Function.update r.1.ops a (r.2.1 ++ l)
    result := if r.2.2 = none then r.1.result else Function.update r.1.result a r.2.2 }

def call (s : State) (a : Actor) (r : State × List Op × Option Status) : Option State :=
  if canCall s a then some (continues a [] r) else none

/-- `rt_task_done`, to the end of its section under the locks. -/
def rtTaskDone (s : State) : State × List Op :=
  let completed := s.live - 1 = 0 ∧ (s.stopRequested = true ∨ s.autoStop = true)
  ({ s with
      live := s.live - 1
      shutdown := if completed then true else s.shutdown
      rtState := if completed ∧ s.rtState = .running then .stopping else s.rtState },
    if completed then [.timerStop, .blockingStop] else [])

/-- `dlsm_gt_runtime_add_vp` -/
def addVp (s : State) (ok : Bool) : State × List Op × Option Status :=
  if s.rtState = .created then ({ s with nvp := s.nvp + 1 }, [], some .ok)
  else if s.rtState ≠ .running then (s, [], some .state)
  else if ok = false then (s, [], some .thread)
  else
    ({ s with
      created := Function.update s.created (.vp s.nvp) true
      nvp := s.nvp + 1
      startedVps := s.startedVps + 1 }, [], some .ok)

def step (s : State) : Act → Option State
  | .start a => call s a (s, [.start false], none)
  | .run a => call s a (gtRun s)
  | .stop a => call s a (gtStop s)
  | .wait a => call s a (s, [.wait], none)
  | .spawn a =>
    call s a (if s.rtState = .created ∨ s.rtState = .running then
      ({ s with live := s.live + 1 }, [], none) else (s, [], none))
  | .addVp a ok => call s a (addVp s ok)
  | .op a k =>
    match s.ops a with
    | [] => none
    | o :: l => (execOp s a k o).map (continues a l)
  | .done v =>
    if s.ops (.vp v) = [] ∧ alive s v = true ∧ s.live ≠ 0 then
      some (continues (.vp v) [] ((rtTaskDone s).1, (rtTaskDone s).2, none))
    else none
  | .sleepFail v =>
    if s.ops (.vp v) = [] ∧ alive s v = true then
      some (continues (.vp v) []
        ({ s with fatal := .wait, shutdown := true, rtState := .stopping }, [.timerStop, .blockingStop, .exit], none))
    else none
  | .vpExit v =>
    if s.ops (.vp v) = [] ∧ alive s v = true ∧ s.shutdown = true then
      some { s with exited := Function.update s.exited (.vp v) true }
    else none
  | .timerExit =>
    if s.created .timer = true ∧ s.timerStop = true then
      some { s with exited := Function.update s.exited .timer true }
    else none
  | .blockingExit i =>
    if s.created (.blocking i) = true ∧ s.blockingStop = true then
      some { s with exited := Function.update s.exited (.blocking i) true }
    else none

/-- A runtime with at least one VP. -/
def machine : Machine State Act where
  init := fun s => ∃ nvp n, 0 < nvp ∧ s = State.initial nvp n
  step := step

end Dlsmc.Threads
