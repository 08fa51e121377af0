import Dlsmc.Framework.LinkQueue
import Dlsmc.Framework.Machine

/-!
# The blocking pool (`greenthread.c`)

`dlsm_gt_blocking_call` leaves a job, which is on the stack of the calling task,
in the queue of the pool, and parks until it is done. The threads of the pool
(`blocking_main`) take jobs from the queue, call their function, store the
result and `errno`, mark the job done and unpark the task.

A section under `blocking_mutex` is one step. A signal wakes a waiting thread, if
there is one, and a thread may also wake without a signal. A task is in one call
at a time, so that its job is named by the task. Its parks and unparks are those
of `rt_park` and `dlsm_gt_unpark`; it may be unparked by others, and outside of
the call it is left to the environment what it does with the token.
-/

namespace Dlsmc.Blocking

inductive Status where
  /-- `DLSM_GT_E_INVAL` -/
  | inval
  /-- `DLSM_GT_E_STATE` -/
  | state
  deriving DecidableEq

/-- `struct blocking_job`; its link is in the queue. -/
structure Job where
  function : Nat
  arg : Nat
  result : Nat
  task : Nat
  done : Bool
  savedErrno : Int

/-- A call of `dlsm_gt_blocking_call` that was not refused. -/
structure Call where
  number : Nat
  task : Nat
  function : Nat
  arg : Nat
  deriving DecidableEq

/-- What `dlsm_gt_blocking_call` returned: an error, or `DLSM_OK` with what is in
`*result`, if it was given, and in `errno`. -/
inductive Return where
  | refused (st : Status)
  | done (c : Call) (result : Option Nat) (errno : Int)
  deriving DecidableEq

/-- Where a thread of the pool is in `blocking_main`. -/
inductive Worker where
  /-- About to look at the queue. -/
  | check
  /-- In `pthread_cond_wait`. -/
  | asleep
  /-- About to call the function of job `j`. -/
  | run (j : Nat)
  | saveErrno (j : Nat) (errno : Int)
  | setDone (j : Nat)
  | unpark (t : Nat)
  | exited
  deriving DecidableEq

/-- Where a task is in `dlsm_gt_blocking_call`; `out` is whether `result` was
given. -/
inductive Caller where
  | idle
  /-- About to load `done`. -/
  | poll (out : Bool)
  | park (out : Bool)
  | parked (out : Bool)
  /-- About to read the job and to return. -/
  | finish (out : Bool)
  deriving DecidableEq

structure State where
  /-- `blocking_thread_count`, all of which have been started. -/
  threads : Nat
  queue : Links Nat
  job : Nat → Job
  stop : Bool
  worker : Nat → Worker
  caller : Nat → Caller
  /-- `unpark_pending` -/
  pending : Nat → Bool
  /-- The call that the task is in. -/
  call : Nat → Call
  /-- The number of calls that were accepted, and these calls. -/
  calls : Nat
  accepted : List Call
  /-- The calls whose jobs were taken from the queue. -/
  started : List Call
  /-- The functions that were called, with what they returned and left in `errno`. -/
  executed : List (Call × Nat × Int)
  log : List Return

inductive Act where
  /-- A task, or a thread that is none, calls `dlsm_gt_blocking_call`; `wake` is
  the thread that is woken. -/
  | call (task function : Option Nat) (arg : Nat) (out : Bool) (wake : Option Nat)
  | caller (t : Nat)
  /-- Thread `w` of the pool looks at the queue. -/
  | check (w : Nat)
  /-- The function that thread `w` calls returns. -/
  | run (w : Nat) (result : Nat) (errno : Int)
  | worker (w : Nat)
  /-- Thread `w` wakes without a signal. -/
  | wake (w : Nat)
  /-- Somebody unparks the task. -/
  | unpark (t : Nat)
  /-- What a task that is in no call makes of its token. -/
  | outside (t : Nat) (pending : Bool)
  /-- `blocking_runtime_request_stop` -/
  | stop
  deriving DecidableEq

def State.goto (s : State) (w : Nat) (c : Worker) : State := { s with worker := Function.update s.worker w c }

theorem State.goto_self (s : State) (w : Nat) (c : Worker) : (s.goto w c).worker w = c := Function.update_self ..

theorem State.goto_of_ne (s : State) {v w : Nat} (c : Worker) (h : v ≠ w) : (s.goto w c).worker v = s.worker v :=
  Function.update_of_ne h ..

def State.resume (s : State) (t : Nat) (c : Caller) : State := { s with caller := Function.update s.caller t c }

theorem State.resume_self (s : State) (t : Nat) (c : Caller) : (s.resume t c).caller t = c := Function.update_self ..

theorem State.resume_of_ne (s : State) {t u : Nat} (c : Caller) (h : u ≠ t) : (s.resume t c).caller u = s.caller u :=
  Function.update_of_ne h ..

/-- `dlsm_gt_unpark` -/
def State.unpark (s : State) (t : Nat) : State :=
  match s.caller t with
  | .parked out => s.resume t (.poll out)
  | _ => { s with pending := Function.update s.pending t true }

/-- `rt_park` -/
def State.park (s : State) (t : Nat) (out : Bool) : State :=
  if s.pending t then { s with pending := Function.update s.pending t false }.resume t (.poll out)
  else s.resume t (.parked out)

/-- `pthread_cond_signal` -/
def State.signal (s : State) : Option Nat → Option State
  | some w => if s.worker w = .asleep then some (s.goto w .check) else none
  | none => if ∀ w < s.threads, s.worker w ≠ .asleep then some s else none

/-- The job at the head of the queue is taken; its link stays as it is. -/
def take (q : Links Nat) : Option (Nat × Links Nat) :=
  match q.head with
  | none => none
  | some j => some (j, ⟨q.next, q.next j, if q.next j = none then none else q.tail⟩)

/-- The job of task `t` is put into the queue. -/
def State.enqueue (s : State) (t function arg : Nat) (out : Bool) : State :=
  let c : Call := ⟨s.calls, t, function, arg⟩
  { s with
    queue := s.queue.push t
    job := Function.update s.job t ⟨function, arg, 0, t, false, 0⟩
    caller := Function.update s.caller t (.poll out)
    call := Function.update s.call t c
    calls := s.calls + 1
    accepted := s.accepted ++ [c] }

def State.refuse (s : State) (st : Status) : State := { s with log := s.log ++ [.refused st] }

/-- `dlsm_gt_blocking_call`, until its job is in the queue. -/
def State.blockingCall (s : State) (task function : Option Nat) (arg : Nat) (out : Bool) (wake : Option Nat) :
    Option State :=
  match function, task with
  | none, _ => some (s.refuse .inval)
  | some _, none => some (s.refuse .state)
  | some f, some t =>
    if s.caller t = .idle then
      if s.threads = 0 then some (s.refuse .state)
      else if s.stop then some (s.refuse .state)
      else (s.enqueue t f arg out).signal wake
    else none

/-- The next step of a task in the call. -/
def State.callerStep (s : State) (t : Nat) : Option State :=
  match s.caller t with
  | .idle | .parked _ => none
  | .poll out => some (s.resume t (if (s.job t).done then .finish out else .park out))
  | .park out => some (s.park t out)
  | .finish out =>
    let r := Return.done (s.call t) (if out then some (s.job t).result else none) (s.job t).savedErrno
    some { s.resume t .idle with log := s.log ++ [r] }

/-- A section of `blocking_main` under the mutex. -/
def State.checkStep (s : State) (w : Nat) : Option State :=
  match s.worker w with
  | .check =>
    match take s.queue with
    | some (j, q) => some { s.goto w (.run j) with queue := q, started := s.started ++ [s.call j] }
    | none => some (s.goto w (if s.stop then .exited else .asleep))
  | _ => none

/-- The function of a job returns. -/
def State.runStep (s : State) (w result : Nat) (errno : Int) : Option State :=
  match s.worker w with
  | .run j =>
    let c : Call := ⟨(s.call j).number, (s.job j).task, (s.job j).function, (s.job j).arg⟩
    some { s.goto w (.saveErrno j errno) with
      job := Function.update s.job j { s.job j with result := result }
      executed := s.executed ++ [(c, result, errno)] }
  | _ => none

/-- The next step of a thread of the pool after that. -/
def State.workerStep (s : State) (w : Nat) : Option State :=
  match s.worker w with
  | .saveErrno j errno =>
    some { s.goto w (.setDone j) with job := Function.update s.job j { s.job j with savedErrno := errno } }
  | .setDone j =>
    some { s.goto w (.unpark (s.job j).task) with job := Function.update s.job j { s.job j with done := true } }
  | .unpark t => some ((s.unpark t).goto w .check)
  | _ => none

def step (s : State) : Act → Option State
  | .call task function arg out wake => s.blockingCall task function arg out wake
  | .caller t => s.callerStep t
  | .check w => s.checkStep w
  | .run w result errno => s.runStep w result errno
  | .worker w => s.workerStep w
  | .wake w => if s.worker w = .asleep then some (s.goto w .check) else none
  | .unpark t => some (s.unpark t)
  | .outside t b =>
    if s.caller t = .idle then some { s with pending := Function.update s.pending t b } else none
  | .stop => some { s with stop := true, worker := fun w => if s.worker w = .asleep then .check else s.worker w }

/-- A pool of `n` threads, without jobs. -/
def State.initial (n : Nat) : State where
  threads := n
  queue := ⟨fun _ => none, none, none⟩
  job _ := ⟨0, 0, 0, 0, false, 0⟩
  stop := false
  worker w := if w < n then .check else .exited
  caller _ := .idle
  pending _ := false
  call _ := ⟨0, 0, 0, 0⟩
  calls := 0
  accepted := []
  started := []
  executed := []
  log := []

def machine : Machine State Act where
  init s := ∃ n, s = .initial n
  step := step

/-- A call that returned `DLSM_OK`. -/
def Return.call : Return → Option Call
  | refused _ => none
  | done c _ _ => some c

/-- The thread still uses the job. -/
def Worker.job : Worker → Option Nat
  | run j | saveErrno j _ | setDone j => some j
  | _ => none

end Dlsmc.Blocking
