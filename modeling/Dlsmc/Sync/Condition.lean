import Dlsmc.Sync.GtMutex
import Dlsmc.Sync.GtWait

/-!
# A condition and its mutex (`gt_wait.c`, `gt_mutex.c`)

One `dlsm_gt_condition` with the `dlsm_gt_mutex` its waiters release, used by
any number of tasks and threads: `condition_wait`, `condition_timedwait`,
`condition_signal` and `condition_broadcast` on the condition, and `lock`,
`timedlock`, `trylock` and `unlock` on the mutex. Both objects live as long as
the calls on them.

The mutex is the one of `Dlsmc.Sync.GtMutex`. A section under the condition's
`qlock` is one step, and so is the section of `unlock` nested in it; `park` and
`park_until` may return at any time and `park_until` with any status. A task
has one call in progress, so its `wait_node` is named by the task.

`State.ticket`, `State.grants`, `State.gaveUp` and `State.returned` record in
which order the waits that released the mutex were queued, were granted, gave
up and returned; no step reads them.
-/

namespace Dlsmc.Condition

open GtMutex (Status)

/-- Where a task or thread stands in a call on the condition. -/
inductive Pc where
  | idle
  /-- `condition_wait`: queued, reading `granted` and parking. -/
  | wait
  /-- `condition_timedwait`: queued, inside `park_until`. -/
  | timedPark
  /-- `condition_timedwait`: `park_until` returned `st`, about to take `qlock`. -/
  | timedCheck (st : Status)
  /-- The wait is over with `wait_status` `st`, about to call `dlsm_gt_mutex_lock`. -/
  | relock (st : Status)
  /-- Inside that call, waiting for the mutex. -/
  | locking (st : Status)
  /-- `condition_signal`, `condition_broadcast`: granted these tasks, about to
  unpark them. -/
  | unpark (l : List Nat)
  deriving DecidableEq

/-- The condition, its mutex, the wait nodes and the tasks. -/
structure State where
  mutex : GtMutex.State
  queue : Links Nat
  /-- `condition->ops->park_until` is not `NULL`. -/
  parkUntil : Bool
  granted : Nat → Bool
  pc : Nat → Pc
  ticket : Nat → Nat
  tickets : Nat
  grants : List Nat
  gaveUp : List Nat
  returned : List (Nat × Status)

/-- `dlsm_gt_condition_init` and `dlsm_gt_mutex_init`, before any call. -/
def State.initial (parkUntil : Bool) : State where
  mutex := .initial parkUntil
  queue := ⟨fun _ => none, none, none⟩
  parkUntil := parkUntil
  granted := fun _ => false
  pc := fun _ => .idle
  ticket := fun _ => 0
  tickets := 0
  grants := []
  gaveUp := []
  returned := []

/-- The actions. `handle` is `ops->current()`, `none` outside a task; `fuel`
bounds the loops over the queue. -/
inductive Act where
  | wait (handle : Option Nat) (fuel : Nat)
  | timedwait (handle : Option Nat) (deadline fuel : Nat)
  /-- `condition_wait` reads `granted` once, and parks and wakes if it is 0. -/
  | poll (t : Nat)
  /-- `park_until` returns. -/
  | wake (t : Nat) (st : Status)
  /-- `condition_timedwait`'s section after `park_until`. -/
  | recheck (t fuel : Nat)
  /-- The call of `dlsm_gt_mutex_lock` at the end of a wait, to the end of its section. -/
  | relock (t : Nat)
  /-- That call reads `granted` of its own node once. -/
  | relockPoll (t : Nat)
  | signal (t : Nat)
  /-- `malloc` is the outcome of the allocation in `grant_all_locked`. -/
  | broadcast (t : Nat) (malloc : Bool) (fuel : Nat)
  /-- The next `unpark` of a signal or broadcast. -/
  | unpark (t : Nat)
  /-- A step of a call on the mutex. -/
  | mutex (a : GtMutex.Act)
  deriving DecidableEq

/-- Thread `t` may begin a call. -/
def outside (s : State) (t : Nat) : Bool := s.pc t == .idle && (s.mutex.pc t).outside

/-- `dlsm_gt_mutex_unlock`, with the `unpark` of the next owner. -/
def mutexUnlock (m : GtMutex.State) (t : Nat) : GtMutex.State × Status :=
  match GtMutex.unlock m t with
  | (m', some st) => (m', st)
  | (m', none) => ({ m' with pc := Function.update m'.pc t .idle }, .ok)

/-- The section under `qlock` in which a wait of `t` begins; the wait goes on
at `pc`. -/
def enter (s : State) (t : Nat) (pc : Pc) (fuel : Nat) : Option (State × Option Status) :=
  let granted := Function.update s.granted t false
  let queue := s.queue.push t
  let (mutex, status) := mutexUnlock s.mutex t
  if status ≠ .ok then
    (queue.remove t fuel).map fun r =>
      ({ s with granted := granted, queue := r.2, mutex := mutex }, some status)
  else
    some ({ s with
      granted := granted
      queue := queue
      mutex := mutex
      pc := Function.update s.pc t pc
      ticket := Function.update s.ticket t s.tickets
      tickets := s.tickets + 1 }, none)

/-- `condition_timedwait`'s section after `park_until` returned `st`. -/
def recheck (s : State) (t : Nat) (st : Status) (fuel : Nat) : Option (State × Option Status) :=
  if s.granted t = true then some ({ s with pc := Function.update s.pc t (.relock .ok) }, none)
  else if st ≠ .ok then
    (s.queue.remove t fuel).map fun r =>
      ({ s with
        queue := r.2
        pc := Function.update s.pc t (.relock st)
        gaveUp := s.gaveUp ++ [s.ticket t] }, none)
  else some ({ s with pc := Function.update s.pc t .timedPark }, none)

/-- A wait whose `wait_status` is `st` goes on after a step of
`dlsm_gt_mutex_lock` that left the mutex in state `m.1` and returned `m.2`. -/
def locked (s : State) (t : Nat) (st : Status) (m : GtMutex.State × Option Status) : State × Option Status :=
  match m with
  | (m, none) => ({ s with mutex := m, pc := Function.update s.pc t (.locking st) }, none)
  | (m, some status) =>
    let r := if status = .ok then st else status
    ({ s with
      mutex := m
      pc := Function.update s.pc t .idle
      returned := s.returned ++ [(s.ticket t, r)] }, some r)

/-- `dlsm_gt_condition_signal`, to the end of its section. -/
def signal (s : State) (t : Nat) : State × Option Status :=
  match s.queue.pop with
  | none => (s, some .ok)
  | some (w, q) =>
    ({ s with
      queue := q
      granted := Function.update s.granted w true
      pc := Function.update s.pc t (.unpark [w])
      grants := s.grants ++ [s.ticket w] }, none)

/-- `dlsm_gt_condition_broadcast`, to the end of its section: the tasks are
unparked after it, or inside it if there is no array of their handles. -/
def broadcast (s : State) (t : Nat) (malloc : Bool) (fuel : Nat) : Option (State × Option Status) :=
  (GtWait.walk s.queue.next fuel s.queue.head).map fun l =>
    let s' : State := { s with
      queue := { s.queue with head := none, tail := none }
      granted := fun u => if u ∈ l then true else s.granted u
      grants := s.grants ++ l.map s.ticket }
    if malloc = true ∧ l.length ≤ GtWait.sizeMax / 8 ∨ l = [] then
      ({ s' with pc := Function.update s.pc t (.unpark l) }, none)
    else (s', some .ok)

/-- The task that takes a step of a call on the mutex. -/
def actor : GtMutex.Act → Option Nat
  | .lock h | .timedlock h _ | .trylock h | .unlock h => h
  | .destroy => none
  | .poll t | .wake t _ | .recheck t _ | .unpark t => some t

/-- A call that needs a task as its caller. -/
def call (s : State) (handle : Option Nat) (f : Nat → Option (State × Option Status)) :
    Option (State × Option Status) :=
  match handle with
  | none => some (s, some .inval)
  | some t => if outside s t then f t else none

/-- One step, and the status with which its call returns, if it does. -/
def exec (s : State) : Act → Option (State × Option Status)
  | .wait h fuel => call s h (enter s · .wait fuel)
  | .timedwait h d fuel =>
    if d = 0 ∨ s.parkUntil = false then some (s, some .inval)
    else call s h (enter s · .timedPark fuel)
  | .poll t =>
    if s.pc t = .wait then
      if s.granted t = true then some ({ s with pc := Function.update s.pc t (.relock .ok) }, none)
      else some (s, none)
    else none
  | .wake t st =>
    if s.pc t = .timedPark then some ({ s with pc := Function.update s.pc t (.timedCheck st) }, none) else none
  | .recheck t fuel =>
    match s.pc t with
    | .timedCheck st => recheck s t st fuel
    | _ => none
  | .relock t =>
    match s.pc t with
    | .relock st => some (locked s t st (GtMutex.lock s.mutex t))
    | _ => none
  | .relockPoll t =>
    match s.pc t with
    | .locking st => (GtMutex.exec s.mutex (.poll t)).map (locked s t st)
    | _ => none
  | .signal t => if outside s t then some (signal s t) else none
  | .broadcast t malloc fuel => if outside s t then broadcast s t malloc fuel else none
  | .unpark t =>
    match s.pc t with
    | .unpark (_ :: l) => some ({ s with pc := Function.update s.pc t (.unpark l) }, none)
    | .unpark [] => some ({ s with pc := Function.update s.pc t .idle }, some .ok)
    | _ => none
  | .mutex .destroy => none
  | .mutex a =>
    if ∀ t ∈ actor a, s.pc t = .idle then
      (GtMutex.exec s.mutex a).map fun r => ({ s with mutex := r.1 }, r.2)
    else none

/-- The condition and its mutex in use by any number of tasks and threads. -/
def machine : Machine State Act where
  init := fun s => ∃ p, s = State.initial p
  step := fun s a => (exec s a).map Prod.fst

end Dlsmc.Condition
