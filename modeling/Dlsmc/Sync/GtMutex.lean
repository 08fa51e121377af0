import Dlsmc.Framework.LinkQueue
import Dlsmc.Framework.Machine

/-!
# The green-thread mutex (`gt_mutex.c`)

`dlsm_gt_mutex` and the calls of `lock`, `timedlock`, `trylock`, `unlock` and
`destroy` on it by any number of tasks. A section under `qlock` is one step;
`park` and `park_until` may return at any time, `park_until` with any status
but `E_INVAL` and `E_STATE`. A task has one call in progress at a time, so its
waiter node, on its stack, is named by the task; the queue is the intrusive
list of these nodes.

`State.ticket`, `State.grants` and `State.gaveUp` record the order in which
waiters were enqueued, granted the mutex and gave up; no step reads them.
-/

namespace Dlsmc.GtMutex

/-- The statuses the calls return. -/
inductive Status where
  | ok
  /-- `DLSM_SYNC_E_INVAL` -/
  | inval
  /-- `DLSM_SYNC_E_STATE` -/
  | state
  /-- `DLSM_SYNC_E_TIMEOUT` -/
  | timeout
  /-- `DLSM_SYNC_E_CANCELLED` -/
  | cancelled
  /-- `DLSM_SYNC_E_WAIT` -/
  | wait
  deriving DecidableEq

/-- Where a task stands. -/
inductive Pc where
  /-- Outside any call, and not between an acquire and its unlock. -/
  | idle
  /-- Outside any call, after an acquire that returned `OK`. -/
  | holds
  /-- `lock`: enqueued, reading `granted` and parking. -/
  | lockWait
  /-- `timedlock`: enqueued, inside `park_until`. -/
  | timedPark
  /-- `timedlock`: `park_until` returned `st`, about to take `qlock`. -/
  | timedCheck (st : Status)
  /-- `unlock`: handed the mutex to `w`, about to unpark it. -/
  | unpark (w : Nat)
  deriving DecidableEq

/-- `dlsm_gt_mutex`, the waiter nodes and the tasks. -/
structure State where
  locked : Bool
  initialized : Bool
  owner : Option Nat
  queue : Links Nat
  /-- `ops->park_until` is not `NULL`. -/
  parkUntil : Bool
  granted : Nat → Bool
  pc : Nat → Pc
  ticket : Nat → Nat
  tickets : Nat
  grants : List Nat
  gaveUp : List Nat

/-- `dlsm_gt_mutex_init`, before any call. -/
def State.initial (parkUntil : Bool) : State where
  locked := false
  initialized := true
  owner := none
  queue := ⟨fun _ => none, none, none⟩
  parkUntil := parkUntil
  granted := fun _ => false
  pc := fun _ => .idle
  ticket := fun _ => 0
  tickets := 0
  grants := []
  gaveUp := []

/-- The actions. `handle` is `ops->current()`, `none` outside a task. -/
inductive Act where
  | lock (handle : Option Nat)
  | timedlock (handle : Option Nat) (deadline : Nat)
  | trylock (handle : Option Nat)
  | unlock (handle : Option Nat)
  | destroy
  /-- `lock`'s loop reads `granted` once, and parks and wakes if it is 0. -/
  | poll (t : Nat)
  /-- `park_until` returns. -/
  | wake (t : Nat) (st : Status)
  /-- `timedlock`'s section after `park_until`; `fuel` bounds the loops of
  `remove_waiter`. -/
  | recheck (t fuel : Nat)
  /-- `unlock`'s `unpark` of the next owner. -/
  | unpark (t : Nat)
  deriving DecidableEq

/-- A task that may begin a call. -/
def Pc.outside : Pc → Bool
  | .idle | .holds => true
  | _ => false

/-- Task `t` acquires the unlocked mutex. -/
def acquire (s : State) (t : Nat) : State :=
  { s with locked := true, owner := some t, pc := Function.update s.pc t .holds }

/-- Task `t` enqueues its node and leaves the section to wait at `pc`. -/
def enqueue (s : State) (t : Nat) (pc : Pc) : State :=
  { s with
    granted := Function.update s.granted t false
    queue := s.queue.push t
    pc := Function.update s.pc t pc
    ticket := Function.update s.ticket t s.tickets
    tickets := s.tickets + 1 }

/-- `remove_waiter`. -/
def removeWaiter (q : Links Nat) (t fuel : Nat) : Option (Bool × Links Nat) := q.remove t fuel

/-- `dlsm_gt_mutex_lock`, to the end of its section; the status if it returns
there. -/
def lock (s : State) (t : Nat) : State × Option Status :=
  if s.initialized = false then (s, some .inval)
  else if s.locked = false then (acquire s t, some .ok)
  else if s.owner = some t then (s, some .state)
  else (enqueue s t .lockWait, none)

/-- `dlsm_gt_mutex_timedlock`, to the end of its first section. -/
def timedlock (s : State) (t deadline : Nat) : State × Option Status :=
  if s.initialized = false ∨ deadline = 0 then (s, some .inval)
  else if s.locked = false then (acquire s t, some .ok)
  else if s.owner = some t then (s, some .state)
  else if s.parkUntil = false then (s, some .inval)
  else (enqueue s t .timedPark, none)

/-- `dlsm_gt_mutex_trylock`; `*acquired` is 1 in the branch that acquires. -/
def trylock (s : State) (t : Nat) : State × Option Status :=
  if s.initialized = false then (s, some .inval)
  else if s.locked = false then (acquire s t, some .ok)
  else (s, some .ok)

/-- `dlsm_gt_mutex_unlock`, to the end of its section. -/
def unlock (s : State) (t : Nat) : State × Option Status :=
  if s.initialized = false then (s, some .inval)
  else if s.locked = false ∨ s.owner ≠ some t then (s, some .state)
  else
    match s.queue.head with
    | some w =>
      let head := s.queue.next w
      ({ s with
        queue := { s.queue with head := head, tail := if head = none then none else s.queue.tail }
        owner := some w
        granted := Function.update s.granted w true
        pc := Function.update s.pc t (.unpark w)
        grants := s.grants ++ [s.ticket w] }, none)
    | none => ({ s with locked := false, owner := none, pc := Function.update s.pc t .idle }, some .ok)

/-- `dlsm_gt_mutex_destroy`. -/
def destroy (s : State) : State × Option Status :=
  if s.initialized = false then (s, some .inval)
  else if s.locked = true ∨ s.queue.head ≠ none ∨ s.queue.tail ≠ none then (s, some .state)
  else ({ s with initialized := false }, some .ok)

/-- `timedlock`'s section after `park_until` returned `st`. -/
def recheck (s : State) (t : Nat) (st : Status) (fuel : Nat) : Option (State × Option Status) :=
  if s.granted t = true then some ({ s with pc := Function.update s.pc t .holds }, some .ok)
  else if st ≠ .ok then
    (removeWaiter s.queue t fuel).map fun r =>
      ({ s with
        queue := r.2
        pc := Function.update s.pc t .idle
        gaveUp := s.gaveUp ++ [s.ticket t] }, some st)
  else some ({ s with pc := Function.update s.pc t .timedPark }, none)

/-- A call that needs a task as its caller. -/
def call (s : State) (handle : Option Nat) (f : Nat → State × Option Status) : Option (State × Option Status) :=
  match handle with
  | none => some (s, some .inval)
  | some t => if (s.pc t).outside then some (f t) else none

/-- One step, and the status with which its call returns, if it does. -/
def exec (s : State) : Act → Option (State × Option Status)
  | .lock h => call s h (lock s)
  | .timedlock h d => call s h (timedlock s · d)
  | .trylock h => call s h (trylock s)
  | .unlock h => call s h (unlock s)
  | .destroy => some (destroy s)
  | .poll t =>
    if s.pc t = .lockWait then
      if s.granted t = true then some ({ s with pc := Function.update s.pc t .holds }, some .ok)
      else some (s, none)
    else none
  | .wake t st =>
    if s.pc t = .timedPark ∧ st ≠ .inval ∧ st ≠ .state then
      some ({ s with pc := Function.update s.pc t (.timedCheck st) }, none)
    else none
  | .recheck t fuel =>
    match s.pc t with
    | .timedCheck st => recheck s t st fuel
    | _ => none
  | .unpark t =>
    match s.pc t with
    | .unpark _ => some ({ s with pc := Function.update s.pc t .idle }, some .ok)
    | _ => none

/-- The mutex in use by any number of tasks. -/
def machine : Machine State Act where
  init := fun s => ∃ p, s = State.initial p
  step := fun s a => (exec s a).map Prod.fst

/-- `destroy` is attempted only while the mutex is locked. -/
def destroyLocked (s : State) : Act → Bool
  | .destroy => s.locked
  | _ => true

end Dlsmc.GtMutex
