import Mathlib.Algebra.Ring.Int.Defs
import Dlsmc.Framework.LinkQueue
import Dlsmc.Framework.Machine
import Dlsmc.Sync.GtWait

/-!
# The wait group (`gt_wait.c`)

`dlsm_gt_wait_group` and the calls of `add`, `done` and `wait` on it by any
number of tasks and threads. A section under `qlock` is one step, except the
one in which the count reaches 0: `grant_all_locked` takes a step for each
store of `granted` and for each read of a link after it, with `qlock` held, and
waiters read `granted` without it. `park` may return at any time, so the
`unpark` of a waiter changes nothing here and is left out.

A task has one call in progress, so its waiter node, on its stack, is named by
the task: its handle, a 64-bit pointer. `count` and `waiters` are 64-bit
counters.

`State.accepted` and `State.sawZero` record the deltas accepted with `DLSM_OK`,
and for each task whether the count has been 0 since it was queued; no step
reads them.
-/

namespace Dlsmc.WaitGroup

/-- `UINT64_MAX` -/
def UINT64_MAX : Nat := 2 ^ 64 - 1

/-- The statuses the calls return. -/
inductive Status where
  | ok
  /-- `DLSM_SYNC_E_INVAL` -/
  | inval
  /-- `DLSM_SYNC_E_STATE` -/
  | state
  deriving DecidableEq

/-- Where a task stands in `wait`. -/
inductive Pc where
  | idle
  /-- Queued, reading `granted` and parking. -/
  | wait
  /-- Read `granted`, about to take `qlock` and leave. -/
  | leave
  deriving DecidableEq

/-- Where a call of `add` stands in `grant_all_locked`. -/
inductive Granting where
  | idle
  /-- `for (node = waiters; node; ..)`, with the array allocated. -/
  | grant (node : Option Nat)
  /-- The same loop, at `node = node->next`. -/
  | advance (node : Nat)
  /-- `while (waiters)`, without the array. -/
  | grantLocked (waiters : Option Nat)
  deriving DecidableEq

/-- `dlsm_gt_wait_group`, the waiter nodes, the tasks and the calls of `add`. -/
structure State where
  count : Nat
  waiters : Nat
  queue : Links Nat
  qlock : Bool
  granted : Nat → Bool
  pc : Nat → Pc
  granting : Nat → Granting
  accepted : List Int
  sawZero : Nat → Bool

/-- `dlsm_gt_wait_group_init` -/
def State.initial (count : Nat) : State where
  count := count
  waiters := 0
  queue := ⟨fun _ => none, none, none⟩
  qlock := false
  granted := fun _ => false
  pc := fun _ => .idle
  granting := fun _ => .idle
  accepted := []
  sawZero := fun _ => false

inductive Act where
  /-- `dlsm_gt_wait_group_add` by thread `g`, which for -1 is
  `dlsm_gt_wait_group_done`; `malloc` is the outcome of the allocation in
  `grant_all_locked`, `fuel` a bound for its counting loop. -/
  | add (g : Nat) (delta : BitVec 64) (malloc : Bool) (fuel : Nat)
  /-- The next step of `grant_all_locked`. -/
  | next (g : Nat)
  /-- `dlsm_gt_wait_group_wait`; `handle` is `ops->current()`, 0 outside a task. -/
  | wait (handle : Nat)
  /-- `wait` reads `granted` once, and parks and wakes if it is 0. -/
  | poll (t : Nat)
  /-- `wait` decrements `waiters` and returns. -/
  | leave (t : Nat)
  deriving DecidableEq

/-- `grant_all_locked`, to the point where the queue is detached. -/
def grantAllLocked (s : State) (g : Nat) (malloc : Bool) (fuel : Nat) : Option State :=
  (GtWait.walk s.queue.next fuel s.queue.head).map fun nodes =>
    let count := nodes.length
    let handles := decide (count ≠ 0 ∧ count ≤ GtWait.sizeMax / 8) && malloc
    { s with
      qlock := true
      queue := { s.queue with head := none, tail := none }
      granting := Function.update s.granting g
        (if handles = true ∨ count = 0 then .grant s.queue.head else .grantLocked s.queue.head) }

/-- `dlsm_gt_wait_group_add` -/
def add (s : State) (g : Nat) (delta : BitVec 64) (malloc : Bool) (fuel : Nat) : Option (State × Status) :=
  if 0 < delta.toInt then
    let increment := delta.toNat
    if s.count = 0 ∧ s.waiters ≠ 0 ∨ s.count > UINT64_MAX - increment then some (s, .state)
    else some ({ s with count := s.count + increment, accepted := s.accepted ++ [delta.toInt] }, .ok)
  else if delta.toInt = 0 then some ({ s with accepted := s.accepted ++ [delta.toInt] }, .ok)
  else
    let decrement := ((-(delta + 1)).toNat + 1) % 2 ^ 64
    if decrement > s.count then some (s, .state)
    else
      let s' := { s with count := s.count - decrement, accepted := s.accepted ++ [delta.toInt] }
      if s'.count = 0 then
        (grantAllLocked { s' with sawZero := fun _ => true } g malloc fuel).map (·, .ok)
      else some (s', .ok)

/-- Thread `g` moves on in `grant_all_locked`; at its end `qlock` is released. -/
def grantStep (s : State) (g : Nat) : Option State :=
  match s.granting g with
  | .idle => none
  | .grant none | .grantLocked none =>
    some { s with qlock := false, granting := Function.update s.granting g .idle }
  | .grant (some n) =>
    some { s with
      granted := Function.update s.granted n true, granting := Function.update s.granting g (.advance n) }
  | .advance n => some { s with granting := Function.update s.granting g (.grant (s.queue.next n)) }
  | .grantLocked (some n) =>
    some { s with
      granted := Function.update s.granted n true
      granting := Function.update s.granting g (.grantLocked (s.queue.next n)) }

/-- `dlsm_gt_wait_group_wait`, to the end of its first section. -/
def wait (s : State) (handle : Nat) : State × Option Status :=
  if s.count = 0 then (s, some .ok)
  else if handle = 0 then (s, some .inval)
  else
    ({ s with
      granted := Function.update s.granted handle false
      waiters := (s.waiters + 1) % 2 ^ 64
      queue := s.queue.push handle
      pc := Function.update s.pc handle .wait
      sawZero := Function.update s.sawZero handle false }, none)

/-- One step, and the status with which its call returns, if it does. -/
def exec (s : State) : Act → Option (State × Option Status)
  | .add g delta malloc fuel =>
    if s.qlock = false ∧ s.granting g = .idle then (add s g delta malloc fuel).map fun r => (r.1, some r.2) else none
  | .next g => (grantStep s g).map (·, none)
  | .wait handle => if s.qlock = false ∧ handle < 2 ^ 64 ∧ s.pc handle = .idle then some (wait s handle) else none
  | .poll t =>
    if s.pc t = .wait then
      if s.granted t = true then some ({ s with pc := Function.update s.pc t .leave }, none) else some (s, none)
    else none
  | .leave t =>
    if s.qlock = false ∧ s.pc t = .leave then
      some ({ s with waiters := (s.waiters + 2 ^ 64 - 1) % 2 ^ 64, pc := Function.update s.pc t .idle }, some .ok)
    else none

/-- The wait group, initialised with `c`, in use by any number of tasks. -/
def machine (c : Nat) : Machine State Act where
  init := fun s => s = State.initial c
  step := fun s a => (exec s a).map Prod.fst

/-- What holds in every state of a wait group initialised with `c`. -/
structure Safe (c : Nat) (s : State) : Prop where
  /-- The count is the exact sum of what was accepted. -/
  count : (s.count : Int) = c + s.accepted.sum
  bound : s.count ≤ UINT64_MAX
  /-- With `qlock` free: an empty queue at count 0, and the tasks that
  `waiters` counts. -/
  waiters : s.qlock = false → ∃ l k : List Nat, s.queue.Repr l ∧ (s.count = 0 → l = []) ∧
    (∀ t, t ∈ l ↔ s.pc t ≠ .idle ∧ s.granted t = false) ∧
    k.Nodup ∧ (∀ t, t ∈ k ↔ s.pc t ≠ .idle ∧ s.granted t = true) ∧ s.waiters = l.length + k.length
  /-- The counting loop ends. -/
  ends : s.qlock = false → ∃ f, ∀ g delta malloc, s.granting g = .idle → ∀ fuel ≥ f,
    (exec s (.add g delta malloc fuel)).isSome

/-- What a step from `s` to `s'` does whose call returns `r`. -/
structure StepSafe (s : State) (a : Act) (s' : State) (r : Option Status) : Prop where
  /-- An add that is refused changes nothing, and one that is accepted adds its delta. -/
  refused : ∀ g delta malloc fuel, a = .add g delta malloc fuel → r = some .state → s' = s
  accepted : ∀ g delta malloc fuel, a = .add g delta malloc fuel → r = some .ok →
    (s'.count : Int) = s.count + delta.toInt ∧ s'.accepted = s.accepted ++ [delta.toInt]
  sum : (∀ g delta malloc fuel, a ≠ .add g delta malloc fuel) → s'.count = s.count ∧ s'.accepted = s.accepted
  /-- A wait that was queued returns only after the count has been 0. -/
  returns : ∀ t, s.pc t ≠ .idle → s'.pc t = .idle → s.sawZero t = true ∧ r = some .ok
  /-- The record of it starts afresh with each wait and is set only at count 0. -/
  queued : ∀ t, s.pc t = .idle → s'.pc t ≠ .idle → s'.sawZero t = false
  zero : ∀ t, s.pc t ≠ .idle → s.sawZero t = false → s'.sawZero t = true → s'.count = 0
  /-- A new generation starts only when no waiter of the old one is left. -/
  generation : s.count = 0 → s'.count ≠ 0 → ∀ t, s.pc t = .idle

end Dlsmc.WaitGroup
