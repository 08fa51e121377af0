import Mathlib.Algebra.Group.Nat.Defs
import Dlsmc.Framework.LinkQueue
import Dlsmc.Framework.Machine

/-!
# Conditions, events and completions (`gt_wait.c`)

Any number of `dlsm_gt_condition`, `dlsm_gt_event` and `dlsm_gt_completion`
objects, and the calls on them. A wait call keeps its `wait_node` on its stack:
nodes are named by their address, and two calls in progress have different
nodes. Nodes of all objects share one memory (`handle`, `next`, `granted`).
The node ends with its call: from the return on its memory belongs to others,
which overwrite it at any time with anything (`Act.overwrite`), and another
wait call may have its node there. A step that reads such a node reads what was
stored there last; in the code it may also fault, when the stack is unmapped.

A section of a wait call under `qlock` is one step, and so is
`dlsm_gt_condition_signal`; `park` and `park_until` may return at any time.
`grant_all_locked` takes a step for each store of `granted`, each read of a
link after it and each `unpark`. The mutex of a condition is left abstract:
`dlsm_gt_mutex_unlock` may fail.

`State.waits` and the fields `nodes`, `waiters`, `grants`, `unparks` and
`seen` of `Granter` record what happened; no step reads them.
-/

namespace Dlsmc.GtWait

inductive Kind where
  | condition
  | event
  | completion
  deriving DecidableEq

/-- Where the wait call stands whose node this is. -/
inductive Call where
  /-- No call uses the node. -/
  | idle
  /-- `condition_wait`, `condition_timedwait`, `event_wait`: the node is
  initialised, `qlock` of object `o` not taken yet. -/
  | enter (o : Nat) (timed : Bool)
  /-- Queued, reading `granted` and parking. -/
  | poll (o : Nat)
  /-- `condition_timedwait`: queued, inside `park_until`. -/
  | park (o : Nat)
  /-- `condition_timedwait`: `park_until` returned, with `DLSM_OK` or not. -/
  | check (o : Nat) (ok : Bool)
  /-- The wait on a condition is over, locking its mutex again. -/
  | relock
  deriving DecidableEq

/-- Where a call of `grant_all_locked` stands. -/
inductive Pc where
  | idle
  /-- `for (node = waiters; node; ..)`, with the array allocated. -/
  | grant (o : Nat) (node : Option Nat)
  /-- The same loop, at `node = node->next`. -/
  | advance (o : Nat) (node : Nat)
  /-- `for (index = 0; index < count; index++)`, `qlock` released. -/
  | unpark (index : Nat)
  /-- `while (waiters)`, without the array. -/
  | grantLocked (o : Nat) (waiters : Option Nat)
  /-- The same loop, at `ops->unpark(handle)`. -/
  | unparkLocked (o : Nat) (handle : Nat) (next : Option Nat)
  deriving DecidableEq

/-- A thread that calls `condition_broadcast`, `event_set` and
`completion_complete`, with the locals of `grant_all_locked`. -/
structure Granter where
  pc : Pc
  count : Nat
  handles : List Nat
  /-- The nodes in the queue when it was detached, and their handles. -/
  nodes : List Nat
  waiters : List Nat
  /-- The nodes whose `granted` the call stored, and the handles it unparked;
  `none` is an entry of `handles` that was not written. -/
  grants : List Nat
  unparks : List (Option Nat)
  /-- `waits` of the node granted last, at that time. -/
  seen : Nat

def Granter.initial : Granter := ⟨.idle, 0, [], [], [], [], [], 0⟩

/-- The objects, the nodes and the granting threads. -/
structure State where
  kind : Nat → Kind
  /-- `event->signalled`, `completion->completed`. -/
  signalled : Nat → Bool
  qlock : Nat → Bool
  head : Nat → Option Nat
  tail : Nat → Option Nat
  handle : Nat → Nat
  next : Nat → Option Nat
  granted : Nat → Bool
  call : Nat → Call
  granter : Nat → Granter
  /-- How many waits began with this node. -/
  waits : Nat → Nat

/-- Objects just initialised. -/
def State.initial (kind : Nat → Kind) (signalled : Nat → Bool) : State where
  kind := kind
  signalled := signalled
  qlock := fun _ => false
  head := fun _ => none
  tail := fun _ => none
  handle := fun _ => 0
  next := fun _ => none
  granted := fun _ => false
  call := fun _ => .idle
  granter := fun _ => .initial
  waits := fun _ => 0

/-- The actions. `n` is the node of a wait call, `fuel` a bound for the loops
over a queue. -/
inductive Act where
  /-- A wait call of task `handle` on `o` begins. -/
  | wait (n handle o : Nat) (timed : Bool)
  /-- Its section under `qlock`; `unlocked` is the outcome of `dlsm_gt_mutex_unlock`. -/
  | enter (n : Nat) (unlocked : Bool) (fuel : Nat)
  | poll (n : Nat)
  | wake (n : Nat) (ok : Bool)
  | check (n fuel : Nat)
  | relock (n : Nat)
  /-- Memory that is no wait call's node is overwritten. -/
  | overwrite (n handle : Nat) (next : Option Nat) (granted : Bool)
  | signal (o : Nat)
  | reset (o : Nat)
  /-- `condition_broadcast`, `event_set` or `completion_complete` up to the
  detached queue; `malloc` is the outcome of the allocation. -/
  | grantAll (g o : Nat) (malloc : Bool) (fuel : Nat)
  /-- The next step of the call of `g`. -/
  | next (g : Nat)
  deriving DecidableEq

/-- The queue of object `o`. -/
def links (s : State) (o : Nat) : Links Nat := ⟨s.next, s.head o, s.tail o⟩

/-- `s` with the queue of object `o` set to `q`. -/
def setLinks (s : State) (o : Nat) (q : Links Nat) : State :=
  { s with
    next := q.next
    head := Function.update s.head o q.head
    tail := Function.update s.tail o q.tail }

@[simp, grind =] theorem setLinks_granter (s : State) (o g : Nat) (q : Links Nat) :
    (setLinks s o q).granter g = s.granter g := rfl

@[simp, grind =] theorem setLinks_waits (s : State) (o n : Nat) (q : Links Nat) :
    (setLinks s o q).waits n = s.waits n := rfl

def setCall (s : State) (n : Nat) (c : Call) : State := { s with call := Function.update s.call n c }

/-- `struct wait_node waiter = { .handle = handle, .next = NULL }` and
`atomic_init(&waiter.granted, 0)`. -/
def initNode (s : State) (n handle : Nat) : State :=
  { s with
    handle := Function.update s.handle n handle
    next := Function.update s.next n none
    granted := Function.update s.granted n false
    waits := Function.update s.waits n (s.waits n + 1) }

/-- Other data is stored where node `n` was. -/
def overwrite (s : State) (n handle : Nat) (next : Option Nat) (granted : Bool) : State :=
  { s with
    handle := Function.update s.handle n handle
    next := Function.update s.next n next
    granted := Function.update s.granted n granted }

def queuePush (s : State) (o n : Nat) : State := setLinks s o ((links s o).push n)

def queueRemove (s : State) (o n fuel : Nat) : Option State :=
  ((links s o).remove n fuel).map fun r => setLinks s o r.2

/-- A wait call, up to its section under `qlock`; `completion_wait`, which
initialises the node inside it, to the end of that section. -/
def wait (s : State) (n handle o : Nat) (timed : Bool) : Option State :=
  match s.kind o with
  | .condition => some (setCall (initNode s n handle) n (.enter o timed))
  | .event => some (setCall (initNode s n handle) n (.enter o false))
  | .completion =>
    if s.qlock o = true then none
    else if s.signalled o = true then some s
    else some (setCall (queuePush (initNode s n handle) o n) n (.poll o))

/-- The section under `qlock` of `condition_wait`, `condition_timedwait` and
`event_wait`. -/
def enter (s : State) (n o : Nat) (timed unlocked : Bool) (fuel : Nat) : Option State :=
  if s.qlock o = true then none
  else if s.kind o = .event then
    if s.signalled o = true then some (setCall s n .idle)
    else some (setCall (queuePush s o n) n (.poll o))
  else if unlocked = true then some (setCall (queuePush s o n) n (if timed then .park o else .poll o))
  else (queueRemove (queuePush s o n) o n fuel).map fun s => setCall s n .idle

/-- Where a wait continues once its node was granted. -/
def resumed (s : State) (o : Nat) : Call := if s.kind o = .condition then .relock else .idle

/-- `condition_timedwait`'s section after `park_until`. -/
def check (s : State) (n o : Nat) (ok : Bool) (fuel : Nat) : Option State :=
  if s.qlock o = true then none
  else if s.granted n = true then some (setCall s n (resumed s o))
  else if ok = false then (queueRemove s o n fuel).map fun s => setCall s n (resumed s o)
  else some (setCall s n (.park o))

/-- `dlsm_gt_condition_signal`. -/
def signal (s : State) (o : Nat) : Option State :=
  if s.qlock o = true ∨ s.kind o ≠ .condition then none
  else
    match (links s o).pop with
    | none => some s
    | some (n, q) => some { setLinks s o q with granted := Function.update s.granted n true }

/-- The nodes the counting loop of `grant_all_locked` visits. -/
def walk (next : Nat → Option Nat) : Nat → Option Nat → Option (List Nat)
  | 0, _ => none
  | _ + 1, none => some []
  | f + 1, some n => (walk next f (next n)).map (n :: ·)

def sizeMax : Nat := 2 ^ 64 - 1

/-- `grant_all_locked` on object `o`, to the point where the queue is detached. -/
def grantAllLocked (s : State) (g o : Nat) (malloc : Bool) (fuel : Nat) : Option State :=
  (walk s.next fuel (s.head o)).map fun nodes =>
    let count := nodes.length
    let handles := decide (count ≠ 0 ∧ count ≤ sizeMax / 8) && malloc
    { s with
      qlock := Function.update s.qlock o true
      head := Function.update s.head o none
      tail := Function.update s.tail o none
      granter := Function.update s.granter g
        { pc := if handles = true ∨ count = 0 then .grant o (s.head o) else .grantLocked o (s.head o)
          count := count
          handles := []
          nodes := nodes
          waiters := nodes.map s.handle
          grants := []
          unparks := []
          seen := 0 } }

/-- `condition_broadcast`, `event_set` or `completion_complete`. -/
def grantAll (s : State) (g o : Nat) (malloc : Bool) (fuel : Nat) : Option State :=
  if s.qlock o = true then none
  else
    match s.kind o with
    | .condition => grantAllLocked s g o malloc fuel
    | .event => grantAllLocked { s with signalled := Function.update s.signalled o true } g o malloc fuel
    | .completion =>
      if s.signalled o = true then some s
      else grantAllLocked { s with signalled := Function.update s.signalled o true } g o malloc fuel

def setGranter (s : State) (g : Nat) (G : Granter) : State := { s with granter := Function.update s.granter g G }

/-- The next step of `grant_all_locked` in thread `g`. The handle of a node is
a plain field that is read before `granted` is stored, in the same step. -/
def grantStep (s : State) (g : Nat) : Option State :=
  let G := s.granter g
  match G.pc with
  | .idle => none
  | .grant o none =>
    some (setGranter { s with qlock := Function.update s.qlock o false } g { G with pc := .unpark 0 })
  | .grant o (some n) =>
    some (setGranter { s with granted := Function.update s.granted n true } g
      { G with
        pc := .advance o n
        handles := G.handles ++ [s.handle n]
        grants := G.grants ++ [n]
        seen := s.waits n })
  | .advance o n => some (setGranter s g { G with pc := .grant o (s.next n) })
  | .unpark i =>
    if i < G.count then
      some (setGranter s g { G with pc := .unpark (i + 1), unparks := G.unparks ++ [G.handles[i]?] })
    else some (setGranter s g { G with pc := .idle })
  | .grantLocked o none =>
    some (setGranter { s with qlock := Function.update s.qlock o false } g { G with pc := .idle })
  | .grantLocked o (some n) =>
    some (setGranter { s with granted := Function.update s.granted n true } g
      { G with pc := .unparkLocked o (s.handle n) (s.next n), grants := G.grants ++ [n] })
  | .unparkLocked o h next =>
    some (setGranter s g { G with pc := .grantLocked o next, unparks := G.unparks ++ [some h] })

/-- One step of any wait call, signal or broadcast. -/
def step (s : State) : Act → Option State
  | .wait n h o timed => if s.call n = .idle then wait s n h o timed else none
  | .enter n unlocked fuel =>
    match s.call n with
    | .enter o timed => enter s n o timed unlocked fuel
    | _ => none
  | .poll n =>
    match s.call n with
    | .poll o => if s.granted n = true then some (setCall s n (resumed s o)) else some s
    | _ => none
  | .wake n ok =>
    match s.call n with
    | .park o => some (setCall s n (.check o ok))
    | _ => none
  | .check n fuel =>
    match s.call n with
    | .check o ok => check s n o ok fuel
    | _ => none
  | .relock n => if s.call n = .relock then some (setCall s n .idle) else none
  | .overwrite n handle next granted =>
    if s.call n = .idle then some (overwrite s n handle next granted) else none
  | .signal o => signal s o
  | .reset o =>
    if s.qlock o = true ∨ s.kind o ≠ .event then none
    else some { s with signalled := Function.update s.signalled o false }
  | .grantAll g o malloc fuel => if (s.granter g).pc = .idle then grantAll s g o malloc fuel else none
  | .next g => grantStep s g

/-- The objects in use by any number of tasks and threads. -/
def machine : Machine State Act where
  init := fun s => ∃ kind signalled, s = State.initial kind signalled
  step := step

/-- The wait call in which `G` granted node `n` has not returned. -/
def unreturned (s : State) (G : Granter) (n : Nat) : Bool := s.waits n == G.seen && s.call n != .idle

/-- The step does not read the link of a node whose wait call returned. -/
def linkLives (s : State) : Act → Bool
  | .next g =>
    match (s.granter g).pc with
    | .advance _ n => unreturned s (s.granter g) n
    | _ => true
  | _ => true

/-- What a call of `grant_all_locked` has done so far is what it should: it
stored `granted` only in nodes it detached, in their order and once in each,
it unparked only their handles, and when it is over it left none out. -/
structure Exact (G : Granter) : Prop where
  nodup : G.nodes.Nodup
  handles : G.waiters.length = G.nodes.length
  grants : G.grants <+: G.nodes
  unparks : G.unparks <+: G.waiters.map some
  /-- The node the loop is about to grant is the next one detached. -/
  visits : ∀ o n, G.pc = .grant o (some n) ∨ G.pc = .grantLocked o (some n) → G.grants ++ [n] <+: G.nodes
  /-- `qlock` is released when every node was granted. -/
  released : (∃ i, G.pc = .unpark i) ∨ G.pc = .idle → G.grants = G.nodes
  returned : G.pc = .idle → G.unparks = G.waiters.map some

end Dlsmc.GtWait
