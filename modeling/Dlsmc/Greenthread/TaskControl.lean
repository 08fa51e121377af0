import Dlsmc.Framework.LinkQueue
import Dlsmc.Greenthread.Runtime

/-!
# Task control blocks (`greenthread.c`)

The control blocks of the tasks of one runtime, from `task_new` to `free`: the
references on them (`dlsm_gt_task_retain`, `dlsm_gt_task_release`,
`dlsm_gt_task_wait`), the VP that runs a task and finishes it (`rt_task_done`,
`task_release_stack`, `task_execution_released`), and `dlsm_gt_runtime_free`.
`t->lock` and `t->completion_mutex` are taken and released in steps of their
own, as is each access in between; a section under `rt->lock` is one step, also
where `t->lock` is held around it.

A control block is never used for a second task here: one that is touched after
its `free` is a fault, whatever it holds. When `rt->state` changes is left open,
except that the runtime is stopped only after its VPs are joined; so are the
queues of the scheduler, which run a ready task some time on some VP.

`holders` are the callers that hold a reference, each as often as it holds one.
`accepted`, `unlinked` and `frees` record what happened; no step reads them.
-/

namespace Dlsmc.TaskControl

open Dlsmc.Runtime (RtState TaskState uint32Max)

/-- What a task acquires. -/
inductive Resource where
  | stackMap
  | fiber
  | completionMutex
  | completionCondition
  | localValues
  deriving DecidableEq

/-- The code that frees a control block. -/
inductive Path where
  /-- `vp_main`, after `task_execution_released`. -/
  | vp
  /-- `dlsm_gt_task_release` -/
  | release
  /-- `dlsm_gt_spawn_ex`, when the runtime no longer accepts tasks. -/
  | refused
  /-- `dlsm_gt_runtime_free` -/
  | runtimeFree
  deriving DecidableEq

/-- A control block was freed, with what it still owned. -/
structure Free where
  task : Nat
  path : Path
  left : List Resource
  deriving DecidableEq

/-- Where a thread stands. -/
inductive Pc where
  | idle
  /-- `spawn_ex`: `task_new` returned `t`. -/
  | spawn (t : Nat)
  /-- `spawn_ex`: accepted, about to make `t` ready. -/
  | accepted (t : Nat)
  /-- `spawn_ex`: about to call `task_free`. -/
  | refused (t : Nat)
  /-- `task_retain`: at `dlsm_ticket_lock_acquire`. -/
  | retain (t : Nat)
  | retainLocked (t : Nat)
  /-- `task_release`: at `dlsm_ticket_lock_acquire`. -/
  | release (t : Nat)
  | releaseLocked (t : Nat)
  /-- `task_wait`: at `pthread_mutex_lock`. -/
  | wait (t : Nat)
  | waitLocked (t : Nat)
  /-- `task_wait`: in `pthread_cond_wait`. -/
  | waitBlocked (t : Nat)
  /-- A VP executes the task. -/
  | run (t : Nat)
  /-- `rt_task_done`: at `dlsm_ticket_lock_acquire`. -/
  | done (t : Nat)
  | doneLocked (t : Nat)
  /-- `rt_task_done`: about to release `t->lock`. -/
  | doneUnlock (t : Nat)
  /-- `rt_task_done`: at `pthread_mutex_lock`. -/
  | doneMutex (t : Nat)
  | doneMutexLocked (t : Nat)
  /-- `rt_task_done`: about to unlock the mutex. -/
  | doneMutexUnlock (t : Nat)
  /-- `vp_main`: about to call `task_release_stack`. -/
  | stack (t : Nat)
  /-- `task_execution_released`: at `dlsm_ticket_lock_acquire`. -/
  | exec (t : Nat)
  | execLocked (t : Nat)
  /-- At the section under `rt->lock` that calls `task_unlink`, with `t->lock`. -/
  | unlink (path : Path) (t : Nat)
  /-- About to release `t->lock`; `reclaim` is whether the control block is freed next. -/
  | unlock (reclaim : Option Path) (t : Nat)
  /-- About to free the control block. -/
  | free (path : Path) (t : Nat)
  /-- `runtime_free`: at `while (tasks)`. -/
  | runtimeFree (tasks : Option Nat)
  deriving DecidableEq

/-- The runtime, its tasks and the threads that use them. -/
structure State where
  allTasks : Option Nat
  allNext : Nat → Option Nat
  rtState : RtState
  live : Nat
  stopRequested : Bool
  autoStop : Bool
  /-- `dlsm_gt_runtime_free` has been called. -/
  rtFreed : Bool
  /-- The VPs that execute or finish a task. -/
  busy : List Nat
  state : Nat → TaskState
  externalRefs : Nat → Nat
  executionReleased : Nat → Bool
  completionDone : Nat → Bool
  completionInitialized : Nat → Bool
  stackMap : Nat → Bool
  fiber : Nat → Bool
  completionMutex : Nat → Bool
  completionCondition : Nat → Bool
  localValues : Nat → Bool
  /-- The thread that holds `t->lock`. -/
  lock : Nat → Option Nat
  /-- The thread that holds `t->completion_mutex`. -/
  mutex : Nat → Option Nat
  pc : Nat → Pc
  holders : Nat → List Nat
  accepted : List Nat
  unlinked : List Nat
  frees : List Free

/-- A new runtime. -/
def State.initial (autoStop : Bool) : State where
  allTasks := none
  allNext := fun _ => none
  rtState := .created
  live := 0
  stopRequested := false
  autoStop := autoStop
  rtFreed := false
  busy := []
  state := fun _ => .none
  externalRefs := fun _ => 0
  executionReleased := fun _ => false
  completionDone := fun _ => false
  completionInitialized := fun _ => false
  stackMap := fun _ => false
  fiber := fun _ => false
  completionMutex := fun _ => false
  completionCondition := fun _ => false
  localValues := fun _ => false
  lock := fun _ => none
  mutex := fun _ => none
  pc := fun _ => .idle
  holders := fun _ => []
  accepted := []
  unlinked := []
  frees := []

inductive Act where
  /-- `dlsm_gt_spawn_ex`: `task_new` returns `t`; `fiber` is what `TSAN_CREATE`
  returns. `dlsm_gt_spawn_detached` is this and `release`. -/
  | spawn (c t : Nat) (fiber : Bool)
  | retain (c t : Nat)
  | release (c t : Nat)
  | wait (c t : Nat)
  /-- `c` hands one of its references to `d`. -/
  | transfer (c d t : Nat)
  /-- A VP takes the task from a queue and switches to it. -/
  | dispatch (c t : Nat)
  | yield (c : Nat)
  | park (c : Nat)
  | unpark (c t : Nat)
  /-- `dlsm_gt_setspecific` with a valid key; `ok` is whether `calloc` succeeds. -/
  | setspecific (c : Nat) (ok : Bool)
  /-- The entry function returned: `TR_FINISH`. -/
  | finish (c : Nat)
  /-- `dlsm_gt_start`, `dlsm_gt_stop` or `dlsm_gt_wait` changes `rt->state`. -/
  | setState (st : RtState) (stop : Bool)
  | runtimeFree (c : Nat)
  /-- The next step of a call; `fuel` bounds the loop of `task_unlink`. -/
  | next (c fuel : Nat)
  deriving DecidableEq

/-- Thread `c` moves to `pc`. -/
def State.goto (s : State) (c : Nat) (pc : Pc) : State := { s with pc := Function.update s.pc c pc }

/-- The call of `c` returns; a VP goes back to its scheduler. -/
def State.ret (s : State) (c : Nat) : State :=
  { s with pc := Function.update s.pc c .idle, busy := s.busy.erase c }

/-- What a task owns. -/
def owned (s : State) (t : Nat) : List Resource :=
  (if s.stackMap t then [.stackMap] else []) ++ (if s.fiber t then [.fiber] else []) ++
    (if s.completionMutex t then [.completionMutex] else []) ++
    (if s.completionCondition t then [.completionCondition] else []) ++
    (if s.localValues t then [.localValues] else [])

/-- `calloc` and the initialisations of `task_new`. -/
def taskNew (s : State) (t : Nat) (fiber : Bool) : State :=
  { s with
    state := Function.update s.state t .new
    completionMutex := Function.update s.completionMutex t true
    completionCondition := Function.update s.completionCondition t true
    completionInitialized := Function.update s.completionInitialized t true
    stackMap := Function.update s.stackMap t true
    fiber := Function.update s.fiber t fiber }

/-- `task_release_stack` -/
def taskReleaseStack (s : State) (t : Nat) : State :=
  { s with fiber := Function.update s.fiber t false, stackMap := Function.update s.stackMap t false }

/-- `free(t)` -/
def freeTask (s : State) (path : Path) (t : Nat) : State := { s with frees := ⟨t, path, owned s t⟩ :: s.frees }

/-- `task_free` -/
def taskFree (s : State) (path : Path) (t : Nat) : State :=
  let s := taskReleaseStack s t
  let s := if s.completionInitialized t then
    { s with
      completionCondition := Function.update s.completionCondition t false
      completionMutex := Function.update s.completionMutex t false }
    else s
  freeTask { s with localValues := Function.update s.localValues t false } path t

/-- The end of the two calls that may reclaim: `if (reclaim)` in `vp_main` and
in `dlsm_gt_task_release`. -/
def reclaim (s : State) : Path → Nat → State
  | .vp, t => freeTask s .vp t
  | path, t => taskFree s path t

/-- `task_unlink`; whether `t` was in the list. -/
def taskUnlink (s : State) (t fuel : Nat) : Option (Bool × State) :=
  let q : Links Nat := ⟨s.allNext, s.allTasks, none⟩
  (q.findLink t fuel .head).map fun link =>
    if q.deref link = none then (false, s)
    else
      let q := q.store (s.allNext t) link
      (true, { s with
        allTasks := q.head
        allNext := Function.update q.next t none
        unlinked := t :: s.unlinked })

/-- The section of `dlsm_gt_spawn_ex` under `rt->lock`. -/
def spawnAccept (s : State) (c t : Nat) : State :=
  if s.rtState = .created ∨ s.rtState = .running then
    { s with
      allNext := Function.update s.allNext t s.allTasks
      allTasks := some t
      externalRefs := Function.update s.externalRefs t 1
      live := s.live + 1
      holders := Function.update s.holders t [c]
      accepted := t :: s.accepted }.goto c (.accepted t)
  else s.goto c (.refused t)

/-- `dlsm_gt_task_retain`, under `t->lock`. -/
def taskRetain (s : State) (c t : Nat) : State :=
  if s.externalRefs t = uint32Max then s.goto c (.unlock none t) -- DLSM_GT_E_NOMEM
  else
    { s with
      externalRefs := Function.update s.externalRefs t (s.externalRefs t + 1)
      holders := Function.update s.holders t (c :: s.holders t) }.goto c (.unlock none t)

/-- `dlsm_gt_task_release`, under `t->lock`, up to the section under `rt->lock`. -/
def taskRelease (s : State) (c t : Nat) : State :=
  if s.externalRefs t = 0 then s.goto c (.unlock none t) -- DLSM_GT_E_STATE
  else
    let s := { s with
      externalRefs := Function.update s.externalRefs t (s.externalRefs t - 1)
      holders := Function.update s.holders t ((s.holders t).erase c) }
    if s.externalRefs t = 0 ∧ s.state t = .finished ∧ s.executionReleased t = true then s.goto c (.unlink .release t)
    else s.goto c (.unlock none t)

/-- `rt_task_done`, under `t->lock`, with its section under `rt->lock`. -/
def rtTaskDone (s : State) (c t : Nat) : State :=
  { s with
    state := Function.update s.state t .finished
    live := s.live - 1
    rtState := if s.live - 1 = 0 ∧ (s.stopRequested = true ∨ s.autoStop = true) ∧ s.rtState = RtState.running then
      .stopping else s.rtState }.goto c (.doneUnlock t)

/-- `task_execution_released`, under `t->lock`, up to the section under `rt->lock`. -/
def taskExecutionReleased (s : State) (c t : Nat) : State :=
  let s := { s with executionReleased := Function.update s.executionReleased t true }
  if s.externalRefs t = 0 then s.goto c (.unlink .vp t) else s.goto c (.unlock none t)

/-- `c` takes `t->lock`, if it is free, and goes to `pc`. -/
def State.acquire (s : State) (c t : Nat) (pc : Pc) : Option State :=
  if s.lock t = none then some ({ s with lock := Function.update s.lock t (some c) }.goto c pc) else none

/-- `c` takes `t->completion_mutex`, if it is free, and goes to `pc`. -/
def State.acquireMutex (s : State) (c t : Nat) (pc : Pc) : Option State :=
  if s.mutex t = none then some ({ s with mutex := Function.update s.mutex t (some c) }.goto c pc) else none

/-- The next step of a thread inside a call. -/
def next (s : State) (c fuel : Nat) : Option State :=
  match s.pc c with
  | .idle => none
  | .spawn t => some (spawnAccept s c t)
  | .accepted t =>
    -- `task_make_ready` under `t->lock`
    if s.lock t = none then some ({ s with state := Function.update s.state t .ready }.goto c .idle) else none
  | .refused t => some ((taskFree s .refused t).goto c .idle)
  | .retain t => s.acquire c t (.retainLocked t)
  | .retainLocked t => some (taskRetain s c t)
  | .release t => s.acquire c t (.releaseLocked t)
  | .releaseLocked t => some (taskRelease s c t)
  | .wait t => s.acquireMutex c t (.waitLocked t)
  | .waitLocked t =>
    some ({ s with mutex := Function.update s.mutex t none }.goto c
      (if s.completionDone t then .idle else .waitBlocked t))
  | .waitBlocked t => some (s.goto c (.wait t))
  | .run _ => none
  | .done t => s.acquire c t (.doneLocked t)
  | .doneLocked t => some (rtTaskDone s c t)
  | .doneUnlock t => some ({ s with lock := Function.update s.lock t none }.goto c (.doneMutex t))
  | .doneMutex t => s.acquireMutex c t (.doneMutexLocked t)
  | .doneMutexLocked t =>
    some ({ s with completionDone := Function.update s.completionDone t true }.goto c (.doneMutexUnlock t))
  | .doneMutexUnlock t => some ({ s with mutex := Function.update s.mutex t none }.goto c (.stack t))
  | .stack t => some ((taskReleaseStack s t).goto c (.exec t))
  | .exec t => s.acquire c t (.execLocked t)
  | .execLocked t => some (taskExecutionReleased s c t)
  | .unlink path t =>
    (taskUnlink s t fuel).map fun r => r.2.goto c (.unlock (if r.1 then some path else none) t)
  | .unlock reclaim t =>
    let s := { s with lock := Function.update s.lock t none }
    match reclaim with
    | some path => some (s.goto c (.free path t))
    | none => some (s.ret c)
  | .free path t => some ((reclaim s path t).ret c)
  | .runtimeFree none => some (s.goto c .idle)
  | .runtimeFree (some t) => some ((taskFree s .runtimeFree t).goto c (.runtimeFree (s.allNext t)))

/-- One step. -/
def step (s : State) : Act → Option State
  | .spawn c t fiber =>
    if s.pc c = .idle ∧ s.state t = .none ∧ s.rtFreed = false then
      some ((taskNew s t fiber).goto c (.spawn t)) else none
  | .retain c t => if s.pc c = .idle ∧ c ∈ s.holders t then some (s.goto c (.retain t)) else none
  | .release c t => if s.pc c = .idle ∧ c ∈ s.holders t then some (s.goto c (.release t)) else none
  | .wait c t => if s.pc c = .idle ∧ c ∈ s.holders t then some (s.goto c (.wait t)) else none
  | .transfer c d t =>
    if s.pc c = .idle ∧ c ∈ s.holders t then
      some { s with holders := Function.update s.holders t (d :: (s.holders t).erase c) }
    else none
  | .dispatch c t =>
    if s.pc c = .idle ∧ s.state t = .ready ∧ s.lock t = none ∧ s.rtFreed = false ∧ s.rtState ≠ .created ∧
        s.rtState ≠ .stopped then
      some ({ s with state := Function.update s.state t .running, busy := c :: s.busy }.goto c (.run t))
    else none
  | .yield c =>
    match s.pc c with
    | .run t => if s.lock t = none then
        some ({ s with state := Function.update s.state t .ready }.ret c) else none
    | _ => none
  | .park c =>
    match s.pc c with
    | .run t => if s.lock t = none then
        some ({ s with state := Function.update s.state t .parked }.ret c) else none
    | _ => none
  | .unpark c t =>
    if s.pc c = .idle ∧ s.state t = .parked ∧ s.lock t = none then
      some { s with state := Function.update s.state t .ready } else none
  | .setspecific c ok =>
    match s.pc c with
    | .run t => some { s with localValues := Function.update s.localValues t (s.localValues t || ok) }
    | _ => none
  | .finish c =>
    match s.pc c with
    | .run t => some (s.goto c (.done t))
    | _ => none
  | .setState st stop =>
    if s.rtState ≠ .stopped ∧ s.rtFreed = false ∧ st ≠ .created ∧ (st = .stopped → s.busy = []) then
      some { s with rtState := st, stopRequested := s.stopRequested || stop }
    else none
  | .runtimeFree c =>
    if s.pc c = .idle ∧ s.rtFreed = false ∧ (s.rtState = .created ∨ s.rtState = .stopped) then
      some ({ s with allTasks := none, rtFreed := true, holders := fun _ => [] }.goto c (.runtimeFree s.allTasks))
    else none
  | .next c fuel => next s c fuel

/-- The tasks of one runtime, used by any number of threads. -/
def machine : Machine State Act where
  init := fun s => ∃ autoStop, s = State.initial autoStop
  step := step

/-! ## What is proved of it -/

/-- The tasks freed so far. -/
def freed (s : State) : List Nat := s.frees.map Free.task

/-- What a thread is doing with a control block. -/
inductive Role where
  | none
  /-- It made the control block, which is in no list yet. -/
  | fresh (t : Nat)
  /-- It is about to make `t` ready, with the first reference. -/
  | starting (t : Nat)
  /-- It is in a call with a reference of its own. -/
  | user (t : Nat)
  /-- It is the VP of `t`, and `execution_released` is not stored yet. -/
  | vp (t : Nat)
  /-- It decided to reclaim `t`, has unlinked it or not, and has not freed it. -/
  | reclaim (unlinked : Bool) (t : Nat)
  /-- It is about to release `t->lock`, and reclaims nothing. -/
  | leaving (t : Nat)
  | runtimeFree
  deriving DecidableEq

def Pc.role : Pc → Role
  | .idle => .none
  | .spawn t | .refused t => .fresh t
  | .accepted t => .starting t
  | .retain t | .retainLocked t | .release t | .releaseLocked t | .wait t | .waitLocked t | .waitBlocked t => .user t
  | .run t | .done t | .doneLocked t | .doneUnlock t | .doneMutex t | .doneMutexLocked t | .doneMutexUnlock t
  | .stack t | .exec t | .execLocked t => .vp t
  | .unlink _ t => .reclaim false t
  | .unlock (some _) t | .free _ t => .reclaim true t
  | .unlock none t => .leaving t
  | .runtimeFree _ => .runtimeFree

/-- The control block the rest of the call touches. -/
def Role.task : Role → Option Nat
  | .fresh t | .starting t | .user t | .vp t | .reclaim _ t | .leaving t => some t
  | _ => Option.none

/-- Every task is reclaimed once, when it is due and not before; `l` is the list
`rt->all_tasks` leads to. -/
structure ReclaimedOnce (s : State) (l : List Nat) : Prop where
  /-- `all_tasks` holds the accepted tasks that are not reclaimed. -/
  chain : IsChain s.allNext s.allTasks l
  mem : ∀ t, t ∈ l ↔ t ∈ s.accepted ∧ t ∉ s.unlinked
  unlinkedOnce : s.unlinked.Nodup
  freedOnce : (freed s).Nodup
  freed : ∀ t, t ∈ s.accepted → t ∈ freed s → t ∈ s.unlinked
  /-- A task is unlinked only without references and with its execution resources released. -/
  due : ∀ t ∈ s.unlinked, t ∈ s.accepted ∧ s.externalRefs t = 0 ∧ s.executionReleased t = true
  /-- The VP stores `execution_released` when it is done with the completion mutex and the stack. -/
  released : ∀ t, s.executionReleased t = true → s.state t = .finished ∧ s.completionDone t = true ∧
    s.stackMap t = false ∧ s.fiber t = false ∧ ∀ c, (s.pc c).role ≠ .vp t
  /-- Whichever of the two happens last: the task is then freed, or one thread is about to. -/
  last : ∀ t ∈ s.accepted, s.externalRefs t = 0 → s.executionReleased t = true →
    t ∈ TaskControl.freed s ∨ ∃ c b, (s.pc c).role = .reclaim b t
  one : ∀ c d b b' t, (s.pc c).role = .reclaim b t → (s.pc d).role = .reclaim b' t → c = d
  /-- `task_unlink` ends and finds the task. -/
  unlinks : ∀ c p t, s.pc c = .unlink p t →
    ∃ fuel s', step s (.next c fuel) = some s' ∧ s'.pc c = .unlock (some p) t
  /-- No call touches a control block that is freed. -/
  touched : ∀ c t, (s.pc c).role.task = some t → t ∉ TaskControl.freed s
  /-- Nor is a task reclaimed on which a reference is held. -/
  held : ∀ t, s.holders t ≠ [] → t ∈ l ∧ t ∉ TaskControl.freed s
  /-- `external_refs` counts the references and does not wrap. -/
  refs : ∀ t, s.externalRefs t = (s.holders t).length ∧ s.externalRefs t ≤ uint32Max

/-- No step is the beginning of `dlsm_gt_runtime_free`. -/
def inUse : Act → Bool
  | .runtimeFree _ => false
  | _ => true

end Dlsmc.TaskControl
