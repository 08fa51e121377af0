import Mathlib.Logic.Function.Basic
import Dlsmc.Framework.Machine

/-!
# Asynchronous I/O over a submission and a completion ring (`io.c`)

Green threads call `do_op`; each call takes a slot, places a submission entry
that carries the slot's number, parks, and is woken by the reaper thread with
the result. Every access to memory that another thread can see is one step,
where those made under `io->mtx` to data only used under it count as one.

The kernel is part of the model: a successful `io_uring_enter` with
`to_submit = 1` takes the oldest entry of the submission ring, one that fails
takes none, and an entry taken is completed once, at any time and with any
result. Positions in the rings are counted without wrapping, so an entry is
named by its position: in the source they are `unsigned`, but they are only
masked and compared, the sizes of the rings are powers of two, and no more than
`nslots` entries are outstanding at a time. The submission ring has room for as many entries as
there are slots (`nslots = sq_entries`), and the completion ring, which the
kernel alone fills, is kept as the list of all entries posted.

`dlsm_gt_park` and `dlsm_gt_unpark` act on a token of the task; anybody may
unpark a task. `dlsm_io_free` is left out: it is called when no call is under
way. No step reads `State.failed` and `State.returns`, nor the position that a
`Cqe` and a `Pc` carry.
-/

namespace Dlsmc.Io

/-- What an operation asks for. -/
structure Request where
  opcode : Nat
  fd : Int
  addr : Nat
  len : Nat
  off : Nat
  fsyncFlags : Nat
  deriving DecidableEq

/-- `struct io_uring_sqe` -/
structure Sqe where
  request : Request
  userData : Nat
  deriving DecidableEq

/-- `struct io_uring_cqe`, with the position of the submission it answers. -/
structure Cqe where
  sqe : Nat
  userData : Nat
  res : Int
  deriving DecidableEq

structure Slot where
  res : Int
  wakeDone : Bool
  task : Option Nat
  next : Option Nat
  deriving DecidableEq

/-- What a call returns: the value, and `errno` where it is set. -/
structure Outcome where
  value : Int
  errno : Option Int
  deriving DecidableEq

/-- The end of `do_op`. -/
def outcome (res : Int) : Outcome := if res < 0 then ⟨-1, some (-res)⟩ else ⟨res, none⟩

def enotsup : Int := 95

/-- A call that returned; `sqe` is the position of its submission entry. -/
structure Return where
  task : Nat
  sqe : Option Nat
  outcome : Outcome
  deriving DecidableEq

/-- Where a task stands in `do_op`; `tok` is its slot, `k` the position of its
submission entry, `res` the result it has read. -/
inductive Pc where
  | idle
  /-- `slot_alloc`: at the lock, in the section, at the unlock. -/
  | allocLock
  | allocPop
  | allocUnlock (tok : Option Nat)
  | setTask (tok : Nat)
  | clearWake (tok : Nat)
  /-- `submit`: at the lock, at the entry and the store of the tail, at
  `io_uring_enter`, at the unlock. -/
  | submitLock (tok : Nat)
  | place (tok : Nat)
  | enter (tok k : Nat)
  | submitUnlock (tok k : Nat)
  | park (tok k : Nat)
  /-- At the load of `wake_done`. -/
  | wait (tok k : Nat)
  | readRes (tok k : Nat)
  /-- `slot_free` -/
  | freeLock (tok k : Nat) (res : Int)
  | freePush (tok k : Nat) (res : Int)
  | freeUnlock (k : Nat) (res : Int)
  deriving DecidableEq

/-- Where the reaper stands; `head` is the entry it is at, up to `tail`. -/
inductive Reaper where
  /-- At `io_uring_enter`. -/
  | enter
  /-- At the loads of `c_head` and `c_tail`. -/
  | load
  | loop (head tail : Nat)
  /-- At the store of `res`, at `dlsm_gt_unpark`, at the store of `wake_done`. -/
  | storeRes (head tail : Nat) (cqe : Cqe)
  | unpark (head tail : Nat) (cqe : Cqe)
  | wake (head tail : Nat) (cqe : Cqe)
  /-- At the store of `c_head`. -/
  | publish (head : Nat)
  deriving DecidableEq

structure State where
  nslots : Nat
  slots : Nat → Slot
  freeHead : Option Nat
  mtx : Option Nat
  /-- The submission ring; the kernel has taken the entries before `sqHead`. -/
  sqes : Nat → Sqe
  sqHead : Nat
  sqTail : Nat
  /-- Entries taken and not completed: their position and user data. -/
  inflight : List (Nat × Nat)
  cqes : List Cqe
  cqHead : Nat
  reaper : Reaper
  pc : Nat → Pc
  request : Nat → Request
  token : Nat → Bool
  /-- How many calls of `io_uring_enter` in `submit` failed. -/
  failed : Nat
  returns : List Return

def setPc (s : State) (t : Nat) (pc : Pc) : State := { s with pc := Function.update s.pc t pc }

def setSlot (s : State) (i : Nat) (x : Slot) : State := { s with slots := Function.update s.slots i x }

/-- The call of task `t` returns. -/
def ret (s : State) (t : Nat) (k : Option Nat) (o : Outcome) : State :=
  { setPc s t .idle with returns := ⟨t, k, o⟩ :: s.returns }

/-- The kernel takes the oldest entry of the submission ring. -/
def consume (s : State) : State :=
  if s.sqHead < s.sqTail then
    { s with
      inflight := s.inflight ++ [(s.sqHead, (s.sqes (s.sqHead % s.nslots)).userData)]
      sqHead := s.sqHead + 1 }
  else s

/-- `pthread_mutex_lock(&io->mtx)`, blocked while it is held. -/
def lock (s : State) (t : Nat) (pc : Pc) : Option State :=
  match s.mtx with
  | some _ => none
  | none => some (setPc { s with mtx := some t } t pc)

def unlock (s : State) : State := { s with mtx := none }

/-- The next step of task `t`; `io_uring_enter` succeeds if `ok`. -/
def next (s : State) (t : Nat) (ok : Bool) : Option State :=
  match s.pc t with
  | .idle => none
  | .allocLock => lock s t .allocPop
  | .allocPop =>
    match s.freeHead with
    | none => some (setPc s t (.allocUnlock none))
    | some i => some (setPc { s with freeHead := (s.slots i).next } t (.allocUnlock (some i)))
  | .allocUnlock none => some (setPc (unlock s) t .allocLock)
  | .allocUnlock (some tok) => some (setPc (unlock s) t (.setTask tok))
  | .setTask tok => some (setPc (setSlot s tok { s.slots tok with task := some t }) t (.clearWake tok))
  | .clearWake tok => some (setPc (setSlot s tok { s.slots tok with wakeDone := false }) t (.submitLock tok))
  | .submitLock tok => lock s t (.place tok)
  | .place tok =>
    some (setPc { s with
      sqes := Function.update s.sqes (s.sqTail % s.nslots) ⟨s.request t, tok⟩
      sqTail := s.sqTail + 1 } t (.enter tok s.sqTail))
  | .enter tok k =>
    some (if ok then setPc (consume s) t (.submitUnlock tok k)
      else setPc { s with failed := s.failed + 1 } t (.submitUnlock tok k))
  | .submitUnlock tok k => some (setPc (unlock s) t (.park tok k))
  | .park tok k =>
    if s.token t then some (setPc { s with token := Function.update s.token t false } t (.wait tok k)) else none
  | .wait tok k => some (if (s.slots tok).wakeDone then setPc s t (.readRes tok k) else s)
  | .readRes tok k => some (setPc s t (.freeLock tok k (s.slots tok).res))
  | .freeLock tok k res => lock s t (.freePush tok k res)
  | .freePush tok k res =>
    some (setPc { setSlot s tok { s.slots tok with next := s.freeHead } with freeHead := some tok } t
      (.freeUnlock k res))
  | .freeUnlock k res => some (ret (unlock s) t (some k) (outcome res))

/-- The next step of the reaper. -/
def reap (s : State) : Option State :=
  match s.reaper with
  | .enter => some { s with reaper := .load }
  | .load => some { s with reaper := .loop s.cqHead s.cqes.length }
  | .loop head tail =>
    if head = tail then some { s with reaper := .publish head }
    else
      match s.cqes[head]? with
      | none => none
      | some cqe => some { s with reaper := .storeRes head tail cqe }
  | .storeRes head tail cqe =>
    some { setSlot s cqe.userData { s.slots cqe.userData with res := cqe.res } with reaper := .unpark head tail cqe }
  | .unpark head tail cqe =>
    some { s with
      token := match (s.slots cqe.userData).task with
        | some t => Function.update s.token t true
        | none => s.token
      reaper := .wake head tail cqe }
  | .wake head tail cqe =>
    some { setSlot s cqe.userData { s.slots cqe.userData with wakeDone := true } with reaper := .loop (head + 1) tail }
  | .publish head => some { s with cqHead := head, reaper := .enter }

inductive Act where
  /-- `do_op`, called by task `t`, or by a thread that is no green thread. -/
  | call (t : Nat) (r : Request)
  | callOutside (t : Nat) (r : Request)
  | next (t : Nat) (ok : Bool)
  | reap
  /-- The kernel completes the entry number `j` of those in flight. -/
  | complete (j : Nat) (res : Int)
  /-- Somebody unparks task `t`. -/
  | unpark (t : Nat)
  deriving DecidableEq

def step (s : State) : Act → Option State
  | .call t r =>
    if s.pc t ≠ .idle then none
    else some (setPc { s with request := Function.update s.request t r } t .allocLock)
  | .callOutside t _ => some { s with returns := ⟨t, none, ⟨-1, some enotsup⟩⟩ :: s.returns }
  | .next t ok => next s t ok
  | .reap => reap s
  | .complete j res =>
    match s.inflight[j]? with
    | none => none
    | some (k, ud) => some { s with inflight := s.inflight.eraseIdx j, cqes := s.cqes ++ [⟨k, ud, res⟩] }
  | .unpark t => some { s with token := Function.update s.token t true }

/-- The state `dlsm_io_new` leaves, with `n` entries. -/
def State.new (n : Nat) : State where
  nslots := n
  slots := fun i => ⟨0, false, none, if i + 1 < n then some (i + 1) else none⟩
  freeHead := some 0
  mtx := none
  sqes := fun _ => ⟨⟨0, 0, 0, 0, 0, 0⟩, 0⟩
  sqHead := 0
  sqTail := 0
  inflight := []
  cqes := []
  cqHead := 0
  reaper := .enter
  pc := fun _ => .idle
  request := fun _ => ⟨0, 0, 0, 0, 0, 0⟩
  token := fun _ => false
  failed := 0
  returns := []

/-- Any number of tasks, and the reaper. -/
def machine : Machine State Act where
  init := fun s => ∃ n, 0 < n ∧ s = State.new n
  step := step

end Dlsmc.Io
