import Mathlib.Algebra.Group.Nat.Defs
import Mathlib.Data.List.Nodup
import Mathlib.Logic.Function.Basic
import Dlsmc.Framework.Machine

/-!
# Task-local storage (`dlsm_gt_key_create` to `dlsm_gt_getspecific`)

A key packs the number of a slot and the generation the slot had when the key
was created. Keys are created and deleted by anyone; a task stores values in an
array of its own, each with the generation of the key it was set under. The
check of a key and the access to the array are separate steps, between which
others may delete and create keys. Each section under `gt_key_mutex` is one
step.

`State.created`, `State.deleted` and `State.last` are the history the law of
the storage is about, and `State.gets`, `State.sets` and `State.deletes` the
calls that returned; no step reads them but to record them.
-/

namespace Dlsmc.LocalStorage

/-- `DLSM_GT_LOCAL_KEYS_MAX` -/
def localKeysMax : Nat := 64

inductive Status where
  | ok
  /-- `DLSM_GT_E_INVAL` -/
  | inval
  /-- `DLSM_GT_E_STATE` -/
  | state
  /-- `DLSM_GT_E_NOMEM` -/
  | nomem
  deriving DecidableEq

/-- `struct gt_key_slot`; the generation is 32 bits wide. -/
structure Slot where
  generation : Nat
  active : Bool
  destructor : Option Nat
  deriving DecidableEq

/-- `struct gt_local_value`; `none` is `NULL`. -/
structure LocalValue where
  generation : Nat
  value : Option Nat
  deriving DecidableEq

/-- The key of slot `index` in `generation`. -/
def encode (index generation : Nat) : UInt64 := UInt64.ofNat (generation * 2 ^ 32 + (index + 1))

/-- `gt_key_decode`: the slot and the generation. -/
def decode (key : UInt64) : Option (Nat × Nat) :=
  if key.toNat % 2 ^ 32 = 0 ∨ key.toNat % 2 ^ 32 > localKeysMax ∨ key.toNat / 2 ^ 32 = 0 then none
  else some (key.toNat % 2 ^ 32 - 1, key.toNat / 2 ^ 32)

/-- Where a task stands in a call. -/
inductive Pc where
  | idle
  /-- `setspecific`: at the check of the key, then at the array. -/
  | setCheck (key : UInt64) (index generation : Nat) (value : Option Nat)
  | setStore (key : UInt64) (index generation : Nat) (value : Option Nat) (live : Bool)
  /-- `getspecific`: at the check of the key, then at the array. -/
  | getCheck (key : UInt64) (index generation : Nat)
  | getRead (key : UInt64) (index generation : Nat) (valid live : Bool)
  deriving DecidableEq

/-- Where `task_run_local_destructors` stands. -/
structure Sweep where
  pass : Nat
  index : Nat
  called : Bool
  deriving DecidableEq

/-- A `getspecific` that returned: whether the key was live when it was
checked, the value of the task's last successful `setspecific` with it,
whether the task's exit had begun, and the value returned. -/
structure Get where
  task : Option Nat
  key : UInt64
  live : Bool
  last : Option Nat
  exiting : Bool
  value : Option Nat
  deriving DecidableEq

/-- A `setspecific` or `key_delete` that returned. -/
structure Call where
  key : UInt64
  live : Bool
  status : Status
  deriving DecidableEq

structure State where
  slots : Nat → Slot
  values : Nat → Option (Nat → LocalValue)
  pc : Nat → Pc
  exiting : Nat → Bool
  sweep : Nat → Option Sweep
  /-- Destructors called, each with the task and the value. -/
  destroyed : List (Nat × Nat × Nat)
  /-- Keys created and deleted, the last one first. -/
  created : List UInt64
  deleted : List UInt64
  /-- The value of a task's last successful `setspecific` with a key. -/
  last : Nat → UInt64 → Option Nat
  gets : List Get
  sets : List Call
  deletes : List Call

/-- Nothing was created, and no task has an array. -/
def State.initial : State where
  slots := fun _ => ⟨0, false, none⟩
  values := fun _ => none
  pc := fun _ => .idle
  exiting := fun _ => false
  sweep := fun _ => none
  destroyed := []
  created := []
  deleted := []
  last := fun _ _ => none
  gets := []
  sets := []
  deletes := []

/-- The key was created and not deleted. -/
def Live (s : State) (key : UInt64) : Prop := key ∈ s.created ∧ key ∉ s.deleted

instance (s : State) (key : UInt64) : Decidable (Live s key) := inferInstanceAs (Decidable (_ ∧ _))

/-- The check under `gt_key_mutex`. -/
def valid (s : State) (index generation : Nat) : Bool :=
  (s.slots index).active && (s.slots index).generation == generation

/-- `slot->generation++`, skipping 0. -/
def nextGeneration (g : Nat) : Nat := if (g + 1) % 2 ^ 32 = 0 then 1 else (g + 1) % 2 ^ 32

/-- The search of `key_create`: the first slot that is not active. -/
def freeSlot (s : State) : Option Nat := (List.range localKeysMax).find? fun i => !(s.slots i).active

def setSlot (s : State) (i : Nat) (x : Slot) : State := { s with slots := Function.update s.slots i x }

def setPc (s : State) (t : Nat) (pc : Pc) : State := { s with pc := Function.update s.pc t pc }

/-- `key_create`: the key, or `none` for a status. -/
def keyCreate (s : State) (destructor : Option Nat) : Option (UInt64 × State) :=
  match freeSlot s with
  | none => none
  | some i =>
    let g := nextGeneration (s.slots i).generation
    some (encode i g, { setSlot s i ⟨g, true, destructor⟩ with created := encode i g :: s.created })

/-- `key_delete` -/
def keyDelete (s : State) (key : UInt64) : Status × State :=
  match decode key with
  | none => (.inval, s)
  | some (i, g) =>
    if valid s i g then
      (.ok, { setSlot s i { s.slots i with active := false, destructor := none } with deleted := key :: s.deleted })
    else (.state, s)

def retDelete (s : State) (c : Call) : State := { s with deletes := c :: s.deletes }

/-- The call of task `t` returns. -/
def retSet (s : State) (t : Nat) (c : Call) : State := { setPc s t .idle with sets := c :: s.sets }

def retGet (s : State) (t : Nat) (key : UInt64) (live : Bool) (value : Option Nat) : State :=
  { setPc s t .idle with gets := ⟨some t, key, live, s.last t key, s.exiting t, value⟩ :: s.gets }

/-- The array `calloc` returns. -/
def emptyArray : Nat → LocalValue := fun _ => ⟨0, none⟩

/-- The array of task `t`, allocated if it has none. -/
def array (s : State) (t : Nat) : Nat → LocalValue := (s.values t).getD emptyArray

/-- The array of task `t` after the entry `i` is set. -/
def store (s : State) (t i : Nat) (x : LocalValue) : State :=
  { s with values := Function.update s.values t (some (Function.update (array s t) i x)) }

/-- The next step of task `t` in its call; `calloc` succeeds if `ok`. -/
def next (s : State) (t : Nat) (ok : Bool) : Option State :=
  match s.pc t with
  | .idle => none
  | .setCheck key i g value =>
    some (if valid s i g then setPc s t (.setStore key i g value (decide (Live s key)))
      else retSet s t ⟨key, decide (Live s key), .state⟩)
  | .setStore key i g value live =>
    some (if (s.values t).isNone && !ok then retSet s t ⟨key, live, .nomem⟩
      else
        let s' := store s t i ⟨g, value⟩
        retSet { s' with last := Function.update s.last t (Function.update (s.last t) key value) } t ⟨key, live, .ok⟩)
  | .getCheck key i g => some (setPc s t (.getRead key i g (valid s i g) (decide (Live s key))))
  | .getRead key i g valid live =>
    match s.values t with
    | none => none
    | some a => some (retGet s t key live (if valid && (a i).generation == g then (a i).value else none))

/-- `setspecific`, called by the task `self`, if any. -/
def setspecific (s : State) (self : Option Nat) (key : UInt64) (value : Option Nat) : Option State :=
  match self with
  | none => some { s with sets := ⟨key, decide (Live s key), .state⟩ :: s.sets }
  | some t =>
    match s.pc t, decode key with
    | .idle, none => some (retSet s t ⟨key, decide (Live s key), .inval⟩)
    | .idle, some (i, g) => some (setPc s t (.setCheck key i g value))
    | _, _ => none

/-- `getspecific`, called by the task `self`, if any. -/
def getspecific (s : State) (self : Option Nat) (key : UInt64) : Option State :=
  match self with
  | none => some { s with gets := ⟨none, key, decide (Live s key), none, false, none⟩ :: s.gets }
  | some t =>
    match s.pc t, s.values t, decode key with
    | .idle, none, _ => some (retGet s t key (decide (Live s key)) none)
    | .idle, some _, none => some (retGet s t key (decide (Live s key)) none)
    | .idle, some _, some (i, g) => some (setPc s t (.getCheck key i g))
    | _, _, _ => none

def setSweep (s : State) (t : Nat) (w : Option Sweep) : State := { s with sweep := Function.update s.sweep t w }

/-- The destructor of slot `index`, if a value of `generation` is still current. -/
def destructorOf (s : State) (index generation : Nat) : Option Nat :=
  if valid s index generation then (s.slots index).destructor else none

/-- One round of `task_run_local_destructors`, up to the call of a destructor. -/
def visit (s : State) (t : Nat) (w : Sweep) : State :=
  if (s.values t).isNone then setSweep s t none
  else if w.index < localKeysMax then
    let entry := array s t w.index
    match entry.value with
    | none => setSweep s t (some { w with index := w.index + 1 })
    | some value =>
      if entry.generation = 0 then setSweep s t (some { w with index := w.index + 1 })
      else
        let s' := store s t w.index ⟨entry.generation, none⟩
        match destructorOf s w.index entry.generation with
        | none => setSweep s' t (some { w with index := w.index + 1 })
        | some d =>
          { setSweep s' t (some ⟨w.pass, w.index + 1, true⟩) with destroyed := (t, d, value) :: s.destroyed }
  else if w.called && w.pass + 1 < 4 then setSweep s t (some ⟨w.pass + 1, 0, false⟩)
  else setSweep s t none

inductive Act where
  | create (destructor : Option Nat)
  | delete (key : UInt64)
  | set (self : Option Nat) (key : UInt64) (value : Option Nat)
  | get (self : Option Nat) (key : UInt64)
  | next (t : Nat) (ok : Bool)
  /-- The exit of task `t` begins to run its destructors. -/
  | exit (t : Nat)
  | visit (t : Nat)
  deriving DecidableEq

def step (s : State) : Act → Option State
  | .create destructor => some (((keyCreate s destructor).map Prod.snd).getD s)
  | .delete key => some (retDelete (keyDelete s key).2 ⟨key, decide (Live s key), (keyDelete s key).1⟩)
  | .set self key value => setspecific s self key value
  | .get self key => getspecific s self key
  | .next t ok => next s t ok
  | .exit t =>
    if s.pc t ≠ .idle ∨ s.exiting t = true then none
    else some { setSweep s t (some ⟨0, 0, false⟩) with exiting := Function.update s.exiting t true }
  | .visit t =>
    match s.pc t, s.sweep t with
    | .idle, some w => some (visit s t w)
    | _, _ => none

section
-- their equations are made here, once
attribute [local simp] next visit step
end

/-- Any number of tasks and other threads; which VP runs a task does not matter. -/
def machine : Machine State Act where
  init := fun s => s = State.initial
  step := step

/-- How often slot `i` was created. -/
def made (s : State) (i : Nat) : Nat := s.created.countP fun key => (decode key).map Prod.fst == some i

end Dlsmc.LocalStorage
