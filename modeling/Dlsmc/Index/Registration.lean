import Mathlib.Logic.Function.Iterate
import Dlsmc.Framework.Machine
import Dlsmc.Index.Key
import Dlsmc.Sync.Ebr

/-!
# Slots of the index in epoch-based reclamation (`index.c`)

The operations of any number of threads on any number of indexes, as users of
the EBR of each index: a thread registers lazily (`ebr_slot`), enters and
leaves the epoch around its operation, and keeps the slots it registered in
thread-specific data, by the address of the EBR; `dlsm_index_free` unregisters
the thread that calls it, and the exit of a thread unregisters the slots it
kept. An index is named by its address, and a new index may be given any
address that is not in use. Every atomic access to the EBR is one step; the
operation inside the epoch, and `dlsm_ebr_try_advance` after it, are one step
each.

`slot = -1` is what `ebr_slot` returns when registration fails. The word
before `local[0]` is `global_epoch`, so that is what `local[-1]` denotes.

Callers promise that no operation is running on an index while it is freed.
`State.running`, `State.freeing`, `State.registered`, `State.failed`,
`State.generation` and `Reg.generation` record what happened; the code does
not read them.
-/

namespace Dlsmc.Registration

open Dlsmc.Index
open Dlsmc.Ebr (QUIESCENT SLOTS)

/-- `dlsm_ebr`, without the retired objects. -/
structure Epochs where
  globalEpoch : Nat
  loc : Nat → Nat
  active : Nat → Bool

/-- `dlsm_ebr_init` -/
def Epochs.initial : Epochs := ⟨0, fun _ => QUIESCENT, fun _ => false⟩

/-- A store to `local[slot]`; `none` is -1. -/
def Epochs.storeLocal (e : Epochs) (slot : Option Nat) (v : Nat) : Epochs :=
  match slot with
  | some i => { e with loc := Function.update e.loc i v }
  | none => { e with globalEpoch := v }

def Epochs.storeActive (e : Epochs) (i : Nat) (b : Bool) : Epochs :=
  { e with active := Function.update e.active i b }

/-- `dlsm_ebr_try_advance` on the epoch. -/
def Epochs.tryAdvance (e : Epochs) : Epochs :=
  if (List.range SLOTS).all fun i => !e.active i || e.loc i == QUIESCENT || decide (e.globalEpoch ≤ e.loc i) then
    { e with globalEpoch := (e.globalEpoch + 1) % 2 ^ 64 }
  else e

/-- `ebr_reg` -/
structure Reg where
  e : Nat
  slot : Nat
  /-- How many indexes have had the address `e` then. -/
  generation : Nat
  deriving DecidableEq

/-- `dlsm_index_get`, `dlsm_index_insert`, `dlsm_index_update` and
`dlsm_index_delete`. -/
inductive Op where
  | get (k : Key)
  | insert (k : Key) (v : DeltaPointer)
  | update (k : Key) (v : DeltaPointer)
  | delete (k : Key)
  deriving DecidableEq

inductive Status where
  | ok
  /-- `DLSM_INDEX_E_NOTFOUND` -/
  | notfound
  /-- `DLSM_INDEX_E_NOMEM` -/
  | nomem
  deriving DecidableEq

/-- What an operation does to the content of the index. -/
def Op.content (c : Key → Option DeltaPointer) : Op → Key → Option DeltaPointer
  | .get _ => c
  | .insert k v | .update k v => Function.update c k (some v)
  | .delete k => Function.update c k none

def Op.status (c : Key → Option DeltaPointer) : Op → Status
  | .get k => if c k = none then .notfound else .ok
  | _ => .ok

/-- Who called `ebr_slot`. -/
inductive Caller where
  | op (o : Op)
  | free
  deriving DecidableEq

/-- Where a thread stands in its call on the index at `a`, at the access it
makes next. -/
inductive Pc where
  | idle
  /-- `ebr_slot`: at the search of its own list. -/
  | find (a : Nat) (c : Caller)
  /-- `dlsm_ebr_register`: at the compare-exchange of `active[i]`. -/
  | register (a i : Nat) (c : Caller)
  | registerLocal (a i : Nat) (c : Caller)
  /-- `ebr_slot`: registered, at `malloc`. -/
  | malloc (a i : Nat) (c : Caller)
  /-- `malloc` failed: at the stores of `dlsm_ebr_unregister`. -/
  | undoLocal (a i : Nat) (c : Caller)
  | undoActive (a i : Nat) (c : Caller)
  /-- `dlsm_ebr_enter`: at the load of the epoch, then at the store of `g`. -/
  | enter (a : Nat) (slot : Option Nat) (o : Op)
  | announce (a : Nat) (slot : Option Nat) (o : Op) (g : Nat)
  | body (a : Nat) (slot : Option Nat) (o : Op)
  /-- `dlsm_ebr_exit` -/
  | leave (a : Nat) (slot : Option Nat) (o : Op) (st : Status)
  /-- A write, at `gc_tick`. -/
  | gc (a : Nat) (st : Status)
  /-- `dlsm_index_free`: draining the retired objects. -/
  | drain (a : Nat)
  /-- `ebr_unreg_self`: at its search, and at the stores of `dlsm_ebr_unregister`. -/
  | unregSelf (a : Nat)
  | unregLocal (r : Reg)
  | unregActive (r : Reg)
  /-- At `free(t)`. -/
  | release (a : Nat)
  /-- `ebr_key_dtor`: at the stores of `dlsm_ebr_unregister` of the first. -/
  | dtor (l : List Reg)
  | dtorActive (r : Reg) (l : List Reg)
  deriving DecidableEq

structure State where
  /-- An index is allocated at the address. -/
  live : Nat → Bool
  ebr : Nat → Epochs
  content : Nat → Key → Option DeltaPointer
  /-- The thread-specific data of a thread. -/
  regs : Nat → List Reg
  pc : Nat → Pc
  /-- What the last call of a thread returned. -/
  result : Nat → Option Status
  generation : Nat → Nat
  /-- The threads inside an operation on the index. -/
  running : Nat → List Nat
  /-- The thread that frees the index. -/
  freeing : Nat → Option Nat
  /-- The threads that keep a slot of the index. -/
  registered : Nat → List Nat
  /-- Registration failed in the call a thread is in, or made last. -/
  failed : Nat → Bool

def State.initial : State where
  live := fun _ => false
  ebr := fun _ => .initial
  content := fun _ _ => none
  regs := fun _ => []
  pc := fun _ => .idle
  result := fun _ => none
  generation := fun _ => 0
  running := fun _ => []
  freeing := fun _ => none
  registered := fun _ => []
  failed := fun _ => false

def setPc (s : State) (x : Nat) (pc : Pc) : State := { s with pc := Function.update s.pc x pc }

def setEbr (s : State) (a : Nat) (e : Epochs) : State := { s with ebr := Function.update s.ebr a e }

/-- `ebr_slot` returned `slot`: where its caller goes on. -/
def Caller.next (a : Nat) (slot : Option Nat) : Caller → Pc
  | .op o => .enter a slot o
  | .free => if slot = none then .release a else .drain a

/-- The operation of `x` on the index at `a` returns `st`. -/
def ret (s : State) (x a : Nat) (st : Status) : State :=
  { setPc s x .idle with
    result := Function.update s.result x (some st)
    running := Function.update s.running a ((s.running a).erase x) }

/-- `x` keeps `r`, or no longer does. -/
def keep (s : State) (x : Nat) (r : Reg) : State :=
  { s with
    regs := Function.update s.regs x (r :: s.regs x)
    registered := Function.update s.registered r.e (x :: s.registered r.e) }

def drop (s : State) (x : Nat) (r : Reg) : State :=
  { s with
    regs := Function.update s.regs x ((s.regs x).erase r)
    registered := Function.update s.registered r.e ((s.registered r.e).erase x) }

/-- The next access of thread `x`; `ok` is the outcome of `malloc`, or whether
`gc_tick` makes a write call `dlsm_ebr_try_advance`. -/
def next (s : State) (x : Nat) (ok : Bool) : Option State :=
  match s.pc x with
  | .idle => none
  | .find a c =>
    match (s.regs x).find? fun r => r.e == a with
    | some r => some (setPc s x (c.next a (some r.slot)))
    | none => some (setPc s x (.register a 0 c))
  | .register a i c =>
    if i < SLOTS then
      if (s.ebr a).active i then some (setPc s x (.register a (i + 1) c))
      else some (setPc (setEbr s a ((s.ebr a).storeActive i true)) x (.registerLocal a i c))
    else some (setPc { s with failed := Function.update s.failed x true } x (c.next a none))
  | .registerLocal a i c => some (setPc (setEbr s a ((s.ebr a).storeLocal (some i) QUIESCENT)) x (.malloc a i c))
  | .malloc a i c =>
    if ok = false then some (setPc { s with failed := Function.update s.failed x true } x (.undoLocal a i c))
    else some (setPc (keep s x ⟨a, i, s.generation a⟩) x (c.next a (some i)))
  | .undoLocal a i c => some (setPc (setEbr s a ((s.ebr a).storeLocal (some i) QUIESCENT)) x (.undoActive a i c))
  | .undoActive a i c => some (setPc (setEbr s a ((s.ebr a).storeActive i false)) x (c.next a none))
  | .enter a slot o => some (setPc s x (.announce a slot o (s.ebr a).globalEpoch))
  | .announce a slot o g => some (setPc (setEbr s a ((s.ebr a).storeLocal slot g)) x (.body a slot o))
  | .body a slot o =>
    some (setPc { s with content := Function.update s.content a (o.content (s.content a)) } x
      (.leave a slot o (o.status (s.content a))))
  | .leave a slot o st =>
    let s' := setEbr s a ((s.ebr a).storeLocal slot QUIESCENT)
    match o with
    | .get _ => some (ret s' x a st)
    | _ => some (setPc s' x (.gc a st))
  | .gc a st => some (ret (if ok then setEbr s a (s.ebr a).tryAdvance else s) x a st)
  | .drain a => some (setPc (setEbr s a (Epochs.tryAdvance^[16] (s.ebr a))) x (.unregSelf a))
  | .unregSelf a =>
    match (s.regs x).find? fun r => r.e == a with
    | some r => some (setPc s x (.unregLocal r))
    | none => some (setPc s x (.release a))
  | .unregLocal r => some (setPc (setEbr s r.e ((s.ebr r.e).storeLocal (some r.slot) QUIESCENT)) x (.unregActive r))
  | .unregActive r => some (setPc (drop (setEbr s r.e ((s.ebr r.e).storeActive r.slot false)) x r) x (.release r.e))
  | .release a =>
    some (setPc { s with
      live := Function.update s.live a false
      freeing := Function.update s.freeing a none } x .idle)
  | .dtor [] => some (setPc s x .idle)
  | .dtor (r :: l) => some (setPc (setEbr s r.e ((s.ebr r.e).storeLocal (some r.slot) QUIESCENT)) x (.dtorActive r l))
  | .dtorActive r l => some (setPc (drop (setEbr s r.e ((s.ebr r.e).storeActive r.slot false)) x r) x (.dtor l))

inductive Act where
  /-- `dlsm_index_new`, at address `a`. -/
  | new (a : Nat)
  | call (x a : Nat) (o : Op)
  /-- `dlsm_index_free` by thread `x`. -/
  | free (x a : Nat)
  /-- Thread `x` exits. -/
  | exit (x : Nat)
  | next (x : Nat) (ok : Bool)
  deriving DecidableEq

def step (s : State) : Act → Option State
  | .new a =>
    if s.live a = true then none
    else
      some { s with
        live := Function.update s.live a true
        generation := Function.update s.generation a (s.generation a + 1)
        ebr := Function.update s.ebr a .initial
        content := Function.update s.content a fun _ => none }
  | .call x a o =>
    if s.pc x = .idle ∧ s.live a = true ∧ s.freeing a = none then
      some (setPc { s with
        running := Function.update s.running a (x :: s.running a)
        failed := Function.update s.failed x false } x (.find a (.op o)))
    else none
  | .free x a =>
    if s.pc x = .idle ∧ s.live a = true ∧ s.freeing a = none ∧ s.running a = [] then
      some (setPc { s with
        freeing := Function.update s.freeing a (some x)
        failed := Function.update s.failed x false } x (.find a .free))
    else none
  | .exit x =>
    if s.pc x = .idle then some (setPc { s with regs := Function.update s.regs x [] } x (.dtor (s.regs x))) else none
  | .next x ok => next s x ok

section
-- their equations are made here, once
attribute [local simp] next step
end

def machine : Machine State Act where
  init := fun s => s = State.initial
  step := step

end Dlsmc.Registration
