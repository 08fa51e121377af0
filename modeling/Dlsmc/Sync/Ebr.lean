import Mathlib.Algebra.Group.Nat.Defs
import Dlsmc.Framework.Machine

/-!
# Epoch-based reclamation (`ebr.c`)

The atomic steps of `dlsm_ebr_register`, `dlsm_ebr_unregister`,
`dlsm_ebr_enter`, `dlsm_ebr_exit`, `dlsm_ebr_retire` and
`dlsm_ebr_try_advance`, by any number of threads. Every atomic load, store,
compare-exchange and exchange is one step; what a thread does between two of
them is on memory only it can see. `malloc` returns any address that is free,
so a retire node may be placed where an earlier one was freed.

The users of the scheme unlink objects (`Act.unlink`) and later retire them.
`State.readers` records, for each unlinked object, the threads whose
`dlsm_ebr_enter` completed before it was unlinked and that have not executed
`dlsm_ebr_exit` since: those that may still hold a pointer to it.
-/

namespace Dlsmc.Ebr

/-- `DLSM_EBR_QUIESCENT`: `UINT64_MAX`. -/
def QUIESCENT : Nat := 2 ^ 64 - 1

/-- `DLSM_EBR_SLOTS`. -/
def SLOTS : Nat := 64

/-- `dlsm_ebr_node`; `dtor` is whether the destructor is not `NULL`. -/
structure Node where
  obj : Nat
  dtor : Bool
  next : Option Nat
  deriving DecidableEq

/-- Where a thread stands, and its local variables there. -/
inductive Pc where
  | idle
  /-- `register`: about to compare-exchange `active[i]`. -/
  | register (i : Nat)
  /-- `register`: slot `i` taken, about to store `local[i]`. -/
  | registerLocal (i : Nat)
  /-- `unregister`: `local` stored, about to clear `active`. -/
  | unregister
  /-- `enter`: the global epoch loaded, about to announce it. -/
  | enter (g : Nat)
  /-- `retire`: node `n` filled in, about to load the global epoch. -/
  | retire (n : Nat)
  /-- `retire`: about to load the head of bucket `g % 3`. -/
  | retireHead (n g : Nat)
  /-- `retire`: about to compare-exchange `head` for `n`. -/
  | retireCas (n g : Nat) (head : Option Nat)
  /-- `try_advance`: about to load `active[i]`. -/
  | advActive (g i : Nat)
  /-- `try_advance`: about to load `local[i]`. -/
  | advLocal (g i : Nat)
  /-- `try_advance`: every slot checked, about to advance the epoch from `g`. -/
  | advCas (g : Nat)
  /-- `try_advance`: won the epoch, about to exchange bucket `(g + 2) % 3`. -/
  | advExchange (g : Nat)
  /-- `try_advance`: about to destroy the head of `list`. -/
  | advFree (list : Option Nat)
  deriving DecidableEq

/-- A thread: its slot, and whether it is between `enter` and `exit`. -/
structure Thread where
  slot : Option Nat
  inside : Bool
  pc : Pc

/-- What has become of an object of the protected structure. -/
inductive Phase where
  | linked | unlinked | retired
  deriving DecidableEq

/-- `dlsm_ebr`, its retire nodes, the threads using it and the objects they
share. -/
structure State where
  globalEpoch : Nat
  localEpoch : Nat → Nat
  active : Nat → Bool
  retire : Nat → Option Nat
  heap : Nat → Option Node
  thread : Nat → Thread
  phase : Nat → Phase
  readers : Nat → Nat → Bool

/-- `dlsm_ebr_init`, before any thread has registered. -/
def State.initial : State where
  globalEpoch := 0
  localEpoch := fun _ => QUIESCENT
  active := fun _ => false
  retire := fun _ => none
  heap := fun _ => none
  thread := fun _ => ⟨none, false, .idle⟩
  phase := fun _ => .linked
  readers := fun _ _ => false

/-- The actions: beginning a call (with its first atomic step, where it has
one), unlinking an object, and the next step of a call. -/
inductive Act where
  | register (t : Nat)
  | unregister (t : Nat)
  | enter (t : Nat)
  | exit (t : Nat)
  | unlink (o : Nat)
  /-- `dlsm_ebr_retire(o)`; `n` is the result of `malloc`. -/
  | retire (t o : Nat) (dtor : Bool) (n : Option Nat)
  | tryAdvance (t : Nat)
  /-- The next step of `t`; `spurious` makes a weak compare-exchange fail. -/
  | next (t : Nat) (spurious : Bool)
  deriving DecidableEq

/-- Thread `t` moves to `pc`. -/
def State.goto (s : State) (t : Nat) (pc : Pc) : State :=
  { s with thread := Function.update s.thread t { s.thread t with pc := pc } }

/-- The slot loop of `try_advance` after slot `i`. -/
def scanNext (g i : Nat) : Pc := if i + 1 < SLOTS then .advActive g (i + 1) else .advCas g

/-- The next atomic step of a thread inside a call. -/
def next (s : State) (t : Nat) (spurious : Bool) : Option State :=
  match (s.thread t).pc with
  | .idle => none
  | .register i =>
    if i < SLOTS then
      if s.active i then some (s.goto t (.register (i + 1)))
      else some ({ s with active := Function.update s.active i true }.goto t (.registerLocal i))
    else some (s.goto t .idle) -- DLSM_SYNC_E_TOO_MANY_THREADS
  | .registerLocal i =>
    some { s with
      localEpoch := Function.update s.localEpoch i QUIESCENT
      thread := Function.update s.thread t ⟨some i, false, .idle⟩ }
  | .unregister =>
    match (s.thread t).slot with
    | none => none
    | some i => some { s with
        active := Function.update s.active i false
        thread := Function.update s.thread t ⟨none, false, .idle⟩ }
  | .enter g =>
    match (s.thread t).slot with
    | none => none
    | some i => some { s with
        localEpoch := Function.update s.localEpoch i g
        thread := Function.update s.thread t ⟨some i, true, .idle⟩ }
  | .retire n => some (s.goto t (.retireHead n s.globalEpoch))
  | .retireHead n g => some (s.goto t (.retireCas n g (s.retire (g % 3))))
  | .retireCas n g head =>
    match s.heap n with
    | none => none
    | some node =>
      -- `n->next = head` is written before every attempt
      let s' := { s with heap := Function.update s.heap n (some { node with next := head }) }
      if s.retire (g % 3) = head ∧ spurious = false then
        some ({ s' with retire := Function.update s.retire (g % 3) (some n) }.goto t .idle)
      else some (s'.goto t (.retireCas n g (s.retire (g % 3))))
  | .advActive g i =>
    if s.active i then some (s.goto t (.advLocal g i)) else some (s.goto t (scanNext g i))
  | .advLocal g i =>
    if s.localEpoch i ≠ QUIESCENT ∧ s.localEpoch i < g then some (s.goto t .idle)
    else some (s.goto t (scanNext g i))
  | .advCas g =>
    if s.globalEpoch = g then
      some ({ s with globalEpoch := (g + 1) % 2 ^ 64 }.goto t (.advExchange g))
    else some (s.goto t .idle)
  | .advExchange g =>
    let b := (g + 2) % 2 ^ 64 % 3
    some ({ s with retire := Function.update s.retire b none }.goto t (.advFree (s.retire b)))
  | .advFree none => some (s.goto t .idle)
  | .advFree (some n) =>
    match s.heap n with
    | none => none
    | some node =>
      -- the destructor of `node.obj` runs here, unless it is `NULL`
      some ({ s with heap := Function.update s.heap n none }.goto t (.advFree node.next))

/-- One atomic step. -/
def step (s : State) : Act → Option State
  | .register t =>
    if (s.thread t).pc = .idle ∧ (s.thread t).slot = none then some (s.goto t (.register 0)) else none
  | .unregister t =>
    match (s.thread t).slot with
    | none => none
    | some i =>
      if (s.thread t).pc = .idle ∧ (s.thread t).inside = false then
        some ({ s with localEpoch := Function.update s.localEpoch i QUIESCENT }.goto t .unregister)
      else none
  | .enter t =>
    if (s.thread t).pc = .idle ∧ (s.thread t).inside = false ∧ (s.thread t).slot ≠ none then
      some (s.goto t (.enter s.globalEpoch))
    else none
  | .exit t =>
    match (s.thread t).slot with
    | none => none
    | some i =>
      if (s.thread t).pc = .idle ∧ (s.thread t).inside = true then
        some { s with
          localEpoch := Function.update s.localEpoch i QUIESCENT
          thread := Function.update s.thread t ⟨some i, false, .idle⟩
          readers := fun o r => if r = t then false else s.readers o r }
      else none
  | .unlink o =>
    if s.phase o = .linked then
      some { s with
        phase := Function.update s.phase o .unlinked
        readers := fun o' r => if o' = o then (s.thread r).inside else s.readers o' r }
    else none
  | .retire t o dtor n =>
    if (s.thread t).pc = .idle ∧ s.phase o = .unlinked then
      match n with
      | none => some s -- DLSM_SYNC_E_NOMEM
      | some n =>
        if s.heap n = none then
          some ({ s with
            heap := Function.update s.heap n (some ⟨o, dtor, none⟩)
            phase := Function.update s.phase o .retired }.goto t (.retire n))
        else none
    else none
  | .tryAdvance t =>
    if (s.thread t).pc = .idle then some (s.goto t (.advActive s.globalEpoch 0)) else none
  | .next t spurious => next s t spurious

/-- Epoch-based reclamation in use by any number of threads. -/
def machine : Machine State Act where
  init := fun s => s = State.initial
  step := step

/-- Thread `t` is about to run the destructor of `o`. -/
def Destroys (s : State) (t o : Nat) : Prop :=
  ∃ n node, (s.thread t).pc = .advFree (some n) ∧ s.heap n = some node ∧ node.dtor = true ∧ node.obj = o

/-- No destructor runs on an object that a thread inside an epoch may have
reached: one that entered before the object was unlinked and has not left. -/
def NeverFreesReachable (s : State) : Prop :=
  ∀ t o r, Destroys s t o → s.readers o r = false

/-- Every winner of the epoch exchanges its bucket while the epoch is still
the one it installed, and the epoch stays below `QUIESCENT`. -/
def prompt (s : State) : Act → Bool
  | .next t _ =>
    match (s.thread t).pc with
    | .advCas g => g + 1 < QUIESCENT
    | .advExchange g => s.globalEpoch = g + 1
    | _ => true
  | _ => true

end Dlsmc.Ebr
