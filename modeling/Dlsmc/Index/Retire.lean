import Dlsmc.Framework.Ownership
import Dlsmc.Index.Concurrent

/-!
# The nodes of the index, and who releases them (`index.c`)

Beside the steps of the operations, what becomes of the nodes of the chains:
`retire_chain` hands a chain that was exchanged for another to the EBR, which finds
memory for it, in a step of its own right after the exchange; the EBR gives the
chains it has been handed to `free_chain`, at a time of its own; `split_leaf` frees
the right half of a split it gives up itself. A node is a delta or a base that was published; what a
thread has made and not published it frees without anybody else having seen it.

A thread has the chain it loaded last in use until it loads the next one or has
left its epoch (`Hand`). It enters the epoch before it loads the root. Of the EBR
only this is used: what is retired while a thread is in its epoch is not freed
before the thread leaves it (`Allowed`).
-/

namespace Dlsmc.Index.Concurrent

/-- Who has a chain: an entry of the map, the thread that has just exchanged it,
the EBR, or nobody after an undone split. -/
inductive Owner where
  | entry (pid : Pid)
  | unlinked (t : Nat)
  | retired (i : Nat)
  | undone (i : Nat)
  deriving DecidableEq

/-- The nodes that were published. A node has the address of the chain that
begins with it. -/
structure Heap where
  nodes : NodeStore
  /-- The chain that a thread is to retire. -/
  unlinked : Nat → Option Nat
  /-- The chains that the EBR was handed, in their order. -/
  retired : List Nat
  /-- The EBR has called `free_chain_dtor` for the chain. -/
  reclaimed : Nat → Bool
  /-- The chains that `split_leaf` has freed. -/
  undone : List Nat

/-- What a thread has of the nodes. -/
structure Hand where
  /-- The number of chains retired when the thread entered its epoch. -/
  since : Nat
  /-- The head that it has loaded last, and from where. -/
  chain : Option (Pid × Nat)
  /-- `R` of `split_leaf` -/
  right : Nat

/-- The address in an entry of the map. -/
def Memory.address (M : Memory) (p : Pid) : Option Nat := (M.head p).map Link.addr

namespace Heap

/-- Where the chain of an owner begins. -/
def root (H : Heap) (M : Memory) : Owner → Option Nat
  | .entry p => M.address p
  | .unlinked t => H.unlinked t
  | .retired i => H.retired[i]?
  | .undone i => H.undone[i]?

/-- A base is published, and the thread is to retire the chain that it
replaces. -/
def swap (H : Heap) (t a : Nat) : Heap :=
  { H with nodes := H.nodes.push none, unlinked := Function.update H.unlinked t (some a) }

/-- `dlsm_index_new` -/
def new : Heap where
  nodes := ⟨1, fun _ => none, fun _ _ h => by cases h⟩
  unlinked _ := none
  retired := []
  reclaimed _ := false
  undone := []

/-- The node has been freed. -/
def Freed (H : Heap) (n : Nat) : Prop :=
  (∃ i, H.reclaimed i = true ∧ n ∈ H.nodes.chain H.retired[i]?) ∨ ∃ i : Nat, n ∈ H.nodes.chain H.undone[i]?

end Heap

/-! ## Steps -/

/-- What a step of `split_leaf` does to the nodes. -/
def SmoPc.heap (H : Heap) (M : Memory) (t : Nat) (hand : Hand) : SmoPc → Heap
  | .splitPid .. | .rootPid .. | .innerPid .. => { H with nodes := H.nodes.push none }
  | .splitCas pid _ _ h _ _ => if M.address pid = some h.addr then H.swap t h.addr else H
  | .splitUndo .. => { H with undone := H.undone ++ [hand.right] }
  | .sepStore .. | .innerStore .. =>
    match hand.chain with
    | some (_, a) => H.swap t a
    | none => H
  | _ => H

/-- What a step of a call does to the nodes. -/
def Pc.heap (H : Heap) (M : Memory) (t : Nat) (hand : Hand) : Pc → Heap
  | .installCas _ pid h => if M.address pid = some h.addr then { H with nodes := H.nodes.push (some h.addr) } else H
  | .consCas _ pid _ _ h => if M.address pid = some h.addr then H.swap t h.addr else H
  | .smo _ p => p.heap H M t hand
  | _ => H

/-- The head of `pid` is loaded. -/
def Hand.load (hand : Hand) (M : Memory) (pid : Pid) : Hand :=
  { hand with chain := (M.address pid).map fun a => (pid, a) }

/-- What the thread has after a step of `split_leaf`. -/
def SmoPc.hand (hand : Hand) (M : Memory) : SmoPc → Hand
  | .pathHead pid _ | .splitHead pid _ _ | .sepHead pid [] _ _ | .sepHead _ (pid :: _) _ _ | .innerHead pid _ =>
    hand.load M pid
  | .splitPid .. => { hand with right := M.published }
  -- `Pnew->num` is read after the store
  | .sepStore _ parent _ _ _ _ => { hand with chain := some (parent, M.published) }
  | _ => hand

/-- What the thread has after a step of its call. -/
def Pc.hand (hand : Hand) (M : Memory) (H : Heap) : Pc → Hand
  | .getRoot _ | .findRoot _ => { hand with since := H.retired.length, chain := none }
  | .getHead _ pid | .findHead _ pid | .installHead _ pid | .checkHead _ pid | .consHead _ pid _ _ => hand.load M pid
  | .smo _ p => p.hand hand M
  | .ret .. => { hand with chain := none }
  | _ => hand

/-- The operations and the nodes. -/
structure Tracked where
  op : State
  heap : Heap
  hand : Nat → Hand

inductive TrackedAct where
  /-- A step of the operations. -/
  | op (a : Act)
  /-- `retire_chain` -/
  | retire (t : Nat)
  /-- The EBR frees the chain that it was handed as number `i`. -/
  | reclaim (i : Nat)

namespace Tracked

def step (x : Tracked) : TrackedAct → Option Tracked
  | .op (.call t o) => (Concurrent.step x.op (.call t o)).map fun s => { x with op := s }
  | .op (.next t) =>
    if x.heap.unlinked t = none then
      (Concurrent.step x.op (.next t)).map fun s =>
        { op := s
          heap := (x.op.pc t).heap x.heap x.op.mem t (x.hand t)
          hand := Function.update x.hand t ((x.op.pc t).hand (x.hand t) x.op.mem x.heap) }
    else none
  | .retire t =>
    (x.heap.unlinked t).map fun a =>
      { x with
        heap :=
          { x.heap with unlinked := Function.update x.heap.unlinked t none, retired := x.heap.retired ++ [a] } }
  | .reclaim i =>
    if i < x.heap.retired.length ∧ x.heap.reclaimed i = false then
      some { x with heap := { x.heap with reclaimed := Function.update x.heap.reclaimed i true } }
    else none

def initial : Tracked := ⟨.initial, .new, fun _ => ⟨0, none, 0⟩⟩

def machine : Machine Tracked TrackedAct where
  init x := x = initial
  step := step

end Tracked

/-- The thread is in its epoch, between `dlsm_ebr_enter` and `dlsm_ebr_exit`. -/
def Pc.Inside : Pc → Prop
  | .idle | .getRoot _ | .findRoot _ => False
  | .ret _ _ r => r.1 ≠ .inval
  | _ => True

/-- The map has room, and the EBR frees no chain that was retired after a thread
entered an epoch that it is still in. -/
def Allowed (x : Tracked) : TrackedAct → Prop
  | .op a => hasRoom x.op a = true
  | .retire _ => True
  | .reclaim i => ∀ t, (x.op.pc t).Inside → i < (x.hand t).since

/-- The nodes that `dlsm_index_free` finds in the map. -/
def Tracked.mapNodes (x : Tracked) : List Nat :=
  (List.range x.op.mem.nextPid).flatMap fun p => x.heap.nodes.chain (x.op.mem.address p)

end Dlsmc.Index.Concurrent
