import Mathlib.Algebra.Group.Nat.Defs
import Mathlib.Data.List.Sort
import Dlsmc.Index.Key

/-!
# Nodes of the index (`index.c`)

A node of the Bw-tree is a chain: deltas, newest first, over a base. A pointer
to a copy of a key and the length field next to it are one value (`Bytes`), so
that a copy whose allocation failed, `null` with the length of the key, is told
from a fence or a separator that is not there, `null 0`.

This file has the nodes and the searches inside one node. What a search would
read through a null pointer, or past the end of an array, is a `Fault`.
-/

namespace Dlsmc.Index

/-- `pid_t_` -/
abbrev Pid := Nat

/-- `PID_NULL` -/
def PID_NULL : Pid := 0xFFFFFFFF

/-- `DLSM_CONSOLIDATE_DEPTH` -/
def CONSOLIDATE_DEPTH : Nat := 8

/-- `DLSM_CHAIN_CAP` -/
def CHAIN_CAP : Nat := 24

/-- `DLSM_LEAF_MAX` -/
def LEAF_MAX : Nat := 32

/-- `DLSM_INTERNAL_MAX` -/
def INTERNAL_MAX : Nat := 32

/-- `DLSM_MAP_CAP` -/
def MAP_CAP : Nat := 2 ^ 18

/-- `DLSM_MAX_DEPTH` -/
def MAX_DEPTH : Nat := 32

/-- Undefined behaviour the code runs into, and `fuel`: a loop did not end
within the number of rounds it was given. -/
inductive Fault where
  | nullPointer
  | outOfRange
  /-- A chain with deltas is read as a base. -/
  | badCast
  | fuel
  deriving DecidableEq

/-- A pointer to the bytes of a key, with its length. -/
inductive Bytes where
  | null (len : Nat)
  | copy (k : Key)
  deriving DecidableEq

namespace Bytes

def len : Bytes → Nat
  | null n => n
  | copy k => List.length k

/-- The key there, if there is one. -/
def key : Bytes → Option Key
  | null _ => none
  | copy k => some k

/-- `keycmp` of what is there with a key: `memcmp` reads through the pointer
unless one of the two is empty. -/
def cmp (b : Bytes) (k : Key) : Except Fault Ordering :=
  match b with
  | copy s => .ok (keycmp s k)
  | null n =>
    if 0 < min n (List.length k) then .error .nullPointer
    else .ok (if n < List.length k then .lt else if List.length k < n then .gt else .eq)

end Bytes

/-- `delta_op` -/
inductive DeltaOp where
  | insert
  | update
  | delete
  deriving DecidableEq

/-- `delta`, without `next`: the deltas of a chain are a list. -/
structure Delta where
  op : DeltaOp
  depth : Nat
  key : Key
  val : DeltaPointer
  deriving DecidableEq

/-- `leaf_ent` -/
structure LeafEnt where
  key : Key
  val : DeltaPointer
  deriving DecidableEq

/-- `idx_ent` -/
structure IdxEnt where
  sep : Bytes
  child : Pid
  deriving DecidableEq

/-- The kind of a base and its entries; `num` is their number. -/
inductive Ents where
  /-- `NODE_BASE_LEAF`, `lents` -/
  | leaf (lents : List LeafEnt)
  /-- `NODE_BASE_INTERNAL`, `ients` -/
  | internal (ients : List IdxEnt)
  deriving DecidableEq

/-- `base` -/
structure Base where
  level : Nat
  ents : Ents
  lowFence : Bytes
  highFence : Bytes
  rightSibling : Pid
  deriving DecidableEq

namespace Base

def lents (b : Base) : List LeafEnt :=
  match b.ents with
  | .leaf es => es
  | .internal _ => []

def ients (b : Base) : List IdxEnt :=
  match b.ents with
  | .leaf _ => []
  | .internal es => es

def isLeaf (b : Base) : Bool :=
  match b.ents with
  | .leaf _ => true
  | .internal _ => false

def num (b : Base) : Nat := b.lents.length + b.ients.length

/-- `base_leaf_new` -/
def leafNew : Base := ⟨0, .leaf [], .null 0, .null 0, PID_NULL⟩

/-- `base_internal_new` -/
def internalNew (level : Nat) : Base := ⟨level, .internal [], .null 0, .null 0, PID_NULL⟩

end Base

/-- A chain: its deltas, newest first, and `tail_base` of it. -/
structure Chain where
  deltas : List Delta
  base : Base
  deriving DecidableEq

/-- The depth field of the head; a base has depth 0. -/
def Chain.depth (c : Chain) : Nat :=
  match c.deltas with
  | [] => 0
  | d :: _ => d.depth

/-! ## Searches in a node -/

/-- The loop of `base_find`, with `lo` and `hi`. Every round makes the range
smaller, so that `num` rounds are enough. -/
def baseFindLoop (lents : List LeafEnt) (k : Key) : Nat → Int → Int → Option Nat
  | 0, _, _ => none
  | n + 1, lo, hi =>
    if lo ≤ hi then
      let mid := lo + (hi - lo) / 2
      match lents[mid.toNat]? with
      | none => none
      | some e =>
        match keycmp e.key k with
        | .eq => some mid.toNat
        | .lt => baseFindLoop lents k n (mid + 1) hi
        | .gt => baseFindLoop lents k n lo (mid - 1)
    else none

/-- `base_find`; `none` is -1. -/
def baseFind (lents : List LeafEnt) (k : Key) : Option Nat :=
  baseFindLoop lents k lents.length 0 (lents.length - 1)

/-- The loop of `route`, with `lo`, `hi` and `res`. -/
def routeLoop (ients : List IdxEnt) (k : Key) : Nat → Int → Int → Nat → Except Fault Nat
  | 0, _, _, res => .ok res
  | n + 1, lo, hi, res =>
    if lo ≤ hi then
      let mid := lo + (hi - lo) / 2
      match ients[mid.toNat]? with
      | none => .error .outOfRange
      | some e => do
        match ← e.sep.cmp k with
        | .gt => routeLoop ients k n lo (mid - 1) res
        | _ => routeLoop ients k n (mid + 1) hi mid.toNat
    else .ok res

/-- `route` -/
def route (ients : List IdxEnt) (k : Key) : Except Fault Pid := do
  let res ← routeLoop ients k ients.length 1 (ients.length - 1) 0
  match ients[res]? with
  | none => .error .outOfRange
  | some e => .ok e.child

/-- `past_fence` -/
def Base.pastFence (b : Base) (k : Key) : Bool :=
  match b.highFence with
  | .null _ => false
  | .copy h => keycmp k h != .lt

/-- The walk of `dlsm_index_get` along the deltas of a chain: the first of the
key. -/
def findDelta (ds : List Delta) (k : Key) : Option Delta :=
  ds.find? fun d => keycmp d.key k == .eq

/-- `seen_has` -/
def seenHas (seen : List Key) (k : Key) : Bool := seen.any fun s => keycmp s k == .eq

/-- `lent_cmp` -/
def lentCmp (x y : LeafEnt) : Ordering := keycmp x.key y.key

/-- `qsort` of entries: their keys are distinct, so that it has one result. -/
def qsort (es : List LeafEnt) : List LeafEnt := es.insertionSort fun e f => lentCmp e f ≠ .gt

end Dlsmc.Index
