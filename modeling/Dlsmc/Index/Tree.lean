import Mathlib.Logic.Function.Basic
import Dlsmc.Index.Node

/-!
# The operations of the index (`index.c`)

One thread runs `dlsm_index_get`, `dlsm_index_insert`, `dlsm_index_update`,
`dlsm_index_delete` and `dlsm_index_stats_get`. As nobody else changes the
index in between, a compare-exchange with a value just loaded succeeds, so that
the retries after a lost race are not here.

Every allocation asks a `Pattern` whether it fails, and is recorded in
`State.allocs`; `Site` says where in the code it is. `none` and `Bytes.null`
stand for a null result. What the index retires is not read again, so that a
retired chain is dropped; the node that `dlsm_ebr_retire` allocates for it may
fail, which loses the chain and changes nothing else.

`State.registered` says that the thread has a slot of the EBR of the index.
A loop `for (;;)` is given a number of rounds, `fuel`.
-/

namespace Dlsmc.Index

/-- The places where the code allocates. -/
inductive Site where
  /-- `dlsm_index_new` -/
  | index
  | map
  | root
  /-- `ebr_slot` -/
  | ebrReg
  /-- `dlsm_ebr_retire` -/
  | ebrNode
  /-- `write_op` -/
  | delta
  | deltaKey
  /-- `materialize_leaf` -/
  | seen
  | live
  | liveKey
  /-- `try_consolidate` -/
  | consolidated
  | consolidatedFence
  /-- `split_leaf` -/
  | leafHalf
  | leafHalfEnts
  | leafSep
  | leafHalfFence
  /-- `install_sep` -/
  | newRoot
  | newRootEnts
  /-- `clone_internal_insert` -/
  | clone
  | cloneEnts
  | cloneSep
  | cloneFence
  /-- `split_internal` -/
  | promoted
  | half
  | halfEnts
  | halfSep
  | halfFence
  deriving DecidableEq

/-- Whether the allocation with a number, made at a site, fails. -/
abbrev Pattern := Site → Nat → Bool

/-- `mentry` -/
structure MEntry where
  head : Option Chain
  consolidating : Bool

/-- `dlsm_index` -/
structure State where
  map : Pid → MEntry
  nextPid : Nat
  root : Pid
  smoBusy : Bool
  consolidations : Nat
  leafSplits : Nat
  internalSplits : Nat
  registered : Bool
  /-- Where memory was allocated so far, the last first. -/
  allocs : List Site

/-- Code that works on the index. -/
abbrev IndexM := StateT State (Except Fault)

namespace State

/-- The number of the next allocation. -/
def clock (t : State) : Nat := t.allocs.length

/-- `load_head`, and the access to the chain that follows it everywhere. -/
def loadHead (t : State) (pid : Pid) : Except Fault Chain :=
  if pid < MAP_CAP then
    match (t.map pid).head with
    | some c => .ok c
    | none => .error .nullPointer
  else .error .outOfRange

/-- `load_head`, cast to a base. -/
def loadBase (t : State) (pid : Pid) : Except Fault Base := do
  let c ← t.loadHead pid
  if c.deltas = [] then .ok c.base else .error .badCast

/-- A store to `map[pid].head`. -/
def setHead (t : State) (pid : Pid) (c : Option Chain) : State :=
  { t with map := Function.update t.map pid { t.map pid with head := c } }

/-- A store to `map[pid].consolidating`. -/
def setConsolidating (t : State) (pid : Pid) (b : Bool) : State :=
  { t with map := Function.update t.map pid { t.map pid with consolidating := b } }

end State

/-- An allocation; `false` is a null result. -/
def alloc (ω : Pattern) (site : Site) : IndexM Bool := fun t =>
  .ok (!ω site t.clock, { t with allocs := site :: t.allocs })

/-- An access through a pointer; `false` is null. -/
def deref (ptr : Bool) : IndexM Unit := if ptr then pure () else throw .nullPointer

/-- `keydup` -/
def keydup (ω : Pattern) (site : Site) (b : Bytes) : IndexM Bytes := do
  if ← alloc ω site then
    match b with
    | .copy k => pure (.copy k)
    | .null 0 => pure (.copy [])
    | .null (_ + 1) => throw .nullPointer
  else pure (.null b.len)

/-- `fdup` -/
def fdup (ω : Pattern) (site : Site) (b : Bytes) : IndexM Bytes :=
  match b with
  | .null n => pure (.null n)
  | .copy k => keydup ω site (.copy k)

/-- `retire_chain`, with the allocation of `dlsm_ebr_retire`. -/
def retireChain (ω : Pattern) : IndexM Unit := do
  let _ ← alloc ω .ebrNode

/-- `alloc_pid` -/
def allocPid (c : Chain) : IndexM Pid := fun t =>
  let p := t.nextPid
  let t := { t with nextPid := (p + 1) % 2 ^ 32 }
  if MAP_CAP ≤ p then .ok (PID_NULL, t) else .ok (p, t.setHead p (some c))

/-- `dlsm_index_new`; `none` is a null result. -/
def indexNew (ω : Pattern) : Option State :=
  if ω .index 0 then none
  else if ω .map 1 || ω .root 2 then none
  else some
    { map := fun pid => ⟨if pid = 0 then some ⟨[], Base.leafNew⟩ else none, false⟩
      nextPid := 1
      root := 0
      smoBusy := false
      consolidations := 0
      leafSplits := 0
      internalSplits := 0
      registered := false
      allocs := [.root, .map, .index] }

/-- `ebr_slot` and `dlsm_ebr_enter`. Without a slot, `dlsm_ebr_enter` stores to
`local[-1]`. -/
def ebrEnter (ω : Pattern) : IndexM Unit := do
  if (← get).registered then pure ()
  else if ← alloc ω .ebrReg then modify fun t => { t with registered := true }
  else throw .outOfRange

/-! ## Consolidation -/

/-- The loop of `materialize_leaf` over the deltas, with `seen` and `res`. -/
def materializeDeltas (ω : Pattern) : List Delta → List Key → List LeafEnt → IndexM (Option (List Key × List LeafEnt))
  | [], seen, res => pure (some (seen, res))
  | d :: ds, seen, res =>
    if seenHas seen d.key then materializeDeltas ω ds seen res
    else if d.op = .delete then materializeDeltas ω ds (seen ++ [d.key]) res
    else do
      if ← alloc ω .liveKey then materializeDeltas ω ds (seen ++ [d.key]) (res ++ [⟨d.key, d.val⟩])
      else pure none

/-- The loop of `materialize_leaf` over the entries of the base. -/
def materializeBase (ω : Pattern) (seen : List Key) : List LeafEnt → List LeafEnt → IndexM (Option (List LeafEnt))
  | [], res => pure (some res)
  | e :: es, res =>
    if seenHas seen e.key then materializeBase ω seen es res
    else do
      if ← alloc ω .liveKey then materializeBase ω seen es (res ++ [e])
      else pure none

/-- `materialize_leaf`; `none` is `DLSM_INDEX_E_NOMEM`. -/
def materializeLeaf (ω : Pattern) (c : Chain) : IndexM (Option (List LeafEnt)) := do
  let seen ← if c.deltas = [] then pure true else alloc ω .seen
  let res ← alloc ω .live
  if seen && res then
    match ← materializeDeltas ω c.deltas [] [] with
    | none => pure none
    | some (seen, res) =>
      match ← materializeBase ω seen c.base.lents res with
      | none => pure none
      | some res => pure (some (qsort res))
  else pure none

/-- A round of the loop of `try_consolidate`: the first one ends it. -/
def consolidate (ω : Pattern) (pid : Pid) : IndexM Unit := do
  let h ← (← get).loadHead pid
  if h.deltas = [] then pure ()
  else if h.base.isLeaf then
    match ← materializeLeaf ω h with
    | none => pure ()
    | some arr =>
      if ← alloc ω .consolidated then
        let lowFence ← fdup ω .consolidatedFence h.base.lowFence
        let highFence ← fdup ω .consolidatedFence h.base.highFence
        let nb : Base :=
          { Base.leafNew with
            ents := .leaf arr
            lowFence := lowFence
            highFence := highFence
            rightSibling := h.base.rightSibling }
        modify (·.setHead pid (some ⟨[], nb⟩))
        retireChain ω
        modify fun t => { t with consolidations := (t.consolidations + 1) % 2 ^ 64 }
      else pure ()
  else pure ()

/-- `try_consolidate` -/
def tryConsolidate (ω : Pattern) (pid : Pid) : IndexM Unit := do
  if ((← get).map pid).consolidating then pure ()
  else do
    modify (·.setConsolidating pid true)
    consolidate ω pid
    modify (·.setConsolidating pid false)

/-! ## Splits -/

/-- `descend_with_path`, from `pid`, with the path so far, its last first; the
path that is returned begins with the leaf. -/
def State.descendWithPath (t : State) (k : Key) : Nat → Pid → List Pid → Except Fault (List Pid)
  | 0, _, _ => .error .fuel
  | n + 1, pid, path => do
    let c ← t.loadHead pid
    if c.base.pastFence k then t.descendWithPath k n c.base.rightSibling path
    else if MAX_DEPTH ≤ path.length then .error .outOfRange
    else
      match c.base.ents with
      | .internal es => t.descendWithPath k n (← route es k) (pid :: path)
      | .leaf _ => .ok (pid :: path)

/-- The loop of `clone_internal_insert` over the entries. -/
def cloneEnts (ω : Pattern) (sep : Bytes) (child right : Pid) : List IdxEnt → IndexM (List IdxEnt)
  | [] => pure []
  | e :: es => do
    let s ← fdup ω .cloneSep e.sep
    let es ← cloneEnts ω sep child right es
    pure (if e.child = child then ⟨s, e.child⟩ :: ⟨sep, right⟩ :: es else ⟨s, e.child⟩ :: es)

/-- `clone_internal_insert`; `none` is a null result. -/
def cloneInternalInsert (ω : Pattern) (P : Base) (sep : Bytes) (child right : Pid) : IndexM (Option Base) := do
  if ← alloc ω .clone then
    if ← alloc ω .cloneEnts then
      let ients ← cloneEnts ω sep child right P.ients
      let lowFence ← fdup ω .cloneFence P.lowFence
      let highFence ← fdup ω .cloneFence P.highFence
      pure (some
        { Base.internalNew P.level with
          ents := .internal ients
          lowFence := lowFence
          highFence := highFence
          rightSibling := P.rightSibling })
    else pure none
  else pure none

/-- Copies of the entries of an internal node, for one of its halves. -/
def dupEnts (ω : Pattern) : List IdxEnt → IndexM (List IdxEnt)
  | [] => pure []
  | e :: es => do
    let s ← fdup ω .halfSep e.sep
    let es ← dupEnts ω es
    pure (⟨s, e.child⟩ :: es)

/-- The entries of a half of an internal node: the separator of the first is
null. -/
def halfEnts (ω : Pattern) : List IdxEnt → IndexM (List IdxEnt)
  | [] => pure []
  | e :: es => do
    let es ← dupEnts ω es
    pure (⟨.null 0, e.child⟩ :: es)

/-- `split_internal`, up to its call of `install_sep`: the separator and the
new node that are left to install. -/
def splitInternal (ω : Pattern) (pid : Pid) : IndexM (Bytes × Pid) := do
  let N ← (← get).loadBase pid
  let mid := N.num / 2
  match N.ients[mid]? with
  | none => throw .outOfRange
  | some e =>
    let promoted ← keydup ω .promoted e.sep
    deref (← alloc ω .half)
    deref (← alloc ω .halfEnts)
    let rients ← halfEnts ω (N.ients.drop mid)
    let rlow ← keydup ω .halfFence promoted
    let rhigh ← fdup ω .halfFence N.highFence
    let NR : Base :=
      { Base.internalNew N.level with
        ents := .internal rients
        lowFence := rlow
        highFence := rhigh
        rightSibling := N.rightSibling }
    let nrp ← allocPid ⟨[], NR⟩
    deref (← alloc ω .half)
    deref (← alloc ω .halfEnts)
    let lients ← halfEnts ω (N.ients.take mid)
    let llow ← fdup ω .halfFence N.lowFence
    let lhigh ← keydup ω .halfFence promoted
    let NL : Base :=
      { Base.internalNew N.level with
        ents := .internal lients
        lowFence := llow
        highFence := lhigh
        rightSibling := nrp }
    modify (·.setHead pid (some ⟨[], NL⟩))
    retireChain ω
    modify fun t => { t with internalSplits := (t.internalSplits + 1) % 2 ^ 64 }
    pure (promoted, nrp)

/-- `install_sep`, for the node at the head of `path`. It is also the end of
`split_internal`, which calls it for the parent. -/
def installSep (ω : Pattern) : List Pid → Pid → Bytes → Pid → IndexM Unit
  | _ :: parent :: path, child, sep, right => do
    let oldh ← (← get).loadBase parent
    let Pnew ← cloneInternalInsert ω oldh sep child right
    modify (·.setHead parent (Pnew.map (⟨[], ·⟩)))
    retireChain ω
    match Pnew with
    | none => throw .nullPointer
    | some Pnew =>
      if INTERNAL_MAX < Pnew.num then
        let (promoted, nrp) ← splitInternal ω parent
        installSep ω (parent :: path) parent promoted nrp
      else pure ()
  | _, child, sep, right => do
    let c ← (← get).loadHead child
    deref (← alloc ω .newRoot)
    deref (← alloc ω .newRootEnts)
    let R : Base :=
      { Base.internalNew ((c.base.level + 1) % 2 ^ 8) with
        ents := .internal [⟨.null 0, child⟩, ⟨sep, right⟩] }
    let rp ← allocPid ⟨[], R⟩
    modify fun t => { t with root := rp }

/-- The leaves that `split_leaf` makes of the entries `arr` of a leaf with the
base `tail`; `none` when an allocation that it checks fails. -/
def leafHalves (ω : Pattern) (tail : Base) (arr : List LeafEnt) : IndexM (Option (Base × Base × Bytes)) := do
  let mid := arr.length / 2
  let L ← alloc ω .leafHalf
  let R ← alloc ω .leafHalf
  deref L
  let lents ← alloc ω .leafHalfEnts
  deref R
  let rents ← alloc ω .leafHalfEnts
  match arr[mid]? with
  | none => throw .outOfRange
  | some e =>
    let sep ← keydup ω .leafSep (.copy e.key)
    if !lents || !rents || sep.key = none then pure none
    else do
      let llow ← fdup ω .leafHalfFence tail.lowFence
      let lhigh ← keydup ω .leafHalfFence sep
      let rlow ← keydup ω .leafHalfFence sep
      let rhigh ← fdup ω .leafHalfFence tail.highFence
      pure (some
        ({ Base.leafNew with ents := .leaf (arr.take mid), lowFence := llow, highFence := lhigh },
         { Base.leafNew with
            ents := .leaf (arr.drop mid)
            lowFence := rlow
            highFence := rhigh
            rightSibling := tail.rightSibling },
         sep))

/-- A round of the loop of `split_leaf`, for the leaf at the head of `path`: the
first one ends it. -/
def splitRound (ω : Pattern) (path : List Pid) (pid : Pid) : IndexM Unit := do
  let h ← (← get).loadHead pid
  match ← materializeLeaf ω h with
  | none => pure ()
  | some arr =>
    if arr.length ≤ LEAF_MAX then pure ()
    else do
      match ← leafHalves ω h.base arr with
      | none => pure ()
      | some (L, R, sep) =>
        let rp ← allocPid ⟨[], R⟩
        modify (·.setHead pid (some ⟨[], { L with rightSibling := rp }⟩))
        retireChain ω
        modify fun t => { t with leafSplits := (t.leafSplits + 1) % 2 ^ 64 }
        installSep ω path pid sep rp

/-- `split_leaf` -/
def splitLeaf (ω : Pattern) (fuel : Nat) (k : Key) : IndexM Unit := do
  if (← get).smoBusy then pure ()
  else do
    modify fun t => { t with smoBusy := true }
    let t ← get
    match ← t.descendWithPath k fuel t.root [] with
    | [] => throw .outOfRange
    | pid :: path =>
      splitRound ω (pid :: path) pid
      modify fun t => { t with smoBusy := false }

/-! ## Writes -/

/-- The search of `write_op` for the leaf, from `pid`. -/
def State.findLeaf (t : State) (k : Key) : Nat → Pid → Except Fault Pid
  | 0, _ => .error .fuel
  | n + 1, pid => do
    let c ← t.loadHead pid
    if c.base.pastFence k then t.findLeaf k n c.base.rightSibling
    else
      match c.base.ents with
      | .internal es => t.findLeaf k n (← route es k)
      | .leaf _ => .ok pid

/-- The loop of `write_op` that installs the delta: the node it went to and
`depth`, or `none` when there is no memory for it. -/
def installDelta (ω : Pattern) (op : DeltaOp) (k : Key) (v : DeltaPointer) : Nat → Pid → IndexM (Option (Pid × Nat))
  | 0, _ => throw .fuel
  | n + 1, pid => do
    let h ← (← get).loadHead pid
    if h.base.pastFence k then installDelta ω op k v n h.base.rightSibling
    else if CHAIN_CAP ≤ h.depth then do
      tryConsolidate ω pid
      installDelta ω op k v n pid
    else do
      let depth := h.depth + 1
      let d ← alloc ω .delta
      let kc ← keydup ω .deltaKey (.copy k)
      match d, kc with
      | true, .copy kc => do
        modify (·.setHead pid (some ⟨⟨op, depth, kc, v⟩ :: h.deltas, h.base⟩))
        pure (some (pid, depth))
      | _, _ => pure none

inductive Status where
  | ok
  /-- `DLSM_INDEX_E_NOMEM` -/
  | nomem
  /-- `DLSM_INDEX_E_NOTFOUND` -/
  | notfound
  /-- `DLSM_INDEX_E_INVAL` -/
  | inval
  deriving DecidableEq

/-- The key an operation is given, with the cast of its length to 32 bits;
`none` is a null pointer with a length. -/
def Bytes.arg : Bytes → Option Key
  | .null 0 => some []
  | .null (_ + 1) => none
  | .copy k => some (List.take (List.length k % 2 ^ 32) k)

/-- `write_op` -/
def writeOp (ω : Pattern) (fuel : Nat) (op : DeltaOp) (key : Bytes) (v : DeltaPointer) : IndexM Status := do
  match key.arg with
  | none => pure .inval
  | some k => do
    ebrEnter ω
    let t ← get
    let pid ← t.findLeaf k fuel t.root
    match ← installDelta ω op k v fuel pid with
    | none => pure .nomem
    | some (pid, depth) => do
      (if CONSOLIDATE_DEPTH ≤ depth then tryConsolidate ω pid else pure ())
      let h ← (← get).loadHead pid
      (if h.base.isLeaf && decide (LEAF_MAX < h.base.num) then splitLeaf ω fuel k else pure ())
      pure .ok

/-- `dlsm_index_insert` -/
def indexInsert (ω : Pattern) (fuel : Nat) (key : Bytes) (v : DeltaPointer) : IndexM Status :=
  writeOp ω fuel .insert key v

/-- `dlsm_index_update` -/
def indexUpdate (ω : Pattern) (fuel : Nat) (key : Bytes) (v : DeltaPointer) : IndexM Status :=
  writeOp ω fuel .update key v

/-- `DLSM_DP_TOMBSTONE` -/
def DP_TOMBSTONE : UInt8 := 2

/-- `dlsm_index_delete` -/
def indexDelete (ω : Pattern) (fuel : Nat) (key : Bytes) : IndexM Status :=
  writeOp ω fuel .delete key ⟨DP_TOMBSTONE, 0, 0⟩

/-! ## Reads -/

/-- The loop of `dlsm_index_get`, from `pid`. -/
def State.lookup (t : State) (k : Key) : Nat → Pid → Except Fault (Option DeltaPointer)
  | 0, _ => .error .fuel
  | n + 1, pid => do
    let c ← t.loadHead pid
    match findDelta c.deltas k with
    | some d => .ok (if d.op = .delete then none else some d.val)
    | none =>
      if c.base.pastFence k then t.lookup k n c.base.rightSibling
      else
        match c.base.ents with
        | .internal es => t.lookup k n (← route es k)
        | .leaf es => .ok ((baseFind es k).bind fun i => es[i]?.map LeafEnt.val)

/-- `dlsm_index_get`: the status, and what is in `*out`. -/
def indexGet (ω : Pattern) (fuel : Nat) (key : Bytes) : IndexM (Status × Option DeltaPointer) := do
  match key.arg with
  | none => pure (.inval, none)
  | some k => do
    ebrEnter ω
    let t ← get
    match ← t.lookup k fuel t.root with
    | none => pure (.notfound, none)
    | some v => pure (.ok, some v)

/-- `count_live`, for a node at most `n` levels above the leaves. -/
def countLive (ω : Pattern) : Nat → Pid → IndexM Nat
  | 0, _ => throw .fuel
  | n + 1, pid => do
    let h ← (← get).loadHead pid
    match h.base.ents with
    | .internal es => es.foldlM (fun s e => do pure ((s + (← countLive ω n e.child)) % 2 ^ 64)) 0
    | .leaf _ => do
      match ← materializeLeaf ω h with
      | none => pure 0
      | some arr => pure arr.length

/-- `dlsm_index_stats` -/
structure Stats where
  height : Nat
  liveKeys : Nat
  consolidations : Nat
  leafSplits : Nat
  internalSplits : Nat
  deriving DecidableEq

/-- `dlsm_index_stats_get` -/
def indexStatsGet (ω : Pattern) (fuel : Nat) : IndexM Stats := do
  let t ← get
  let h ← t.loadHead t.root
  let live ← countLive ω fuel t.root
  pure
    { height := h.base.level + 1
      liveKeys := live
      consolidations := t.consolidations
      leafSplits := t.leafSplits
      internalSplits := t.internalSplits }

end Dlsmc.Index
