import Dlsmc.Framework.Linearize
import Dlsmc.Framework.Machine
import Dlsmc.Index.Write

/-!
# Concurrent operations of the index (`index.c`)

Any number of threads run `dlsm_index_get`, `dlsm_index_insert`,
`dlsm_index_update` and `dlsm_index_delete` on one index. Every load, store and
compare-exchange of a head, of the root, of a flag `consolidating` and of
`smo_busy` is a step of its own (`Pc`); what is between two of them works on
chains that are not changed any more and on the thread's own variables.
`next_pid` is used under `smo_busy` only, so that it changes in the step of the
store next to it. No allocation fails.

A compare-exchange of a head compares addresses (`Link`). A chain that an
operation has loaded is not freed before the operation is over, so that its
address is not used for another chain meanwhile: every chain that is published
has an address of its own. The counters of `dlsm_index_stats`, the slots of the
EBR and `gc_tick` are left out.
-/

namespace Dlsmc.Index.Concurrent

/-- The value of a head: an address, and the chain there. -/
structure Link where
  addr : Nat
  chain : Chain

/-- What the threads share. -/
structure Memory where
  head : Pid → Option Link
  consolidating : Pid → Bool
  nextPid : Nat
  root : Pid
  smoBusy : Bool
  /-- The number of chains published so far: the address of the next one. -/
  published : Nat

namespace Memory

/-- `load_head`, and the access to the chain that follows it everywhere. -/
def loadHead (M : Memory) (pid : Pid) : Except Fault Link :=
  if pid < MAP_CAP then
    match M.head pid with
    | some l => .ok l
    | none => .error .nullPointer
  else .error .outOfRange

/-- `load_head`, cast to a base. -/
def loadBase (M : Memory) (pid : Pid) : Except Fault Base := do
  let l ← M.loadHead pid
  if l.chain.deltas = [] then .ok l.chain.base else .error .badCast

/-- The chain becomes the head of `pid`. -/
def publish (M : Memory) (pid : Pid) (c : Chain) : Memory :=
  { M with head := Function.update M.head pid (some ⟨M.published, c⟩), published := M.published + 1 }

/-- The compare-exchange of a head, from `h` to the chain; `none` when it
fails. -/
def casHead (M : Memory) (pid : Pid) (h : Link) (c : Chain) : Option Memory :=
  match M.head pid with
  | some l => if l.addr = h.addr then some (M.publish pid c) else none
  | none => none

/-- `alloc_pid` -/
def allocPid (M : Memory) (c : Chain) : Pid × Memory :=
  let p := M.nextPid
  if MAP_CAP ≤ p then (PID_NULL, { M with nextPid := (p + 1) % 2 ^ 32 })
  else (p, { M.publish p c with nextPid := (p + 1) % 2 ^ 32 })

/-- `dlsm_index_new` -/
def new : Memory where
  head pid := if pid = 0 then some ⟨0, ⟨[], Base.leafNew⟩⟩ else none
  consolidating _ := false
  nextPid := 1
  root := 0
  smoBusy := false
  published := 1

end Memory

/-! ## Operations -/

/-- A call: of `dlsm_index_get`, or of `write_op` by `dlsm_index_insert`,
`dlsm_index_update` or `dlsm_index_delete`. -/
inductive Op where
  | get (key : Bytes)
  | write (op : DeltaOp) (key : Bytes) (v : DeltaPointer)
  deriving DecidableEq

/-- The status, and what is in `*out`. -/
abbrev Result := Status × Option DeltaPointer

/-- A key that is not refused: as it was given, and with the cast of its
length. -/
structure Arg where
  given : Bytes
  key : Key
  cast : given.arg = some key

/-- A call of `dlsm_index_get` under way. -/
structure Get where
  number : Nat
  arg : Arg

/-- A call of `write_op` under way. -/
structure Write where
  number : Nat
  op : DeltaOp
  arg : Arg
  v : DeltaPointer

/-- What a call of `write_op` has `try_consolidate` for: to drain a chain at its
cap, or to collapse the chain after its delta is installed. -/
inductive Purpose where
  | drain
  | collapse

/-- Where a thread is in `split_leaf`, after it has taken `smo_busy`. The paths
have the nearest node first; `path` is what is above the node named before
it. -/
inductive SmoPc where
  /-- `descend_with_path` -/
  | pathRoot
  | pathHead (pid : Pid) (path : List Pid)
  /-- `split_leaf` -/
  | splitHead (pid : Pid) (path : List Pid) (attempt : Nat)
  | splitPid (pid : Pid) (path : List Pid) (attempt : Nat) (h : Link) (sep : Key)
  | splitCas (pid : Pid) (path : List Pid) (attempt : Nat) (h : Link) (sep : Key) (rp : Pid)
  | splitUndo (pid : Pid) (path : List Pid) (attempt : Nat) (rp : Pid)
  /-- `install_sep` -/
  | sepHead (child : Pid) (path : List Pid) (sep : Key) (right : Pid)
  | sepStore (child parent : Pid) (path : List Pid) (sep : Key) (right : Pid) (P : Base)
  | rootPid (child : Pid) (sep : Key) (right : Pid) (level : Nat)
  | rootStore (rp : Pid)
  /-- `split_internal` -/
  | innerHead (pid : Pid) (path : List Pid)
  | innerPid (pid : Pid) (path : List Pid) (N : Base) (promoted : Key)
  | innerStore (pid : Pid) (path : List Pid) (N : Base) (promoted : Key) (nrp : Pid)
  /-- The end of `split_leaf`. -/
  | unlock

/-- Where a thread is: what it is about to load, store or exchange, with the
variables it still uses. -/
inductive Pc where
  | idle
  /-- `dlsm_index_get` -/
  | getRoot (g : Get)
  | getHead (g : Get) (pid : Pid)
  /-- `write_op` -/
  | findRoot (w : Write)
  | findHead (w : Write) (pid : Pid)
  | installHead (w : Write) (pid : Pid)
  | installCas (w : Write) (pid : Pid) (h : Link)
  | checkHead (w : Write) (pid : Pid)
  /-- `try_consolidate` -/
  | consFlag (w : Write) (pid : Pid) (why : Purpose)
  | consHead (w : Write) (pid : Pid) (why : Purpose) (attempt : Nat)
  | consCas (w : Write) (pid : Pid) (why : Purpose) (attempt : Nat) (h : Link)
  | consEnd (w : Write) (pid : Pid) (why : Purpose)
  /-- `split_leaf` -/
  | smoFlag (w : Write)
  | smo (w : Write) (p : SmoPc)
  /-- The call is about to return `r`. -/
  | ret (n : Nat) (o : Op) (r : Result)
  | fault (f : Fault)

namespace Arg

/-- The call of `dlsm_index_get`, as it was made. -/
def get (a : Arg) : Op := .get a.given

end Arg

namespace Write

/-- The call of `write_op`, as it was made. -/
def made (w : Write) : Op := .write w.op w.arg.given w.v

/-- Where the call goes on after `try_consolidate`. -/
def consolidated (w : Write) (pid : Pid) : Purpose → Pc
  | .drain => .installHead w pid
  | .collapse => .checkHead w pid

/-- The call is about to return. -/
def done (w : Write) : Pc := .ret w.number w.made (.ok, none)

end Write

/-- The beginning of a call. -/
def Op.start (n : Nat) : Op → Pc
  | .get key =>
    match h : key.arg with
    | none => .ret n (.get key) (.inval, none)
    | some k => .getRoot ⟨n, ⟨key, k, h⟩⟩
  | .write op key v =>
    match h : key.arg with
    | none => .ret n (.write op key v) (.inval, none)
    | some k => .findRoot ⟨n, op, ⟨key, k, h⟩, v⟩

/-! ## Nodes -/

/-- `keydup` that finds its memory. -/
def dupKey : Bytes → Except Fault Key
  | .copy k => .ok k
  | .null 0 => .ok []
  | .null (_ + 1) => .error .nullPointer

/-- The leaf that `split_leaf` leaves at the old PID. -/
def lowerLeaf (c : Chain) (sep : Key) (rp : Pid) : Base :=
  ⟨0, .leaf (c.live.take (c.live.length / 2)), c.base.lowFence, .copy sep, rp⟩

/-- The leaf that `split_leaf` makes for the new PID. -/
def upperLeaf (c : Chain) (sep : Key) : Base :=
  ⟨0, .leaf (c.live.drop (c.live.length / 2)), .copy sep, c.base.highFence, c.base.rightSibling⟩

/-- The root that `install_sep` makes. -/
def rootOver (child : Pid) (sep : Key) (right : Pid) (level : Nat) : Base :=
  { Base.internalNew ((level + 1) % 2 ^ 8) with ents := .internal [⟨.null 0, child⟩, ⟨.copy sep, right⟩] }

/-! ## Steps -/

/-- A round of `dlsm_index_get` at the chain it has loaded. -/
def Get.visit (g : Get) (c : Chain) : Except Fault Pc :=
  match findDelta c.deltas g.arg.key with
  | some d => .ok (.ret g.number g.arg.get (readOf (if d.op = .delete then none else some d.val)))
  | none =>
    if c.base.pastFence g.arg.key then .ok (.getHead g c.base.rightSibling)
    else
      match c.base.ents with
      | .internal es => do .ok (.getHead g (← route es g.arg.key))
      | .leaf es => .ok (.ret g.number g.arg.get (readOf (findEnt es g.arg.key)))

/-- A round of the search of `write_op` for the leaf. -/
def Write.visit (w : Write) (pid : Pid) (c : Chain) : Except Fault Pc :=
  if c.base.pastFence w.arg.key then .ok (.findHead w c.base.rightSibling)
  else
    match c.base.ents with
    | .internal es => do .ok (.findHead w (← route es w.arg.key))
    | .leaf _ => .ok (.installHead w pid)

/-- A round of `descend_with_path`. -/
def visitPath (k : Key) (pid : Pid) (path : List Pid) (c : Chain) : Except Fault SmoPc :=
  if c.base.pastFence k then .ok (.pathHead c.base.rightSibling path)
  else if MAX_DEPTH ≤ path.length then .error .outOfRange
  else
    match c.base.ents with
    | .internal es => do .ok (.pathHead (← route es k) (pid :: path))
    | .leaf _ => .ok (.splitHead pid path 0)

/-- A step of `split_leaf` for the key `k`; `none` after it has given `smo_busy`
back. -/
def SmoPc.next (M : Memory) (k : Key) : SmoPc → Except Fault (Memory × Option SmoPc)
  | .pathRoot => .ok (M, some (.pathHead M.root []))
  | .pathHead pid path => do
    let l ← M.loadHead pid
    .ok (M, some (← visitPath k pid path l.chain))
  | .splitHead pid path attempt => do
    let h ← M.loadHead pid
    if h.chain.live.length ≤ LEAF_MAX then .ok (M, some .unlock)
    else
      match h.chain.live[h.chain.live.length / 2]? with
      | none => .error .outOfRange
      | some e => .ok (M, some (.splitPid pid path attempt h e.key))
  | .splitPid pid path attempt h sep =>
    let (rp, M) := M.allocPid ⟨[], upperLeaf h.chain sep⟩
    .ok (M, some (.splitCas pid path attempt h sep rp))
  | .splitCas pid path attempt h sep rp =>
    match M.casHead pid h ⟨[], lowerLeaf h.chain sep rp⟩ with
    | some M => .ok (M, some (.sepHead pid path sep rp))
    | none => .ok (M, some (.splitUndo pid path attempt rp))
  | .splitUndo pid path attempt rp =>
    if rp < MAP_CAP then
      let M :=
        { M with head := Function.update M.head rp none, nextPid := (M.nextPid + (2 ^ 32 - 1)) % 2 ^ 32 }
      .ok (M, some (if attempt + 1 < 8 then .splitHead pid path (attempt + 1) else .unlock))
    else .error .outOfRange
  | .sepHead child [] sep right => do
    let l ← M.loadHead child
    .ok (M, some (.rootPid child sep right l.chain.base.level))
  | .sepHead child (parent :: path) sep right => do
    let P ← M.loadBase parent
    .ok (M, some (.sepStore child parent path sep right P))
  | .sepStore child parent path sep right P =>
    let Pnew := P.withEnt (.copy sep) child right P.lowFence P.highFence
    -- `clone_internal_insert` has room for one entry more
    if P.ients.length + 1 < Pnew.num then .error .outOfRange
    else
      .ok (M.publish parent ⟨[], Pnew⟩, some (if INTERNAL_MAX < Pnew.num then .innerHead parent path else .unlock))
  | .rootPid child sep right level =>
    let (rp, M) := M.allocPid ⟨[], rootOver child sep right level⟩
    .ok (M, some (.rootStore rp))
  | .rootStore rp => .ok ({ M with root := rp }, some .unlock)
  | .innerHead pid path => do
    let N ← M.loadBase pid
    match N.ients[N.num / 2]? with
    | none => .error .outOfRange
    | some e => .ok (M, some (.innerPid pid path N (← dupKey e.sep)))
  | .innerPid pid path N promoted =>
    let (nrp, M) := M.allocPid ⟨[], N.upperHalf (.copy promoted) N.highFence⟩
    .ok (M, some (.innerStore pid path N promoted nrp))
  | .innerStore pid path N promoted nrp =>
    .ok (M.publish pid ⟨[], N.lowerHalf N.lowFence (.copy promoted) nrp⟩, some (.sepHead pid path promoted nrp))
  | .unlock => .ok ({ M with smoBusy := false }, none)

/-- A step of a call. -/
def Pc.next (M : Memory) : Pc → Except Fault (Memory × Pc)
  | .getRoot g => .ok (M, .getHead g M.root)
  | .getHead g pid => do
    let l ← M.loadHead pid
    .ok (M, ← g.visit l.chain)
  | .findRoot w => .ok (M, .findHead w M.root)
  | .findHead w pid => do
    let l ← M.loadHead pid
    .ok (M, ← w.visit pid l.chain)
  | .installHead w pid => do
    let h ← M.loadHead pid
    if h.chain.base.pastFence w.arg.key then .ok (M, .installHead w h.chain.base.rightSibling)
    else if CHAIN_CAP ≤ h.chain.depth then .ok (M, .consFlag w pid .drain)
    else .ok (M, .installCas w pid h)
  | .installCas w pid h =>
    match M.casHead pid h (h.chain.appended w.op w.arg.key w.v) with
    | some M =>
      .ok (M, if CONSOLIDATE_DEPTH ≤ h.chain.depth + 1 then .consFlag w pid .collapse else .checkHead w pid)
    | none => .ok (M, .installHead w pid)
  | .checkHead w pid => do
    let l ← M.loadHead pid
    .ok (M, if l.chain.base.isLeaf && decide (LEAF_MAX < l.chain.base.num) then .smoFlag w else w.done)
  | .consFlag w pid why =>
    if M.consolidating pid then .ok (M, w.consolidated pid why)
    else .ok ({ M with consolidating := Function.update M.consolidating pid true }, .consHead w pid why 0)
  | .consHead w pid why attempt => do
    let h ← M.loadHead pid
    if h.chain.deltas = [] then .ok (M, .consEnd w pid why)
    else if h.chain.base.isLeaf then .ok (M, .consCas w pid why attempt h)
    else .ok (M, .consEnd w pid why)
  | .consCas w pid why attempt h =>
    match M.casHead pid h ⟨[], h.chain.consolidated h.chain.base.lowFence h.chain.base.highFence⟩ with
    | some M => .ok (M, .consEnd w pid why)
    | none => .ok (M, if attempt + 1 < 4 then .consHead w pid why (attempt + 1) else .consEnd w pid why)
  | .consEnd w pid why =>
    .ok ({ M with consolidating := Function.update M.consolidating pid false }, w.consolidated pid why)
  | .smoFlag w => if M.smoBusy then .ok (M, w.done) else .ok ({ M with smoBusy := true }, .smo w .pathRoot)
  | .smo w p => do
    let (M, p) ← p.next M w.arg.key
    .ok (M,
      match p with
      | some p => .smo w p
      | none => w.done)
  | pc => .ok (M, pc)

section
-- their equations are made here, once
attribute [local simp] Get.visit Write.visit SmoPc.next Pc.next
end

structure State where
  mem : Memory
  pc : Nat → Pc
  /-- The calls and the returns, in their order. -/
  hist : List (Event Op Result)
  /-- The number of calls made. -/
  calls : Nat

/-- A thread makes a call, or the next step of its call. -/
inductive Act where
  | call (t : Nat) (o : Op)
  | next (t : Nat)
  deriving DecidableEq

def State.goto (s : State) (t : Nat) (pc : Pc) : State := { s with pc := Function.update s.pc t pc }

def step (s : State) : Act → Option State
  | .call t o =>
    match s.pc t with
    | .idle => some { s.goto t (o.start s.calls) with hist := s.hist ++ [.call s.calls o], calls := s.calls + 1 }
    | _ => none
  | .next t =>
    match s.pc t with
    | .idle | .fault _ => none
    | .ret n _ r => some { s.goto t .idle with hist := s.hist ++ [.ret n r] }
    | pc =>
      match pc.next s.mem with
      | .ok (M, pc) => some { s.goto t pc with mem := M }
      | .error f => some (s.goto t (.fault f))

/-- A new index, which nobody uses. -/
def State.initial : State := ⟨.new, fun _ => .idle, [], 0⟩

def machine : Machine State Act where
  init s := s = .initial
  step := step

/-- The step takes a PID. -/
def Pc.allocates : Pc → Bool
  | .smo _ (.splitPid ..) | .smo _ (.rootPid ..) | .smo _ (.innerPid ..) => true
  | _ => false

/-- The map has room for the PID that the step takes, if it takes one. -/
def hasRoom (s : State) : Act → Bool
  | .call _ _ => true
  | .next t => !(s.pc t).allocates || decide (s.mem.nextPid < MAP_CAP)

/-- A map from keys to values, and what an operation makes of it and returns.
`keyOf` is the key of an operation; one that has none is refused. -/
def mapSpec (keyOf : Bytes → Option Key) (m : Key → Option DeltaPointer) : Op → (Key → Option DeltaPointer) × Result
  | .get key =>
    match keyOf key with
    | none => (m, .inval, none)
    | some k => (m, readOf (m k))
  | .write op key v =>
    match keyOf key with
    | none => (m, .inval, none)
    | some k => (written m op k v, .ok, none)

/-- The map that the index is: of a key it takes as many bytes as the cast of
its length to 32 bits says. -/
abbrev spec : (Key → Option DeltaPointer) → Op → (Key → Option DeltaPointer) × Result := mapSpec Bytes.arg

end Dlsmc.Index.Concurrent
