import Dlsmc.Framework.BLinkWalk
import Dlsmc.Index.Concurrent

/-!
# The tree under concurrent operations

In every reachable state the memory holds a B-link tree, all of whose splits
are complete but for the one under way, and the values of its leaves are those
of the operations that took effect so far (`Sound`). A write takes effect when
its delta is installed, a read when it loads the head in which it finds its
key. What lets a thread go on with what it loaded earlier is that the rows of
the tree only grow and that the low fence of a node never changes
(`BLink.Grows`): it stays at or left of the node that covers its key
(`Spot`).

Only the owner of `smo_busy` changes more than the chain of a leaf; `SmoPc.Phase`
says what it has done of a split.
-/

namespace Dlsmc.Index.Concurrent

open BLink

/-! ## The memory as an index -/

namespace Memory

/-- The chain of an entry of the map. -/
def chainOf (M : Memory) (p : Pid) : Option Chain := (M.head p).map Link.chain

/-- The memory, as an index that one thread works on. -/
def view (M : Memory) : Index.State where
  map p := ⟨M.chainOf p, false⟩
  nextPid := M.nextPid
  root := M.root
  smoBusy := M.smoBusy
  consolidations := 0
  leafSplits := 0
  internalSplits := 0
  registered := true
  allocs := []

/-- As long as the head of `p` has the address of `h`, it is `h`. -/
def Knows (M : Memory) (p : Pid) (h : Link) : Prop :=
  h.addr < M.published ∧ ∀ l, M.head p = some l → l.addr = h.addr → l = h

/-- The chains of `M'` that are not those of `M` have new addresses. -/
structure Fresh (M M' : Memory) : Prop where
  le : M.published ≤ M'.published
  head : ∀ p l, M'.head p = some l → M.head p = some l ∨ l.addr = M.published ∧ M.published < M'.published

end Memory

/-- The memory holds a tree. -/
abbrev Tree (M : Memory) (nd : Pid → Node Key Pid) (row : Nat → List Pid) (top : Nat)
    (pend : Option (Pending Key Pid)) (m : Key → Option DeltaPointer) : Prop :=
  Inv (Lossy never) M.view nd row top pend m

variable {M M' : Memory} {nd nd' : Pid → Node Key Pid} {row row' : Nat → List Pid} {top top' ℓ : Nat}
  {pend pend' : Option (Pending Key Pid)} {m m' : Key → Option DeltaPointer} {k : Key} {p x : Pid} {c : Chain}
  {l h : Link}

namespace Memory

theorem chainOf_of (hl : M.head p = some l) : M.chainOf p = some l.chain := by rw [chainOf, hl]; rfl

theorem loadHead_of (hp : p < MAP_CAP) (hl : M.head p = some l) : M.loadHead p = .ok l := by
  rw [loadHead, if_pos hp, hl]

@[simp] theorem publish_self : (M.publish p c).head p = some ⟨M.published, c⟩ := Function.update_self ..

theorem publish_of_ne (hx : x ≠ p) : (M.publish p c).head x = M.head x := Function.update_of_ne hx ..

theorem chainOf_publish : (M.publish p c).chainOf x = if x = p then some c else M.chainOf x := by
  by_cases hx : x = p
  · subst hx
    rw [chainOf, publish_self, if_pos rfl]
    rfl
  · rw [chainOf, publish_of_ne hx, if_neg hx, chainOf]

theorem view_publish : (M.publish p c).view = M.view.setHead p (some c) := by
  have hmap : (M.publish p c).view.map = (M.view.setHead p (some c)).map := by
    funext x
    by_cases hx : x = p
    · subst hx
      simp only [view, chainOf_publish, if_pos, Index.State.setHead, Function.update_self]
    · rw [Index.State.setHead_of_ne hx]
      simp only [view, chainOf_publish, if_neg hx]
  simp only [view, Index.State.setHead] at hmap ⊢
  rw [hmap]
  rfl

theorem Fresh.refl (M : Memory) : Fresh M M := ⟨Nat.le_refl _, fun _ _ h => .inl h⟩

theorem Fresh.publish (M : Memory) (p : Pid) (c : Chain) : Fresh M (M.publish p c) := by
  refine ⟨Nat.le_succ _, fun x l hl => ?_⟩
  by_cases hx : x = p
  · subst hx
    rw [publish_self, Option.some.injEq] at hl
    exact .inr ⟨hl ▸ rfl, Nat.lt_succ_self _⟩
  · rw [publish_of_ne hx] at hl
    exact .inl hl

theorem Fresh.lt (h : Fresh M M') (hM : ∀ p l, M.head p = some l → l.addr < M.published) (hl : M'.head p = some l) :
    l.addr < M'.published := by
  rcases h.head p l hl with hl | ⟨hl, hlt⟩
  · exact (hM p l hl).trans_le h.le
  · exact hl ▸ hlt

theorem Knows.of_fresh (hk : M.Knows p h) (hf : Fresh M M') : M'.Knows p h := by
  refine ⟨hk.1.trans_le hf.le, fun l hl he => ?_⟩
  rcases hf.head p l hl with hl | ⟨hl, -⟩
  · exact hk.2 l hl he
  · exact absurd (hl.symm.trans he) (Nat.ne_of_gt hk.1)

/-- What a thread has just loaded. -/
theorem Knows.of_head (hM : ∀ p l, M.head p = some l → l.addr < M.published) (hl : M.head p = some l) : M.Knows p l :=
  ⟨hM p l hl, fun _ hl' _ => Option.some.inj (hl'.symm.trans hl)⟩

/-- Nothing is to be known of no head. -/
theorem knows_none (p : Pid) (h : Link) (hn : none = some (p, h)) : M.Knows p h := by cases hn

/-- A compare-exchange that succeeds finds what was loaded. -/
theorem casHead_cases (hk : M.Knows p h) :
    M.casHead p h c = none ∨ M.head p = some h ∧ M.casHead p h c = some (M.publish p c) := by
  unfold casHead
  cases hl : M.head p with
  | none => exact .inl rfl
  | some l =>
    dsimp only
    split
    · rename_i he
      exact .inr ⟨by rw [hk.2 l hl he], rfl⟩
    · exact .inl rfl

end Memory

/-! ## Going down -/

/-- `p` is at or left of the node of its row that covers `k`. -/
def Spot (nd : Pid → Node Key Pid) (row : Nat → List Pid) (top : Nat) (k : Key) (p : Pid) : Prop :=
  ∃ ℓ ≤ top, p ∈ row ℓ ∧ (nd p).low ≤ k

/-- The same among the leaves. -/
def LeafSpot (nd : Pid → Node Key Pid) (row : Nat → List Pid) (k : Key) (p : Pid) : Prop := p ∈ row 0 ∧ (nd p).low ≤ k

/-- What a thread on its way to the leaf of `k` finds at `p`. -/
inductive Turn (nd : Pid → Node Key Pid) (row : Nat → List Pid) (top : Nat) (m : Key → Option DeltaPointer) (k : Key)
    (p : Pid) (c : Chain) : Prop where
  | hop (hf : c.base.pastFence k = true) (hd : findDelta c.deltas k = none)
    (hs : Spot nd row top k c.base.rightSibling) (ha : Ahead nd row top c.base.rightSibling p)
  | down (q : Pid) (hf : c.base.pastFence k = false) (hd : c.deltas = []) (he : c.base.ents = .internal c.base.ients)
    (hr : route c.base.ients k = .ok q) (hs : Spot nd row top k q) (ha : Ahead nd row top q p)
  | leaf (hf : c.base.pastFence k = false) (he : c.base.ents = .leaf c.base.lents) (hp : LeafSpot nd row k p)
    (hv : c.value k = m k)

theorem Spot.grows (h : Spot nd row top k p) (hg : Grows nd nd' row row' top top') : Spot nd' row' top' k p := by
  obtain ⟨ℓ, hℓ, hp, hk⟩ := h
  exact ⟨ℓ, hℓ.trans hg.top_le, hg.mem ℓ hℓ p hp, (hg.low ℓ hℓ p hp).trans_le hk⟩

theorem LeafSpot.grows (h : LeafSpot nd row k p) (hg : Grows nd nd' row row' top top') : LeafSpot nd' row' k p :=
  ⟨hg.mem 0 (Nat.zero_le _) p h.1, (hg.low 0 (Nat.zero_le _) p h.1).trans_le h.2⟩

namespace Tree

/-- What a thread loads from a node of the tree. -/
theorem load (h : Tree M nd row top pend m) (hℓ : ℓ ≤ top) (hp : p ∈ row ℓ) :
    ∃ l, M.loadHead p = .ok l ∧ M.head p = some l ∧ Holds (Lossy never) (nd p) l.chain := by
  obtain ⟨c, -, hc, hh⟩ := Inv.load h hℓ hp
  have hc : (M.head p).map Link.chain = some c := hc
  obtain ⟨l, hl, rfl⟩ := Option.map_eq_some_iff.mp hc
  exact ⟨l, Memory.loadHead_of ((h.bound ℓ hℓ p hp).trans_le h.cap) hl, hl, hh⟩

theorem covers (h : Tree M nd row top pend m) (hℓ : ℓ ≤ top) (hp : p ∈ row ℓ) (hk : (nd p).low ≤ k)
    (hc : M.chainOf p = some c) (hf : c.base.pastFence k = false) : (nd p).Covers k := by
  obtain ⟨l, -, hl, hh⟩ := h.load hℓ hp
  obtain rfl := Option.some.inj ((Memory.chainOf_of hl).symm.trans hc)
  exact hh.covers_of_pastFence not_lossy_never hk hf

theorem turn (h : Tree M nd row top pend m) (hs : Spot nd row top k p) :
    ∃ l, M.loadHead p = .ok l ∧ M.head p = some l ∧ Turn nd row top m k p l.chain := by
  obtain ⟨ℓ, hℓ, hp, hk⟩ := hs
  obtain ⟨l, hload, hl, hh⟩ := h.load hℓ hp
  refine ⟨l, hload, hl, ?_⟩
  cases hf : l.chain.base.pastFence k with
  | true =>
    obtain ⟨s, hs, hsk⟩ := hh.high_le_of_pastFence hf
    obtain ⟨hmem, hlow⟩ := Inv.hop h hℓ hp hh hf
    have ha := h.shape.ahead_right hℓ hp (hs ▸ WithTop.coe_ne_top)
    refine .hop hf (List.find?_eq_none.mpr fun d hd => ?_) ⟨ℓ, hℓ, hmem, hlow⟩ (hh.right ▸ ha)
    -- the deltas of the node are for keys below its fence
    have hcov := (hh.deltas d hd).2
    rw [hs, WithTop.coe_lt_coe] at hcov
    simp [(hcov.trans_le hsk).ne]
  | false =>
    have hcov := hh.covers_of_pastFence not_lossy_never hk hf
    cases ℓ with
    | zero =>
      have hlev := Inv.level h hℓ hp
      exact .leaf hf (hh.leaf_ents hlev) ⟨hp, hk⟩ (h.values p hp _ (Memory.chainOf_of hl) k hcov)
    | succ ℓ =>
      obtain ⟨b, q, -, hm, -, hents, hroute, -, hroutes⟩ := Inv.routes h hℓ hp k
      have hb : l.chain = ⟨[], b⟩ := Option.some.inj ((Memory.chainOf_of hl).symm.trans hm)
      obtain ⟨hq, hqk⟩ := h.shape.route_low hℓ hp hk hroutes
      rw [hb] at hf ⊢
      exact .down q hf rfl hents hroute ⟨ℓ, Nat.le_of_succ_le hℓ, hq, hqk⟩ (.below hℓ hp hq)

/-- The root is left of everything. -/
theorem spot_root (h : Tree M nd row top pend m) (k : Key) : Spot nd row top k M.root :=
  ⟨top, le_rfl, h.shape.root_mem, h.shape.root_low ▸ bot_le⟩

end Tree

/-! ## What a thread knows -/

/-- What `SmoPc` holds of a head for a compare-exchange. -/
def SmoPc.held : SmoPc → Option (Pid × Link)
  | .splitPid pid _ _ h _ | .splitCas pid _ _ h _ _ => some (pid, h)
  | _ => none

namespace Pc

/-- The head that the thread is to exchange, with what it loaded from it. -/
def held : Pc → Option (Pid × Link)
  | .installCas _ pid h | .consCas _ pid _ _ h => some (pid, h)
  | .smo _ p => p.held
  | _ => none

/-- The thread is at or left of the node that covers its key. -/
def At (nd : Pid → Node Key Pid) (row : Nat → List Pid) (top : Nat) : Pc → Prop
  | getHead g pid => Spot nd row top g.arg.key pid
  | findHead w pid => Spot nd row top w.arg.key pid
  | installHead w pid | checkHead w pid | consFlag w pid _ | consHead w pid _ _ | consCas w pid _ _ _
  | consEnd w pid _ =>
    LeafSpot nd row w.arg.key pid
  | installCas w pid h => LeafSpot nd row w.arg.key pid ∧ h.chain.base.pastFence w.arg.key = false
  | fault _ => False
  | _ => True

/-- The state of the call: a write is performed when its delta is installed, a
read when it knows its result. -/
def slot : Pc → Slot Op Result
  | idle | fault _ => .idle
  | getRoot g | getHead g _ => .called g.number g.arg.get
  | findRoot w | findHead w _ | installHead w _ | installCas w _ _ => .called w.number w.made
  | consFlag w _ why | consHead w _ why _ | consCas w _ why _ _ | consEnd w _ why =>
    match why with
    | .drain => .called w.number w.made
    | .collapse => .done w.number w.made (.ok, none)
  | checkHead w _ | smoFlag w | smo w _ => .done w.number w.made (.ok, none)
  | ret n o r => .done n o r

theorem At.grows {pc : Pc} (h : pc.At nd row top) (hg : Grows nd nd' row row' top top') : pc.At nd' row' top' := by
  cases pc with
  | getHead g pid => exact Spot.grows h hg
  | findHead w pid => exact Spot.grows h hg
  | installHead w pid => exact LeafSpot.grows h hg
  | checkHead w pid => exact LeafSpot.grows h hg
  | consFlag w pid why => exact LeafSpot.grows h hg
  | consHead w pid why n => exact LeafSpot.grows h hg
  | consCas w pid why n h' => exact LeafSpot.grows h hg
  | consEnd w pid why => exact LeafSpot.grows h hg
  | installCas w pid h' => exact ⟨LeafSpot.grows h.1 hg, h.2⟩
  | fault f => exact h
  | _ => trivial

end Pc

/-- `rp` is the last PID that was taken, and it is not in the tree. -/
structure Spare (M : Memory) (row : Nat → List Pid) (top : Nat) (rp : Pid) : Prop where
  last : rp + 1 = M.nextPid
  notMem : ∀ ℓ ≤ top, rp ∉ row ℓ

/-- `sep` is the key in the middle of a leaf that is too large. -/
def Splits (c : Chain) (sep : Key) : Prop :=
  LEAF_MAX < c.live.length ∧ ∃ e, c.live[c.live.length / 2]? = some e ∧ e.key = sep

/-- The node `pid`, with the way up to the root, has too many entries. -/
def Overfull (M : Memory) (nd : Pid → Node Key Pid) (top : Nat) (pid : Pid) (path : List Pid) (N : Base) : Prop :=
  (∃ ℓ, Path nd M.root top (ℓ + 1) (pid :: path)) ∧ M.chainOf pid = some ⟨[], N⟩ ∧ INTERNAL_MAX < N.num

/-- `s` is the separator in the middle of the node. -/
def Promotes (N : Base) (s : Key) : Prop := ∃ e, N.ients[N.num / 2]? = some e ∧ e.sep = .copy s

/-- The right half `right` of a split is to be installed; `path` is the way up
from the left half. -/
def Installs (M : Memory) (nd : Pid → Node Key Pid) (top : Nat) (pend : Option (Pending Key Pid)) (child : Pid)
    (path : List Pid) (sep : Key) (right : Pid) : Prop :=
  ∃ ℓ, pend = some ⟨ℓ, child, sep, right⟩ ∧ Path nd M.root top ℓ (child :: path)

/-- How far the owner of `smo_busy` is with a split, for the key `k`. -/
def SmoPc.Phase (M : Memory) (nd : Pid → Node Key Pid) (row : Nat → List Pid) (top : Nat)
    (pend : Option (Pending Key Pid)) (k : Key) : SmoPc → Prop
  | pathRoot | unlock => pend = none
  | pathHead pid path => pend = none ∧ ∃ ℓ, Path nd M.root top ℓ (pid :: path) ∧ (nd pid).Covers k
  | splitHead pid path _ => pend = none ∧ Path nd M.root top 0 (pid :: path)
  | splitPid pid path _ h sep => pend = none ∧ Path nd M.root top 0 (pid :: path) ∧ Splits h.chain sep
  | splitCas pid path _ h sep rp =>
    pend = none ∧ Path nd M.root top 0 (pid :: path) ∧ Splits h.chain sep ∧ Spare M row top rp ∧
      M.chainOf rp = some ⟨[], upperLeaf h.chain sep⟩
  | splitUndo pid path _ rp => pend = none ∧ Path nd M.root top 0 (pid :: path) ∧ Spare M row top rp
  | sepHead child path sep right => Installs M nd top pend child path sep right
  | sepStore child parent path sep right P =>
    Installs M nd top pend child (parent :: path) sep right ∧ M.chainOf parent = some ⟨[], P⟩
  | rootPid child sep right level => Installs M nd top pend child [] sep right ∧ level = top
  | rootStore rp =>
    Spare M row top rp ∧ ∃ child sep right, Installs M nd top pend child [] sep right ∧
      M.chainOf rp = some ⟨[], rootOver child sep right top⟩
  | innerHead pid path => pend = none ∧ ∃ N, Overfull M nd top pid path N
  | innerPid pid path N promoted => pend = none ∧ Overfull M nd top pid path N ∧ Promotes N promoted
  | innerStore pid path N promoted nrp =>
    pend = none ∧ Overfull M nd top pid path N ∧ Promotes N promoted ∧ Spare M row top nrp ∧
      M.chainOf nrp = some ⟨[], N.upperHalf (.copy promoted) N.highFence⟩

end Dlsmc.Index.Concurrent
