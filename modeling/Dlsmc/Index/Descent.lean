import Dlsmc.Framework.BLinkSplit
import Dlsmc.Framework.Program
import Dlsmc.Index.Leaf
import Dlsmc.Index.Tree

/-!
# The tree that an index holds

`Inv` says that the map of an index holds a B-link tree (`BLink.Shape`) whose
leaves have the values `m`: every node of a row is bound to a chain that is as
the tree says (`Holds`). When `lossy` holds, a copy of a fence may have been
lost; nothing else may be.

From the root, with no split pending, every descent goes to the leaf that
covers its key, without a hop to the right: `findLeaf_spec`, `lookup_spec` and
`descendWithPath_spec`.
-/

namespace Dlsmc.Index

open BLink

namespace Bytes

/-- A low fence, or a separator; null is no bound. -/
def low : Bytes → WithBot Key
  | null _ => ⊥
  | copy k => k

/-- A high fence; null is no bound. -/
def high : Bytes → WithTop Key
  | null _ => ⊤
  | copy k => k

@[simp] theorem low_null (n : Nat) : (null n).low = ⊥ := rfl

@[simp] theorem low_copy (k : Key) : (copy k).low = k := rfl

@[simp] theorem high_null (n : Nat) : (null n).high = ⊤ := rfl

@[simp] theorem high_copy (k : Key) : (copy k).high = k := rfl

theorem exists_copy {b : Bytes} (h : b.low ≠ ⊥) : ∃ k, b = copy k := by
  cases b with
  | null n => exact absurd rfl h
  | copy k => exact ⟨k, rfl⟩

theorem cmp_copy {s k : Key} : (copy s).cmp k = .ok (keycmp s k) := rfl

end Bytes

/-- An entry of an internal node, as the tree has it. -/
def IdxEnt.entry (e : IdxEnt) : WithBot Key × Pid := (e.sep.low, e.child)

/-- The chain is the node `n` of the tree. -/
structure Holds (lossy : Prop) (n : Node Key Pid) (c : Chain) : Prop where
  level : c.base.level = n.level
  right : c.base.rightSibling = n.right
  low : c.base.lowFence.low = n.low ∨ lossy ∧ c.base.lowFence.low = ⊥
  high : c.base.highFence.high = n.high ∨ lossy ∧ c.base.highFence.high = ⊤
  ents : c.base.ients.map IdxEnt.entry = n.ents
  kind : c.base.isLeaf = true ↔ n.level = 0
  plain : n.level ≠ 0 → c.deltas = []
  sorted : Sorted c.base.lents
  inside : ∀ e ∈ c.base.lents, n.Covers e.key
  deltas : ∀ d ∈ c.deltas, n.Covers d.key

/-- The map holds the tree `nd`, `row`, `top`, with the values `m`. -/
structure Inv (lossy : Prop) (t : State) (nd : Pid → Node Key Pid) (row : Nat → List Pid) (top : Nat)
    (pend : Option (Pending Key Pid)) (m : Key → Option DeltaPointer) : Prop where
  shape : Shape nd PID_NULL t.root row top pend
  bound : ∀ ℓ ≤ top, ∀ p ∈ row ℓ, p < t.nextPid
  cap : t.nextPid ≤ MAP_CAP
  holds : ∀ ℓ ≤ top, ∀ p ∈ row ℓ, ∃ c, (t.map p).head = some c ∧ Holds lossy (nd p) c
  values : ∀ p ∈ row 0, ∀ c, (t.map p).head = some c → ∀ k, (nd p).Covers k → c.value k = m k
  free : ∀ p, (t.map p).consolidating = false

/-! ## One node -/

section

variable {es : List IdxEnt} {k : Key}

theorem routeLoop_round {n mid res : Nat} {lo hi : Int} {s : Key} (hlh : lo ≤ hi) (hmid : lo + (hi - lo) / 2 = mid)
    (hlt : mid < es.length) (hsep : es[mid].sep = .copy s) :
    routeLoop es k (n + 1) lo hi res =
      if k < s then routeLoop es k n lo (mid - 1) res else routeLoop es k n (mid + 1) hi mid := by
  rw [routeLoop, if_pos hlh]
  simp only [hmid, Int.toNat_natCast, List.getElem?_eq_getElem hlt, hsep, Bytes.cmp_copy]
  rcases keycmp_spec s k with ⟨h, hlt⟩ | ⟨h, rfl⟩ | ⟨h, hlt⟩
  · rw [if_neg hlt.asymm, h]
    rfl
  · rw [if_neg (lt_irrefl s), h]
    rfl
  · rw [if_pos hlt, h]
    rfl

/-- The loop of `route` keeps `res` right before `lo`. -/
theorem routeLoop_spec (hcopy : ∀ i (hi : i + 1 < es.length), es[i + 1].sep.low ≠ ⊥)
    (hs : ∀ i j (hj : j + 1 < es.length) (hij : i < j), es[i + 1].sep.low < es[j + 1].sep.low) :
    ∀ (n : Nat) (lo hi : Int) (res : Nat), (res : Int) = lo - 1 → hi < es.length → hi - lo < n → res < es.length →
      (∀ h : res < es.length, res = 0 ∨ es[res].sep.low ≤ k) →
      (∀ j (hj : j < es.length), hi < j → k < es[j].sep.low) →
      ∃ r, routeLoop es k n lo hi res = .ok r ∧ ∃ hr : r < es.length, (r = 0 ∨ es[r].sep.low ≤ k) ∧
        ∀ j (hj : j < es.length), r < j → k < es[j].sep.low := by
  intro n
  induction n with
  | zero => exact fun lo hi res hres _ hn hlt hle hgt =>
      ⟨res, rfl, hlt, hle hlt, fun j hj hrj => hgt j hj (by omega)⟩
  | succ n ih =>
    intro lo hi res hres hhi hn hlt hle hgt
    by_cases hlh : lo ≤ hi
    · obtain ⟨mid, hmid⟩ : ∃ mid : Nat, lo + (hi - lo) / 2 = (mid + 1 : Nat) :=
        ⟨(lo + (hi - lo) / 2).toNat - 1, by omega⟩
      have hml : mid + 1 < es.length := by omega
      obtain ⟨s, hsep⟩ := Bytes.exists_copy (hcopy mid hml)
      have hle' : ∀ j (hj : j < es.length), mid + 1 ≤ j → es[mid + 1].sep.low ≤ es[j].sep.low := by
        intro j hj hmj
        rcases hmj.lt_or_eq with h | rfl
        · obtain ⟨j, rfl⟩ : ∃ i, j = i + 1 := ⟨j - 1, by omega⟩
          exact (hs mid j hj (by omega)).le
        · exact le_rfl
      rw [routeLoop_round hlh hmid hml hsep]
      split
      · rename_i hks
        refine ih lo _ res hres (by omega) (by omega) hlt hle fun j hj hmj => ?_
        have := hle' j hj (by omega)
        rw [hsep, Bytes.low_copy] at this
        exact (WithBot.coe_lt_coe.mpr hks).trans_le this
      · rename_i hks
        refine ih _ hi (mid + 1) (by omega) hhi (by omega) hml (fun _ => .inr ?_) hgt
        rw [hsep, Bytes.low_copy, WithBot.coe_le_coe]
        exact not_lt.mp hks
    · exact ⟨res, by rw [routeLoop, if_neg hlh], hlt, hle hlt, fun j hj hrj => hgt j hj (by omega)⟩

/-- `route` goes to the child of the last entry that does not begin after the
key, or else to the first. -/
theorem route_spec (hne : es ≠ []) (hcopy : ∀ e ∈ es.tail, e.sep.low ≠ ⊥)
    (hs : es.tail.Pairwise fun e f => e.sep.low < f.sep.low) :
    ∃ l e r, es = l ++ e :: r ∧ route es k = .ok e.child ∧ (l ≠ [] → e.sep.low ≤ (k : WithBot Key)) ∧
      ∀ f ∈ r, (k : WithBot Key) < f.sep.low := by
  have htail : ∀ i (hi : i + 1 < es.length), es[i + 1] = es.tail.get ⟨i, by simp; omega⟩ := fun i hi => by simp
  have hpos := List.length_pos_of_ne_nil hne
  obtain ⟨r, hr, hlt, hle, hgt⟩ := @routeLoop_spec es k
    (fun i hi => by rw [htail i hi]; exact hcopy _ (List.getElem_mem _))
    (fun i j hj hij => by
      rw [htail i (by omega), htail j hj]
      exact List.pairwise_iff_getElem.mp hs i j _ _ hij)
    es.length 1 (es.length - 1) 0 (by omega) (by omega) (by omega) hpos (fun _ => .inl rfl)
    (fun j hj hlj => by omega)
  refine ⟨es.take r, es[r], es.drop (r + 1), ?_, ?_, fun hl => ?_, fun f hf => ?_⟩
  · rw [List.getElem_cons_drop, List.take_append_drop]
  · simp only [route, hr, bind, Except.bind, List.getElem?_eq_getElem hlt]
  · rcases hle with rfl | hle
    · exact absurd (List.take_zero) hl
    · exact hle
  · obtain ⟨j, hj, rfl⟩ := List.mem_iff_getElem.mp hf
    rw [List.getElem_drop]
    exact hgt _ _ (by omega)

end

/-! ## Chains as nodes -/

namespace Holds

variable {lossy : Prop} {n : Node Key Pid} {c : Chain} {k : Key}

theorem pastFence (h : Holds lossy n c) (hk : n.Covers k) : c.base.pastFence k = false := by
  unfold Base.pastFence
  cases hf : c.base.highFence with
  | null _ => rfl
  | copy s =>
    have hs : (s : WithTop Key) = n.high := by
      rcases h.high with hh | ⟨-, hh⟩
      · rw [← hh, hf, Bytes.high_copy]
      · rw [hf, Bytes.high_copy] at hh
        exact absurd hh (WithTop.coe_ne_top)
    have := hk.2
    rw [← hs, WithTop.coe_lt_coe] at this
    simp [keycmp_eq_lt.mpr this]

/-- A key that is not past the fence of a node is in its range, if the fence is
there. -/
theorem covers_of_pastFence (h : Holds lossy n c) (hl : ¬lossy) (hlow : n.low ≤ k)
    (hf : c.base.pastFence k = false) : n.Covers k := by
  have hhigh : c.base.highFence.high = n.high := h.high.resolve_right fun hh => hl hh.1
  refine ⟨hlow, ?_⟩
  rw [← hhigh]
  unfold Base.pastFence at hf
  cases hc : c.base.highFence with
  | null _ => exact WithTop.coe_lt_top k
  | copy s =>
    rw [hc] at hf
    have hlt : keycmp k s = .lt := by simpa using hf
    exact WithTop.coe_lt_coe.mpr (keycmp_eq_lt.mp hlt)

/-- A node that the key is past ends at the key or below it. -/
theorem high_le_of_pastFence (h : Holds lossy n c) (hf : c.base.pastFence k = true) :
    ∃ s : Key, n.high = s ∧ s ≤ k := by
  unfold Base.pastFence at hf
  cases hc : c.base.highFence with
  | null _ => rw [hc] at hf; cases hf
  | copy s =>
    rw [hc] at hf
    have hge : keycmp k s ≠ .lt := by simpa using hf
    rw [ne_eq, keycmp_eq_lt, not_lt] at hge
    have hhigh := h.high
    rw [hc, Bytes.high_copy] at hhigh
    exact ⟨s, (hhigh.resolve_right fun hh => WithTop.coe_ne_top hh.2).symm, hge⟩

theorem leaf_ents (h : Holds lossy n c) (hn : n.level = 0) : c.base.ents = .leaf c.base.lents := by
  have := h.kind.mpr hn
  unfold Base.isLeaf at this
  unfold Base.lents
  cases he : c.base.ents with
  | leaf es => rfl
  | internal es => rw [he] at this; cases this

theorem inner_ents (h : Holds lossy n c) (hn : n.level ≠ 0) : c.base.ents = .internal c.base.ients := by
  have := mt h.kind.mp hn
  unfold Base.isLeaf at this
  unfold Base.ients
  cases he : c.base.ents with
  | leaf es => rw [he] at this; exact absurd rfl this
  | internal es => rfl

end Holds

theorem State.loadHead_of {t : State} {p : Pid} {c : Chain} (hp : p < MAP_CAP) (hc : (t.map p).head = some c) :
    t.loadHead p = .ok c := by rw [State.loadHead, if_pos hp, hc]

theorem State.loadBase_of {t : State} {p : Pid} {b : Base} (h : t.loadHead p = .ok ⟨[], b⟩) : t.loadBase p = .ok b := by
  rw [State.loadBase, h]
  rfl

namespace Inv

variable {lossy : Prop} {t : State} {nd : Pid → Node Key Pid} {row : Nat → List Pid} {top ℓ : Nat}
  {pend : Option (Pending Key Pid)} {m : Key → Option DeltaPointer} {p : Pid} {k : Key}

theorem load (h : Inv lossy t nd row top pend m) (hℓ : ℓ ≤ top) (hp : p ∈ row ℓ) :
    ∃ c, t.loadHead p = .ok c ∧ (t.map p).head = some c ∧ Holds lossy (nd p) c := by
  obtain ⟨c, hc, hh⟩ := h.holds ℓ hℓ p hp
  exact ⟨c, State.loadHead_of ((h.bound ℓ hℓ p hp).trans_le h.cap) hc, hc, hh⟩

theorem level (h : Inv lossy t nd row top pend m) (hℓ : ℓ ≤ top) (hp : p ∈ row ℓ) : (nd p).level = ℓ :=
  (h.shape.rows ℓ hℓ).level p hp

/-- The chain of an internal node: a base, whose separators are there and
increase. -/
theorem load_inner (h : Inv lossy t nd row top pend m) (hℓ : ℓ < top) (hp : p ∈ row (ℓ + 1)) :
    ∃ b, t.loadHead p = .ok ⟨[], b⟩ ∧ (t.map p).head = some ⟨[], b⟩ ∧ Holds lossy (nd p) ⟨[], b⟩ ∧
      b.ents = .internal b.ients ∧ 2 ≤ b.ients.length ∧ (∀ e ∈ b.ients.tail, e.sep.low ≠ ⊥) ∧
      b.ients.tail.Pairwise fun e f => e.sep.low < f.sep.low := by
  obtain ⟨⟨ds, b⟩, hl, hm, hh⟩ := h.load hℓ hp
  have hlev := h.level hℓ hp
  obtain rfl : ds = [] := hh.plain (by omega)
  have hi := h.shape.inner ℓ hℓ p hp
  have hents : b.ients.map IdxEnt.entry = (nd p).ents := hh.ents
  refine ⟨b, hl, hm, hh, hh.inner_ents (by omega), ?_, fun e he => ?_, ?_⟩
  · have := hi.two
    rwa [← hents, List.length_map] at this
  · -- the children right of the first begin above the beginning of the row
    obtain ⟨f, fs, hfs⟩ : ∃ f fs, b.ients = f :: fs := List.exists_cons_of_ne_nil (by rintro h0; simp [h0] at he)
    have hpw := ((h.shape.rows ℓ hℓ.le).pairwise_low.sublist (h.shape.kids_sublist hℓ hp))
    rw [Node.kids, ← hents, hfs, List.map_map, List.map_cons, List.pairwise_cons] at hpw
    rw [hfs, List.tail_cons] at he
    have hlt := hpw.1 e.child (List.mem_map.mpr ⟨e, he, rfl⟩)
    have hlow := hi.low_tail e.entry (by
      rw [← hents, hfs]
      exact List.mem_map_of_mem he)
    change (nd e.child).low = e.sep.low at hlow
    rw [← hlow]
    exact hlt.ne_bot
  · have := h.shape.pairwise_seps hℓ hp
    rw [← hents, ← List.map_tail, List.pairwise_map] at this
    exact this

/-- `route` in an internal node. -/
theorem routes (h : Inv lossy t nd row top pend m) (hℓ : ℓ < top) (hp : p ∈ row (ℓ + 1)) (k : Key) :
    ∃ b c, t.loadHead p = .ok ⟨[], b⟩ ∧ (t.map p).head = some ⟨[], b⟩ ∧ Holds lossy (nd p) ⟨[], b⟩ ∧
      b.ents = .internal b.ients ∧ route b.ients k = .ok c ∧ c ∈ (nd p).kids ∧ Routes (nd p) k c := by
  obtain ⟨b, hl, hm, hh, hents, htwo, hne, hs⟩ := h.load_inner hℓ hp
  have hmap : b.ients.map IdxEnt.entry = (nd p).ents := hh.ents
  obtain ⟨l, e, r, hes, hroute, hle, hr⟩ := route_spec (k := k)
    (List.ne_nil_of_length_pos (by omega : 0 < b.ients.length)) hne hs
  have hroutes : Routes (nd p) k e.child := by
    refine ⟨l.map IdxEnt.entry, r.map IdxEnt.entry, e.entry, by rw [← hmap, hes]; simp, rfl, ?_, fun f hf => ?_⟩
    · cases l with
      | nil =>
        have := ((h.shape.inner ℓ hℓ p hp).low_first e.entry (by rw [← hmap, hes]; simp)).1
        rw [this]
        exact bot_le
      | cons x l => exact hle (by simp)
    · obtain ⟨g, hg, rfl⟩ := List.mem_map.mp hf
      exact hr g hg
  exact ⟨b, e.child, hl, hm, hh, hents, hroute, by
    rw [Node.kids, ← hmap, hes]
    simp [IdxEnt.entry], hroutes⟩

/-- One step of a descent, above the leaves. -/
theorem step_down (h : Inv lossy t nd row top none m) (hℓ : ℓ < top) (hp : p ∈ row (ℓ + 1)) (hk : (nd p).Covers k) :
    ∃ b c, t.loadHead p = .ok ⟨[], b⟩ ∧ b.pastFence k = false ∧ b.ents = .internal b.ients ∧
      route b.ients k = .ok c ∧ c ∈ (nd p).kids ∧ c ∈ row ℓ ∧ (nd c).Covers k := by
  obtain ⟨b, c, hl, -, hh, hents, hroute, hkid, hroutes⟩ := h.routes hℓ hp k
  obtain ⟨hc, hck⟩ := h.shape.route_covers hℓ hp hk hroutes
  exact ⟨b, c, hl, hh.pastFence hk, hents, hroute, hkid, hc, hck⟩

/-- A hop to the right sibling of a node that the key is past. -/
theorem hop (h : Inv lossy t nd row top pend m) (hℓ : ℓ ≤ top) (hp : p ∈ row ℓ) {c : Chain}
    (hh : Holds lossy (nd p) c) (hf : c.base.pastFence k = true) :
    c.base.rightSibling ∈ row ℓ ∧ (nd c.base.rightSibling).low ≤ k := by
  obtain ⟨s, hs, hsk⟩ := hh.high_le_of_pastFence hf
  obtain ⟨l, r, hrow⟩ := List.append_of_mem hp
  rw [hh.right]
  obtain ⟨-, htop, -⟩ | ⟨q, r', rfl, hq, s', hs', hlow⟩ := (h.shape.rows ℓ hℓ).right_of hrow
  · rw [htop] at hs
    exact absurd hs.symm WithTop.coe_ne_top
  · obtain rfl : s = s' := WithTop.coe_inj.mp (hs.symm.trans hs')
    rw [hq, hlow]
    exact ⟨by simp [hrow], WithBot.coe_le_coe.mpr hsk⟩

/-- The end of a descent. -/
theorem at_leaf (h : Inv lossy t nd row top pend m) (hp : p ∈ row 0) (hk : (nd p).Covers k) :
    ∃ c, t.loadHead p = .ok c ∧ (t.map p).head = some c ∧ Holds lossy (nd p) c ∧ c.base.pastFence k = false ∧
      c.base.ents = .leaf c.base.lents ∧ c.value k = m k := by
  obtain ⟨c, hl, hm, hh⟩ := h.load (Nat.zero_le _) hp
  exact ⟨c, hl, hm, hh, hh.pastFence hk, hh.leaf_ents (h.level (Nat.zero_le _) hp), h.values p hp c hm k hk⟩

theorem root_covers (h : Inv lossy t nd row top none m) : t.root ∈ row top ∧ (nd t.root).Covers k := by
  have hrow : [t.root] = row top := h.shape.root
  refine ⟨h.shape.root_mem, h.shape.root_low ▸ bot_le, ?_⟩
  rw [((h.shape.rows top le_rfl).last t.root (by rw [← hrow]; rfl)).1]
  exact WithTop.coe_lt_top k

/-- The search of a write ends at the leaf that covers the key. -/
theorem findLeaf_spec (h : Inv lossy t nd row top none m) : ∀ {ℓ : Nat} {p : Pid}, ℓ ≤ top → p ∈ row ℓ →
    (nd p).Covers k → ∃ q ∈ row 0, (nd q).Covers k ∧ ∀ n > ℓ, t.findLeaf k n p = .ok q := by
  intro ℓ
  induction ℓ with
  | zero =>
    intro p _ hp hk
    obtain ⟨c, hl, -, -, hpf, hents, -⟩ := h.at_leaf hp hk
    refine ⟨p, hp, hk, fun n hn => ?_⟩
    obtain ⟨n, rfl⟩ := Nat.exists_eq_add_of_lt hn
    simp [State.findLeaf, hl, hpf, hents, bind, Except.bind]
  | succ ℓ ih =>
    intro p hℓ hp hk
    obtain ⟨b, c, hl, hpf, hents, hroute, -, hc, hck⟩ := h.step_down hℓ hp hk
    obtain ⟨q, hq, hqk, hf⟩ := ih (Nat.le_of_succ_le hℓ) hc hck
    refine ⟨q, hq, hqk, fun n hn => ?_⟩
    obtain ⟨n, rfl⟩ := Nat.exists_eq_add_of_lt hn
    have := hf (ℓ + 1 + n) (by omega)
    simp [State.findLeaf, hl, hpf, hents, hroute, bind, Except.bind, this]

/-- A read returns the value of the key. -/
theorem lookup_spec (h : Inv lossy t nd row top none m) : ∀ {ℓ : Nat} {p : Pid}, ℓ ≤ top → p ∈ row ℓ →
    (nd p).Covers k → ∀ n > ℓ, t.lookup k n p = .ok (m k) := by
  intro ℓ
  induction ℓ with
  | zero =>
    intro p _ hp hk n hn
    obtain ⟨c, hl, -, -, hpf, hents, hv⟩ := h.at_leaf hp hk
    obtain ⟨n, rfl⟩ := Nat.exists_eq_add_of_lt hn
    rw [← hv, Chain.value]
    cases hd : findDelta c.deltas k <;> simp [State.lookup, hl, hd, hpf, hents, bind, Except.bind, findEnt]
  | succ ℓ ih =>
    intro p hℓ hp hk n hn
    obtain ⟨b, c, hl, hpf, hents, hroute, -, hc, hck⟩ := h.step_down hℓ hp hk
    obtain ⟨n, rfl⟩ := Nat.exists_eq_add_of_lt hn
    have := ih (Nat.le_of_succ_le hℓ) hc hck (ℓ + 1 + n) (by omega)
    simp [State.lookup, hl, findDelta, hpf, hents, hroute, bind, Except.bind, this]

/-- The height of the tree is small: its leaves are bound to PIDs below the
capacity of the map. -/
theorem top_le (h : Inv lossy t nd row top pend m) : top ≤ 18 := by
  have hlen : (row 0).length ≤ MAP_CAP := by
    have hnd := (h.shape.rows 0 (Nat.zero_le _)).nodup
    have hsub : row 0 ⊆ List.range MAP_CAP := fun p hp =>
      List.mem_range.mpr ((h.bound 0 (Nat.zero_le _) p hp).trans_le h.cap)
    have := (hnd.subperm hsub).length_le
    rwa [List.length_range] at this
  exact (Nat.pow_le_pow_iff_right (by decide)).mp (h.shape.two_pow_le.trans hlen)

/-- The descent of a split records the way to the leaf, within its array. -/
theorem descendWithPath_spec (h : Inv lossy t nd row top none m) : ∀ {ℓ : Nat} {p : Pid} {path : List Pid}, ℓ ≤ top →
    p ∈ row ℓ → (nd p).Covers k → Path nd t.root top ℓ (p :: path) →
    ∃ q ps, q ∈ row 0 ∧ (nd q).Covers k ∧ Path nd t.root top 0 (q :: ps) ∧
      ∀ n > ℓ, t.descendWithPath k n p path = .ok (q :: ps) := by
  intro ℓ
  induction ℓ with
  | zero =>
    intro p path _ hp hk hpath
    obtain ⟨c, hl, -, -, hpf, hents, -⟩ := h.at_leaf hp hk
    have hlen : ¬MAX_DEPTH ≤ path.length := by
      have := hpath.length
      have := h.top_le
      simp only [List.length_cons, MAX_DEPTH] at *
      omega
    refine ⟨p, path, hp, hk, hpath, fun n hn => ?_⟩
    obtain ⟨n, rfl⟩ := Nat.exists_eq_add_of_lt hn
    simp [State.descendWithPath, hl, hpf, hents, hlen, bind, Except.bind]
  | succ ℓ ih =>
    intro p path hℓ hp hk hpath
    obtain ⟨b, c, hl, hpf, hents, hroute, hkid, hc, hck⟩ := h.step_down hℓ hp hk
    have hlen : ¬MAX_DEPTH ≤ path.length := by
      have := hpath.length
      have := h.top_le
      simp only [List.length_cons, MAX_DEPTH] at *
      omega
    obtain ⟨q, ps, hq, hqk, hps, hf⟩ := ih (Nat.le_of_succ_le hℓ) hc hck (.step hkid hpath)
    refine ⟨q, ps, hq, hqk, hps, fun n hn => ?_⟩
    obtain ⟨n, rfl⟩ := Nat.exists_eq_add_of_lt hn
    have := hf (ℓ + 1 + n) (by omega)
    simp [State.descendWithPath, hl, hpf, hents, hlen, hroute, bind, Except.bind, this]

end Inv

end Dlsmc.Index
