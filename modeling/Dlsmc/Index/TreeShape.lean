import Dlsmc.Index.Consolidation
import Dlsmc.Index.Sizes

/-!
# The shape of the tree, in the nodes themselves

`Shaped` says of the chains in the map what `Inv` and `AllSized` say of the tree
that the map holds: the rows of its levels, and the levels, fences, separators,
entries and links of the nodes in them. The first entry of an internal node has
no separator: its child begins where the node begins.

`shaped_of_run`: this is so after every call of a run in which no allocation
fails and the map is not exhausted.
-/

namespace Dlsmc.Index

open BLink

/-- The key is at or above the low fence and below the high fence. -/
def Base.Inside (b : Base) (k : Key) : Prop :=
  (∀ s, b.lowFence.key = some s → keycmp s k ≠ .gt) ∧ ∀ s, b.highFence.key = some s → keycmp k s = .lt

/-- A leaf after a write. -/
structure LeafShape (c : Chain) : Prop where
  leaf : c.base.isLeaf = true
  depths : Depths c.deltas
  short : c.deltas.length < CONSOLIDATE_DEPTH
  max : c.base.num ≤ LEAF_MAX
  sorted : StrictlySorted c.base.lents
  inside : ∀ e ∈ c.base.lents, c.base.Inside e.key
  deltas : ∀ d ∈ c.deltas, c.base.Inside d.key

/-- An internal node after a write, with the nodes below it. -/
structure InnerShape (node : Pid → Chain) (isRoot : Prop) (c : Chain) : Prop where
  inner : c.base.isLeaf = false
  plain : c.deltas = []
  two : 2 ≤ c.base.num
  max : c.base.num ≤ INTERNAL_MAX
  half : ¬isRoot → 16 ≤ c.base.num
  /-- The separators are there, but for the first entry, and increase. -/
  sorted : ∃ ss : List Key, c.base.ients.tail.map IdxEnt.sep = ss.map Bytes.copy ∧
    ss.Pairwise fun s s' => keycmp s s' = .lt
  level : ∀ e ∈ c.base.ients, c.base.level = (node e.child).base.level + 1
  first : ∀ e ∈ c.base.ients.head?, e.sep.key = none ∧ (node e.child).base.lowFence.key = c.base.lowFence.key
  sep : ∀ e ∈ c.base.ients.tail, (node e.child).base.lowFence.key = e.sep.key
  /-- A child ends at the next separator, the last one where the node ends. -/
  high : ∀ l e r, c.base.ients = l ++ e :: r → (node e.child).base.highFence.key =
    match r with
    | [] => c.base.highFence.key
    | f :: _ => f.sep.key

/-- The nodes of a level: the right siblings enumerate them in the order of
their keys, and the fences of neighbours match. -/
structure LevelShape (node : Pid → Chain) (ps : List Pid) : Prop where
  link : ps.IsChain fun p q => (node p).base.rightSibling = q ∧
    ∃ s, (node p).base.highFence = .copy s ∧ (node q).base.lowFence = .copy s
  order : ps.Pairwise fun p q => (node p).base.lowFence.low < (node q).base.lowFence.low
  first : ∀ p ∈ ps.head?, (node p).base.lowFence.key = none
  last : ∀ p ∈ ps.getLast?, (node p).base.highFence.key = none ∧ (node p).base.rightSibling = PID_NULL

/-- The map holds the nodes `node`, in the levels `row` up to `top`. -/
structure Shaped (t : State) (node : Pid → Chain) (row : Nat → List Pid) (top : Nat) : Prop where
  loaded : ∀ ℓ ≤ top, ∀ p ∈ row ℓ, t.loadHead p = .ok (node p)
  root : row top = [t.root]
  below : ∀ ℓ < top, row ℓ = (row (ℓ + 1)).flatMap fun p => (node p).base.ients.map IdxEnt.child
  reached : ∀ p, Refers t p → ∃ ℓ ≤ top, p ∈ row ℓ
  level : ∀ ℓ ≤ top, ∀ p ∈ row ℓ, (node p).base.level = ℓ
  leaf : ∀ p ∈ row 0, LeafShape (node p)
  inner : ∀ ℓ < top, ∀ p ∈ row (ℓ + 1), InnerShape node (p = t.root) (node p)
  siblings : ∀ ℓ ≤ top, LevelShape node (row ℓ)

/-! ## Fences and separators -/

namespace Bytes

variable {b b' : Bytes} {s : Key}

theorem low_eq_coe : b.low = s ↔ b = copy s := by
  cases b with
  | null n => simp [low]
  | copy k => simp [low, WithBot.coe_inj]

theorem high_eq_coe : b.high = s ↔ b = copy s := by
  cases b with
  | null n => simp [high]
  | copy k => simp [high, WithTop.coe_inj]

theorem key_of_low (h : b.low = b'.low) : b.key = b'.key := by
  cases b' with
  | null n =>
    cases b with
    | null n => rfl
    | copy k => cases h
  | copy k => rw [low_eq_coe.mp h]

theorem key_of_high (h : b.high = b'.high) : b.key = b'.key := by
  cases b' with
  | null n =>
    cases b with
    | null n => rfl
    | copy k => cases h
  | copy k => rw [high_eq_coe.mp h]

theorem key_of_bot (h : b.low = ⊥) : b.key = none := @key_of_low b (null 0) h

theorem key_of_top (h : b.high = ⊤) : b.key = none := @key_of_high b (null 0) h

end Bytes

/-- Separators that are there and increase are keys that increase. -/
theorem exists_seps : ∀ {es : List IdxEnt}, (∀ e ∈ es, e.sep.low ≠ ⊥) →
    (es.Pairwise fun e f => e.sep.low < f.sep.low) →
    ∃ ss : List Key, es.map IdxEnt.sep = ss.map Bytes.copy ∧ ss.Pairwise fun s s' => keycmp s s' = .lt
  | [], _, _ => ⟨[], rfl, .nil⟩
  | e :: es, hne, hlt => by
    obtain ⟨hfirst, htail⟩ := List.pairwise_cons.mp hlt
    obtain ⟨ss, hmap, hss⟩ := exists_seps (fun f hf => hne f (List.mem_cons_of_mem _ hf)) htail
    obtain ⟨s, hs⟩ := Bytes.exists_copy (hne e (by simp))
    refine ⟨s :: ss, by rw [List.map_cons, hs, hmap, List.map_cons], List.pairwise_cons.mpr ⟨fun s' hs' => ?_, hss⟩⟩
    obtain ⟨f, hf, hfs⟩ : ∃ f ∈ es, f.sep = .copy s' := by
      rw [← List.mem_map, hmap]
      exact List.mem_map_of_mem hs'
    have := hfirst f hf
    rwa [hs, hfs, Bytes.low_copy, Bytes.low_copy, WithBot.coe_lt_coe, ← keycmp_eq_lt] at this

namespace Holds

variable {n : Node Key Pid} {c : Chain}

theorem low_eq (h : Holds False n c) : c.base.lowFence.low = n.low := h.low.resolve_right fun h => h.1

theorem high_eq (h : Holds False n c) : c.base.highFence.high = n.high := h.high.resolve_right fun h => h.1

/-- The range of a node is what is between its fences. -/
theorem inside_base (h : Holds False n c) {k : Key} (hk : n.Covers k) : c.base.Inside k := by
  constructor
  · intro s hs
    have hlow := hk.1
    rw [← h.low_eq] at hlow
    cases hf : c.base.lowFence with
    | null n => rw [hf] at hs; cases hs
    | copy s' =>
      rw [hf] at hs hlow
      cases hs
      rw [Bytes.low_copy, WithBot.coe_le_coe] at hlow
      rwa [ne_eq, keycmp_eq_gt, not_lt]
  · intro s hs
    have hhigh := hk.2
    rw [← h.high_eq] at hhigh
    cases hf : c.base.highFence with
    | null n => rw [hf] at hs; cases hs
    | copy s' =>
      rw [hf] at hs hhigh
      cases hs
      rw [Bytes.high_copy, WithTop.coe_lt_coe] at hhigh
      rwa [keycmp_eq_lt]

end Holds

/-! ## From the tree to its nodes -/

variable {t : State} {nd : Pid → Node Key Pid} {row : Nat → List Pid} {top ℓ : Nat} {m : Key → Option DeltaPointer}
  {p : Pid}

/-- The chain of a node. -/
def State.node (t : State) (p : Pid) : Chain := ((t.map p).head).getD ⟨[], Base.leafNew⟩

namespace Inv

variable (h : Inv False t nd row top none m)
include h

theorem node (hℓ : ℓ ≤ top) (hp : p ∈ row ℓ) :
    t.loadHead p = .ok (t.node p) ∧ (t.map p).head = some (t.node p) ∧ Holds False (nd p) (t.node p) := by
  obtain ⟨c, hl, hc, hh⟩ := h.load hℓ hp
  have hnode : t.node p = c := by rw [State.node, hc, Option.getD_some]
  rw [hnode]
  exact ⟨hl, hc, hh⟩

theorem leafShape (hs : AllSized t) (hp : p ∈ row 0) : LeafShape (t.node p) := by
  obtain ⟨-, hc, hh⟩ := h.node (Nat.zero_le _) hp
  have hsized := hs p _ hc
  have hlev := h.level (Nat.zero_le _) hp
  exact
    { leaf := hh.kind.mpr hlev
      depths := hsized.depths
      short := hsized.short
      max := by
        rw [Base.num, Base.ients, hh.leaf_ents hlev]
        exact hsized.leaf
      sorted := strictlySorted_iff.mpr hh.sorted
      inside := fun e he => hh.inside_base (hh.inside e he)
      deltas := fun d hd => hh.inside_base (hh.deltas d hd) }

theorem innerShape (hs : AllSized t) (hℓ : ℓ < top) (hp : p ∈ row (ℓ + 1)) :
    InnerShape t.node (p = t.root) (t.node p) := by
  obtain ⟨-, hc, hh⟩ := h.node hℓ hp
  have hsized := hs p _ hc
  have hlev := h.level hℓ hp
  have hne : (nd p).level ≠ 0 := by omega
  have hinner := h.shape.inner ℓ hℓ p hp
  have hents : (t.node p).base.ients.map IdxEnt.entry = (nd p).ents := hh.ents
  have hleaf : (t.node p).base.isLeaf = false := by rw [Base.isLeaf, hh.inner_ents hne]
  have hnum : (t.node p).base.num = (t.node p).base.ients.length := Base.num_internal (hh.inner_ents hne)
  have hkid : ∀ e ∈ (t.node p).base.ients, e.child ∈ row ℓ ∧ Holds False (nd e.child) (t.node e.child) := fun e he => by
    have hmem : e.child ∈ row ℓ := h.shape.kid_mem hℓ hp (by
      rw [Node.kids, ← hents, List.map_map]
      exact List.mem_map.mpr ⟨e, he, rfl⟩)
    exact ⟨hmem, (h.node hℓ.le hmem).2.2⟩
  refine ⟨hleaf, hh.plain hne, hnum ▸ (hsized.inner hleaf).1, hnum ▸ (hsized.inner hleaf).2,
    fun hr => hnum ▸ hsized.half hleaf hr, ?_, fun e he => ?_, fun e he => ?_, fun e he => ?_, fun l e r hes => ?_⟩
  · obtain ⟨b, -, hb, -, -, -, hsep, hlt⟩ := h.load_inner hℓ hp
    have hbase : (t.node p).base = b := congrArg Chain.base (Option.some.inj (hc.symm.trans hb))
    rw [hbase]
    exact exists_seps hsep hlt
  · obtain ⟨hmem, hk⟩ := hkid e he
    rw [hh.level, hk.level, hlev, h.level hℓ.le hmem]
  · have hfirst := hinner.low_first e.entry (by
      rw [← hents, List.head?_map, Option.mem_def.mp he]
      rfl)
    obtain ⟨-, hk⟩ := hkid e (List.mem_of_head? he)
    refine ⟨Bytes.key_of_bot hfirst.1, Bytes.key_of_low ?_⟩
    rw [hk.low_eq, hh.low_eq]
    exact hfirst.2
  · have htail := hinner.low_tail e.entry (by
      rw [← hents, ← List.map_tail]
      exact List.mem_map_of_mem he)
    obtain ⟨-, hk⟩ := hkid e (List.mem_of_mem_tail he)
    exact Bytes.key_of_low (hk.low_eq.trans htail)
  · obtain ⟨-, hk⟩ := hkid e (by rw [hes]; simp)
    have hsplit : (nd p).ents = l.map IdxEnt.entry ++ e.entry :: r.map IdxEnt.entry := by rw [← hents, hes]; simp
    obtain ⟨s, hs, f, r', hr, hf⟩ | ⟨hr, hhigh⟩ := h.shape.kid_high hℓ hp hsplit
    · cases r with
      | nil => cases hr
      | cons g r =>
        obtain ⟨rfl, -⟩ := List.cons.inj hr
        rw [Bytes.high_eq_coe.mp (hk.high_eq.trans hs)]
        exact congrArg Bytes.key (Bytes.low_eq_coe.mp hf).symm
    · rw [List.map_eq_nil_iff] at hr
      subst hr
      exact Bytes.key_of_high ((hk.high_eq.trans hhigh).trans hh.high_eq.symm)

theorem levelShape (hℓ : ℓ ≤ top) : LevelShape t.node (row ℓ) := by
  have hrow := h.shape.rows ℓ hℓ
  have hnode : ∀ p ∈ row ℓ, Holds False (nd p) (t.node p) := fun p hp => (h.node hℓ hp).2.2
  refine ⟨hrow.next.imp_of_mem_imp fun p q hp hq hn => ?_, hrow.pairwise_low.imp_of_mem fun hp hq hlt => ?_,
    fun p hp => ?_, fun p hp => ?_⟩
  · obtain ⟨hr, s, hs, hs'⟩ := hn
    exact ⟨(hnode p hp).right.trans hr, s, Bytes.high_eq_coe.mp ((hnode p hp).high_eq.trans hs),
      Bytes.low_eq_coe.mp ((hnode q hq).low_eq.trans hs')⟩
  · rwa [(hnode _ hp).low_eq, (hnode _ hq).low_eq]
  · exact Bytes.key_of_bot ((hnode p (List.mem_of_head? hp)).low_eq.trans (hrow.first p hp))
  · have hk := hnode p (List.mem_of_getLast? hp)
    exact ⟨Bytes.key_of_top (hk.high_eq.trans (hrow.last p hp).1), hk.right.trans (hrow.last p hp).2⟩

theorem shaped (hs : AllSized t) : Shaped t t.node row top where
  loaded _ hℓ _ hp := (h.node hℓ hp).1
  root := (h.shape.root).symm
  below ℓ hℓ := by
    rw [← show kidsOf nd (row (ℓ + 1)) = row ℓ from h.shape.kids ℓ hℓ, kidsOf]
    refine List.flatMap_congr fun p hp => ?_
    rw [Node.kids, ← (h.node hℓ hp).2.2.ents, List.map_map]
    rfl
  reached _ hr := h.refers hr
  level _ hℓ _ hp := (h.node hℓ hp).2.2.level.trans (h.level hℓ hp)
  leaf _ hp := h.leafShape hs hp
  inner _ hℓ _ hp := h.innerShape hs hℓ hp
  siblings _ hℓ := h.levelShape hℓ

end Inv

/-- After every call of a run in which no allocation fails and the map is not
exhausted, the index is a tree whose nodes have the right sizes, fences,
separators, levels and links. -/
theorem shaped_of_run (h : Run never (fun t c => c.HasRoom t) t m) : ∃ node row top, Shaped t node row top := by
  obtain ⟨⟨⟨nd, row, top, hinv⟩, -⟩, hs⟩ := standing_of_run h
  exact ⟨t.node, row, top, (hinv.mono not_lossy_never).shaped hs⟩

/-- Forty insertions, the last of which splits the leaf, and a delete. -/
def splitCalls : List Call := (List.range 40).map insertByte ++ [Call.delete (.copy [7])]

/-- Whether the map is not exhausted after the call. -/
def Call.leavesRoom (t : State) (c : Call) : Bool :=
  match c.exec never 3 t with
  | .ok x => decide (x.2.nextPid ≤ MAP_CAP)
  | .error _ => false

theorem Call.hasRoom_of_leavesRoom (t : State) (c : Call) (h : c.leavesRoom t = true) : c.HasRoom t := by
  intro r t' he
  rw [leavesRoom] at h
  cases hex : c.exec never 3 t with
  | error e =>
    rw [hex] at h
    cases h
  | ok x =>
    rw [hex] at h
    obtain rfl := (he.unique (.of_eq hex)).2
    exact of_decide_eq_true h

theorem shaped_of_splitCalls : ∃ t m, Run never (fun t c => c.HasRoom t) t m ∧ t.leafSplits = 1 ∧ t.root = 2 ∧
    ∃ node row top, Shaped t node row top := by
  obtain ⟨t₀, h₀⟩ : ∃ t, indexNew never = some t := ⟨_, rfl⟩
  have hrun : (calls never 3 (fun t c => c.leavesRoom t) splitCalls t₀).map
      (fun t => t.leafSplits == 1 && t.root == 2) = some true := by
    cases h₀
    decide +kernel
  obtain ⟨t, hcs, ht⟩ := Option.map_eq_some_iff.mp hrun
  rw [Bool.and_eq_true, beq_iff_eq, beq_iff_eq] at ht
  obtain ⟨m, hm⟩ := Run.calls Call.hasRoom_of_leavesRoom (.new h₀) hcs
  exact ⟨t, m, hm, ht.1, ht.2, shaped_of_run hm⟩

end Dlsmc.Index
