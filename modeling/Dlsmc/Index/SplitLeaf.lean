import Dlsmc.Index.Install

/-!
# Leaves: new chains and splits

The chains that a write, a consolidation and a split make of a leaf are the
leaf again (`Holds.cons`, `Holds.consolidated`) or its halves (`Holds.lowerLeaf`,
`Holds.upperLeaf`). `splitLeaf_spec`: a split of a leaf keeps the tree and its
values, if the map has room for the PIDs it takes (`State.splitTakes`).
-/

namespace Dlsmc.Index

open BLink

/-- The way to the leaf of a key, as `descend_with_path` finds it. -/
def State.pathTo (t : State) (k : Key) : List Pid :=
  match t.descendWithPath k (MAX_DEPTH + 1) t.root [] with
  | .ok path => path
  | .error _ => []

variable {ω : Pattern} {lossy : Prop} {n : Node Key Pid} {c : Chain} {k sep : Key}

/-! ## Sorted entries, cut in two -/

section

variable {es : List LeafEnt} {i : Nat}

theorem Sorted.mem_take (hs : Sorted es) (hi : i < es.length) {e : LeafEnt} :
    e ∈ es.take i ↔ e ∈ es ∧ e.key < es[i].key := by
  constructor
  · intro h
    obtain ⟨j, hj, rfl⟩ := List.mem_iff_getElem.mp h
    rw [List.length_take] at hj
    rw [List.getElem_take]
    exact ⟨List.getElem_mem _, hs.getElem_lt (by omega) hi⟩
  · rintro ⟨h, hlt⟩
    obtain ⟨j, hj, rfl⟩ := List.mem_iff_getElem.mp h
    have hji : j < i := by
      by_contra hij
      exact (hlt.trans_le (hs.getElem_le (not_lt.mp hij) hj)).false
    exact List.mem_iff_getElem.mpr ⟨j, by rw [List.length_take]; omega, List.getElem_take⟩

theorem Sorted.mem_drop (hs : Sorted es) (hi : i < es.length) {e : LeafEnt} :
    e ∈ es.drop i ↔ e ∈ es ∧ es[i].key ≤ e.key := by
  constructor
  · intro h
    obtain ⟨j, hj, rfl⟩ := List.mem_iff_getElem.mp h
    rw [List.length_drop] at hj
    rw [List.getElem_drop]
    exact ⟨List.getElem_mem _, hs.getElem_le (by omega) (by omega)⟩
  · rintro ⟨h, hle⟩
    obtain ⟨j, hj, rfl⟩ := List.mem_iff_getElem.mp h
    have hij : i ≤ j := by
      by_contra hji
      exact (hle.trans_lt (hs.getElem_lt (not_le.mp hji) hi)).false
    exact List.mem_iff_getElem.mpr ⟨j - i, by rw [List.length_drop]; omega, by
      rw [List.getElem_drop]
      congr 1
      omega⟩

end

/-! ## Chains of a leaf -/

namespace Holds

/-- A base leaf with entries in the range of the node. -/
theorem of_leaf {es : List LeafEnt} {low high : Bytes} {r : Pid} (hn : n.level = 0) (hents : n.ents = [])
    (hr : r = n.right) (hlow : low.low = n.low ∨ lossy ∧ low.low = ⊥)
    (hhigh : high.high = n.high ∨ lossy ∧ high.high = ⊤)
    (hs : Sorted es) (hes : ∀ e ∈ es, n.Covers e.key) : Holds lossy n ⟨[], ⟨0, .leaf es, low, high, r⟩⟩ where
  level := hn.symm
  right := hr
  low := hlow
  high := hhigh
  ents := hents.symm
  kind := ⟨fun _ => hn, fun _ => rfl⟩
  plain _ := rfl
  sorted := hs
  inside := hes
  deltas _ h := by cases h

/-- The live entries of a leaf are in its range. -/
theorem live_covers (h : Holds lossy n c) {e : LeafEnt} (he : e ∈ c.live) : n.Covers e.key := by
  rw [Chain.mem_live h.sorted, Chain.value] at he
  split at he
  · rename_i d hd
    have hkey : d.key = e.key := by simpa using List.find?_some hd
    exact hkey ▸ h.deltas d (List.mem_of_find?_eq_some hd)
  · rw [findEnt_eq_some h.sorted] at he
    exact h.inside _ he

theorem cons (h : Holds lossy n c) (hn : n.level = 0) {d : Delta} (hd : n.Covers d.key) :
    Holds lossy n ⟨d :: c.deltas, c.base⟩ where
  level := h.level
  right := h.right
  low := h.low
  high := h.high
  ents := h.ents
  kind := h.kind
  plain hne := absurd hn hne
  sorted := h.sorted
  inside := h.inside
  deltas e he := by
    rcases List.mem_cons.mp he with rfl | he
    · exact hd
    · exact h.deltas e he

theorem consolidated (h : Holds (Lossy ω) n c) (hn : n.level = 0) (hents : n.ents = []) {low high : Bytes}
    (hlow : Lost ω c.base.lowFence low) (hhigh : Lost ω c.base.highFence high) :
    Holds (Lossy ω) n ⟨[], c.consolidated low high⟩ :=
  .of_leaf hn hents h.right (hlow.low h.low) (hhigh.high h.high) (Chain.sorted_live h.sorted) fun _ => h.live_covers

theorem lowerLeaf (h : Holds (Lossy ω) n c) (hn : n.level = 0) {i : Nat} (hi : i < c.live.length)
    {low high : Bytes} {r : Pid} (hlow : Lost ω c.base.lowFence low) (hhigh : Lost ω (.copy c.live[i].key) high) :
    Holds (Lossy ω) (n.lower c.live[i].key r []) ⟨[], ⟨0, .leaf (c.live.take i), low, high, r⟩⟩ := by
  have hs := Chain.sorted_live h.sorted
  refine .of_leaf hn rfl rfl (hlow.low h.low) (hhigh.high (.inl rfl)) (hs.sublist (List.take_sublist _ _))
    fun e he => ?_
  obtain ⟨hmem, hlt⟩ := (hs.mem_take hi).mp he
  exact ⟨(h.live_covers hmem).1, WithTop.coe_lt_coe.mpr hlt⟩

theorem upperLeaf (h : Holds (Lossy ω) n c) (hn : n.level = 0) {i : Nat} (hi : i < c.live.length)
    {low high : Bytes} (hlow : Lost ω (.copy c.live[i].key) low) (hhigh : Lost ω c.base.highFence high) :
    Holds (Lossy ω) (n.upper c.live[i].key []) ⟨[], ⟨0, .leaf (c.live.drop i), low, high, c.base.rightSibling⟩⟩ := by
  have hs := Chain.sorted_live h.sorted
  refine .of_leaf hn rfl h.right (hlow.low (.inl rfl)) (hhigh.high h.high) (hs.sublist (List.drop_sublist _ _))
    fun e he => ?_
  obtain ⟨hmem, hle⟩ := (hs.mem_drop hi).mp he
  exact ⟨WithBot.coe_le_coe.mpr hle, (h.live_covers hmem).2⟩

end Holds

/-- The entries of a base without deltas are live. -/
theorem Chain.live_base {b : Base} (hs : Sorted b.lents) : Chain.live ⟨[], b⟩ = b.lents := by
  have hents : Chain.entries ⟨[], b⟩ = b.lents := by
    simp [Chain.entries, liveDeltas, liveBase, seenHas]
  rw [Chain.live, hents, qsort]
  refine List.Pairwise.insertionSort_eq (hs.imp fun h => ?_)
  rw [Chain.lentCmp_le]
  exact h.le

/-! ## The split of a leaf -/

/-- The halves of a leaf with live entries `arr`. -/
theorem leafHalves_ends (hω : Tolerable ω) {t : State} {tail : Base} {arr : List LeafEnt}
    (hi : arr.length / 2 < arr.length) {Q : Option (Base × Base × Bytes) → State → Prop}
    (hmade : ∀ llow lhigh rlow rhigh t', Lost ω tail.lowFence llow → Lost ω (.copy arr[arr.length / 2].key) lhigh →
      Lost ω (.copy arr[arr.length / 2].key) rlow → Lost ω tail.highFence rhigh → Same t t' →
      Q (some (⟨0, .leaf (arr.take (arr.length / 2)), llow, lhigh, PID_NULL⟩,
        ⟨0, .leaf (arr.drop (arr.length / 2)), rlow, rhigh, tail.rightSibling⟩,
        .copy arr[arr.length / 2].key)) t')
    (hfail : ∀ t', Lossy ω → Same t t' → Q none t') : Ends (leafHalves ω tail arr) t Q := by
  refine Ends.bind (alloc_true (hω _ rfl) (Ends.bind (alloc_true (hω _ rfl) (Ends.bind (deref_ends ?_)))))
  refine Ends.bind (alloc_ends (Ends.bind (deref_ends (Ends.bind (alloc_ends ?_)))))
  simp only [List.getElem?_eq_getElem hi]
  have h₀ : Same t ((((t.tick .leafHalf).tick .leafHalf).tick .leafHalfEnts).tick .leafHalfEnts) :=
    ((Same.tick _).trans (.tick _)).trans ((Same.tick _).trans (.tick _))
  generalize hl : ω .leafHalfEnts ((t.tick .leafHalf).tick .leafHalf).clock = l
  generalize hr : ω .leafHalfEnts (((t.tick .leafHalf).tick .leafHalf).tick .leafHalfEnts).clock = r
  refine Ends.bind (keydup_ends fun s hs => ?_)
  have h₁ : Same t (State.tick _ .leafSep) := h₀.trans (.tick _)
  split
  · -- one of the allocations that are checked failed
    rename_i hf
    refine Ends.pure (hfail _ ?_ h₁)
    simp only [Bool.not_not, Bool.or_eq_true, decide_eq_true_eq] at hf
    rcases hf with (rfl | rfl) | hf
    · exact ⟨_, _, hl⟩
    · exact ⟨_, _, hr⟩
    · rcases hs with rfl | ⟨hω', -⟩
      · cases hf
      · exact hω'
  · rename_i hf
    obtain rfl : s = .copy arr[arr.length / 2].key := by
      rcases hs with rfl | ⟨-, _, rfl⟩
      · rfl
      · simp [Bytes.key] at hf
    refine Ends.bind (fdup_ends fun llow t₂ hllow h₂ => ?_)
    refine Ends.bind (keydup_ends fun lhigh hlhigh => ?_)
    refine Ends.bind (keydup_ends fun rlow hrlow => ?_)
    refine Ends.bind (fdup_ends fun rhigh t₃ hrhigh h₃ => ?_)
    exact Ends.pure (hmade llow lhigh rlow rhigh t₃ hllow hlhigh hrlow hrhigh
      (h₁.trans (h₂.trans (((Same.tick _).trans (.tick _)).trans h₃))))

section

variable {t : State} {nd : Pid → Node Key Pid} {row : Nat → List Pid} {top : Nat} {m : Key → Option DeltaPointer}
  {p : Pid} {ps : List Pid}

/-- The separator of a split leaf, installed all the way up. -/
theorem Inv.installLeaf (hω : Tolerable ω) (h : Inv (Lossy ω) t nd row top none m)
    (hpath : Path nd t.root top 0 (p :: ps)) (hcap : t.nextPid + (1 + t.cascade (p :: ps)) ≤ MAP_CAP) {L R : Base}
    {nd' : Pid → Node Key Pid} {row' : Nat → List Pid} {t₁ : State}
    (hinv : Inv (Lossy ω) ((t.bindPid ⟨[], R⟩).setHead p (some ⟨[], L⟩)) nd' row' top (some ⟨0, p, sep, t.nextPid⟩) m)
    (hnd' : ∀ y, y ≠ p → y < t.nextPid → nd' y = nd y)
    (hs : Same ((t.bindPid ⟨[], R⟩).setHead p (some ⟨[], L⟩)) t₁) :
    Ends (installSep ω (p :: ps) p (.copy sep) t.nextPid) t₁ fun _ t' =>
      ∃ nd' row' top', Inv (Lossy ω) t' nd' row' top' none m := by
  -- the nodes above the leaf are as they were
  have habove : ∀ y ∈ ps, nd' y = nd y ∧ t₁.map y = t.map y := by
    intro y hy
    obtain ⟨ℓ, hℓ, hlt, hrow⟩ := hpath.tail_mem_row h.shape y hy
    have hyp : y ≠ p := fun e =>
      absurd (h.shape.level_unique hℓ (Nat.zero_le _) (e ▸ hrow) (hpath.head_mem h.shape)) (by omega)
    have hlt := h.bound ℓ hℓ y hrow
    exact ⟨hnd' y hyp hlt, by rw [hs.map, State.setHead_of_ne hyp, State.bindPid_of_ne hlt.ne]⟩
  have hcas : t₁.cascade (p :: ps) = t.cascade (p :: ps) := State.cascade_congr fun y hy => (habove y hy).2
  have hnext : t₁.nextPid = t.nextPid + 1 := hs.nextPid.trans (State.bindPid_nextPid (by omega))
  have hroot : t₁.root = t.root := hs.root.trans State.bindPid_root
  have hpath₁ : Path nd' t₁.root top 0 (p :: ps) := by
    rw [hroot]
    exact hpath.congr fun y hy => (habove y hy).1
  exact (installSep_spec hω (hinv.congr hs) hpath₁ (by rw [hnext, hcas]; omega)).mono fun _ _ h => h.1

/-- A split of a leaf, up to `install_sep`, which is left to the caller of this
lemma. -/
theorem splitRound_cases (hω : Tolerable ω) (hl : t.loadHead p = .ok c) {path : List Pid} {Q : Unit → State → Prop}
    (hsame : ∀ t', Same t t' → (LEAF_MAX < c.live.length → Lossy ω) → Q () t')
    (hsplit : ∀ llow lhigh rlow rhigh t₁ (hi : c.live.length / 2 < c.live.length), LEAF_MAX < c.live.length →
      Lost ω c.base.lowFence llow → Lost ω (.copy c.live[c.live.length / 2].key) lhigh →
      Lost ω (.copy c.live[c.live.length / 2].key) rlow → Lost ω c.base.highFence rhigh →
      Same ((t.bindPid ⟨[], ⟨0, .leaf (c.live.drop (c.live.length / 2)), rlow, rhigh, c.base.rightSibling⟩⟩).setHead p
        (some ⟨[], ⟨0, .leaf (c.live.take (c.live.length / 2)), llow, lhigh, t.freshPid⟩⟩)) t₁ →
      Ends (installSep ω path p (.copy c.live[c.live.length / 2].key) t.freshPid) t₁ Q) :
    Ends (splitRound ω path p) t Q := by
  refine Ends.bind (Ends.get (Ends.bind (Ends.lift hl ?_)))
  refine Ends.bind (materializeLeaf_ends (fun t₁ h₁ => ?_) fun t₁ h₁ hω' => Ends.pure (hsame t₁ h₁ fun _ => hω'))
  dsimp only
  split
  · rename_i hle
    exact Ends.pure (hsame t₁ h₁ fun hlt => absurd hle (not_le.mpr hlt))
  rename_i hfull
  have hi : c.live.length / 2 < c.live.length := by
    simp only [LEAF_MAX] at hfull
    omega
  refine Ends.bind (leafHalves_ends hω hi (fun llow lhigh rlow rhigh t₂ hllow hlhigh hrlow hrhigh h₂ => ?_)
    fun t₂ hω' h₂ => Ends.pure (hsame t₂ (h₁.trans h₂) fun _ => hω'))
  dsimp only
  refine Ends.bind (allocPid_ends (Ends.bind (Ends.modify (Ends.bind (retireChain_ends
    (Ends.bind (Ends.modify ?_)))))))
  have h₁₂ := h₁.trans h₂
  rw [h₁₂.freshPid]
  exact hsplit llow lhigh rlow rhigh _ hi (not_le.mp hfull) hllow hlhigh hrlow hrhigh
    (((h₁₂.bindPid _).setHead p _).trans ⟨rfl, rfl, rfl, rfl⟩)

/-- The halves of a leaf that is too large. -/
theorem Inv.splitLeaf (h : Inv (Lossy ω) t nd row top none m) (hp : p ∈ row 0) (hcap : t.nextPid < MAP_CAP)
    (hc : (t.map p).head = some c) (hfull : LEAF_MAX < c.live.length) (hi : c.live.length / 2 < c.live.length)
    {llow lhigh rlow rhigh : Bytes} (hllow : Lost ω c.base.lowFence llow)
    (hlhigh : Lost ω (.copy c.live[c.live.length / 2].key) lhigh)
    (hrlow : Lost ω (.copy c.live[c.live.length / 2].key) rlow) (hrhigh : Lost ω c.base.highFence rhigh) :
    ∃ nd' row', Inv (Lossy ω) ((t.bindPid ⟨[], ⟨0, .leaf (c.live.drop (c.live.length / 2)), rlow, rhigh,
        c.base.rightSibling⟩⟩).setHead p (some ⟨[], ⟨0, .leaf (c.live.take (c.live.length / 2)), llow, lhigh,
        t.nextPid⟩⟩)) nd' row' top (some ⟨0, p, c.live[c.live.length / 2].key, t.nextPid⟩) m ∧
      (∀ y, y ≠ p → y < t.nextPid → nd' y = nd y) ∧ Grows nd nd' row row' top top := by
  obtain ⟨c', -, hc', hh⟩ := h.load (Nat.zero_le _) hp
  obtain rfl : c' = c := Option.some.inj (hc'.symm.trans hc)
  have hn : (nd p).level = 0 := h.level (Nat.zero_le _) hp
  have hs := Chain.sorted_live hh.sorted
  have hval : ∀ k, (nd p).Covers k → c'.value k = m k := fun k => h.values p hp c' hc k
  -- the separator is between an entry of the lower half and one of the upper half
  have h0 : 0 < c'.live.length := by omega
  have h0i : 0 < c'.live.length / 2 := by
    simp only [LEAF_MAX] at hfull
    omega
  have hlow : (nd p).low < c'.live[c'.live.length / 2].key :=
    (hh.live_covers (List.getElem_mem h0)).1.trans_lt (WithBot.coe_lt_coe.mpr (hs.getElem_lt h0i hi))
  have hhigh := (hh.live_covers (List.getElem_mem hi)).2
  exact h.splitNode (Nat.zero_le _) hp hcap hlow hhigh
    (.leaf (h.shape.leaf p hp)) (hh.lowerLeaf hn hi hllow hlhigh) (hh.upperLeaf hn hi hrlow hrhigh)
    (fun _ k hk hks => (Chain.findEnt_sublist hh.sorted (List.take_sublist _ _) fun e he hek =>
      (hs.mem_take hi).mpr ⟨he, hek ▸ hks⟩).trans (hval k hk))
    (fun _ k hk hks => (Chain.findEnt_sublist hh.sorted (List.drop_sublist _ _) fun e he hek =>
      (hs.mem_drop hi).mpr ⟨he, hek ▸ hks⟩).trans (hval k hk))

theorem splitRound_spec (hω : Tolerable ω) (h : Inv (Lossy ω) t nd row top none m)
    (hpath : Path nd t.root top 0 (p :: ps)) (hc : (t.map p).head = some c)
    (hcap : LEAF_MAX < c.live.length → t.nextPid + (1 + t.cascade (p :: ps)) ≤ MAP_CAP) :
    Ends (splitRound ω (p :: ps) p) t fun _ t' => ∃ nd' row' top', Inv (Lossy ω) t' nd' row' top' none m := by
  have hp : p ∈ row 0 := hpath.head_mem h.shape
  obtain ⟨c', hl, hc', -⟩ := h.load (Nat.zero_le _) hp
  obtain rfl : c' = c := Option.some.inj (hc'.symm.trans hc)
  refine splitRound_cases hω hl (fun t' h₁ _ => ⟨nd, row, top, h.congr h₁⟩)
    fun llow lhigh rlow rhigh t₁ hi hfull hllow hlhigh hrlow hrhigh hsame => ?_
  have hcap := hcap hfull
  rw [State.freshPid_of_lt (by omega : t.nextPid < MAP_CAP)] at hsame ⊢
  obtain ⟨nd', row', hinv, hnd', -⟩ := h.splitLeaf hp (by omega) hc hfull hi hllow hlhigh hrlow hrhigh
  exact h.installLeaf hω hpath hcap hinv hnd' hsame

/-- What `splitLeaf` works on: the path it finds. -/
theorem Inv.exists_path {lossy : Prop} (h : Inv lossy t nd row top none m) (k : Key) :
    ∃ p ps, (nd p).Covers k ∧ Path nd t.root top 0 (p :: ps) ∧ t.pathTo k = p :: ps ∧
      ∀ fuel > top, t.descendWithPath k fuel t.root [] = .ok (p :: ps) := by
  obtain ⟨hroot, hcov⟩ := h.root_covers (k := k)
  obtain ⟨p, ps, -, hk, hpath, hd⟩ := h.descendWithPath_spec le_rfl hroot hcov .root
  refine ⟨p, ps, hk, hpath, ?_, hd⟩
  have := h.top_le
  rw [State.pathTo, hd (MAX_DEPTH + 1) (by simp only [MAX_DEPTH]; omega)]

theorem descendWithPath_smoBusy {b : Bool} : ∀ {fuel : Nat} {pid : Pid} {path : List Pid},
    ({ t with smoBusy := b } : State).descendWithPath k fuel pid path = t.descendWithPath k fuel pid path := by
  intro fuel
  induction fuel with
  | zero => exact fun {_ _} => rfl
  | succ fuel ih =>
    intro pid path
    simp only [State.descendWithPath, ih]
    rfl

/-- `split_leaf` takes the lock of splits around a round. -/
theorem splitLeaf_returns (hbusy : t.smoBusy = false)
    (hto : ∀ fuel > top, t.descendWithPath k fuel t.root [] = .ok (p :: ps)) {Q : Unit → State → Prop}
    (h : Ends (splitRound ω (p :: ps) p) { t with smoBusy := true } Q) :
    Returns (fun fuel => splitLeaf ω fuel k) t fun _ t' => ∃ t₁, t' = { t₁ with smoBusy := false } ∧ Q () t₁ := by
  obtain ⟨_, t₁, hround, hQ⟩ := h
  have hend : ∀ fuel ≥ top + 1, Ends (splitLeaf ω fuel k) t fun r t' => r = () ∧ t' = { t₁ with smoBusy := false } := by
    intro fuel hfuel
    refine Ends.bind (Ends.get ?_)
    rw [if_neg (by simp [hbusy])]
    refine Ends.bind (Ends.modify (Ends.bind (Ends.get (Ends.bind (Ends.lift
      (descendWithPath_smoBusy.trans (hto fuel hfuel)) ?_)))))
    exact Ends.bind ⟨_, t₁, hround, Ends.modify ⟨rfl, rfl⟩⟩
  exact Returns.of_forall (top + 1) hend ⟨t₁, rfl, hQ⟩

theorem Inv.setBusy {lossy : Prop} (h : Inv lossy t nd row top none m) (b : Bool) :
    Inv lossy { t with smoBusy := b } nd row top none m :=
  ⟨h.shape, h.bound, h.cap, h.holds, h.values, h.free⟩

/-- `split_leaf` keeps the tree and its values. -/
theorem splitLeaf_spec (hω : Tolerable ω) (h : Inv (Lossy ω) t nd row top none m) (hbusy : t.smoBusy = false)
    (hpath : Path nd t.root top 0 (p :: ps)) (hto : ∀ fuel > top, t.descendWithPath k fuel t.root [] = .ok (p :: ps))
    (hc : (t.map p).head = some c)
    (hcap : LEAF_MAX < c.live.length → t.nextPid + (1 + t.cascade (p :: ps)) ≤ MAP_CAP) :
    Returns (fun fuel => splitLeaf ω fuel k) t fun _ t' =>
      (∃ nd' row' top', Inv (Lossy ω) t' nd' row' top' none m) ∧ t'.smoBusy = false := by
  have hcas : ({ t with smoBusy := true } : State).cascade (p :: ps) = t.cascade (p :: ps) :=
    State.cascade_congr fun _ _ => rfl
  refine (splitLeaf_returns hbusy hto
    (splitRound_spec hω (h.setBusy true) hpath hc (by rw [hcas]; exact hcap))).mono ?_
  rintro _ t' ⟨t₁, rfl, nd', row', top', hinv⟩
  exact ⟨⟨nd', row', top', hinv.setBusy false⟩, rfl⟩

end

end Dlsmc.Index
