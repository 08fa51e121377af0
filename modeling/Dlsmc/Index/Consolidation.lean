import Dlsmc.Index.Building
import Dlsmc.Index.Descent

/-!
# Consolidation preserves lookups

A lookup in a leaf walks along its deltas and searches the base
(`lookup_leaf`); consolidation merges both into one sorted array. They agree on
every key (`consolidation`), and `route` finds the child of the greatest
separator that is not above the key (`route_greatest`).
-/

namespace Dlsmc.Index

/-- The keys of the entries increase in the order of `keycmp`. -/
def StrictlySorted (es : List LeafEnt) : Prop := es.Pairwise fun e f => keycmp e.key f.key = .lt

theorem strictlySorted_iff {es : List LeafEnt} : StrictlySorted es ↔ Sorted es := by
  simp only [StrictlySorted, Sorted, keycmp_eq_lt]

/-- `base_find` finds `k`, with the value `v`. -/
def Finds (es : List LeafEnt) (k : Key) (v : DeltaPointer) : Prop :=
  ∃ i e, baseFind es k = some i ∧ es[i]? = some e ∧ e.val = v

theorem finds_iff {es : List LeafEnt} {k : Key} {v : DeltaPointer} : Finds es k v ↔ findEnt es k = some v := by
  simp only [Finds, findEnt, Option.bind_eq_some_iff, Option.map_eq_some_iff]
  constructor
  · rintro ⟨i, e, hi, he, rfl⟩
    exact ⟨i, hi, e, he, rfl⟩
  · rintro ⟨i, hi, e, he, rfl⟩
    exact ⟨i, e, hi, he, rfl⟩

/-- `dlsm_index_get` at a leaf that covers the key. -/
theorem lookup_leaf {t : State} {pid : Pid} {c : Chain} {k : Key} (n : Nat) (hc : t.loadHead pid = .ok c)
    (hl : c.base.isLeaf = true) (hf : c.base.pastFence k = false) : t.lookup k (n + 1) pid = .ok (c.value k) := by
  have hents : c.base.ents = .leaf c.base.lents := by
    unfold Base.isLeaf at hl
    unfold Base.lents
    cases he : c.base.ents with
    | leaf es => rfl
    | internal es => rw [he] at hl; cases hl
  cases hd : findDelta c.deltas k with
  | some d => simp only [State.lookup, hc, Chain.value, hd, bind, Except.bind]
  | none =>
    simp only [State.lookup, hc, Chain.value, hd, hf, Bool.false_eq_true, if_false, hents, bind, Except.bind]
    rfl

theorem failedAt_never (site : Site) : ∀ k n : Nat, failedAt never site k n = none
  | 0, _ => rfl
  | k + 1, n => failedAt_never site k (n + 1)

/-- With memory, `materialize_leaf` returns the live entries. -/
theorem materializeLeaf_never (c : Chain) (t : State) :
    ∃ t', materializeLeaf never c t = .ok (some c.live, t') := by
  have hfails : materializeFails never c t.clock = none := by
    rw [materializeFails, if_neg (by simp [never])]
    exact failedAt_never _ _ _
  obtain ⟨t', he, -⟩ := materializeLeaf_made hfails
  exact ⟨t', he⟩

/-- Whenever it returns entries, they are those. -/
theorem materializeLeaf_some {ω : Pattern} {c : Chain} {t t' : State} {arr : List LeafEnt}
    (h : materializeLeaf ω c t = .ok (some arr, t')) : arr = c.live := by
  cases hf : materializeFails ω c t.clock with
  | none =>
    obtain ⟨t₁, he, -⟩ := materializeLeaf_made hf
    rw [he] at h
    cases h
    rfl
  | some n =>
    obtain ⟨t₁, he, -⟩ := materializeLeaf_fails hf
    rw [he] at h
    cases h

/-- The separator of an entry is not above the key. -/
def IdxEnt.UpTo (e : IdxEnt) (k : Key) : Prop := e.sep.low ≤ (k : WithBot Key)

/-- `route` goes to the child of the greatest separator that is not above the
key, or to the first child. -/
theorem route_greatest {es : List IdxEnt} (hne : es ≠ []) (hs : es.Pairwise fun e f => e.sep.low < f.sep.low)
    (k : Key) :
    ∃ i e, es[i]? = some e ∧ route es k = .ok e.child ∧
      ((e.UpTo k ∧ ∀ f ∈ es, f.UpTo k → f.sep.low ≤ e.sep.low) ∨ i = 0 ∧ ∀ f ∈ es, ¬f.UpTo k) := by
  obtain ⟨e₀, es', rfl⟩ := List.exists_cons_of_ne_nil hne
  have hs' := List.pairwise_cons.mp hs
  have hcopy : ∀ e ∈ (e₀ :: es').tail, e.sep.low ≠ ⊥ := fun e he => ((bot_le).trans_lt (hs'.1 e he)).ne'
  obtain ⟨l, e, r, hes, hroute, hle, hgt⟩ := @route_spec (e₀ :: es') k (List.cons_ne_nil _ _) hcopy hs'.2
  have hget : (e₀ :: es')[l.length]? = some e := by
    rw [hes, List.getElem?_append_right (le_refl _), Nat.sub_self]
    rfl
  have hbefore : ∀ f ∈ l, f.sep.low < e.sep.low := by
    rw [hes] at hs
    exact fun f hf => (List.pairwise_append.mp hs).2.2 f hf e List.mem_cons_self
  have hmem : ∀ f ∈ e₀ :: es', f ∈ l ∨ f = e ∨ f ∈ r := by
    intro f hf
    rw [hes] at hf
    simpa using hf
  refine ⟨l.length, e, hget, hroute, ?_⟩
  by_cases hek : e.UpTo k
  · refine .inl ⟨hek, fun f hf hfk => ?_⟩
    rcases hmem f hf with hf | rfl | hf
    · exact (hbefore f hf).le
    · exact le_rfl
    · exact absurd (hgt f hf) (not_lt_of_ge hfk)
  · -- only the first child is taken with a separator above the key
    have hnil : l = [] := by
      by_contra hl
      exact hek (hle hl)
    refine .inr ⟨by rw [hnil, List.length_nil], fun f hf => ?_⟩
    rcases hmem f hf with hf | rfl | hf
    · rw [hnil] at hf
      cases hf
    · exact hek
    · exact not_le_of_gt (hgt f hf)

/-- Consolidation preserves the lookups in a leaf, and `route` chooses the child they need. -/
structure ConsolidationPreserves : Prop where
  /-- `materialize_leaf`, whatever was in memory and whatever it allocated, … -/
  materialize : ∀ (ω : Pattern) (c : Chain) (t t' : State) (arr : List LeafEnt), StrictlySorted c.base.lents →
    materializeLeaf ω c t = .ok (some arr, t') →
    StrictlySorted arr ∧ ∀ k v, Finds arr k v ↔ c.value k = some v
  /-- … and if no allocation fails, it returns an array. -/
  materialized : ∀ (c : Chain) (t : State), ∃ arr t', materializeLeaf never c t = .ok (some arr, t')
  /-- The walk of `dlsm_index_get` along the chain of a leaf is `Chain.value`. -/
  walk : ∀ (t : State) (pid : Pid) (c : Chain) (k : Key) (n : Nat), t.loadHead pid = .ok c →
    c.base.isLeaf = true → c.base.pastFence k = false → t.lookup k (n + 1) pid = .ok (c.value k)
  route : ∀ (es : List IdxEnt) (k : Key), es ≠ [] → (es.Pairwise fun e f => e.sep.low < f.sep.low) →
    ∃ i e, es[i]? = some e ∧ route es k = .ok e.child ∧
      ((e.UpTo k ∧ ∀ f ∈ es, f.UpTo k → f.sep.low ≤ e.sep.low) ∨ i = 0 ∧ ∀ f ∈ es, ¬f.UpTo k)

theorem consolidation : ConsolidationPreserves where
  materialize ω c t t' arr hs h := by
    have hs' := strictlySorted_iff.mp hs
    obtain rfl := materializeLeaf_some h
    refine ⟨strictlySorted_iff.mpr (Chain.sorted_live hs'), fun k v => ?_⟩
    rw [finds_iff, Chain.findEnt_live hs']
  materialized c t := by
    obtain ⟨t', h⟩ := materializeLeaf_never c t
    exact ⟨_, t', h⟩
  walk t pid c k n hc hl hf := lookup_leaf n hc hl hf
  route es k hne hs := route_greatest hne hs k

/-- A leaf of four entries, of which one was updated and one deleted, before an
insertion. -/
def merged : Chain where
  deltas := [⟨.insert, 3, [9], ⟨0, 0, 7⟩⟩, ⟨.delete, 2, [4], ⟨DP_TOMBSTONE, 0, 0⟩⟩, ⟨.update, 1, [2], ⟨0, 0, 6⟩⟩]
  base :=
    { Base.leafNew with
      ents := .leaf [⟨[2], ⟨0, 0, 1⟩⟩, ⟨[4], ⟨0, 0, 2⟩⟩, ⟨[6], ⟨0, 0, 3⟩⟩, ⟨[8], ⟨0, 0, 4⟩⟩] }

/-- The index whose only leaf it is. -/
def mergedMap : State where
  map pid := ⟨if pid = 0 then some merged else none, false⟩
  nextPid := 1
  root := 0
  smoBusy := false
  consolidations := 0
  leafSplits := 0
  internalSplits := 0
  registered := true
  allocs := []

/-- The entries of an internal node. -/
def separated : List IdxEnt := [⟨.null 0, 1⟩, ⟨.copy [4], 2⟩, ⟨.copy [7], 3⟩]

theorem consolidation_merged :
    (∃ arr t', materializeLeaf never merged mergedMap = .ok (some arr, t') ∧ StrictlySorted arr ∧
      Finds arr [2] ⟨0, 0, 6⟩ ∧ Finds arr [9] ⟨0, 0, 7⟩ ∧ ∀ v, ¬Finds arr [4] v) ∧
    mergedMap.lookup [2] 1 0 = .ok (some ⟨0, 0, 6⟩) ∧ mergedMap.lookup [4] 1 0 = .ok none ∧
    ∃ (i : Nat) (e : IdxEnt), separated[i]? = some e ∧ route separated [5] = .ok e.child ∧ e.UpTo [5] := by
  have hsorted : StrictlySorted merged.base.lents := by
    unfold StrictlySorted
    decide +kernel
  obtain ⟨arr, t', harr⟩ := consolidation.materialized merged mergedMap
  obtain ⟨hs, hfinds⟩ := consolidation.materialize never merged mergedMap t' arr hsorted harr
  refine ⟨⟨arr, t', harr, hs, (hfinds _ _).mpr (by decide +kernel), (hfinds _ _).mpr (by decide +kernel),
      fun v hv => ?_⟩, consolidation.walk mergedMap 0 merged [2] 0 rfl rfl rfl,
    consolidation.walk mergedMap 0 merged [4] 0 rfl rfl rfl, ?_⟩
  · have := (hfinds _ _).mp hv
    rw [show merged.value [4] = none by decide +kernel] at this
    cases this
  · have hpairs : separated.Pairwise fun e f => e.sep.low < f.sep.low := by decide +kernel
    obtain ⟨i, e, he, hroute, ⟨hup, -⟩ | ⟨-, hno⟩⟩ := consolidation.route separated [5] (by simp [separated]) hpairs
    · exact ⟨i, e, he, hroute, hup⟩
    · exact absurd bot_le (hno ⟨.null 0, 1⟩ (by simp [separated]))

end Dlsmc.Index
