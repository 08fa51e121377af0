import Mathlib.Tactic.SplitIfs
import Dlsmc.Index.Node

/-!
# What a chain holds

`Chain.value` is the walk of `dlsm_index_get` on a leaf: the first delta of the
key, or else the entry that `base_find` finds. `Chain.live` is what
`materialize_leaf` makes of a leaf when it has the memory: the entries that are
not shadowed, sorted. The two agree (`Chain.mem_live`): the entries of `live`
are the keys with a value, in increasing order, so that a base with the entries
`live` has the same values as the chain (`Chain.value_of_live`).
-/

namespace Dlsmc.Index

/-- The keys of the entries increase. -/
def Sorted (es : List LeafEnt) : Prop := es.Pairwise fun e f => e.key < f.key

/-- The value that `base_find` finds. -/
def findEnt (es : List LeafEnt) (k : Key) : Option DeltaPointer :=
  (baseFind es k).bind fun i => es[i]?.map LeafEnt.val

/-- The value of a key in a leaf, as `dlsm_index_get` reads it. -/
def Chain.value (c : Chain) (k : Key) : Option DeltaPointer :=
  match findDelta c.deltas k with
  | some d => if d.op = .delete then none else some d.val
  | none => findEnt c.base.lents k

/-- The loop of `materialize_leaf` over the deltas, without allocations. -/
def liveDeltas : List Delta → List Key → List LeafEnt → List Key × List LeafEnt
  | [], seen, res => (seen, res)
  | d :: ds, seen, res =>
    if seenHas seen d.key then liveDeltas ds seen res
    else if d.op = .delete then liveDeltas ds (seen ++ [d.key]) res
    else liveDeltas ds (seen ++ [d.key]) (res ++ [⟨d.key, d.val⟩])

/-- The loop of `materialize_leaf` over the entries of the base. -/
def liveBase (seen : List Key) (es : List LeafEnt) : List LeafEnt := es.filter fun e => !seenHas seen e.key

/-- The entries of `materialize_leaf` before they are sorted. -/
def Chain.entries (c : Chain) : List LeafEnt :=
  (liveDeltas c.deltas [] []).2 ++ liveBase (liveDeltas c.deltas [] []).1 c.base.lents

/-- The entries that `materialize_leaf` returns. -/
def Chain.live (c : Chain) : List LeafEnt := qsort c.entries

/-! ## Binary search in a leaf -/

section

variable {es : List LeafEnt} {k : Key}

theorem baseFindLoop_some : ∀ {n : Nat} {lo hi : Int} {i : Nat}, baseFindLoop es k n lo hi = some i →
    ∃ e, es[i]? = some e ∧ e.key = k
  | 0, _, _, _, h => by cases h
  | n + 1, lo, hi, i, h => by
    simp only [baseFindLoop] at h
    split at h
    · split at h
      · cases h
      · rename_i e he
        split at h
        · rename_i hc
          cases h
          exact ⟨e, he, keycmp_eq_eq.mp hc⟩
        · exact baseFindLoop_some h
        · exact baseFindLoop_some h
    · cases h

theorem Sorted.getElem_lt (hs : Sorted es) {i j : Nat} (hij : i < j) (hj : j < es.length) :
    es[i].key < es[j].key := List.pairwise_iff_getElem.mp hs i j (hij.trans hj) hj hij

theorem Sorted.getElem_le (hs : Sorted es) {i j : Nat} (hij : i ≤ j) (hj : j < es.length) :
    es[i].key ≤ es[j].key := by
  rcases hij.lt_or_eq with h | rfl
  · exact (hs.getElem_lt h hj).le
  · exact le_rfl

/-- The loop misses no entry between `lo` and `hi`. -/
theorem baseFindLoop_none (hs : Sorted es) : ∀ {n : Nat} {lo hi : Int}, 0 ≤ lo → hi < es.length → hi - lo < n →
    baseFindLoop es k n lo hi = none → ∀ i (hi' : i < es.length), lo ≤ i → (i : Int) ≤ hi → es[i].key ≠ k
  | 0, lo, hi, _, _, hn, _, i, _, hl, hh => by omega
  | n + 1, lo, hi, hlo, hhi, hn, h, i, hi', hl, hh => by
    simp only [baseFindLoop] at h
    rw [if_pos (hl.trans hh)] at h
    obtain ⟨mid, hmid⟩ : ∃ mid : Nat, lo + (hi - lo) / 2 = mid := ⟨(lo + (hi - lo) / 2).toNat, by omega⟩
    have hlt : mid < es.length := by omega
    rw [hmid, Int.toNat_natCast, List.getElem?_eq_getElem hlt] at h
    simp only at h
    split at h
    · cases h
    · rename_i hc
      -- the entries up to `mid` are below the key
      by_cases him : i ≤ mid
      · exact ((hs.getElem_le him hlt).trans_lt (keycmp_eq_lt.mp hc)).ne
      · exact baseFindLoop_none hs (by omega) hhi (by omega) h i hi' (by omega) hh
    · rename_i hc
      by_cases him : mid ≤ i
      · exact ((keycmp_eq_gt.mp hc).trans_le (hs.getElem_le him hi')).ne'
      · exact baseFindLoop_none hs hlo (by omega) (by omega) h i hi' hl (by omega)

/-- In a sorted leaf, `base_find` finds the entries there are. -/
theorem findEnt_eq_some (hs : Sorted es) {v : DeltaPointer} : findEnt es k = some v ↔ ⟨k, v⟩ ∈ es := by
  constructor
  · intro h
    obtain ⟨i, hi, hv⟩ := Option.bind_eq_some_iff.mp h
    obtain ⟨e, he, rfl⟩ := baseFindLoop_some hi
    rw [he, Option.map_some, Option.some.injEq] at hv
    subst hv
    exact List.mem_of_getElem? he
  · intro hmem
    obtain ⟨j, hj, hje⟩ := List.mem_iff_getElem.mp hmem
    cases hf : baseFind es k with
    | none =>
      have := baseFindLoop_none hs le_rfl (by omega) (by omega) hf j hj (by omega) (by omega)
      rw [hje] at this
      exact absurd rfl this
    | some i =>
      obtain ⟨e, he, hek⟩ := baseFindLoop_some hf
      obtain ⟨hi, rfl⟩ := List.getElem?_eq_some_iff.mp he
      -- the keys of two entries differ
      have hij : i = j := by
        rcases lt_trichotomy i j with h | h | h
        · have := hs.getElem_lt h hj
          rw [hek, hje] at this
          exact absurd this (lt_irrefl k)
        · exact h
        · have := hs.getElem_lt h hi
          rw [hek, hje] at this
          exact absurd this (lt_irrefl k)
      subst hij
      simp [findEnt, hf, hj, hje]

end

/-! ## The keys seen -/

theorem seenHas_iff {seen : List Key} {k : Key} : seenHas seen k = true ↔ k ∈ seen := by
  simp only [seenHas, List.any_eq_true, beq_iff_eq, keycmp_eq_eq]
  refine ⟨fun h => ?_, fun h => ⟨k, h, rfl⟩⟩
  obtain ⟨_, hs, h⟩ := h
  exact h ▸ hs

theorem findDelta_cons (d : Delta) (ds : List Delta) (k : Key) :
    findDelta (d :: ds) k = if d.key = k then some d else findDelta ds k := by
  have hbeq : (keycmp d.key k == .eq) = decide (d.key = k) := Bool.eq_iff_iff.mpr (by simp)
  simp only [findDelta, List.find?_cons, hbeq]
  by_cases h : d.key = k <;> simp [h]

/-- What the deltas say of a key: nothing, or the value they give it. -/
def saidOf (ds : List Delta) (k : Key) : Option (Option DeltaPointer) :=
  (findDelta ds k).map fun d => if d.op = .delete then none else some d.val

theorem Chain.value_eq (c : Chain) (k : Key) : c.value k = (saidOf c.deltas k).getD (findEnt c.base.lents k) := by
  unfold Chain.value saidOf
  cases findDelta c.deltas k <;> rfl

theorem saidOf_cons (d : Delta) (ds : List Delta) (k : Key) :
    saidOf (d :: ds) k =
      if d.key = k then some (if d.op = .delete then none else some d.val) else saidOf ds k := by
  rw [saidOf, findDelta_cons]
  by_cases h : d.key = k
  · rw [if_pos h, if_pos h, Option.map_some]
  · rw [if_neg h, if_neg h, saidOf]

/-- What the loop over the deltas makes of `seen`. -/
theorem mem_liveDeltas_seen : ∀ {ds : List Delta} {seen : List Key} {res : List LeafEnt} {k : Key},
    k ∈ (liveDeltas ds seen res).1 ↔ k ∈ seen ∨ saidOf ds k ≠ none
  | [], seen, res, k => by simp [liveDeltas, saidOf, findDelta]
  | d :: ds, seen, res, k => by
    rw [saidOf_cons]
    simp only [liveDeltas]
    split
    · rename_i hd
      rw [seenHas_iff] at hd
      rw [mem_liveDeltas_seen]
      by_cases hk : d.key = k
      · simp [hk, hk ▸ hd]
      · simp [hk]
    · split <;>
      · rw [mem_liveDeltas_seen]
        by_cases hk : d.key = k
        · simp [hk]
        · simp [hk, Ne.symm hk]

/-- What the loop over the deltas adds to `res`: the keys not seen before that
the deltas give a value. -/
theorem mem_liveDeltas_res : ∀ {ds : List Delta} {seen : List Key} {res : List LeafEnt} {e : LeafEnt},
    e ∈ (liveDeltas ds seen res).2 ↔ e ∈ res ∨ e.key ∉ seen ∧ saidOf ds e.key = some (some e.val)
  | [], seen, res, e => by simp [liveDeltas, saidOf, findDelta]
  | d :: ds, seen, res, e => by
    rw [saidOf_cons]
    simp only [liveDeltas]
    split
    · rename_i hd
      rw [seenHas_iff] at hd
      rw [mem_liveDeltas_res]
      by_cases hk : d.key = e.key
      · simp [hk ▸ hd]
      · simp [hk]
    · rename_i hd
      rw [seenHas_iff] at hd
      split
      · rename_i hop
        rw [mem_liveDeltas_res]
        by_cases hk : d.key = e.key
        · simp [hk]
        · simp [hk, Ne.symm hk]
      · rename_i hop
        rw [mem_liveDeltas_res]
        by_cases hk : d.key = e.key
        · obtain ⟨k, v⟩ := e
          subst hk
          simp [hd, eq_comm]
        · have : e ≠ ⟨d.key, d.val⟩ := fun h => hk (h ▸ rfl)
          simp [hk, Ne.symm hk, this]

/-- The keys in `res` differ. -/
theorem nodup_liveDeltas : ∀ {ds : List Delta} {seen : List Key} {res : List LeafEnt},
    (res.map LeafEnt.key).Nodup → (∀ e ∈ res, e.key ∈ seen) → ((liveDeltas ds seen res).2.map LeafEnt.key).Nodup
  | [], _, _, hn, _ => hn
  | d :: ds, seen, res, hn, hseen => by
    simp only [liveDeltas]
    split
    · exact nodup_liveDeltas hn hseen
    · rename_i hd
      rw [seenHas_iff] at hd
      split
      · exact nodup_liveDeltas hn fun e he => List.mem_append_left _ (hseen e he)
      · refine nodup_liveDeltas ?_ fun e he => ?_
        · rw [List.map_append, List.nodup_append]
          refine ⟨hn, by simp, ?_⟩
          simp only [List.mem_map, List.map_cons, List.map_nil, List.mem_singleton]
          rintro _ ⟨e, he, rfl⟩ _ rfl heq
          exact hd (heq ▸ hseen e he)
        · rcases List.mem_append.mp he with he | he
          · exact List.mem_append_left _ (hseen e he)
          · rw [List.mem_singleton.mp he]
            simp

/-! ## The live entries -/

namespace Chain

variable {c : Chain}

/-- The entries are the keys with a value. -/
theorem mem_entries (hs : Sorted c.base.lents) {e : LeafEnt} : e ∈ c.entries ↔ c.value e.key = some e.val := by
  have hseen : e.key ∈ (liveDeltas c.deltas [] []).1 ↔ saidOf c.deltas e.key ≠ none := by
    simpa using @mem_liveDeltas_seen c.deltas [] [] e.key
  simp only [entries, List.mem_append, mem_liveDeltas_res, List.not_mem_nil, false_or, not_false_eq_true, true_and,
    liveBase, List.mem_filter, Bool.not_eq_true', ← Bool.not_eq_true, seenHas_iff, hseen, value_eq]
  cases saidOf c.deltas e.key with
  | none => simp [findEnt_eq_some hs]
  | some o => simp

theorem nodup_entries (hs : Sorted c.base.lents) : (c.entries.map LeafEnt.key).Nodup := by
  rw [entries, List.map_append, List.nodup_append]
  refine ⟨nodup_liveDeltas (by simp) (by simp), ?_, ?_⟩
  · have : (c.base.lents.map LeafEnt.key).Nodup := List.pairwise_map.mpr (hs.imp ne_of_lt)
    exact this.sublist ((List.filter_sublist).map _)
  · simp only [List.mem_map]
    rintro _ ⟨e, he, rfl⟩ _ ⟨f, hf, rfl⟩ heq
    -- the loop over the base leaves out the keys that the deltas speak of
    rw [mem_liveDeltas_res] at he
    simp only [liveBase, List.mem_filter, Bool.not_eq_true', ← Bool.not_eq_true, seenHas_iff,
      mem_liveDeltas_seen] at hf
    simp_all

theorem mem_live (hs : Sorted c.base.lents) {e : LeafEnt} : e ∈ c.live ↔ c.value e.key = some e.val := by
  rw [live, qsort, List.mem_insertionSort, mem_entries hs]

theorem lentCmp_le (e f : LeafEnt) : lentCmp e f ≠ .gt ↔ e.key ≤ f.key := by
  rw [lentCmp, ne_eq, keycmp_eq_gt, not_lt]

/-- `materialize_leaf` returns its entries in increasing order. -/
theorem sorted_live (hs : Sorted c.base.lents) : Sorted c.live := by
  have hle : c.live.Pairwise fun e f => lentCmp e f ≠ .gt := by
    have : Std.Total fun e f : LeafEnt => lentCmp e f ≠ .gt :=
      ⟨fun e f => by simpa only [lentCmp_le] using le_total e.key f.key⟩
    have : IsTrans LeafEnt fun e f => lentCmp e f ≠ .gt :=
      ⟨fun e f g => by simpa only [lentCmp_le] using le_trans⟩
    exact List.pairwise_insertionSort _ _
  have hne : c.live.Pairwise fun e f => e.key ≠ f.key := by
    have := nodup_entries hs
    rw [← ((List.perm_insertionSort (fun e f => lentCmp e f ≠ .gt) c.entries).map LeafEnt.key).nodup_iff] at this
    exact List.pairwise_map.mp this
  exact (hle.and hne).imp fun ⟨h, hn⟩ => lt_of_le_of_ne ((lentCmp_le _ _).mp h) hn

/-- Binary search in what `materialize_leaf` returns gives the values of the
chain. -/
theorem findEnt_live (hs : Sorted c.base.lents) (k : Key) : findEnt c.live k = c.value k := by
  ext v
  rw [findEnt_eq_some (sorted_live hs), mem_live hs]

/-- The values of a base without deltas. -/
theorem value_base (b : Base) (k : Key) : value ⟨[], b⟩ k = findEnt b.lents k := rfl

/-- A new delta gives its key its value, and changes no other. -/
theorem value_cons (d : Delta) (ds : List Delta) (b : Base) (k : Key) :
    value ⟨d :: ds, b⟩ k =
      if d.key = k then (if d.op = .delete then none else some d.val) else value ⟨ds, b⟩ k := by
  rw [value_eq, value_eq, saidOf_cons]
  split_ifs <;> rfl

/-- The part of the entries where a test on keys holds gives those keys their
values. -/
theorem findEnt_sublist (hs : Sorted c.base.lents) {es : List LeafEnt} (hsub : es.Sublist c.live) {k : Key}
    (hk : ∀ e ∈ c.live, e.key = k → e ∈ es) : findEnt es k = c.value k := by
  ext v
  rw [findEnt_eq_some ((sorted_live hs).sublist hsub), ← mem_live hs (e := ⟨k, v⟩)]
  exact ⟨fun h => hsub.subset h, fun h => hk _ h rfl⟩

end Chain

end Dlsmc.Index
