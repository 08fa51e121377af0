import Mathlib.Algebra.Order.BigOperators.Group.List
import Dlsmc.Index.TreeShape

/-!
# The index is a map

Whatever calls are made on a new index, one after the other, it holds for every
key what the last write of the key left (`lastWrite`): `dlsm_index_get` returns
it, and `dlsm_index_stats_get` counts the keys that have a value. Both go
through the tree in their own way, the one along the separators and the
right siblings, the other from every entry to its child (`countLive_spec`); the
leaves that the second one reaches are the row of the leaves, and cover the
keys (`Inv.liveKeys_spec`).
-/

namespace Dlsmc.Index

open BLink

/-- The key that a call writes, with the value that it leaves there; a null key
with a length is not written. -/
def Call.writes (c : Call) : Option (Key × Option DeltaPointer) :=
  c.write.bind fun (op, key, v) => key.arg.map fun k => (k, if op = .delete then none else some v)

/-- The value that the last write of the key left; `none` when there is no write
of it, or the last one was a delete. -/
def lastWrite (cs : List Call) (k : Key) : Option DeltaPointer :=
  ((cs.filterMap Call.writes).reverse.find? fun w => decide (w.1 = k)).bind Prod.snd

/-- The calls, made one after the other on `t₀`, lead to `t`. -/
inductive Leads (t₀ : State) : List Call → State → Prop where
  | nil : Leads t₀ [] t₀
  | snoc {t t' : State} {cs : List Call} {c : Call} {r : Status × Option DeltaPointer} (h : Leads t₀ cs t)
    (he : Executes never c t r t') : Leads t₀ (cs ++ [c]) t'

/-- `dlsm_index_stats_get` reports `live` for `live_keys`. -/
def Reports (t : State) (live : Nat) : Prop :=
  ∃ stats t', (∃ N, ∀ fuel ≥ N, indexStatsGet never fuel t = .ok (stats, t')) ∧ stats.liveKeys = live

variable {t t' : State} {nd : Pid → Node Key Pid} {row : Nat → List Pid} {top ℓ : Nat}
  {m : Key → Option DeltaPointer} {p : Pid} {k : Key}

/-! ## The values -/

theorem lastWrite_snoc (cs : List Call) (c : Call) : lastWrite (cs ++ [c]) = c.apply .ok (lastWrite cs) := by
  funext k
  have happly : ∀ m : Key → Option DeltaPointer, c.apply .ok m k =
      match c.writes with
      | some w => if w.1 = k then w.2 else m k
      | none => m k := by
    intro m
    unfold Call.apply Call.writes
    cases c.write with
    | none => rfl
    | some w =>
      obtain ⟨op, key, v⟩ := w
      dsimp only [Option.bind_some]
      cases key.arg with
      | none => rfl
      | some k' =>
        dsimp only [Option.map_some]
        by_cases h : k' = k
        · subst h
          rw [if_pos rfl, written, Function.update_self]
        · rw [if_neg h, written, Function.update_of_ne (Ne.symm h)]
  rw [happly]
  unfold lastWrite
  rw [List.filterMap_append]
  cases hc : c.writes with
  | none => simp [hc]
  | some w =>
    by_cases h : w.1 = k
    · simp [hc, h]
    · simp [hc, h]

/-- A call that ends as documented leaves the values as if it had been made
without a fault. -/
theorem Call.apply_of_documented {c : Call} {r : Status × Option DeltaPointer} (h : c.Documented never t t' m r) :
    c.apply r.1 m = c.apply .ok m := by
  cases hc : c.write with
  | none => simp only [Call.apply, hc]
  | some w =>
    obtain ⟨op, key, v⟩ := w
    rw [Call.documented_write hc] at h
    cases hkey : key.arg with
    | none =>
      rw [h.2 hkey]
      simp only [Call.apply, hc, hkey]
    | some k =>
      rcases h.1 k hkey with hr | ⟨-, hdenied⟩
      · rw [hr]
      · exact absurd hdenied not_denied_never

theorem Leads.unique {t₀ : State} {cs : List Call} (h : Leads t₀ cs t) : ∀ {t'}, Leads t₀ cs t' → t = t' := by
  induction h with
  | nil =>
    intro t' h'
    generalize hcs : ([] : List Call) = cs at h'
    cases h' with
    | nil => rfl
    | snoc _ _ => simp at hcs
  | @snoc t₁ t₂ cs c r _ he ih =>
    intro t' h'
    generalize hcs : cs ++ [c] = cs' at h'
    cases h' with
    | nil => simp at hcs
    | snoc h'' he' =>
      obtain ⟨rfl, hc⟩ := List.append_inj' hcs rfl
      obtain rfl := (List.cons.inj hc).1
      obtain rfl := ih h''
      exact (he.unique he').2

/-- The calls lead to a tree with the values of the last writes, if none of them
exhausts the map. -/
theorem Leads.standing {t₀ : State} (hnew : indexNew never = some t₀) : ∀ {cs : List Call},
    (∀ cs' t, cs' <+: cs → Leads t₀ cs' t → t.nextPid ≤ MAP_CAP) → ∃ t, Leads t₀ cs t ∧ Standing t (lastWrite cs) := by
  intro cs
  induction cs using List.reverseRecOn with
  | nil => exact fun _ => ⟨t₀, .nil, standing_new hnew⟩
  | append_singleton cs c ih =>
    intro hroom
    obtain ⟨t, hl, hs⟩ := ih fun cs' t hpre hl => hroom cs' t (hpre.trans (List.prefix_append _ _)) hl
    obtain ⟨r, t', he, hdoc, hs'⟩ := hs.call fun r t' he => hroom _ t' (List.prefix_refl _) (hl.snoc he)
    refine ⟨t', hl.snoc he, ?_⟩
    rw [lastWrite_snoc, ← Call.apply_of_documented hdoc]
    exact hs'

/-! ## The count -/

/-- The live entries of a leaf. -/
def State.liveAt (t : State) (p : Pid) : List LeafEnt := (t.node p).live

theorem le_sum_of_mem {n : Nat} {l : List Nat} (h : n ∈ l) : n ≤ l.sum := by
  obtain ⟨a, b, rfl⟩ := List.append_of_mem h
  rw [List.sum_append, List.sum_cons]
  omega

/-- The loop of `count_live` over the entries of an internal node. -/
theorem foldlM_count {f : Pid → Nat} : ∀ {es : List IdxEnt}, (∀ e ∈ es, ∀ t', Same t t' →
      Returns (fun n => countLive never n e.child) t' fun r t'' => Same t t'' ∧ r = f e.child) →
    ∀ {s : Nat} {t' : State}, s + (es.map (f ∘ IdxEnt.child)).sum < 2 ^ 64 → Same t t' →
    Returns (fun n => es.foldlM (fun s e => do pure ((s + (← countLive never n e.child)) % 2 ^ 64)) s) t' fun r t'' =>
      Same t t'' ∧ r = s + (es.map (f ∘ IdxEnt.child)).sum
  | [], _, s, t', _, hs => Returns.of_ends (Ends.pure ⟨hs, rfl⟩)
  | e :: es, hkid, s, t', hlt, hs => by
    simp only [List.foldlM_cons, List.map_cons, List.sum_cons, Function.comp_apply] at hlt ⊢
    refine Returns.bind (Returns.seq (hkid e (by simp) t' hs) ?_)
    rintro r t₁ ⟨h₁, rfl⟩
    refine Returns.of_ends (Ends.pure ?_)
    rw [Nat.mod_eq_of_lt (by omega)]
    refine (foldlM_count (fun e' he' => hkid e' (List.mem_cons_of_mem _ he')) (by omega) h₁).mono ?_
    rintro r t₂ ⟨h₂, rfl⟩
    exact ⟨h₂, by omega⟩

/-- `count_live` counts the live entries of the leaves below a node, if there
are not too many for its 64 bits. The induction goes down the levels. -/
theorem countLive_spec (h : Inv False t nd row top none m) : ∀ {ℓ : Nat} {p : Pid} {t' : State}, ℓ ≤ top → p ∈ row ℓ →
    tally nd (fun q => (t.liveAt q).length) ℓ p < 2 ^ 64 → Same t t' →
    Returns (fun n => countLive never n p) t' fun r t'' =>
      Same t t'' ∧ r = tally nd (fun q => (t.liveAt q).length) ℓ p := by
  intro ℓ
  induction ℓ with
  | zero =>
    intro p t' hℓ hp _ hs
    obtain ⟨hl, -, hh⟩ := h.node hℓ hp
    refine Returns.round ?_
    simp only [countLive]
    refine Returns.bind_ends (Ends.get (Returns.bind_ends (Ends.lift ((hs.loadHead p).trans hl) ?_)))
    simp only [hh.leaf_ents (h.level hℓ hp)]
    refine Returns.of_ends (Ends.bind (materializeLeaf_ends (fun t₁ h₁ => ?_) fun _ _ hlossy =>
      absurd hlossy not_lossy_never))
    exact Ends.pure ⟨hs.trans h₁, rfl⟩
  | succ ℓ ih =>
    intro p t' hℓ hp hlt hs
    obtain ⟨hl, -, hh⟩ := h.node hℓ hp
    have hne : (nd p).level ≠ 0 := by rw [h.level hℓ hp]; omega
    have hkids : (nd p).kids = (t.node p).base.ients.map IdxEnt.child := by
      rw [Node.kids, ← hh.ents, List.map_map]
      rfl
    have hmem : ∀ e ∈ (t.node p).base.ients, e.child ∈ row ℓ := fun e he =>
      h.shape.kid_mem hℓ hp (hkids ▸ List.mem_map_of_mem he)
    simp only [tally, hkids, List.map_map] at hlt ⊢
    refine Returns.round ?_
    simp only [countLive]
    refine Returns.bind_ends (Ends.get (Returns.bind_ends (Ends.lift ((hs.loadHead p).trans hl) ?_)))
    simp only [hh.inner_ents hne]
    have hkid : ∀ e ∈ (t.node p).base.ients, ∀ t₁, Same t t₁ → Returns (fun n => countLive never n e.child) t₁
        fun r t'' => Same t t'' ∧ r = tally nd (fun q => (t.liveAt q).length) ℓ e.child := fun e he t₁ h₁ =>
      ih (Nat.le_of_succ_le hℓ) (hmem e he) ((le_sum_of_mem (List.mem_map_of_mem he)).trans_lt hlt) h₁
    refine (foldlM_count hkid (by omega) hs).mono ?_
    rintro r t'' ⟨h'', rfl⟩
    exact ⟨h'', Nat.zero_add _⟩

/-- The live keys, from left to right. -/
def liveKeys (t : State) (row : Nat → List Pid) : List Key :=
  (row 0).flatMap fun q => (t.liveAt q).map LeafEnt.key

namespace Inv

variable (h : Inv False t nd row top none m)
include h

/-- The live keys are the keys with a value, each once. -/
theorem liveKeys_spec : (liveKeys t row).Nodup ∧ ∀ k, k ∈ liveKeys t row ↔ m k ≠ none := by
  have hrow := h.shape.rows 0 (Nat.zero_le _)
  have hnode : ∀ q ∈ row 0, (t.map q).head = some (t.node q) ∧ Holds False (nd q) (t.node q) := fun q hq =>
    (h.node (Nat.zero_le _) hq).2
  have hcov : ∀ q ∈ row 0, ∀ k ∈ (t.liveAt q).map LeafEnt.key, (nd q).Covers k := by
    intro q hq k hk
    obtain ⟨e, he, rfl⟩ := List.mem_map.mp hk
    exact (hnode q hq).2.live_covers he
  constructor
  · refine List.nodup_flatMap.mpr ⟨fun q hq => ?_, hrow.nodup.imp_of_mem fun {p q} hp hq hne k hkp hkq => ?_⟩
    · exact List.pairwise_map.mpr ((Chain.sorted_live (hnode q hq).2.sorted).imp ne_of_lt)
    · exact hne (hrow.unique hp hq (hcov p hp k hkp) (hcov q hq k hkq))
  · intro k
    simp only [liveKeys, List.mem_flatMap]
    constructor
    · rintro ⟨q, hq, hk⟩
      have hc := hcov q hq k hk
      obtain ⟨e, he, rfl⟩ := List.mem_map.mp hk
      rw [← h.values q hq _ (hnode q hq).1 e.key hc, (Chain.mem_live (hnode q hq).2.sorted).mp he]
      nofun
    · intro hk
      obtain ⟨v, hv⟩ := Option.ne_none_iff_exists'.mp hk
      -- a leaf covers the key
      obtain ⟨q, hq, hqk⟩ := hrow.exists_covers (h.shape.row_ne_nil 0 (Nat.zero_le _)) k
      refine ⟨q, hq, List.mem_map.mpr ⟨⟨k, v⟩, (Chain.mem_live (hnode q hq).2.sorted).mpr ?_, rfl⟩⟩
      exact (h.values q hq _ (hnode q hq).1 k hqk).trans hv

/-- The live entries are fewer than a count of 64 bits holds. -/
theorem sum_live_lt (hs : AllSized t) : ((row 0).map fun q => (t.liveAt q).length).sum < 2 ^ 64 := by
  have hlen : (row 0).length ≤ MAP_CAP := by
    have hsub : row 0 ⊆ List.range MAP_CAP := fun p hp =>
      List.mem_range.mpr ((h.bound 0 (Nat.zero_le _) p hp).trans_le h.cap)
    have := ((h.shape.rows 0 (Nat.zero_le _)).nodup.subperm hsub).length_le
    rwa [List.length_range] at this
  have hmax : ∀ n ∈ (row 0).map fun q => (t.liveAt q).length, n ≤ LEAF_MAX + CONSOLIDATE_DEPTH := by
    intro n hn
    obtain ⟨q, hq, rfl⟩ := List.mem_map.mp hn
    have hsized := hs q _ (h.node (Nat.zero_le _) hq).2.1
    exact (Chain.live_length_le _).trans (Nat.add_le_add hsized.leaf hsized.short.le)
  have hsum := List.sum_le_card_nsmul _ _ hmax
  rw [List.length_map] at hsum
  change _ ≤ (row 0).length * (LEAF_MAX + CONSOLIDATE_DEPTH) at hsum
  simp only [LEAF_MAX, CONSOLIDATE_DEPTH, MAP_CAP] at *
  omega

omit h in
theorem length_liveKeys : (liveKeys t row).length = ((row 0).map fun q => (t.liveAt q).length).sum := by
  rw [liveKeys, List.length_flatMap]
  simp only [List.length_map]

theorem reports (hlt : (liveKeys t row).length < 2 ^ 64) : Reports t (liveKeys t row).length := by
  have hlen : (liveKeys t row).length = tally nd (fun q => (t.liveAt q).length) top t.root :=
    length_liveKeys.trans (h.shape.tally_root _).symm
  rw [hlen] at hlt
  have hroot := h.shape.root_mem
  obtain ⟨hl, -, -⟩ := h.node (Nat.le_refl _) hroot
  have hret : Returns (fun fuel => indexStatsGet never fuel) t fun r _ => r.liveKeys = (liveKeys t row).length := by
    simp only [indexStatsGet]
    refine Returns.bind_ends (Ends.get (Returns.bind_ends (Ends.lift hl ?_)))
    refine Returns.seq (countLive_spec h (Nat.le_refl _) hroot hlt (.refl t)) ?_
    rintro r t'' ⟨-, rfl⟩
    exact Returns.of_ends (Ends.pure hlen.symm)
  obtain ⟨stats, t', hrun, hlive⟩ := hret
  exact ⟨stats, t', hrun, hlive⟩

end Inv

/-- The sequential oracle of the index. -/
theorem oracle {t₀ : State} (hnew : indexNew never = some t₀) {cs : List Call}
    (hroom : ∀ cs' t, cs' <+: cs → Leads t₀ cs' t → t.nextPid ≤ MAP_CAP) :
    ∃ t, (∀ t', Leads t₀ cs t' ↔ t' = t) ∧
      (∀ key k, key.arg = some k → Reads t key (readOf (lastWrite cs k))) ∧
      ∃ keys : List Key, keys.Nodup ∧ (∀ k, k ∈ keys ↔ lastWrite cs k ≠ none) ∧ Reports t keys.length := by
  obtain ⟨t, hl, hs⟩ := Leads.standing hnew hroom
  obtain ⟨⟨⟨nd, row, top, hinv⟩, -⟩, hsized⟩ := hs
  have hinv' := hinv.mono not_lossy_never
  refine ⟨t, fun t' => ⟨fun hl' => hl'.unique hl, fun h => h ▸ hl⟩, fun key k hkey => hinv'.reads hkey, ?_⟩
  obtain ⟨hnd, hmem⟩ := hinv'.liveKeys_spec
  exact ⟨liveKeys t row, hnd, hmem, hinv'.reports (Inv.length_liveKeys ▸ hinv'.sum_live_lt hsized)⟩

/-- Calls that were run lead to the state they ended in. -/
theorem Leads.calls {t₀ : State} {n : Nat} {ok : State → Call → Bool} : ∀ {cs cs' : List Call} {t t' : State},
    Leads t₀ cs t → calls never n ok cs' t = some t' → Leads t₀ (cs ++ cs') t'
  | cs, [], t, t', h, hcs => by
    cases hcs
    rwa [List.append_nil]
  | cs, c :: cs', t, t', h, hcs => by
    obtain ⟨r, t₁, -, he, hcs⟩ := calls_cons hcs
    rw [← List.singleton_append, ← List.append_assoc]
    exact Leads.calls (h.snoc he) hcs

theorem oracle_splitCalls : ∃ t₀, indexNew never = some t₀ ∧ ∃ t, ∃ keys : List Key,
    Leads t₀ splitCalls t ∧ Reads t (.copy [14]) (.ok, some ⟨0, 0, 0⟩) ∧
      Reads t (.copy [7]) (.notfound, none) ∧ keys.Nodup ∧ Reports t keys.length := by
  obtain ⟨t₀, h₀⟩ : ∃ t, indexNew never = some t := ⟨_, rfl⟩
  have hall : ∀ i ≤ 41, (match calls never 3 (fun _ _ => true) (splitCalls.take i) t₀ with
      | some t => decide (t.nextPid ≤ MAP_CAP)
      | none => false) = true := by
    cases h₀
    decide +kernel
  obtain ⟨t, hl, hreads, keys, hnd, -, hrep⟩ :=
    @oracle _ h₀ splitCalls fun cs' t hpre hl => by
      have hi := hall cs'.length (hpre.length_le.trans_eq rfl)
      rw [← List.prefix_iff_eq_take.mp hpre] at hi
      cases hc : calls never 3 (fun _ _ => true) cs' t₀ with
      | none =>
        rw [hc] at hi
        cases hi
      | some t₁ =>
        rw [hc] at hi
        obtain rfl := hl.unique (.calls .nil hc)
        exact of_decide_eq_true hi
  refine ⟨t₀, h₀, t, keys, (hl t).mpr rfl, ?_, ?_, hnd, hrep⟩
  · exact hreads (.copy [14]) [14] rfl
  · exact hreads (.copy [7]) [7] rfl

end Dlsmc.Index
