import Dlsmc.Index.SplitLeaf

/-!
# Writes and reads

`writeOp_spec`: from a tree with the values `m`, for a tolerable pattern, a
write ends in a tree with the values that the write leaves, or with the values
`m` when it returns `DLSM_INDEX_E_NOMEM`. It needs room in the map for the PIDs
it takes (`State.writeTakes`), and a chain at its cap must be drained in the
end (`Drains`). `indexGet_spec` is the same for a read.
-/

namespace Dlsmc.Index

open BLink

/-- The values after a write. -/
def written (m : Key → Option DeltaPointer) (op : DeltaOp) (k : Key) (v : DeltaPointer) : Key → Option DeltaPointer :=
  Function.update m k (if op = .delete then none else some v)

/-- What `dlsm_index_get` returns for a value. -/
def readOf : Option DeltaPointer → Status × Option DeltaPointer
  | none => (.notfound, none)
  | some v => (.ok, some v)

/-- A chain with the delta of a write. -/
def Chain.appended (c : Chain) (op : DeltaOp) (k : Key) (v : DeltaPointer) : Chain :=
  ⟨⟨op, c.depth + 1, k, v⟩ :: c.deltas, c.base⟩

/-- A write to the leaf splits it: the base it leaves has too many entries, and
so has the leaf. -/
def Chain.overflows (c : Chain) (op : DeltaOp) (k : Key) (v : DeltaPointer) : Bool :=
  let num :=
    if CHAIN_CAP ≤ c.depth then c.live.length
    else if CONSOLIDATE_DEPTH ≤ c.depth + 1 then (c.appended op k v).live.length
    else c.base.lents.length
  LEAF_MAX < num && LEAF_MAX < (c.appended op k v).live.length

/-- The PIDs that a write takes. -/
def State.writeTakes (t : State) (op : DeltaOp) (k : Key) (v : DeltaPointer) : Nat :=
  match t.pathTo k with
  | [] => 0
  | p :: ps =>
    match (t.map p).head with
    | none => 0
    | some c => if c.overflows op k v then 1 + t.cascade (p :: ps) else 0

/-- One of the consolidations of `c` that are tried from allocation number `n`
on, one after the other, finds its memory. -/
inductive Drains (ω : Pattern) (c : Chain) : Nat → Prop where
  | now {n : Nat} (h : attempt ω c n = none) : Drains ω c n
  | again {n n' : Nat} (h : attempt ω c n = some n') (hn : Drains ω c n') : Drains ω c n

/-- The states differ in the leaf `p` only. -/
structure Near (p : Pid) (t t' : State) : Prop where
  map : ∀ y, y ≠ p → t'.map y = t.map y
  nextPid : t'.nextPid = t.nextPid
  root : t'.root = t.root
  smoBusy : t'.smoBusy = t.smoBusy

variable {ω : Pattern} {t t' : State} {p : Pid} {c : Chain} {op : DeltaOp} {k : Key} {v : DeltaPointer}

namespace Near

theorem of_same (h : Same t t') : Near p t t' := ⟨fun _ _ => by rw [h.map], h.nextPid, h.root, h.smoBusy⟩

theorem setHead (o : Option Chain) : Near p t (t.setHead p o) := ⟨fun _ hy => State.setHead_of_ne hy, rfl, rfl, rfl⟩

theorem trans {t'' : State} (h : Near p t t') (h' : Near p t' t'') : Near p t t'' :=
  ⟨fun y hy => (h'.map y hy).trans (h.map y hy), h'.nextPid.trans h.nextPid, h'.root.trans h.root,
    h'.smoBusy.trans h.smoBusy⟩

end Near

/-! ## Chains -/

theorem Chain.value_appended (c : Chain) (k' : Key) :
    (c.appended op k v).value k' = if k = k' then (if op = .delete then none else some v) else c.value k' :=
  Chain.value_cons _ _ _ _

theorem Chain.value_consolidated (hs : Sorted c.base.lents) (low high : Bytes) (k : Key) :
    Chain.value ⟨[], c.consolidated low high⟩ k = c.value k := (Chain.value_base _ k).trans (Chain.findEnt_live hs k)

/-- Chains with the same values have the same live entries. -/
theorem Chain.live_congr {c c' : Chain} (hs : Sorted c.base.lents) (hs' : Sorted c'.base.lents)
    (h : ∀ k, c.value k = c'.value k) : c.live = c'.live := by
  have hmem : ∀ e, e ∈ c.live ↔ e ∈ c'.live := fun e => by rw [Chain.mem_live hs, Chain.mem_live hs', h]
  have hnd : ∀ {c : Chain}, Sorted c.base.lents → c.live.Nodup := fun hs =>
    (Chain.sorted_live hs).imp fun hlt heq => (heq ▸ hlt).false
  have hperm : c.live.Perm c'.live := (List.perm_ext_iff_of_nodup (hnd hs) (hnd hs')).mpr hmem
  exact hperm.eq_of_pairwise (fun a b _ _ h₁ h₂ => (h₁.asymm h₂).elim) (Chain.sorted_live hs) (Chain.sorted_live hs')

theorem Chain.deltas_ne_nil (h : CHAIN_CAP ≤ c.depth) : c.deltas ≠ [] := by
  intro hd
  rw [Chain.depth, hd] at h
  exact absurd h (by decide)

/-! ## The leaf of a write -/

section

variable {nd : Pid → Node Key Pid} {row : Nat → List Pid} {top : Nat} {m : Key → Option DeltaPointer}

theorem Inv.setConsolidated {pend : Option (Pending Key Pid)} (h : Inv (Lossy ω) t nd row top pend m) (hp : p ∈ row 0)
    (hc : (t.map p).head = some c) (hh : Holds (Lossy ω) (nd p) c) {low high : Bytes}
    (hlow : Lost ω c.base.lowFence low)
    (hhigh : Lost ω c.base.highFence high) :
    Inv (Lossy ω) (t.setHead p (some ⟨[], c.consolidated low high⟩)) nd row top pend m :=
  h.setLeaf hp (hh.consolidated (h.level (Nat.zero_le _) hp) (h.shape.leaf p hp) hlow hhigh)
    (fun k hk => (Chain.value_consolidated hh.sorted low high k).trans (h.values p hp c hc k hk)) fun _ _ => rfl

theorem Inv.setAppended {pend : Option (Pending Key Pid)} (h : Inv (Lossy ω) t nd row top pend m) (hp : p ∈ row 0)
    (hc : (t.map p).head = some c) (hh : Holds (Lossy ω) (nd p) c) (hk : (nd p).Covers k) :
    Inv (Lossy ω) (t.setHead p (some (c.appended op k v))) nd row top pend (written m op k v) := by
  refine h.setLeaf hp (hh.cons (h.level (Nat.zero_le _) hp) hk) (fun k' hk' => ?_) fun k' hk' => ?_
  · rw [c.value_appended]
    by_cases he : k = k'
    · subst he
      rw [if_pos rfl, written, Function.update_self]
    · rw [if_neg he, written, Function.update_of_ne (Ne.symm he)]
      exact h.values p hp c hc k' hk'
  · rw [written, Function.update_of_ne]
    rintro rfl
    exact hk' hk

/-- A delta is installed on the chain of the leaf, or the chain is left alone
for want of memory. -/
theorem installDelta_append (h : Inv (Lossy ω) t nd row top none m) (hp : p ∈ row 0)
    (hk : (nd p).Covers k) (hc : (t.map p).head = some c) (hdepth : ¬CHAIN_CAP ≤ c.depth) :
    Returns (fun fuel => installDelta ω op k v fuel p) t fun r t' => Near p t t' ∧
      (r = none ∧ Lossy ω ∧ Inv (Lossy ω) t' nd row top none m ∨
        r = some (p, c.depth + 1) ∧ (t'.map p).head = some (c.appended op k v) ∧
          Inv (Lossy ω) t' nd row top none (written m op k v)) := by
  obtain ⟨c', hl, hc', hh, hpf, -, -⟩ := h.at_leaf hp hk
  obtain rfl : c' = c := Option.some.inj (hc'.symm.trans hc)
  refine Returns.round ?_
  simp only [installDelta]
  refine Returns.bind_ends (Ends.get (Returns.bind_ends (Ends.lift hl ?_)))
  simp only [hpf, Bool.false_eq_true, if_false, if_neg hdepth]
  refine Returns.bind_ends (alloc_ends ?_)
  generalize hd : ω .delta t.clock = d
  refine Returns.bind_ends (keydup_ends fun kc hkc => Returns.of_ends ?_)
  have hs : Same t ((t.tick .delta).tick .deltaKey) := (Same.tick t).trans (.tick _)
  rcases hkc with rfl | ⟨hω', _, rfl⟩
  · cases d with
    | true => exact Ends.pure ⟨.of_same hs, .inl ⟨rfl, ⟨_, _, hd⟩, h.congr hs⟩⟩
    | false =>
      refine Ends.bind (Ends.modify (Ends.pure ⟨(Near.of_same hs).trans (.setHead _), .inr ⟨rfl, ?_, ?_⟩⟩))
      · exact State.setHead_self _
      · exact (h.setAppended hp hc hh hk).congr (hs.setHead p _)
  · refine Ends.mono (Q := fun r t' => r = none ∧ t' = (t.tick .delta).tick .deltaKey) ?_ ?_
    · cases d <;> exact Ends.pure ⟨rfl, rfl⟩
    · rintro _ _ ⟨rfl, rfl⟩
      exact ⟨.of_same hs, .inl ⟨rfl, hω', h.congr hs⟩⟩

/-- A chain at its cap is drained, and then gets the delta. The induction is on
the consolidations that are tried. -/
theorem installDelta_drain {n : Nat} (hdrain : Drains ω c n) (hdepth : CHAIN_CAP ≤ c.depth) (hp : p ∈ row 0)
    (hk : (nd p).Covers k) : ∀ {t : State}, t.clock = n → Inv (Lossy ω) t nd row top none m →
    (t.map p).head = some c →
    Returns (fun fuel => installDelta ω op k v fuel p) t fun r t' => Near p t t' ∧
      (r = none ∧ Lossy ω ∧ Inv (Lossy ω) t' nd row top none m ∨
        ∃ low high, r = some (p, 1) ∧
          (t'.map p).head = some (Chain.appended ⟨[], c.consolidated low high⟩ op k v) ∧
          Inv (Lossy ω) t' nd row top none (written m op k v)) := by
  induction hdrain with
  | now hatt =>
    rintro t rfl h hc
    obtain ⟨c', hl, hc', hh, hpf, hents, -⟩ := h.at_leaf hp hk
    obtain rfl : c' = c := Option.some.inj (hc'.symm.trans hc)
    have hleaf : c'.base.isLeaf = true := hh.kind.mpr (h.level (Nat.zero_le _) hp)
    refine Returns.round ?_
    simp only [installDelta]
    refine Returns.bind_ends (Ends.get (Returns.bind_ends (Ends.lift hl ?_)))
    simp only [hpf, Bool.false_eq_true, if_false, if_pos hdepth]
    refine Returns.bind_ends ((tryConsolidate_made (h.free p) hl (Chain.deltas_ne_nil hdepth) hleaf hatt).mono ?_)
    rintro _ t₁ ⟨low, high, hlow, hhigh, hs⟩
    have hhead : (t₁.map p).head = some ⟨[], c'.consolidated low high⟩ := by rw [hs.map, State.setHead_self]
    have h₁ := (h.setConsolidated hp hc hh hlow hhigh).congr hs
    refine (installDelta_append h₁ hp hk hhead (by simp [Chain.depth, CHAIN_CAP])).mono ?_
    rintro r t₂ ⟨hnear, hr⟩
    refine ⟨((Near.setHead _).trans (.of_same hs)).trans hnear, ?_⟩
    rcases hr with hr | ⟨hr, hhead₂, hinv⟩
    · exact .inl hr
    · exact .inr ⟨low, high, hr, hhead₂, hinv⟩
  | @again _ n' hatt _ ih =>
    rintro t rfl h hc
    obtain ⟨c', hl, hc', hh, hpf, hents, -⟩ := h.at_leaf hp hk
    obtain rfl : c' = c := Option.some.inj (hc'.symm.trans hc)
    have hleaf : c'.base.isLeaf = true := hh.kind.mpr (h.level (Nat.zero_le _) hp)
    refine Returns.round ?_
    simp only [installDelta]
    refine Returns.bind_ends (Ends.get (Returns.bind_ends (Ends.lift hl ?_)))
    simp only [hpf, Bool.false_eq_true, if_false, if_pos hdepth]
    refine Returns.bind_ends ((tryConsolidate_fails (h.free p) hl (Chain.deltas_ne_nil hdepth) hleaf hatt).mono ?_)
    rintro _ t₁ ⟨sites, rfl, hclock⟩
    have hs : Same t (t.after sites) := .after t sites
    exact (ih hclock (h.congr hs) hc).mono fun r t' ⟨hnear, hr⟩ => ⟨(Near.of_same hs).trans hnear, hr⟩

/-- The leaf `c` as a write leaves it: drained if it was at its cap, with the
delta. -/
def Settled (c c₁ : Chain) : Prop :=
  ¬CHAIN_CAP ≤ c.depth ∧ c₁ = c ∨ CHAIN_CAP ≤ c.depth ∧ ∃ low high, c₁ = ⟨[], c.consolidated low high⟩

theorem installDelta_spec (h : Inv (Lossy ω) t nd row top none m) (hp : p ∈ row 0) (hk : (nd p).Covers k)
    (hc : (t.map p).head = some c) (hdrain : CHAIN_CAP ≤ c.depth → Drains ω c t.clock) :
    Returns (fun fuel => installDelta ω op k v fuel p) t fun r t' => Near p t t' ∧
      (r = none ∧ Lossy ω ∧ Inv (Lossy ω) t' nd row top none m ∨
        ∃ c₁, Settled c c₁ ∧ r = some (p, c₁.depth + 1) ∧ (t'.map p).head = some (c₁.appended op k v) ∧
          Inv (Lossy ω) t' nd row top none (written m op k v)) := by
  by_cases hdepth : CHAIN_CAP ≤ c.depth
  · refine (installDelta_drain (hdrain hdepth) hdepth hp hk rfl h hc).mono ?_
    rintro r t' ⟨hnear, hr⟩
    refine ⟨hnear, hr.imp id ?_⟩
    rintro ⟨low, high, hr, hrest⟩
    exact ⟨_, .inr ⟨hdepth, low, high, rfl⟩, hr, hrest⟩
  · refine (installDelta_append h hp hk hc hdepth).mono ?_
    rintro r t' ⟨hnear, hr⟩
    exact ⟨hnear, hr.imp id fun hr => ⟨c, .inl ⟨hdepth, rfl⟩, hr⟩⟩

/-! ## The whole write -/

/-- The number of the first allocation of an operation after `ebr_slot`. -/
def State.slotClock (t : State) : Nat := if t.registered then t.clock else t.clock + 1

theorem ebrEnter_ends (hω : Tolerable ω) {Q : Unit → State → Prop}
    (h : ∀ t', Same t t' → t'.clock = t.slotClock → Q () t') : Ends (ebrEnter ω) t Q := by
  refine Ends.bind (Ends.get ?_)
  cases hr : t.registered with
  | true =>
    rw [if_pos rfl]
    exact Ends.pure (h t (.refl t) (by rw [State.slotClock, hr, if_pos rfl]))
  | false =>
    rw [if_neg (by simp)]
    refine Ends.bind (alloc_true (hω _ rfl) ?_)
    rw [if_pos rfl]
    exact Ends.modify (h _ ⟨rfl, rfl, rfl, rfl⟩ (by rw [State.slotClock, hr, if_neg (by simp)]; rfl))

/-- What the consolidation after the installation of the delta leaves. -/
def Collapsed (ω : Pattern) (c₂ c₃ : Chain) : Prop :=
  c₃ = c₂ ∧ (CONSOLIDATE_DEPTH ≤ c₂.depth → Lossy ω) ∨
    CONSOLIDATE_DEPTH ≤ c₂.depth ∧ ∃ low high, c₃ = ⟨[], c₂.consolidated low high⟩

theorem collapse_spec (h : Inv (Lossy ω) t nd row top none m) (hp : p ∈ row 0) (hc : (t.map p).head = some c)
    (hd : c.deltas ≠ []) :
    Ends (if CONSOLIDATE_DEPTH ≤ c.depth then tryConsolidate ω p else pure ()) t fun _ t' => Near p t t' ∧
      ∃ c₃, Collapsed ω c c₃ ∧ (t'.map p).head = some c₃ ∧ Inv (Lossy ω) t' nd row top none m := by
  by_cases hdepth : CONSOLIDATE_DEPTH ≤ c.depth
  · rw [if_pos hdepth]
    obtain ⟨c', hl, hc', hh⟩ := h.load (Nat.zero_le _) hp
    obtain rfl : c' = c := Option.some.inj (hc'.symm.trans hc)
    have hleaf : c'.base.isLeaf = true := hh.kind.mpr (h.level (Nat.zero_le _) hp)
    cases hatt : attempt ω c' t.clock with
    | some n =>
      refine (tryConsolidate_fails (h.free p) hl hd hleaf hatt).mono ?_
      rintro _ t' ⟨sites, rfl, -⟩
      have hs : Same t (t.after sites) := .after t sites
      exact ⟨.of_same hs, c', .inl ⟨rfl, fun _ => lossy_of_attempt hatt⟩, hc, h.congr hs⟩
    | none =>
      refine (tryConsolidate_made (h.free p) hl hd hleaf hatt).mono ?_
      rintro _ t' ⟨low, high, hlow, hhigh, hs⟩
      refine ⟨(Near.setHead _).trans (.of_same hs), _, .inr ⟨hdepth, low, high, rfl⟩, ?_, ?_⟩
      · rw [hs.map, State.setHead_self]
      · exact (h.setConsolidated hp hc hh hlow hhigh).congr hs
  · rw [if_neg hdepth]
    exact Ends.pure ⟨.of_same (.refl t), c, .inl ⟨rfl, fun hd => absurd hd hdepth⟩, hc, h⟩

/-- What a write makes of the leaf `c`, before it splits it. -/
def Became (ω : Pattern) (c : Chain) (op : DeltaOp) (k : Key) (v : DeltaPointer) (c' : Chain) : Prop :=
  ∃ c₁, Settled c c₁ ∧ Collapsed ω (c₁.appended op k v) c'

/-- The sizes of the leaf after a write, and that a write which goes on to split
it overflowed. -/
theorem overflows_of {c₁ c₃ : Chain} (hs : Sorted c.base.lents) (h₁ : Settled c c₁)
    (h₃ : Collapsed ω (c₁.appended op k v) c₃) :
    c₃.live = (c.appended op k v).live ∧
      (LEAF_MAX < c₃.base.lents.length → LEAF_MAX < c₃.live.length → c.overflows op k v = true) ∧
      (¬Lossy ω → c.overflows op k v = true → LEAF_MAX < c₃.base.lents.length) := by
  have hs₁ : Sorted c₁.base.lents := by
    rcases h₁ with ⟨-, rfl⟩ | ⟨-, low, high, rfl⟩
    · exact hs
    · exact Chain.sorted_live hs
  have hs₂ : Sorted (c₁.appended op k v).base.lents := hs₁
  have hlive₁ : (c₁.appended op k v).live = (c.appended op k v).live := by
    rcases h₁ with ⟨-, rfl⟩ | ⟨-, low, high, rfl⟩
    · rfl
    · refine Chain.live_congr hs₂ hs fun k' => ?_
      rw [Chain.value_appended, Chain.value_appended, Chain.value_consolidated hs]
  have hlive₃ : c₃.live = (c.appended op k v).live := by
    rcases h₃ with ⟨rfl, -⟩ | ⟨-, low, high, rfl⟩
    · exact hlive₁
    · have hbase := Chain.live_base (b := (c₁.appended op k v).consolidated low high) (Chain.sorted_live hs₂)
      exact hbase.trans hlive₁
  rw [hlive₃]
  simp only [Chain.overflows, Bool.and_eq_true, decide_eq_true_eq, true_and]
  rcases h₁ with ⟨hd, rfl⟩ | ⟨hd, low, high, rfl⟩
  · rw [if_neg hd]
    split
    · rename_i hc
      refine ⟨fun _ hlive => ⟨hlive, hlive⟩, fun hω h => ?_⟩
      rcases h₃ with ⟨-, hlossy⟩ | ⟨-, low, high, rfl⟩
      · exact absurd (hlossy hc) hω
      · exact h.1
    · rename_i hc
      rcases h₃ with ⟨rfl, -⟩ | ⟨hd₃, -⟩
      · exact ⟨fun hnum hlive => ⟨hnum, hlive⟩, fun _ h => h.1⟩
      · exact absurd hd₃ hc
  · rw [if_pos hd]
    rcases h₃ with ⟨rfl, -⟩ | ⟨hd₃, -⟩
    · exact ⟨fun hnum hlive => ⟨hnum, hlive⟩, fun _ h => h.1⟩
    · exact absurd hd₃ (by simp [Chain.appended, Chain.depth, CONSOLIDATE_DEPTH])

/-- A write, up to the split of the leaf, which is left to the caller of this
lemma: it changes the leaf only. -/
theorem writeOp_cases (hω : Tolerable ω) (h : Inv (Lossy ω) t nd row top none m) {key : Bytes}
    (hkey : key.arg = some k) {ps : List Pid} (hpath : Path nd t.root top 0 (p :: ps)) (hk : (nd p).Covers k)
    (hc : (t.map p).head = some c) (hdrain : CHAIN_CAP ≤ c.depth → Drains ω c t.slotClock)
    {Q : Status → State → Prop}
    (hnomem : ∀ t', Near p t t' → Lossy ω → Inv (Lossy ω) t' nd row top none m → Q .nomem t')
    (hok : ∀ t' c', Near p t t' → Inv (Lossy ω) t' nd row top none (written m op k v) → (t'.map p).head = some c' →
      Became ω c op k v c' → ¬LEAF_MAX < c'.base.lents.length → (¬Lossy ω → c.overflows op k v = false) → Q .ok t')
    (hsplit : ∀ t' c', Near p t t' → Inv (Lossy ω) t' nd row top none (written m op k v) → (t'.map p).head = some c' →
      Became ω c op k v c' → LEAF_MAX < c'.base.lents.length → (LEAF_MAX < c'.live.length → c.overflows op k v = true) →
      (¬LEAF_MAX < c'.live.length → c.overflows op k v = false) →
      Returns (fun fuel => splitLeaf ω fuel k) t' fun _ t'' => Q .ok t'') :
    Returns (fun fuel => writeOp ω fuel op key v) t Q := by
  have hp : p ∈ row 0 := hpath.head_mem h.shape
  obtain ⟨c', -, hc', hh, -⟩ := h.at_leaf hp hk
  obtain rfl : c' = c := Option.some.inj (hc'.symm.trans hc)
  simp only [writeOp, hkey]
  refine Returns.bind_ends (ebrEnter_ends hω fun t₁ hs hclock => ?_)
  have h₁ := h.congr hs
  have hc₁ : (t₁.map p).head = some c' := hs.map ▸ hc
  refine Returns.bind_ends (Ends.get ?_)
  obtain ⟨hroot, hcov⟩ := h₁.root_covers (k := k)
  obtain ⟨q, hq, hqk, hf⟩ := h₁.findLeaf_spec le_rfl hroot hcov
  obtain rfl : q = p := (h.shape.rows 0 (Nat.zero_le _)).unique hq hp hqk hk
  refine Returns.bind (Returns.lift ⟨top + 1, hf⟩ ?_)
  refine Returns.seq (installDelta_spec h₁ hp hk hc₁ fun hd => hclock ▸ hdrain hd) ?_
  rintro r t₂ ⟨hnear, hr⟩
  have hnear₂ : Near q t t₂ := (Near.of_same hs).trans hnear
  rcases hr with ⟨rfl, hlossy, hinv⟩ | ⟨c₁, hset, rfl, hc₂, hinv⟩
  · exact Returns.of_ends (Ends.pure (hnomem t₂ hnear₂ hlossy hinv))
  refine Returns.bind_ends ((collapse_spec hinv hp hc₂ (by simp [Chain.appended])).mono ?_)
  rintro _ t₃ ⟨hnear₃, c₃, hcol, hc₃, hinv₃⟩
  have hnear' := hnear₂.trans hnear₃
  obtain ⟨hlive, hover, hover'⟩ := overflows_of hh.sorted hset hcol
  have hlive₃ : c'.overflows op k v = true → LEAF_MAX < c₃.live.length := fun hov => by
    simp only [Chain.overflows, Bool.and_eq_true, decide_eq_true_eq] at hov
    exact hlive ▸ hov.2
  refine Returns.bind_ends (Ends.get ?_)
  obtain ⟨c'', hl₃, hc'', hh₃, -, hents₃, -⟩ := hinv₃.at_leaf hp hk
  obtain rfl : c'' = c₃ := Option.some.inj (hc''.symm.trans hc₃)
  refine Returns.bind_ends (Ends.lift hl₃ ?_)
  have hleaf : c''.base.isLeaf = true := hh₃.kind.mpr (hinv₃.level (Nat.zero_le _) hp)
  have hnum : c''.base.num = c''.base.lents.length := by simp [Base.num, Base.ients, hents₃]
  rw [hleaf, Bool.true_and, hnum]
  by_cases hfull : LEAF_MAX < c''.base.lents.length
  · simp only [decide_eq_true hfull, if_true]
    have hrest := hsplit t₃ c'' hnear' hinv₃ hc₃ ⟨c₁, hset, hcol⟩ hfull (hover hfull)
    refine Returns.bind ((hrest fun hn => ?_).mono fun _ t₄ hQ => Returns.of_ends (Ends.pure hQ))
    exact Bool.eq_false_iff.mpr fun hov => hn (hlive₃ hov)
  · simp only [decide_eq_false hfull]
    refine Returns.of_ends (Ends.pure (hok t₃ c'' hnear' hinv₃ hc₃ ⟨c₁, hset, hcol⟩ hfull fun hω' => ?_))
    exact Bool.eq_false_iff.mpr fun hov => hfull (hover' hω' hov)

/-- The way to a leaf is the same when only the leaf was changed. -/
theorem Inv.path_near (h : Inv (Lossy ω) t nd row top none m) {ps : List Pid} (hpath : Path nd t.root top 0 (p :: ps))
    (hk : (nd p).Covers k) (hnear : Near p t t') {m' : Key → Option DeltaPointer}
    (h' : Inv (Lossy ω) t' nd row top none m') :
    Path nd t'.root top 0 (p :: ps) ∧ t'.cascade (p :: ps) = t.cascade (p :: ps) ∧
      ∀ fuel > top, t'.descendWithPath k fuel t'.root [] = .ok (p :: ps) := by
  have hp := hpath.head_mem h.shape
  have hpath' : Path nd t'.root top 0 (p :: ps) := hnear.root ▸ hpath
  obtain ⟨q, qs, hqk, hq, -, hto⟩ := h'.exists_path k
  obtain rfl : q = p := (h'.shape.rows 0 (Nat.zero_le _)).unique (hq.head_mem h'.shape) hp hqk hk
  obtain rfl : ps = qs := hpath'.unique h'.shape hq
  refine ⟨hpath', State.cascade_congr fun y hy => ?_, hto⟩
  obtain ⟨ℓ, hℓ, hlt, hrow⟩ := hpath.tail_mem_row h.shape y hy
  exact hnear.map y fun e => absurd (h.shape.level_unique hℓ (Nat.zero_le _) (e ▸ hrow) hp) (by omega)

/-- A write: it leaves the tree with the values it wrote, or as it was when
there is no memory for its delta. -/
theorem writeOp_spec (hω : Tolerable ω) (h : Inv (Lossy ω) t nd row top none m) (hbusy : t.smoBusy = false)
    {key : Bytes} (hkey : key.arg = some k)
    (hdrain : ∀ p ps c, t.pathTo k = p :: ps → (t.map p).head = some c → CHAIN_CAP ≤ c.depth → Drains ω c t.slotClock)
    (hcap : t.nextPid + t.writeTakes op k v ≤ MAP_CAP) :
    Returns (fun fuel => writeOp ω fuel op key v) t fun st t' => t'.smoBusy = false ∧
      (st = .ok ∧ (∃ nd' row' top', Inv (Lossy ω) t' nd' row' top' none (written m op k v)) ∨
        st = .nomem ∧ Lossy ω ∧ ∃ nd' row' top', Inv (Lossy ω) t' nd' row' top' none m) := by
  obtain ⟨p, ps, hk, hpath, hto, -⟩ := h.exists_path k
  obtain ⟨c, -, hc, -⟩ := h.at_leaf (hpath.head_mem h.shape) hk
  refine writeOp_cases hω h hkey hpath hk hc (hdrain p ps c hto hc) (fun t' hnear hlossy hinv => ?_)
    (fun t' c' hnear hinv _ _ _ _ => ?_) fun t' c' hnear hinv hc' _ _ hover _ => ?_
  · exact ⟨hnear.smoBusy.trans hbusy, .inr ⟨rfl, hlossy, nd, row, top, hinv⟩⟩
  · exact ⟨hnear.smoBusy.trans hbusy, .inl ⟨rfl, nd, row, top, hinv⟩⟩
  · obtain ⟨hpath', hcas, hto'⟩ := h.path_near hpath hk hnear hinv
    refine (splitLeaf_spec hω hinv (hnear.smoBusy.trans hbusy) hpath' hto' hc' fun hlive => ?_).mono ?_
    · rw [State.writeTakes, hto] at hcap
      simp only [hc, hover hlive, if_true] at hcap
      rw [hnear.nextPid, hcas]
      exact hcap
    · rintro _ t₄ ⟨hex, hbusy₄⟩
      exact ⟨hbusy₄, .inl ⟨rfl, hex⟩⟩

/-- A read returns the value of the key. -/
theorem indexGet_spec (hω : Tolerable ω) (h : Inv (Lossy ω) t nd row top none m) {key : Bytes}
    (hkey : key.arg = some k) :
    Returns (fun fuel => indexGet ω fuel key) t fun r t' => Same t t' ∧
      r = readOf (m k) := by
  simp only [indexGet, hkey]
  refine Returns.bind_ends (ebrEnter_ends hω fun t₁ hs _ => ?_)
  have h₁ := h.congr hs
  refine Returns.bind_ends (Ends.get ?_)
  obtain ⟨hroot, hcov⟩ := h₁.root_covers (k := k)
  refine Returns.bind (Returns.lift ⟨top + 1, h₁.lookup_spec le_rfl hroot hcov⟩ ?_)
  cases m k with
  | none => exact Returns.of_ends (Ends.pure ⟨hs, rfl⟩)
  | some v => exact Returns.of_ends (Ends.pure ⟨hs, rfl⟩)

end

end Dlsmc.Index
