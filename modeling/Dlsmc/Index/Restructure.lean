import Dlsmc.Index.Descent
import Dlsmc.Index.Rebuild

/-!
# Changes of the map that keep the tree

The changes of the map that the operations make, and the tree that the map holds
after them: a leaf gets another chain (`Inv.setLeaf`), a node is split
(`Inv.splitNode`), the separator of a split goes to the parent
(`Inv.insertSep`) or to a new root (`Inv.growRoot`).
-/

namespace Dlsmc.Index

open BLink

variable {t t' : State} {p q x : Pid} {c : Chain}

/-! ## The map -/

namespace State

@[simp] theorem setHead_self (o : Option Chain) : ((t.setHead p o).map p).head = o := by
  simp only [setHead, Function.update_self]

theorem setHead_of_ne {o : Option Chain} (h : x ≠ p) : (t.setHead p o).map x = t.map x := by
  simp only [setHead, Function.update_of_ne h]

@[simp] theorem setHead_consolidating (o : Option Chain) :
    ((t.setHead p o).map x).consolidating = (t.map x).consolidating := by
  by_cases h : x = p
  · subst h
    simp only [setHead, Function.update_self]
  · rw [setHead_of_ne h]

@[simp] theorem setHead_nextPid (o : Option Chain) : (t.setHead p o).nextPid = t.nextPid := rfl

@[simp] theorem setHead_root (o : Option Chain) : (t.setHead p o).root = t.root := rfl

@[simp] theorem setHead_smoBusy (o : Option Chain) : (t.setHead p o).smoBusy = t.smoBusy := rfl

@[simp] theorem bindPid_root : (t.bindPid c).root = t.root := by
  unfold bindPid
  dsimp only
  split <;> rfl

@[simp] theorem bindPid_smoBusy : (t.bindPid c).smoBusy = t.smoBusy := by
  unfold bindPid
  dsimp only
  split <;> rfl

@[simp] theorem bindPid_consolidating : ((t.bindPid c).map x).consolidating = (t.map x).consolidating := by
  unfold bindPid
  dsimp only
  split
  · rfl
  · exact setHead_consolidating _

theorem bindPid_nextPid (h : t.nextPid ≤ MAP_CAP + MAP_CAP) : (t.bindPid c).nextPid = t.nextPid + 1 := by
  have : (t.nextPid + 1) % 2 ^ 32 = t.nextPid + 1 := Nat.mod_eq_of_lt (by simp only [MAP_CAP] at h; omega)
  unfold bindPid
  dsimp only
  split
  · exact this
  · exact this

theorem freshPid_of_lt (h : t.nextPid < MAP_CAP) : t.freshPid = t.nextPid := by rw [freshPid, if_neg (Nat.not_le.mpr h)]

theorem bindPid_self (h : t.nextPid < MAP_CAP) : ((t.bindPid c).map t.nextPid).head = some c := by
  unfold bindPid
  dsimp only
  rw [if_neg (Nat.not_le.mpr h)]
  exact setHead_self _

theorem bindPid_of_ne (h : x ≠ t.nextPid) : (t.bindPid c).map x = t.map x := by
  unfold bindPid
  dsimp only
  split
  · rfl
  · exact setHead_of_ne h

end State

/-! ## The tree -/

namespace Inv

variable {lossy : Prop} {nd : Pid → Node Key Pid} {row : Nat → List Pid} {top ℓ a b : Nat} {es : List LeafEnt}
  {pend : Option (Pending Key Pid)} {m m' : Key → Option DeltaPointer}

theorem congr (h : Inv lossy t nd row top pend m) (hs : Same t t') : Inv lossy t' nd row top pend m where
  shape := hs.root ▸ h.shape
  bound := hs.nextPid ▸ h.bound
  cap := hs.nextPid ▸ h.cap
  holds := hs.map ▸ h.holds
  values := hs.map ▸ h.values
  free := hs.map ▸ h.free

/-- The tree depends on the heads of its nodes and on the root. -/
theorem transport (h : Inv lossy t nd row top pend m)
    (hhead : ∀ ℓ ≤ top, ∀ p ∈ row ℓ, (t'.map p).head = (t.map p).head) (hroot : t'.root = t.root)
    (hbound : ∀ ℓ ≤ top, ∀ p ∈ row ℓ, p < t'.nextPid) (hcap : t'.nextPid ≤ MAP_CAP)
    (hfree : ∀ p, (t'.map p).consolidating = false) : Inv lossy t' nd row top pend m where
  shape := hroot ▸ h.shape
  bound := hbound
  cap := hcap
  holds ℓ hℓ p hp := hhead ℓ hℓ p hp ▸ h.holds ℓ hℓ p hp
  values p hp c hc := h.values p hp c (hhead 0 (Nat.zero_le _) p hp ▸ hc)
  free := hfree

/-- A tree of one leaf. -/
theorem single (hc : (t.map t.root).head = some c) (hents : c.base = ⟨0, .leaf es, .null a, .null b, PID_NULL⟩)
    (hs : Sorted es) (hroot : t.root < t.nextPid) (hcap : t.nextPid ≤ MAP_CAP)
    (hfree : ∀ p, (t.map p).consolidating = false) :
    Inv lossy t (fun _ => ⟨0, ⊥, ⊤, PID_NULL, []⟩) (fun ℓ => if ℓ = 0 then [t.root] else []) 0 none c.value where
  shape := .single
  bound ℓ hℓ p hp := by
    obtain rfl := Nat.le_zero.mp hℓ
    rwa [List.mem_singleton.mp hp]
  cap := hcap
  holds ℓ hℓ p hp := by
    obtain rfl := Nat.le_zero.mp hℓ
    rw [List.mem_singleton.mp hp]
    have hcov : ∀ k, Node.Covers (⟨0, ⊥, ⊤, PID_NULL, []⟩ : Node Key Pid) k := fun k => ⟨bot_le, WithTop.coe_lt_top k⟩
    exact ⟨c, hc,
      { level := by rw [hents]
        right := by rw [hents]
        low := .inl (by rw [hents]; rfl)
        high := .inl (by rw [hents]; rfl)
        ents := by rw [hents]; rfl
        kind := by rw [hents]; exact ⟨fun _ => rfl, fun _ => rfl⟩
        plain := fun h => absurd rfl h
        sorted := by rw [hents]; exact hs
        inside := fun _ _ => hcov _
        deltas := fun _ _ => hcov _ }⟩
  values p hp c' hc' k _ := by
    rw [List.mem_singleton.mp hp, hc, Option.some.injEq] at hc'
    rw [hc']
  free := hfree

/-- A leaf with another chain for the same node. -/
theorem setLeaf (h : Inv lossy t nd row top pend m) (hp : p ∈ row 0) (hc : Holds lossy (nd p) c)
    (hin : ∀ k, (nd p).Covers k → c.value k = m' k) (hout : ∀ k, ¬(nd p).Covers k → m' k = m k) :
    Inv lossy (t.setHead p (some c)) nd row top pend m' where
  shape := h.shape
  bound := h.bound
  cap := h.cap
  holds ℓ hℓ x hx := by
    by_cases hxp : x = p
    · subst hxp
      exact ⟨c, State.setHead_self _, hc⟩
    · rw [State.setHead_of_ne hxp]
      exact h.holds ℓ hℓ x hx
  values x hx c' hc' k hk := by
    by_cases hxp : x = p
    · subst hxp
      rw [State.setHead_self, Option.some.injEq] at hc'
      exact hc' ▸ hin k hk
    · rw [State.setHead_of_ne hxp] at hc'
      -- no key is in the range of two leaves
      rw [hout k fun hpk => hxp ((h.shape.rows 0 (Nat.zero_le _)).unique hx hp hk hpk)]
      exact h.values x hx c' hc' k hk
  free x := (State.setHead_consolidating _).trans (h.free x)

/-- A node and its new right sibling in place of the node. -/
theorem splitNode (h : Inv lossy t nd row top none m) (hℓ : ℓ ≤ top) (hp : p ∈ row ℓ) (hcap : t.nextPid < MAP_CAP)
    {sep : Key} {es₁ es₂ : List (WithBot Key × Pid)} {L R : Base} (hlow : (nd p).low < sep)
    (hhigh : (sep : WithTop Key) < (nd p).high) (hes : (nd p).Halved sep es₁ es₂)
    (hL : Holds lossy ((nd p).lower sep t.nextPid es₁) ⟨[], L⟩) (hR : Holds lossy ((nd p).upper sep es₂) ⟨[], R⟩)
    (hvL : ℓ = 0 → ∀ k, (nd p).Covers k → k < sep → findEnt L.lents k = m k)
    (hvR : ℓ = 0 → ∀ k, (nd p).Covers k → sep ≤ k → findEnt R.lents k = m k) :
    ∃ nd' row', Inv lossy ((t.bindPid ⟨[], R⟩).setHead p (some ⟨[], L⟩)) nd' row' top
        (some ⟨ℓ, p, sep, t.nextPid⟩) m ∧
      (∀ y, y ≠ p → y < t.nextPid → nd' y = nd y) ∧ Grows nd nd' row row' top top := by
  have hpq : p ≠ t.nextPid := (h.bound ℓ hℓ p hp).ne
  have hfresh : ∀ ℓ ≤ top, t.nextPid ∉ row ℓ := fun ℓ hℓ hm => (h.bound ℓ hℓ _ hm).false
  let nd' := Function.update (Function.update nd p ((nd p).lower sep t.nextPid es₁)) t.nextPid ((nd p).upper sep es₂)
  have hp' : nd' p = (nd p).lower sep t.nextPid es₁ := by
    simp only [nd', Function.update_of_ne hpq, Function.update_self]
  have hq' : nd' t.nextPid = (nd p).upper sep es₂ := Function.update_self ..
  have hne : ∀ y, y ≠ p → y ≠ t.nextPid → nd' y = nd y := fun y h₁ h₂ => by
    simp only [nd', Function.update_of_ne h₂, Function.update_of_ne h₁]
  obtain ⟨row', hshape, hrow⟩ := h.shape.split hℓ hp hfresh hlow hhigh hes hp' hq' hne
  have hnext : (t.bindPid ⟨[], R⟩).nextPid = t.nextPid + 1 := State.bindPid_nextPid (by omega)
  have hheadp : (((t.bindPid ⟨[], R⟩).setHead p (some ⟨[], L⟩)).map p).head = some ⟨[], L⟩ := State.setHead_self _
  have hheadq : (((t.bindPid ⟨[], R⟩).setHead p (some ⟨[], L⟩)).map t.nextPid).head = some ⟨[], R⟩ := by
    rw [State.setHead_of_ne hpq.symm, State.bindPid_self hcap]
  have hhead : ∀ y, y ≠ p → y ≠ t.nextPid → ((t.bindPid ⟨[], R⟩).setHead p (some ⟨[], L⟩)).map y = t.map y :=
    fun y h₁ h₂ => by rw [State.setHead_of_ne h₁, State.bindPid_of_ne h₂]
  have hcases : ∀ ℓ' ≤ top, ∀ y ∈ row' ℓ', y = p ∨ (y = t.nextPid ∧ ℓ' = ℓ) ∨
      (y ≠ p ∧ y ≠ t.nextPid ∧ y ∈ row ℓ') := by
    intro ℓ' hℓ' y hy
    by_cases hyp : y = p
    · exact .inl hyp
    · rcases (hrow ℓ' y).mp hy with hm | ⟨rfl, rfl⟩
      · exact .inr (.inr ⟨hyp, (h.bound ℓ' hℓ' y hm).ne, hm⟩)
      · exact .inr (.inl ⟨rfl, rfl⟩)
  refine ⟨nd', row', ⟨?_, fun ℓ' hℓ' y hy => ?_, ?_, fun ℓ' hℓ' y hy => ?_, fun y hy c' hc' k hk => ?_, fun y => ?_⟩,
    fun y h₁ h₂ => hne y h₁ h₂.ne, le_rfl, fun ℓ' _ y hy => (hrow ℓ' y).mpr (.inl hy), fun ℓ' hℓ' y hy => ?_⟩
  · simpa using hshape
  · show y < (t.bindPid ⟨[], R⟩).nextPid
    rw [hnext]
    rcases hcases ℓ' hℓ' y hy with rfl | ⟨rfl, -⟩ | ⟨-, -, hm⟩
    · exact Nat.lt_succ_of_lt (h.bound ℓ hℓ y hp)
    · exact Nat.lt_succ_self _
    · exact Nat.lt_succ_of_lt (h.bound ℓ' hℓ' y hm)
  · show (t.bindPid ⟨[], R⟩).nextPid ≤ MAP_CAP
    omega
  · rcases hcases ℓ' hℓ' y hy with rfl | ⟨rfl, -⟩ | ⟨h₁, h₂, hm⟩
    · exact ⟨_, hheadp, hp' ▸ hL⟩
    · exact ⟨_, hheadq, hq' ▸ hR⟩
    · rw [hhead y h₁ h₂, hne y h₁ h₂]
      exact h.holds ℓ' hℓ' y hm
  · rcases hcases 0 (Nat.zero_le _) y hy with rfl | ⟨rfl, h0⟩ | ⟨h₁, h₂, hm⟩
    · have h0 : ℓ = 0 := by
        rcases (hrow 0 y).mp hy with hm | ⟨-, he⟩
        · exact h.shape.level_unique hℓ (Nat.zero_le _) hp hm
        · exact absurd he hpq
      rw [hheadp, Option.some.injEq] at hc'
      rw [hp'] at hk
      have hks : k < sep := WithTop.coe_lt_coe.mp hk.2
      rw [← hc']
      exact hvL h0 k ⟨hk.1, (WithTop.coe_lt_coe.mpr hks).trans hhigh⟩ hks
    · rw [hheadq, Option.some.injEq] at hc'
      rw [hq'] at hk
      have hks : sep ≤ k := WithBot.coe_le_coe.mp hk.1
      rw [← hc']
      exact hvR h0.symm k ⟨hlow.le.trans (WithBot.coe_le_coe.mpr hks), hk.2⟩ hks
    · rw [hhead y h₁ h₂] at hc'
      rw [hne y h₁ h₂] at hk
      exact h.values y hm c' hc' k hk
  · simpa using h.free y
  · by_cases hyp : y = p
    · rw [hyp, hp']
      rfl
    · rw [hne y hyp (h.bound ℓ' hℓ' y hy).ne]

/-- The parent with an entry for the right half of a split. -/
theorem insertSep {d : Pending Key Pid} (h : Inv lossy t nd row top (some d) m) (hℓ : d.level < top)
    (hp : p ∈ row (d.level + 1)) {s : WithBot Key} {es₁ es₂ : List (WithBot Key × Pid)} {P : Base}
    (hents : (nd p).ents = es₁ ++ (s, d.child) :: es₂)
    (hP : Holds lossy { nd p with ents := es₁ ++ (s, d.child) :: (↑d.sep, d.right) :: es₂ } ⟨[], P⟩) :
    ∃ nd', Inv lossy (t.setHead p (some ⟨[], P⟩)) nd' row top none m ∧
      nd' p = { nd p with ents := es₁ ++ (s, d.child) :: (↑d.sep, d.right) :: es₂ } ∧ ∀ y, y ≠ p → nd' y = nd y := by
  let nd' := Function.update nd p { nd p with ents := es₁ ++ (s, d.child) :: (↑d.sep, d.right) :: es₂ }
  have hp' : nd' p = { nd p with ents := es₁ ++ (s, d.child) :: (↑d.sep, d.right) :: es₂ } := Function.update_self ..
  have hne : ∀ y, y ≠ p → nd' y = nd y := fun y hy => Function.update_of_ne hy ..
  have hp0 : ∀ y ∈ row 0, y ≠ p := fun y hy e =>
    absurd (h.shape.level_unique (Nat.zero_le _) hℓ (e ▸ hy) hp) (by omega)
  refine ⟨nd', ⟨h.shape.insert hℓ hp hents hp' hne, h.bound, h.cap, fun ℓ' hℓ' y hy => ?_,
    fun y hy c' hc' k hk => ?_, fun y => (State.setHead_consolidating _).trans (h.free y)⟩, hp', hne⟩
  · by_cases hyp : y = p
    · subst hyp
      exact ⟨_, State.setHead_self _, hp' ▸ hP⟩
    · rw [State.setHead_of_ne hyp, hne y hyp]
      exact h.holds ℓ' hℓ' y hy
  · rw [State.setHead_of_ne (hp0 y hy)] at hc'
    rw [hne y (hp0 y hy)] at hk
    exact h.values y hy c' hc' k hk

/-- A new root over the halves of the old one. -/
theorem growRoot {d : Pending Key Pid} (h : Inv lossy t nd row top (some d) m) (hd : d.level = top)
    (hcap : t.nextPid < MAP_CAP) {R : Base}
    (hR : Holds lossy (Node.newRoot (top + 1) PID_NULL d.child d.sep d.right) ⟨[], R⟩) :
    ∃ nd' row', Inv lossy { t.bindPid ⟨[], R⟩ with root := t.nextPid } nd' row' (top + 1) none m ∧
      Grows nd nd' row row' top (top + 1) := by
  have hfresh : ∀ ℓ ≤ top, t.nextPid ∉ row ℓ := fun ℓ hℓ hm => (h.bound ℓ hℓ _ hm).false
  let nd' := Function.update nd t.nextPid (Node.newRoot (top + 1) PID_NULL d.child d.sep d.right)
  have hq' : nd' t.nextPid = Node.newRoot (top + 1) PID_NULL d.child d.sep d.right := Function.update_self ..
  have hne : ∀ y, y ≠ t.nextPid → nd' y = nd y := fun y hy => Function.update_of_ne hy ..
  have hnext : (t.bindPid ⟨[], R⟩).nextPid = t.nextPid + 1 := State.bindPid_nextPid (by omega)
  have hcases : ∀ ℓ' ≤ top + 1, ∀ y ∈ Function.update row (top + 1) [t.nextPid] ℓ',
      (y = t.nextPid ∧ ℓ' = top + 1) ∨ (y ≠ t.nextPid ∧ ℓ' ≤ top ∧ y ∈ row ℓ') := by
    intro ℓ' hℓ' y hy
    by_cases hl : ℓ' = top + 1
    · subst hl
      rw [Function.update_self, List.mem_singleton] at hy
      exact .inl ⟨hy, rfl⟩
    · rw [Function.update_of_ne hl] at hy
      have hle : ℓ' ≤ top := by omega
      exact .inr ⟨(h.bound ℓ' hle y hy).ne, hle, hy⟩
  refine ⟨nd', _, ⟨h.shape.grow hd hfresh hq' hne, fun ℓ' hℓ' y hy => ?_, ?_, fun ℓ' hℓ' y hy => ?_,
    fun y hy c' hc' k hk => ?_, fun y => State.bindPid_consolidating.trans (h.free y)⟩, Nat.le_succ _,
    fun ℓ' hℓ' y hy => ?_, fun ℓ' hℓ' y hy => by rw [hne y (h.bound ℓ' hℓ' y hy).ne]⟩
  · show y < (t.bindPid ⟨[], R⟩).nextPid
    rw [hnext]
    rcases hcases ℓ' hℓ' y hy with ⟨rfl, -⟩ | ⟨-, hle, hm⟩
    · exact Nat.lt_succ_self _
    · exact Nat.lt_succ_of_lt (h.bound ℓ' hle y hm)
  · show (t.bindPid ⟨[], R⟩).nextPid ≤ MAP_CAP
    omega
  · rcases hcases ℓ' hℓ' y hy with ⟨rfl, -⟩ | ⟨h₁, hle, hm⟩
    · exact ⟨_, State.bindPid_self hcap, hq' ▸ hR⟩
    · show ∃ c, ((t.bindPid ⟨[], R⟩).map y).head = some c ∧ _
      rw [State.bindPid_of_ne h₁, hne y h₁]
      exact h.holds ℓ' hle y hm
  · rcases hcases 0 (Nat.zero_le _) y hy with ⟨-, h0⟩ | ⟨h₁, -, hm⟩
    · omega
    · change ((t.bindPid ⟨[], R⟩).map y).head = some c' at hc'
      rw [State.bindPid_of_ne h₁] at hc'
      rw [hne y h₁] at hk
      exact h.values y hm c' hc' k hk
  · rwa [Function.update_of_ne (by omega)]

end Inv

/-- A new index holds no values. -/
theorem indexNew_spec {ω : Pattern} {lossy : Prop} (h : indexNew ω = some t) :
    (∃ nd row top, Inv lossy t nd row top none fun _ => none) ∧ t.smoBusy = false := by
  unfold indexNew at h
  split at h
  · cases h
  · split at h
    · cases h
    · cases h
      have hv : Chain.value ⟨[], Base.leafNew⟩ = fun _ => none := funext fun k => Chain.value_base Base.leafNew k
      exact ⟨⟨_, _, _, hv ▸ Inv.single rfl rfl List.Pairwise.nil Nat.one_pos (by decide) fun _ => rfl⟩, rfl⟩

end Dlsmc.Index
