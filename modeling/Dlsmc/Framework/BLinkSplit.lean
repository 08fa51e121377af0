import Mathlib.Algebra.Group.Nat.Defs
import Mathlib.Tactic.Ring
import Dlsmc.Framework.BLink

/-!
# Changes of structure of a B-link tree

The three changes of the table that a split is made of, and that they keep the
shape of the tree: `Shape.split` makes a split pending, `Shape.insert` installs
it in the parent and `Shape.grow` in a new root. `Path` is the way from the
root down to a node, as a descent records it; `Shape.two_pow_le` bounds the
height of a tree by the number of its leaves.
-/

namespace Dlsmc.BLink

variable {κ π : Type}

/-- The node after its split at `sep`: its lower half, linked to `q`. -/
def Node.lower (n : Node κ π) (sep : κ) (q : π) (es : List (WithBot κ × π)) : Node κ π :=
  { n with high := sep, right := q, ents := es }

/-- The upper half of a node split at `sep`. -/
def Node.upper (n : Node κ π) (sep : κ) (es : List (WithBot κ × π)) : Node κ π := { n with low := sep, ents := es }

/-- The entries of the two halves of a node split at `sep`; the first separator
of the upper half is not needed any more. -/
inductive Node.Halved (n : Node κ π) (sep : κ) : List (WithBot κ × π) → List (WithBot κ × π) → Prop where
  | leaf (h : n.ents = []) : Halved n sep [] []
  | inner {c : π} {es₁ es₂ : List (WithBot κ × π)} (h : n.ents = es₁ ++ (↑sep, c) :: es₂) (h₁ : 2 ≤ es₁.length)
    (h₂ : 1 ≤ es₂.length) : Halved n sep es₁ ((⊥, c) :: es₂)

/-- A new root over `c` and its right sibling `q`. -/
def Node.newRoot (level : ℕ) (nil c : π) (sep : κ) (q : π) : Node κ π := ⟨level, ⊥, ⊤, nil, [(⊥, c), (↑sep, q)]⟩

/-- The rows have the nodes they had, which begin where they did. -/
structure Grows (nd nd' : π → Node κ π) (row row' : ℕ → List π) (top top' : ℕ) : Prop where
  top_le : top ≤ top'
  mem : ∀ ℓ ≤ top, ∀ p ∈ row ℓ, p ∈ row' ℓ
  low : ∀ ℓ ≤ top, ∀ p ∈ row ℓ, (nd' p).low = (nd p).low

/-- The way from the root, at level `top`, down to a node of level `ℓ`, which is
at the head. -/
inductive Path (nd : π → Node κ π) (root : π) (top : ℕ) : ℕ → List π → Prop where
  | root : Path nd root top top [root]
  | step {ℓ : ℕ} {c p : π} {ps : List π} (hc : c ∈ (nd p).kids) (h : Path nd root top (ℓ + 1) (p :: ps)) :
    Path nd root top ℓ (c :: p :: ps)

/-- The sum of `f` over the leaves below a node of level `ℓ`. -/
def tally (nd : π → Node κ π) (f : π → ℕ) : ℕ → π → ℕ
  | 0, p => f p
  | ℓ + 1, p => ((nd p).kids.map (tally nd f ℓ)).sum

theorem sum_kidsOf {nd : π → Node κ π} (g : π → ℕ) : ∀ ps : List π,
    ((kidsOf nd ps).map g).sum = (ps.map fun p => ((nd p).kids.map g).sum).sum
  | [] => rfl
  | p :: ps => by
    have := @sum_kidsOf nd g ps
    simp only [kidsOf, List.flatMap_cons, List.map_append, List.sum_append, List.map_cons, List.sum_cons] at this ⊢
    rw [this]

variable [LinearOrder κ] {nd nd' : π → Node κ π} {nil root : π} {row : ℕ → List π} {top ℓ : ℕ}
  {pend : Option (Pending κ π)} {p q c : π} {sep : κ}

/-! ## One row -/

/-- A row depends on its nodes only. -/
theorem Row.congr {ps : List π} (h : Row nd nil ℓ ps) (hnd : ∀ p ∈ ps, nd' p = nd p) : Row nd' nil ℓ ps where
  level p hp := hnd p hp ▸ h.level p hp
  proper p hp := hnd p hp ▸ h.proper p hp
  next := h.next.imp_of_mem_imp fun p q hp hq hn => by rwa [Next, hnd p hp, hnd q hq]
  first p hp := hnd p (List.mem_of_head? hp) ▸ h.first p hp
  last p hp := hnd p (List.mem_of_getLast? hp) ▸ h.last p hp

/-- The row of a node that is split, with the new node right of it. -/
theorem Row.split {l r : List π} (h : Row nd nil ℓ (l ++ p :: r))
    (hq : q ∉ l ++ p :: r) {es₁ es₂ : List (WithBot κ × π)}
    (hlow : (nd p).low < sep) (hhigh : (sep : WithTop κ) < (nd p).high) (hp' : nd' p = (nd p).lower sep q es₁)
    (hq' : nd' q = (nd p).upper sep es₂) (hne : ∀ x, x ≠ p → x ≠ q → nd' x = nd x) :
    Row nd' nil ℓ (l ++ p :: q :: r) := by
  have hnd := h.nodup
  have hp : p ∉ l ∧ p ∉ r := by
    rw [List.nodup_append] at hnd
    exact ⟨fun hl => hnd.2.2 p hl p (by simp) rfl, (List.nodup_cons.mp hnd.2.1).1⟩
  have hql : q ∉ l ∧ q ≠ p ∧ q ∉ r := by
    simp only [List.mem_append, List.mem_cons, not_or] at hq
    exact hq
  have hl : ∀ x ∈ l, nd' x = nd x := fun x hx => hne x (fun e => hp.1 (e ▸ hx)) fun e => hql.1 (e ▸ hx)
  have hr : ∀ x ∈ r, nd' x = nd x := fun x hx => hne x (fun e => hp.2 (e ▸ hx)) fun e => hql.2.2 (e ▸ hx)
  have hplev : (nd p).level = ℓ := h.level p (by simp)
  refine ⟨fun x hx => ?_, fun x hx => ?_, ?_, fun x hx => ?_, fun x hx => ?_⟩
  · simp only [List.mem_append, List.mem_cons] at hx
    rcases hx with hx | rfl | rfl | hx
    · exact hl x hx ▸ h.level x (by simp [hx])
    · rw [hp']
      exact hplev
    · rw [hq']
      exact hplev
    · exact hr x hx ▸ h.level x (by simp [hx])
  · simp only [List.mem_append, List.mem_cons] at hx
    rcases hx with hx | rfl | rfl | hx
    · exact hl x hx ▸ h.proper x (by simp [hx])
    · intro a b ha hb
      rw [hp'] at ha hb
      change (nd x).low = _ at ha
      obtain rfl : sep = b := WithTop.coe_inj.mp hb
      exact WithBot.coe_lt_coe.mp (ha ▸ hlow)
    · intro a b ha hb
      rw [hq'] at ha hb
      obtain rfl : sep = a := WithBot.coe_inj.mp ha
      change (nd p).high = _ at hb
      exact WithTop.coe_lt_coe.mp (hb ▸ hhigh)
    · exact hr x hx ▸ h.proper x (by simp [hx])
  · -- the links into `p` and out of `q` are those that led into and out of `p`
    have hc := List.isChain_split.mp h.next
    refine List.isChain_append_cons_cons.mpr ⟨?_, ⟨by rw [hp']; rfl, sep, by rw [hp']; rfl, by rw [hq']; rfl⟩, ?_⟩
    · refine hc.1.imp_of_mem_imp fun x y hx hy hn => ?_
      have hy' : (nd' y).low = (nd y).low := by
        rcases List.mem_append.mp hy with hy | hy
        · rw [hl y hy]
        · rw [List.mem_singleton.mp hy, hp']
          rfl
      by_cases hxp : x = p
      · -- nothing follows `p` there
        subst hxp
        have hlt := hn.low_lt (h.proper x (by simp))
        have hpw := h.pairwise_low
        rw [List.pairwise_append] at hpw
        rcases List.mem_append.mp hy with hy | hy
        · exact absurd (hpw.2.2 y hy x (by simp)) hlt.asymm
        · rw [List.mem_singleton.mp hy] at hlt
          exact absurd hlt (lt_irrefl _)
      · have hx : x ∈ l := by simpa [hxp] using hx
        obtain ⟨h₁, s, h₂, h₃⟩ := hn
        exact ⟨by rwa [hl x hx], s, by rwa [hl x hx], by rwa [hy']⟩
    · cases r with
      | nil => exact List.isChain_singleton _
      | cons y r =>
        obtain ⟨⟨h₁, s, h₂, h₃⟩, hch⟩ := List.isChain_cons_cons.mp hc.2
        refine List.isChain_cons_cons.mpr ⟨⟨by rw [hq']; exact h₁, s, by rw [hq']; exact h₂, ?_⟩, ?_⟩
        · rwa [hr y (by simp)]
        · exact hch.imp_of_mem_imp fun x y hx hy hn => by rwa [Next, hr x hx, hr y hy]
  · cases l with
    | nil =>
      obtain rfl : p = x := by simpa using hx
      rw [hp']
      exact h.first p (by simp)
    | cons y l =>
      obtain rfl : y = x := by simpa using hx
      exact hl y (by simp) ▸ h.first y (by simp)
  · cases r with
    | nil =>
      obtain rfl : q = x := by simpa using hx
      rw [hq']
      exact h.last p (by simp)
    | cons y r =>
      have hx' : x ∈ (l ++ p :: y :: r).getLast? := by simpa using hx
      have : x ∈ y :: r := List.mem_of_getLast? (by simpa using hx)
      exact hr x this ▸ h.last x hx'

namespace Shape

/-- The tree of one leaf, over all keys. -/
theorem single : Shape (fun _ => ⟨0, (⊥ : WithBot κ), (⊤ : WithTop κ), nil, []⟩) nil root
    (fun ℓ => if ℓ = 0 then [root] else []) 0 none where
  rows ℓ hℓ := by
    obtain rfl := Nat.le_zero.mp hℓ
    exact
      { level := fun _ _ => rfl
        proper := fun _ _ a b ha _ => absurd ha WithBot.bot_ne_coe
        next := List.isChain_singleton _
        first := fun _ _ => rfl
        last := fun _ _ => ⟨rfl, rfl⟩ }
  leaf _ _ := rfl
  inner ℓ hℓ := absurd hℓ (Nat.not_lt_zero ℓ)
  kids ℓ hℓ := absurd hℓ (Nat.not_lt_zero ℓ)
  root := rfl
  sep _ h := by cases h

theorem row_ne_nil (h : Shape nd nil root row top pend) : ∀ ℓ ≤ top, row ℓ ≠ [] := by
  have key : ∀ d ≤ top, row (top - d) ≠ [] := by
    intro d
    induction d with
    | zero => exact fun _ => List.ne_nil_of_mem h.root_mem
    | succ d ih =>
      intro hd
      obtain ⟨p, hp⟩ := List.exists_mem_of_ne_nil _ (ih (by omega))
      obtain ⟨e, he⟩ : ∃ e, top - d = e + 1 := ⟨top - (d + 1), by omega⟩
      rw [he] at hp
      have hi := h.inner e (by omega) p hp
      obtain ⟨x, hx⟩ := List.exists_mem_of_length_pos (l := (nd p).ents) (by have := hi.two; omega)
      have := h.kid_mem (ℓ := e) (by omega) hp (List.mem_map_of_mem hx)
      rw [show top - (d + 1) = e by omega]
      exact List.ne_nil_of_mem this
  intro ℓ hℓ
  have := key (top - ℓ) (by omega)
  rwa [show top - (top - ℓ) = ℓ by omega] at this

/-- A level has at least twice the nodes of the level above it. -/
theorem two_mul_le (h : Shape nd nil root row top pend) (hℓ : ℓ < top) :
    2 * (row (ℓ + 1)).length ≤ (row ℓ).length := by
  have hkids : ∀ ps : List π, (∀ p ∈ ps, p ∈ row (ℓ + 1)) → 2 * ps.length ≤ (kidsOf nd ps).length := by
    intro ps
    induction ps with
    | nil => simp [kidsOf]
    | cons p ps ih =>
      intro hps
      have hp := (h.inner ℓ hℓ p (hps p (by simp))).two
      have hih := ih fun q hq => hps q (List.mem_cons_of_mem _ hq)
      simp only [kidsOf, List.flatMap_cons, List.length_append, List.length_cons, Node.kids, List.length_map] at hih ⊢
      omega
  exact (hkids _ fun _ hp => hp).trans (h.kids ℓ hℓ).sublist.length_le

/-- A tree of height `top + 1` has `2 ^ top` leaves or more. -/
theorem two_pow_le (h : Shape nd nil root row top pend) : 2 ^ top ≤ (row 0).length := by
  have key : ∀ ℓ ≤ top, 2 ^ ℓ * (row ℓ).length ≤ (row 0).length := by
    intro ℓ
    induction ℓ with
    | zero => simp
    | succ ℓ ih =>
      intro hℓ
      calc 2 ^ (ℓ + 1) * (row (ℓ + 1)).length = 2 ^ ℓ * (2 * (row (ℓ + 1)).length) := by ring
        _ ≤ 2 ^ ℓ * (row ℓ).length := Nat.mul_le_mul_left _ (h.two_mul_le hℓ)
        _ ≤ (row 0).length := ih (by omega)
  have hpos : 1 ≤ (row top).length := List.length_pos_of_ne_nil (h.row_ne_nil top le_rfl)
  calc 2 ^ top = 2 ^ top * 1 := (Nat.mul_one _).symm
    _ ≤ 2 ^ top * (row top).length := Nat.mul_le_mul_left _ hpos
    _ ≤ (row 0).length := key top le_rfl

/-- Every leaf is below one node of a level. -/
theorem sum_tally (h : Shape nd nil root row top none) (f : π → ℕ) :
    ∀ ℓ ≤ top, ((row ℓ).map (tally nd f ℓ)).sum = ((row 0).map f).sum := by
  intro ℓ
  induction ℓ with
  | zero => exact fun _ => rfl
  | succ ℓ ih =>
    intro hℓ
    have hkids : kidsOf nd (row (ℓ + 1)) = row ℓ := h.kids ℓ hℓ
    calc ((row (ℓ + 1)).map (tally nd f (ℓ + 1))).sum
        = ((kidsOf nd (row (ℓ + 1))).map (tally nd f ℓ)).sum := (sum_kidsOf _ _).symm
      _ = ((row ℓ).map (tally nd f ℓ)).sum := by rw [hkids]
      _ = ((row 0).map f).sum := ih (by omega)

theorem tally_root (h : Shape nd nil root row top none) (f : π → ℕ) : tally nd f top root = ((row 0).map f).sum := by
  have hroot : row top = [root] := h.root.symm
  rw [← h.sum_tally f top le_rfl, hroot]
  simp

/-- A node has one level. -/
theorem level_unique (h : Shape nd nil root row top pend) {ℓ' : ℕ} (hℓ : ℓ ≤ top) (hℓ' : ℓ' ≤ top) (hp : p ∈ row ℓ)
    (hp' : p ∈ row ℓ') : ℓ = ℓ' := ((h.rows ℓ hℓ).level p hp).symm.trans ((h.rows ℓ' hℓ').level p hp')

/-- A node has one parent. -/
theorem parent_unique (h : Shape nd nil root row top pend) (hℓ : ℓ < top) {a b : π} (ha : a ∈ row (ℓ + 1))
    (hb : b ∈ row (ℓ + 1)) (hpa : p ∈ (nd a).kids) (hpb : p ∈ (nd b).kids) : a = b := by
  by_contra hne
  have hnd := (h.rows ℓ hℓ.le).nodup.sublist (h.kids ℓ hℓ).sublist
  rw [kidsOf, List.nodup_flatMap] at hnd
  have : Std.Symm (Function.onFun List.Disjoint fun p => (nd p).kids) := ⟨fun _ _ hd => List.Disjoint.symm hd⟩
  exact (hnd.2.forall ha hb hne) hpa hpb

/-- The separators of a node are in its range. -/
theorem sep_lt_high (h : Shape nd nil root row top none) (hℓ : ℓ < top) (hp : p ∈ row (ℓ + 1))
    {es₁ es₂ : List (WithBot κ × π)} (hents : (nd p).ents = es₁ ++ (↑sep, c) :: es₂) (h₁ : es₁ ≠ []) :
    (nd p).low < sep ∧ (sep : WithTop κ) < (nd p).high := by
  have hi := h.inner ℓ hℓ p hp
  obtain ⟨e, es, rfl⟩ := List.exists_cons_of_ne_nil h₁
  have hc : (nd c).low = sep := hi.low_tail (↑sep, c) (by simp [hents])
  obtain ⟨a, b, hrow⟩ := List.append_of_mem hp
  have hkids : row ℓ = kidsOf nd a ++ ((nd p).kids ++ kidsOf nd b) := by
    rw [← show kidsOf nd (row (ℓ + 1)) = row ℓ from h.kids ℓ hℓ, hrow]
    simp [kidsOf]
  have hpw := (h.rows ℓ hℓ.le).pairwise_low
  rw [hkids, List.pairwise_append, List.pairwise_append] at hpw
  constructor
  · rw [← (hi.low_first e (by simp [hents])).2, ← hc]
    have := hpw.2.1.1
    rw [Node.kids, hents, List.cons_append, List.map_cons, List.pairwise_cons] at this
    exact this.1 c (by simp)
  · obtain ⟨-, htop, -⟩ | ⟨p', b', rfl, -, s, hs, hlow⟩ := (h.rows (ℓ + 1) hℓ).right_of hrow
    · exact htop ▸ WithTop.coe_lt_top sep
    · -- the first child of the next node begins where this one ends
      have hi' := h.inner ℓ hℓ p' (by simp [hrow])
      obtain ⟨f, fs, hfs⟩ : ∃ f fs, (nd p').ents = f :: fs := by
        cases he : (nd p').ents with
        | nil => simpa [he] using hi'.two
        | cons f fs => exact ⟨f, fs, rfl⟩
      have hlt := hpw.2.1.2.2 c (by simp [Node.kids, hents]) f.2 (by simp [kidsOf, Node.kids, hfs])
      rw [hc, (hi'.low_first f (by simp [hfs])).2, hlow, WithBot.coe_lt_coe] at hlt
      rw [hs, WithTop.coe_lt_coe]
      exact hlt

/-! ## Changes of the table -/

/-- The upper half of a node moves to a new node, which is linked from the lower
half only. -/
theorem split (h : Shape nd nil root row top none) (hℓ : ℓ ≤ top) (hp : p ∈ row ℓ) (hq : ∀ ℓ ≤ top, q ∉ row ℓ)
    {es₁ es₂ : List (WithBot κ × π)} (hlow : (nd p).low < sep) (hhigh : (sep : WithTop κ) < (nd p).high)
    (hes : (nd p).Halved sep es₁ es₂) (hp' : nd' p = (nd p).lower sep q es₁) (hq' : nd' q = (nd p).upper sep es₂)
    (hne : ∀ x, x ≠ p → x ≠ q → nd' x = nd x) :
    ∃ row', Shape nd' nil root row' top (some ⟨ℓ, p, sep, q⟩) ∧
      ∀ ℓ' x, x ∈ row' ℓ' ↔ x ∈ row ℓ' ∨ ℓ' = ℓ ∧ x = q := by
  obtain ⟨l, r, hrow⟩ := List.append_of_mem hp
  have hqℓ := hq ℓ hℓ
  -- the nodes of the other levels, and the low fences, are as they were
  have hoff : ∀ ℓ' ≤ top, ℓ' ≠ ℓ → ∀ x ∈ row ℓ', nd' x = nd x := fun ℓ' hℓ' hneq x hx =>
    hne x (fun e => hneq (h.level_unique hℓ' hℓ (e ▸ hx) hp)) fun e => hq ℓ' hℓ' (e ▸ hx)
  have hlows : ∀ x, x ≠ q → (nd' x).low = (nd x).low := fun x hx => by
    by_cases hxp : x = p
    · rw [hxp, hp']
      rfl
    · rw [hne x hxp hx]
  have hkidlow : ∀ ℓ' < top, ∀ x ∈ row (ℓ' + 1), ∀ e ∈ (nd x).ents, (nd' e.2).low = (nd e.2).low :=
    fun ℓ' hℓ' x hx e he => hlows e.2 fun heq =>
      hq ℓ' hℓ'.le (heq ▸ h.kid_mem hℓ' hx (List.mem_map_of_mem he))
  have hself : Function.update row ℓ (l ++ p :: q :: r) ℓ = l ++ p :: q :: r := Function.update_self ..
  have hother : ∀ ℓ', ℓ' ≠ ℓ → Function.update row ℓ (l ++ p :: q :: r) ℓ' = row ℓ' := fun ℓ' hne' =>
    Function.update_of_ne hne' ..
  have hmem : ∀ ℓ' x, x ∈ Function.update row ℓ (l ++ p :: q :: r) ℓ' ↔ x ∈ row ℓ' ∨ ℓ' = ℓ ∧ x = q := by
    intro ℓ' x
    by_cases hl : ℓ' = ℓ
    · subst hl
      rw [hself, hrow]
      simp only [List.mem_append, List.mem_cons, true_and]
      tauto
    · rw [hother ℓ' hl]
      simp [hl]
  refine ⟨Function.update row ℓ (l ++ p :: q :: r), ⟨fun ℓ' hℓ' => ?_, fun x hx => ?_, fun ℓ' hℓ' x hx => ?_,
    fun ℓ' hℓ' => ?_, ?_, ?_⟩, hmem⟩
  · by_cases hl : ℓ' = ℓ
    · subst hl
      rw [hself]
      rw [hrow] at hqℓ
      exact (hrow ▸ h.rows ℓ' hℓ).split hqℓ hlow hhigh hp' hq' hne
    · rw [hother ℓ' hl]
      exact (h.rows ℓ' hℓ').congr (hoff ℓ' hℓ' hl)
  · rcases (hmem 0 x).mp hx with hx0 | ⟨rfl, rfl⟩
    · have h0 := h.leaf x hx0
      by_cases hxp : x = p
      · subst hxp
        cases hes with
        | leaf => rw [hp']; rfl
        | inner he => rw [h0] at he; simp at he
      · have hxq : x ≠ q := fun e => hq 0 (Nat.zero_le _) (e ▸ hx0)
        rwa [hne x hxp hxq]
    · have h0 := h.leaf p hp
      cases hes with
      | leaf => rw [hq']; rfl
      | inner he => rw [h0] at he; simp at he
  · rcases (hmem (ℓ' + 1) x).mp hx with hx | ⟨hl, rfl⟩
    · have hi := h.inner ℓ' hℓ' x hx
      have hkl := hkidlow ℓ' hℓ' x hx
      by_cases hxp : x = p
      · subst hxp
        cases hes with
        | leaf he => have := hi.two; rw [he] at this; simp at this
        | inner he h₁ h₂ =>
          rw [hp']
          rw [he] at hkl
          refine ⟨h₁, fun e hm => ?_, fun e hm => ?_⟩
          · rw [hkl e (List.mem_append_left _ (List.mem_of_head? hm))]
            exact hi.low_first e (by rw [he]; exact List.mem_head?_append_of_mem_head? hm)
          · rw [hkl e (List.mem_append_left _ (List.mem_of_mem_tail hm))]
            refine hi.low_tail e ?_
            rw [he, List.tail_append_of_ne_nil (by rintro rfl; simp at h₁)]
            exact List.mem_append_left _ hm
      · rw [hne x hxp fun e => hq (ℓ' + 1) hℓ' (e ▸ hx)]
        refine ⟨hi.two, fun e he => ?_, fun e he => ?_⟩
        · rw [hkl e (List.mem_of_head? he)]
          exact hi.low_first e he
        · rw [hkl e (List.mem_of_mem_tail he)]
          exact hi.low_tail e he
    · subst hl
      have hi := h.inner ℓ' hℓ' p hp
      have hkl := hkidlow ℓ' hℓ' p hp
      cases hes with
      | leaf he => have := hi.two; rw [he] at this; simp at this
      | @inner c es₁ es₂ he h₁ h₂ =>
        rw [hq']
        rw [he] at hkl
        have htail : ∀ e ∈ (↑sep, c) :: es₂, (nd e.2).low = e.1 := fun e hm => hi.low_tail e (by
          rw [he, List.tail_append_of_ne_nil (by rintro rfl; simp at h₁)]
          exact List.mem_append_right _ hm)
        refine ⟨by simp only [Node.upper, List.length_cons]; omega, fun e hm => ?_, fun e hm => ?_⟩
        · obtain rfl : (⊥, c) = e := by simpa [Node.upper] using hm
          refine ⟨rfl, ?_⟩
          rw [hkl (↑sep, c) (by simp)]
          exact htail (↑sep, c) (by simp)
        · rw [hkl e (by simp [show e ∈ es₂ from hm])]
          exact htail e (by simp [show e ∈ es₂ from hm])
  · -- the children of a row are those it had; the row below may have one more
    have hkids : kidsOf nd' (Function.update row ℓ (l ++ p :: q :: r) (ℓ' + 1)) = row ℓ' := by
      rw [← show kidsOf nd (row (ℓ' + 1)) = row ℓ' from h.kids ℓ' hℓ']
      by_cases hl : ℓ' + 1 = ℓ
      · subst hl
        have hrest : ∀ ps : List π, (∀ x ∈ ps, x ∈ row (ℓ' + 1) ∧ x ≠ p) → kidsOf nd' ps = kidsOf nd ps :=
          fun ps hps => List.flatMap_congr fun x hx => by
            rw [hne x (hps x hx).2 fun e => hq (ℓ' + 1) hℓ (e ▸ (hps x hx).1)]
        have hnd := (h.rows (ℓ' + 1) hℓ).nodup
        rw [hrow, List.nodup_append] at hnd
        have hl' := hrest l fun x hx => ⟨by simp [hrow, hx], fun e => hnd.2.2 x hx p (by simp) e⟩
        have hr' := hrest r fun x hx =>
          ⟨by simp [hrow, hx], fun e => (List.nodup_cons.mp hnd.2.1).1 (e ▸ hx)⟩
        rw [hself, hrow]
        simp only [kidsOf, List.flatMap_append, List.flatMap_cons] at hl' hr' ⊢
        rw [hl', hr', hp', hq']
        have : (nd p).kids = ((nd p).lower sep q es₁).kids ++ ((nd p).upper sep es₂).kids := by
          cases hes with
          | leaf he => simp [Node.kids, Node.lower, Node.upper, he]
          | inner he => simp [Node.kids, Node.lower, Node.upper, he]
        rw [this, List.append_assoc]
      · rw [hother (ℓ' + 1) hl]
        exact List.flatMap_congr fun x hx => by rw [hoff (ℓ' + 1) hℓ' hl x hx]
    rw [hkids]
    by_cases hl : ℓ' = ℓ
    · subst hl
      rw [hself, hrow, Reached, if_pos rfl]
      exact ⟨l, r, rfl, rfl⟩
    · rw [hother ℓ' hl, Reached, if_neg (Ne.symm hl)]
  · have hroot : [root] = row top := h.root
    by_cases hl : top = ℓ
    · subst hl
      rw [hself, Reached, if_pos rfl]
      exact ⟨l, r, rfl, hroot.trans hrow⟩
    · rw [hother top hl, Reached, if_neg (Ne.symm hl)]
      exact hroot
  · rintro x hx
    obtain rfl : (⟨ℓ, p, sep, q⟩ : Pending κ π) = x := by simpa using hx
    exact ⟨hℓ, by rw [hq']; rfl⟩

/-- The parent gets an entry for the right half of a split. -/
theorem insert {x : Pending κ π} (h : Shape nd nil root row top (some x)) (hℓ : x.level < top)
    (hp : p ∈ row (x.level + 1)) {s : WithBot κ} {es₁ es₂ : List (WithBot κ × π)}
    (hents : (nd p).ents = es₁ ++ (s, x.child) :: es₂)
    (hp' : nd' p = { nd p with ents := es₁ ++ (s, x.child) :: (↑x.sep, x.right) :: es₂ })
    (hne : ∀ y, y ≠ p → nd' y = nd y) : Shape nd' nil root row top none := by
  obtain ⟨ℓ, c, sep, q⟩ := x
  simp only at hℓ hp hents hp'
  have hfields : ∀ y, (nd' y).level = (nd y).level ∧ (nd' y).low = (nd y).low ∧ (nd' y).high = (nd y).high ∧
      (nd' y).right = (nd y).right := fun y => by
    by_cases hy : y = p
    · rw [hy, hp']
      exact ⟨rfl, rfl, rfl, rfl⟩
    · rw [hne y hy]
      exact ⟨rfl, rfl, rfl, rfl⟩
  have hrow' : ∀ ℓ' ≤ top, Row nd' nil ℓ' (row ℓ') := fun ℓ' hℓ' =>
    { level := fun y hy => (hfields y).1.trans ((h.rows ℓ' hℓ').level y hy)
      proper := fun y hy a b ha hb => (h.rows ℓ' hℓ').proper y hy a b ((hfields y).2.1 ▸ ha) ((hfields y).2.2.1 ▸ hb)
      next := (h.rows ℓ' hℓ').next.imp fun y z ⟨h₁, s, h₂, h₃⟩ =>
        ⟨(hfields y).2.2.2.trans h₁, s, (hfields y).2.2.1.trans h₂, (hfields z).2.1.trans h₃⟩
      first := fun y hy => (hfields y).2.1.trans ((h.rows ℓ' hℓ').first y hy)
      last := fun y hy =>
        ⟨(hfields y).2.2.1.trans ((h.rows ℓ' hℓ').last y hy).1, (hfields y).2.2.2.trans ((h.rows ℓ' hℓ').last y hy).2⟩ }
  refine ⟨hrow', fun y hy => ?_, fun ℓ' hℓ' y hy => ?_, fun ℓ' hℓ' => ?_, ?_, by simp⟩
  · rw [hne y fun e => absurd (h.level_unique (Nat.zero_le _) hℓ hy (e ▸ hp)) (by omega)]
    exact h.leaf y hy
  · have hi := h.inner ℓ' hℓ' y hy
    by_cases hyp : y = p
    · subst hyp
      rw [hp']
      refine ⟨?_, fun e he => ?_, fun e he => ?_⟩
      · have := hi.two
        rw [hents] at this
        simp only [List.length_append, List.length_cons] at this ⊢
        omega
      · rw [(hfields e.2).2.1]
        refine hi.low_first e ?_
        rw [hents]
        cases es₁ <;> exact he
      · rw [(hfields e.2).2.1]
        have hsep : (nd q).low = sep := (h.sep _ rfl).2
        have htail : e = (↑sep, q) ∨ e ∈ (nd y).ents.tail := by
          rw [hents]
          cases es₁ with
          | nil => simpa using he
          | cons f es₁ =>
            simp only [List.cons_append, List.tail_cons, List.mem_append, List.mem_cons] at he ⊢
            tauto
        rcases htail with rfl | htail
        · exact hsep
        · exact hi.low_tail e htail
    · rw [hne y hyp]
      exact ⟨hi.two, fun e he => (hfields e.2).2.1 ▸ hi.low_first e he,
        fun e he => (hfields e.2).2.1 ▸ hi.low_tail e he⟩
  · by_cases hl : ℓ' = ℓ
    · subst hl
      have hr := h.kids ℓ' hℓ'
      simp only [Reached, if_true] at hr
      obtain ⟨l, r, hbelow, hk⟩ := hr
      obtain ⟨a, b, hab⟩ := List.append_of_mem hp
      have hnd := (h.rows (ℓ' + 1) hℓ).nodup
      rw [hab, List.nodup_append] at hnd
      have hrest : ∀ ps : List π, p ∉ ps → kidsOf nd' ps = kidsOf nd ps := fun ps hps =>
        List.flatMap_congr fun y hy => by rw [hne y fun e => hps (e ▸ hy)]
      have ha := hrest a fun hm => hnd.2.2 p hm p (by simp) rfl
      have hb := hrest b (List.nodup_cons.mp hnd.2.1).1
      have hkids : (nd p).kids = es₁.map Prod.snd ++ c :: es₂.map Prod.snd := by simp [Node.kids, hents]
      have hkids' : (nd' p).kids = es₁.map Prod.snd ++ c :: q :: es₂.map Prod.snd := by simp [Node.kids, hp']
      -- the child stands at one place of its row
      have hplace : l = kidsOf nd a ++ es₁.map Prod.snd ∧ r = es₂.map Prod.snd ++ kidsOf nd b := by
        have hc : (kidsOf nd a ++ es₁.map Prod.snd) ++ c :: (es₂.map Prod.snd ++ kidsOf nd b) = l ++ c :: r := by
          rw [← hk, hab]
          simp [kidsOf, hkids]
        have hndc : (l ++ c :: r).Nodup := by
          have := (h.rows ℓ' hℓ'.le).nodup
          rw [hbelow] at this
          exact this.sublist ((List.Sublist.refl l).append ((List.sublist_cons_self _ _).cons_cons _))
        rw [← hc, List.nodup_append] at hndc
        have hleft : c ∉ kidsOf nd a ++ es₁.map Prod.snd := fun hm => hndc.2.2 c hm c (by simp) rfl
        have hright : c ∉ es₂.map Prod.snd ++ kidsOf nd b := (List.nodup_cons.mp hndc.2.1).1
        obtain ⟨h₁, -, h₂⟩ := (List.append_cons_inj_of_notMem hleft hright).mp hc
        exact ⟨h₁.symm, h₂.symm⟩
      show kidsOf nd' (row (ℓ' + 1)) = row ℓ'
      rw [hbelow, hplace.1, hplace.2, hab]
      simp only [kidsOf, List.flatMap_append, List.flatMap_cons] at ha hb ⊢
      rw [ha, hb, hkids']
      simp
    · have hr : kidsOf nd (row (ℓ' + 1)) = row ℓ' := by
        have := h.kids ℓ' hℓ'
        rwa [Reached, if_neg (Ne.symm hl)] at this
      show kidsOf nd' (row (ℓ' + 1)) = row ℓ'
      rw [← hr]
      exact List.flatMap_congr fun y hy => by
        rw [hne y fun e => hl (Nat.succ_injective (h.level_unique hℓ' hℓ hy (e ▸ hp)))]
  · have := h.root
    rwa [Reached, if_neg (by simp only; omega)] at this

/-- A root over the two halves of the old one. -/
theorem grow {x : Pending κ π} (h : Shape nd nil root row top (some x)) (hx : x.level = top)
    (hq : ∀ ℓ ≤ top, q ∉ row ℓ) (hq' : nd' q = Node.newRoot (top + 1) nil x.child x.sep x.right)
    (hne : ∀ y, y ≠ q → nd' y = nd y) :
    Shape nd' nil q (Function.update row (top + 1) [q]) (top + 1) none := by
  obtain ⟨ℓ, c, sep, d⟩ := x
  subst hx
  simp only at h hq hq' ⊢
  have hr := h.root
  simp only [Reached, if_true] at hr
  obtain ⟨l, r, hrow, hlr⟩ := hr
  obtain ⟨rfl, rfl, rfl⟩ : l = [] ∧ r = [] ∧ root = c := by
    cases l with
    | nil => simp only [List.nil_append, List.cons.injEq] at hlr; exact ⟨rfl, hlr.2.symm, hlr.1⟩
    | cons a l => simp at hlr
  simp only [List.nil_append] at hrow
  have hold : ∀ ℓ' ≤ ℓ, Function.update row (ℓ + 1) [q] ℓ' = row ℓ' := fun ℓ' hℓ' =>
    Function.update_of_ne (by omega) ..
  have hself : Function.update row (ℓ + 1) [q] (ℓ + 1) = [q] := Function.update_self ..
  have hnode : ∀ ℓ' ≤ ℓ, ∀ y ∈ row ℓ', nd' y = nd y := fun ℓ' hℓ' y hy => hne y fun e => hq ℓ' hℓ' (e ▸ hy)
  have hlow : ∀ ℓ' ≤ ℓ, ∀ y ∈ row ℓ', (nd' y).low = (nd y).low := fun ℓ' hℓ' y hy => by rw [hnode ℓ' hℓ' y hy]
  refine ⟨fun ℓ' hℓ' => ?_, fun y hy => ?_, fun ℓ' hℓ' y hy => ?_, fun ℓ' hℓ' => ?_, ?_, by simp⟩
  · by_cases hl : ℓ' = ℓ + 1
    · subst hl
      rw [hself]
      refine ⟨?_, ?_, List.isChain_singleton _, ?_, ?_⟩
      · simp [hq', Node.newRoot]
      · simp [hq', Node.newRoot, Node.Proper]
      · simp [hq', Node.newRoot]
      · simp [hq', Node.newRoot]
    · rw [hold ℓ' (by omega)]
      exact (h.rows ℓ' (by omega)).congr (hnode ℓ' (by omega))
  · rw [hold 0 (Nat.zero_le _)] at hy
    rw [hnode 0 (Nat.zero_le _) y hy]
    exact h.leaf y hy
  · by_cases hl : ℓ' = ℓ
    · subst hl
      rw [hself, List.mem_singleton] at hy
      subst hy
      rw [hq']
      have hd : (nd d).low = sep := (h.sep _ rfl).2
      refine ⟨by simp [Node.newRoot], fun e he => ?_, fun e he => ?_⟩
      · obtain rfl : (⊥, root) = e := by simpa [Node.newRoot] using he
        exact ⟨rfl, (hlow ℓ' le_rfl root (by simp [hrow])).trans h.root_low⟩
      · obtain rfl : e = (↑sep, d) := by simpa [Node.newRoot] using he
        exact (hlow ℓ' le_rfl d (by simp [hrow])).trans hd
    · rw [hold (ℓ' + 1) (by omega)] at hy
      have hi := h.inner ℓ' (by omega) y hy
      rw [hnode (ℓ' + 1) (by omega) y hy]
      have hkl : ∀ e ∈ (nd y).ents, (nd' e.2).low = (nd e.2).low := fun e he =>
        hlow ℓ' (by omega) e.2 (h.kid_mem (by omega) hy (List.mem_map_of_mem he))
      refine ⟨hi.two, fun e he => ?_, fun e he => ?_⟩
      · rw [hkl e (List.mem_of_head? he)]
        exact hi.low_first e he
      · rw [hkl e (List.mem_of_mem_tail he)]
        exact hi.low_tail e he
  · show kidsOf nd' (Function.update row (ℓ + 1) [q] (ℓ' + 1)) = Function.update row (ℓ + 1) [q] ℓ'
    by_cases hl : ℓ' = ℓ
    · subst hl
      rw [hself, hold ℓ' le_rfl, hrow]
      simp [kidsOf, Node.kids, hq', Node.newRoot]
    · have hr := h.kids ℓ' (by omega)
      rw [Reached, if_neg (by simp only; omega)] at hr
      rw [hold (ℓ' + 1) (by omega), hold ℓ' (by omega), ← hr]
      exact List.flatMap_congr fun y hy => by rw [hnode (ℓ' + 1) (by omega) y hy]
  · exact hself.symm

end Shape

omit [LinearOrder κ] in
theorem Grows.refl : Grows nd nd row row top top := ⟨le_rfl, fun _ _ _ hp => hp, fun _ _ _ _ => rfl⟩

/-! ## The way down -/

namespace Path

variable {ps : List π}

omit [LinearOrder κ] in
theorem le (h : Path nd root top ℓ ps) : ℓ ≤ top := by
  induction h with
  | root => exact le_rfl
  | step _ _ ih => omega

omit [LinearOrder κ] in
theorem length (h : Path nd root top ℓ ps) : ps.length = top - ℓ + 1 := by
  induction h with
  | root => simp
  | step _ h ih =>
    have := h.le
    simp only [List.length_cons] at ih ⊢
    omega

omit [LinearOrder κ] in
theorem uncons (h : Path nd root top ℓ (c :: p :: ps)) : c ∈ (nd p).kids ∧ Path nd root top (ℓ + 1) (p :: ps) := by
  generalize hl : c :: p :: ps = l at h
  cases h with
  | root => cases hl
  | step hc h =>
    obtain ⟨rfl, rfl, rfl⟩ : c = _ ∧ p = _ ∧ ps = _ := by simpa using hl
    exact ⟨hc, h⟩

theorem head_mem (hs : Shape nd nil root row top pend) (h : Path nd root top ℓ (p :: ps)) : p ∈ row ℓ := by
  generalize hl : p :: ps = l at h
  induction h generalizing p ps with
  | root =>
    obtain rfl := (List.cons.inj hl).1
    exact hs.root_mem
  | step hc h ih =>
    obtain rfl := (List.cons.inj hl).1
    exact hs.kid_mem (by have := h.le; omega) (ih rfl) hc

/-- The nodes of a path stand on levels of their own. -/
theorem mem_row (hs : Shape nd nil root row top pend) (h : Path nd root top ℓ ps) :
    ∀ x ∈ ps, ∃ ℓ' ≤ top, ℓ ≤ ℓ' ∧ x ∈ row ℓ' := by
  induction h with
  | root =>
    intro x hx
    obtain rfl := List.mem_singleton.mp hx
    exact ⟨top, le_rfl, le_rfl, hs.root_mem⟩
  | step hc h ih =>
    intro x hx
    rcases List.mem_cons.mp hx with rfl | hx
    · exact ⟨_, by have := h.le; omega, le_rfl, hs.kid_mem (by have := h.le; omega) (h.head_mem hs) hc⟩
    · obtain ⟨ℓ', h₁, h₂, h₃⟩ := ih x hx
      exact ⟨ℓ', h₁, by omega, h₃⟩

/-- The nodes above the head are on higher levels. -/
theorem tail_mem_row (hs : Shape nd nil root row top pend) (h : Path nd root top ℓ (p :: ps)) :
    ∀ x ∈ ps, ∃ ℓ' ≤ top, ℓ < ℓ' ∧ x ∈ row ℓ' := by
  cases h with
  | root => simp
  | step hc h =>
    intro x hx
    obtain ⟨ℓ', h₁, h₂, h₃⟩ := h.mem_row hs x hx
    exact ⟨ℓ', h₁, h₂, h₃⟩

/-- No node is on a path twice. -/
theorem nodup (hs : Shape nd nil root row top pend) (h : Path nd root top ℓ ps) : ps.Nodup := by
  induction h with
  | root => exact List.nodup_singleton _
  | @step ℓ c p ps hc h ih =>
    refine List.nodup_cons.mpr ⟨fun hm => ?_, ih⟩
    obtain ⟨ℓ', hℓ', hle, hrow⟩ := h.mem_row hs c hm
    have hℓ : ℓ < top := h.le
    have := hs.level_unique hℓ' hℓ.le hrow (hs.kid_mem hℓ (h.head_mem hs) hc)
    omega

/-- There is one way down to a node. -/
theorem unique (hs : Shape nd nil root row top pend) (h : Path nd root top ℓ (p :: ps)) {qs : List π}
    (h' : Path nd root top ℓ (p :: qs)) : ps = qs := by
  induction ps generalizing p ℓ qs with
  | nil =>
    have := h.length
    have := h'.length
    have := List.length_eq_zero_iff (l := qs)
    simp only [List.length_cons, List.length_nil] at *
    exact (this.mp (by omega)).symm
  | cons a ps ih =>
    obtain ⟨hp, ha⟩ := h.uncons
    cases qs with
    | nil =>
      have := h.length
      have := h'.length
      simp only [List.length_cons, List.length_nil] at *
      omega
    | cons b qs =>
      obtain ⟨hp', hb⟩ := h'.uncons
      obtain rfl := hs.parent_unique ha.le (ha.head_mem hs) (hb.head_mem hs) hp hp'
      rw [ih ha hb]

omit [LinearOrder κ] in
/-- A path depends on the children of the nodes above its head. -/
theorem congr (h : Path nd root top ℓ (p :: ps)) (hnd : ∀ x ∈ ps, nd' x = nd x) : Path nd' root top ℓ (p :: ps) := by
  generalize hl : p :: ps = l at h
  induction h generalizing p ps with
  | root => exact .root
  | step hc h ih =>
    obtain ⟨rfl, rfl⟩ := List.cons.inj hl
    exact .step (by rwa [hnd _ (by simp)]) (ih (fun x hx => hnd x (List.mem_cons_of_mem _ hx)) rfl)

end Path

end Dlsmc.BLink
