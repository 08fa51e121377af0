import Dlsmc.Framework.BLinkSplit

/-!
# Searches in a B-link tree

A search goes from a node to a child or to the right sibling. It leaves behind
the nodes of higher levels and those further left on its own level (`Ahead`).
As the nodes of the rows keep their level and their low fence, and the rows only
grow, it stays ahead of all nodes it has visited while the tree is changed: it
visits no node twice (`Shape.nodup_of_walk`), and so no more nodes than there
are.
-/

namespace Dlsmc.BLink

variable {κ π : Type} [LinearOrder κ] {nd nd' : π → Node κ π} {nil root : π} {row row' : ℕ → List π} {top top' : ℕ}
  {pend : Option (Pending κ π)} {p q : π}

/-- `q` is on a lower level than `p`, or further right on the same level. -/
def Ahead (nd : π → Node κ π) (row : ℕ → List π) (top : ℕ) (q p : π) : Prop :=
  ∃ ℓ ≤ top, p ∈ row ℓ ∧ ∃ ℓ' ≤ top, q ∈ row ℓ' ∧ (ℓ' < ℓ ∨ ℓ' = ℓ ∧ (nd p).low < (nd q).low)

/-- The nodes that a search has visited, the last one first. -/
def Walk (nd : π → Node κ π) (row : ℕ → List π) (top : ℕ) (ps : List π) : Prop := ps.IsChain (Ahead nd row top)

theorem Ahead.grows (h : Ahead nd row top q p) (hg : Grows nd nd' row row' top top') : Ahead nd' row' top' q p := by
  obtain ⟨ℓ, hℓ, hp, ℓ', hℓ', hq, h⟩ := h
  refine ⟨ℓ, hℓ.trans hg.top_le, hg.mem ℓ hℓ p hp, ℓ', hℓ'.trans hg.top_le, hg.mem ℓ' hℓ' q hq, h.imp_right ?_⟩
  rintro ⟨rfl, hlt⟩
  exact ⟨rfl, by rwa [hg.low ℓ' hℓ p hp, hg.low ℓ' hℓ' q hq]⟩

/-- The level below is ahead of a node. -/
theorem Ahead.below {ℓ : ℕ} (hℓ : ℓ < top) (hp : p ∈ row (ℓ + 1)) (hq : q ∈ row ℓ) : Ahead nd row top q p :=
  ⟨ℓ + 1, hℓ, hp, ℓ, hℓ.le, hq, .inl ℓ.lt_succ_self⟩

theorem Walk.grows {ps : List π} (h : Walk nd row top ps) (hg : Grows nd nd' row row' top top') :
    Walk nd' row' top' ps := h.imp fun _ _ h => h.grows hg

namespace Shape

/-- The right sibling of a node is ahead of it. -/
theorem ahead_right (h : Shape nd nil root row top pend) {ℓ : ℕ} (hℓ : ℓ ≤ top) (hp : p ∈ row ℓ)
    (hhigh : (nd p).high ≠ ⊤) : Ahead nd row top (nd p).right p := by
  have hrow := h.rows ℓ hℓ
  obtain ⟨l, r, hps⟩ := List.append_of_mem hp
  obtain ⟨-, htop, -⟩ | ⟨q, r', rfl, hnext⟩ := hrow.right_of hps
  · exact absurd htop hhigh
  · rw [hnext.1]
    exact ⟨ℓ, hℓ, hp, ℓ, hℓ, by simp [hps], .inr ⟨rfl, hnext.low_lt (hrow.proper p hp)⟩⟩

theorem ahead_trans (h : Shape nd nil root row top pend) {r : π} (hrq : Ahead nd row top r q)
    (hqp : Ahead nd row top q p) : Ahead nd row top r p := by
  obtain ⟨ℓ, hℓ, hp, ℓ', hℓ', hq, hqp⟩ := hqp
  obtain ⟨ℓ₂, hℓ₂, hq', ℓ₃, hℓ₃, hr, hrq⟩ := hrq
  obtain rfl : ℓ' = ℓ₂ := ((h.rows ℓ' hℓ').level q hq).symm.trans ((h.rows ℓ₂ hℓ₂).level q hq')
  refine ⟨ℓ, hℓ, hp, ℓ₃, hℓ₃, hr, ?_⟩
  rcases hqp with hlt | ⟨rfl, hlow⟩
  · exact .inl (hrq.elim (fun h => h.trans hlt) fun h => h.1 ▸ hlt)
  · exact hrq.imp_right fun h => ⟨h.1, hlow.trans h.2⟩

theorem ne_of_ahead (h : Shape nd nil root row top pend) (ha : Ahead nd row top q p) : q ≠ p := by
  rintro rfl
  obtain ⟨ℓ, hℓ, hp, ℓ', hℓ', hq, ha⟩ := ha
  obtain rfl : ℓ' = ℓ := ((h.rows ℓ' hℓ').level q hq).symm.trans ((h.rows ℓ hℓ).level q hp)
  rcases ha with hlt | ⟨-, hlow⟩
  · exact hlt.false
  · exact hlow.false

/-- A search visits no node twice. -/
theorem nodup_of_walk (h : Shape nd nil root row top pend) {ps : List π} (hw : Walk nd row top ps) : ps.Nodup := by
  have : IsTrans π (Ahead nd row top) := ⟨fun _ _ _ => h.ahead_trans⟩
  exact (List.isChain_iff_pairwise.mp hw).imp fun ha => h.ne_of_ahead ha

end Shape

/-- The nodes of a search are nodes of the tree. -/
theorem Walk.mem {ps : List π} (h : Walk nd row top (p :: ps)) (hp : ∃ ℓ ≤ top, p ∈ row ℓ) :
    ∀ q ∈ p :: ps, ∃ ℓ ≤ top, q ∈ row ℓ := by
  induction ps generalizing p with
  | nil =>
    intro q hq
    rwa [List.mem_singleton.mp hq]
  | cons r ps ih =>
    obtain ⟨⟨ℓ, hℓ, hr, -⟩, htail⟩ := List.isChain_cons_cons.mp h
    intro q hq
    rcases List.mem_cons.mp hq with rfl | hq
    · exact hp
    · exact ih htail ⟨ℓ, hℓ, hr⟩ q hq

end Dlsmc.BLink
