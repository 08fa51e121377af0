import Mathlib.Data.List.Chain
import Mathlib.Data.List.Basic
import Mathlib.Data.Finset.Card
import Mathlib.Logic.Function.Basic
import Mathlib.Order.WithBot

/-!
# B-link trees

A B-link tree is a table of nodes, each with a level, a half-open range of
keys between its two fences, a link to its right sibling and, above the
leaves, entries that give the low ends of its children. The nodes of one level
form a row: from left to right their ranges follow each other from `⊥` to `⊤`,
and the right links enumerate them (`Row`).

`Shape` states that the rows are stacked into a tree: the children of a row
are the row below it, and the root is the row at the top. A split of a node is
two changes of the table. After the first (`Shape.split`) the new right node is
in its row, reached by the right link of the node that was split, and not yet
by an entry above: it is `Pending`. The second gives it an entry in the parent
(`Shape.insert`) or grows a root over both (`Shape.grow`). Whoever descends in
between stays at or left of the node that covers its key.
-/

namespace Dlsmc.BLink

variable {κ π : Type}

/-- What a descent and a change of structure see of a node. A leaf has no
entries; the first separator of an internal node is never compared. -/
structure Node (κ π : Type) where
  level : ℕ
  low : WithBot κ
  high : WithTop κ
  right : π
  ents : List (WithBot κ × π)

namespace Node

/-- The children of a node, from left to right. -/
def kids (n : Node κ π) : List π := n.ents.map Prod.snd

variable [LinearOrder κ]

/-- The key is in the range of the node. -/
def Covers (n : Node κ π) (k : κ) : Prop := n.low ≤ k ∧ (k : WithTop κ) < n.high

/-- The fences of the node leave a key between them. -/
def Proper (n : Node κ π) : Prop := ∀ a b : κ, n.low = a → n.high = b → a < b

end Node

/-- A split whose right half is linked from the left one only: `right`, with
low fence `sep`, stands next to `child` on its level. -/
structure Pending (κ π : Type) where
  level : ℕ
  child : π
  sep : κ
  right : π

section Rows

variable [LinearOrder κ] (nd : π → Node κ π)

/-- `q` is the right sibling of `p`, and its range begins where that of `p`
ends. -/
def Next (p q : π) : Prop := (nd p).right = q ∧ ∃ s : κ, (nd p).high = s ∧ (nd q).low = s

/-- The nodes of one level, from left to right; `nil` is the null link. -/
structure Row (nil : π) (ℓ : ℕ) (ps : List π) : Prop where
  level : ∀ p ∈ ps, (nd p).level = ℓ
  proper : ∀ p ∈ ps, (nd p).Proper
  next : ps.IsChain (Next nd)
  first : ∀ p ∈ ps.head?, (nd p).low = ⊥
  last : ∀ p ∈ ps.getLast?, (nd p).high = ⊤ ∧ (nd p).right = nil

/-- The children of a list of nodes. -/
def kidsOf (ps : List π) : List π := ps.flatMap fun p => (nd p).kids

/-- The entries of an internal node give the low fences of its children; the
first child begins where the node begins. -/
structure Inner (n : Node κ π) : Prop where
  two : 2 ≤ n.ents.length
  low_first : ∀ e ∈ n.ents.head?, e.1 = ⊥ ∧ (nd e.2).low = n.low
  low_tail : ∀ e ∈ n.ents.tail, (nd e.2).low = e.1

end Rows

/-- The descent from `n` with `k` goes to `c`: the child of the last entry
that does not begin after `k`. -/
def Routes [LinearOrder κ] (n : Node κ π) (k : κ) (c : π) : Prop :=
  ∃ (l r : List (WithBot κ × π)) (e : WithBot κ × π),
    n.ents = l ++ e :: r ∧ e.2 = c ∧ e.1 ≤ k ∧ ∀ f ∈ r, k < f.1

/-- The row `ps` of a level, as the level above knows it: all of it, but for
the right half of a pending split. -/
def Reached : Option (Pending κ π) → ℕ → List π → List π → Prop
  | none, _, ks, ps => ks = ps
  | some x, ℓ, ks, ps =>
    if x.level = ℓ then ∃ l r, ps = l ++ x.child :: x.right :: r ∧ ks = l ++ x.child :: r else ks = ps

/-- The table `nd` holds a B-link tree of height `top + 1` with rows `row`,
whose splits are all complete but for `pend`. -/
structure Shape [LinearOrder κ] (nd : π → Node κ π) (nil root : π) (row : ℕ → List π) (top : ℕ)
    (pend : Option (Pending κ π)) : Prop where
  rows : ∀ ℓ ≤ top, Row nd nil ℓ (row ℓ)
  leaf : ∀ p ∈ row 0, (nd p).ents = []
  inner : ∀ ℓ < top, ∀ p ∈ row (ℓ + 1), Inner nd (nd p)
  kids : ∀ ℓ < top, Reached pend ℓ (kidsOf nd (row (ℓ + 1))) (row ℓ)
  root : Reached pend top [root] (row top)
  sep : ∀ x ∈ pend, x.level ≤ top ∧ (nd x.right).low = x.sep

/-! ## One row -/

section

variable [LinearOrder κ] {nd : π → Node κ π} {nil : π} {ℓ : ℕ} {ps : List π}

theorem Next.low_lt {p q : π} (h : Next nd p q) (hp : (nd p).Proper) : (nd p).low < (nd q).low := by
  obtain ⟨-, s, hs, hq⟩ := h
  rw [hq]
  cases hl : (nd p).low with
  | bot => exact WithBot.bot_lt_coe s
  | coe a => exact WithBot.coe_lt_coe.mpr (hp a s hl hs)

/-- Along a row the low fences increase. -/
theorem Row.pairwise_low (h : Row nd nil ℓ ps) : ps.Pairwise fun p q => (nd p).low < (nd q).low := by
  have hc : ps.IsChain fun p q => (nd p).low < (nd q).low :=
    h.next.imp_of_mem_imp fun p q hp _ hn => hn.low_lt (h.proper p hp)
  have : IsTrans π fun p q => (nd p).low < (nd q).low := ⟨fun _ _ _ => lt_trans⟩
  exact List.isChain_iff_pairwise.mp hc

theorem Row.nodup (h : Row nd nil ℓ ps) : ps.Nodup :=
  h.pairwise_low.imp fun hlt heq => (heq ▸ hlt).false

/-- What stands right of a node of a row: the null link, or its sibling. -/
theorem Row.right_of (h : Row nd nil ℓ ps) {l r : List π} {p : π} (hps : ps = l ++ p :: r) :
    (r = [] ∧ (nd p).high = ⊤ ∧ (nd p).right = nil) ∨ ∃ q r', r = q :: r' ∧ Next nd p q := by
  subst hps
  cases r with
  | nil => exact .inl ⟨rfl, h.last p (by simp)⟩
  | cons q r =>
    have := h.next.right_of_append
    exact .inr ⟨q, r, rfl, (List.isChain_cons_cons.mp this).1⟩

/-- A node ends before the nodes right of it begin. -/
theorem Row.high_le (h : Row nd nil ℓ ps) {l r : List π} {p q : π} (hps : ps = l ++ p :: r) (hq : q ∈ r) :
    ∃ s : κ, (nd p).high = s ∧ (s : WithBot κ) ≤ (nd q).low := by
  obtain ⟨rfl, -⟩ | ⟨q', r', rfl, -, s, hs, hlow⟩ := h.right_of hps
  · cases hq
  · refine ⟨s, hs, ?_⟩
    rcases List.mem_cons.mp hq with rfl | hq
    · exact hlow.ge
    · have hp := h.pairwise_low
      rw [hps, List.pairwise_append] at hp
      have := (List.pairwise_cons.mp (List.pairwise_cons.mp hp.2.1).2).1 q hq
      exact hlow ▸ this.le

/-- No key is in the range of two nodes of a row. -/
theorem Row.unique (h : Row nd nil ℓ ps) {p q : π} {k : κ} (hp : p ∈ ps) (hq : q ∈ ps)
    (hpk : (nd p).Covers k) (hqk : (nd q).Covers k) : p = q := by
  -- the one that stands left ends at or before the low fence of the other
  have key {l r : List π} {a b : π} (hps : ps = l ++ a :: r) (hb : b ∈ r) (ha : (nd a).Covers k)
      (hbk : (nd b).Covers k) : False := by
    obtain ⟨s, hs, hle⟩ := h.high_le hps hb
    have h₁ := ha.2
    rw [hs, WithTop.coe_lt_coe] at h₁
    have h₂ := WithBot.coe_le_coe.mp (hle.trans hbk.1)
    exact (h₁.trans_le h₂).false
  obtain ⟨l, r, hps⟩ := List.append_of_mem hp
  rw [hps, List.mem_append, List.mem_cons] at hq
  rcases hq with hl | rfl | hr
  · obtain ⟨l₁, l₂, rfl⟩ := List.append_of_mem hl
    exact (key (l := l₁) (r := l₂ ++ p :: r) (by simpa using hps) (by simp) hqk hpk).elim
  · rfl
  · exact (key hps hr hpk hqk).elim

/-- Every key is in the range of a node of the row. -/
theorem Row.exists_covers (h : Row nd nil ℓ ps) (hne : ps ≠ []) (k : κ) : ∃ p ∈ ps, (nd p).Covers k := by
  -- the induction goes over the suffixes of the row that begin at or below `k`
  have key : ∀ r l : List π, ps = l ++ r → (∀ p ∈ r.head?, (nd p).low ≤ k) → r ≠ [] →
      ∃ p ∈ r, (nd p).Covers k := by
    intro r
    induction r with
    | nil => exact fun _ _ _ hne => absurd rfl hne
    | cons p r ih =>
      intro l hps hlow _
      have hp : (nd p).low ≤ k := hlow p rfl
      obtain ⟨-, htop, -⟩ | ⟨q, r', rfl, -, s, hs, hqs⟩ := h.right_of hps
      · exact ⟨p, by simp, hp, htop ▸ WithTop.coe_lt_top k⟩
      · rcases lt_or_ge k s with hks | hks
        · exact ⟨p, by simp, hp, hs ▸ WithTop.coe_lt_coe.mpr hks⟩
        · obtain ⟨x, hx, hxk⟩ := ih (l ++ [p]) (by simpa using hps)
            (by simpa [hqs] using hks) (by simp)
          exact ⟨x, .tail _ hx, hxk⟩
  exact key ps [] rfl (fun p hp => h.first p hp ▸ bot_le) hne

end

/-! ## Reaching a row from above -/

section

variable {pend : Option (Pending κ π)} {ℓ : ℕ} {ks ps : List π}

theorem Reached.sublist (h : Reached pend ℓ ks ps) : ks.Sublist ps := by
  cases pend with
  | none => exact h ▸ List.Sublist.refl _
  | some x =>
    simp only [Reached] at h
    split at h
    · obtain ⟨l, r, rfl, rfl⟩ := h
      exact (List.Sublist.refl l).append ((List.sublist_cons_self _ _).cons_cons _)
    · exact h ▸ List.Sublist.refl _

/-- A row is reached from its left end. -/
theorem Reached.head? (h : Reached pend ℓ ks ps) : ps.head? = ks.head? := by
  cases pend with
  | none => rw [show ks = ps from h]
  | some x =>
    simp only [Reached] at h
    split at h
    · obtain ⟨l, r, rfl, rfl⟩ := h
      cases l <;> rfl
    · rw [h]

theorem Reached.mem (h : Reached pend ℓ ks ps) {p : π} (hp : p ∈ ks) : p ∈ ps := h.sublist.subset hp

end

/-! ## The whole tree -/

namespace Shape

variable [LinearOrder κ] {nd nd' : π → Node κ π} {nil root : π} {row : ℕ → List π} {top : ℕ}
  {pend : Option (Pending κ π)} {ℓ : ℕ} {p c : π} {k : κ}

theorem kids_sublist (h : Shape nd nil root row top pend) (hℓ : ℓ < top) (hp : p ∈ row (ℓ + 1)) :
    (nd p).kids.Sublist (row ℓ) := by
  obtain ⟨l, r, hrow⟩ := List.append_of_mem hp
  refine List.Sublist.trans ?_ (h.kids ℓ hℓ).sublist
  rw [hrow, kidsOf, List.flatMap_append, List.flatMap_cons]
  exact (List.sublist_append_left _ _).trans (List.sublist_append_right _ _)

theorem kid_mem (h : Shape nd nil root row top pend) (hℓ : ℓ < top) (hp : p ∈ row (ℓ + 1))
    (hc : c ∈ (nd p).kids) : c ∈ row ℓ := (h.kids_sublist hℓ hp).subset hc

theorem root_mem (h : Shape nd nil root row top pend) : root ∈ row top := h.root.mem (by simp)

/-- The root stands at the left end of its row. -/
theorem root_low (h : Shape nd nil root row top pend) : (nd root).low = ⊥ :=
  (h.rows top le_rfl).first root (h.root.head? ▸ rfl)

/-- Both halves of a pending split are in their row. -/
theorem pending_mem {x : Pending κ π} (h : Shape nd nil root row top (some x)) :
    x.child ∈ row x.level ∧ x.right ∈ row x.level := by
  have hr : ∃ ks, Reached (some x) x.level ks (row x.level) := by
    rcases (h.sep x rfl).1.lt_or_eq with hlt | heq
    · exact ⟨_, h.kids x.level hlt⟩
    · exact ⟨_, heq ▸ h.root⟩
  obtain ⟨ks, hr⟩ := hr
  simp only [Reached, if_true] at hr
  obtain ⟨l, r, hrow, -⟩ := hr
  simp [hrow]

/-- The separators of an internal node increase. -/
theorem pairwise_seps (h : Shape nd nil root row top pend) (hℓ : ℓ < top) (hp : p ∈ row (ℓ + 1)) :
    (nd p).ents.tail.Pairwise fun e f => e.1 < f.1 := by
  have hlow := (h.rows ℓ hℓ.le).pairwise_low.sublist (h.kids_sublist hℓ hp)
  rw [Node.kids, List.pairwise_map] at hlow
  refine (hlow.sublist (List.tail_sublist _)).imp_of_mem fun he hf hlt => ?_
  have hi := h.inner ℓ hℓ p hp
  rwa [hi.low_tail _ he, hi.low_tail _ hf] at hlt

/-- Going down never passes the key: the child begins at or before it. -/
theorem route_low (h : Shape nd nil root row top pend) (hℓ : ℓ < top) (hp : p ∈ row (ℓ + 1))
    (hk : (nd p).low ≤ k) (hc : Routes (nd p) k c) : c ∈ row ℓ ∧ (nd c).low ≤ k := by
  obtain ⟨l, r, e, hents, rfl, hek, -⟩ := hc
  have hi := h.inner ℓ hℓ p hp
  refine ⟨h.kid_mem hℓ hp (by simp [Node.kids, hents]), ?_⟩
  cases l with
  | nil => exact ((hi.low_first e (by simp [hents])).2).trans_le hk
  | cons x l => exact (hi.low_tail e (by simp [hents])).trans_le hek

/-- With no split pending, a child ends where the next one begins, and the last
one where the node ends. -/
theorem kid_high (h : Shape nd nil root row top none) (hℓ : ℓ < top) (hp : p ∈ row (ℓ + 1))
    {l r : List (WithBot κ × π)} {e : WithBot κ × π} (hents : (nd p).ents = l ++ e :: r) :
    (∃ s : κ, (nd e.2).high = s ∧ ∃ f r', r = f :: r' ∧ f.1 = s) ∨ r = [] ∧ (nd e.2).high = (nd p).high := by
  obtain ⟨a, b, hrow⟩ := List.append_of_mem hp
  -- the child in its own row, with what stands right of it there
  have hbelow : row ℓ = (kidsOf nd a ++ l.map Prod.snd) ++ e.2 :: (r.map Prod.snd ++ kidsOf nd b) := by
    rw [← show kidsOf nd (row (ℓ + 1)) = row ℓ from h.kids ℓ hℓ, hrow]
    simp [kidsOf, Node.kids, hents]
  cases r with
  | cons f r =>
    -- the next entry of the same node
    obtain ⟨hq, -⟩ | ⟨q, r', hq, -, s, hs, hqs⟩ := (h.rows ℓ hℓ.le).right_of hbelow
    · cases hq
    · obtain ⟨rfl, -⟩ := List.cons.inj hq
      have hf := (h.inner ℓ hℓ p hp).low_tail f (by rw [hents]; cases l <;> simp)
      exact .inl ⟨s, hs, f, r, rfl, hf.symm.trans hqs⟩
  | nil =>
    -- the first child of the next node, which begins where this one ends
    refine .inr ⟨rfl, ?_⟩
    obtain ⟨rfl, hph, -⟩ | ⟨p', b', rfl, -, s', hs', hlow'⟩ := (h.rows (ℓ + 1) hℓ).right_of hrow
    · obtain ⟨-, htop, -⟩ | ⟨q, r', hq, -⟩ := (h.rows ℓ hℓ.le).right_of hbelow
      · rw [htop, hph]
      · cases hq
    · have hi' := h.inner ℓ hℓ p' (by simp [hrow])
      obtain ⟨f, es, hes⟩ : ∃ f es, (nd p').ents = f :: es := by
        cases he : (nd p').ents with
        | nil => simpa [he] using hi'.two
        | cons f es => exact ⟨f, es, rfl⟩
      have hkids : kidsOf nd (p' :: b') = f.2 :: (es.map Prod.snd ++ kidsOf nd b') := by
        simp [kidsOf, Node.kids, hes]
      rw [List.map_nil, List.nil_append, hkids] at hbelow
      obtain ⟨hq, -⟩ | ⟨q, r', hq, -, s, hs, hqs⟩ := (h.rows ℓ hℓ.le).right_of hbelow
      · cases hq
      · obtain ⟨rfl, -⟩ := List.cons.inj hq
        rw [(hi'.low_first f (by simp [hes])).2, hlow', WithBot.coe_inj] at hqs
        rw [hs, hs', hqs]

/-- With no split pending, the child of a node that covers the key covers it. -/
theorem route_covers (h : Shape nd nil root row top none) (hℓ : ℓ < top) (hp : p ∈ row (ℓ + 1))
    (hk : (nd p).Covers k) (hc : Routes (nd p) k c) : c ∈ row ℓ ∧ (nd c).Covers k := by
  obtain ⟨hmem, hlow⟩ := h.route_low hℓ hp hk.1 hc
  refine ⟨hmem, hlow, ?_⟩
  obtain ⟨l, r, e, hents, rfl, -, hr⟩ := hc
  obtain ⟨s, hs, f, r', rfl, hf⟩ | ⟨-, hhigh⟩ := h.kid_high hℓ hp hents
  · have := hr f (by simp)
    rw [hf, WithBot.coe_lt_coe] at this
    rwa [hs, WithTop.coe_lt_coe]
  · exact hhigh ▸ hk.2

end Shape

end Dlsmc.BLink
