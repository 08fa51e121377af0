import Mathlib.Data.Option.Basic
import Mathlib.Data.List.Infix
import Mathlib.Data.List.Nodup
import Mathlib.Logic.Function.Basic

/-!
# Nodes that belong to the chains of owners

Nodes are made one after the other and never again taken for others; a node
links to an older one, or ends its chain. Owners have chains, and every node is
in the chain of exactly one of them (`Owned`). A new node starts a chain or goes
on top of one, and a chain passes from one owner to another: whoever has taken
hold of a chain finds its nodes with the owner that has the chain now
(`Kept`).
-/

namespace Dlsmc

/-- Nodes, numbered as they were made, with the node that each links to. -/
structure NodeStore where
  size : Nat
  next : Nat → Option Nat
  older : ∀ a b, next a = some b → b < a

namespace NodeStore

/-- The nodes of the chain that begins at `a`. -/
def cells (S : NodeStore) (a : Nat) : List Nat :=
  match h : S.next a with
  | none => [a]
  | some b =>
    have : b < a := S.older a b h
    a :: S.cells b
termination_by a

/-- A new node, on top of the chain at `b` if there is one. -/
def push (S : NodeStore) (b : Option Nat) : NodeStore where
  size := S.size + 1
  next := Function.update S.next S.size (b.filter (· < S.size))
  older a c h := by
    by_cases ha : a = S.size
    · subst ha
      rw [Function.update_self, Option.filter_eq_some_iff, decide_eq_true_eq] at h
      exact h.2
    · rw [Function.update_of_ne ha] at h
      exact S.older a c h

variable {S : NodeStore} {a b x : Nat} {o : Option Nat}

theorem cells_last (h : S.next a = none) : S.cells a = [a] := by
  rw [cells]
  split
  · rfl
  · rename_i hb
    cases h.symm.trans hb

theorem cells_link (h : S.next a = some b) : S.cells a = a :: S.cells b := by
  rw [cells]
  split
  · rename_i hn
    cases h.symm.trans hn
  · rename_i hb
    rw [Option.some.inj (h.symm.trans hb)]

theorem mem_cells_self : a ∈ S.cells a := by
  cases h : S.next a with
  | none => exact cells_last h ▸ List.mem_singleton_self a
  | some b => exact cells_link h ▸ List.mem_cons_self

theorem le_of_mem_cells (h : x ∈ S.cells a) : x ≤ a := by
  induction a using Nat.strongRecOn with
  | ind a ih =>
    cases hn : S.next a with
    | none =>
      rw [cells_last hn, List.mem_singleton] at h
      exact Nat.le_of_eq h
    | some b =>
      have hlt := S.older a b hn
      rw [cells_link hn, List.mem_cons] at h
      rcases h with rfl | h
      · exact le_rfl
      · exact (ih b hlt h).trans (Nat.le_of_lt hlt)

theorem nodup_cells (S : NodeStore) (a : Nat) : (S.cells a).Nodup := by
  induction a using Nat.strongRecOn with
  | ind a ih =>
    cases hn : S.next a with
    | none => exact cells_last hn ▸ List.nodup_singleton a
    | some b =>
      have hlt := S.older a b hn
      rw [cells_link hn, List.nodup_cons]
      exact ⟨fun hm => absurd (le_of_mem_cells hm) (Nat.not_le_of_lt hlt), ih b hlt⟩

/-- Chains that are there stay as they are. -/
theorem cells_push (h : a < S.size) (c : Option Nat) : (S.push c).cells a = S.cells a := by
  induction a using Nat.strongRecOn with
  | ind a ih =>
    have hnext : (S.push c).next a = S.next a := Function.update_of_ne (Nat.ne_of_lt h) ..
    cases hn : S.next a with
    | none => rw [cells_last hn, cells_last (hnext.trans hn)]
    | some b =>
      have hlt := S.older a b hn
      rw [cells_link hn, cells_link (hnext.trans hn), ih b hlt (hlt.trans h)]

/-- The nodes of the chain of an owner that may have none. -/
def chain (S : NodeStore) : Option Nat → List Nat
  | none => []
  | some a => S.cells a

theorem nodup_chain (S : NodeStore) (o : Option Nat) : (S.chain o).Nodup := by
  cases o with
  | none => exact .nil
  | some a => exact S.nodup_cells a

theorem flatMap_chain (S : NodeStore) (l : List Nat) :
    ((List.range l.length).flatMap fun i => S.chain l[i]?) = l.flatMap S.cells := by
  have hmap : ((List.range l.length).map fun i => S.chain l[i]?) = l.map S.cells := by
    refine List.ext_getElem (by simp) fun i hi _ => ?_
    have hlt : i < l.length := by simpa using hi
    simp [hlt, chain]
  rw [List.flatMap_def, List.flatMap_def, hmap]

theorem cells_push_self (h : ∀ b, o = some b → b < S.size) : (S.push o).cells S.size = S.size :: S.chain o := by
  have hn : (S.push o).next S.size = o.filter (· < S.size) := Function.update_self ..
  cases o with
  | none => exact cells_last hn
  | some b =>
    have hb := h b rfl
    rw [Option.filter_some, if_pos (decide_eq_true hb)] at hn
    rw [cells_link hn, cells_push hb]
    rfl

end NodeStore

variable {R : Type} {S : NodeStore} {root : R → Option Nat} {ok ok' : R → Prop} {r r' : R} {a x : Nat}

/-- Every node is in the chain of one owner; `root` has where the chain of an
owner begins. -/
structure Owned (S : NodeStore) (root : R → Option Nat) : Prop where
  one : ∀ r r' x, x ∈ S.chain (root r) → x ∈ S.chain (root r') → r = r'
  all : ∀ x, x < S.size ↔ ∃ r, x ∈ S.chain (root r)

/-- The chain at `a` is the end of the chain of an owner that is `ok`. -/
def Kept (S : NodeStore) (root : R → Option Nat) (ok : R → Prop) (a : Nat) : Prop :=
  ∃ r b, ok r ∧ root r = some b ∧ S.cells a <:+ S.cells b

theorem Owned.lt (h : Owned S root) (hr : root r = some a) : a < S.size :=
  (h.all a).mpr ⟨r, hr ▸ NodeStore.mem_cells_self⟩

/-- Owners among whom are all that have a chain have every node once. -/
theorem Owned.perm_range (h : Owned S root) {rs : List R} (hrs : rs.Nodup) (hall : ∀ r, root r ≠ none → r ∈ rs) :
    (rs.flatMap fun r => S.chain (root r)).Perm (List.range S.size) := by
  refine (List.perm_ext_iff_of_nodup (List.nodup_flatMap.mpr ⟨fun r _ => S.nodup_chain _, ?_⟩) List.nodup_range).mpr
    fun x => ?_
  · exact hrs.imp fun hne x hx hx' => hne (h.one _ _ x hx hx')
  · rw [List.mem_flatMap, List.mem_range, h.all x]
    constructor
    · rintro ⟨r, -, hx⟩
      exact ⟨r, hx⟩
    · rintro ⟨r, hx⟩
      refine ⟨r, hall r fun hn => ?_, hx⟩
      rw [hn] at hx
      cases hx

namespace Kept

theorem of_root (hok : ok r) (hr : root r = some a) : Kept S root ok a := ⟨r, a, hok, hr, List.suffix_refl _⟩

/-- No other owner has a node of the chain. -/
theorem notMem (h : Kept S root ok a) (ho : Owned S root) (hx : x ∈ S.cells a) (hr : ¬ok r) :
    x ∉ S.chain (root r) := by
  obtain ⟨q, b, hq, hb, hs⟩ := h
  have hxb : x ∈ S.chain (root q) := hb ▸ hs.subset hx
  exact fun hxr => hr (ho.one q r x hxb hxr ▸ hq)

theorem lt (h : Kept S root ok a) (ho : Owned S root) : a < S.size := by
  obtain ⟨q, b, -, hb, hs⟩ := h
  exact (ho.all a).mpr ⟨q, hb ▸ hs.subset NodeStore.mem_cells_self⟩

end Kept

/-! ## New nodes, and chains that pass on -/

section
variable [DecidableEq R]

theorem Owned.chain_push (h : Owned S root) (r q : R) :
    (S.push (root r)).chain (Function.update root r (some S.size) q) =
      if q = r then S.size :: S.chain (root r) else S.chain (root q) := by
  by_cases hq : q = r
  · subst hq
    rw [Function.update_self, if_pos rfl]
    exact NodeStore.cells_push_self fun b hb => h.lt hb
  · rw [Function.update_of_ne hq, if_neg hq]
    cases hb : root q with
    | none => rfl
    | some b => exact NodeStore.cells_push (h.lt hb) _

/-- A new node on top of the chain of `r`, or the first one of its chain. -/
theorem Owned.push (h : Owned S root) (r : R) : Owned (S.push (root r)) (Function.update root r (some S.size)) := by
  have hold : ∀ q x, x ∈ S.chain (root q) → x ≠ S.size := fun q x hx => Nat.ne_of_lt ((h.all x).mpr ⟨q, hx⟩)
  have hmem : ∀ q x, x ∈ (S.push (root r)).chain (Function.update root r (some S.size) q) ↔
      x = S.size ∧ q = r ∨ x ∈ S.chain (root q) := fun q x => by
    rw [h.chain_push]
    split
    · rename_i hq
      rw [List.mem_cons, hq]
      simp
    · rename_i hq
      simp [hq]
  refine ⟨fun q q' x hx hx' => ?_, fun x => ?_⟩
  · rcases (hmem q x).mp hx with ⟨rfl, rfl⟩ | hx
    · rcases (hmem q' _).mp hx' with ⟨-, rfl⟩ | hx'
      · rfl
      · exact absurd rfl (hold q' _ hx')
    · rcases (hmem q' x).mp hx' with ⟨rfl, -⟩ | hx'
      · exact absurd rfl (hold q _ hx)
      · exact h.one q q' x hx hx'
  · show x < S.size + 1 ↔ _
    rw [Nat.lt_succ_iff_lt_or_eq, h.all x]
    constructor
    · rintro (⟨q, hq⟩ | rfl)
      · exact ⟨q, (hmem q x).mpr (.inr hq)⟩
      · exact ⟨r, (hmem r _).mpr (.inl ⟨rfl, rfl⟩)⟩
    · rintro ⟨q, hq⟩
      rcases (hmem q x).mp hq with ⟨rfl, -⟩ | hq
      · exact .inr rfl
      · exact .inl ⟨q, hq⟩

theorem Kept.push (h : Kept S root ok a) (ho : Owned S root) (r : R) :
    Kept (S.push (root r)) (Function.update root r (some S.size)) ok a := by
  have ha : (S.push (root r)).cells a = S.cells a := NodeStore.cells_push (h.lt ho) _
  obtain ⟨q, b, hq, hb, hs⟩ := h
  have hcells := ho.chain_push r q
  rw [hb] at hcells
  by_cases hqr : q = r
  · subst hqr
    refine ⟨q, S.size, hq, Function.update_self .., ?_⟩
    rw [Function.update_self, if_pos rfl, hb] at hcells
    have hcells : (S.push (some b)).cells S.size = S.size :: S.cells b := hcells
    rw [hb] at ha
    rw [hb, ha, hcells]
    exact hs.trans (List.suffix_cons ..)
  · refine ⟨q, b, hq, (Function.update_of_ne hqr ..).trans hb, ?_⟩
    rw [ha, NodeStore.cells_push (ho.lt hb)]
    exact hs

/-- The owners after the chain of `r` has passed to `r'`. -/
def passed (root : R → Option Nat) (r r' : R) : R → Option Nat :=
  Function.update (Function.update root r none) r' (root r)

/-- The chain passes to an owner that had none. -/
theorem Owned.pass (h : Owned S root) (hr' : root r' = none) : Owned S (passed root r r') := by
  have hmem : ∀ q x, x ∈ S.chain (passed root r r' q) →
      q = r' ∧ x ∈ S.chain (root r) ∨ q ≠ r ∧ x ∈ S.chain (root q) := fun q x hx => by
    by_cases hq' : q = r'
    · subst hq'
      rw [passed, Function.update_self] at hx
      exact .inl ⟨rfl, hx⟩
    · rw [passed, Function.update_of_ne hq'] at hx
      by_cases hq : q = r
      · subst hq
        rw [Function.update_self] at hx
        cases hx
      · rw [Function.update_of_ne hq] at hx
        exact .inr ⟨hq, hx⟩
  refine ⟨fun q q' x hx hx' => ?_, fun x => ?_⟩
  · rcases hmem q x hx with ⟨rfl, hm⟩ | ⟨hq, hm⟩
    · rcases hmem q' x hx' with ⟨rfl, -⟩ | ⟨hq', hm'⟩
      · rfl
      · exact absurd (h.one _ _ x hm' hm) hq'
    · rcases hmem q' x hx' with ⟨rfl, hm'⟩ | ⟨-, hm'⟩
      · exact absurd (h.one _ _ x hm hm') hq
      · exact h.one q q' x hm hm'
  · rw [h.all x]
    constructor
    · rintro ⟨q, hq⟩
      by_cases hqr : q = r
      · subst hqr
        exact ⟨r', by rwa [passed, Function.update_self]⟩
      · have hqr' : q ≠ r' := by
          rintro rfl
          rw [hr'] at hq
          cases hq
        exact ⟨q, by rwa [passed, Function.update_of_ne hqr', Function.update_of_ne hqr]⟩
    · rintro ⟨q, hq⟩
      rcases hmem q x hq with ⟨-, hx⟩ | ⟨-, hx⟩
      · exact ⟨r, hx⟩
      · exact ⟨q, hx⟩

theorem Kept.pass (h : Kept S root ok a) (hr' : root r' = none) (hok : ok r → ok r') :
    Kept S (passed root r r') ok a := by
  obtain ⟨q, b, hq, hb, hs⟩ := h
  by_cases hqr : q = r
  · subst hqr
    exact ⟨r', b, hok hq, by rw [passed, Function.update_self, hb], hs⟩
  · have hqr' : q ≠ r' := by
      rintro rfl
      cases hr'.symm.trans hb
    exact ⟨q, b, hq, by rw [passed, Function.update_of_ne hqr', Function.update_of_ne hqr, hb], hs⟩

end

end Dlsmc
