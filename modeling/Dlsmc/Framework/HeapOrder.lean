import Dlsmc.Framework.IndexedHeap

/-!
# The order of a binary heap

For an order `less` that is a strict weak order (`WeakOrder`), no element of a
heap is less than its parent (`Ordered`), so the first is a least one
(`Ordered.least`). `push` and `remove` keep this. While an element moves, it is
in order but around the place of that element: for `up` (`UpOrdered`) and for
`down` (`DownOrdered`).

The loops of `up` and `down` end: rounds beyond those they need change nothing
(`up_rounds`, `down_rounds`).
-/

namespace Dlsmc

/-- A strict order whose incomparable elements can replace each other. -/
structure WeakOrder {ι : Type} (less : ι → ι → Bool) : Prop where
  asymm : ∀ {a b}, less a b = true → less b a = false
  trans : ∀ {a b c}, less b a = false → less c b = false → less c a = false

namespace IndexedHeap

variable {ι : Type} [DecidableEq ι] {less less' : ι → ι → Bool} {h : IndexedHeap ι} {i j n : Nat} {x : ι}

omit [DecidableEq ι] in
theorem WeakOrder.irrefl (hw : WeakOrder less) (a : ι) : less a a = false := by
  cases h : less a a with
  | false => rfl
  | true => exact h.symm.trans (hw.asymm h)

/-- No element is less than its parent. -/
def Ordered (less : ι → ι → Bool) (h : IndexedHeap ι) : Prop :=
  ∀ k < h.count, 0 < k → less (h.arr k) (h.arr ((k - 1) / 2)) = false

/-- In order, but for the element at `i`, which may be less than its parent. -/
structure UpOrdered (less : ι → ι → Bool) (h : IndexedHeap ι) (i : Nat) : Prop where
  others : ∀ k < h.count, 0 < k → k ≠ i → less (h.arr k) (h.arr ((k - 1) / 2)) = false
  children : 0 < i → ∀ k < h.count, 0 < k → (k - 1) / 2 = i → less (h.arr k) (h.arr ((i - 1) / 2)) = false

/-- In order, but for the element at `i`, whose children may be less. -/
structure DownOrdered (less : ι → ι → Bool) (h : IndexedHeap ι) (i : Nat) : Prop where
  others : ∀ k < h.count, 0 < k → (k - 1) / 2 ≠ i → less (h.arr k) (h.arr ((k - 1) / 2)) = false
  children : 0 < i → ∀ k < h.count, 0 < k → (k - 1) / 2 = i → less (h.arr k) (h.arr ((i - 1) / 2)) = false

omit [DecidableEq ι] in
/-- The first element is a least one. -/
theorem Ordered.least (hw : WeakOrder less) (ho : Ordered less h) (hi : i < h.count) :
    less (h.arr i) (h.arr 0) = false := by
  induction i using Nat.strongRecOn with
  | _ i ih =>
    rcases Nat.eq_zero_or_pos i with rfl | hpos
    · exact WeakOrder.irrefl hw _
    · have hp : (i - 1) / 2 < i := by omega
      exact hw.trans (ih _ hp (by omega)) (ho i hi hpos)

omit [DecidableEq ι] in
/-- The order of a heap depends on the order of its elements only. -/
theorem Ordered.congr (ho : Ordered less h) (hl : ∀ x y, h.Mem x → h.Mem y → less' x y = less x y) :
    Ordered less' h := fun k hk hpos =>
  (hl _ _ ⟨k, hk, rfl⟩ ⟨(k - 1) / 2, by omega, rfl⟩).trans (ho k hk hpos)

/-! ## Moves -/

theorem swap_arr (h : IndexedHeap ι) (i j k : Nat) :
    (h.swap i j).arr k = if k = j then h.arr i else if k = i then h.arr j else h.arr k := by
  simp only [swap, Function.update_apply]

/-- An element that is less than its parent takes its place. -/
theorem UpOrdered.move (hw : WeakOrder less) (ho : UpOrdered less h i) (hi : i < h.count) (hpos : 0 < i)
    (hless : less (h.arr i) (h.arr ((i - 1) / 2)) = true) :
    UpOrdered less (h.swap i ((i - 1) / 2)) ((i - 1) / 2) := by
  have hpi : (i - 1) / 2 ≠ i := by omega
  have hasymm := hw.asymm hless
  constructor
  · intro k hk hk0 hkp
    change k < h.count at hk
    rw [swap_arr, swap_arr, if_neg hkp]
    rcases eq_or_ne k i with rfl | hki
    · rw [if_pos rfl, if_pos rfl]
      exact hasymm
    · rw [if_neg hki]
      by_cases hkpi : (k - 1) / 2 = i
      · rw [hkpi, if_neg (Ne.symm hpi), if_pos rfl]
        exact ho.children hpos k hk hk0 hkpi
      · by_cases hkpp : (k - 1) / 2 = (i - 1) / 2
        · rw [if_pos hkpp]
          exact hw.trans hasymm (hkpp ▸ ho.others k hk hk0 hki)
        · rw [if_neg hkpp, if_neg hkpi]
          exact ho.others k hk hk0 hki
  · intro hp0 k hk hk0 hkp
    change k < h.count at hk
    have hpar := ho.others ((i - 1) / 2) (by omega) hp0 hpi
    rw [swap_arr, swap_arr, if_neg (by omega : ((i - 1) / 2 - 1) / 2 ≠ (i - 1) / 2),
      if_neg (by omega : ((i - 1) / 2 - 1) / 2 ≠ i), if_neg (by omega : k ≠ (i - 1) / 2)]
    split
    · exact hpar
    · rename_i hki
      exact hw.trans hpar (hkp ▸ ho.others k hk hk0 hki)

theorem UpOrdered.up (hw : WeakOrder less) : ∀ {n : Nat} {h : IndexedHeap ι} {i : Nat}, UpOrdered less h i →
    i < h.count → i ≤ n → Ordered less (up less n h i)
  | 0, h, i, ho, _, hn => fun k hk hk0 => ho.others k hk hk0 (by omega)
  | n + 1, h, i, ho, hi, hn => by
    unfold IndexedHeap.up
    split
    · rename_i h0
      exact fun k hk hk0 => ho.others k hk hk0 (by omega)
    · rename_i h0
      split
      · rename_i hless
        refine (ho.move hw hi (by omega) hless).up hw ?_ (by omega)
        show (i - 1) / 2 < h.count
        omega
      · rename_i hless
        intro k hk hk0
        rcases eq_or_ne k i with rfl | hki
        · simpa using hless
        · exact ho.others k hk hk0 hki

omit [DecidableEq ι] in
/-- The child that `down` moves up is the least of three. -/
theorem smallest_spec (hw : WeakOrder less) (h : IndexedHeap ι) (i : Nat) :
    (h.smallest less i = i ∨ (h.smallest less i - 1) / 2 = i ∧ 0 < h.smallest less i ∧ h.smallest less i < h.count ∧
      less (h.arr (h.smallest less i)) (h.arr i) = true) ∧
      ∀ k < h.count, 0 < k → (k - 1) / 2 = i → less (h.arr k) (h.arr (h.smallest less i)) = false := by
  have hchild : ∀ k, 0 < k → (k - 1) / 2 = i → k = 2 * i + 1 ∨ k = 2 * i + 2 := by omega
  simp only [smallest]
  by_cases hl : 2 * i + 1 < h.count ∧ less (h.arr (2 * i + 1)) (h.arr i) = true
  · rw [if_pos hl]
    split
    · rename_i hr
      refine ⟨.inr ⟨by omega, by omega, hr.1, ?_⟩, fun k hk hk0 hki => ?_⟩
      · cases hri : less (h.arr (2 * i + 2)) (h.arr i) with
        | true => rfl
        | false => exact absurd (hw.trans (hw.asymm hl.2) hri) (by simp [hr.2])
      · obtain rfl | rfl := hchild k hk0 hki
        · exact hw.asymm hr.2
        · exact WeakOrder.irrefl hw _
    · rename_i hr
      refine ⟨.inr ⟨by omega, by omega, hl.1, hl.2⟩, fun k hk hk0 hki => ?_⟩
      obtain rfl | rfl := hchild k hk0 hki
      · exact WeakOrder.irrefl hw _
      · simpa [hk] using hr
  · rw [if_neg hl]
    split
    · rename_i hr
      refine ⟨.inr ⟨by omega, by omega, hr.1, hr.2⟩, fun k hk hk0 hki => ?_⟩
      obtain rfl | rfl := hchild k hk0 hki
      · have hle : less (h.arr (2 * i + 1)) (h.arr i) = false := by simpa [hk] using hl
        exact hw.trans (hw.asymm hr.2) hle
      · exact WeakOrder.irrefl hw _
    · rename_i hr
      refine ⟨.inl rfl, fun k hk hk0 hki => ?_⟩
      obtain rfl | rfl := hchild k hk0 hki
      · simpa [hk] using hl
      · simpa [hk] using hr

/-- An element takes the place of its least child, which is less. -/
theorem DownOrdered.move (hw : WeakOrder less) (ho : DownOrdered less h i) (hj0 : 0 < j) (hj : j < h.count)
    (hji : (j - 1) / 2 = i) (hless : less (h.arr j) (h.arr i) = true)
    (hmin : ∀ k < h.count, 0 < k → (k - 1) / 2 = i → less (h.arr k) (h.arr j) = false) :
    DownOrdered less (h.swap i j) j := by
  have hij : i ≠ j := by omega
  constructor
  · intro k hk hk0 hkj
    change k < h.count at hk
    rw [swap_arr, swap_arr, if_neg hkj]
    rcases eq_or_ne k j with rfl | hkj'
    · rw [if_pos rfl, if_pos hji]
      exact hw.asymm hless
    · rw [if_neg hkj']
      rcases eq_or_ne k i with rfl | hki
      · rw [if_pos rfl, if_neg (by omega)]
        exact ho.children hk0 j hj hj0 hji
      · rw [if_neg hki]
        split
        · rename_i hkp
          exact hmin k hk hk0 hkp
        · rename_i hkp
          exact ho.others k hk hk0 hkp
  · intro _ k hk hk0 hkj
    change k < h.count at hk
    rw [swap_arr, swap_arr, hji, if_neg hij, if_pos rfl, if_neg (by omega), if_neg (by omega)]
    exact hkj ▸ ho.others k hk hk0 (by omega)

theorem DownOrdered.down (hw : WeakOrder less) : ∀ {n : Nat} {h : IndexedHeap ι} {i : Nat}, DownOrdered less h i →
    i < h.count → h.count ≤ n + i → Ordered less (down less n h i)
  | 0, h, i, _, hi, hn => absurd hi (by omega)
  | n + 1, h, i, ho, hi, hn => by
    obtain ⟨hs, hmin⟩ := smallest_spec hw h i
    unfold IndexedHeap.down
    split
    · rename_i he
      rw [he] at hmin
      intro k hk hk0
      by_cases hkp : (k - 1) / 2 = i
      · exact hkp ▸ hmin k hk hk0 hkp
      · exact ho.others k hk hk0 hkp
    · rename_i hne
      obtain ⟨hp, h0, hlt, hless⟩ := hs.resolve_left hne
      refine (ho.move hw h0 hlt hp hless hmin).down hw hlt ?_
      show h.count ≤ _
      omega

/-! ## Rounds -/

/-- An element at `i` moves up at most `i` times. -/
theorem up_rounds (less : ι → ι → Bool) : ∀ {n : Nat} {h : IndexedHeap ι} {i : Nat}, i ≤ n →
    up less n h i = up less i h i
  | 0, h, i, hn => by rw [Nat.le_zero.mp hn]
  | n + 1, h, 0, _ => by simp [up]
  | n + 1, h, i + 1, hn => by
    unfold up
    rw [if_neg (Nat.succ_ne_zero i), if_neg (Nat.succ_ne_zero i)]
    split
    · rw [up_rounds less (by omega), up_rounds less (by omega : (i + 1 - 1) / 2 ≤ i)]
    · rfl

/-- An element at `i` moves down at most once for every place behind `i`. -/
theorem down_rounds (less : ι → ι → Bool) : ∀ {n m : Nat} {h : IndexedHeap ι} {i : Nat}, h.count ≤ n + i + 1 →
    h.count ≤ m + i + 1 → down less n h i = down less m h i := by
  -- a place in the last row has no children
  have hleaf : ∀ {m : Nat} {h : IndexedHeap ι} {i : Nat}, h.count ≤ i + 1 → down less m h i = h := by
    intro m h i hc
    cases m with
    | zero => rfl
    | succ m =>
      have hs : h.smallest less i = i := by
        have h₁ : ¬2 * i + 1 < h.count := by omega
        have h₂ : ¬2 * i + 2 < h.count := by omega
        simp only [smallest, h₁, h₂, false_and, if_false]
      rw [down, if_pos hs]
  intro n
  induction n with
  | zero => exact fun hn _ => (hleaf (by omega)).trans (hleaf (by omega)).symm
  | succ n ih =>
    intro m h i hn hm
    cases m with
    | zero => exact (hleaf (by omega)).trans (hleaf (by omega)).symm
    | succ m =>
      unfold down
      split
      · rfl
      · rename_i hne
        have hlt : i < h.smallest less i := by
          revert hne
          simp only [smallest]
          split <;> split <;> omega
        exact ih (by simp only [swap]; omega) (by simp only [swap]; omega)

/-! ## The operations -/

theorem Ordered.push (hw : WeakOrder less) (ho : Ordered less h) (x : ι) : Ordered less (push less h x) := by
  refine UpOrdered.up hw ⟨fun k hk hk0 hkc => ?_, fun _ k hk hk0 hkc => ?_⟩ (Nat.lt_succ_self _) (Nat.le_refl _)
  · simp only at hk ⊢
    rw [Function.update_of_ne hkc, Function.update_of_ne (by omega)]
    exact ho k (by omega) hk0
  · simp only at hk
    omega

/-- The last element takes the place that becomes free, and moves from there. -/
theorem Ordered.refill (hw : WeakOrder less) (ho : Ordered less h) (hi : i < h.count - 1) {h₁ : IndexedHeap ι}
    (hc : h₁.count = h.count - 1) (ha : h₁.arr = Function.update h.arr i (h.arr (h.count - 1))) :
    Ordered less
      (if 0 < i ∧ less (h₁.arr i) (h₁.arr ((i - 1) / 2)) = true then IndexedHeap.up less i h₁ i
        else IndexedHeap.down less (h.count - 1) h₁ i) := by
  have hgrand : 0 < i → ∀ k < h₁.count, 0 < k → (k - 1) / 2 = i → less (h₁.arr k) (h₁.arr ((i - 1) / 2)) = false := by
    intro hi0 k hk hk0 hki
    rw [ha, Function.update_of_ne (by omega), Function.update_of_ne (by omega)]
    exact hw.trans (ho i (by omega) hi0) (hki ▸ ho k (by omega) hk0)
  split
  · rename_i hless
    refine UpOrdered.up hw ⟨fun k hk hk0 hki => ?_, hgrand⟩ (by omega) (Nat.le_refl _)
    by_cases hkp : (k - 1) / 2 = i
    · -- the child is not less than the parent of the free place, which is not less than the last element
      rw [hkp]
      exact hw.trans (hw.asymm hless.2) (hgrand hless.1 k hk hk0 hkp)
    · rw [ha, Function.update_of_ne hki, Function.update_of_ne hkp]
      exact ho k (by omega) hk0
  · rename_i hless
    refine DownOrdered.down hw ⟨fun k hk hk0 hkp => ?_, hgrand⟩ (by omega) (by omega)
    rcases Nat.eq_or_lt_of_le (Nat.zero_le i) with rfl | hi0
    · rw [ha, Function.update_of_ne (by omega), Function.update_of_ne hkp]
      exact ho k (by omega) hk0
    · rcases Decidable.em (k = i) with rfl | hki
      · simpa [hi0] using hless
      · rw [ha, Function.update_of_ne hki, Function.update_of_ne hkp]
        exact ho k (by omega) hk0

theorem Ordered.remove (hw : WeakOrder less) (ho : Ordered less h) {absent : Nat} {h' : IndexedHeap ι}
    (hr : remove less absent h i = some (x, h')) : Ordered less h' := by
  unfold IndexedHeap.remove at hr
  split at hr
  · rename_i hi
    simp only [Option.some.injEq, Prod.mk.injEq] at hr
    obtain ⟨-, rfl⟩ := hr
    split
    · exact fun k hk hk0 => ho k (by simp only at hk; omega) hk0
    · rename_i hlast
      let h₁ : IndexedHeap ι :=
        { arr := Function.update h.arr i (h.arr (h.count - 1))
          count := h.count - 1
          index := Function.update h.index (h.arr (h.count - 1)) i }
      have hs : Ordered less _ := ho.refill hw (show i < h.count - 1 by omega) (show h₁.count = _ from rfl) rfl
      exact hs
  · cases hr

end IndexedHeap

end Dlsmc
