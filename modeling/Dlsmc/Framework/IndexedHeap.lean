import Mathlib.Logic.Function.Basic
import Mathlib.Tactic.SplitIfs

/-!
# Binary heaps whose elements know their place

An array of elements and, for each element, the index it has in the array. The
operations are the loops of an implementation in place: `up` and `down` swap an
element with its parent or its smaller child, `push` appends, `remove` moves
the last element to the place that becomes free. `up` and `down` take the
number of rounds they may make.

Whatever the order is, every operation keeps the elements it should
(`mem_push`, `mem_remove`) and every element where its index says
(`Indexed`).
-/

namespace Dlsmc

/-- The array up to `count`, and the index of each element. -/
structure IndexedHeap (ι : Type) where
  arr : Nat → ι
  count : Nat
  index : ι → Nat

namespace IndexedHeap

variable {ι : Type}

/-- The elements of the heap. -/
def Mem (h : IndexedHeap ι) (x : ι) : Prop := ∃ i < h.count, h.arr i = x

/-- Every element is at its index. -/
def Indexed (h : IndexedHeap ι) : Prop := ∀ i < h.count, h.index (h.arr i) = i

theorem Indexed.inj {h : IndexedHeap ι} {i j : Nat} (hi : h.Indexed) (h₁ : i < h.count) (h₂ : j < h.count)
    (e : h.arr i = h.arr j) : i = j := by
  rw [← hi i h₁, ← hi j h₂, e]

theorem Mem.index_lt {h : IndexedHeap ι} {x : ι} (hm : h.Mem x) (hi : h.Indexed) : h.index x < h.count := by
  obtain ⟨i, hlt, rfl⟩ := hm
  rwa [hi i hlt]

theorem Mem.arr_index {h : IndexedHeap ι} {x : ι} (hm : h.Mem x) (hi : h.Indexed) : h.arr (h.index x) = x := by
  obtain ⟨i, hlt, rfl⟩ := hm
  rw [hi i hlt]

/-- `h'` has the elements of `h`, each at its index. -/
structure Rearranged (h h' : IndexedHeap ι) : Prop where
  count : h'.count = h.count
  indexed : h'.Indexed
  mem : ∀ x, h'.Mem x ↔ h.Mem x

theorem Indexed.rearranged {h : IndexedHeap ι} (hi : h.Indexed) : Rearranged h h := ⟨rfl, hi, fun _ => Iff.rfl⟩

theorem Rearranged.trans {h₁ h₂ h₃ : IndexedHeap ι} (e : Rearranged h₁ h₂) (e' : Rearranged h₂ h₃) :
    Rearranged h₁ h₃ :=
  ⟨e'.count.trans e.count, e'.indexed, fun x => (e'.mem x).trans (e.mem x)⟩

/-- `h'` has the elements of `h` but for `x`, each at its index. -/
structure Without (h h' : IndexedHeap ι) (x : ι) : Prop where
  count : h'.count + 1 = h.count
  indexed : h'.Indexed
  mem : ∀ y, h'.Mem y ↔ y ≠ x ∧ h.Mem y

theorem Without.rearranged {h h₁ h₂ : IndexedHeap ι} {x : ι} (hw : Without h h₁ x) (hr : Rearranged h₁ h₂) :
    Without h h₂ x :=
  ⟨by rw [hr.count]; exact hw.count, hr.indexed, fun y => (hr.mem y).trans (hw.mem y)⟩

theorem Indexed.without_last {h : IndexedHeap ι} {i : Nat} (hi : h.Indexed) (hlt : i < h.count) (he : i = h.count - 1) :
    Without h { h with count := h.count - 1 } (h.arr i) := by
  refine ⟨by simp only; omega, fun k hk => hi k (by simp only at hk; omega), fun y => ⟨?_, ?_⟩⟩
  · rintro ⟨k, hk, rfl⟩
    simp only at hk
    have hkc : k < h.count := by omega
    exact ⟨fun e => by have := hi.inj hkc hlt e; omega, k, hkc, rfl⟩
  · rintro ⟨hy, k, hk, rfl⟩
    have hki : k ≠ i := fun e => hy (e ▸ rfl)
    exact ⟨k, by simp only; omega, rfl⟩

variable [DecidableEq ι] (less : ι → ι → Bool)

/-- Exchange the elements at `i` and `j`. -/
def swap (h : IndexedHeap ι) (i j : Nat) : IndexedHeap ι where
  arr := Function.update (Function.update h.arr i (h.arr j)) j (h.arr i)
  count := h.count
  index := Function.update (Function.update h.index (h.arr j) i) (h.arr i) j

/-- Move the element at `i` up while it is less than its parent. -/
def up : Nat → IndexedHeap ι → Nat → IndexedHeap ι
  | 0, h, _ => h
  | n + 1, h, i =>
    if i = 0 then h
    else if less (h.arr i) (h.arr ((i - 1) / 2)) then up n (h.swap i ((i - 1) / 2)) ((i - 1) / 2)
    else h

/-- The least of the element at `i` and its children. -/
def smallest (h : IndexedHeap ι) (i : Nat) : Nat :=
  let s := if 2 * i + 1 < h.count ∧ less (h.arr (2 * i + 1)) (h.arr i) = true then 2 * i + 1 else i
  if 2 * i + 2 < h.count ∧ less (h.arr (2 * i + 2)) (h.arr s) = true then 2 * i + 2 else s

/-- Move the element at `i` down while a child is less. -/
def down : Nat → IndexedHeap ι → Nat → IndexedHeap ι
  | 0, h, _ => h
  | n + 1, h, i =>
    if h.smallest less i = i then h else down n (h.swap i (h.smallest less i)) (h.smallest less i)

/-- Append `x` and move it up. -/
def push (h : IndexedHeap ι) (x : ι) : IndexedHeap ι :=
  up less h.count
    { arr := Function.update h.arr h.count x, count := h.count + 1, index := Function.update h.index x h.count } h.count

/-- Take the element at `i` out; its index becomes `absent`. -/
def remove (absent : Nat) (h : IndexedHeap ι) (i : Nat) : Option (ι × IndexedHeap ι) :=
  if i < h.count then
    let last := h.count - 1
    let h' : IndexedHeap ι :=
      if i = last then { h with count := last }
      else
        let h₁ : IndexedHeap ι :=
          { arr := Function.update h.arr i (h.arr last)
            count := last
            index := Function.update h.index (h.arr last) i }
        if 0 < i ∧ less (h₁.arr i) (h₁.arr ((i - 1) / 2)) = true then up less i h₁ i else down less last h₁ i
    some (h.arr i, { h' with index := Function.update h'.index (h.arr i) absent })
  else none

variable {less} {h : IndexedHeap ι} {i j : Nat} {x y : ι}

section Moves

attribute [local grind =] Function.update_apply

theorem Indexed.swap (hi : h.Indexed) (h₁ : i < h.count) (h₂ : j < h.count) : Rearranged h (h.swap i j) := by
  have hinj : ∀ k < h.count, ∀ l < h.count, h.arr k = h.arr l → k = l := fun k hk l hl => hi.inj hk hl
  refine ⟨rfl, fun k hk => ?_, fun x => ?_⟩
  · have := hi k hk
    have := hinj i h₁ j h₂
    have := hinj k hk i h₁
    have := hinj k hk j h₂
    simp only [IndexedHeap.swap] at hk ⊢
    grind -linarith
  · constructor
    · rintro ⟨k, hk, rfl⟩
      simp only [IndexedHeap.swap] at hk ⊢
      rcases eq_or_ne k j with rfl | hkj
      · exact ⟨i, h₁, by simp⟩
      · rcases eq_or_ne k i with rfl | hki
        · exact ⟨j, h₂, by simp [hkj]⟩
        · exact ⟨k, hk, by simp [hkj, hki]⟩
    · rintro ⟨k, hk, rfl⟩
      rcases eq_or_ne k j with rfl | hkj
      · exact ⟨i, h₁, by simp only [IndexedHeap.swap]; grind -linarith⟩
      · rcases eq_or_ne k i with rfl | hki
        · exact ⟨j, h₂, by simp [IndexedHeap.swap]⟩
        · exact ⟨k, hk, by simp [IndexedHeap.swap, hkj, hki]⟩

theorem Indexed.up (n : Nat) (hi : h.Indexed) (hlt : i < h.count) : Rearranged h (up less n h i) := by
  induction n generalizing h i with
  | zero => exact hi.rearranged
  | succ n ih =>
    unfold IndexedHeap.up
    split
    · exact hi.rearranged
    · split
      · have hp : (i - 1) / 2 < h.count := by omega
        have hs := hi.swap hlt hp
        exact hs.trans (ih hs.indexed hp)
      · exact hi.rearranged

omit [DecidableEq ι] in
theorem smallest_cases (less : ι → ι → Bool) (h : IndexedHeap ι) (i : Nat) :
    h.smallest less i = i ∨ h.smallest less i < h.count := by
  simp only [smallest]
  split_ifs <;> omega

theorem Indexed.down (n : Nat) (hi : h.Indexed) (hlt : i < h.count) : Rearranged h (down less n h i) := by
  induction n generalizing h i with
  | zero => exact hi.rearranged
  | succ n ih =>
    unfold IndexedHeap.down
    split
    · exact hi.rearranged
    · rename_i hne
      have hp := (smallest_cases less h i).resolve_left hne
      have hs := hi.swap hlt hp
      exact hs.trans (ih hs.indexed hp)

end Moves

/-! ## The operations -/

theorem push_spec (less : ι → ι → Bool) (hi : h.Indexed) (hx : ¬ h.Mem x) :
    (push less h x).count = h.count + 1 ∧ (push less h x).Indexed ∧ ∀ y, (push less h x).Mem y ↔ y = x ∨ h.Mem y := by
  have hne : ∀ k < h.count, h.arr k ≠ x := fun k hk e => hx ⟨k, hk, e⟩
  have h₁ : Indexed (ι := ι) ⟨Function.update h.arr h.count x, h.count + 1, Function.update h.index x h.count⟩ := by
    intro k hk
    rcases eq_or_ne k h.count with rfl | hkc
    · simp
    · have hk' : k < h.count := by
        simp only at hk
        omega
      simp [hkc, hne k hk', hi k hk']
  have hr : Rearranged _ (push less h x) := h₁.up h.count (Nat.lt_succ_self _)
  refine ⟨hr.count, hr.indexed, fun y => (hr.mem y).trans ⟨?_, ?_⟩⟩
  · rintro ⟨k, hk, rfl⟩
    rcases eq_or_ne k h.count with rfl | hkc
    · exact .inl (by simp)
    · refine .inr ⟨k, ?_, by simp [hkc]⟩
      simp only at hk
      omega
  · rintro (rfl | ⟨k, hk, rfl⟩)
    · exact ⟨h.count, Nat.lt_succ_self _, by simp⟩
    · exact ⟨k, Nat.lt_succ_of_lt hk, by simp [Nat.ne_of_lt hk]⟩

/-- The index of what is not in the heap does not matter. -/
theorem Without.forget {h₁ : IndexedHeap ι} (hw : Without h h₁ x) (absent : Nat) :
    Without h { h₁ with index := Function.update h₁.index x absent } x := by
  refine ⟨hw.count, fun k hk => ?_, fun y => hw.mem y⟩
  have hne : h₁.arr k ≠ x := ((hw.mem _).mp ⟨k, hk, rfl⟩).1
  simp only [Function.update_of_ne hne]
  exact hw.indexed k hk

/-- The last element takes the place that becomes free. -/
theorem Indexed.without_moved (hi : h.Indexed) (hlt : i < h.count) (hne : i ≠ h.count - 1) :
    Without h
      { arr := Function.update h.arr i (h.arr (h.count - 1))
        count := h.count - 1
        index := Function.update h.index (h.arr (h.count - 1)) i } (h.arr i) := by
  have hlast : h.count - 1 < h.count := by omega
  refine ⟨by simp only; omega, fun k hk => ?_, fun y => ⟨?_, ?_⟩⟩
  · simp only at hk ⊢
    rcases eq_or_ne k i with rfl | hki
    · simp
    · have hkc : k < h.count := by omega
      have : h.arr k ≠ h.arr (h.count - 1) := fun e => by have := hi.inj hkc hlast e; omega
      rw [Function.update_of_ne hki, Function.update_of_ne this, hi k hkc]
  · rintro ⟨k, hk, rfl⟩
    simp only at hk ⊢
    rcases eq_or_ne k i with rfl | hki
    · rw [Function.update_self]
      exact ⟨fun e => hne (hi.inj hlt hlast e.symm), h.count - 1, hlast, rfl⟩
    · have hkc : k < h.count := by omega
      rw [Function.update_of_ne hki]
      exact ⟨fun e => hki (hi.inj hkc hlt e), k, hkc, rfl⟩
  · rintro ⟨hy, k, hk, rfl⟩
    have hki : k ≠ i := fun e => hy (e ▸ rfl)
    rcases eq_or_ne k (h.count - 1) with rfl | hkl
    · exact ⟨i, by simp only; omega, by simp⟩
    · exact ⟨k, by simp only; omega, by simp [hki]⟩

theorem remove_spec (less : ι → ι → Bool) (absent : Nat) (hi : h.Indexed) (hlt : i < h.count) :
    ∃ h', remove less absent h i = some (h.arr i, h') ∧ Without h h' (h.arr i) := by
  refine ⟨_, by rw [remove, if_pos hlt], Without.forget ?_ absent⟩
  split
  · rename_i he
    exact hi.without_last hlt he
  · rename_i he
    have hw := hi.without_moved hlt he
    have hc : i < h.count - 1 := by omega
    dsimp only
    split
    · exact hw.rearranged (hw.indexed.up i hc)
    · exact hw.rearranged (hw.indexed.down (h.count - 1) hc)

/-- An element of the heap is removed by its index. -/
theorem remove_index_spec (less : ι → ι → Bool) (absent : Nat) (hi : h.Indexed) (hm : h.Mem x) :
    ∃ h', remove less absent h (h.index x) = some (x, h') ∧ Without h h' x := by
  have := remove_spec less absent hi (hm.index_lt hi)
  rwa [hm.arr_index hi] at this

end IndexedHeap

end Dlsmc
