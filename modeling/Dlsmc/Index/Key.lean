import Mathlib.Data.List.Lex
import Mathlib.Order.Lattice
import Mathlib.Order.Std

/-!
# Keys of the index (`index.c`)

Keys are byte strings, compared by `keycmp`: `memcmp` over the common length,
then the lengths. This is the lexicographic order of the bytes
(`keycmp_eq_lt`, `keycmp_eq_eq`), a linear order.
-/

namespace Dlsmc.Index

/-- A key: its bytes; `klen` is their number. -/
def Key : Type := List UInt8

instance instLeftLeaningMaxByte : Std.LawfulOrderLeftLeaningMax UInt8 where
  max_eq_left a b h := by
    show (if a ≤ b then b else a) = a
    split
    · exact UInt8.le_antisymm h ‹_›
    · rfl
  max_eq_right a b h := by
    show (if a ≤ b then b else a) = b
    rw [if_pos ((UInt8.le_total a b).resolve_right h)]

instance instLinearOrderByte : LinearOrder UInt8 := .ofStd UInt8

instance : DecidableEq Key := inferInstanceAs (DecidableEq (List UInt8))

instance : LinearOrder Key := inferInstanceAs (LinearOrder (List UInt8))

/-- `memcmp` of two byte strings of the same length. -/
def memcmp : List UInt8 → List UInt8 → Ordering
  | a :: as, b :: bs => if a < b then .lt else if b < a then .gt else memcmp as bs
  | _, _ => .eq

/-- `keycmp` -/
def keycmp (a b : Key) : Ordering :=
  let n := min (List.length a) (List.length b)
  match memcmp (List.take n a) (List.take n b) with
  | .eq => if List.length a < List.length b then .lt else if List.length b < List.length a then .gt else .eq
  | r => r

/-- `dlsm_delta_pointer` -/
structure DeltaPointer where
  kind : UInt8
  fileId : UInt32
  offset : UInt64
  deriving DecidableEq

/-! ## The order of keys -/

theorem keycmp_cons (a b : UInt8) (as bs : List UInt8) :
    keycmp (a :: as : List UInt8) (b :: bs : List UInt8) =
      if a < b then .lt else if b < a then .gt else keycmp as bs := by
  simp only [keycmp, List.length_cons, Nat.add_min_add_right, List.take_succ_cons, memcmp, Nat.add_lt_add_iff_right]
  by_cases h₁ : a < b
  · simp [h₁]
  · by_cases h₂ : b < a <;> simp [h₁, h₂]

/-- `keycmp` tells the smaller of two keys in the lexicographic order. -/
theorem keycmp_spec : ∀ a b : Key,
    keycmp a b = .lt ∧ a < b ∨ keycmp a b = .eq ∧ a = b ∨ keycmp a b = .gt ∧ b < a
  | [], [] => .inr (.inl ⟨rfl, rfl⟩)
  | [], b :: bs => .inl ⟨rfl, List.Lex.nil⟩
  | a :: as, [] => .inr (.inr ⟨rfl, List.Lex.nil⟩)
  | a :: as, b :: bs => by
    have hcons := keycmp_cons a b as bs
    rcases lt_trichotomy a b with h | rfl | h
    · exact .inl ⟨by rw [hcons, if_pos h], List.Lex.rel h⟩
    · rw [if_neg (lt_irrefl a), if_neg (lt_irrefl a)] at hcons
      rcases keycmp_spec as bs with ⟨h, hlt⟩ | ⟨h, rfl⟩ | ⟨h, hlt⟩
      · exact .inl ⟨hcons.trans h, List.Lex.cons hlt⟩
      · exact .inr (.inl ⟨hcons.trans h, rfl⟩)
      · exact .inr (.inr ⟨hcons.trans h, List.Lex.cons hlt⟩)
    · exact .inr (.inr ⟨by rw [hcons, if_neg (lt_asymm h), if_pos h], List.Lex.rel h⟩)

@[simp] theorem keycmp_eq_lt {a b : Key} : keycmp a b = .lt ↔ a < b := by
  rcases keycmp_spec a b with ⟨h, hlt⟩ | ⟨h, rfl⟩ | ⟨h, hlt⟩
  · simp [h, hlt]
  · simp [h]
  · simp [h, hlt.le]

@[simp] theorem keycmp_eq_eq {a b : Key} : keycmp a b = .eq ↔ a = b := by
  rcases keycmp_spec a b with ⟨h, hlt⟩ | ⟨h, rfl⟩ | ⟨h, hlt⟩
  · simp [h, hlt.ne]
  · simp [h]
  · simp [h, hlt.ne']

@[simp] theorem keycmp_eq_gt {a b : Key} : keycmp a b = .gt ↔ b < a := by
  rcases keycmp_spec a b with ⟨h, hlt⟩ | ⟨h, rfl⟩ | ⟨h, hlt⟩
  · simp [h, hlt.le]
  · simp [h]
  · simp [h, hlt]

end Dlsmc.Index
