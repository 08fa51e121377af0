import Mathlib.Data.List.Basic
import Mathlib.Logic.Function.Basic

/-!
# Chains of nodes linked by a next pointer

`IsChain nx p l`: following `nx` from the pointer `p` visits the nodes of `l`,
in order, and then ends. The list is determined by `nx` and `p`
(`IsChain.unique`), has no node twice (`IsChain.nodup`), and depends on `nx`
only at its own nodes (`IsChain.congr`).
-/

namespace Dlsmc

variable {α : Type}

/-- The nodes of `l` are those reached from `p` by `nx`, in order. -/
def IsChain (nx : α → Option α) : Option α → List α → Prop
  | p, [] => p = none
  | p, a :: l => p = some a ∧ IsChain nx (nx a) l

namespace IsChain

variable {nx nx' : α → Option α}

@[simp] theorem nil_iff {p : Option α} : IsChain nx p [] ↔ p = none := Iff.rfl

@[simp] theorem cons_iff {p : Option α} {a : α} {l : List α} :
    IsChain nx p (a :: l) ↔ p = some a ∧ IsChain nx (nx a) l := Iff.rfl

theorem none_iff {l : List α} : IsChain nx none l ↔ l = [] := by
  cases l <;> simp

theorem some_iff {a : α} {l : List α} :
    IsChain nx (some a) l ↔ ∃ l', l = a :: l' ∧ IsChain nx (nx a) l' := by
  cases l with
  | nil => simp
  | cons b l =>
    simp only [cons_iff, Option.some.injEq, List.cons.injEq]
    constructor
    · rintro ⟨rfl, h⟩; exact ⟨l, ⟨rfl, rfl⟩, h⟩
    · rintro ⟨l', ⟨rfl, rfl⟩, h⟩; exact ⟨rfl, h⟩

/-- A chain depends on the links of its own nodes only. -/
theorem congr {p : Option α} {l : List α} (h : IsChain nx p l) (hn : ∀ a ∈ l, nx' a = nx a) :
    IsChain nx' p l := by
  induction l generalizing p with
  | nil => exact h
  | cons a l ih =>
    obtain ⟨rfl, h⟩ := h
    refine ⟨rfl, ?_⟩
    rw [hn a List.mem_cons_self]
    exact ih h fun b hb => hn b (List.mem_cons_of_mem _ hb)

theorem unique {p : Option α} {l l' : List α} (h : IsChain nx p l) (h' : IsChain nx p l') : l = l' := by
  induction l generalizing p l' with
  | nil => rw [nil_iff.mp h] at h'; exact (none_iff.mp h').symm
  | cons a l ih =>
    obtain ⟨rfl, h⟩ := h
    obtain ⟨m, rfl, hm⟩ := some_iff.mp h'
    rw [ih h hm]

/-- Every suffix of a chain is the chain from its first node. -/
theorem of_append {p : Option α} {l₁ l₂ : List α} {a : α} (h : IsChain nx p (l₁ ++ a :: l₂)) :
    IsChain nx (some a) (a :: l₂) := by
  induction l₁ generalizing p with
  | nil => obtain ⟨rfl, h⟩ := h; exact ⟨rfl, h⟩
  | cons b l₁ ih => exact ih h.2

/-- A chain ends, so it visits no node twice. -/
theorem nodup {p : Option α} {l : List α} (h : IsChain nx p l) : l.Nodup := by
  induction l generalizing p with
  | nil => exact List.nodup_nil
  | cons a l ih =>
    refine List.nodup_cons.mpr ⟨fun ha => ?_, ih h.2⟩
    obtain ⟨l₁, l₂, rfl⟩ := List.append_of_mem ha
    have h₁ := of_append h.2
    have h₂ : IsChain nx (some a) (a :: (l₁ ++ a :: l₂)) := ⟨rfl, h.2⟩
    have := congrArg List.length (h₁.unique h₂)
    simp only [List.length_cons, List.length_append] at this
    omega

end IsChain

end Dlsmc
