import Mathlib.Logic.Function.Basic

/-!
# Flags that are taken by test and set

A flag is set by the thread that finds it clear, and cleared by it later; a
thread has at most one flag at a time. `Held` says which thread has which flag:
a flag is set exactly as long as one thread has it.
-/

namespace Dlsmc

variable {α : Type}

/-- The flags that are set are those that threads have, each of them one. -/
structure Held (flag : α → Bool) (has : Nat → Option α) : Prop where
  set : ∀ f, flag f = true ↔ ∃ t, has t = some f
  one : ∀ t u f, has t = some f → has u = some f → t = u

/-- What a step of a thread does to the flags. -/
inductive FlagStep [DecidableEq α] (flag flag' : α → Bool) (has has' : Option α) : Prop where
  | keep (hf : flag' = flag) (hh : has' = has)
  | take (f : α) (hclear : flag f = false) (hnone : has = none) (hf : flag' = Function.update flag f true)
    (hh : has' = some f)
  | release (f : α) (hhas : has = some f) (hf : flag' = Function.update flag f false) (hh : has' = none)

namespace Held

variable {flag flag' : α → Bool} {has : Nat → Option α} {t : Nat} {f : α}

theorem none : Held (fun _ : α => false) fun _ => none := ⟨fun f => by simp, fun t u f h => by cases h⟩

/-- A thread has what it had or what it has taken. -/
theorem update_eq (has' : Option α) (u : Nat) :
    Function.update has t has' u = if u = t then has' else has u := Function.update_apply ..

variable [DecidableEq α]

theorem take (h : Held flag has) (hclear : flag f = false) (hnone : has t = Option.none) :
    Held (Function.update flag f true) (Function.update has t (some f)) := by
  have hfree : ∀ u, has u ≠ some f := fun u hu => by
    have := (h.set f).mpr ⟨u, hu⟩
    rw [hclear] at this
    cases this
  refine ⟨fun g => ?_, fun u v g hu hv => ?_⟩
  · by_cases hg : g = f
    · subst hg
      rw [Function.update_self]
      exact ⟨fun _ => ⟨t, Function.update_self ..⟩, fun _ => rfl⟩
    · rw [Function.update_of_ne hg, h.set]
      refine exists_congr fun u => ?_
      rw [update_eq]
      split
      · rename_i hu
        rw [hu, hnone]
        simp [Ne.symm hg]
      · rfl
  · rw [update_eq] at hu hv
    split at hu <;> split at hv
    · rename_i hu' hv'
      rw [hu', hv']
    · rw [Option.some.injEq] at hu
      exact absurd (hu ▸ hv) (hfree v)
    · rw [Option.some.injEq] at hv
      exact absurd (hv ▸ hu) (hfree u)
    · exact h.one u v g hu hv

theorem release (h : Held flag has) (hhas : has t = some f) :
    Held (Function.update flag f false) (Function.update has t Option.none) := by
  refine ⟨fun g => ?_, fun u v g hu hv => ?_⟩
  · by_cases hg : g = f
    · subst hg
      rw [Function.update_self]
      refine ⟨nofun, fun ⟨u, hu⟩ => ?_⟩
      rw [update_eq] at hu
      split at hu
      · cases hu
      · rename_i hut
        exact absurd (h.one u t g hu hhas) hut
    · rw [Function.update_of_ne hg, h.set]
      refine exists_congr fun u => ?_
      rw [update_eq]
      split
      · rename_i hu
        rw [hu, hhas]
        simp [Ne.symm hg]
      · rfl
  · rw [update_eq] at hu hv
    split at hu
    · cases hu
    · split at hv
      · cases hv
      · exact h.one u v g hu hv

/-- A step of a thread keeps it. -/
theorem step {has' : Option α} (h : Held flag has) (hs : FlagStep flag flag' (has t) has') :
    Held flag' (Function.update has t has') := by
  cases hs with
  | keep hf hh =>
    rw [hf, hh, Function.update_eq_self]
    exact h
  | take f hclear hnone hf hh => exact hf ▸ hh ▸ h.take hclear hnone
  | release f hhas hf hh => exact hf ▸ hh ▸ h.release hhas

end Held

end Dlsmc
