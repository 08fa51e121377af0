import Mathlib.Data.List.Basic
import Dlsmc.Framework.Machine

/-!
# What ends within so many steps

In a run of several threads, `own` is the next step of one of them. If what the
thread is about has a bound on the steps that are left, which every step of its
own lowers and no step of the others raises, then it ends within so many steps
of its own, whatever the others do (`runBy_within`).
-/

namespace Dlsmc.Machine

variable {σ α : Type} {M : Machine σ α} {c : σ → α → Bool}

theorem runBy_cons {s s₁ : σ} {a : α} (hc : c s a = true) (h : M.step s a = some s₁) (l : List α) :
    M.runBy c s (a :: l) = M.runBy c s₁ l := by
  rw [runBy, if_pos hc, h, Option.bind_some]

variable [DecidableEq α] {own : α} {R : σ → ℕ → Prop} {Q : σ → Prop}

/-- With `n` steps left, a run reaches `Q` within `n` steps of its own, or is not
there yet. -/
theorem runBy_within (hpos : ∀ s, ¬R s 0)
    (hown : ∀ s s' n, R s (n + 1) → c s own = true → M.step s own = some s' → Q s' ∨ R s' n)
    (hother : ∀ s s' a n, a ≠ own → R s n → c s a = true → M.step s a = some s' → R s' n) {acts : List α} {s' : σ} :
    ∀ {s : σ} {n : ℕ}, R s n → M.runBy c s acts = some s' →
    (∃ pre s₁, pre <+: acts ∧ M.runBy c s pre = some s₁ ∧ Q s₁ ∧ pre.count own ≤ n) ∨
      ∃ n', R s' n' ∧ acts.count own + n' = n := by
  induction acts with
  | nil =>
    intro s n hR hrun
    rw [runBy, Option.some.injEq] at hrun
    exact .inr ⟨n, hrun ▸ hR, Nat.zero_add n⟩
  | cons a acts ih =>
    intro s n hR hrun
    unfold runBy at hrun
    split at hrun
    · rename_i hc
      obtain ⟨s₁, hstep, hrun⟩ := Option.bind_eq_some_iff.mp hrun
      by_cases ha : a = own
      · subst ha
        obtain ⟨n, rfl⟩ := Nat.exists_eq_add_one_of_ne_zero fun h0 => hpos s (h0 ▸ hR)
        rcases hown s s₁ n hR hc hstep with hQ | hR'
        · exact .inl ⟨[a], s₁, List.prefix_append [a] acts, runBy_cons hc hstep [], hQ, by simp⟩
        · rw [List.count_cons_self]
          rcases ih hR' hrun with ⟨pre, s₂, hpre, hrun₂, hQ, hn⟩ | ⟨n', hR₂, rfl⟩
          · refine .inl ⟨a :: pre, s₂, (List.prefix_cons_inj _).mpr hpre, (runBy_cons hc hstep pre).trans hrun₂, hQ, ?_⟩
            rw [List.count_cons_self]
            omega
          · exact .inr ⟨n', hR₂, Nat.add_right_comm ..⟩
      · rw [List.count_cons_of_ne ha]
        rcases ih (hother s s₁ a n ha hR hc hstep) hrun with ⟨pre, s₂, hpre, hrun₂, hQ, hn⟩ | h
        · refine .inl ⟨a :: pre, s₂, (List.prefix_cons_inj _).mpr hpre, (runBy_cons hc hstep pre).trans hrun₂, hQ, ?_⟩
          rwa [List.count_cons_of_ne ha]
        · exact .inr h
    · cases hrun

end Dlsmc.Machine
