import Mathlib.Logic.Function.Basic
import Mathlib.Data.Option.Basic

/-!
# Machines: actions, runs and invariants

A concurrent program is a `Machine`: the states it may start in and, for each
action (one atomic step of one thread, with the choices the environment makes
in it), the state the action leads to, if it is enabled. `ReachBy C` are the
states reached by runs each of whose actions meets a condition `C` on the
state before it; `Reach` are those of all runs.

A property of every reachable state is proved by one induction
(`ReachBy.invariant`), and a concrete run is evaluated (`run`) to give a
reachable state (`Reach.of_run`, `ReachBy.of_run`).
-/

namespace Dlsmc

/-- A transition system whose actions are deterministic partial functions. -/
structure Machine (σ α : Type) where
  init : σ → Prop
  step : σ → α → Option σ

namespace Machine

variable {σ α : Type} (M : Machine σ α)

/-- The states reached by runs whose every action meets `C` in the state it is
taken from. -/
inductive ReachBy (C : σ → α → Prop) : σ → Prop where
  | init {s : σ} (h : M.init s) : ReachBy C s
  | step {s s' : σ} {a : α} (hr : ReachBy C s) (hc : C s a) (h : M.step s a = some s') : ReachBy C s'

/-- The states reached by any run. -/
def Reach : σ → Prop := M.ReachBy fun _ _ => True

variable {M} {C : σ → α → Prop} {I : σ → Prop}

theorem Reach.init {s : σ} (h : M.init s) : M.Reach s := ReachBy.init h

theorem Reach.step {s s' : σ} {a : α} (hr : M.Reach s) (h : M.step s a = some s') : M.Reach s' :=
  ReachBy.step hr trivial h

/-- What holds initially and is kept by every action that meets `C` holds
along every run of such actions. The step may use that its state is reached. -/
theorem ReachBy.invariant (hi : ∀ s, M.init s → I s)
    (hs : ∀ s s' a, M.ReachBy C s → I s → C s a → M.step s a = some s' → I s') {s : σ}
    (h : M.ReachBy C s) : I s := by
  induction h with
  | init h => exact hi _ h
  | step hr hc h ih => exact hs _ _ _ hr ih hc h

theorem Reach.invariant (hi : ∀ s, M.init s → I s)
    (hs : ∀ s s' a, M.Reach s → I s → M.step s a = some s' → I s') {s : σ} (h : M.Reach s) : I s :=
  ReachBy.invariant hi (fun s s' a hr hI _ h => hs s s' a hr hI h) h

/-- Runs under a condition are runs. -/
theorem ReachBy.reach {s : σ} (h : M.ReachBy C s) : M.Reach s := by
  induction h with
  | init h => exact .init h
  | step _ _ h ih => exact ih.step h

/-- A weaker condition on the actions allows more runs. -/
theorem ReachBy.mono {C' : σ → α → Prop} (hc : ∀ s a, C s a → C' s a) {s : σ} (h : M.ReachBy C s) : M.ReachBy C' s := by
  induction h with
  | init h => exact .init h
  | step _ h hs ih => exact ih.step (hc _ _ h) hs

/-- `s'` comes after `s` in some run. -/
inductive Steps (M : Machine σ α) (s : σ) : σ → Prop where
  | refl : Steps M s s
  | step {s' s'' : σ} {a : α} (hr : Steps M s s') (h : M.step s' a = some s'') : Steps M s s''

/-- What every action keeps holds in every later state. -/
theorem Steps.stable (hs : ∀ s s' a, M.Reach s → I s → M.step s a = some s' → I s') {s s' : σ} (hr : M.Reach s)
    (hi : I s) (h : M.Steps s s') : M.Reach s' ∧ I s' := by
  induction h with
  | refl => exact ⟨hr, hi⟩
  | step _ h ih => exact ⟨ih.1.step h, hs _ _ _ ih.1 ih.2 h⟩

/-- `s'` comes after `s` in some run whose actions in between meet `C`. -/
inductive StepsBy (M : Machine σ α) (C : σ → α → Prop) (s : σ) : σ → Prop where
  | refl : StepsBy M C s s
  | step {s' s'' : σ} {a : α} (hr : StepsBy M C s s') (hc : C s' a) (h : M.step s' a = some s'') : StepsBy M C s s''

/-- What every action that meets `C` keeps holds as long as such actions are taken. -/
theorem StepsBy.stable (hs : ∀ s s' a, M.Reach s → I s → C s a → M.step s a = some s' → I s') {s s' : σ}
    (hr : M.Reach s) (hi : I s) (h : M.StepsBy C s s') : M.Reach s' ∧ I s' := by
  induction h with
  | refl => exact ⟨hr, hi⟩
  | step _ hc h ih => exact ⟨ih.1.step h, hs _ _ _ ih.1 ih.2 hc h⟩

/-- The state after the actions of a list, in order. -/
def run (M : Machine σ α) : σ → List α → Option σ
  | s, [] => some s
  | s, a :: l => (M.step s a).bind (M.run · l)

/-- As `run`, checking a condition at every action. -/
def runBy (M : Machine σ α) (c : σ → α → Bool) : σ → List α → Option σ
  | s, [] => some s
  | s, a :: l => if c s a then (M.step s a).bind (M.runBy c · l) else none

theorem ReachBy.of_runBy {c : σ → α → Bool} (hc : ∀ s a, c s a = true → C s a) :
    ∀ {l : List α} {s s' : σ}, M.ReachBy C s → M.runBy c s l = some s' → M.ReachBy C s'
  | [], s, s', hs, h => by
    simp only [runBy, Option.some.injEq] at h
    exact h ▸ hs
  | a :: l, s, s', hs, h => by
    simp only [runBy] at h
    split at h
    · rename_i hca
      obtain ⟨s₁, h₁, h₂⟩ := Option.bind_eq_some_iff.mp h
      exact of_runBy hc (hs.step (hc s a hca) h₁) h₂
    · cases h

theorem Reach.of_run : ∀ {l : List α} {s s' : σ}, M.Reach s → M.run s l = some s' → M.Reach s'
  | [], s, s', hs, h => by
    simp only [run, Option.some.injEq] at h
    exact h ▸ hs
  | a :: l, s, s', hs, h => by
    obtain ⟨s₁, h₁, h₂⟩ := Option.bind_eq_some_iff.mp h
    exact of_run (hs.step h₁) h₂

/-- A run from an initial state to a state where `p` evaluates to true. -/
theorem exists_reach_of_run {s : σ} {l : List α} {p : σ → Bool} (hi : M.init s)
    (h : (M.run s l).map p = some true) : ∃ s', M.Reach s' ∧ p s' = true := by
  obtain ⟨s', h₁, h₂⟩ := Option.map_eq_some_iff.mp h
  exact ⟨s', (Reach.init hi).of_run h₁, h₂⟩

/-- As `exists_reach_of_run`, for a run whose every action meets `C`. -/
theorem exists_reachBy_of_run {c : σ → α → Bool} (hc : ∀ s a, c s a = true → C s a) {s : σ} {l : List α}
    {p : σ → Bool} (hi : M.init s) (h : (M.runBy c s l).map p = some true) :
    ∃ s', M.ReachBy C s' ∧ p s' = true := by
  obtain ⟨s', h₁, h₂⟩ := Option.map_eq_some_iff.mp h
  exact ⟨s', (ReachBy.init hi).of_runBy hc h₁, h₂⟩

end Machine

end Dlsmc
