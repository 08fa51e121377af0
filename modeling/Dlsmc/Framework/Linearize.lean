import Mathlib.Data.List.Basic
import Mathlib.Logic.Function.Basic

/-!
# Linearizability

A history is the list of the calls and returns that threads have made, in the
order they were made; a call has a number of its own. It is linearizable with
respect to a sequential specification if there is a sequence of operations that
the specification allows, with all calls that returned and some of those that
are pending, in which an operation that returned before another was called
stands before it (`Linearization`).

`Atomic` is the object whose operations take place at one moment between their
call and their return: its histories are linearizable (`Atomic.linearizable`),
so that a program is shown to be by the moments at which its calls take effect.
-/

namespace Dlsmc

variable {τ ω ρ : Type}

/-- What a thread makes of a call: it begins, or it returns. -/
inductive Event (ω ρ : Type) where
  | call (n : Nat) (o : ω)
  | ret (n : Nat) (r : ρ)
  deriving DecidableEq

/-- The number of the call. -/
def Event.number : Event ω ρ → Nat
  | .call n _ => n
  | .ret n _ => n

/-- An operation with its result. -/
structure Effect (ω ρ : Type) where
  number : Nat
  op : ω
  result : ρ

/-- The specification, from `m`, gives the operations their results. -/
def Legal (spec : τ → ω → τ × ρ) : τ → List (Effect ω ρ) → Prop
  | _, [] => True
  | m, e :: es => (spec m e.op).2 = e.result ∧ Legal spec (spec m e.op).1 es

/-- The abstract state after the operations. -/
def outcomeOf (spec : τ → ω → τ × ρ) (m : τ) (es : List (Effect ω ρ)) : τ := es.foldl (fun m e => (spec m e.op).1) m

/-- The operations `es` explain the history. -/
structure Linearization (spec : τ → ω → τ × ρ) (m : τ) (hist : List (Event ω ρ)) (es : List (Effect ω ρ)) : Prop where
  nodup : (es.map Effect.number).Nodup
  called : ∀ e ∈ es, Event.call e.number e.op ∈ hist
  returned : ∀ n r, Event.ret n r ∈ hist → ∃ e ∈ es, e.number = n ∧ e.result = r
  legal : Legal spec m es
  /-- An operation that returned before another was called stands before it. -/
  order : ∀ a r b o, [Event.ret a r, Event.call b o].Sublist hist →
    ∀ e ∈ es, ∀ f ∈ es, e.number = a → f.number = b → [e, f].Sublist es

def Linearizable (spec : τ → ω → τ × ρ) (m : τ) (hist : List (Event ω ρ)) : Prop :=
  ∃ es, Linearization spec m hist es

/-- What a thread is doing: nothing, a call that did not take effect yet, or one
that did. -/
inductive Slot (ω ρ : Type) where
  | idle
  | called (n : Nat) (o : ω)
  | done (n : Nat) (o : ω) (r : ρ)

def Slot.number : Slot ω ρ → Option Nat
  | .idle => none
  | .called n _ => some n
  | .done n _ _ => some n

/-- The runs of an object whose operations take effect at once: the history, the
number of calls, what the threads are doing, and the abstract state. -/
inductive Atomic (spec : τ → ω → τ × ρ) (m₀ : τ) : List (Event ω ρ) → Nat → (Nat → Slot ω ρ) → τ → Prop where
  | init : Atomic spec m₀ [] 0 (fun _ => .idle) m₀
  | call {hist : List (Event ω ρ)} {n : Nat} {slots : Nat → Slot ω ρ} {m : τ} {t : Nat}
    (h : Atomic spec m₀ hist n slots m) (ht : slots t = .idle) (o : ω) :
    Atomic spec m₀ (hist ++ [.call n o]) (n + 1) (Function.update slots t (.called n o)) m
  | perform {hist : List (Event ω ρ)} {n k : Nat} {slots : Nat → Slot ω ρ} {m : τ} {t : Nat} {o : ω}
    (h : Atomic spec m₀ hist n slots m) (ht : slots t = .called k o) :
    Atomic spec m₀ hist n (Function.update slots t (.done k o (spec m o).2)) (spec m o).1
  | ret {hist : List (Event ω ρ)} {n k : Nat} {slots : Nat → Slot ω ρ} {m : τ} {t : Nat} {o : ω} {r : ρ}
    (h : Atomic spec m₀ hist n slots m) (ht : slots t = .done k o r) :
    Atomic spec m₀ (hist ++ [.ret k r]) n (Function.update slots t .idle) m

variable {spec : τ → ω → τ × ρ} {m m₀ : τ}

theorem Legal.append : ∀ {es : List (Effect ω ρ)} {m : τ} {e : Effect ω ρ}, Legal spec m es →
    (spec (outcomeOf spec m es) e.op).2 = e.result → Legal spec m (es ++ [e])
  | [], _, _, _, he => ⟨he, trivial⟩
  | _ :: _, _, _, h, he => ⟨h.1, Legal.append h.2 he⟩

/-- A pair of events, the second of which may be the last of the history. -/
theorem sublist_snoc {α : Type} {a b c : α} {l : List α} (h : [a, b].Sublist (l ++ [c])) :
    [a, b].Sublist l ∨ a ∈ l ∧ b = c := by
  obtain ⟨l₁, l₂, heq, h₁, h₂⟩ := List.sublist_append_iff.mp h
  cases l₂ with
  | nil =>
    rw [List.append_nil] at heq
    exact .inl (heq ▸ h₁)
  | cons x l₂ =>
    obtain ⟨rfl, rfl⟩ : x = c ∧ l₂ = [] := by
      cases h₂ with
      | cons _ h => cases h
      | cons_cons _ h => exact ⟨rfl, List.sublist_nil.mp h⟩
    obtain ⟨rfl, rfl⟩ : l₁ = [a] ∧ b = x := by
      cases l₁ with
      | nil => simp at heq
      | cons y l₁ =>
        cases l₁ with
        | nil => simpa [eq_comm] using heq
        | cons z l₁ => simp at heq
    exact .inr ⟨h₁.subset (by simp), rfl⟩

/-- The operations in the order in which they took effect, with what is known of
the calls that are not over. -/
structure Explains (spec : τ → ω → τ × ρ) (m₀ : τ) (hist : List (Event ω ρ)) (n : Nat) (slots : Nat → Slot ω ρ) (m : τ)
    (es : List (Effect ω ρ)) : Prop where
  linear : Linearization spec m₀ hist es
  outcome : outcomeOf spec m₀ es = m
  fresh : ∀ e ∈ hist, e.number < n
  called : ∀ t k o, slots t = .called k o → Event.call k o ∈ hist ∧ k ∉ es.map Effect.number
  done : ∀ t k o r, slots t = .done k o r → ⟨k, o, r⟩ ∈ es
  apart : ∀ t u k, (slots t).number = some k → (slots u).number = some k → t = u
  /-- A call took effect, or is under way. -/
  covered : ∀ k o, Event.call k o ∈ hist → ⟨k, o⟩ ∈ es.map (fun e => (e.number, e.op)) ∨ ∃ t, slots t = .called k o

theorem Explains.number_lt {hist : List (Event ω ρ)} {n : Nat} {slots : Nat → Slot ω ρ} {es : List (Effect ω ρ)}
    (h : Explains spec m₀ hist n slots m es) {t k : Nat} (ht : (slots t).number = some k) : k < n := by
  cases hs : slots t with
  | idle => rw [hs] at ht; cases ht
  | called k' o =>
    rw [hs] at ht
    cases ht
    exact h.fresh _ (h.called t k o hs).1
  | done k' o r =>
    rw [hs] at ht
    cases ht
    exact h.fresh _ (h.linear.called _ (h.done t k o r hs))

theorem Atomic.explains {hist : List (Event ω ρ)} {n : Nat} {slots : Nat → Slot ω ρ}
    (h : Atomic spec m₀ hist n slots m) : ∃ es, Explains spec m₀ hist n slots m es := by
  induction h with
  | init =>
    exact ⟨[],
      { linear := ⟨List.nodup_nil, nofun, nofun, trivial, nofun⟩
        outcome := rfl
        fresh := nofun
        called := nofun
        done := nofun
        apart := nofun
        covered := nofun }⟩
  | @call hist n slots m t _ ht o ih =>
    obtain ⟨es, h⟩ := ih
    have hn : ∀ e ∈ es, e.number ≠ n := fun e he => Nat.ne_of_lt (h.fresh _ (h.linear.called e he))
    refine ⟨es, ⟨h.linear.nodup, fun e he => List.mem_append_left _ (h.linear.called e he), fun k r hr => ?_,
      h.linear.legal, fun a r b o' hsub e he f hf hea hfb => ?_⟩, h.outcome, fun e he => ?_, fun u k o' hu => ?_,
      fun u k o' r hu => ?_, fun u v k hu hv => ?_, fun k o' hk => ?_⟩
    · rcases List.mem_append.mp hr with hr | hr
      · exact h.linear.returned k r hr
      · simp at hr
    · rcases sublist_snoc hsub with hsub | ⟨-, hb⟩
      · exact h.linear.order a r b o' hsub e he f hf hea hfb
      · -- the new call did not take effect
        cases hb
        exact absurd hfb (hn f hf)
    · rcases List.mem_append.mp he with he | he
      · exact Nat.lt_succ_of_lt (h.fresh e he)
      · rw [List.mem_singleton.mp he]
        exact Nat.lt_succ_self n
    · by_cases hut : u = t
      · subst hut
        rw [Function.update_self] at hu
        cases hu
        refine ⟨by simp, fun hmem => ?_⟩
        obtain ⟨e, he, hen⟩ := List.mem_map.mp hmem
        exact hn e he hen
      · rw [Function.update_of_ne hut] at hu
        exact ⟨List.mem_append_left _ (h.called u k o' hu).1, (h.called u k o' hu).2⟩
    · by_cases hut : u = t
      · subst hut
        rw [Function.update_self] at hu
        cases hu
      · rw [Function.update_of_ne hut] at hu
        exact h.done u k o' r hu
    · have key : ∀ v, v ≠ t → (slots v).number ≠ some n := fun v _ hv => Nat.lt_irrefl _ (h.number_lt hv)
      by_cases hut : u = t <;> by_cases hvt : v = t
      · rw [hut, hvt]
      · subst hut
        rw [Function.update_self] at hu
        rw [Function.update_of_ne hvt] at hv
        cases hu
        exact absurd hv (key v hvt)
      · subst hvt
        rw [Function.update_self] at hv
        rw [Function.update_of_ne hut] at hu
        cases hv
        exact absurd hu (key u hut)
      · rw [Function.update_of_ne hut] at hu
        rw [Function.update_of_ne hvt] at hv
        exact h.apart u v k hu hv
    · rcases List.mem_append.mp hk with hk | hk
      · refine (h.covered k o' hk).imp_right fun ⟨u, hu⟩ => ⟨u, ?_⟩
        rw [Function.update_of_ne, hu]
        rintro rfl
        cases hu.symm.trans ht
      · cases List.mem_singleton.mp hk
        exact .inr ⟨t, Function.update_self ..⟩
  | @perform hist n k slots m t o _ ht ih =>
    obtain ⟨es, h⟩ := ih
    obtain ⟨hcall, hnot⟩ := h.called t k o ht
    have hnum : (slots t).number = some k := by rw [ht]; rfl
    refine ⟨es ++ [⟨k, o, (spec m o).2⟩], ⟨?_, fun e he => ?_, fun k' r hr => ?_, ?_,
      fun a r b o' hsub e he f hf hea hfb => ?_⟩, ?_, h.fresh, fun u k' o' hu => ?_, fun u k' o' r hu => ?_,
      fun u v k' hu hv => ?_, fun k' o' hk => ?_⟩
    · rw [List.map_append, List.nodup_append]
      refine ⟨h.linear.nodup, by simp, ?_⟩
      simp only [List.map_cons, List.map_nil, List.mem_singleton]
      rintro x hx _ rfl rfl
      exact hnot hx
    · rcases List.mem_append.mp he with he | he
      · exact h.linear.called e he
      · rw [List.mem_singleton.mp he]
        exact hcall
    · obtain ⟨e, he, hen⟩ := h.linear.returned k' r hr
      exact ⟨e, List.mem_append_left _ he, hen⟩
    · exact h.linear.legal.append (by rw [h.outcome])
    · have hret : Event.ret a r ∈ hist := hsub.subset (by simp)
      obtain ⟨e', he', hea', -⟩ := h.linear.returned a r hret
      have hak : a ≠ k := fun hak => hnot (List.mem_map.mpr ⟨e', he', hea'.trans hak⟩)
      have hmem : e ∈ es := by
        rcases List.mem_append.mp he with he | he
        · exact he
        · rw [List.mem_singleton.mp he] at hea
          exact absurd hea.symm hak
      rcases List.mem_append.mp hf with hf | hf
      · exact (h.linear.order a r b o' hsub e hmem f hf hea hfb).trans (List.sublist_append_left _ _)
      · -- the operation that takes effect now stands last
        rw [List.mem_singleton.mp hf]
        exact (List.singleton_sublist.mpr hmem).append (List.Sublist.refl _)
    · rw [outcomeOf, List.foldl_append]
      exact congrArg (fun m => (spec m o).1) h.outcome
    · by_cases hut : u = t
      · subst hut
        rw [Function.update_self] at hu
        cases hu
      · rw [Function.update_of_ne hut] at hu
        refine ⟨(h.called u k' o' hu).1, fun hmem => ?_⟩
        rw [List.map_append, List.mem_append] at hmem
        rcases hmem with hmem | hmem
        · exact (h.called u k' o' hu).2 hmem
        · rw [List.map_cons, List.map_nil, List.mem_singleton] at hmem
          exact hut (h.apart u t k (by rw [hu]; exact congrArg some hmem) hnum)
    · by_cases hut : u = t
      · subst hut
        rw [Function.update_self] at hu
        cases hu
        simp
      · rw [Function.update_of_ne hut] at hu
        exact List.mem_append_left _ (h.done u k' o' r hu)
    · have hsame : ∀ v, (Function.update slots t (.done k o (spec m o).2) v).number = (slots v).number := by
        intro v
        by_cases hvt : v = t
        · subst hvt
          rw [Function.update_self, hnum]
          rfl
        · rw [Function.update_of_ne hvt]
      rw [hsame] at hu hv
      exact h.apart u v k' hu hv
    · rw [List.map_append, List.mem_append]
      rcases h.covered k' o' hk with hmem | ⟨u, hu⟩
      · exact .inl (.inl hmem)
      · by_cases hut : u = t
        · subst hut
          cases hu.symm.trans ht
          exact .inl (.inr (List.mem_singleton.mpr rfl))
        · exact .inr ⟨u, by rwa [Function.update_of_ne hut]⟩
  | @ret hist n k slots m t o r _ ht ih =>
    obtain ⟨es, h⟩ := ih
    have hmem := h.done t k o r ht
    refine ⟨es, ⟨h.linear.nodup, fun e he => List.mem_append_left _ (h.linear.called e he), fun k' r' hr => ?_,
      h.linear.legal, fun a r' b o' hsub e he f hf hea hfb => ?_⟩, h.outcome, fun e he => ?_, fun u k' o' hu => ?_,
      fun u k' o' r' hu => ?_, fun u v k' hu hv => ?_, fun k' o' hk => ?_⟩
    · rcases List.mem_append.mp hr with hr | hr
      · exact h.linear.returned k' r' hr
      · cases List.mem_singleton.mp hr
        exact ⟨_, hmem, rfl, rfl⟩
    · rcases sublist_snoc hsub with hsub | ⟨-, hb⟩
      · exact h.linear.order a r' b o' hsub e he f hf hea hfb
      · cases hb
    · rcases List.mem_append.mp he with he | he
      · exact h.fresh e he
      · rw [List.mem_singleton.mp he]
        show k < n
        exact h.fresh _ (h.linear.called _ hmem)
    · by_cases hut : u = t
      · subst hut
        rw [Function.update_self] at hu
        cases hu
      · rw [Function.update_of_ne hut] at hu
        exact ⟨List.mem_append_left _ (h.called u k' o' hu).1, (h.called u k' o' hu).2⟩
    · by_cases hut : u = t
      · subst hut
        rw [Function.update_self] at hu
        cases hu
      · rw [Function.update_of_ne hut] at hu
        exact h.done u k' o' r' hu
    · by_cases hut : u = t
      · subst hut
        rw [Function.update_self] at hu
        cases hu
      · by_cases hvt : v = t
        · subst hvt
          rw [Function.update_self] at hv
          cases hv
        · rw [Function.update_of_ne hut] at hu
          rw [Function.update_of_ne hvt] at hv
          exact h.apart u v k' hu hv
    · rcases List.mem_append.mp hk with hk | hk
      · refine (h.covered k' o' hk).imp_right fun ⟨u, hu⟩ => ⟨u, ?_⟩
        rw [Function.update_of_ne, hu]
        rintro rfl
        cases hu.symm.trans ht
      · cases List.mem_singleton.mp hk

/-- What is atomic is linearizable. -/
theorem Atomic.linearizable {hist : List (Event ω ρ)} {n : Nat} {slots : Nat → Slot ω ρ}
    (h : Atomic spec m₀ hist n slots m) : Linearizable spec m₀ hist := by
  obtain ⟨es, hes⟩ := h.explains
  exact ⟨es, hes.linear⟩

/-- When no call is under way, all calls took effect, and the abstract state is
what they left. -/
theorem Atomic.complete {hist : List (Event ω ρ)} {n : Nat} {slots : Nat → Slot ω ρ}
    (h : Atomic spec m₀ hist n slots m) (hidle : ∀ t, slots t = .idle) :
    ∃ es, Linearization spec m₀ hist es ∧ (∀ k o, Event.call k o ∈ hist → ∃ e ∈ es, e.number = k ∧ e.op = o) ∧
      outcomeOf spec m₀ es = m := by
  obtain ⟨es, hes⟩ := h.explains
  refine ⟨es, hes.linear, fun k o hk => ?_, hes.outcome⟩
  rcases hes.covered k o hk with hmem | ⟨t, ht⟩
  · obtain ⟨e, he, heq⟩ := List.mem_map.mp hmem
    exact ⟨e, he, congrArg Prod.fst heq, congrArg Prod.snd heq⟩
  · cases (hidle t).symm.trans ht

end Dlsmc
