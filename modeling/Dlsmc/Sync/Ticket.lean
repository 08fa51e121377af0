import Mathlib.Algebra.Group.Nat.Defs
import Mathlib.Data.Fintype.Card
import Mathlib.Data.List.Nodup
import Dlsmc.Framework.Machine

/-!
# The ticket lock (`ticket.c`)

`dlsm_ticket_lock` used by `n` threads, every atomic load, store and
`fetch_add` one step. `next` and `owner` are 32-bit counters that wrap; only
the holder releases.

`State.taken` and `State.entered` record the threads in the order of their
`fetch_add` and of their entry; no step reads them. The threads that hold or
wait for the lock form a queue (`Inv`): the ticket of the one at place `i` is
`owner + i` modulo `2 ^ 32`, and as there are fewer than `2 ^ 32` threads only
the first one's ticket is `owner`.
-/

namespace Dlsmc.Ticket

/-- Where a thread stands. -/
inductive Pc where
  | idle
  /-- `acquire`: has ticket `my`, about to load `owner`. -/
  | wait (my : Nat)
  /-- Between the return of `acquire` and the call of `release`. -/
  | holds
  /-- `release`: loaded `owner`, about to store it plus 1. -/
  | release (cur : Nat)
  deriving DecidableEq

/-- `dlsm_ticket_lock` and its threads. -/
structure State (n : Nat) where
  next : Nat
  owner : Nat
  pc : Fin n → Pc
  taken : List (Fin n)
  entered : List (Fin n)

/-- `dlsm_ticket_init` -/
def State.initial (n : Nat) : State n where
  next := 0
  owner := 0
  pc := fun _ => .idle
  taken := []
  entered := []

inductive Act (n : Nat) where
  /-- `acquire`: `fetch_add` on `next`. -/
  | acquire (t : Fin n)
  /-- `acquire`: one load of `owner`. -/
  | spin (t : Fin n)
  /-- `release`: the load of `owner`. -/
  | release (t : Fin n)
  /-- `release`: the store of `owner`. -/
  | store (t : Fin n)
  deriving DecidableEq

variable {n : Nat}

/-- One atomic step. -/
def step (s : State n) : Act n → Option (State n)
  | .acquire t =>
    if s.pc t = .idle then
      some { s with
        next := (s.next + 1) % 2 ^ 32
        pc := Function.update s.pc t (.wait s.next)
        taken := s.taken ++ [t] }
    else none
  | .spin t =>
    match s.pc t with
    | .wait my =>
      if s.owner = my then
        some { s with pc := Function.update s.pc t .holds, entered := s.entered ++ [t] }
      else some s
    | _ => none
  | .release t =>
    if s.pc t = .holds then some { s with pc := Function.update s.pc t (.release s.owner) } else none
  | .store t =>
    match s.pc t with
    | .release cur => some { s with owner := (cur + 1) % 2 ^ 32, pc := Function.update s.pc t .idle }
    | _ => none

/-- The lock in use by `n` threads. -/
def machine (n : Nat) : Machine (State n) (Act n) where
  init := fun s => s = State.initial n
  step := step

/-- In the critical section: between the return of `acquire` and the store
that releases the lock. -/
def Pc.inside : Pc → Bool
  | .holds | .release _ => true
  | _ => false

/-- What holds in every state of the lock. -/
structure Safe (s : State n) : Prop where
  exclusive : ∀ t u, (s.pc t).inside = true → (s.pc u).inside = true → t = u
  /-- Threads enter in the order of their `fetch_add`. -/
  order : s.entered <+: s.taken
  /-- `next - owner` is the number of threads that hold or wait for the lock. -/
  count : (s.next + 2 ^ 32 - s.owner) % 2 ^ 32 = (Finset.univ.filter fun t => s.pc t ≠ .idle).card

/-- The invariant: `q` are the threads that hold or wait for the lock. -/
structure Inv (s : State n) (q : List (Fin n)) : Prop where
  nodup : q.Nodup
  mem : ∀ t, t ∈ q ↔ s.pc t ≠ .idle
  owner : s.owner < 2 ^ 32
  next : s.next = (s.owner + q.length) % 2 ^ 32
  ticket : ∀ i t my, q[i]? = some t → s.pc t = .wait my → my = (s.owner + i) % 2 ^ 32
  inside : ∀ t, (s.pc t).inside = true → q.head? = some t
  release : ∀ t cur, s.pc t = .release cur → cur = s.owner
  order : s.taken = s.entered ++ q.filter fun t => !(s.pc t).inside

variable {s s' : State n} {q : List (Fin n)} {t : Fin n}

theorem Inv.length_le (h : Inv s q) : q.length ≤ n := by
  simpa using h.nodup.length_le_card

/-- Only the head of the queue may find its ticket served. -/
theorem Inv.head_of_served (h : Inv s q) (hn : n < 2 ^ 32) (hp : s.pc t = .wait s.owner) : q.head? = some t := by
  have ht : t ∈ q := (h.mem t).mpr (by simp [hp])
  obtain ⟨i, hi, rfl⟩ := List.getElem_of_mem ht
  have hq : q[i]? = some q[i] := List.getElem?_eq_getElem hi
  have := h.ticket i _ _ hq hp
  have hl := h.length_le
  have ho := h.owner
  obtain rfl : i = 0 := by omega
  rw [List.head?_eq_getElem?, hq]

theorem Inv.safe (h : Inv s q) (hn : n < 2 ^ 32) : Safe s where
  exclusive t u ht hu := by
    have := (h.inside t ht).symm.trans (h.inside u hu)
    exact Option.some.inj this
  order := h.order ▸ List.prefix_append _ _
  count := by
    have hc : (Finset.univ.filter fun t => s.pc t ≠ .idle) = q.toFinset := by
      ext t
      simp [h.mem t]
    rw [hc, List.toFinset_card_of_nodup h.nodup, h.next]
    have hl := h.length_le
    have ho := h.owner
    omega

theorem Inv.acquire (h : Inv s q) (hp : s.pc t = .idle) :
    Inv { s with
      next := (s.next + 1) % 2 ^ 32
      pc := Function.update s.pc t (.wait s.next)
      taken := s.taken ++ [t] } (q ++ [t]) := by
  obtain ⟨hnodup, hmem, howner, hnext, hticket, hinside, hrelease, horder⟩ := h
  have ht : t ∉ q := fun hm => (hmem t).mp hm hp
  have hne : ∀ u ∈ q, u ≠ t := fun u hu e => ht (e ▸ hu)
  have hnd : (q ++ [t]).Nodup := List.nodup_append.mpr ⟨hnodup, List.nodup_singleton t, by simpa using hne⟩
  refine ⟨hnd, ?_, ?_, ?_, ?_, ?_, ?_, ?_⟩ <;> dsimp only
  · intro u
    by_cases e : u = t
    · simp [e]
    · simp [e, hmem u]
  · exact howner
  · simp only [List.length_append, List.length_singleton]
    omega
  · intro i u my hi hu
    rcases Nat.lt_trichotomy i q.length with hlt | rfl | hgt
    · rw [List.getElem?_append_left hlt] at hi
      rw [Function.update_of_ne (hne u (List.mem_of_getElem? hi))] at hu
      exact hticket i u my hi hu
    · obtain rfl : t = u := by simpa using hi
      simp only [Function.update_self, Pc.wait.injEq] at hu
      omega
    · rw [List.getElem?_eq_none (by simp; omega)] at hi
      cases hi
  · intro u hu
    by_cases e : u = t
    · simp [e, Pc.inside] at hu
    · rw [Function.update_of_ne e] at hu
      rw [List.head?_append, hinside u hu]
      rfl
  · intro u cur hu
    by_cases e : u = t
    · simp [e] at hu
    · exact hrelease u cur (by rwa [Function.update_of_ne e] at hu)
  · have hf : q.filter (fun u => !(Function.update s.pc t (.wait s.next) u).inside) =
        q.filter fun u => !(s.pc u).inside :=
      List.filter_congr fun u hu => by rw [Function.update_of_ne (hne u hu)]
    rw [List.filter_append, hf, horder]
    simp [Pc.inside]

/-- The head of the queue enters. -/
theorem Inv.enter (h : Inv s q) (hq : q.head? = some t) (hp : s.pc t = .wait s.owner) :
    Inv { s with pc := Function.update s.pc t .holds, entered := s.entered ++ [t] } q := by
  obtain ⟨hnodup, hmem, howner, hnext, hticket, hinside, hrelease, horder⟩ := h
  obtain ⟨q, rfl⟩ := List.head?_eq_some_iff.mp hq
  have hne : ∀ u ∈ q, u ≠ t := fun u hu e => (List.nodup_cons.mp hnodup).1 (e ▸ hu)
  refine ⟨hnodup, ?_, ?_, ?_, ?_, ?_, ?_, ?_⟩ <;> dsimp only
  · intro u
    by_cases e : u = t
    · simp [e]
    · simpa [e] using hmem u
  · exact howner
  · exact hnext
  · intro i u my hi hu
    by_cases e : u = t
    · simp [e] at hu
    · exact hticket i u my hi (by rwa [Function.update_of_ne e] at hu)
  · intro u hu
    by_cases e : u = t
    · simp [e]
    · exact hinside u (by rwa [Function.update_of_ne e] at hu)
  · intro u cur hu
    by_cases e : u = t
    · simp [e] at hu
    · exact hrelease u cur (by rwa [Function.update_of_ne e] at hu)
  · have hf : q.filter (fun u => !(Function.update s.pc t .holds u).inside) = q.filter fun u => !(s.pc u).inside :=
      List.filter_congr fun u hu => by rw [Function.update_of_ne (hne u hu)]
    rw [List.filter_cons_of_neg (by simp [Pc.inside]), hf, horder, List.filter_cons_of_pos (by simp [hp, Pc.inside])]
    simp

theorem Inv.load (h : Inv s q) (hp : s.pc t = .holds) :
    Inv { s with pc := Function.update s.pc t (.release s.owner) } q := by
  obtain ⟨hnodup, hmem, howner, hnext, hticket, hinside, hrelease, horder⟩ := h
  have hin : ∀ u, (Function.update s.pc t (.release s.owner) u).inside = (s.pc u).inside := fun u => by
    by_cases e : u = t
    · simp [e, hp, Pc.inside]
    · simp [e]
  refine ⟨hnodup, ?_, ?_, ?_, ?_, ?_, ?_, ?_⟩ <;> dsimp only
  · intro u
    by_cases e : u = t
    · simp [e, hmem t, hp]
    · simpa [e] using hmem u
  · exact howner
  · exact hnext
  · intro i u my hi hu
    by_cases e : u = t
    · simp [e] at hu
    · exact hticket i u my hi (by rwa [Function.update_of_ne e] at hu)
  · intro u hu
    exact hinside u (by rwa [hin] at hu)
  · intro u cur hu
    by_cases e : u = t
    · simpa [e, eq_comm] using hu
    · exact hrelease u cur (by rwa [Function.update_of_ne e] at hu)
  · simp only [hin]
    exact horder

/-- The head of the queue leaves it and serves the next ticket. -/
theorem Inv.store (h : Inv s q) {cur : Nat} (hp : s.pc t = .release cur) :
    Inv { s with owner := (cur + 1) % 2 ^ 32, pc := Function.update s.pc t .idle } q.tail := by
  obtain ⟨hnodup, hmem, howner, hnext, hticket, hinside, hrelease, horder⟩ := h
  have hin : (s.pc t).inside = true := by rw [hp]; rfl
  obtain rfl := hrelease t cur hp
  obtain ⟨q, rfl⟩ := List.head?_eq_some_iff.mp (hinside t hin)
  have hnd := List.nodup_cons.mp hnodup
  have hne : ∀ u ∈ q, u ≠ t := fun u hu e => hnd.1 (e ▸ hu)
  constructor <;> dsimp only [List.tail_cons]
  · exact hnd.2
  · intro u
    by_cases e : u = t
    · simp [e, hnd.1]
    · rw [Function.update_of_ne e, ← hmem u, List.mem_cons, or_iff_right e]
  · exact Nat.mod_lt _ (by decide)
  · simp only [List.length_cons] at hnext
    omega
  · intro i u my hi hu
    rw [Function.update_of_ne (hne u (List.mem_of_getElem? hi))] at hu
    have := hticket (i + 1) u my (by simpa using hi) hu
    omega
  · intro u hu
    by_cases e : u = t
    · simp [e, Pc.inside] at hu
    · rw [Function.update_of_ne e] at hu
      have := hinside u hu
      exact absurd (Option.some.inj this).symm e
  · intro u cur hu
    by_cases e : u = t
    · simp [e] at hu
    · rw [Function.update_of_ne e] at hu
      have hu' : (s.pc u).inside = true := by rw [hu]; rfl
      exact absurd (Option.some.inj (hinside u hu')).symm e
  · have hf : q.filter (fun u => !(Function.update s.pc t .idle u).inside) = q.filter fun u => !(s.pc u).inside :=
      List.filter_congr fun u hu => by rw [Function.update_of_ne (hne u hu)]
    rw [hf, horder, List.filter_cons_of_neg (by simp [hin])]

/-- The step lemma. -/
theorem Inv.step (h : Inv s q) (hn : n < 2 ^ 32) {a : Act n} (hs : step s a = some s') : ∃ q', Inv s' q' := by
  cases a with simp only [Ticket.step] at hs
  | acquire t =>
    simp only [Option.ite_none_right_eq_some, Option.some.injEq] at hs
    obtain ⟨hp, rfl⟩ := hs
    exact ⟨_, h.acquire hp⟩
  | spin t =>
    split at hs
    · rename_i my hp
      split_ifs at hs with ho
      · subst ho
        obtain rfl := Option.some.inj hs
        exact ⟨q, h.enter (h.head_of_served hn hp) hp⟩
      · obtain rfl := Option.some.inj hs
        exact ⟨q, h⟩
    · cases hs
  | release t =>
    simp only [Option.ite_none_right_eq_some, Option.some.injEq] at hs
    obtain ⟨hp, rfl⟩ := hs
    exact ⟨q, h.load hp⟩
  | store t =>
    split at hs
    · rename_i cur hp
      obtain rfl := Option.some.inj hs
      exact ⟨_, h.store hp⟩
    · cases hs

theorem inv_initial (n : Nat) : Inv (State.initial n) [] := by
  constructor <;> simp [State.initial, Pc.inside]

/-- In every run of fewer than `2 ^ 32` threads, however often the counters
wrap, the lock is safe. -/
theorem ticket_lock_safe (n : Nat) (hn : n < 2 ^ 32) (s : State n) (h : (machine n).Reach s) : Safe s := by
  obtain ⟨q, hq⟩ : ∃ q, Inv s q := by
    refine h.invariant (I := fun s => ∃ q, Inv s q) ?_ ?_
    · rintro s rfl
      exact ⟨[], inv_initial n⟩
    · rintro s s' a - ⟨q, hq⟩ hs
      exact hq.step hn hs
  exact hq.safe hn

/-- Two of three threads take tickets, the first passes the lock to the second. -/
def passRun : List (Act 3) :=
  [.acquire 1, .acquire 0, .spin 0, .spin 1, .release 1, .store 1, .spin 0, .acquire 1]

theorem ticket_lock_safe_pass :
    3 < 2 ^ 32 ∧ ∃ s : State 3, (machine 3).Reach s ∧ s.entered = [1, 0] ∧ s.taken = [1, 0, 1] ∧ Safe s := by
  obtain ⟨s, hs, hp⟩ := Machine.exists_reach_of_run (M := machine 3) (s := State.initial 3) (l := passRun)
    (p := fun s => s.entered == [1, 0] && s.taken == [1, 0, 1]) rfl (by decide +kernel)
  simp only [Bool.and_eq_true, beq_iff_eq] at hp
  exact ⟨by decide, s, hs, hp.1, hp.2, ticket_lock_safe 3 (by decide) s hs⟩

end Dlsmc.Ticket
