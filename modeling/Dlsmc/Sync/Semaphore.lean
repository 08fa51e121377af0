import Mathlib.Algebra.Group.Nat.Defs
import Mathlib.Data.List.Range
import Dlsmc.Framework.LinkQueue
import Dlsmc.Framework.Machine

/-!
# The green-thread semaphore (`gt_wait.c`)

`dlsm_gt_semaphore` and the calls of `wait` and `post` on it by any number of
tasks and threads. A section under `qlock` is one step, so every state is one
with `qlock` free; `park` may return at any time, so the `unpark` after a
post's section changes nothing here and is left out. A task has one call in
progress at a time, so its waiter node is named by the task.

`State.posts`, `State.passed`, `State.ticket`, `State.tickets` and
`State.grants` count the posts that returned `OK` and the waits that found a
permit, and record the order in which waiters were queued and granted; no step
reads them.
-/

namespace Dlsmc.Semaphore

/-- `UINT64_MAX` -/
def UINT64_MAX : Nat := 2 ^ 64 - 1

/-- The statuses the calls return. -/
inductive Status where
  | ok
  /-- `DLSM_SYNC_E_INVAL` -/
  | inval
  /-- `DLSM_SYNC_E_STATE` -/
  | state
  deriving DecidableEq

/-- `dlsm_gt_semaphore`, the waiter nodes and the tasks. -/
structure State where
  count : Nat
  queue : Links Nat
  granted : Nat → Bool
  /-- The task is in `wait`, queued, reading `granted` and parking. -/
  waiting : Nat → Bool
  posts : Nat
  passed : Nat
  ticket : Nat → Nat
  tickets : Nat
  grants : List Nat

/-- `dlsm_gt_semaphore_init` -/
def State.initial (count : Nat) : State where
  count := count
  queue := ⟨fun _ => none, none, none⟩
  granted := fun _ => false
  waiting := fun _ => false
  posts := 0
  passed := 0
  ticket := fun _ => 0
  tickets := 0
  grants := []

/-- The actions. `handle` is `ops->current()`, `none` outside a task. -/
inductive Act where
  | wait (handle : Option Nat)
  /-- `wait` reads `granted` once, and parks and wakes if it is 0. -/
  | poll (t : Nat)
  | post
  deriving DecidableEq

/-- `dlsm_gt_semaphore_wait`, to the end of its section; the status if it
returns there. -/
def wait (s : State) (t : Nat) : State × Option Status :=
  let s := { s with granted := Function.update s.granted t false }
  if s.count > 0 then ({ s with count := s.count - 1, passed := s.passed + 1 }, some .ok)
  else
    ({ s with
      queue := s.queue.push t
      waiting := Function.update s.waiting t true
      ticket := Function.update s.ticket t s.tickets
      tickets := s.tickets + 1 }, none)

/-- `dlsm_gt_semaphore_post` -/
def post (s : State) : State × Option Status :=
  match s.queue.pop with
  | some (w, q) =>
    ({ s with
      queue := q
      granted := Function.update s.granted w true
      posts := s.posts + 1
      grants := s.grants ++ [s.ticket w] }, some .ok)
  | none =>
    if s.count = UINT64_MAX then (s, some .state)
    else ({ s with count := (s.count + 1) % 2 ^ 64, posts := s.posts + 1 }, some .ok)

/-- One step, and the status with which its call returns, if it does. -/
def exec (s : State) : Act → Option (State × Option Status)
  | .wait none => some (s, some .inval)
  | .wait (some t) => if s.waiting t = true then none else some (wait s t)
  | .poll t =>
    if s.waiting t = true then
      if s.granted t = true then some ({ s with waiting := Function.update s.waiting t false }, some .ok)
      else some (s, none)
    else none
  | .post => some (post s)

/-- The semaphore, initialised with `c`, in use by any number of tasks. -/
def machine (c : Nat) : Machine State Act where
  init := fun s => s = State.initial c
  step := fun s a => (exec s a).map Prod.fst

/-- What holds in every state of a semaphore initialised with `c`. -/
structure Safe (c : Nat) (s : State) : Prop where
  /-- Permits are neither lost nor duplicated. -/
  permits : c + s.posts = s.count + (s.passed + s.grants.length)
  bound : s.count ≤ UINT64_MAX
  /-- While permits are counted no task is queued. -/
  idle : 0 < s.count → s.queue.head = none ∧ s.queue.tail = none
  /-- The tasks queued are the waiters not granted yet; the tickets granted so
  far, in this order, and those of the queue, from its head, are all tickets in
  the order they were given out. -/
  order : ∃ l, s.queue.Repr l ∧ (∀ t, t ∈ l ↔ s.waiting t = true ∧ s.granted t = false) ∧
    s.grants ++ l.map s.ticket = List.range s.tickets

def Act.isWait : Act → Bool
  | .wait _ => true
  | _ => false

/-- What a step from `s` to `s'` does whose call returns `r`. -/
structure StepSafe (s : State) (a : Act) (s' : State) (r : Option Status) : Prop where
  /-- A refused post changes nothing. -/
  refused : a = .post → r = some .state → s.count = UINT64_MAX ∧ s' = s
  /-- A post grants at most the waiter at the head of the queue. -/
  grants : s'.grants = s.grants ∧ (∀ t, s'.granted t = true → s.granted t = true) ∨
    ∃ w l, s.queue.Repr (w :: l) ∧ s'.queue.Repr l ∧ s'.granted = Function.update s.granted w true ∧
      s'.grants = s.grants ++ [s.ticket w] ∧ a = .post ∧ r = some .ok
  /-- A queued wait returns only when it was granted, and then `OK`. -/
  returns : ∀ t, s.waiting t = true → s'.waiting t = false → s.granted t = true ∧ r = some .ok
  /-- The posts counted are those that returned `OK`, and the waits counted as
  passed are those that returned `OK` without waiting. -/
  posts : s'.posts = if a = .post ∧ r = some .ok then s.posts + 1 else s.posts
  passed : s'.passed = if a.isWait = true ∧ r = some .ok then s.passed + 1 else s.passed
  /-- Other waiters keep their tickets. -/
  ticket : ∀ t, s.waiting t = true → s'.ticket t = s.ticket t

/-- The invariant: `l` is the queue. -/
structure Inv (c : Nat) (s : State) (l : List Nat) : Prop where
  permits : c + s.posts = s.count + (s.passed + s.grants.length)
  bound : s.count ≤ UINT64_MAX
  idle : 0 < s.count → l = []
  repr : s.queue.Repr l
  mem : ∀ t, t ∈ l ↔ s.waiting t = true ∧ s.granted t = false
  order : s.grants ++ l.map s.ticket = List.range s.tickets

variable {c t : Nat} {s s' : State} {l : List Nat} {r : Option Status}

theorem Inv.safe (h : Inv c s l) : Safe c s where
  permits := h.permits
  bound := h.bound
  idle hc := ⟨h.repr.head_eq_none.mpr (h.idle hc), h.repr.tail_eq_none.mpr (h.idle hc)⟩
  order := ⟨l, h.repr, h.mem, h.order⟩

theorem Inv.wait (h : Inv c s l) (ht : s.waiting t = false) : ∃ l', Inv c (wait s t).1 l' := by
  obtain ⟨hpermits, hbound, hidle, hrepr, hmem₀, horder⟩ := h
  have htl : t ∉ l := fun hm => by simp [((hmem₀ t).mp hm).1] at ht
  have hmem : ∀ u, u ∈ l ↔ s.waiting u = true ∧ Function.update s.granted t false u = false := fun u => by
    by_cases e : u = t
    · simp [e, htl, ht]
    · simpa [e] using hmem₀ u
  unfold Semaphore.wait
  dsimp only
  split
  · refine ⟨l, ?_, ?_, ?_, hrepr, hmem, horder⟩ <;> dsimp only
    · omega
    · omega
    · exact fun hc => hidle (by omega)
  · rename_i hc
    refine ⟨l ++ [t], hpermits, hbound, fun h => absurd h hc, hrepr.push htl, ?_, ?_⟩ <;> dsimp only
    · intro u
      by_cases e : u = t
      · simp [e]
      · simpa [e] using hmem₀ u
    · have hmap : l.map (Function.update s.ticket t s.tickets) = l.map s.ticket :=
        List.map_congr_left fun u hu => Function.update_of_ne (fun e : u = t => htl (e ▸ hu)) _ _
      rw [List.map_append, hmap, ← List.append_assoc, horder, List.range_succ]
      simp

theorem Inv.post (h : Inv c s l) : ∃ l', Inv c (post s).1 l' := by
  obtain ⟨hpermits, hbound, hidle, hrepr, hmem, horder⟩ := h
  cases l with
  | nil =>
    simp only [Semaphore.post, hrepr.pop_nil]
    split
    · exact ⟨[], hpermits, hbound, hidle, hrepr, hmem, horder⟩
    · rename_i hc
      have hmod : (s.count + 1) % 2 ^ 64 = s.count + 1 :=
        Nat.mod_eq_of_lt (by simp only [UINT64_MAX] at hbound hc; omega)
      refine ⟨[], ?_, ?_, fun _ => rfl, hrepr, hmem, horder⟩ <;> dsimp only <;> rw [hmod]
      · omega
      · omega
  | cons w l =>
    obtain ⟨q, hq, hr, -⟩ := hrepr.pop_cons
    have hw := List.nodup_cons.mp hrepr.nodup
    simp only [Semaphore.post, hq]
    refine ⟨l, ?_, hbound, fun hc => absurd (hidle hc) (by simp), hr, ?_, ?_⟩ <;> dsimp only
    · simp only [List.length_append, List.length_singleton]
      omega
    · intro u
      by_cases e : u = w
      · simp [e, hw.1]
      · simpa [e] using hmem u
    · simpa using horder

theorem Inv.leave (h : Inv c s l) (hg : s.granted t = true) :
    Inv c { s with waiting := Function.update s.waiting t false } l := by
  obtain ⟨hpermits, hbound, hidle, hrepr, hmem, horder⟩ := h
  refine ⟨hpermits, hbound, hidle, hrepr, fun u => ?_, horder⟩
  by_cases e : u = t
  · simp [e, hmem, hg]
  · simpa [e] using hmem u

/-- The step lemma. -/
theorem Inv.step (h : Inv c s l) {a : Act} (he : exec s a = some (s', r)) : ∃ l', Inv c s' l' := by
  cases a with
  | wait hd =>
    cases hd with
    | none =>
      obtain ⟨rfl, -⟩ := Prod.mk.inj (Option.some.inj he)
      exact ⟨l, h⟩
    | some t =>
      simp only [exec, Option.ite_none_left_eq_some, Bool.not_eq_true, Option.some.injEq] at he
      have := h.wait he.1
      rwa [he.2] at this
  | poll t =>
    simp only [exec, Option.ite_none_right_eq_some] at he
    obtain ⟨-, he⟩ := he
    split_ifs at he with hg
    · obtain ⟨rfl, -⟩ := Prod.mk.inj (Option.some.inj he)
      exact ⟨l, h.leave hg⟩
    · obtain ⟨rfl, -⟩ := Prod.mk.inj (Option.some.inj he)
      exact ⟨l, h⟩
  | post =>
    have := h.post
    rwa [show Semaphore.post s = (s', r) from Option.some.inj he] at this

theorem stepSafe_wait (ht : s.waiting t = false) : StepSafe s (.wait (some t)) (wait s t).1 (wait s t).2 := by
  have hg : ∀ u, Function.update s.granted t false u = true → s.granted u = true := fun u hu => by
    by_cases e : u = t
    · simp [e] at hu
    · rwa [Function.update_of_ne e] at hu
  have hne : ∀ u, s.waiting u = true → u ≠ t := fun u hu e => by simp [e, ht] at hu
  unfold wait
  dsimp only
  split
  · refine ⟨by simp, .inl ⟨rfl, hg⟩, fun u hu hu' => ?_, by simp, by simp [Act.isWait], fun _ _ => rfl⟩
    simp [hu] at hu'
  · refine ⟨by simp, .inl ⟨rfl, hg⟩, fun u hu hu' => ?_, by simp, by simp, fun u hu => ?_⟩
    · simp [hne u hu, hu] at hu'
    · exact Function.update_of_ne (hne u hu) _ _

theorem Inv.stepSafe_post (h : Inv c s l) : StepSafe s .post (Semaphore.post s).1 (Semaphore.post s).2 := by
  have hw : ∀ u, s.waiting u = true → s.waiting u = false → False := fun u hu hu' => by simp [hu] at hu'
  cases l with
  | nil =>
    simp only [Semaphore.post, h.repr.pop_nil]
    split
    · rename_i hc
      exact ⟨fun _ _ => ⟨hc, rfl⟩, .inl ⟨rfl, fun _ h => h⟩, fun u hu hu' => (hw u hu hu').elim, by simp, by simp,
        fun _ _ => rfl⟩
    · exact ⟨by simp, .inl ⟨rfl, fun _ h => h⟩, fun u hu hu' => (hw u hu hu').elim, by simp, by simp [Act.isWait],
        fun _ _ => rfl⟩
  | cons w l =>
    obtain ⟨q, hq, hr, -⟩ := h.repr.pop_cons
    simp only [Semaphore.post, hq]
    exact ⟨by simp, .inr ⟨w, l, h.repr, hr, rfl, rfl, rfl, rfl⟩, fun u hu hu' => (hw u hu hu').elim, by simp,
      by simp [Act.isWait], fun _ _ => rfl⟩

theorem Inv.stepSafe (h : Inv c s l) {a : Act} (he : exec s a = some (s', r)) : StepSafe s a s' r := by
  have hw : ∀ u, s.waiting u = true → s.waiting u = false → False := fun u hu hu' => by simp [hu] at hu'
  cases a with
  | wait hd =>
    cases hd with
    | none =>
      obtain ⟨rfl, rfl⟩ := Prod.mk.inj (Option.some.inj he)
      exact ⟨by simp, .inl ⟨rfl, fun _ h => h⟩, fun u hu hu' => (hw u hu hu').elim, by simp, by simp, fun _ _ => rfl⟩
    | some t =>
      simp only [exec, Option.ite_none_left_eq_some, Bool.not_eq_true, Option.some.injEq] at he
      have := stepSafe_wait he.1
      rwa [he.2] at this
  | poll t =>
    simp only [exec, Option.ite_none_right_eq_some] at he
    obtain ⟨-, he⟩ := he
    split_ifs at he with hg
    · obtain ⟨rfl, rfl⟩ := Prod.mk.inj (Option.some.inj he)
      refine ⟨by simp, .inl ⟨rfl, fun _ h => h⟩, fun u hu hu' => ?_, by simp, by simp [Act.isWait], fun _ _ => rfl⟩
      by_cases e : u = t
      · exact ⟨e ▸ hg, rfl⟩
      · simp [e, hu] at hu'
    · obtain ⟨rfl, rfl⟩ := Prod.mk.inj (Option.some.inj he)
      exact ⟨by simp, .inl ⟨rfl, fun _ h => h⟩, fun u hu hu' => (hw u hu hu').elim, by simp, by simp, fun _ _ => rfl⟩
  | post =>
    have := h.stepSafe_post
    rwa [show Semaphore.post s = (s', r) from Option.some.inj he] at this

theorem inv_initial (hc : c ≤ UINT64_MAX) : Inv c (State.initial c) [] := by
  refine ⟨rfl, hc, fun _ => rfl, ⟨rfl, rfl⟩, ?_, rfl⟩
  simp [State.initial]

/-- Every state of every run of waits and posts on a semaphore initialised with
any count is safe, and so is every step. -/
theorem gt_semaphore_safe (c : Nat) (hc : c ≤ UINT64_MAX) (s : State) (h : (machine c).Reach s) :
    Safe c s ∧ ∀ a s' r, exec s a = some (s', r) → StepSafe s a s' r := by
  obtain ⟨l, hl⟩ : ∃ l, Inv c s l := by
    refine h.invariant (I := fun s => ∃ l, Inv c s l) ?_ ?_
    · rintro s rfl
      exact ⟨[], inv_initial hc⟩
    · rintro s s' a - ⟨l, hl⟩ he
      obtain ⟨⟨s', r⟩, he₁, rfl⟩ := Option.map_eq_some_iff.mp he
      exact hl.step he₁
  exact ⟨hl.safe, fun a s' r he => hl.stepSafe he⟩

/-- One permit and three waits; two posts hand permits to the waiters. -/
def handsPermits : List Act :=
  [.wait (some 1), .wait (some 2), .wait (some 3), .poll 2, .post, .wait (some 4), .poll 2, .post, .poll 3]

theorem gt_semaphore_safe_hands :
    1 ≤ UINT64_MAX ∧ ∃ s, (machine 1).Reach s ∧ s.grants = [0, 1] ∧ s.tickets = 3 ∧ Safe 1 s ∧
      ∀ a s' r, exec s a = some (s', r) → StepSafe s a s' r := by
  obtain ⟨s, hs, hp⟩ := Machine.exists_reach_of_run (M := machine 1) (s := State.initial 1) (l := handsPermits)
    (p := fun s => s.grants == [0, 1] && s.tickets == 3) rfl (by decide +kernel)
  simp only [Bool.and_eq_true, beq_iff_eq] at hp
  exact ⟨by decide, s, hs, hp.1, hp.2, gt_semaphore_safe 1 (by decide) s hs⟩

end Dlsmc.Semaphore
