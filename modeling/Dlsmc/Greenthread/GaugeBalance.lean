import Dlsmc.Greenthread.Gauges

/-!
# The gauges of the scheduler are balanced

A gauge differs from what it counts by what the threads in a transition have
still to update (`Pc.weight`), in every state (`Balance`). A task is carried by
one thread at a time, in one queue or the current one of one VP (`Excl`), so
that the threads that owe a gauge an update do so for different tasks, all of
which it counts.
-/

namespace Dlsmc.Gauges

open Dlsmc.Runtime (TaskState Queue Transition RtState)

/-! ## Sums over threads -/

/-- The sum of `f` over the threads below `n`. -/
def total (f : Nat → Int) : Nat → Int
  | 0 => 0
  | n + 1 => total f n + f n

section
-- its equations are made here, once
attribute [local simp] total
end

theorem total_congr {f k : Nat → Int} {n : Nat} (h : ∀ c < n, k c = f c) : total k n = total f n := by
  induction n with
  | zero => rfl
  | succ n ih => rw [total, total, ih fun c hc => h c (Nat.lt_succ_of_lt hc), h n (Nat.lt_succ_self n)]

/-- One thread changes. -/
theorem total_of_ne {f k : Nat → Int} {n c : Nat} (hc : c < n) (h : ∀ d ≠ c, k d = f d) :
    total k n = total f n + k c - f c := by
  induction n with
  | zero => omega
  | succ n ih =>
    rw [total, total]
    by_cases hcn : c = n
    · subst hcn
      rw [total_congr fun d hd => h d (Nat.ne_of_lt hd)]
      omega
    · rw [ih (by omega), h n (Ne.symm hcn)]
      omega

theorem total_eq_zero {f : Nat → Int} {n : Nat} (h : ∀ c < n, f c = 0) : total f n = 0 := by
  induction n with
  | zero => rfl
  | succ n ih => rw [total, ih fun c hc => h c (Nat.lt_succ_of_lt hc), h n (Nat.lt_succ_self n), Int.add_zero]

theorem total_nonneg {f : Nat → Int} {n : Nat} (h : ∀ c < n, 0 ≤ f c) : 0 ≤ total f n := by
  induction n with
  | zero => exact Int.le_refl 0
  | succ n ih =>
    have h₁ := ih fun c hc => h c (Nat.lt_succ_of_lt hc)
    have h₂ := h n (Nat.lt_succ_self n)
    rw [total]
    omega

/-- Threads that are in debt for different tasks are not more than these tasks. -/
theorem neg_total_le {f : Nat → Int} {k : Nat → Nat} {n : Nat} {l : List Nat} (h : ∀ c < n, -1 ≤ f c)
    (hm : ∀ c < n, f c < 0 → k c ∈ l) (hinj : ∀ c < n, ∀ d < n, f c < 0 → f d < 0 → k c = k d → c = d) :
    -(l.length : Int) ≤ total f n := by
  induction n generalizing l with
  | zero => rw [total]; omega
  | succ n ih =>
    rw [total]
    have hn := h n (Nat.lt_succ_self n)
    by_cases hf : f n < 0
    · have hmem := hm n (Nat.lt_succ_self n) hf
      have hlen := List.length_erase_of_mem hmem
      have hpos := List.length_pos_of_mem hmem
      have := ih (l := l.erase (k n)) (fun c hc => h c (Nat.lt_succ_of_lt hc)) (fun c hc hfc => ?_)
        fun c hc d hd => hinj c (Nat.lt_succ_of_lt hc) d (Nat.lt_succ_of_lt hd)
      · omega
      · refine (List.mem_erase_of_ne fun heq => ?_).mpr (hm c (Nat.lt_succ_of_lt hc) hfc)
        have := hinj c (Nat.lt_succ_of_lt hc) n (Nat.lt_succ_self n) hfc hf heq
        omega
    · have := ih (l := l) (fun c hc => h c (Nat.lt_succ_of_lt hc)) (fun c hc => hm c (Nat.lt_succ_of_lt hc))
        fun c hc d hd => hinj c (Nat.lt_succ_of_lt hc) d (Nat.lt_succ_of_lt hd)
      omega

/-! ## What is at a program point -/

namespace Pc

/-- The task that is neither in a queue nor current, but in the hands of the thread. -/
def carries : Pc → Option Nat
  | .spawned t _ | .controls t _ | .spawnLock t _ | .readyInc t _ | .push t _ | .popped t | .readyDec t | .runningInc t
  | .enter t | .yieldDec t | .yieldLock t | .parkDec t | .parkLock t | .doneLock t | .parkedDec t _
  | .unparkReady t _ => some t
  | _ => none

/-- The task whose lock the thread holds. -/
def holds : Pc → Option Nat
  | .readyInc t _ | .push t _ | .unlock t | .parkedInc t | .doneDec t | .finishedInc t | .doneLive t | .doneUnlock t
  | .unlink t | .controlsDec t | .unlockRt t | .parkedDec t _ | .unparkReady t _ => some t
  | _ => none

/-- A task whose state is known at the point. -/
def expects : Pc → Option (Nat × TaskState)
  | .spawned t _ | .controls t _ | .spawnLock t _ => some (t, .new)
  | .readyInc t _ | .push t _ | .popped t => some (t, .ready)
  | .readyDec t | .runningInc t | .enter t | .yieldDec t | .yieldLock t | .parkDec t | .parkLock t | .doneLock t =>
    some (t, .running)
  | .parkedInc t | .parkedDec t _ | .unparkReady t _ => some (t, .parked)
  | .doneDec t | .finishedInc t | .doneLive t | .doneUnlock t | .exec t | .unlink t | .controlsDec t | .unlockRt t =>
    some (t, .finished)
  | _ => none

/-- The task that is linked before `task_controls` counts it. -/
def starts : Pc → Option Nat
  | .spawned t _ | .controls t _ => some t
  | _ => none

/-- Between taking a task from a queue and running it. -/
def switches : Pc → Bool
  | .popped _ | .readyDec _ | .runningInc _ | .enter _ => true
  | _ => false

/-- By how much a gauge is above what it counts, for the thread. -/
def weight : Pc → Gauge → Int
  | .push _ _, .ready | .popped _, .ready | .readyDec _, .ready => 1
  | .enter _, .running | .yieldDec _, .running | .parkDec _, .running | .doneLock _, .running
  | .doneDec _, .running => 1
  | .parkedInc _, .parked | .unparkReady _ _, .parked => -1
  | .spawned _ _, .taskControls | .controls _ _, .taskControls => -1
  | .controlsDec _, .taskControls => 1
  | .spawned _ _, .spawned | .doneLive _, .spawned => -1
  | _, _ => 0

section
-- their equations are made here, once
attribute [local simp] carries holds expects starts switches weight
end

/-- Point `p'` is in the same hands, sections and locks as `p`, or leaves them. -/
structure Follows (p p' : Pc) : Prop where
  carries : p'.carries = none ∨ p'.carries = p.carries
  switches : p'.switches = false ∨ p'.switches = p.switches
  expects : p'.expects = none ∨ p'.expects = p.expects
  holds : p'.holds = none ∨ p'.holds = p.holds
  starts : p'.starts = none ∨ p'.starts = p.starts

/-- What the update of a gauge by `d` adds to another one, where `spawned` is without `finished`. -/
def effect (g : Gauge) (d : Int) (g' : Gauge) : Int :=
  match g with
  | .finished => if g' = .spawned then -d else 0
  | g => if g' = g then d else 0

variable {p : Pc} {t : Nat} {x : TaskState}

/-- The state of a task that is carried is known, and its lock is held if it is parked. -/
theorem expects_of_carries (h : p.carries = some t) :
    ∃ x, p.expects = some (t, x) ∧ x ≠ .none ∧ x ≠ .finished ∧ (x = .parked → p.holds = some t) := by
  cases p <;> simp_all [carries, expects, holds]

theorem of_expects (h : p.expects = some (t, x)) :
    x ≠ .none ∧ (p.carries = some t ∨ x = .finished ∨ x = .parked ∧ p.holds = some t) := by
  cases p <;> simp only [expects, reduceCtorEq, Option.some.injEq, Prod.mk.injEq] at h <;> obtain ⟨rfl, rfl⟩ := h <;>
    simp [carries, holds]

theorem carries_of_starts (h : p.starts = some t) : p.carries = some t ∧ p.expects = some (t, .new) := by
  cases p <;> simp_all [carries, expects, starts]

end Pc

/-! ## The invariant -/

/-- A task is carried by one thread, current on one VP, or in a queue once. -/
structure Excl (carrier current : Nat → Option Nat) (queued : List Nat) : Prop where
  oneCarrier : ∀ c c' t, carrier c = some t → carrier c' = some t → c = c'
  oneCurrent : ∀ c c' t, current c = some t → current c' = some t → c = c'
  nodup : queued.Nodup
  carried : ∀ c t, carrier c = some t → (∀ c', current c' ≠ some t) ∧ t ∉ queued
  runs : ∀ c t, current c = some t → t ∉ queued

/-- What a gauge counts; `spawned` is what `live` and `finished` add up to. -/
def truth (s : State) : Gauge → Int
  | .ready => s.entries.length
  | .running => total (fun c => if (s.current c).isSome then 1 else 0) s.threads
  | .parked => s.accepted.countP fun t => s.state t = .parked
  | .taskControls => s.allTasks.length
  | .spawned => s.live + s.stats .finished
  | .finished => s.stats .finished

/-- The gauges differ from what they count by the weights of the threads. -/
def Balance (s : State) : Prop :=
  ∀ g, s.stats g = truth s g + total (fun c => (s.pc c).weight g) s.threads

/-- What holds of the tasks and where the threads stand. -/
structure Placed (s : State) : Prop where
  vps : s.vps ≤ s.threads
  bound : ∀ c, s.threads ≤ c → s.pc c = .idle ∧ s.current c = none
  excl : Excl (fun c => (s.pc c).carries) s.current (s.entries.map Prod.snd)
  expects : ∀ c t x, (s.pc c).expects = some (t, x) → s.state t = x
  queued : ∀ e ∈ s.entries, s.state e.2 = .ready
  current : ∀ c t, s.current c = some t → s.state t = .running
  empty : ∀ c, (s.pc c).switches = true → s.current c = none
  lock : ∀ c t, (s.pc c).holds = some t → s.lock t = some c
  waiting : ∀ c t ws, s.waiters c = some (t, ws) → s.state t = .finished
  linked : ∀ c t, (s.pc c).starts = some t → t ∈ s.allTasks
  accepted : ∀ t, t ∈ s.accepted ↔ s.state t ≠ .none
  nodup : s.accepted.Nodup

variable {s s' : State} {c t : Nat} {p : Pc}

theorem Placed.lt_threads (h : Placed s) (hp : s.pc c ≠ .idle) : c < s.threads :=
  Nat.lt_of_not_le fun hle => hp (h.bound c hle).1

theorem Placed.current_lt (h : Placed s) {u : Nat} (hu : s.current c = some u) : c < s.threads := by
  by_contra hlt
  rw [(h.bound c (Nat.le_of_not_lt hlt)).2] at hu
  cases hu

theorem Excl.shrink {carrier carrier' current current' : Nat → Option Nat} {queued queued' : List Nat}
    (h : Excl carrier current queued) (hcar : ∀ c t, carrier' c = some t → carrier c = some t)
    (hcur : ∀ c t, current' c = some t → current c = some t) (hq : queued'.Sublist queued) :
    Excl carrier' current' queued' where
  oneCarrier c c' t hc hc' := h.oneCarrier c c' t (hcar c t hc) (hcar c' t hc')
  oneCurrent c c' t hc hc' := h.oneCurrent c c' t (hcur c t hc) (hcur c' t hc')
  nodup := h.nodup.sublist hq
  carried c t hc :=
    ⟨fun c' hc' => (h.carried c t (hcar c t hc)).1 c' (hcur c' t hc'), fun hm => (h.carried c t (hcar c t hc)).2
      (hq.subset hm)⟩
  runs c t hc hm := h.runs c t (hcur c t hc) (hq.subset hm)

/-- The only thread that is at a point where the state of a task is known is the one that carries it. -/
theorem Placed.alone (h : Placed s) (hc : (s.pc c).carries = some t) {d : Nat} {x : TaskState}
    (hd : (s.pc d).expects = some (t, x)) : d = c := by
  obtain ⟨y, hy, -, hfin, hpark⟩ := Pc.expects_of_carries hc
  have hxy : x = y := (h.expects d t x hd).symm.trans (h.expects c t y hy)
  subst hxy
  obtain ⟨-, hcar | rfl | ⟨rfl, hh⟩⟩ := Pc.of_expects hd
  · exact h.excl.oneCarrier d c t hcar hc
  · exact absurd rfl hfin
  · have h₁ := h.lock d t hh
    rw [h.lock c t (hpark rfl), Option.some.injEq] at h₁
    exact h₁.symm

/-- What a step of thread `c` may do: change the state of a task it carries or accepts, and take or release a lock. -/
structure Moves (s s' : State) (c : Nat) (p : Pc) : Prop where
  threads : s'.threads = s.threads
  vps : s'.vps = s.vps
  pc : s'.pc = Function.update s.pc c p
  bound : c < s.threads
  state : ∀ u, s'.state u ≠ s.state u → ((s.pc c).carries = some u ∨ u ∉ s.accepted ∧ u ∈ s'.accepted) ∧
    s'.state u ≠ .none
  expects : ∀ u x, p.expects = some (u, x) → s'.state u = x
  lock : ∀ u, s'.lock u ≠ s.lock u → s.lock u = none ∨ s.lock u = some c
  holds : ∀ u, p.holds = some u → s'.lock u = some c
  waiting : ∀ d u ws, s'.waiters d = some (u, ws) → s.state u = .finished
  unlinks : ∀ u ∈ s.allTasks, u ∈ s'.allTasks ∨ s.state u = .finished
  starts : ∀ u, p.starts = some u → u ∈ s'.allTasks

/-- A state that is known to another thread does not change. -/
theorem Moves.state_eq (hm : Moves s s' c p) (h : Placed s) {u : Nat} (hne : s.state u ≠ .none)
    (hc : (s.pc c).carries ≠ some u) : s'.state u = s.state u := by
  by_contra hs
  exact (hm.state u hs).1.elim hc fun ha => ha.1 ((h.accepted u).mpr hne)

theorem Moves.placed (hm : Moves s s' c p) (h : Placed s)
    (hexcl : Excl (Function.update (fun c => (s.pc c).carries) c p.carries) s'.current (s'.entries.map Prod.snd))
    (hrest : ∀ d ≠ c, s'.current d = s.current d)
    (hcur : ∀ u, s'.current c = some u → s.current c = some u ∨ s'.state u = .running)
    (hempty : p.switches = true → s'.current c = none)
    (hq : ∀ e ∈ s'.entries, e ∈ s.entries ∨ s'.state e.2 = .ready)
    (hacc : ∀ u, u ∈ s'.accepted ↔ s'.state u ≠ .none) (hnodup : s'.accepted.Nodup) : Placed s' where
  vps := by rw [hm.threads, hm.vps]; exact h.vps
  bound d hd := by
    rw [hm.threads] at hd
    have hdc : d ≠ c := fun heq => absurd (heq ▸ hd) (Nat.not_le.mpr hm.bound)
    rw [hm.pc, Function.update_of_ne hdc, hrest d hdc]
    exact h.bound d hd
  excl := by
    have heq : (fun c => (s'.pc c).carries) = Function.update (fun c => (s.pc c).carries) c p.carries := by
      funext d
      by_cases hd : d = c
      · subst hd
        simp [hm.pc]
      · simp [hm.pc, hd]
    rw [heq]
    exact hexcl
  expects d u x hd := by
    rw [hm.pc] at hd
    by_cases hdc : d = c
    · subst hdc
      rw [Function.update_self] at hd
      exact hm.expects u x hd
    · rw [Function.update_of_ne hdc] at hd
      have hx := h.expects d u x hd
      rw [← hx]
      exact hm.state_eq h (hx ▸ (Pc.of_expects hd).1) fun hcu => hdc (h.alone hcu hd)
  queued e he := by
    refine (hq e he).elim (fun hold => ?_) id
    have hr := h.queued e hold
    rw [← hr]
    refine hm.state_eq h (by rw [hr]; decide) fun hcu => ?_
    exact (h.excl.carried c e.2 hcu).2 (List.mem_map_of_mem hold)
  current d u hd := by
    have hold : s.current d = some u ∨ s'.state u = .running := by
      by_cases hdc : d = c
      · subst hdc
        exact hcur u hd
      · exact .inl (hrest d hdc ▸ hd)
    refine hold.elim (fun hold => ?_) id
    have hr := h.current d u hold
    rw [← hr]
    exact hm.state_eq h (by rw [hr]; decide) fun hcu => (h.excl.carried c u hcu).1 d hold
  empty d hd := by
    rw [hm.pc] at hd
    by_cases hdc : d = c
    · subst hdc
      rw [Function.update_self] at hd
      exact hempty hd
    · rw [Function.update_of_ne hdc] at hd
      rw [hrest d hdc]
      exact h.empty d hd
  lock d u hd := by
    rw [hm.pc] at hd
    by_cases hdc : d = c
    · subst hdc
      rw [Function.update_self] at hd
      exact hm.holds u hd
    · rw [Function.update_of_ne hdc] at hd
      have hl := h.lock d u hd
      by_contra hne
      rw [← hl] at hne
      obtain hn | hn := hm.lock u hne
      · rw [hl] at hn
        cases hn
      · rw [hl, Option.some.injEq] at hn
        exact hdc hn
  waiting d u ws hd := by
    have hf := hm.waiting d u ws hd
    rw [← hf]
    refine hm.state_eq h (by rw [hf]; decide) fun hcu => ?_
    obtain ⟨x, hx, -, hfin, -⟩ := Pc.expects_of_carries hcu
    exact hfin ((h.expects c u x hx).symm.trans hf)
  linked d u hd := by
    rw [hm.pc] at hd
    by_cases hdc : d = c
    · subst hdc
      rw [Function.update_self] at hd
      exact hm.starts u hd
    · rw [Function.update_of_ne hdc] at hd
      refine (hm.unlinks u (h.linked d u hd)).resolve_right fun hf => ?_
      rw [h.expects d u .new (Pc.carries_of_starts hd).2] at hf
      cases hf
  accepted := hacc
  nodup := hnodup

/-- A step that takes no task and gives none away. -/
theorem Moves.placed_still (hm : Moves s s' c p) (h : Placed s)
    (hcar : ∀ u, p.carries = some u → (s.pc c).carries = some u)
    (hsw : p.switches = true → (s.pc c).switches = true) (hcur : s'.current = s.current)
    (hq : s'.entries = s.entries) (hacc : s'.accepted = s.accepted) : Placed s' := by
  refine hm.placed h ?_ (fun d _ => by rw [hcur]) (fun u hu => .inl (hcur ▸ hu))
    (fun hp => hcur ▸ h.empty c (hsw hp)) (fun e he => .inl (hq ▸ he)) (fun u => ?_) (hacc ▸ h.nodup)
  · rw [hcur, hq]
    refine h.excl.shrink (fun d u hd => ?_) (fun _ _ hd => hd) (List.Sublist.refl _)
    by_cases hdc : d = c
    · subst hdc
      rw [Function.update_self] at hd
      exact hcar u hd
    · rwa [Function.update_of_ne hdc] at hd
  · rw [hacc, h.accepted u]
    by_cases hs : s'.state u = s.state u
    · rw [hs]
    · obtain ⟨hcu | ha, hne⟩ := hm.state u hs
      · obtain ⟨x, hx, hxn, -⟩ := Pc.expects_of_carries hcu
        rw [h.expects c u x hx]
        exact ⟨fun _ => hne, fun _ => hxn⟩
      · exact absurd (hacc ▸ ha.2) ha.1

/-! ## The balance -/

theorem Balance.step (h : Balance s) (hn : s'.threads = s.threads) (hpc : s'.pc = Function.update s.pc c p)
    (hc : c < s.threads)
    (hd : ∀ g, s'.stats g + truth s g + (s.pc c).weight g = s.stats g + truth s' g + p.weight g) : Balance s' := by
  intro g
  have htotal : total (fun d => (s'.pc d).weight g) s'.threads =
      total (fun d => (s.pc d).weight g) s.threads + p.weight g - (s.pc c).weight g := by
    rw [hn, total_of_ne hc (f := fun d => (s.pc d).weight g) fun d hd => by simp only [hpc, Function.update_of_ne hd]]
    simp only [hpc, Function.update_self]
  have h₁ := h g
  have h₂ := hd g
  omega

/-- The tasks that are parked after the state of one changes. -/
theorem parked_setState {l : List Nat} {f k : Nat → TaskState} (hn : l.Nodup) (ht : t ∈ l)
    (hf : ∀ u ≠ t, k u = f u) :
    ((l.countP fun u => k u = .parked : Nat) : Int) + (if f t = .parked then 1 else 0) =
      (l.countP fun u => f u = .parked : Nat) + (if k t = .parked then 1 else 0) := by
  induction l with
  | nil => cases ht
  | cons u l ih =>
    obtain ⟨hu, hn⟩ := List.nodup_cons.mp hn
    simp only [List.countP_cons, decide_eq_true_eq]
    obtain rfl | ht := List.mem_cons.mp ht
    · have heq : (l.countP fun u => decide (k u = .parked)) = l.countP fun u => decide (f u = .parked) :=
        List.countP_congr fun v hv => by rw [hf v fun heq => hu (heq ▸ hv)]
      rw [heq]
      split <;> split <;> omega
    · have := ih hn ht
      rw [hf u fun heq => hu (heq ▸ ht)]
      split <;> omega

structure Inv (s : State) : Prop where
  placed : Placed s
  balance : Balance s

/-! ## Steps that only update the gauges -/

/-- The gauges and the program point of `c` change, and what no gauge depends on. -/
structure Counts (s s' : State) (c : Nat) (p : Pc) : Prop where
  threads : s'.threads = s.threads
  vps : s'.vps = s.vps
  pc : s'.pc = Function.update s.pc c p
  state : s'.state = s.state
  lock : s'.lock = s.lock
  waiters : s'.waiters = s.waiters
  allTasks : s'.allTasks = s.allTasks
  current : s'.current = s.current
  entries : s'.entries = s.entries
  accepted : s'.accepted = s.accepted
  live : s'.live = s.live

theorem Counts.inv {p₀ : Pc} (hs : Counts s s' c p) (h : Inv s) (hpc : s.pc c = p₀) (hp : p₀ ≠ .idle)
    (hf : p₀.Follows p) (hg : ∀ g, s'.stats g + truth s g + p₀.weight g = s.stats g + truth s' g + p.weight g) :
    Inv s' := by
  subst hpc
  have hc := h.placed.lt_threads hp
  have hm : Moves s s' c p := by
    refine ⟨hs.threads, hs.vps, hs.pc, hc, fun u hu => absurd (congrFun hs.state u) hu, fun u x hx => ?_,
      fun u hu => absurd (congrFun hs.lock u) hu, fun u hu => ?_, fun d u ws hd => ?_,
      fun u hu => .inl (hs.allTasks ▸ hu), fun u hu => ?_⟩
    · obtain hn | he := hf.expects
      · rw [hn] at hx
        cases hx
      · rw [hs.state]
        exact h.placed.expects c u x (he ▸ hx)
    · obtain hn | he := hf.holds
      · rw [hn] at hu
        cases hu
      · rw [hs.lock]
        exact h.placed.lock c u (he ▸ hu)
    · rw [hs.waiters] at hd
      exact h.placed.waiting d u ws hd
    · obtain hn | he := hf.starts
      · rw [hn] at hu
        cases hu
      · rw [hs.allTasks]
        exact h.placed.linked c u (he ▸ hu)
  refine ⟨hm.placed_still h.placed (fun u hu => ?_) (fun hsw => ?_) hs.current hs.entries hs.accepted,
    h.balance.step hs.threads hs.pc hc hg⟩
  · obtain hn | he := hf.carries
    · rw [hn] at hu
      cases hu
    · exact he ▸ hu
  · obtain hn | he := hf.switches
    · rw [hn] at hsw
      cases hsw
    · exact he ▸ hsw

/-- `STAT_INC` or `STAT_DEC` -/
theorem inv_stat {p₀ : Pc} {g : Gauge} {d : Int} (h : Inv s) (hpc : s.pc c = p₀) (hp : p₀ ≠ .idle) (hf : p₀.Follows p)
    (hw : ∀ g', p.weight g' = p₀.weight g' + Pc.effect g d g') : Inv (goto (stat s g d) c p) := by
  have hs : Counts s (goto (stat s g d) c p) c p := ⟨rfl, rfl, rfl, rfl, rfl, rfl, rfl, rfl, rfl, rfl, rfl⟩
  refine hs.inv h hpc hp hf fun g' => ?_
  have hstats : (goto (stat s g d) c p).stats g' = s.stats g' + if g' = g then d else 0 := by
    by_cases hg : g' = g
    · subst hg
      simp [goto, stat]
    · simp [goto, stat, hg]
  have htruth : truth (goto (stat s g d) c p) g' =
      truth s g' + if g = .finished ∧ (g' = .spawned ∨ g' = .finished) then d else 0 := by
    cases g' with
    | spawned =>
      cases g <;> simp [truth, goto, stat]
      omega
    | finished => cases g <;> simp [truth, goto, stat]
    | _ =>
      rw [if_neg (by simp)]
      exact (Int.add_zero _).symm
  rw [hw, hstats, htruth]
  cases g <;> cases g' <;> simp [Pc.effect] <;> omega

/-- A step that updates no gauge. -/
theorem inv_goto {p₀ : Pc} (hs : Counts s s' c p) (hstats : s'.stats = s.stats) (h : Inv s) (hpc : s.pc c = p₀)
    (hp : p₀ ≠ .idle) (hf : p₀.Follows p) (hw : ∀ g, p.weight g = p₀.weight g) : Inv s' := by
  refine hs.inv h hpc hp hf fun g => ?_
  rw [hw, hstats]
  cases g <;> simp only [truth, hs.entries, hs.current, hs.threads, hs.accepted, hs.state, hs.allTasks, hs.live, hstats]

/-! ## Steps that change the state of a task -/

/-- Thread `c` changes the state of the task it carries from `x` to `y`, with its lock, which `l` holds next. -/
structure Changes (s s' : State) (c : Nat) (p : Pc) (t : Nat) (y : TaskState) (l : Option Nat) : Prop where
  threads : s'.threads = s.threads
  vps : s'.vps = s.vps
  pc : s'.pc = Function.update s.pc c p
  state : s'.state = Function.update s.state t y
  lock : s'.lock = Function.update s.lock t l
  waiters : s'.waiters = s.waiters
  allTasks : s'.allTasks = s.allTasks
  current : s'.current = s.current
  entries : s'.entries = s.entries
  accepted : s'.accepted = s.accepted
  live : s'.live = s.live
  stats : s'.stats = s.stats

theorem Changes.inv {x y : TaskState} {l : Option Nat} (hs : Changes s s' c p t y l) (h : Inv s)
    (hc : (s.pc c).carries = some t) (hx : (s.pc c).expects = some (t, x)) (hy : y ≠ .none)
    (hl : s.lock t = none ∨ s.lock t = some c) (hcar : ∀ u, p.carries = some u → u = t)
    (hsw : p.switches = true → (s.pc c).switches = true)
    (hexp : ∀ u z, p.expects = some (u, z) → u = t ∧ z = y) (hh : ∀ u, p.holds = some u → u = t ∧ l = some c)
    (hst : p.starts = none) (hg : ∀ g, g ≠ .parked → p.weight g = (s.pc c).weight g)
    (hp : p.weight .parked + (if y = .parked then 1 else 0) =
      (s.pc c).weight .parked + if x = .parked then 1 else 0) : Inv s' := by
  have hidle : s.pc c ≠ .idle := fun hi => by
    rw [hi] at hc
    cases hc
  have hst' := h.placed.expects c t x hx
  have hxn : x ≠ .none := by
    obtain ⟨z, hz, hzn, -⟩ := Pc.expects_of_carries hc
    rw [hx] at hz
    cases hz
    exact hzn
  have hct := h.placed.lt_threads hidle
  have hm : Moves s s' c p := by
    refine ⟨hs.threads, hs.vps, hs.pc, hct, fun u hu => ?_, fun u z hz => ?_, fun u hu => ?_, fun u hu => ?_,
      fun d u ws hd => ?_, fun u hu => .inl (hs.allTasks ▸ hu), fun u hu => ?_⟩
    · rw [hs.state] at hu ⊢
      have hut : u = t := by
        by_contra hne
        exact hu (Function.update_of_ne hne ..)
      subst hut
      exact ⟨.inl hc, by rwa [Function.update_self]⟩
    · obtain ⟨rfl, rfl⟩ := hexp u z hz
      rw [hs.state, Function.update_self]
    · rw [hs.lock] at hu
      have hut : u = t := by
        by_contra hne
        exact hu (Function.update_of_ne hne ..)
      exact hut ▸ hl
    · obtain ⟨rfl, rfl⟩ := hh u hu
      rw [hs.lock, Function.update_self]
    · rw [hs.waiters] at hd
      exact h.placed.waiting d u ws hd
    · rw [hst] at hu
      cases hu
  refine ⟨hm.placed_still h.placed (fun u hu => hcar u hu ▸ hc) hsw hs.current hs.entries hs.accepted,
    h.balance.step hs.threads hs.pc hct fun g => ?_⟩
  rw [hs.stats]
  cases g with
  | parked =>
    have hmem : t ∈ s.accepted := (h.placed.accepted t).mpr (by rw [hst']; exact hxn)
    have hcount := parked_setState (f := s.state) (k := s'.state) h.placed.nodup hmem fun u hu => by
      rw [hs.state, Function.update_of_ne hu]
    simp only [truth, hs.accepted]
    rw [hs.state, Function.update_self, hst', ← hs.state] at hcount
    omega
  | spawned => simp only [truth, hs.live, hs.stats, hg .spawned (by decide)]
  | finished => simp only [truth, hs.stats, hg .finished (by decide)]
  | ready => simp only [truth, hs.entries, hg .ready (by decide)]
  | running => simp only [truth, hs.current, hs.threads, hg .running (by decide)]
  | taskControls => simp only [truth, hs.allTasks, hg .taskControls (by decide)]

/-! ## Calls that return -/

theorem ret_cases (s : State) (c : Nat) : ∃ p ws, ret s c = { s with pc := Function.update s.pc c p, waiters := ws } ∧
    (p = .idle ∨ (∃ w, p = .unpark w) ∨ ∃ t, p = .exec t ∧ s.waiters c = some (t, [])) ∧
    ∀ d u l, ws d = some (u, l) → ∃ l', s.waiters d = some (u, l') := by
  unfold ret
  split
  · exact ⟨.idle, s.waiters, rfl, .inl rfl, fun d u l hd => ⟨l, hd⟩⟩
  · next t hw =>
    refine ⟨.exec t, _, rfl, .inr (.inr ⟨t, rfl, hw⟩), fun d u l hd => ?_⟩
    by_cases hdc : d = c
    · subst hdc
      simp at hd
    · exact ⟨l, by simpa [hdc] using hd⟩
  · next t w ws hw =>
    refine ⟨.unpark w, _, rfl, .inr (.inl ⟨w, rfl⟩), fun d u l hd => ?_⟩
    by_cases hdc : d = c
    · subst hdc
      rw [Function.update_self, Option.some.injEq, Prod.mk.injEq] at hd
      exact ⟨w :: ws, by rw [hw, hd.1]⟩
    · exact ⟨l, by simpa [hdc] using hd⟩

/-- Before thread `c` returns, it may release the lock it holds, and change what no gauge depends on. -/
structure Frees (s s' : State) (c : Nat) : Prop where
  threads : s'.threads = s.threads
  vps : s'.vps = s.vps
  pc : s'.pc = s.pc
  state : s'.state = s.state
  lock : ∀ u, s'.lock u ≠ s.lock u → s.lock u = some c
  waiting : ∀ d u ws, s'.waiters d = some (u, ws) → s.state u = .finished
  allTasks : s'.allTasks = s.allTasks
  current : s'.current = s.current
  entries : s'.entries = s.entries
  accepted : s'.accepted = s.accepted
  live : s'.live = s.live
  stats : s'.stats = s.stats

theorem Frees.inv (hs : Frees s s' c) (h : Inv s) (hp : s.pc c ≠ .idle) (hw : ∀ g, (s.pc c).weight g = 0) :
    Inv (ret s' c) := by
  obtain ⟨p, ws, heq, hcases, hws⟩ := ret_cases s' c
  have hc := h.placed.lt_threads hp
  have hpoint : p.carries = none ∧ p.switches = false ∧ p.holds = none ∧ p.starts = none ∧ (∀ g, p.weight g = 0) ∧
      ∀ u x, p.expects = some (u, x) → s.state u = x := by
    obtain rfl | ⟨w, rfl⟩ | ⟨t, rfl, ht⟩ := hcases
    · exact ⟨rfl, rfl, rfl, rfl, fun _ => rfl, fun u x hx => by cases hx⟩
    · exact ⟨rfl, rfl, rfl, rfl, fun _ => rfl, fun u x hx => by cases hx⟩
    · refine ⟨rfl, rfl, rfl, rfl, fun _ => rfl, fun u x hx => ?_⟩
      cases hx
      exact hs.waiting c t [] ht
  obtain ⟨hcar, hsw, hh, hst, hweight, hexp⟩ := hpoint
  rw [heq]
  have hm : Moves s { s' with pc := Function.update s'.pc c p, waiters := ws } c p := by
    refine ⟨hs.threads, hs.vps, by rw [hs.pc], hc, fun u hu => absurd (congrFun hs.state u) hu, fun u x hx => ?_,
      fun u hu => .inr (hs.lock u hu), fun u hu => ?_, fun d u l hd => ?_, fun u hu => .inl (hs.allTasks ▸ hu),
      fun u hu => ?_⟩
    · exact (congrFun hs.state u).trans (hexp u x hx)
    · rw [hh] at hu
      cases hu
    · obtain ⟨l', hl⟩ := hws d u l hd
      exact hs.waiting d u l' hl
    · rw [hst] at hu
      cases hu
  refine ⟨hm.placed_still h.placed (fun u hu => ?_) (fun hp => ?_) hs.current hs.entries hs.accepted,
    h.balance.step hs.threads (by rw [hs.pc]) hc fun g => ?_⟩
  · rw [hcar] at hu
    cases hu
  · rw [hsw] at hp
    cases hp
  · rw [hw, hweight]
    cases g <;> simp only [truth, hs.stats, hs.live, hs.entries, hs.current, hs.threads, hs.accepted, hs.state,
      hs.allTasks]

/-! ## Steps that move a task -/

theorem Excl.add_carrier {carrier current : Nat → Option Nat} {queued : List Nat} (h : Excl carrier current queued)
    (hc : ∀ d ≠ c, carrier d ≠ some t) (hcur : ∀ d, current d ≠ some t) (hq : t ∉ queued) :
    Excl (Function.update carrier c (some t)) current queued := by
  have hcases : ∀ d u, Function.update carrier c (some t) d = some u → d = c ∧ u = t ∨ d ≠ c ∧ carrier d = some u := by
    intro d u hd
    by_cases hdc : d = c
    · subst hdc
      rw [Function.update_self, Option.some.injEq] at hd
      exact .inl ⟨rfl, hd.symm⟩
    · rw [Function.update_of_ne hdc] at hd
      exact .inr ⟨hdc, hd⟩
  refine ⟨fun d d' u hd hd' => ?_, h.oneCurrent, h.nodup, fun d u hd => ?_, h.runs⟩
  · obtain ⟨rfl, rfl⟩ | ⟨hdc, hold⟩ := hcases d u hd
    · obtain ⟨rfl, -⟩ | ⟨hdc', hold'⟩ := hcases d' u hd'
      · rfl
      · exact absurd hold' (hc d' hdc')
    · obtain ⟨rfl, rfl⟩ | ⟨-, hold'⟩ := hcases d' u hd'
      · exact absurd hold (hc d hdc)
      · exact h.oneCarrier d d' u hold hold'
  · obtain ⟨rfl, rfl⟩ | ⟨-, hd⟩ := hcases d u hd
    · exact ⟨hcur, hq⟩
    · exact h.carried d u hd

theorem Excl.add_current {carrier current : Nat → Option Nat} {queued : List Nat} (h : Excl carrier current queued)
    (hc : ∀ d, carrier d ≠ some t) (hcur : ∀ d ≠ c, current d ≠ some t) (hq : t ∉ queued) :
    Excl carrier (Function.update current c (some t)) queued := by
  have hcases : ∀ d u, Function.update current c (some t) d = some u → d = c ∧ u = t ∨ d ≠ c ∧ current d = some u := by
    intro d u hd
    by_cases hdc : d = c
    · subst hdc
      rw [Function.update_self, Option.some.injEq] at hd
      exact .inl ⟨rfl, hd.symm⟩
    · rw [Function.update_of_ne hdc] at hd
      exact .inr ⟨hdc, hd⟩
  refine ⟨h.oneCarrier, fun d d' u hd hd' => ?_, h.nodup, fun d u hd => ⟨fun d' hd' => ?_, (h.carried d u hd).2⟩,
    fun d u hd => ?_⟩
  · obtain ⟨rfl, rfl⟩ | ⟨hdc, hold⟩ := hcases d u hd
    · obtain ⟨rfl, -⟩ | ⟨hdc', hold'⟩ := hcases d' u hd'
      · rfl
      · exact absurd hold' (hcur d' hdc')
    · obtain ⟨rfl, rfl⟩ | ⟨-, hold'⟩ := hcases d' u hd'
      · exact absurd hold (hcur d hdc)
      · exact h.oneCurrent d d' u hold hold'
  · obtain ⟨rfl, rfl⟩ | ⟨-, hd'⟩ := hcases d' u hd'
    · exact hc d hd
    · exact (h.carried d u hd).1 d' hd'
  · obtain ⟨rfl, rfl⟩ | ⟨-, hd⟩ := hcases d u hd
    · exact hq
    · exact h.runs d u hd

theorem Excl.add_queued {carrier current : Nat → Option Nat} {queued : List Nat} (h : Excl carrier current queued)
    (hc : ∀ d, carrier d ≠ some t) (hcur : ∀ d, current d ≠ some t) (hq : t ∉ queued) :
    Excl carrier current (queued ++ [t]) := by
  have hmem : ∀ u, u ∈ queued ++ [t] → u ∈ queued ∨ u = t := fun u hu => by simpa using hu
  refine ⟨h.oneCarrier, h.oneCurrent, ?_, fun d u hd => ⟨(h.carried d u hd).1, fun hm => ?_⟩, fun d u hd hm => ?_⟩
  · exact List.nodup_append.mpr ⟨h.nodup, List.nodup_singleton t, by
      rintro a ha b hb rfl
      exact hq (List.mem_singleton.mp hb ▸ ha)⟩
  · obtain hm | rfl := hmem u hm
    · exact (h.carried d u hd).2 hm
    · exact hc d hd
  · obtain hm | rfl := hmem u hm
    · exact h.runs d u hd hm
    · exact hcur d hd

theorem Excl.drop {carrier current : Nat → Option Nat} {queued : List Nat} (h : Excl carrier current queued) (c : Nat) :
    Excl (Function.update carrier c none) current queued := by
  refine h.shrink (fun d u hd => ?_) (fun _ _ hd => hd) (List.Sublist.refl _)
  by_cases hdc : d = c
  · subst hdc
    simp at hd
  · rwa [Function.update_of_ne hdc] at hd

/-- What thread `c` carried is carried by no thread once it is given away. -/
theorem Excl.dropped {carrier current : Nat → Option Nat} {queued : List Nat} (h : Excl carrier current queued)
    (hc : carrier c = some t) (d : Nat) : Function.update carrier c none d ≠ some t := by
  intro hd
  by_cases hdc : d = c
  · subst hdc
    simp at hd
  · rw [Function.update_of_ne hdc] at hd
    exact hdc (h.oneCarrier d c t hd hc)

/-- No thread carries the task, no VP runs it and no queue holds it. -/
structure Free (s : State) (t : Nat) : Prop where
  carried : ∀ d, (s.pc d).carries ≠ some t
  current : ∀ d, s.current d ≠ some t
  queued : t ∉ s.entries.map Prod.snd

/-- A task is free when it does not exist, has finished, or is parked and not locked. -/
theorem Placed.free (h : Placed s) (hs : s.state t = .none ∨ s.state t = .finished ∨
    s.state t = .parked ∧ s.lock t = none) : Free s t := by
  refine ⟨fun d hd => ?_, fun d hd => ?_, fun hm => ?_⟩
  · obtain ⟨x, hx, hxn, hxf, hxp⟩ := Pc.expects_of_carries hd
    have hst := h.expects d t x hx
    obtain hn | hf | ⟨hp, hl⟩ := hs
    · exact hxn (hst.symm.trans hn)
    · exact hxf (hst.symm.trans hf)
    · have hlock := h.lock d t (hxp (hst.symm.trans hp))
      rw [hl] at hlock
      cases hlock
  · have hst := h.current d t hd
    rw [hst] at hs
    simp at hs
  · obtain ⟨e, he, rfl⟩ := List.mem_map.mp hm
    have hst := h.queued e he
    rw [hst] at hs
    simp at hs

theorem inv_push {q : Queue} (h : Inv s) (hpc : s.pc c = .push t q) :
    Inv (goto { s with entries := s.entries ++ [(q, t)] } c (.unlock t)) := by
  have hcar : (s.pc c).carries = some t := by rw [hpc]; rfl
  have hidle : s.pc c ≠ .idle := by rw [hpc]; simp
  have hct := h.placed.lt_threads hidle
  have hready : s.state t = .ready := h.placed.expects c t .ready (by rw [hpc]; rfl)
  have hm : Moves s (goto { s with entries := s.entries ++ [(q, t)] } c (.unlock t)) c (.unlock t) := by
    refine ⟨rfl, rfl, rfl, hct, fun u hu => absurd rfl hu, nofun, fun u hu => absurd rfl hu, fun u hu => ?_,
      h.placed.waiting, fun u hu => .inl hu, nofun⟩
    cases hu
    exact h.placed.lock c t (by rw [hpc]; rfl)
  have hexcl : Excl (Function.update (fun c => (s.pc c).carries) c none) s.current
      ((s.entries ++ [(q, t)]).map Prod.snd) := by
    rw [List.map_append]
    exact (h.placed.excl.drop c).add_queued (h.placed.excl.dropped hcar) (h.placed.excl.carried c t hcar).1
      (h.placed.excl.carried c t hcar).2
  refine ⟨hm.placed h.placed hexcl (fun _ _ => rfl) (fun _ hu => .inl hu) nofun (fun e he => ?_) h.placed.accepted
    h.placed.nodup, h.balance.step rfl rfl hct fun g => ?_⟩
  · obtain he | he := List.mem_append.mp he
    · exact .inl he
    · obtain rfl := List.mem_singleton.mp he
      exact .inr hready
  · rw [hpc]
    cases g with
    | ready => simp only [truth, goto, Pc.weight, List.length_append, List.length_singleton]; omega
    | _ => rfl

theorem inv_enter (h : Inv s) (hpc : s.pc c = .enter t) :
    Inv { goto s c .idle with current := Function.update s.current c (some t) } := by
  have hcar : (s.pc c).carries = some t := by rw [hpc]; rfl
  have hct := h.placed.lt_threads (c := c) (by rw [hpc]; simp)
  have hnone : s.current c = none := h.placed.empty c (by rw [hpc]; rfl)
  have hrunning : s.state t = .running := h.placed.expects c t .running (by rw [hpc]; rfl)
  have hm : Moves s { goto s c .idle with current := Function.update s.current c (some t) } c .idle :=
    ⟨rfl, rfl, rfl, hct, fun u hu => absurd rfl hu, nofun, fun u hu => absurd rfl hu, nofun, h.placed.waiting,
      fun u hu => .inl hu, nofun⟩
  have hexcl := h.placed.excl.carried c t hcar
  refine ⟨hm.placed h.placed ((h.placed.excl.drop c).add_current (h.placed.excl.dropped hcar) (fun d _ => hexcl.1 d)
    hexcl.2) (fun d hd => Function.update_of_ne hd ..) (fun u hu => ?_) nofun (fun e he => .inl he) h.placed.accepted
    h.placed.nodup, h.balance.step rfl rfl hct fun g => ?_⟩
  · change Function.update s.current c (some t) c = some u at hu
    rw [Function.update_self] at hu
    cases hu
    exact .inr hrunning
  · have htotal := total_of_ne (c := c) hct (f := fun d => if (s.current d).isSome then 1 else 0)
      (k := fun d => if (Function.update s.current c (some t) d).isSome then 1 else 0)
      fun d hd => by simp only [Function.update_of_ne hd]
    simp only [Function.update_self, hnone, Option.isSome_some, Option.isSome_none, if_true,
      Bool.false_eq_true, if_false] at htotal
    rw [hpc]
    cases g with
    | running =>
      simp only [truth, goto, Pc.weight]
      omega
    | _ => rfl

theorem inv_leave {tr : Transition} (h : Inv s) (hpc : s.pc c = .idle) (hcur : s.current c = some t) :
    Inv { goto s c (match tr with
      | .yield => .yieldDec t
      | .park => .parkDec t
      | .finish => .doneLock t) with current := Function.update s.current c none } := by
  obtain ⟨p, hp, hcar, hexp, hh, hst, hw⟩ : ∃ p : Pc, (match tr with
      | .yield => .yieldDec t
      | .park => .parkDec t
      | .finish => .doneLock t) = p ∧ p.carries = some t ∧ p.expects = some (t, .running) ∧ p.holds = none ∧
      p.starts = none ∧ ∀ g, p.weight g = if g = .running then 1 else 0 := by
    cases tr <;> exact ⟨_, rfl, rfl, rfl, rfl, rfl, fun g => by cases g <;> rfl⟩
  rw [hp]
  have hct := h.placed.current_lt hcur
  have hrunning := h.placed.current c t hcur
  have hm : Moves s { goto s c p with current := Function.update s.current c none } c p := by
    refine ⟨rfl, rfl, rfl, hct, fun u hu => absurd rfl hu, fun u x hx => ?_, fun u hu => absurd rfl hu, fun u hu => ?_,
      h.placed.waiting, fun u hu => .inl hu, fun u hu => ?_⟩
    · rw [hexp] at hx
      cases hx
      exact hrunning
    · rw [hh] at hu
      cases hu
    · rw [hst] at hu
      cases hu
  have hold : ∀ d u, Function.update s.current c none d = some u → d ≠ c ∧ s.current d = some u := fun d u hd => by
    by_cases hdc : d = c
    · subst hdc
      simp at hd
    · rw [Function.update_of_ne hdc] at hd
      exact ⟨hdc, hd⟩
  refine ⟨hm.placed h.placed ?_ (fun d hd => Function.update_of_ne hd ..) (fun u hu => .inl (hold c u hu).2)
    (fun _ => Function.update_self ..) (fun e he => .inl he) h.placed.accepted h.placed.nodup,
    h.balance.step rfl rfl hct fun g => ?_⟩
  · have hshrink : Excl (fun c => (s.pc c).carries) (Function.update s.current c none) (s.entries.map Prod.snd) :=
      h.placed.excl.shrink (fun _ _ hd => hd) (fun d u hd => (hold d u hd).2) (List.Sublist.refl _)
    rw [hcar]
    refine hshrink.add_carrier (fun d _ hd => ?_) (fun d hd => ?_) (h.placed.excl.runs c t hcur)
    · exact (h.placed.excl.carried d t hd).1 c hcur
    · exact (hold d t hd).1 (h.placed.excl.oneCurrent d c t (hold d t hd).2 hcur)
  · have htotal := total_of_ne (c := c) hct (f := fun d => if (s.current d).isSome then 1 else 0)
      (k := fun d => if (Function.update s.current c none d).isSome then 1 else 0)
      fun d hd => by simp only [Function.update_of_ne hd]
    simp only [Function.update_self, hcur, Option.isSome_some, Option.isSome_none, if_true,
      Bool.false_eq_true, if_false] at htotal
    rw [hpc, hw]
    cases g with
    | running =>
      simp only [truth, goto, Pc.weight, if_true]
      omega
    | _ => rfl

theorem inv_pop {q : Queue} {s' : State} (h : Inv s) (hv : c < s.vps) (hpc : s.pc c = .idle) (hcur : s.current c = none)
    (hp : pop s c q = some (t, s')) : Inv (goto s' c (.popped t)) := by
  have hct := Nat.lt_of_lt_of_le hv h.placed.vps
  unfold pop at hp
  split at hp
  · next steal t' l hr hq =>
    split at hp <;> cases hp
    have hmem : (q, t) ∈ s.entries := by
      have hm : t ∈ queue s q := by rw [hq]; exact List.mem_cons_self
      obtain ⟨e, he, rfl⟩ := List.mem_map.mp hm
      obtain ⟨he, heq⟩ := List.mem_filter.mp he
      rw [decide_eq_true_eq] at heq
      exact heq ▸ he
    have hready := h.placed.queued _ hmem
    have hm : Moves s (goto { s with entries := s.entries.erase (q, t) } c (.popped t)) c (.popped t) := by
      refine ⟨rfl, rfl, rfl, hct, fun u hu => absurd rfl hu, fun u x hx => ?_, fun u hu => absurd rfl hu, nofun,
        h.placed.waiting, fun u hu => .inl hu, nofun⟩
      cases hx
      exact hready
    have hnodup := h.placed.excl.nodup
    have herase : t ∉ (s.entries.erase (q, t)).map Prod.snd := fun ht => by
      obtain ⟨e, he, heq⟩ := List.mem_map.mp ht
      obtain ⟨hne, he⟩ := (List.Nodup.mem_erase_iff hnodup.of_map).mp he
      exact hne (List.inj_on_of_nodup_map hnodup he hmem heq)
    refine ⟨hm.placed h.placed ?_ (fun _ _ => rfl) (fun _ hu => .inl hu) (fun _ => hcur)
      (fun e he => .inl (List.mem_of_mem_erase he)) h.placed.accepted h.placed.nodup,
      h.balance.step rfl rfl hct fun g => ?_⟩
    · have hshrink : Excl (fun c => (s.pc c).carries) s.current ((s.entries.erase (q, t)).map Prod.snd) :=
        h.placed.excl.shrink (fun _ _ hd => hd) (fun _ _ hd => hd) (List.erase_sublist.map _)
      refine hshrink.add_carrier (fun d _ hd => ?_) (fun d hd => ?_) herase
      · exact (h.placed.excl.carried d t hd).2 (List.mem_map_of_mem hmem)
      · exact h.placed.excl.runs d t hd (List.mem_map_of_mem hmem)
    · have hlen := List.length_erase_of_mem hmem
      have hpos := List.length_pos_of_mem hmem
      rw [hpc]
      cases g with
      | ready => simp only [truth, goto, Pc.weight, hlen]; omega
      | _ => rfl
  · cases hp

theorem inv_spawn {priority g : Nat} {w : Option Nat} (h : Inv s) (hc : canCall s c = true)
    (ht : s.state t = .none) : Inv (spawnEx s c t priority g w) := by
  rw [canCall, Bool.and_eq_true, Bool.and_eq_true, decide_eq_true_eq, decide_eq_true_eq] at hc
  obtain ⟨⟨hct, hpc⟩, -⟩ := hc
  unfold spawnEx
  split
  · generalize hs₁ : ({ s with
      state := Function.update s.state t .new
      priority := Function.update s.priority t priority
      groupId := Function.update s.groupId t g
      vpId := Function.update s.vpId t w
      allTasks := t :: s.allTasks
      externalRefs := Function.update s.externalRefs t 1
      live := s.live + 1
      accepted := t :: s.accepted } : State) = s₁
    generalize spawnQueue s c priority g w = q
    have hnew : t ∉ s.accepted := fun hm => (h.placed.accepted t).mp hm ht
    have hstate : s₁.state = Function.update s.state t .new := by rw [← hs₁]
    have hacc : s₁.accepted = t :: s.accepted := by rw [← hs₁]
    have hall : s₁.allTasks = t :: s.allTasks := by rw [← hs₁]
    have hm : Moves s (goto s₁ c (.spawned t q)) c (.spawned t q) := by
      refine ⟨by rw [← hs₁]; rfl, by rw [← hs₁]; rfl, by rw [← hs₁]; rfl, hct, fun u hu => ?_, fun u x hx => ?_,
        fun u hu => ?_, nofun, fun d u ws hd => ?_, fun u hu => .inl ?_, fun u hu => ?_⟩
      · change s₁.state u ≠ _ at hu
        change _ ∧ s₁.state u ≠ _
        have hut : u = t := by
          by_contra hne
          rw [hstate, Function.update_of_ne hne] at hu
          exact hu rfl
        subst hut
        refine ⟨.inr ⟨hnew, ?_⟩, by rw [hstate, Function.update_self]; decide⟩
        exact hacc ▸ List.mem_cons_self
      · cases hx
        exact (congrFun hstate t).trans (Function.update_self ..)
      · exact absurd (by rw [← hs₁]; rfl) hu
      · rw [← hs₁] at hd
        exact h.placed.waiting d u ws hd
      · exact hall ▸ List.mem_cons_of_mem _ hu
      · cases hu
        exact hall ▸ List.mem_cons_self
    have hfree := h.placed.free (.inl ht)
    refine ⟨hm.placed h.placed ?_ (fun d _ => by rw [← hs₁]; rfl) (fun u hu => .inl (by rw [← hs₁] at hu; exact hu))
      nofun (fun e he => .inl (by rw [← hs₁] at he; exact he)) (fun u => ?_) ?_, h.balance.step (by rw [← hs₁]; rfl)
      (by rw [← hs₁]; rfl) hct fun g => ?_⟩
    · have hexcl := h.placed.excl.add_carrier (c := c) (fun d _ => hfree.carried d) hfree.current hfree.queued
      rw [← hs₁]
      exact hexcl
    · change u ∈ s₁.accepted ↔ s₁.state u ≠ .none
      rw [hacc, hstate, List.mem_cons]
      by_cases hut : u = t
      · subst hut
        simp
      · rw [Function.update_of_ne hut, h.placed.accepted u]
        simp [hut]
    · change s₁.accepted.Nodup
      rw [hacc]
      exact List.nodup_cons.mpr ⟨hnew, h.placed.nodup⟩
    · have hparked : (t :: s.accepted).countP (fun u => Function.update s.state t .new u = .parked) =
          s.accepted.countP fun u => s.state u = .parked := by
        rw [List.countP_cons_of_neg (by simp)]
        refine List.countP_congr fun u hu => ?_
        have hut : u ≠ t := fun heq => hnew (heq ▸ hu)
        rw [Function.update_of_ne hut]
      rw [hpc]
      cases g with
      | parked =>
        simp only [truth, goto, Pc.weight, hacc, hstate, hparked]
        rw [← hs₁]
      | spawned =>
        simp only [truth, goto, Pc.weight, ← hs₁]
        omega
      | taskControls =>
        simp only [truth, goto, Pc.weight, List.length_cons, ← hs₁]
        omega
      | _ => rw [← hs₁]; rfl
  · exact h

/-- `dlsm_gt_unpark` takes the lock of a parked task. -/
theorem inv_unparkLock {b : Bool} {q : Queue} (h : Inv s) (hpc : s.pc c = .unparkLock t b) (hl : s.lock t = none)
    (ht : s.state t = .parked) : Inv (goto (setLock s t (some c)) c (.parkedDec t q)) := by
  have hct := h.placed.lt_threads (c := c) (by rw [hpc]; simp)
  have hfree := h.placed.free (.inr (.inr ⟨ht, hl⟩))
  have hm : Moves s (goto (setLock s t (some c)) c (.parkedDec t q)) c (.parkedDec t q) := by
    refine ⟨rfl, rfl, rfl, hct, fun u hu => absurd rfl hu, fun u x hx => ?_, fun u hu => ?_, fun u hu => ?_,
      h.placed.waiting, fun u hu => .inl hu, nofun⟩
    · cases hx
      exact ht
    · refine .inl ?_
      have hut : u = t := by
        by_contra hne
        exact hu (Function.update_of_ne hne ..)
      rw [hut, hl]
    · cases hu
      exact Function.update_self ..
  refine ⟨hm.placed h.placed (h.placed.excl.add_carrier (fun d _ => hfree.carried d) hfree.current hfree.queued)
    (fun _ _ => rfl) (fun _ hu => .inl hu) nofun (fun e he => .inl he) h.placed.accepted h.placed.nodup,
    h.balance.step rfl rfl hct fun g => ?_⟩
  rw [hpc]
  cases g <;> rfl

/-- A finished task is to be unlinked. -/
theorem inv_unlinks (hs : Frees s s' c) (h : Inv s) (hp : s.pc c ≠ .idle) (hw : ∀ g, (s.pc c).weight g = 0)
    (ht : s.state t = .finished) (hl : s.lock t = none) (hl' : s'.lock = s.lock) :
    Inv (goto (setLock s' t (some c)) c (.unlink t)) := by
  have hct := h.placed.lt_threads hp
  have hm : Moves s (goto (setLock s' t (some c)) c (.unlink t)) c (.unlink t) := by
    refine ⟨hs.threads, hs.vps, by rw [← hs.pc]; rfl, hct, fun u hu => absurd (congrFun hs.state u) hu,
      fun u x hx => ?_, fun u hu => ?_, fun u hu => ?_, hs.waiting, fun u hu => .inl (hs.allTasks ▸ hu), nofun⟩
    · cases hx
      exact (congrFun hs.state t).trans ht
    · refine .inl ?_
      have hut : u = t := by
        by_contra hne
        exact hu ((Function.update_of_ne hne ..).trans (congrFun hl' u))
      rw [hut, hl]
    · cases hu
      exact Function.update_self ..
  refine ⟨hm.placed_still h.placed nofun nofun hs.current hs.entries hs.accepted,
    h.balance.step hs.threads (by rw [← hs.pc]; rfl) hct fun g => ?_⟩
  rw [hw]
  cases g <;> simp only [truth, goto, setLock, Pc.weight, hs.stats, hs.live, hs.entries, hs.current, hs.threads,
    hs.accepted, hs.state, hs.allTasks]

theorem inv_unlink (h : Inv s) (hpc : s.pc c = .unlink t) (ht : t ∈ s.allTasks) :
    Inv (goto { s with rtLock := some c, allTasks := s.allTasks.erase t } c (.controlsDec t)) := by
  have hct := h.placed.lt_threads (c := c) (by rw [hpc]; simp)
  have hfin : s.state t = .finished := h.placed.expects c t .finished (by rw [hpc]; rfl)
  have hm : Moves s (goto { s with rtLock := some c, allTasks := s.allTasks.erase t } c (.controlsDec t)) c
      (.controlsDec t) := by
    refine ⟨rfl, rfl, rfl, hct, fun u hu => absurd rfl hu, fun u x hx => ?_, fun u hu => absurd rfl hu, fun u hu => ?_,
      h.placed.waiting, fun u hu => ?_, nofun⟩
    · cases hx
      exact hfin
    · cases hu
      exact h.placed.lock c t (by rw [hpc]; rfl)
    · by_cases hut : u = t
      · exact .inr (hut ▸ hfin)
      · exact .inl ((List.mem_erase_of_ne hut).mpr hu)
  refine ⟨hm.placed_still h.placed nofun nofun rfl rfl rfl, h.balance.step rfl rfl hct fun g => ?_⟩
  have hlen := List.length_erase_of_mem ht
  have hpos := List.length_pos_of_mem ht
  rw [hpc]
  cases g with
  | taskControls => simp only [truth, goto, Pc.weight, hlen]; omega
  | _ => rfl

theorem inv_doneLive (h : Inv s) (hpc : s.pc c = .doneLive t) :
    Inv (goto { s with live := s.live - 1 } c (.doneUnlock t)) := by
  have hct := h.placed.lt_threads (c := c) (by rw [hpc]; simp)
  have hm : Moves s (goto { s with live := s.live - 1 } c (.doneUnlock t)) c (.doneUnlock t) := by
    refine ⟨rfl, rfl, rfl, hct, fun u hu => absurd rfl hu, fun u x hx => ?_, fun u hu => absurd rfl hu, fun u hu => ?_,
      h.placed.waiting, fun u hu => .inl hu, nofun⟩
    · cases hx
      exact h.placed.expects c t .finished (by rw [hpc]; rfl)
    · cases hu
      exact h.placed.lock c t (by rw [hpc]; rfl)
  refine ⟨hm.placed_still h.placed nofun nofun rfl rfl rfl, h.balance.step rfl rfl hct fun g => ?_⟩
  rw [hpc]
  cases g with
  | spawned => simp only [truth, goto, Pc.weight]; omega
  | _ => rfl

/-! ## Runs -/

/-- A thread takes the lock of the task it carries, and changes its state. -/
theorem Changes.takes {p₀ : Pc} {x y : TaskState} (hs : Changes s s' c p t y (some c)) (h : Inv s)
    (hpc : s.pc c = p₀) (hc : p₀.carries = some t) (hx : p₀.expects = some (t, x)) (hy : y ≠ .none)
    (hl : s.lock t = none) (hcar : p.carries = none ∨ p.carries = some t) (hsw : p.switches = false)
    (hexp : p.expects = some (t, y)) (hh : p.holds = some t) (hst : p.starts = none)
    (hw : ∀ g, p.weight g = p₀.weight g + if g = .parked ∧ y = .parked then -1 else 0) (hxp : x ≠ .parked) :
    Inv s' := by
  subst hpc
  refine hs.inv h hc hx hy (.inl hl) (fun u hu => ?_) (fun hp => ?_) (fun u z hz => ?_) (fun u hu => ?_) hst
    (fun g hg => ?_) ?_
  · obtain hn | he := hcar
    · rw [hn] at hu
      cases hu
    · rw [he] at hu
      cases hu
      rfl
  · rw [hsw] at hp
    cases hp
  · rw [hexp] at hz
    cases hz
    exact ⟨rfl, rfl⟩
  · rw [hh] at hu
    cases hu
    exact ⟨rfl, rfl⟩
  · rw [hw, if_neg fun hp => hg hp.1, Int.add_zero]
  · rw [hw, if_neg hxp]
    by_cases hyp : y = .parked
    · simp only [hyp, and_self, if_true]
      omega
    · simp [hyp]

theorem changes_goto (s : State) (c t : Nat) (y : TaskState) (p : Pc) (f : Nat → Bool) :
    Changes s (goto { setState (setLock s t (some c)) t y with unparkPending := f } c p) c p t y (some c) := by
  constructor <;> rfl

theorem frees_setLock (h : Inv s) (hh : (s.pc c).holds = some t) : Frees s (setLock s t none) c := by
  refine ⟨rfl, rfl, rfl, rfl, fun u hu => ?_, h.placed.waiting, rfl, rfl, rfl, rfl, rfl, rfl⟩
  have hut : u = t := by
    by_contra hne
    exact hu (Function.update_of_ne hne ..)
  exact hut ▸ h.placed.lock c t hh

/-- A step that changes nothing a gauge or a lock is about. -/
theorem Frees.of_eq (h : Inv s) (hn : s'.threads = s.threads) (hv : s'.vps = s.vps) (hpc : s'.pc = s.pc)
    (hst : s'.state = s.state) (hl : s'.lock = s.lock) (hw : s'.waiters = s.waiters) (hall : s'.allTasks = s.allTasks)
    (hcur : s'.current = s.current) (he : s'.entries = s.entries) (hacc : s'.accepted = s.accepted)
    (hlive : s'.live = s.live) (hstats : s'.stats = s.stats) : Frees s s' c :=
  ⟨hn, hv, hpc, hst, fun u hu => absurd (congrFun hl u) hu, fun d u ws hd => h.placed.waiting d u ws (hw ▸ hd), hall,
    hcur, he, hacc, hlive, hstats⟩

/-- The task whose waiters are woken has finished. -/
theorem waiting_update {ws l : List Nat} {d u : Nat} (h : Inv s) (he : (s.pc c).expects = some (t, .finished))
    (hd : Function.update s.waiters c (some (t, ws)) d = some (u, l)) : s.state u = .finished := by
  by_cases hdc : d = c
  · subst hdc
    rw [Function.update_self, Option.some.injEq, Prod.mk.injEq] at hd
    exact hd.1 ▸ h.placed.expects d t .finished he
  · rw [Function.update_of_ne hdc] at hd
    exact h.placed.waiting d u l hd

theorem inv_next {ws : List Nat} (h : Inv s) (hs : next s c ws = some s') : Inv s' := by
  unfold next at hs
  cases hpc : s.pc c with
  | idle => simp [hpc] at hs
  | spawned t q =>
    simp only [hpc, Option.some.injEq] at hs
    subst hs
    exact inv_stat h hpc (by simp) ⟨.inr rfl, .inr rfl, .inr rfl, .inr rfl, .inr rfl⟩ (by rintro ⟨⟩ <;> rfl)
  | controls t q =>
    simp only [hpc, Option.some.injEq] at hs
    subst hs
    exact inv_stat h hpc (by simp) ⟨.inr rfl, .inr rfl, .inr rfl, .inr rfl, .inl rfl⟩ (by rintro ⟨⟩ <;> rfl)
  | spawnLock t q =>
    simp only [hpc] at hs
    split at hs <;> cases hs
    next hl =>
    exact (changes_goto s c t .ready (.readyInc t q) s.unparkPending).takes h hpc rfl rfl (by decide)
      (not_not.mp hl) (.inr rfl) rfl rfl rfl rfl (by rintro ⟨⟩ <;> rfl) (by decide)
  | readyInc t q =>
    simp only [hpc, Option.some.injEq] at hs
    subst hs
    exact inv_stat h hpc (by simp) ⟨.inr rfl, .inr rfl, .inr rfl, .inr rfl, .inr rfl⟩ (by rintro ⟨⟩ <;> rfl)
  | push t q =>
    simp only [hpc, Option.some.injEq] at hs
    subst hs
    exact inv_push h hpc
  | unlock t =>
    simp only [hpc, Option.some.injEq] at hs
    subst hs
    exact (frees_setLock h (by rw [hpc]; rfl)).inv h (by simp [hpc]) (by rw [hpc]; exact fun _ => rfl)
  | popped t =>
    simp only [hpc] at hs
    split at hs <;> cases hs
    next hl =>
    have hl' := not_not.mp hl
    have hc : Changes s (goto { setState s t .running with lastVpId := Function.update s.lastVpId t (some c) } c
        (.readyDec t)) c (.readyDec t) t .running none :=
      ⟨rfl, rfl, rfl, rfl, by rw [← hl', Function.update_eq_self]; rfl, rfl, rfl, rfl, rfl, rfl, rfl, rfl⟩
    exact hc.inv h (by rw [hpc]; rfl) (by rw [hpc]; rfl) (by decide) (.inl hl') (fun u hu => by cases hu; rfl)
      (fun _ => by rw [hpc]; rfl) (fun u z hz => by cases hz; exact ⟨rfl, rfl⟩) nofun rfl
      (fun g _ => by rw [hpc]; cases g <;> rfl) (by rw [hpc]; rfl)
  | readyDec t =>
    simp only [hpc, Option.some.injEq] at hs
    subst hs
    exact inv_stat h hpc (by simp) ⟨.inr rfl, .inr rfl, .inr rfl, .inr rfl, .inr rfl⟩ (by rintro ⟨⟩ <;> rfl)
  | runningInc t =>
    simp only [hpc, Option.some.injEq] at hs
    subst hs
    exact inv_stat h hpc (by simp) ⟨.inr rfl, .inr rfl, .inr rfl, .inr rfl, .inr rfl⟩ (by rintro ⟨⟩ <;> rfl)
  | enter t =>
    simp only [hpc, Option.some.injEq] at hs
    subst hs
    exact inv_enter h hpc
  | yieldDec t =>
    simp only [hpc, Option.some.injEq] at hs
    subst hs
    exact inv_stat h hpc (by simp) ⟨.inr rfl, .inr rfl, .inr rfl, .inr rfl, .inr rfl⟩ (by rintro ⟨⟩ <;> rfl)
  | yieldLock t =>
    simp only [hpc] at hs
    split at hs <;> cases hs
    next hl =>
    exact (changes_goto s c t .ready (.readyInc t (ownQueue s c t)) s.unparkPending).takes h hpc rfl rfl (by decide)
      (not_not.mp hl) (.inr rfl) rfl rfl rfl rfl (by rintro ⟨⟩ <;> rfl) (by decide)
  | parkDec t =>
    simp only [hpc, Option.some.injEq] at hs
    subst hs
    exact inv_stat h hpc (by simp) ⟨.inr rfl, .inr rfl, .inr rfl, .inr rfl, .inr rfl⟩ (by rintro ⟨⟩ <;> rfl)
  | parkLock t =>
    simp only [hpc] at hs
    split at hs
    · cases hs
    · next hl =>
      split at hs <;> cases hs
      · have hc := changes_goto s c t .ready (.readyInc t (ownQueue s c t)) (Function.update s.unparkPending t false)
        exact hc.takes h hpc rfl rfl (by decide)
          (not_not.mp hl) (.inr rfl) rfl rfl rfl rfl (by rintro ⟨⟩ <;> rfl) (by decide)
      · exact (changes_goto s c t .parked (.parkedInc t) s.unparkPending).takes h hpc rfl rfl (by decide)
          (not_not.mp hl) (.inl rfl) rfl rfl rfl rfl (by rintro ⟨⟩ <;> rfl) (by decide)
  | parkedInc t =>
    simp only [hpc, Option.some.injEq] at hs
    subst hs
    exact inv_stat h hpc (by simp) ⟨.inr rfl, .inr rfl, .inl rfl, .inr rfl, .inr rfl⟩ (by rintro ⟨⟩ <;> rfl)
  | doneLock t =>
    simp only [hpc] at hs
    split at hs <;> cases hs
    next hl =>
    exact (changes_goto s c t .finished (.doneDec t) s.unparkPending).takes h hpc rfl rfl (by decide)
      (not_not.mp hl) (.inl rfl) rfl rfl rfl rfl (by rintro ⟨⟩ <;> rfl) (by decide)
  | doneDec t =>
    simp only [hpc, Option.some.injEq] at hs
    subst hs
    exact inv_stat h hpc (by simp) ⟨.inr rfl, .inr rfl, .inr rfl, .inr rfl, .inr rfl⟩ (by rintro ⟨⟩ <;> rfl)
  | finishedInc t =>
    simp only [hpc, Option.some.injEq] at hs
    subst hs
    exact inv_stat h hpc (by simp) ⟨.inr rfl, .inr rfl, .inr rfl, .inr rfl, .inr rfl⟩ (by rintro ⟨⟩ <;> rfl)
  | doneLive t =>
    simp only [hpc] at hs
    split at hs <;> cases hs
    exact inv_doneLive h hpc
  | doneUnlock t =>
    simp only [hpc] at hs
    split at hs <;> cases hs
    have hf := frees_setLock h (c := c) (t := t) (by rw [hpc]; rfl)
    have hf' : Frees s { setLock s t none with waiters := Function.update s.waiters c (some (t, ws)) } c := by
      refine ⟨rfl, rfl, rfl, rfl, hf.lock, fun d u l hd => ?_, rfl, rfl, rfl, rfl, rfl, rfl⟩
      exact waiting_update h (by rw [hpc]; rfl) hd
    exact hf'.inv h (by simp [hpc]) (by rw [hpc]; exact fun g => by cases g <;> rfl)
  | exec t =>
    simp only [hpc] at hs
    split at hs
    · cases hs
    · next hl =>
      have hf : Frees s { s with executionReleased := Function.update s.executionReleased t true } c :=
        .of_eq h rfl rfl rfl rfl rfl rfl rfl rfl rfl rfl rfl rfl
      cases hs
      split
      · exact inv_unlinks hf h (by simp [hpc]) (by rw [hpc]; exact fun g => by cases g <;> rfl)
          (h.placed.expects c t .finished (by rw [hpc]; rfl)) (not_not.mp hl) rfl
      · exact hf.inv h (by simp [hpc]) (by rw [hpc]; exact fun g => by cases g <;> rfl)
  | unlink t =>
    simp only [hpc] at hs
    split at hs
    · cases hs
    · split at hs <;> cases hs
      · next ht => exact inv_unlink h hpc ht
      · have hc : Counts s (goto s c (.unlock t)) c (.unlock t) :=
          ⟨rfl, rfl, rfl, rfl, rfl, rfl, rfl, rfl, rfl, rfl, rfl⟩
        exact inv_goto hc rfl h hpc (by simp) ⟨.inr rfl, .inr rfl, .inl rfl, .inr rfl, .inr rfl⟩ (by rintro ⟨⟩ <;> rfl)
  | controlsDec t =>
    simp only [hpc, Option.some.injEq] at hs
    subst hs
    exact inv_stat h hpc (by simp) ⟨.inr rfl, .inr rfl, .inr rfl, .inr rfl, .inr rfl⟩ (by rintro ⟨⟩ <;> rfl)
  | unlockRt t =>
    simp only [hpc, Option.some.injEq] at hs
    subst hs
    have hc : Counts s (goto { s with rtLock := none } c (.unlock t)) c (.unlock t) :=
      ⟨rfl, rfl, rfl, rfl, rfl, rfl, rfl, rfl, rfl, rfl, rfl⟩
    exact inv_goto hc rfl h hpc (by simp) ⟨.inr rfl, .inr rfl, .inl rfl, .inr rfl, .inr rfl⟩ (by rintro ⟨⟩ <;> rfl)
  | unpark t =>
    simp only [hpc] at hs
    split at hs <;> cases hs
    have hc : Counts s (goto s c (.unparkLock t (s.rtState == .stopped))) c (.unparkLock t (s.rtState == .stopped)) :=
      ⟨rfl, rfl, rfl, rfl, rfl, rfl, rfl, rfl, rfl, rfl, rfl⟩
    exact inv_goto hc rfl h hpc (by simp) ⟨.inr rfl, .inr rfl, .inr rfl, .inr rfl, .inr rfl⟩ (by rintro ⟨⟩ <;> rfl)
  | unparkLock t stopped =>
    have hw : ∀ g, (s.pc c).weight g = 0 := by rw [hpc]; exact fun g => by cases g <;> rfl
    simp only [hpc] at hs
    split at hs
    · cases hs
    · next hl =>
      split at hs
      · cases hs
        exact (Frees.of_eq h rfl rfl rfl rfl rfl rfl rfl rfl rfl rfl rfl rfl).inv h (by simp [hpc]) hw
      · split at hs <;> cases hs
        · next ht => exact inv_unparkLock h hpc (not_not.mp hl) ht
        · have hf : Frees s { s with unparkPending := Function.update s.unparkPending t true } c :=
            .of_eq h rfl rfl rfl rfl rfl rfl rfl rfl rfl rfl rfl rfl
          exact hf.inv h (by simp [hpc]) hw
  | parkedDec t q =>
    simp only [hpc, Option.some.injEq] at hs
    subst hs
    exact inv_stat h hpc (by simp) ⟨.inr rfl, .inr rfl, .inr rfl, .inr rfl, .inr rfl⟩ (by rintro ⟨⟩ <;> rfl)
  | unparkReady t q =>
    simp only [hpc, Option.some.injEq] at hs
    subst hs
    have hl := h.placed.lock c t (by rw [hpc]; rfl)
    have hc : Changes s (goto (setState s t .ready) c (.readyInc t q)) c (.readyInc t q) t .ready (some c) :=
      ⟨rfl, rfl, rfl, rfl, by rw [← hl, Function.update_eq_self]; rfl, rfl, rfl, rfl, rfl, rfl, rfl, rfl⟩
    exact hc.inv h (by rw [hpc]; rfl) (by rw [hpc]; rfl) (by decide) (.inr hl) (fun u hu => by cases hu; rfl)
      nofun (fun u z hz => by cases hz; exact ⟨rfl, rfl⟩) (fun u hu => by cases hu; exact ⟨rfl, rfl⟩) rfl
      (fun g hg => by rw [hpc]; cases g <;> first | rfl | exact absurd rfl hg) (by rw [hpc]; rfl)
  | retain t =>
    have hw : ∀ g, (s.pc c).weight g = 0 := by rw [hpc]; exact fun g => by cases g <;> rfl
    simp only [hpc] at hs
    split at hs
    · cases hs
    · split at hs <;> cases hs
      · exact (Frees.of_eq h rfl rfl rfl rfl rfl rfl rfl rfl rfl rfl rfl rfl).inv h (by simp [hpc]) hw
      · have hf : Frees s { s with externalRefs := Function.update s.externalRefs t (s.externalRefs t + 1) } c :=
          .of_eq h rfl rfl rfl rfl rfl rfl rfl rfl rfl rfl rfl rfl
        exact hf.inv h (by simp [hpc]) hw
  | release t =>
    have hw : ∀ g, (s.pc c).weight g = 0 := by rw [hpc]; exact fun g => by cases g <;> rfl
    simp only [hpc] at hs
    split at hs
    · cases hs
    · next hl =>
      split at hs
      · cases hs
        exact (Frees.of_eq h rfl rfl rfl rfl rfl rfl rfl rfl rfl rfl rfl rfl).inv h (by simp [hpc]) hw
      · have hf : Frees s { s with externalRefs := Function.update s.externalRefs t (s.externalRefs t - 1) } c :=
          .of_eq h rfl rfl rfl rfl rfl rfl rfl rfl rfl rfl rfl rfl
        cases hs
        split
        · next ht => exact inv_unlinks hf h (by simp [hpc]) hw ht.2.1 (not_not.mp hl) rfl
        · exact hf.inv h (by simp [hpc]) hw

theorem Placed.congr (h : Placed s) {x : RtState} : Placed { s with rtState := x } :=
  ⟨h.vps, h.bound, h.excl, h.expects, h.queued, h.current, h.empty, h.lock, h.waiting, h.linked, h.accepted, h.nodup⟩

/-- A call begins. -/
theorem inv_call (h : Inv s) (hc : canCall s c = true) (hcar : p.carries = none) (hsw : p.switches = false)
    (hexp : p.expects = none) (hh : p.holds = none) (hst : p.starts = none) (hw : ∀ g, p.weight g = 0) :
    Inv (goto s c p) := by
  rw [canCall, Bool.and_eq_true, Bool.and_eq_true, decide_eq_true_eq, decide_eq_true_eq] at hc
  obtain ⟨⟨hct, hpc⟩, -⟩ := hc
  have hm : Moves s (goto s c p) c p := by
    refine ⟨rfl, rfl, rfl, hct, fun u hu => absurd rfl hu, fun u x hx => ?_, fun u hu => absurd rfl hu, fun u hu => ?_,
      h.placed.waiting, fun u hu => .inl hu, fun u hu => ?_⟩
    · rw [hexp] at hx
      cases hx
    · rw [hh] at hu
      cases hu
    · rw [hst] at hu
      cases hu
  refine ⟨hm.placed_still h.placed (fun u hu => ?_) (fun hp => ?_) rfl rfl rfl, h.balance.step rfl rfl hct fun g => ?_⟩
  · rw [hcar] at hu
    cases hu
  · rw [hsw] at hp
    cases hp
  · rw [hpc, hw]
    cases g <;> rfl

theorem inv_step {a : Act} (h : Inv s) (hs : step s a = some s') : Inv s' := by
  cases a with
  | spawn c t p g w =>
    simp only [step] at hs
    split at hs <;> cases hs
    next hc => exact inv_spawn h hc.1 hc.2.1
  | unpark c t =>
    simp only [step] at hs
    split at hs <;> cases hs
    next hc => exact inv_call h hc.1 rfl rfl rfl rfl rfl fun _ => rfl
  | retain c t =>
    simp only [step] at hs
    split at hs <;> cases hs
    next hc => exact inv_call h hc.1 rfl rfl rfl rfl rfl fun _ => rfl
  | release c t =>
    simp only [step] at hs
    split at hs <;> cases hs
    next hc => exact inv_call h hc.1 rfl rfl rfl rfl rfl fun _ => rfl
  | pop v q =>
    simp only [step] at hs
    split at hs
    · next hc =>
      obtain ⟨r, hp, rfl⟩ := Option.map_eq_some_iff.mp hs
      exact inv_pop h hc.1 hc.2.1 hc.2.2 hp
    · cases hs
  | leave v tr =>
    simp only [step] at hs
    split at hs <;> cases hs
    next hpc hcur => exact inv_leave h hpc hcur
  | setRtState x =>
    simp only [step] at hs
    split at hs <;> cases hs
    exact ⟨h.placed.congr, fun g => by cases g <;> exact h.balance _⟩
  | next c ws => exact inv_next h hs

theorem inv_of_reach (hr : machine.Reach s) : Inv s := by
  refine Machine.Reach.invariant (I := Inv) ?_ (fun _ _ _ _ h hs => inv_step h hs) hr
  rintro s ⟨threads, vps, group, hv, rfl⟩
  refine ⟨⟨hv, fun c _ => ⟨rfl, rfl⟩, ⟨nofun, nofun, List.nodup_nil, nofun, nofun⟩, nofun, nofun, nofun, nofun, nofun,
    nofun, nofun, fun t => ?_, List.nodup_nil⟩, fun g => ?_⟩
  · simp [State.initial]
  · have hzero : total (fun _ => 0) threads = 0 := total_eq_zero fun c _ => rfl
    have hidle : total (fun c => ((State.initial threads vps group).pc c).weight g) threads = 0 :=
      total_eq_zero fun c _ => by cases g <;> rfl
    cases g with
    | running => exact (congrArg₂ (· + ·) hzero hidle).symm
    | _ => exact (congrArg (0 + ·) hidle).symm

/-- No thread is in a transition. -/
def Settled (s : State) : Prop := ∀ c < s.threads, s.pc c = .idle

/-- The gauges. -/
structure Accurate (s : State) : Prop where
  /-- They never wrap. -/
  ready_nonneg : 0 ≤ s.stats .ready
  running_nonneg : 0 ≤ s.stats .running
  parked_nonneg : 0 ≤ s.stats .parked
  controls_nonneg : 0 ≤ s.stats .taskControls
  /-- They are what they count between transitions. -/
  ready : Settled s → s.stats .ready = s.entries.length
  running : Settled s → s.stats .running = (List.range s.threads).countP fun c => (s.current c).isSome
  parked : Settled s → s.stats .parked = s.accepted.countP fun t => s.state t = .parked
  live : Settled s → s.stats .spawned - s.stats .finished = s.live
  controls : Settled s → s.stats .taskControls = s.allTasks.length

theorem total_eq_countP (f : Nat → Bool) (n : Nat) :
    total (fun c => if f c then 1 else 0) n = (List.range n).countP f := by
  induction n with
  | zero => rfl
  | succ n ih =>
    rw [total, ih, List.range_succ, List.countP_append, List.countP_singleton]
    split <;> simp

namespace Pc

variable {p : Pc}

theorem weight_nonneg (g : Gauge) (hg : g = .ready ∨ g = .running) : 0 ≤ p.weight g := by
  obtain rfl | rfl := hg <;> cases p <;> simp [weight]

theorem neg_one_le_weight (g : Gauge) : -1 ≤ p.weight g := by
  cases p <;> cases g <;> simp [weight]

/-- A thread in debt for `parked` holds the lock of a parked task. -/
theorem owes_parked (h : p.weight .parked < 0) : ∃ t, p.holds = some t ∧ p.expects = some (t, .parked) := by
  cases p <;> simp_all [weight, holds, expects]

theorem owes_controls (h : p.weight .taskControls < 0) : ∃ t, p.starts = some t := by
  cases p <;> simp_all [weight, starts]

end Pc

/-- The tasks for which threads are in debt with a gauge that counts the tasks of `l`. -/
theorem debt_le {g : Gauge} {l : List Nat} {k : Pc → Option Nat}
    (hm : ∀ c, (s.pc c).weight g < 0 → ∃ t ∈ l, k (s.pc c) = some t)
    (hinj : ∀ c d t, k (s.pc c) = some t → k (s.pc d) = some t → c = d) :
    -(l.length : Int) ≤ total (fun c => (s.pc c).weight g) s.threads := by
  refine neg_total_le (k := fun c => (k (s.pc c)).getD 0) (fun c _ => Pc.neg_one_le_weight g)
    (fun c _ hc => ?_) fun c _ d _ hc hd heq => ?_
  · obtain ⟨t, ht, hct⟩ := hm c hc
    simpa [hct] using ht
  · obtain ⟨t, -, hct⟩ := hm c hc
    obtain ⟨t', -, hdt⟩ := hm d hd
    simp only [hct, hdt, Option.getD_some] at heq
    subst heq
    exact hinj c d t hct hdt

theorem Inv.settled (h : Inv s) (hs : Settled s) (g : Gauge) : s.stats g = truth s g := by
  have hzero : total (fun c => (s.pc c).weight g) s.threads = 0 := total_eq_zero fun c hc => by
    rw [hs c hc]
    cases g <;> rfl
  rw [h.balance g, hzero, Int.add_zero]

/-- In any interleaving of the transitions of tasks, each update of a gauge a step of its own. -/
theorem accurate_of_reach (hr : machine.Reach s) : Accurate s := by
  have h := inv_of_reach hr
  have hnonneg : ∀ g, g = .ready ∨ g = .running → 0 ≤ total (fun c => (s.pc c).weight g) s.threads :=
    fun g hg => total_nonneg fun c _ => Pc.weight_nonneg g hg
  refine ⟨?_, ?_, ?_, ?_, fun hs => h.settled hs .ready, fun hs => ?_, fun hs => h.settled hs .parked, fun hs => ?_,
    fun hs => h.settled hs .taskControls⟩
  · have hb := h.balance .ready
    have hn := hnonneg .ready (.inl rfl)
    simp only [truth] at hb
    omega
  · have hb := h.balance .running
    have hn := hnonneg .running (.inr rfl)
    have hc : 0 ≤ total (fun c => if (s.current c).isSome then 1 else 0) s.threads :=
      total_nonneg fun c _ => by split <;> decide
    simp only [truth] at hb
    omega
  · have hb := h.balance .parked
    have hle := debt_le (s := s) (g := .parked) (k := Pc.holds) (l := s.accepted.filter fun t => s.state t = .parked)
      (fun c hc => ?_) fun c d t hc hd => ?_
    · simp only [truth, List.countP_eq_length_filter] at hb
      omega
    · obtain ⟨t, hh, he⟩ := Pc.owes_parked hc
      have hst := h.placed.expects c t .parked he
      refine ⟨t, List.mem_filter.mpr ⟨(h.placed.accepted t).mpr (by rw [hst]; decide), by simpa using hst⟩, hh⟩
    · have hl := h.placed.lock c t hc
      rw [h.placed.lock d t hd, Option.some.injEq] at hl
      exact hl.symm
  · have hb := h.balance .taskControls
    have hle := debt_le (s := s) (g := .taskControls) (k := Pc.starts) (l := s.allTasks) (fun c hc => ?_)
      fun c d t hc hd => ?_
    · simp only [truth] at hb
      omega
    · obtain ⟨t, ht⟩ := Pc.owes_controls hc
      exact ⟨t, h.placed.linked c t ht, ht⟩
    · exact h.placed.excl.oneCarrier c d t (Pc.carries_of_starts hc).1 (Pc.carries_of_starts hd).1
  · rw [h.settled hs .running, truth, total_eq_countP]
  · have hsp := h.settled hs .spawned
    simp only [truth] at hsp
    omega

/-- A VP and an external thread: an unpark overtakes the park of the task, which
is between its two updates. -/
theorem accurate_of_reach_overtaken : ∃ s, machine.Reach s ∧ Accurate s ∧ Settled s ∧ s.stats .ready = 1 ∧
    s.stats .parked = 0 ∧ s.live = 1 ∧ s.allTasks = [0] := by
  obtain ⟨s, hr, hp⟩ := Machine.exists_reach_of_run (M := machine) (s := State.initial 2 1 fun _ => 0)
    (l := [.spawn 1 0 3 0 none, .next 1 [], .next 1 [], .next 1 [], .next 1 [], .next 1 [], .next 1 [],
      .pop 0 (.ready 0 3), .next 0 [], .next 0 [], .next 0 [], .next 0 [], .leave 0 .park, .next 0 [], .unpark 1 0,
      .next 1 [], .next 1 [], .next 0 [], .next 0 [], .next 0 [], .next 0 []])
    (p := fun s => decide (∀ c < s.threads, s.pc c = .idle) && (decide (s.stats .ready = 1) &&
      (decide (s.stats .parked = 0) && (decide (s.live = 1) && decide (s.allTasks = [0])))))
    ⟨2, 1, fun _ => 0, by decide, rfl⟩ (by decide +kernel)
  simp only [Bool.and_eq_true, decide_eq_true_eq] at hp
  exact ⟨s, hr, accurate_of_reach hr, hp⟩

end Dlsmc.Gauges
