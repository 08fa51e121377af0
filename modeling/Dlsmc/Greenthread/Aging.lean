import Dlsmc.Greenthread.Scheduling

/-!
# Aging bounds how long a priority is bypassed

A selection (`Selection`) is a run of `vp_try_next` that takes a task, with any
steps of others in between, which leave alone only what belongs to the VP
(`Others`). A selection that finds `DLSM_GT_PRIORITY_BURST` normal ones before
it goes round the lower priorities from the aging cursor, and moves the cursor
on past the priority it takes a task of. So a priority that is ready in each
selection comes closer to the cursor with every aged one (`remaining`).
-/

namespace Dlsmc.Runtime

/-- The queues of priority `p` that a VP pops from, those of its group among them. -/
def levelQueues (g v p : Nat) : List Queue := [.bound v p, .loc v p, .ready g p]

/-- In `vp_try_next`, before it has taken a task. -/
def VPc.selecting : VPc → Bool
  | .tryNext _ | .scan _ _ _ _ => true
  | _ => false

/-- Other threads take steps: what only VP `v` changes stays as it is. -/
structure Others (v : Nat) (s s' : State) : Prop where
  pc : s'.pc v = s.pc v
  group : s'.group v = s.group v
  localBurst : s'.localBurst v = s.localBurst v
  priorityDispatches : s'.priorityDispatches v = s.priorityDispatches v
  agingCursor : s'.agingCursor v = s.agingCursor v
  lastYielded : s'.lastYielded v = s.lastYielded v

/-- A run of `vp_try_next` by VP `v` that returns a task. -/
structure Selection (v : Nat) where
  states : Nat → State
  length : Nat
  start : ∃ second, (states 0).pc v = .tryNext second
  steps : ∀ i < length, Others v (states i) (states (i + 1)) ∨ vpStep (states i) v [] = some (states (i + 1), [])
  selecting : ∀ i ≤ length, ((states i).pc v).selecting = true
  result : State
  task : Nat
  last : vpStep (states length) v [] = some (result, [])
  popped : result.pc v = .popped task

namespace Selection

variable {v : Nat} (x : Selection v)

/-- Where `vp_try_next` took the task. -/
def pos : Pos :=
  match (x.states x.length).pc v with
  | .scan _ _ pos _ => pos
  | _ => .main 0

/-- The priority of the task. -/
def level : Nat := x.pos.priority ((x.states x.length).agingCursor v)

/-- The selection took the task in the loop that ages. -/
def aged : Bool :=
  match x.pos with
  | .aging _ => true
  | .main _ => false

/-- In the first `n` steps, the VP looked at the queue `q` and it was empty. -/
def Observed (n : Nat) (q : Queue) : Prop :=
  ∃ i < n, (x.states i).queue q = [] ∧ vpStep (x.states i) v [] = some (x.states (i + 1), []) ∧
    ∃ second avoid pos pr, (x.states i).pc v = .scan second avoid pos pr ∧ (probe (x.states i) v avoid pos pr).1.1 = q

/-- One of the queues of priority `p` is never empty during the selection. -/
def Ready (p : Nat) : Prop :=
  ∃ q ∈ levelQueues ((x.states 0).group v) v p, ∀ i ≤ x.length, (x.states i).queue q ≠ []

end Selection

/-- Between two selections, VP `v` does not touch its counters. -/
structure Between (v : Nat) (s s' : State) : Prop where
  priorityDispatches : s'.priorityDispatches v = s.priorityDispatches v
  agingCursor : s'.agingCursor v = s.agingCursor v

/-! ## A step of a selection -/

/-- The pops of `vp_try_priority` that a VP has made for good before a probe. -/
def Probe.done : Probe → Queue → Bool
  | .localAgain, .ready _ _ | .bound, .ready _ _ | .loc, .ready _ _ | .nvp, .ready _ _ | .steal _ _, .ready _ _ => true
  | .loc, .bound _ _ | .nvp, .bound _ _ | .steal _ _, .bound _ _ => true
  | .nvp, .loc _ _ | .steal _ _, .loc _ _ => true
  | _, _ => false

variable {s s' : State} {v : Nat} {avoid : Option Nat} {pos pos' : Pos} {pr pr' : Probe} {q : Queue} {burst : Nat}

/-- A task is taken from the head of a queue of the priority tried. -/
theorem probe_some {t : Nat} {l : List Nat} {next : Pos × Probe}
    (h : probe s v avoid pos pr = ((q, some (t, l), burst), next)) :
    q.priority = pos.priority (s.agingCursor v) ∧ s.queue q = t :: l := by
  cases pr with simp only [probe, Prod.mk.injEq] at h
  | boundUnless =>
    obtain ⟨⟨rfl, hp, -⟩, -⟩ := h
    exact ⟨rfl, queuePopUnless_eq_some hp⟩
  | localUnless =>
    obtain ⟨⟨rfl, hp, -⟩, -⟩ := h
    split at hp
    · exact ⟨rfl, queuePopUnless_eq_some hp⟩
    · cases hp
  | ready =>
    obtain ⟨⟨rfl, hp, -⟩, -⟩ := h
    exact ⟨rfl, queuePop_eq_some hp⟩
  | localAgain =>
    obtain ⟨⟨rfl, hp, -⟩, -⟩ := h
    exact ⟨rfl, queuePopUnless_eq_some hp⟩
  | bound =>
    obtain ⟨⟨rfl, hp, -⟩, -⟩ := h
    exact ⟨rfl, queuePop_eq_some hp⟩
  | loc =>
    obtain ⟨⟨rfl, hp, -⟩, -⟩ := h
    exact ⟨rfl, queuePop_eq_some hp⟩
  | nvp => cases h.1.2.1
  | steal n offset =>
    obtain ⟨⟨rfl, hp, -⟩, -⟩ := h
    split at hp
    · exact ⟨rfl, queueStealSurplus_eq_some hp⟩
    · cases hp

/-- A probe without a task: the scan stays at its priority, and a queue it has
popped from for good was empty; or it has popped from all of them and goes on. -/
theorem probe_none (h : probe s v avoid pos pr = ((q, none, burst), (pos', pr'))) :
    pos' = pos ∧ (∀ q' ∈ levelQueues (s.group v) v (pos.priority (s.agingCursor v)), pr'.done q' = true →
        pr.done q' = true ∨ q' = q ∧ s.queue q' = []) ∨
      pos' = pos.next ∧ pr' = .boundUnless ∧
        ∀ q' ∈ levelQueues (s.group v) v (pos.priority (s.agingCursor v)), pr.done q' = true := by
  cases pr with simp only [probe, Prod.mk.injEq] at h
  | boundUnless | localUnless | localAgain | nvp =>
    obtain ⟨-, rfl, rfl⟩ := h
    refine .inl ⟨rfl, fun q' hq' hd => .inl ?_⟩
    simp only [levelQueues, List.mem_cons, List.not_mem_nil, or_false] at hq'
    rcases hq' with rfl | rfl | rfl <;> exact hd
  | ready | bound | loc =>
    obtain ⟨⟨rfl, hp, -⟩, rfl, rfl⟩ := h
    refine .inl ⟨rfl, fun q' hq' hd => ?_⟩
    simp only [levelQueues, List.mem_cons, List.not_mem_nil, or_false] at hq'
    rcases hq' with rfl | rfl | rfl <;>
      first
      | exact .inr ⟨rfl, queuePop_eq_none hp⟩
      | exact .inl hd
  | steal n offset =>
    obtain ⟨-, h⟩ := h
    have hdone : ∀ q' ∈ levelQueues (s.group v) v (pos.priority (s.agingCursor v)),
        (Probe.steal n offset).done q' = true := by
      simp [levelQueues, Probe.done]
    split at h
    · obtain ⟨rfl, rfl⟩ := Prod.mk.inj h
      exact .inl ⟨rfl, fun q' hq' _ => .inl (hdone q' hq')⟩
    · obtain ⟨rfl, rfl⟩ := Prod.mk.inj h
      exact .inr ⟨rfl, rfl, hdone⟩

/-- A step of the VP that does not end the selection. -/
theorem own_cases (hpc : (s.pc v).selecting = true) (h : vpStep s v [] = some (s', []))
    (hpc' : (s'.pc v).selecting = true) :
    (s'.agingCursor v = s.agingCursor v ∧ s'.priorityDispatches v = s.priorityDispatches v ∧
      s'.group v = s.group v ∧ s'.localBurst v = s.localBurst v) ∧
    ((∃ second, s.pc v = .tryNext second ∧ s'.pc v = .scan second (s.lastYielded v)
        (if priorityBurst ≤ s.priorityDispatches v then .aging 0 else .main 0) .boundUnless) ∨
      ∃ second avoid pos pr q burst pos' pr', s.pc v = .scan second avoid pos pr ∧ pos ≠ .main priorityLevels ∧
        probe s v avoid pos pr = ((q, none, burst), (pos', pr')) ∧ s'.pc v = .scan second avoid pos' pr') := by
  unfold VPc.selecting at hpc
  split at hpc
  · next second hp =>
    simp only [vpStep, hp, Option.some.injEq, Prod.mk.injEq, and_true] at h
    subst h
    exact ⟨⟨rfl, rfl, rfl, rfl⟩, .inl ⟨second, hp, Function.update_self ..⟩⟩
  · next second avoid pos pr hp =>
    simp only [vpStep, hp, Option.some.injEq, Prod.mk.injEq, and_true] at h
    unfold scanStep at h
    split at h
    · subst h
      simp [setPc, VPc.selecting] at hpc'
    · next hpos =>
      split at h
      · subst h
        simp [take, VPc.selecting] at hpc'
      · next q burst pos' pr' hprobe =>
        subst h
        exact ⟨⟨rfl, rfl, rfl, rfl⟩, .inr ⟨second, avoid, pos, pr, q, burst, pos', pr', hp, hpos, hprobe,
          Function.update_self ..⟩⟩
  · cases hpc

/-- The step that takes a task. -/
theorem take_cases {t : Nat} (hpc : (s.pc v).selecting = true) (h : vpStep s v [] = some (s', []))
    (ht : s'.pc v = .popped t) : ∃ second avoid pos pr q l burst next, s.pc v = .scan second avoid pos pr ∧
      pos ≠ .main priorityLevels ∧ probe s v avoid pos pr = ((q, some (t, l), burst), next) ∧
      s' = take s v pos q t l burst := by
  unfold VPc.selecting at hpc
  split at hpc
  · next second hp =>
    simp only [vpStep, hp, Option.some.injEq, Prod.mk.injEq, and_true] at h
    subst h
    simp [setPc] at ht
  · next second avoid pos pr hp =>
    simp only [vpStep, hp, Option.some.injEq, Prod.mk.injEq, and_true] at h
    unfold scanStep at h
    split at h
    · subst h
      simp [setPc] at ht
    · next hpos =>
      split at h
      · next q u l burst next hprobe =>
        subst h
        obtain rfl : u = t := by simpa [take] using ht
        exact ⟨second, avoid, pos, pr, q, l, burst, next, hp, hpos, hprobe, rfl⟩
      · subst h
        simp [setPc] at ht
  · cases hpc

/-! ## A selection -/

/-- The priorities that were tried without a task before a position. -/
def Pos.Passed (cursor dispatches : Nat) (pos : Pos) (r : Nat) : Prop :=
  match pos with
  | .aging offset => ∃ o < offset, r = (Pos.aging o).priority cursor
  | .main priority => r < priority ∨ priorityBurst ≤ dispatches ∧ 1 ≤ r ∧ r < priorityLevels

/-- The positions of the two loops. -/
def Pos.Valid (dispatches : Nat) : Pos → Prop
  | .aging offset => offset < priorityLevels - 1 ∧ priorityBurst ≤ dispatches
  | .main priority => priority ≤ priorityLevels

theorem Pos.passed_next {c d : Nat} {r : Nat} (hv : pos.Valid d) (h : pos.next.Passed c d r) :
    pos.Passed c d r ∨ r = pos.priority c := by
  cases pos with
  | aging offset =>
    by_cases hlast : offset + 1 < priorityLevels - 1
    · rw [Pos.next, if_pos hlast] at h
      obtain ⟨o, ho, rfl⟩ := h
      rcases Nat.lt_or_eq_of_le (Nat.le_of_lt_succ ho) with ho | rfl
      · exact .inl ⟨o, ho, rfl⟩
      · exact .inr rfl
    · -- the seven offsets reach every priority but 0
      rw [Pos.next, if_neg hlast] at h
      simp only [priorityLevels] at hlast
      obtain ⟨hoff, -⟩ := hv
      simp only [priorityLevels] at hoff
      simp only [Passed, priorityLevels] at h
      obtain h | ⟨-, h₁, h₂⟩ := h
      · omega
      have hr : r = 1 + (c - 1 + (r - 1 + 7 - (c - 1) % 7) % 7) % 7 := by omega
      have ho : (r - 1 + 7 - (c - 1) % 7) % 7 < 7 := Nat.mod_lt _ (by decide)
      by_cases he : (r - 1 + 7 - (c - 1) % 7) % 7 = offset
      · rw [he] at hr
        exact .inr hr
      · exact .inl ⟨_, by omega, hr⟩
  | main priority =>
    simp only [Pos.next, Passed] at h ⊢
    simp only [Pos.priority]
    omega

theorem Pos.valid_next {d : Nat} (hv : pos.Valid d) (hne : pos ≠ .main priorityLevels) : pos.next.Valid d := by
  cases pos with
  | aging offset =>
    by_cases hlast : offset + 1 < priorityLevels - 1
    · rw [Pos.next, if_pos hlast]
      exact ⟨hlast, hv.2⟩
    · rw [Pos.next, if_neg hlast]
      exact Nat.zero_le _
  | main priority =>
    simp only [Pos.next, Pos.Valid, ne_eq, Pos.main.injEq] at hv hne ⊢
    omega

namespace Selection

variable (x : Selection v)

theorem Observed.mono {n m : Nat} (h : x.Observed n q) (hle : n ≤ m) : x.Observed m q := by
  obtain ⟨i, hi, h⟩ := h
  exact ⟨i, Nat.lt_of_lt_of_le hi hle, h⟩

/-- What the VP has seen when it gets to a position. -/
structure Seen (n : Nat) (pos : Pos) (pr : Probe) : Prop where
  valid : pos.Valid ((x.states 0).priorityDispatches v)
  passed : ∀ r, pos.Passed ((x.states 0).agingCursor v) ((x.states 0).priorityDispatches v) r →
    ∀ q ∈ levelQueues ((x.states 0).group v) v r, x.Observed n q
  current : ∀ q ∈ levelQueues ((x.states 0).group v) v (pos.priority ((x.states 0).agingCursor v)),
    pr.done q = true → x.Observed n q

/-- The counters stay, and what lies before the position was seen. -/
structure ScanInv (n : Nat) : Prop where
  agingCursor : (x.states n).agingCursor v = (x.states 0).agingCursor v
  priorityDispatches : (x.states n).priorityDispatches v = (x.states 0).priorityDispatches v
  group : (x.states n).group v = (x.states 0).group v
  seen : ∀ second avoid pos pr, (x.states n).pc v = .scan second avoid pos pr → x.Seen n pos pr

theorem scanInv {n : Nat} (hn : n ≤ x.length) : x.ScanInv n := by
  induction n with
  | zero =>
    refine ⟨rfl, rfl, rfl, fun second avoid pos pr hpc => ?_⟩
    obtain ⟨b, hb⟩ := x.start
    rw [hb] at hpc
    cases hpc
  | succ n ih =>
    have hi := ih (by omega)
    rcases x.steps n (by omega) with ho | hown
    · refine ⟨ho.agingCursor.trans hi.agingCursor, ho.priorityDispatches.trans hi.priorityDispatches,
        ho.group.trans hi.group, fun second avoid pos pr hpc => ?_⟩
      obtain ⟨h₁, h₂, h₃⟩ := hi.seen second avoid pos pr (ho.pc ▸ hpc)
      exact ⟨h₁, fun r hr q hq => (h₂ r hr q hq).mono x (by omega), fun q hq hd => (h₃ q hq hd).mono x (by omega)⟩
    · obtain ⟨⟨hc, hd, hg, -⟩, hcase⟩ := own_cases (x.selecting n (by omega)) hown (x.selecting (n + 1) hn)
      refine ⟨hc.trans hi.agingCursor, hd.trans hi.priorityDispatches, hg.trans hi.group,
        fun second avoid pos pr hpc => ?_⟩
      rcases hcase with ⟨b, hb, hb'⟩ | ⟨second', avoid', pos', pr', q, burst, pos'', pr'', hp, hne, hprobe, hp'⟩
      · rw [hb', hi.priorityDispatches] at hpc
        obtain ⟨rfl, -, rfl, rfl⟩ := VPc.scan.inj hpc
        refine ⟨?_, fun r hr => ?_, fun q hq hdone => ?_⟩
        · split
          · exact ⟨by decide, by assumption⟩
          · exact Nat.zero_le _
        · split at hr
          · obtain ⟨o, ho, -⟩ := hr
            omega
          · next hlt =>
            rcases hr with hr | hr
            · omega
            · exact absurd hr.1 hlt
        · simp only [levelQueues, List.mem_cons, List.not_mem_nil, or_false] at hq
          rcases hq with rfl | rfl | rfl <;> cases hdone
      · rw [hp'] at hpc
        obtain ⟨-, -, rfl, rfl⟩ := VPc.scan.inj hpc
        obtain ⟨hvalid, hpassed, hcurrent⟩ := hi.seen _ _ _ _ hp
        have hkeep : ∀ q, x.Observed n q → x.Observed (n + 1) q := fun q hq => hq.mono x (by omega)
        have hnone := probe_none hprobe
        rw [hi.agingCursor, hi.group] at hnone
        rcases hnone with ⟨rfl, hdone⟩ | ⟨rfl, rfl, hall⟩
        · refine ⟨hvalid, fun r hr q hq => hkeep q (hpassed r hr q hq), fun q' hq' hd' => ?_⟩
          rcases hdone q' hq' hd' with hd' | ⟨rfl, hempty⟩
          · exact hkeep q' (hcurrent q' hq' hd')
          · exact ⟨n, by omega, hempty, hown, _, _, _, _, hp, by rw [hprobe]⟩
        · refine ⟨pos'.valid_next hvalid hne, fun r hr q hq => hkeep q ?_, fun q hq hd' => ?_⟩
          · rcases Pos.passed_next hvalid hr with hr | rfl
            · exact hpassed r hr q hq
            · exact hcurrent q hq (hall q hq)
          · simp only [levelQueues, List.mem_cons, List.not_mem_nil, or_false] at hq
            rcases hq with rfl | rfl | rfl <;> cases hd'

/-- How a selection ends: with a task in order of priority, or of an aged one. -/
inductive Outcome : Prop where
  | normal (aged : x.aged = false)
      (ordered : ∀ r < x.level, ∀ q ∈ levelQueues ((x.states 0).group v) v r, x.Observed x.length q)
      (skipped : priorityBurst ≤ (x.states 0).priorityDispatches v → ∀ r, 1 ≤ r → r < priorityLevels →
        ∀ q ∈ levelQueues ((x.states 0).group v) v r, x.Observed x.length q)
      (cursor : x.result.agingCursor v = (x.states 0).agingCursor v)
      (dispatches : x.result.priorityDispatches v = if (x.states 0).priorityDispatches v < uint32Max then
        (x.states 0).priorityDispatches v + 1 else (x.states 0).priorityDispatches v)
  | aged (aged : x.aged = true) (offset : Nat) (hoffset : offset < priorityLevels - 1)
      (burst : priorityBurst ≤ (x.states 0).priorityDispatches v)
      (level : x.level = (Pos.aging offset).priority ((x.states 0).agingCursor v))
      (skipped : ∀ o < offset, ∀ q ∈ levelQueues ((x.states 0).group v) v
        ((Pos.aging o).priority ((x.states 0).agingCursor v)), x.Observed x.length q)
      (cursor : x.result.agingCursor v = if priorityLevels ≤ x.level + 1 then 1 else x.level + 1)
      (dispatches : x.result.priorityDispatches v = 0)

theorem outcome : x.Outcome := by
  obtain ⟨second, avoid, pos, pr, q, l, burst, next, hpc, hne, -, hresult⟩ :=
    take_cases (x.selecting x.length (Nat.le_refl _)) x.last x.popped
  obtain ⟨hc, hd, hg, hseen⟩ := x.scanInv (Nat.le_refl _)
  obtain ⟨hvalid, hpassed, -⟩ := hseen second avoid pos pr hpc
  have hpos : x.pos = pos := by simp only [Selection.pos, hpc]
  have hlevel : x.level = pos.priority ((x.states 0).agingCursor v) := by rw [Selection.level, hpos, hc]
  cases pos with
  | main priority =>
    have hpriority : x.level = priority := hlevel
    refine .normal (by rw [Selection.aged, hpos]) (fun r hr => hpassed r (.inl (hpriority ▸ hr)))
      (fun hb r h₁ h₂ => hpassed r (.inr ⟨hb, h₁, h₂⟩)) ?_ ?_
    · rw [hresult, ← hc]
      rfl
    · rw [hresult, ← hd]
      exact Function.update_self ..
  | aging offset =>
    refine .aged (by rw [Selection.aged, hpos]) offset hvalid.1 hvalid.2 hlevel
      (fun o ho => hpassed _ ⟨o, ho, rfl⟩) ?_ ?_
    · rw [hresult, hlevel, ← hc]
      exact Function.update_self ..
    · rw [hresult]
      exact Function.update_self ..

/-- A queue that is never empty is not seen empty. -/
theorem not_observed {p : Nat} (h : x.Ready p) :
    ∃ q ∈ levelQueues ((x.states 0).group v) v p, ¬ x.Observed x.length q := by
  obtain ⟨q, hq, hne⟩ := h
  refine ⟨q, hq, ?_⟩
  rintro ⟨i, hi, hempty, -⟩
  exact hne i (Nat.le_of_lt hi) hempty

end Selection

/-! ## Sequences of selections -/

/-- How many selections may come before one of priority `p`. -/
def remaining (p cursor dispatches : Nat) : Nat :=
  65 * ((p + 7 - cursor) % 7) + (64 - min dispatches 64) + 1

/-- The cursor after a task of an aged priority was taken. -/
theorem cursor_next {p : Nat} (hp : 1 ≤ p) (hp' : p ≤ 7) :
    (if priorityLevels ≤ p + 1 then 1 else p + 1) = p % 7 + 1 := by
  unfold priorityLevels
  split <;> omega

theorem remaining_le (p c d : Nat) : remaining p c d ≤ 455 := by
  unfold remaining
  omega

/-- A selection of another priority brings that of `p` closer, if it is ready. -/
theorem Selection.remaining_lt (x : Selection v) {p : Nat} (hp : 1 ≤ p) (hp' : p ≤ 7)
    (hc : 1 ≤ (x.states 0).agingCursor v) (hc' : (x.states 0).agingCursor v ≤ 7) (hr : x.Ready p) (hne : x.level ≠ p) :
    remaining p (x.result.agingCursor v) (x.result.priorityDispatches v) <
      remaining p ((x.states 0).agingCursor v) ((x.states 0).priorityDispatches v) := by
  obtain ⟨q, hq, hobs⟩ := x.not_observed hr
  cases x.outcome with
  | normal _ _ skipped cursor dispatches =>
    have hlt : ¬ priorityBurst ≤ (x.states 0).priorityDispatches v := fun hb =>
      hobs (skipped hb p hp (Nat.lt_succ_of_le hp') q hq)
    simp only [priorityBurst] at hlt
    rw [cursor, dispatches, if_pos (by unfold uint32Max; omega)]
    unfold remaining
    omega
  | aged _ offset hoffset burst level skipped cursor dispatches =>
    -- the priority `p` is not among those that were skipped
    have hskip : ∀ o < offset, (Pos.aging o).priority ((x.states 0).agingCursor v) ≠ p := fun o ho he =>
      hobs (skipped o ho q (he ▸ hq))
    have hpriority : (Pos.aging offset).priority ((x.states 0).agingCursor v) =
        1 + ((x.states 0).agingCursor v - 1 + offset) % 7 := rfl
    rw [level] at hne cursor
    rw [cursor, dispatches, hpriority, cursor_next (by omega) (by omega)]
    rw [hpriority] at hne
    simp only [Pos.priority, priorityLevels, priorityBurst] at hoffset burst hskip
    generalize (x.states 0).agingCursor v = c at *
    generalize (x.states 0).priorityDispatches v = d at *
    have hdist : 1 + (c - 1 + (p + 7 - c) % 7) % 7 = p := by omega
    have hle : offset ≤ (p + 7 - c) % 7 := by
      by_contra hlt
      exact hskip _ (by omega) hdist
    have hlt : offset < (p + 7 - c) % 7 := by
      refine Nat.lt_of_le_of_ne hle ?_
      rintro rfl
      exact hne hdist
    unfold remaining
    omega

theorem Selection.cursor_mem (x : Selection v) (hc : 1 ≤ (x.states 0).agingCursor v)
    (hc' : (x.states 0).agingCursor v ≤ 7) : 1 ≤ x.result.agingCursor v ∧ x.result.agingCursor v ≤ 7 := by
  cases x.outcome with
  | normal _ _ _ cursor _ =>
    rw [cursor]
    exact ⟨hc, hc'⟩
  | aged _ offset _ _ level _ cursor _ =>
    have hpriority : (Pos.aging offset).priority ((x.states 0).agingCursor v) =
        1 + ((x.states 0).agingCursor v - 1 + offset) % 7 := rfl
    rw [cursor, level, hpriority, cursor_next (by omega) (by omega)]
    omega

/-- Of 455 selections, each with a queue of priority `p` that is not empty, one takes a task of priority `p`. -/
theorem exists_level (x : Nat → Selection v) {p : Nat} (hp : 1 ≤ p) (hp' : p ≤ 7)
    (hc : 1 ≤ ((x 0).states 0).agingCursor v) (hc' : ((x 0).states 0).agingCursor v ≤ 7)
    (hb : ∀ i, i + 1 < 455 → Between v (x i).result ((x (i + 1)).states 0)) (hr : ∀ i < 455, (x i).Ready p) :
    ∃ i < 455, (x i).level = p := by
  by_contra hno
  have hne : ∀ i < 455, (x i).level ≠ p := fun i hi he => hno ⟨i, hi, he⟩
  let left := fun i => remaining p (((x i).states 0).agingCursor v) (((x i).states 0).priorityDispatches v)
  -- each selection brings the next one of priority `p` closer
  have hrun : ∀ i < 455, (1 ≤ ((x i).states 0).agingCursor v ∧ ((x i).states 0).agingCursor v ≤ 7) ∧
      left i + i ≤ left 0 := by
    intro i
    induction i with
    | zero => exact fun _ => ⟨⟨hc, hc'⟩, Nat.le_refl _⟩
    | succ i ih =>
      intro hi
      obtain ⟨⟨h₁, h₂⟩, hle⟩ := ih (by omega)
      have hlt := (x i).remaining_lt hp hp' h₁ h₂ (hr i (by omega)) (hne i (by omega))
      have hmem := (x i).cursor_mem h₁ h₂
      obtain ⟨hd, hcur⟩ := hb i hi
      rw [← hcur] at hmem hlt
      rw [← hd] at hlt
      have hleft : left (i + 1) < left i := hlt
      exact ⟨hmem, by omega⟩
  obtain ⟨⟨h₁, h₂⟩, hle⟩ := hrun 454 (by decide)
  have hlt : remaining p ((x 454).result.agingCursor v) ((x 454).result.priorityDispatches v) < left 454 :=
    (x 454).remaining_lt hp hp' h₁ h₂ (hr 454 (by decide)) (hne 454 (by decide))
  have hmax : left 0 ≤ 455 := remaining_le _ _ _
  have hpos : 0 < remaining p ((x 454).result.agingCursor v) ((x 454).result.priorityDispatches v) := Nat.succ_pos _
  omega

/-! ## Selections in runs of the runtime -/

/-- An operation of a call leaves the counters of all VPs alone. -/
theorem execOp_counters {a : Actor} {o : Op} {r : State × List Op} (h : execOp s a o = some r) :
    r.1.group = s.group ∧ r.1.localBurst = s.localBurst ∧ r.1.priorityDispatches = s.priorityDispatches ∧
      r.1.agingCursor = s.agingCursor ∧ r.1.lastYielded = s.lastYielded := by
  cases o <;>
    simp only [execOp, idleWake, idleWakeSection, unparkSection, makeReady, groupScan, gtWait, gtStart] at h
  all_goals repeat' split at h
  all_goals cases h
  all_goals exact ⟨rfl, rfl, rfl, rfl, rfl⟩

theorem Others.trans {s₁ s₂ s₃ : State} (h : Others v s₁ s₂) (h' : Others v s₂ s₃) : Others v s₁ s₃ :=
  ⟨h'.pc.trans h.pc, h'.group.trans h.group, h'.localBurst.trans h.localBurst,
    h'.priorityDispatches.trans h.priorityDispatches, h'.agingCursor.trans h.agingCursor,
    h'.lastYielded.trans h.lastYielded⟩

theorem others_setOps (s : State) (v : Nat) (a : Actor) (l : List Op) : Others v s (setOps s a l) :=
  ⟨rfl, rfl, rfl, rfl, rfl, rfl⟩

/-- The scheduler loop of another VP. -/
theorem others_vpStep {w : Nat} (hw : v ≠ w) {ws : List Nat} {r : State × List Op} (h : vpStep s w ws = some r) :
    Others v s r.1 := by
  have hne : ∀ {β : Type} (f : Nat → β) (x : β), Function.update f w x v = f v := fun f x =>
    Function.update_of_ne hw x f
  cases hpc : s.pc w with
  | off | run | exited => simp [vpStep, hpc] at h
  | scan second avoid pos pr =>
    simp only [vpStep, hpc, scanStep, Option.some.injEq] at h
    subst h
    dsimp only
    repeat' split
    · exact ⟨hne .., rfl, rfl, rfl, rfl, rfl⟩
    · refine ⟨hne .., rfl, hne .., hne .., ?_, rfl⟩
      simp only [take]
      split
      · exact hne ..
      · rfl
    · exact ⟨hne .., rfl, rfl, rfl, rfl, rfl⟩
  | switch t tr =>
    obtain ⟨-, ⟨-, rfl⟩ | ⟨-, rfl⟩ | ⟨-, -, rfl⟩⟩ := vpStep_switch hpc h
    · exact ⟨hne .., rfl, rfl, rfl, rfl, hne ..⟩
    · unfold rtPark
      split <;> exact ⟨hne .., rfl, rfl, rfl, rfl, rfl⟩
    · exact ⟨hne .., rfl, rfl, rfl, rfl, rfl⟩
  | tryNext second =>
    simp only [vpStep, hpc, Option.some.injEq] at h
    subst h
    exact ⟨hne .., rfl, rfl, rfl, rfl, hne ..⟩
  | _ =>
    simp only [vpStep, hpc] at h
    repeat' split at h
    all_goals cases h
    all_goals exact ⟨hne .., rfl, rfl, rfl, rfl, rfl⟩

/-- An operation of a call creates at most a VP whose thread does not run. -/
theorem others_op (hv : VpsOk s) (hst : StartOk s) (hpc : s.pc v ≠ .off) {a : Actor} {o : Op} {l : List Op}
    (ho : s.ops a = o :: l) {r : State × List Op} (h : execOp s a o = some r) : Others v s r.1 := by
  obtain ⟨hg, hb, hd, hc, hl⟩ := execOp_counters h
  have hm : o ∈ s.ops a := by simp [ho]
  have hp : r.1.pc v = s.pc v := by
    cases o with
    | startVp n i b =>
      have hoff := (hst.starting a n i b hm).2
      simp only [execOp] at h
      split at h <;> cases h
      · refine Function.update_of_ne ?_ _ _
        rintro rfl
        exact hpc (hoff v (Nat.le_refl v))
      · rfl
    | addCreate w g =>
      obtain ⟨rfl, -⟩ := hv.adding a w g (.inl hm)
      cases h
      refine Function.update_of_ne ?_ _ _
      rintro rfl
      rcases hv.lt_nvp_of_head ho rfl hpc with hlt | ⟨g', hg'⟩
      · exact Nat.lt_irrefl _ hlt
      · cases hg'
    | addPublish w g =>
      simp only [execOp] at h
      split at h <;> cases h <;> rfl
    | start b =>
      rcases gtStart_eq_some h with rfl | ⟨-, -, -, -, rfl⟩ | ⟨-, -, -, rfl⟩ <;> rfl
    | unlockRt =>
      cases h
      rfl
    | _ =>
      obtain ⟨-, hp, -⟩ := execOp_sameVps h rfl (by simp)
      rw [hp]
  exact ⟨hp, by rw [hg], by rw [hb], by rw [hd], by rw [hc], by rw [hl]⟩

/-- A call initializes at most the VP it adds. -/
theorem others_call (hv : VpsOk s) (hpc : s.pc v ≠ .off) {a : Actor} {x : Act} {r : State × List Op}
    (h : Calls s a r x) : Others v s r.1 := by
  cases x with
  | addVp b g =>
    obtain ⟨rfl, hr⟩ := h
    rcases runtimeAddVp_eq_some hr with rfl | ⟨hl, -, -, rfl⟩
    · exact ⟨rfl, rfl, rfl, rfl, rfl, rfl⟩
    · have hne : ∀ {β : Type} (f : Nat → β) (x : β), Function.update f s.nvp x v = f v := fun f x =>
        Function.update_of_ne (Nat.ne_of_lt (hv.lt_nvp hl hpc)) x f
      exact ⟨rfl, hne .., rfl, rfl, hne .., rfl⟩
  | spawn b t p g w =>
    obtain ⟨rfl, hr⟩ := h
    simp only [gtSpawnEx] at hr
    repeat' split at hr
    all_goals cases hr
    all_goals exact ⟨rfl, rfl, rfl, rfl, rfl, rfl⟩
  | stop b =>
    obtain ⟨rfl, hr⟩ := h
    simp only [gtStop] at hr
    repeat' split at hr
    all_goals cases hr
    all_goals exact ⟨rfl, rfl, rfl, rfl, rfl, rfl⟩
  | run x =>
    obtain ⟨rfl, hr⟩ := h
    simp only [gtRun] at hr
    repeat' split at hr
    all_goals cases hr
    all_goals exact ⟨rfl, rfl, rfl, rfl, rfl, rfl⟩
  | unpark b t =>
    obtain ⟨-, -, -, rfl⟩ := h
    exact ⟨rfl, rfl, rfl, rfl, rfl, rfl⟩
  | start x | wait x =>
    obtain ⟨-, rfl⟩ := h
    exact ⟨rfl, rfl, rfl, rfl, rfl, rfl⟩
  | leave | op | vp => cases h

/-- Every step is one of others, one of the scheduler loop of `v`, or its task leaves. -/
theorem step_others (hv : VpsOk s) (hst : StartOk s) (hpc : s.pc v ≠ .off) {x : Act} (h : step s x = some s') :
    Others v s s' ∨ (∃ t tr, s.pc v = .run t ∧ s' = setPc s v (.switch t tr)) ∨
      ∃ ws r, s.ops (.vp v) = [] ∧ vpStep s v ws = some r ∧ s' = setOps r.1 (.vp v) r.2 := by
  obtain ⟨a, r, -, hr, rfl⟩ | ⟨w, tr, t, rfl, -, hp, rfl⟩ | ⟨a, o, l, r, rfl, ho, hr, rfl⟩ |
    ⟨w, ws, r, rfl, ho, -, hr, rfl⟩ := step_cases h
  · exact .inl ((others_call hv hpc hr).trans (others_setOps ..))
  · by_cases e : v = w
    · subst e
      exact .inr (.inl ⟨t, tr, hp, rfl⟩)
    · exact .inl ⟨Function.update_of_ne e _ _, rfl, rfl, rfl, rfl, rfl⟩
  · exact .inl ((others_op hv hst hpc ho hr).trans (others_setOps ..))
  · by_cases e : v = w
    · subst e
      exact .inr (.inr ⟨ws, r, ho, hr, rfl⟩)
    · exact .inl ((others_vpStep e hr).trans (others_setOps ..))

/-- In `vp_try_next`, the VP calls nobody. -/
theorem vpStep_selecting {ws : List Nat} {r : State × List Op} (hpc : (s.pc v).selecting = true)
    (h : vpStep s v ws = some r) : vpStep s v [] = some (r.1, []) ∧ r.2 = [] := by
  unfold VPc.selecting at hpc
  split at hpc
  · next hp =>
    simp only [vpStep, hp, Option.some.injEq] at h ⊢
    subst h
    exact ⟨rfl, rfl⟩
  · next hp =>
    simp only [vpStep, hp, Option.some.injEq] at h ⊢
    subst h
    exact ⟨rfl, rfl⟩
  · cases hpc

/-- The steps of a run during `vp_try_next` are those of a selection. -/
theorem step_selecting (hv : VpsOk s) (hst : StartOk s) (hpc : (s.pc v).selecting = true) {x : Act}
    (h : step s x = some s') : Others v s s' ∨ vpStep s v [] = some (s', []) := by
  have hoff : s.pc v ≠ .off := by
    intro e
    simp [e, VPc.selecting] at hpc
  rcases step_others hv hst hoff h with ho | ⟨t, tr, hp, -⟩ | ⟨ws, r, hops, hr, rfl⟩
  · exact .inl ho
  · simp [hp, VPc.selecting] at hpc
  · obtain ⟨hr', hnil⟩ := vpStep_selecting hpc hr
    have hsame : setOps r.1 (.vp v) r.2 = r.1 := by
      rw [hnil, ← hops, ← (vpStep_sameVps hr).1.ops]
      simp only [setOps, Function.update_eq_self]
    rw [hsame]
    exact .inr hr'

/-- The scheduler loop changes the counters when it takes a task. -/
theorem vpStep_counters {ws : List Nat} {r : State × List Op} (h : vpStep s v ws = some r) :
    Between v s r.1 ∨ (s.pc v).selecting = true ∧ ∃ pos q t l burst, r.1 = take s v pos q t l burst := by
  cases hpc : s.pc v with
  | off | run | exited => simp [vpStep, hpc] at h
  | scan second avoid pos pr =>
    simp only [vpStep, hpc, scanStep, Option.some.injEq] at h
    subst h
    dsimp only
    split
    · exact .inl ⟨rfl, rfl⟩
    · split
      · exact .inr ⟨rfl, _, _, _, _, _, rfl⟩
      · exact .inl ⟨rfl, rfl⟩
  | switch t tr =>
    obtain ⟨-, ⟨-, rfl⟩ | ⟨-, rfl⟩ | ⟨-, -, rfl⟩⟩ := vpStep_switch hpc h
    · exact .inl ⟨rfl, rfl⟩
    · unfold rtPark
      split <;> exact .inl ⟨rfl, rfl⟩
    · exact .inl ⟨rfl, rfl⟩
  | _ =>
    simp only [vpStep, hpc] at h
    repeat' split at h
    all_goals cases h
    all_goals exact .inl ⟨rfl, rfl⟩

/-- A step of a run that takes no task of `v` leaves its counters alone. -/
theorem step_between (hv : VpsOk s) (hst : StartOk s) (hpc : s.pc v ≠ .off) {x : Act} (h : step s x = some s')
    (hno : ∀ t, (s.pc v).selecting = true → s'.pc v ≠ .popped t) : Between v s s' := by
  rcases step_others hv hst hpc h with ho | ⟨t, tr, -, rfl⟩ | ⟨ws, r, -, hr, rfl⟩
  · exact ⟨ho.priorityDispatches, ho.agingCursor⟩
  · exact ⟨rfl, rfl⟩
  · rcases vpStep_counters hr with hb | ⟨hsel, pos, q, t, l, burst, htake⟩
    · exact ⟨hb.priorityDispatches, hb.agingCursor⟩
    · exact absurd (by simp [htake, setOps, take]) (hno t hsel)

/-- The cursor after VP `v` took a task. -/
theorem cursor_take {t : Nat} {l : List Nat} (hc : 1 ≤ s.agingCursor v ∧ s.agingCursor v ≤ 7) :
    1 ≤ (take s v pos q t l burst).agingCursor v ∧ (take s v pos q t l burst).agingCursor v ≤ 7 := by
  cases pos with
  | main priority => exact hc
  | aging offset =>
    have hpriority : (Pos.aging offset).priority (s.agingCursor v) = 1 + (s.agingCursor v - 1 + offset) % 7 := rfl
    simp only [take, Function.update_self]
    rw [hpriority, cursor_next (by omega) (by omega)]
    omega

/-- `dlsm_gt_runtime_add_vp` gives the VP it adds its first cursor. -/
theorem calls_agingCursor {a : Actor} {x : Act} {r : State × List Op} (h : Calls s a r x) :
    r.1.agingCursor = s.agingCursor ∨ ∃ w, r.1.agingCursor = Function.update s.agingCursor w 1 := by
  cases x with
  | addVp b g =>
    obtain ⟨rfl, hr⟩ := h
    rcases runtimeAddVp_eq_some hr with rfl | ⟨-, -, -, rfl⟩
    · exact .inl rfl
    · exact .inr ⟨_, rfl⟩
  | spawn b t p g w =>
    obtain ⟨rfl, hr⟩ := h
    obtain ⟨-, rfl | ⟨-, -, -, rfl⟩⟩ := gtSpawnEx_eq_some hr <;> exact .inl rfl
  | stop b =>
    obtain ⟨rfl, hr⟩ := h
    simp only [gtStop] at hr
    repeat' split at hr
    all_goals cases hr
    all_goals exact .inl rfl
  | run x =>
    obtain ⟨rfl, hr⟩ := h
    simp only [gtRun] at hr
    repeat' split at hr
    all_goals cases hr
    all_goals exact .inl rfl
  | unpark b t =>
    obtain ⟨-, -, -, rfl⟩ := h
    exact .inl rfl
  | start x | wait x =>
    obtain ⟨-, rfl⟩ := h
    exact .inl rfl
  | leave | op | vp => cases h

theorem cursor_step (hi : ∀ v, 1 ≤ s.agingCursor v ∧ s.agingCursor v ≤ 7) {x : Act} (h : step s x = some s') (v : Nat) :
    1 ≤ s'.agingCursor v ∧ s'.agingCursor v ≤ 7 := by
  obtain ⟨a, r, -, hcall, rfl⟩ | ⟨w, tr, t, rfl, -, -, rfl⟩ | ⟨a, o, l, r, rfl, -, hop, rfl⟩ |
    ⟨w, ws, r, rfl, -, -, hvp, rfl⟩ := step_cases h
  · change 1 ≤ r.1.agingCursor v ∧ r.1.agingCursor v ≤ 7
    rcases calls_agingCursor hcall with hc | ⟨w, hc⟩ <;> rw [hc]
    · exact hi v
    · by_cases e : v = w
      · subst e
        simp
      · rw [Function.update_of_ne e]
        exact hi v
  · exact hi v
  · change 1 ≤ r.1.agingCursor v ∧ r.1.agingCursor v ≤ 7
    obtain ⟨-, -, -, hc, -⟩ := execOp_counters hop
    rw [hc]
    exact hi v
  · change 1 ≤ r.1.agingCursor v ∧ r.1.agingCursor v ≤ 7
    by_cases e : v = w
    · subst e
      rcases vpStep_counters hvp with hb | ⟨-, pos, q, t, l, burst, htake⟩
      · rw [hb.agingCursor]
        exact hi v
      · rw [htake]
        exact cursor_take (hi v)
    · rw [(others_vpStep e hvp).agingCursor]
      exact hi v

theorem cursor_of_reach (h : machine.Reach s) (v : Nat) : 1 ≤ s.agingCursor v ∧ s.agingCursor v ≤ 7 := by
  refine Machine.Reach.invariant (I := fun s => ∀ v, 1 ≤ s.agingCursor v ∧ s.agingCursor v ≤ 7) ?_ ?_ h v
  · rintro s ⟨groups, -, -, rfl⟩ v
    exact ⟨Nat.le_refl 1, by simp [State.initial]⟩
  · intro s s' x _ hi hs
    exact cursor_step hi hs

/-! ## Dispatches of a run -/

/-- A VP that was created stays. -/
theorem step_pc_ne_off (hv : VpsOk s) (hst : StartOk s) (hpc : s.pc v ≠ .off) {x : Act} (h : step s x = some s') :
    s'.pc v ≠ .off := by
  rcases step_others hv hst hpc h with ho | ⟨t, tr, -, rfl⟩ | ⟨ws, r, -, hr, rfl⟩
  · rw [ho.pc]
    exact hpc
  · simp [setPc]
  · exact (vpStep_sameVps hr).2.2.2.1

/-- The first `n` tasks that VP `v` takes in a run, from some time on: it enters
`vp_try_next` for task `i` at `b i` and takes it in step `e i`. In between it may
fail to find a task. -/
structure Dispatches (v : Nat) (σ : Nat → State) (b e : Nat → Nat) (n : Nat) : Prop where
  reach : machine.Reach (σ 0)
  steps : ∀ i < n, ∀ k ≤ e i, ∃ a, step (σ k) a = some (σ (k + 1))
  start : ∀ i < n, ∃ second, (σ (b i)).pc v = .tryNext second
  le : ∀ i < n, b i ≤ e i
  selecting : ∀ i < n, ∀ k, b i ≤ k → k ≤ e i → ((σ k).pc v).selecting = true
  popped : ∀ i < n, ∃ t, (σ (e i + 1)).pc v = .popped t
  next : ∀ i, i + 1 < n → e i < b (i + 1)
  between : ∀ i, i + 1 < n → ∀ k, e i < k → k < b (i + 1) → ∀ t, ((σ k).pc v).selecting = true →
    (σ (k + 1)).pc v ≠ .popped t

namespace Dispatches

variable {σ : Nat → State} {b e : Nat → Nat} {n : Nat}

theorem reach_at (h : Dispatches v σ b e n) {i : Nat} (hi : i < n) {k : Nat} (hk : k ≤ e i + 1) :
    machine.Reach (σ k) := by
  induction k with
  | zero => exact h.reach
  | succ k ih =>
    obtain ⟨a, ha⟩ := h.steps i hi k (by omega)
    exact .step (ih (by omega)) ha

theorem selection (h : Dispatches v σ b e n) {i : Nat} (hi : i < n) :
    ∃ x : Selection v, (∀ k, x.states k = σ (b i + k)) ∧ x.length = e i - b i ∧ x.result = σ (e i + 1) := by
  have hle := h.le i hi
  have hstep : ∀ k ≤ e i, b i ≤ k → Others v (σ k) (σ (k + 1)) ∨ vpStep (σ k) v [] = some (σ (k + 1), []) := by
    intro k hk hb
    obtain ⟨a, ha⟩ := h.steps i hi k hk
    obtain ⟨hv, hst⟩ := reach_vpsOk (h.reach_at hi (Nat.le_succ_of_le hk))
    exact step_selecting hv hst (h.selecting i hi k hb hk) ha
  obtain ⟨t, ht⟩ := h.popped i hi
  refine ⟨⟨fun k => σ (b i + k), e i - b i, h.start i hi, fun k hk => hstep _ (by omega) (by omega),
    fun k hk => h.selecting i hi _ (by omega) (by omega), σ (e i + 1), t, ?_, ht⟩, fun k => rfl, rfl, rfl⟩
  rw [Nat.add_sub_cancel' hle]
  rcases hstep (e i) (Nat.le_refl _) hle with ho | hown
  · have hsel := h.selecting i hi (e i) hle (Nat.le_refl _)
    rw [← ho.pc, ht] at hsel
    cases hsel
  · exact hown

theorem between_selections (h : Dispatches v σ b e n) {i : Nat} (hi : i + 1 < n) :
    Between v (σ (e i + 1)) (σ (b (i + 1))) := by
  have hnext := h.next i hi
  have hle := h.le (i + 1) hi
  have hrun : ∀ k, e i + 1 + k ≤ b (i + 1) →
      Between v (σ (e i + 1)) (σ (e i + 1 + k)) ∧ (σ (e i + 1 + k)).pc v ≠ .off := by
    intro k
    induction k with
    | zero =>
      obtain ⟨t, ht⟩ := h.popped i (by omega)
      exact fun _ => ⟨⟨rfl, rfl⟩, by simp [ht]⟩
    | succ k ih =>
      intro hk
      obtain ⟨hb, hoff⟩ := ih (by omega)
      obtain ⟨a, ha⟩ := h.steps (i + 1) hi (e i + 1 + k) (by omega)
      obtain ⟨hv, hst⟩ := reach_vpsOk (h.reach_at hi (k := e i + 1 + k) (by omega))
      have hs := step_between hv hst hoff ha (h.between i hi _ (by omega) (by omega))
      exact ⟨⟨hs.priorityDispatches.trans hb.priorityDispatches, hs.agingCursor.trans hb.agingCursor⟩,
        step_pc_ne_off hv hst hoff ha⟩
  have hb := (hrun (b (i + 1) - (e i + 1)) (by omega)).1
  rwa [show e i + 1 + (b (i + 1) - (e i + 1)) = b (i + 1) by omega] at hb

end Dispatches

/-! ## The bound -/

/-- The task is the first of a queue of the priority of the selection. -/
theorem Selection.taken (x : Selection v) :
    ∃ q l, q.priority = x.level ∧ (x.states x.length).queue q = x.task :: l := by
  obtain ⟨second, avoid, pos, pr, q, l, burst, next, hpc, -, hprobe, -⟩ :=
    take_cases (x.selecting x.length (Nat.le_refl _)) x.last x.popped
  obtain ⟨hpriority, hqueue⟩ := probe_some hprobe
  have hpos : x.pos = pos := by simp only [Selection.pos, hpc]
  exact ⟨q, l, by rw [Selection.level, hpos, hpriority], hqueue⟩

theorem Selection.ordered (x : Selection v) (ha : x.aged = false) :
    ∀ r < x.level, ∀ q ∈ levelQueues ((x.states 0).group v) v r, x.Observed x.length q := by
  cases x.outcome with
  | normal _ ordered _ _ _ => exact ordered
  | aged haged _ _ _ _ _ _ _ => simp [ha] at haged

/-- In a run, the task has the priority of the selection. -/
theorem Selection.task_priority (x : Selection v) (h : machine.Reach (x.states x.length)) :
    (x.states x.length).priority x.task = x.level := by
  obtain ⟨q, l, hpriority, hqueue⟩ := x.taken
  rw [← hpriority]
  exact ((placement h).own_priority q x.task (by rw [hqueue]; exact List.mem_cons_self)).symm

theorem Dispatches.exists_priority {σ : Nat → State} {b e : Nat → Nat} (h : Dispatches v σ b e 455) {p : Nat}
    (hp : 1 ≤ p) (hp' : p ≤ 7) (hr : ∀ i < 455, ∃ q ∈ levelQueues ((σ (b i)).group v) v p,
      ∀ k, b i ≤ k → k ≤ e i → (σ k).queue q ≠ []) :
    ∃ i < 455, ∃ t, (σ (e i + 1)).pc v = .popped t ∧ (σ (e i)).priority t = p := by
  have hex : ∀ i, ∃ x : Selection v, i < 455 →
      (∀ k, x.states k = σ (b i + k)) ∧ x.length = e i - b i ∧ x.result = σ (e i + 1) := by
    intro i
    by_cases hi : i < 455
    · obtain ⟨x, hx⟩ := h.selection hi
      exact ⟨x, fun _ => hx⟩
    · obtain ⟨x, -⟩ := h.selection (i := 0) (by decide)
      exact ⟨x, fun hi' => absurd hi' hi⟩
  choose x hx using hex
  have hstart : ∀ i < 455, (x i).states 0 = σ (b i) := fun i hi => (hx i hi).1 0
  have hcursor : 1 ≤ ((x 0).states 0).agingCursor v ∧ ((x 0).states 0).agingCursor v ≤ 7 := by
    have hle := h.le 0 (by decide)
    rw [hstart 0 (by decide)]
    exact cursor_of_reach (h.reach_at (i := 0) (by decide) (by omega)) v
  have hbetween : ∀ i, i + 1 < 455 → Between v (x i).result ((x (i + 1)).states 0) := by
    intro i hi
    rw [(hx i (by omega)).2.2, hstart (i + 1) hi]
    exact h.between_selections hi
  have hready : ∀ i < 455, (x i).Ready p := by
    intro i hi
    obtain ⟨hstates, hlength, -⟩ := hx i hi
    obtain ⟨q, hq, hne⟩ := hr i hi
    have hle := h.le i hi
    rw [← hstart i hi] at hq
    refine ⟨q, hq, fun k hk => ?_⟩
    rw [hstates]
    exact hne _ (by omega) (by omega)
  obtain ⟨i, hi, hlevel⟩ := exists_level x hp hp' hcursor.1 hcursor.2 hbetween hready
  obtain ⟨hstates, hlength, hresult⟩ := hx i hi
  have hend : (x i).states (x i).length = σ (e i) := by
    rw [hstates, hlength, Nat.add_sub_cancel' (h.le i hi)]
  have hpriority := (x i).task_priority (hend ▸ h.reach_at hi (Nat.le_succ _))
  rw [hend, hlevel] at hpriority
  exact ⟨i, hi, (x i).task, hresult ▸ (x i).popped, hpriority⟩

/-- Aging bounds how long VP `v` bypasses a priority. -/
structure AgingBounds (v : Nat) : Prop where
  /-- Of `7 * (DLSM_GT_PRIORITY_BURST + 1)` selections one after the other, each
  with a queue of priority `p` that is not empty, one takes a task of priority `p`. -/
  bypass : ∀ (x : Nat → Selection v) (p : Nat), 1 ≤ p → p ≤ 7 →
    1 ≤ ((x 0).states 0).agingCursor v → ((x 0).states 0).agingCursor v ≤ 7 →
    (∀ i, i + 1 < 7 * (priorityBurst + 1) → Between v (x i).result ((x (i + 1)).states 0)) →
    (∀ i < 7 * (priorityBurst + 1), (x i).Ready p) → ∃ i < 7 * (priorityBurst + 1), (x i).level = p
  /-- The task is the first of a queue of that priority. -/
  taken : ∀ x : Selection v, ∃ q l, q.priority = x.level ∧ (x.states x.length).queue q = x.task :: l
  /-- A selection that does not age has seen the queues of the priorities before its own empty. -/
  ordered : ∀ x : Selection v, x.aged = false →
    ∀ r < x.level, ∀ q ∈ levelQueues ((x.states 0).group v) v r, x.Observed x.length q
  cursor : ∀ x : Selection v, 1 ≤ (x.states 0).agingCursor v → (x.states 0).agingCursor v ≤ 7 →
    (∀ i ≤ x.length, 1 ≤ (x.states i).agingCursor v ∧ (x.states i).agingCursor v ≤ 7) ∧
      1 ≤ x.result.agingCursor v ∧ x.result.agingCursor v ≤ 7
  cursor_of_reach : ∀ s, machine.Reach s → 1 ≤ s.agingCursor v ∧ s.agingCursor v ≤ 7
  /-- In a run of the runtime, the steps while the VP selects are those of a selection, … -/
  selecting : ∀ s s' a, machine.Reach s → (s.pc v).selecting = true → step s a = some s' →
    Others v s s' ∨ vpStep s v [] = some (s', [])
  /-- … and those that take no task leave its counters alone, … -/
  between : ∀ s s' a, machine.Reach s → s.pc v ≠ .off → step s a = some s' →
    (∀ t, (s.pc v).selecting = true → s'.pc v ≠ .popped t) → Between v s s'
  /-- … so of as many tasks it takes in a run, one has the priority that waits. -/
  dispatches : ∀ σ b e p, 1 ≤ p → p ≤ 7 → Dispatches v σ b e (7 * (priorityBurst + 1)) →
    (∀ i < 7 * (priorityBurst + 1), ∃ q ∈ levelQueues ((σ (b i)).group v) v p,
      ∀ k, b i ≤ k → k ≤ e i → (σ k).queue q ≠ []) →
    ∃ i < 7 * (priorityBurst + 1), ∃ t, (σ (e i + 1)).pc v = .popped t ∧ (σ (e i)).priority t = p

theorem agingBounds (v : Nat) : AgingBounds v where
  bypass x p hp hp' hc hc' hb hr := exists_level x hp hp' hc hc' hb hr
  taken x := x.taken
  ordered x ha := x.ordered ha
  cursor x hc hc' := by
    refine ⟨fun i hi => ?_, x.cursor_mem hc hc'⟩
    rw [(x.scanInv hi).agingCursor]
    exact ⟨hc, hc'⟩
  cursor_of_reach s h := cursor_of_reach h v
  selecting s s' a h hpc hs := step_selecting (reach_vpsOk h).1 (reach_vpsOk h).2 hpc hs
  between s s' a h hpc hs hno := step_between (reach_vpsOk h).1 (reach_vpsOk h).2 hpc hs hno
  dispatches σ b e p hp hp' h hr := h.exists_priority hp hp' hr

/-! ## Selections of a VP that is alone -/

/-- The states when only VP 0 takes steps. -/
def alone (s : State) : Nat → State
  | 0 => s
  | n + 1 => ((vpStep (alone s n) 0 []).map Prod.fst).getD (alone s n)

/-- VP 0 has made `n` steps of `vp_try_next` and takes a task in the next one. -/
def selects (s : State) (n : Nat) : Bool :=
  (s.pc 0 == .tryNext false) &&
    decide (∀ i ≤ n, ((alone s i).pc 0).selecting = true ∧ (vpStep (alone s i) 0 []).map Prod.snd = some []) &&
    decide (∃ t ∈ List.range 9, (alone s (n + 1)).pc 0 = .popped t)

theorem alone_succ {s : State} {i : Nat} (h : (vpStep (alone s i) 0 []).map Prod.snd = some []) :
    vpStep (alone s i) 0 [] = some (alone s (i + 1), []) := by
  obtain ⟨⟨s', ops⟩, hs, rfl⟩ := Option.map_eq_some_iff.mp h
  simp [alone, hs]

/-- The selection that VP 0 makes alone. -/
def Selection.alone (s : State) (n : Nat) (h : selects s n = true) : Selection 0 where
  states := Runtime.alone s
  length := n
  start := by
    simp only [selects, Bool.and_eq_true, beq_iff_eq] at h
    exact ⟨false, h.1.1⟩
  steps i hi := by
    simp only [selects, Bool.and_eq_true, decide_eq_true_eq] at h
    exact .inr (alone_succ (h.1.2 i (Nat.le_of_lt hi)).2)
  selecting i hi := by
    simp only [selects, Bool.and_eq_true, decide_eq_true_eq] at h
    exact (h.1.2 i hi).1
  result := Runtime.alone s (n + 1)
  task := ((List.range 9).find? fun t => (Runtime.alone s (n + 1)).pc 0 == .popped t).getD 0
  last := by
    simp only [selects, Bool.and_eq_true, decide_eq_true_eq] at h
    exact alone_succ (h.1.2 n (Nat.le_refl n)).2
  popped := by
    simp only [selects, Bool.and_eq_true, decide_eq_true_eq] at h
    obtain ⟨t, ht, hpc⟩ := h.2
    cases hf : (List.range 9).find? fun t => (Runtime.alone s (n + 1)).pc 0 == .popped t with
    | none => exact absurd (List.find?_eq_none.mp hf t ht) (by simp [hpc])
    | some u => simpa using List.find?_some hf

/-- VP 0 has local tasks of every priority, its cursor at `c`, and `d` normal
selections behind it. -/
def busy (c d : Nat) : State :=
  { State.initial [0] with
    nvp := 1
    pc := fun _ => .tryNext false
    agingCursor := fun _ => c
    priorityDispatches := fun _ => d
    queue := fun q =>
      match q with
      | .loc 0 p => [p + 1]
      | _ => [] }

theorem selects_busy : ∀ c < 8, ∀ d < 65, selects (busy c d) 2 = true := by decide +kernel

/-- Seven bursts of selections, each with an aged one at its end; the cursor is
at 3 in the first of them. -/
def bursts (i : Nat) : Selection 0 :=
  .alone (busy (1 + (i / 65 + 2) % 7) (i % 65)) 2 (selects_busy _ (by omega) _ (by omega))

/-- VP 0 has a task of priority 3 only. -/
def lone : Selection 0 :=
  .alone { busy 3 0 with queue := fun q => if q = .loc 0 3 then [4] else [] } 26 (by decide +kernel)

/-- With the cursor behind it, priority 2 waits for the last of the selections. -/
theorem agingBounds_bursts :
    (∃ i < 7 * (priorityBurst + 1), (bursts i).level = 2) ∧ (∀ i < 454, (bursts i).level ≠ 2) ∧
      (∀ r < 3, ∀ q ∈ levelQueues 0 0 r, lone.Observed 26 q) ∧ lone.level = 3 ∧ lone.aged = false ∧
      1 ≤ lone.result.agingCursor 0 ∧ lone.result.agingCursor 0 ≤ 7 := by
  have hlevel : lone.level = 3 := by decide +kernel
  have haged : lone.aged = false := by decide +kernel
  refine ⟨(agingBounds 0).bypass bursts 2 (by decide) (by decide) (by decide) (by decide) ?_ ?_, by decide +kernel, ?_,
    hlevel, haged, ((agingBounds 0).cursor lone (by decide) (by decide)).2⟩
  · have hnext : ∀ i < 454,
        ((bursts (i + 1)).states 0).priorityDispatches 0 = (bursts i).result.priorityDispatches 0 ∧
          ((bursts (i + 1)).states 0).agingCursor 0 = (bursts i).result.agingCursor 0 := by
      decide +kernel
    intro i hi
    obtain ⟨hd, hc⟩ := hnext i (Nat.lt_of_succ_lt_succ hi)
    exact ⟨hd, hc⟩
  · have hloc : ∀ i < 455, ∀ k ≤ 2, ((bursts i).states k).queue (.loc 0 2) ≠ [] := by decide +kernel
    intro i hi
    exact ⟨.loc 0 2, by simp [levelQueues, bursts, Selection.alone], hloc i hi⟩
  · have := (agingBounds 0).ordered lone haged
    rw [hlevel] at this
    exact this

end Dlsmc.Runtime
