import Dlsmc.Greenthread.Aging

/-!
# Queue choice within one priority

A call of `vp_try_priority` (`TryPriority`) is a run of its accesses, with any
steps of others in between. Each access that takes no task has seen something
(`Probe.Saw`), and a call has made all accesses before the one it is at
(`TryPriority.Past`). From these: local and group work take turns
(`local_turn`), a task that yielded waits for others of its priority
(`task_ne_avoid`), and a call that returns nothing has found nothing
(`task_eq_none`).
-/

namespace Dlsmc.Runtime

variable {s s' : State} {v p : Nat} {avoid : Option Nat} {pos pos' : Pos} {pr pr' : Probe} {q : Queue} {burst t : Nat}

/-! ## An access -/

/-- What an access that takes no task has seen. -/
def Probe.Saw (v p : Nat) (avoid : Option Nat) (s : State) : Probe → Prop
  | .boundUnless => queuePopUnless (s.queue (.bound v p)) avoid = none
  | .localUnless => s.localBurst v p < localBurstMax → queuePopUnless (s.queue (.loc v p)) avoid = none
  | .ready => s.queue (.ready (s.group v) p) = []
  | .localAgain => queuePopUnless (s.queue (.loc v p)) avoid = none
  | .bound => s.queue (.bound v p) = []
  | .loc => s.queue (.loc v p) = []
  | .nvp => True
  | .steal n offset =>
    offset < n → s.group ((v + offset) % n) = s.group v → (s.queue (.loc ((v + offset) % n) p)).length ≤ 1

/-- The accesses that come before one. -/
def Probe.Before : Probe → Probe → Prop
  | _, .boundUnless => False
  | x, .localUnless => x = .boundUnless
  | x, .ready => x = .boundUnless ∨ x = .localUnless
  | x, .localAgain => x = .boundUnless ∨ x = .localUnless ∨ x = .ready
  | x, .bound => x = .boundUnless ∨ x = .localUnless ∨ x = .ready ∨ x = .localAgain
  | x, .loc => x = .boundUnless ∨ x = .localUnless ∨ x = .ready ∨ x = .localAgain ∨ x = .bound
  | x, .nvp => x = .boundUnless ∨ x = .localUnless ∨ x = .ready ∨ x = .localAgain ∨ x = .bound ∨ x = .loc
  | x, .steal n offset =>
    x = .boundUnless ∨ x = .localUnless ∨ x = .ready ∨ x = .localAgain ∨ x = .bound ∨ x = .loc ∨ x = .nvp ∨
      ∃ o, 1 ≤ o ∧ o < offset ∧ x = .steal n o

theorem queueStealSurplus_eq_none {l : List Nat} (h : queueStealSurplus l = none) : l.length ≤ 1 := by
  match l, h with
  | [], _ => exact Nat.zero_le 1
  | [_], _ => exact Nat.le_refl 1

theorem queuePopUnless_eq_none {l : List Nat} (h : queuePopUnless l avoid = none) :
    l = [] ∨ ∃ t, avoid = some t ∧ t ∈ l := by
  cases l with
  | nil => exact .inl rfl
  | cons t l =>
    simp only [queuePopUnless] at h
    split at h
    · next ht => exact .inr ⟨t, ht.symm, List.mem_cons_self⟩
    · cases h

theorem queuePopUnless_ne {l l' : List Nat} (h : queuePopUnless l avoid = some (t, l')) : avoid ≠ some t := by
  cases l with
  | nil => cases h
  | cons u l =>
    obtain ⟨hne, h⟩ := Option.ite_none_left_eq_some.mp h
    cases h
    exact Ne.symm hne

/-- The other VPs that a VP visits do not include itself. -/
theorem add_mod_ne {n o : Nat} (ho : 1 ≤ o) (hlt : o < n) : (v + o) % n ≠ v := by
  intro h
  have hv : v < n := h ▸ Nat.mod_lt _ (by omega)
  rcases Nat.lt_or_ge (v + o) n with hvo | hvo
  · rw [Nat.mod_eq_of_lt hvo] at h
    omega
  · rw [Nat.mod_eq_sub_mod hvo, Nat.mod_eq_of_lt (by omega)] at h
    omega

theorem Pos.next_ne (pos : Pos) : pos.next ≠ pos := by
  cases pos with
  | aging offset =>
    rw [Pos.next]
    split <;> simp
  | main priority => simp [Pos.next]

/-- An access without a task: what it saw, and what comes next. -/
theorem probe_saw (h : probe s v avoid pos pr = ((q, none, burst), (pos', pr'))) :
    pr.Saw v (pos.priority (s.agingCursor v)) avoid s ∧
      (pos' = pos ∧ (∀ x : Probe, x.Before pr' → x.Before pr ∨ x = pr) ∧
          (∀ n o, pr' = .steal n o → 1 ≤ o ∧ (pr = .nvp → n = s.nvp) ∧ (pr ≠ .nvp → ∃ o', pr = .steal n o')) ∨
        pos' = pos.next ∧ pr' = .boundUnless ∧ ∃ n o, pr = .steal n o ∧ n ≤ o + 1) := by
  cases pr with simp only [probe, Prod.mk.injEq] at h
  | boundUnless =>
    obtain ⟨⟨-, hp, -⟩, rfl, rfl⟩ := h
    exact ⟨hp, .inl ⟨rfl, by simp [Probe.Before], by simp⟩⟩
  | localUnless =>
    obtain ⟨⟨-, hp, -⟩, rfl, rfl⟩ := h
    refine ⟨fun hb => ?_, .inl ⟨rfl, by simp [Probe.Before], by simp⟩⟩
    rwa [if_pos hb] at hp
  | ready =>
    obtain ⟨⟨-, hp, -⟩, rfl, rfl⟩ := h
    exact ⟨queuePop_eq_none hp, .inl ⟨rfl, by simp only [Probe.Before]; grind -linarith, by simp⟩⟩
  | localAgain =>
    obtain ⟨⟨-, hp, -⟩, rfl, rfl⟩ := h
    exact ⟨hp, .inl ⟨rfl, by simp only [Probe.Before]; grind -linarith, by simp⟩⟩
  | bound =>
    obtain ⟨⟨-, hp, -⟩, rfl, rfl⟩ := h
    exact ⟨queuePop_eq_none hp, .inl ⟨rfl, by simp only [Probe.Before]; grind -linarith, by simp⟩⟩
  | loc =>
    obtain ⟨⟨-, hp, -⟩, rfl, rfl⟩ := h
    exact ⟨queuePop_eq_none hp, .inl ⟨rfl, by simp only [Probe.Before]; grind -linarith, by simp⟩⟩
  | nvp =>
    obtain ⟨-, rfl, rfl⟩ := h
    refine ⟨trivial, .inl ⟨rfl, fun x hx => ?_, ?_⟩⟩
    · simp only [Probe.Before] at hx ⊢
      rcases hx with h | h | h | h | h | h | h | ⟨o, h₁, h₂, -⟩
      iterate 6 exact .inl (by simp [h])
      · exact .inr h
      · omega
    · rintro n o ⟨⟩
      exact ⟨Nat.le_refl 1, fun _ => rfl, fun h => absurd rfl h⟩
  | steal n offset =>
    obtain ⟨⟨-, hp, -⟩, h⟩ := h
    refine ⟨fun ho hg => ?_, ?_⟩
    · rw [if_pos ⟨ho, hg⟩] at hp
      exact queueStealSurplus_eq_none hp
    · split at h
      · obtain ⟨rfl, rfl⟩ := Prod.mk.inj h
        refine .inl ⟨rfl, fun x hx => ?_, ?_⟩
        · simp only [Probe.Before] at hx ⊢
          rcases hx with h | h | h | h | h | h | h | ⟨o, h₁, h₂, rfl⟩
          iterate 7 exact .inl (by simp [h])
          · rcases Nat.lt_or_eq_of_le (Nat.le_of_lt_succ h₂) with h₂ | rfl
            · exact .inl (by simp [h₁, h₂])
            · exact .inr rfl
        · rintro m o ⟨⟩
          exact ⟨Nat.succ_pos _, by simp, fun _ => ⟨offset, rfl⟩⟩
      · next hlast =>
        obtain ⟨rfl, rfl⟩ := Prod.mk.inj h
        exact .inr ⟨rfl, rfl, n, offset, rfl, by omega⟩

/-! ## A call -/

/-- A call of `vp_try_priority` by VP `v`, to the state after it. -/
structure TryPriority (v : Nat) where
  states : Nat → State
  length : Nat
  second : Bool
  avoid : Option Nat
  pos : Pos
  start : (states 0).pc v = .scan second avoid pos .boundUnless
  during : ∀ i ≤ length, ∃ pr, (states i).pc v = .scan second avoid pos pr
  steps : ∀ i < length, Others v (states i) (states (i + 1)) ∨ vpStep (states i) v [] = some (states (i + 1), [])
  last : vpStep (states length) v [] = some (states (length + 1), [])
  returned : (∃ t, (states (length + 1)).pc v = .popped t) ∨
    (states (length + 1)).pc v = .scan second avoid pos.next .boundUnless

namespace TryPriority

variable (x : TryPriority v)

/-- The priority of the call. -/
def priority : Nat := x.pos.priority ((x.states 0).agingCursor v)

/-- The task that it returns. -/
def task : Option Nat :=
  match (x.states (x.length + 1)).pc v with
  | .popped t => some t
  | _ => none

/-- The queue of its last access. -/
def source : Queue :=
  match (x.states x.length).pc v with
  | .scan _ avoid pos pr => (probe (x.states x.length) v avoid pos pr).1.1
  | _ => .loc v x.priority

/-- The VP makes the access `pr` in step `i`. -/
def Accesses (i : Nat) (pr : Probe) : Prop :=
  (x.states i).pc v = .scan x.second x.avoid x.pos pr ∧ vpStep (x.states i) v [] = some (x.states (i + 1), [])

/-- In one of the first `n` steps, the VP made the access `pr`, in a state where `P` holds. -/
def Found (n : Nat) (pr : Probe) (P : State → Prop) : Prop := ∃ i < n, x.Accesses i pr ∧ P (x.states i)

/-- Queue `q` is never empty during the call. -/
def Occupied (q : Queue) : Prop := ∀ i ≤ x.length, (x.states i).queue q ≠ []

variable {x}

theorem Found.mono {n m : Nat} {P Q : State → Prop} (h : x.Found n pr P) (hle : n ≤ m) (hi : ∀ s, P s → Q s) :
    x.Found m pr Q := by
  obtain ⟨i, hi', ha, hp⟩ := h
  exact ⟨i, Nat.lt_of_lt_of_le hi' hle, ha, hi _ hp⟩

/-- The accesses before that of state `n` were made, and took no task. -/
structure Past (x : TryPriority v) (n : Nat) (pr : Probe) : Prop where
  group : (x.states n).group v = (x.states 0).group v
  agingCursor : (x.states n).agingCursor v = (x.states 0).agingCursor v
  localBurst : (x.states n).localBurst v = (x.states 0).localBurst v
  before : ∀ pr₀ : Probe, pr₀.Before pr → x.Found n pr₀ fun s =>
    s.group v = (x.states 0).group v ∧ pr₀.Saw v x.priority x.avoid s
  nvp : ∀ m o, pr = .steal m o → 1 ≤ o ∧ x.Found n .nvp fun s => s.nvp = m

/-- A step of the VP that does not end the call. -/
theorem own_during {n : Nat} (hown : vpStep (x.states n) v [] = some (x.states (n + 1), []))
    (hpc : (x.states n).pc v = .scan x.second x.avoid x.pos pr)
    (hpc' : (x.states (n + 1)).pc v = .scan x.second x.avoid x.pos pr') :
    ((x.states (n + 1)).agingCursor v = (x.states n).agingCursor v ∧
      (x.states (n + 1)).group v = (x.states n).group v ∧
      (x.states (n + 1)).localBurst v = (x.states n).localBurst v) ∧
    ∃ q burst, probe (x.states n) v x.avoid x.pos pr = ((q, none, burst), (x.pos, pr')) := by
  obtain ⟨⟨hc, -, hg, hb⟩, hcase⟩ := own_cases (by rw [hpc]; rfl) hown (by rw [hpc']; rfl)
  refine ⟨⟨hc, hg, hb⟩, ?_⟩
  rcases hcase with ⟨b, hp, -⟩ | ⟨b, a, ps, r, q, burst, ps', r', hp, -, hprobe, hp'⟩
  · rw [hpc] at hp
    cases hp
  · rw [hpc] at hp
    rw [hpc'] at hp'
    cases hp
    cases hp'
    exact ⟨q, burst, hprobe⟩

theorem past {n : Nat} (hn : n ≤ x.length) (hpc : (x.states n).pc v = .scan x.second x.avoid x.pos pr) :
    x.Past n pr := by
  induction n generalizing pr with
  | zero =>
    rw [x.start] at hpc
    obtain ⟨-, -, -, rfl⟩ := VPc.scan.inj hpc
    exact ⟨rfl, rfl, rfl, fun pr₀ h => absurd h (by cases pr₀ <;> exact id), by simp⟩
  | succ n ih =>
    obtain ⟨pr₁, hpc₁⟩ := x.during n (by omega)
    obtain ⟨hg, hc, hb, hbefore, hnvp⟩ := ih (by omega) hpc₁
    rcases x.steps n (by omega) with ho | hown
    · -- others do not move the VP
      rw [ho.pc, hpc₁] at hpc
      obtain ⟨-, -, -, rfl⟩ := VPc.scan.inj hpc
      exact ⟨ho.group.trans hg, ho.agingCursor.trans hc, ho.localBurst.trans hb,
        fun pr₀ h => (hbefore pr₀ h).mono (Nat.le_succ n) fun _ => id,
        fun m o h => ⟨(hnvp m o h).1, (hnvp m o h).2.mono (Nat.le_succ n) fun _ => id⟩⟩
    · obtain ⟨⟨hc', hg', hb'⟩, q, burst, hprobe⟩ := own_during hown hpc₁ hpc
      obtain ⟨hsaw, hnext⟩ := probe_saw hprobe
      rw [hc] at hsaw
      rcases hnext with ⟨-, hbef, hst⟩ | ⟨hpos, hpr, -⟩
      · refine ⟨hg'.trans hg, hc'.trans hc, hb'.trans hb, fun pr₀ h => ?_, fun m o h => ?_⟩
        · rcases hbef pr₀ h with h | rfl
          · exact (hbefore pr₀ h).mono (Nat.le_succ n) fun _ => id
          · exact ⟨n, Nat.lt_succ_self n, ⟨hpc₁, hown⟩, hg, hsaw⟩
        · obtain ⟨ho, h₁, h₂⟩ := hst m o h
          refine ⟨ho, ?_⟩
          by_cases e : pr₁ = .nvp
          · subst e
            exact ⟨n, Nat.lt_succ_self n, ⟨hpc₁, hown⟩, (h₁ rfl).symm⟩
          · obtain ⟨o', rfl⟩ := h₂ e
            exact (hnvp m o' rfl).2.mono (Nat.le_succ n) fun _ => id
      · exact absurd hpos.symm x.pos.next_ne

/-- A call that returns a task: its last access took it. -/
theorem task_eq_some {t : Nat} (h : x.task = some t) : ∃ pr q l burst next,
    x.Accesses x.length pr ∧ probe (x.states x.length) v x.avoid x.pos pr = ((q, some (t, l), burst), next) ∧
      x.source = q ∧ x.states (x.length + 1) = take (x.states x.length) v x.pos q t l burst := by
  obtain ⟨pr, hpc⟩ := x.during x.length (Nat.le_refl _)
  have hpopped : (x.states (x.length + 1)).pc v = .popped t := by
    unfold task at h
    split at h
    · next u hu =>
      obtain rfl := Option.some.inj h
      exact hu
    · cases h
  obtain ⟨second, avoid, pos, pr', q, l, burst, next, hpc', -, hprobe, hres⟩ :=
    take_cases (by rw [hpc]; rfl) x.last hpopped
  rw [hpc] at hpc'
  cases hpc'
  refine ⟨pr, q, l, burst, next, ⟨hpc, x.last⟩, hprobe, ?_, hres⟩
  simp only [source, hpc, hprobe]

/-- A call that returns no task: it ended with the last access. -/
theorem end_cases (h : x.task = none) : ∃ n o, x.Accesses x.length (.steal n o) ∧ n ≤ o + 1 ∧
    (Probe.steal n o).Saw v x.priority x.avoid (x.states x.length) := by
  obtain ⟨pr, hpc⟩ := x.during x.length (Nat.le_refl _)
  have hpast := past (Nat.le_refl _) hpc
  have hpc' : (x.states (x.length + 1)).pc v = .scan x.second x.avoid x.pos.next .boundUnless := by
    rcases x.returned with ⟨t, ht⟩ | hpc'
    · simp [task, ht] at h
    · exact hpc'
  obtain ⟨-, hcase⟩ := own_cases (by rw [hpc]; rfl) x.last (by rw [hpc']; rfl)
  rcases hcase with ⟨b, hp, -⟩ | ⟨b, a, ps, r, q, burst, ps', r', hp, -, hprobe, hp'⟩
  · rw [hpc] at hp
    cases hp
  · rw [hpc] at hp
    rw [hpc'] at hp'
    cases hp
    cases hp'
    obtain ⟨hsaw, ⟨hpos, -⟩ | ⟨-, -, n, o, rfl, hle⟩⟩ := probe_saw hprobe
    · exact absurd hpos x.pos.next_ne
    · rw [hpast.agingCursor] at hsaw
      exact ⟨n, o, ⟨hpc, x.last⟩, hle, hsaw⟩

/-- If nothing was taken, each access saw something. -/
theorem saw_of_accesses (h : x.task = none) {i : Nat} (hi : i ≤ x.length) (ha : x.Accesses i pr) :
    pr.Saw v x.priority x.avoid (x.states i) := by
  obtain ⟨hpc, hown⟩ := ha
  have hpast := past hi hpc
  rcases Nat.lt_or_eq_of_le hi with hi | rfl
  · obtain ⟨pr', hpc'⟩ := x.during (i + 1) hi
    obtain ⟨-, q, burst, hprobe⟩ := own_during hown hpc hpc'
    have hsaw := (probe_saw hprobe).1
    rwa [hpast.agingCursor] at hsaw
  · obtain ⟨n, o, ⟨hpc', -⟩, -, hsaw⟩ := end_cases h
    rw [hpc] at hpc'
    cases hpc'
    exact hsaw

/-- A queue of the priority that is never empty was not seen empty. -/
theorem Occupied.not_found {q : Queue} (h : x.Occupied q) {n : Nat} (hn : n ≤ x.length + 1) {P : State → Prop}
    (hP : ∀ s, P s → s.queue q = []) : ¬x.Found n pr P := by
  rintro ⟨i, hi, -, hp⟩
  exact h i (by omega) (hP _ hp)

/-- While group work waits, a task is taken from the local queue only at the expense of the burst. -/
theorem local_turn (hr : x.Occupied (.ready ((x.states 0).group v) x.priority)) {t : Nat} (ht : x.task = some t)
    (hs : x.source = .loc v x.priority) :
    (x.states 0).localBurst v x.priority < localBurstMax ∧
      (x.states (x.length + 1)).localBurst v x.priority = (x.states 0).localBurst v x.priority + 1 := by
  obtain ⟨pr, q, l, burst, next, ⟨hpc, -⟩, hprobe, hsrc, hres⟩ := task_eq_some ht
  have hpast := past (Nat.le_refl _) hpc
  have hpriority : x.pos.priority ((x.states x.length).agingCursor v) = x.priority := by
    rw [hpast.agingCursor]
    rfl
  -- the group's queue was not seen empty, so the access is one before that of the group's queue
  have hnot : ¬Probe.ready.Before pr := by
    intro hb
    refine hr.not_found (Nat.le_succ _) ?_ (hpast.before _ hb)
    rintro s ⟨hg, hsaw⟩
    exact hg ▸ hsaw
  have hburst : (x.states (x.length + 1)).localBurst v x.priority = burst := by
    rw [hres]
    simp only [take, Function.update_self, hpriority]
  rw [hburst, ← hpast.localBurst]
  cases pr with
  | localUnless =>
    simp only [probe, Prod.mk.injEq, Option.ite_none_right_eq_some, hpriority] at hprobe
    obtain ⟨⟨-, ⟨hlt, -⟩, rfl⟩, -⟩ := hprobe
    exact ⟨hlt, rfl⟩
  | boundUnless | ready =>
    simp only [probe, Prod.mk.injEq] at hprobe
    rw [hsrc, ← hprobe.1.1] at hs
    cases hs
  | localAgain | bound | loc | nvp | steal => exact absurd (by simp [Probe.Before]) hnot

/-- A task that just yielded, and stays in its queue, is not returned while another queue has work. -/
theorem task_ne_avoid {t : Nat} (ht : x.avoid = some t) {q₀ : Queue}
    (hq₀ : (∃ p, q₀ = .bound v p) ∨ ∃ p, q₀ = .loc v p)
    (hstays : ∀ i ≤ x.length, ∀ q, t ∈ (x.states i).queue q ↔ q = q₀) {q : Queue}
    (hq : q ∈ levelQueues ((x.states 0).group v) v x.priority) (hne : q ≠ q₀) (hocc : x.Occupied q) :
    x.task ≠ some t := by
  intro htask
  obtain ⟨pr, q₁, l, burst, next, ⟨hpc, -⟩, hprobe, -, -⟩ := task_eq_some htask
  have hpast := past (Nat.le_refl _) hpc
  obtain ⟨-, hqueue⟩ := probe_some hprobe
  have hpriority : x.pos.priority ((x.states x.length).agingCursor v) = x.priority := by
    rw [hpast.agingCursor]
    rfl
  obtain rfl : q₁ = q₀ := (hstays x.length (Nat.le_refl _) q₁).mp (by rw [hqueue]; exact List.mem_cons_self)
  -- a queue that only holds other tasks is not passed over
  have hpass : ∀ {q' : Queue} {n : Nat} {pr₀ : Probe} {P : State → Prop}, n ≤ x.length → q' ≠ q₁ → x.Occupied q' →
      (∀ s, P s → queuePopUnless (s.queue q') x.avoid = none) → ¬x.Found n pr₀ P := by
    rintro q' n pr₀ P hn hq' ho hP ⟨i, hi, -, hp⟩
    rcases queuePopUnless_eq_none (hP _ hp) with he | ⟨u, hu, hmem⟩
    · exact ho i (by omega) he
    · rw [ht] at hu
      cases hu
      exact hq' ((hstays i (by omega) q').mp hmem)
  have hready : Probe.ready.Before pr → q ≠ .ready ((x.states 0).group v) x.priority := by
    rintro hb rfl
    refine hocc.not_found (Nat.le_succ _) ?_ (hpast.before _ hb)
    rintro s ⟨hg, hsaw⟩
    exact hg ▸ hsaw
  simp only [levelQueues, List.mem_cons, List.not_mem_nil, or_false] at hq
  cases pr with simp only [probe, Prod.mk.injEq, hpriority] at hprobe
  | boundUnless => exact queuePopUnless_ne hprobe.1.2.1 ht
  | localUnless => exact queuePopUnless_ne (Option.ite_none_right_eq_some.mp hprobe.1.2.1).2 ht
  | localAgain => exact queuePopUnless_ne hprobe.1.2.1 ht
  | ready =>
    obtain ⟨⟨rfl, -, -⟩, -⟩ := hprobe
    rcases hq₀ with ⟨p, h⟩ | ⟨p, h⟩ <;> cases h
  | bound =>
    obtain ⟨⟨rfl, -, -⟩, -⟩ := hprobe
    rcases hq with rfl | rfl | rfl
    · exact hne rfl
    · exact hpass (Nat.le_refl _) hne hocc (fun s hs => hs.2) (hpast.before .localAgain (by simp [Probe.Before]))
    · exact hready (by simp [Probe.Before]) rfl
  | loc =>
    obtain ⟨⟨rfl, -, -⟩, -⟩ := hprobe
    rcases hq with rfl | rfl | rfl
    · exact hocc.not_found (Nat.le_succ _) (fun s hs => hs.2) (hpast.before .bound (by simp [Probe.Before]))
    · exact hne rfl
    · exact hready (by simp [Probe.Before]) rfl
  | nvp => cases hprobe.1.2.1
  | steal n o =>
    -- the VP does not steal from itself
    obtain ⟨⟨rfl, hp, -⟩, -⟩ := hprobe
    have ho := (hpast.nvp n o rfl).1
    obtain ⟨⟨hlt, -⟩, -⟩ := Option.ite_none_right_eq_some.mp hp
    rcases hq₀ with ⟨p, h⟩ | ⟨p, h⟩
    · cases h
    · exact add_mod_ne ho hlt (Queue.loc.inj h).1

/-- A call that returns no task has seen the three queues empty, and no other VP with more than one task. -/
theorem found_nothing (h : x.task = none) :
    (∀ q ∈ levelQueues ((x.states 0).group v) v x.priority, ∃ i ≤ x.length, ∃ pr,
      x.Accesses i pr ∧ (probe (x.states i) v x.avoid x.pos pr).1.1 = q ∧ (x.states i).queue q = []) ∧
    ∃ n, (x.Found (x.length + 1) .nvp fun s => s.nvp = n) ∧ ∀ o, 1 ≤ o → o < n →
      x.Found (x.length + 1) (.steal n o) fun s =>
        s.group ((v + o) % n) = s.group v → (s.queue (.loc ((v + o) % n) x.priority)).length ≤ 1 := by
  obtain ⟨n, o, ⟨hpc, hown⟩, hle, hsaw⟩ := end_cases h
  have hpast := past (Nat.le_refl _) hpc
  have hpriority : ∀ {i : Nat} {pr : Probe}, i ≤ x.length → x.Accesses i pr →
      x.pos.priority ((x.states i).agingCursor v) = x.priority := by
    intro i pr hi ha
    rw [(past hi ha.1).agingCursor]
    rfl
  refine ⟨fun q hq => ?_, n, (hpast.nvp n o rfl).2.mono (Nat.le_succ _) fun _ => id, fun o' ho' hlt => ?_⟩
  · simp only [levelQueues, List.mem_cons, List.not_mem_nil, or_false] at hq
    rcases hq with rfl | rfl | rfl
    · obtain ⟨i, hi, ha, -, hempty⟩ := hpast.before .bound (by simp [Probe.Before])
      refine ⟨i, Nat.le_of_lt hi, .bound, ha, ?_, hempty⟩
      simp only [probe, hpriority (Nat.le_of_lt hi) ha]
    · obtain ⟨i, hi, ha, -, hempty⟩ := hpast.before .loc (by simp [Probe.Before])
      refine ⟨i, Nat.le_of_lt hi, .loc, ha, ?_, hempty⟩
      simp only [probe, hpriority (Nat.le_of_lt hi) ha]
    · obtain ⟨i, hi, ha, hg, hempty⟩ := hpast.before .ready (by simp [Probe.Before])
      refine ⟨i, Nat.le_of_lt hi, .ready, ha, ?_, hg ▸ hempty⟩
      simp only [probe, hpriority (Nat.le_of_lt hi) ha, hg]
  · rcases Nat.lt_or_ge o' o with hlo | hlo
    · exact (hpast.before (.steal n o') (by simp [Probe.Before, ho', hlo])).mono (Nat.le_succ _) fun s hs => hs.2 hlt
    · obtain rfl : o' = o := by omega
      exact ⟨x.length, Nat.lt_succ_self _, ⟨hpc, hown⟩, hsaw hlt⟩

end TryPriority

/-! ## Calls of a run -/

/-- Calls with one priority that come one after the other: in between, VP `v`
takes no task of this priority. -/
structure Consecutive (x : Nat → TryPriority v) (p n : Nat) : Prop where
  priority : ∀ i < n, (x i).priority = p
  localBurst : ∀ i, i + 1 < n →
    ((x (i + 1)).states 0).localBurst v p = ((x i).states ((x i).length + 1)).localBurst v p

/-- Of as many calls as a burst is long and one more, one does not take a local task, if group work waits. -/
theorem exists_not_local {x : Nat → TryPriority v} (h : Consecutive x p (localBurstMax + 1))
    (hr : ∀ i < localBurstMax + 1, (x i).Occupied (.ready (((x i).states 0).group v) p)) :
    ∃ i < localBurstMax + 1, ¬((x i).task ≠ none ∧ (x i).source = .loc v p) := by
  by_contra hno
  have hlocal : ∀ i < localBurstMax + 1, ((x i).states 0).localBurst v p < localBurstMax ∧
      ((x i).states ((x i).length + 1)).localBurst v p = ((x i).states 0).localBurst v p + 1 := by
    intro i hi
    have htask : (x i).task ≠ none ∧ (x i).source = .loc v p := by
      by_contra hc
      exact hno ⟨i, hi, hc⟩
    obtain ⟨t, ht⟩ := Option.ne_none_iff_exists'.mp htask.1
    have hp := h.priority i hi
    have hready := hr i hi
    rw [← hp] at hready htask ⊢
    exact TryPriority.local_turn hready ht htask.2
  -- each of them makes the burst longer
  have hrun : ∀ i < localBurstMax + 1, i ≤ ((x i).states 0).localBurst v p := by
    intro i
    induction i with
    | zero => exact fun _ => Nat.zero_le _
    | succ i ih =>
      intro hi
      rw [h.localBurst i hi, (hlocal i (by omega)).2]
      exact Nat.succ_le_succ (ih (by omega))
  have hlast := hrun localBurstMax (Nat.lt_succ_self _)
  have hlt := (hlocal localBurstMax (Nat.lt_succ_self _)).1
  omega

/-- A step of the scheduler loop changes the burst of a priority when it takes a task of it. -/
theorem vpStep_localBurst {ws : List Nat} {r : State × List Op} (h : vpStep s v ws = some r) (p : Nat) :
    r.1.localBurst v p = s.localBurst v p ∨ ∃ second avoid pos pr t,
      s.pc v = .scan second avoid pos pr ∧ p = pos.priority (s.agingCursor v) ∧ r.1.pc v = .popped t := by
  cases hpc : s.pc v with
  | off | run | exited => simp [vpStep, hpc] at h
  | scan second avoid pos pr =>
    simp only [vpStep, hpc, scanStep, Option.some.injEq] at h
    subst h
    dsimp only
    split
    · exact .inl rfl
    · split
      · next t _ _ _ _ =>
        by_cases hp : p = pos.priority (s.agingCursor v)
        · exact .inr ⟨second, avoid, pos, pr, t, rfl, hp, Function.update_self ..⟩
        · refine .inl ?_
          simp only [take, Function.update_self]
          exact Function.update_of_ne hp _ _
      · exact .inl rfl
  | switch t tr =>
    obtain ⟨-, ⟨-, rfl⟩ | ⟨-, rfl⟩ | ⟨-, -, rfl⟩⟩ := vpStep_switch hpc h
    · exact .inl rfl
    · unfold rtPark
      split <;> exact .inl rfl
    · exact .inl rfl
  | _ =>
    simp only [vpStep, hpc] at h
    repeat' split at h
    all_goals cases h
    all_goals exact .inl rfl

theorem step_localBurst (hv : VpsOk s) (hst : StartOk s) (hpc : s.pc v ≠ .off) {a : Act} (h : step s a = some s')
    (p : Nat) : s'.localBurst v p = s.localBurst v p ∨ ∃ second avoid pos pr t,
      s.pc v = .scan second avoid pos pr ∧ p = pos.priority (s.agingCursor v) ∧ s'.pc v = .popped t := by
  rcases step_others hv hst hpc h with ho | ⟨t, tr, -, rfl⟩ | ⟨ws, r, -, hr, rfl⟩
  · exact .inl (congrFun ho.localBurst p)
  · exact .inl rfl
  · exact vpStep_localBurst hr p

/-- `vp_try_priority` chooses fairly. -/
structure QueueChoice (v : Nat) : Prop where
  /-- While the group's queue has work, at most `DLSM_GT_LOCAL_BURST` calls in a row take a local task. -/
  turns : ∀ (x : Nat → TryPriority v) (p : Nat), Consecutive x p (localBurstMax + 1) →
    (∀ i < localBurstMax + 1, (x i).Occupied (.ready (((x i).states 0).group v) p)) →
    ∃ i < localBurstMax + 1, ¬((x i).task ≠ none ∧ (x i).source = .loc v p)
  /-- The task that just yielded waits for the other queues. -/
  avoid : ∀ (x : TryPriority v) (t : Nat) (q₀ : Queue), x.avoid = some t →
    ((∃ p, q₀ = .bound v p) ∨ ∃ p, q₀ = .loc v p) →
    (∀ i ≤ x.length, ∀ q, t ∈ (x.states i).queue q ↔ q = q₀) →
    (∃ q ∈ levelQueues ((x.states 0).group v) v x.priority, q ≠ q₀ ∧ x.Occupied q) → x.task ≠ some t
  /-- A call that returns no task has seen the three queues empty, … -/
  empty : ∀ x : TryPriority v, x.task = none →
    ∀ q ∈ levelQueues ((x.states 0).group v) v x.priority, ∃ i ≤ x.length, ∃ pr,
      x.Accesses i pr ∧ (probe (x.states i) v x.avoid x.pos pr).1.1 = q ∧ (x.states i).queue q = []
  /-- … has looked at each other VP, … -/
  visits : ∀ x : TryPriority v, x.task = none →
    ∃ n, (x.Found (x.length + 1) .nvp fun s => s.nvp = n) ∧ ∀ o, 1 ≤ o → o < n →
      x.Found (x.length + 1) (.steal n o) fun s =>
        s.group ((v + o) % n) = s.group v → (s.queue (.loc ((v + o) % n) x.priority)).length ≤ 1
  /-- … and whenever it did, one of its group had at most one task. -/
  surplus : ∀ x : TryPriority v, x.task = none → ∀ i ≤ x.length, ∀ n o, x.Accesses i (.steal n o) → o < n →
    (x.states i).group ((v + o) % n) = (x.states i).group v →
    ((x.states i).queue (.loc ((v + o) % n) x.priority)).length ≤ 1
  /-- In a run of the runtime, the steps during a call are those of the calls here, … -/
  steps : ∀ s s' a, machine.Reach s → (s.pc v).selecting = true → step s a = some s' →
    Others v s s' ∨ vpStep s v [] = some (s', [])
  /-- … the burst of a priority stays between two calls, … -/
  localBurst : ∀ s s' a p, machine.Reach s → s.pc v ≠ .off → step s a = some s' →
    s'.localBurst v p = s.localBurst v p ∨ ∃ second avoid pos pr t,
      s.pc v = .scan second avoid pos pr ∧ p = pos.priority (s.agingCursor v) ∧ s'.pc v = .popped t
  /-- … and no task is in two queues. -/
  one_queue : ∀ s, machine.Reach s → ∀ t q q', t ∈ s.queue q → t ∈ s.queue q' → q = q'

theorem queueChoice (v : Nat) : QueueChoice v where
  turns x p h hr := exists_not_local h hr
  avoid x t q₀ ht hq₀ hstays hq := by
    obtain ⟨q, hq, hne, hocc⟩ := hq
    exact TryPriority.task_ne_avoid ht hq₀ hstays hq hne hocc
  empty x h := (TryPriority.found_nothing h).1
  visits x h := (TryPriority.found_nothing h).2
  surplus x h i hi n o ha hlt hg := TryPriority.saw_of_accesses h hi ha hlt hg
  steps s s' a h hpc hs := step_selecting (reach_vpsOk h).1 (reach_vpsOk h).2 hpc hs
  localBurst s s' a p h hpc hs := step_localBurst (reach_vpsOk h).1 (reach_vpsOk h).2 hpc hs p
  one_queue s h t q q' hq hq' := by
    obtain ⟨loc, hp⟩ := reach_placed h
    have hl := (hp.queued q t).mp hq
    rw [(hp.queued q' t).mp hq'] at hl
    exact (Loc.queued.inj hl).symm

/-! ## Calls of a VP that is alone -/

/-- In a call of `vp_try_priority`. -/
def VPc.during (second : Bool) (avoid : Option Nat) (pos : Pos) : VPc → Bool
  | .scan second' avoid' pos' _ => second' == second && avoid' == avoid && pos' == pos
  | _ => false

theorem VPc.exists_of_during {second : Bool} {pc : VPc} (h : pc.during second avoid pos = true) :
    ∃ pr, pc = .scan second avoid pos pr := by
  cases pc with simp only [during, Bool.false_eq_true] at h
  | scan second' avoid' pos' pr =>
    simp only [Bool.and_eq_true, beq_iff_eq] at h
    obtain ⟨⟨rfl, rfl⟩, rfl⟩ := h
    exact ⟨pr, rfl⟩

/-- VP 0 has made `n` steps of `vp_try_priority` and returns in the next one. -/
def tries (s : State) (avoid : Option Nat) (pos : Pos) (n : Nat) : Bool :=
  (s.pc 0 == .scan false avoid pos .boundUnless) &&
    decide (∀ i ≤ n, ((alone s i).pc 0).during false avoid pos = true ∧
      (vpStep (alone s i) 0 []).map Prod.snd = some []) &&
    (decide (∃ t ∈ List.range 9, (alone s (n + 1)).pc 0 = .popped t) ||
      (alone s (n + 1)).pc 0 == .scan false avoid pos.next .boundUnless)

/-- The call that VP 0 makes alone. -/
def TryPriority.alone (s : State) (avoid : Option Nat) (pos : Pos) (n : Nat) (h : tries s avoid pos n = true) :
    TryPriority 0 where
  states := Runtime.alone s
  length := n
  second := false
  avoid := avoid
  pos := pos
  start := by
    simp only [tries, Bool.and_eq_true, beq_iff_eq] at h
    exact h.1.1
  during i hi := by
    simp only [tries, Bool.and_eq_true, decide_eq_true_eq] at h
    exact VPc.exists_of_during (h.1.2 i hi).1
  steps i hi := by
    simp only [tries, Bool.and_eq_true, decide_eq_true_eq] at h
    exact .inr (alone_succ (h.1.2 i (Nat.le_of_lt hi)).2)
  last := by
    simp only [tries, Bool.and_eq_true, decide_eq_true_eq] at h
    exact alone_succ (h.1.2 n (Nat.le_refl n)).2
  returned := by
    simp only [tries, Bool.and_eq_true, Bool.or_eq_true, decide_eq_true_eq, beq_iff_eq] at h
    exact h.2.imp (fun ⟨t, _, ht⟩ => ⟨t, ht⟩) id

/-- VP 0 and its group have a task each, and `b` local tasks were taken. -/
def shared (b : Nat) (avoid : Option Nat) : State :=
  { State.initial [0] with
    nvp := 1
    pc := fun _ => .scan false avoid (.main 0) .boundUnless
    localBurst := fun _ _ => b
    queue := fun q =>
      match q with
      | .loc 0 0 => [1]
      | .ready 0 0 => [2]
      | _ => [] }

theorem tries_shared : ∀ b < 64, tries (shared b none) none (.main 0) 1 = true := by decide +kernel

/-- A burst of local tasks, and the call after it. -/
def turns (i : Nat) : TryPriority 0 :=
  if h : i < 64 then .alone (shared i none) none (.main 0) 1 (tries_shared i h)
  else .alone (shared 64 none) none (.main 0) 2 (by decide +kernel)

/-- Task 1 just yielded. -/
def yielded : TryPriority 0 := .alone (shared 0 (some 1)) (some 1) (.main 0) 2 (by decide +kernel)

/-- VP 0 has no task, and VP 1 of its group has one. -/
def idle : TryPriority 0 :=
  .alone { shared 0 none with nvp := 2, queue := fun q => if q = .loc 1 0 then [3] else [] } none (.main 0) 7
    (by decide +kernel)

theorem mem_shared {u b : Nat} {avoid : Option Nat} {q : Queue} : u ∈ (shared b avoid).queue q ↔
    q = .loc 0 0 ∧ u = 1 ∨ q = .ready 0 0 ∧ u = 2 := by
  simp only [shared]
  split
  · simp
  · simp
  · next h₁ h₂ =>
    simp only [List.not_mem_nil, false_iff, not_or, not_and]
    exact ⟨fun e => absurd e h₁, fun e => absurd e h₂⟩

/-- Group work waits for a burst of local tasks, a task that yielded for another,
and a call with nothing to take returns nothing. -/
theorem queueChoice_turns :
    (∃ i < localBurstMax + 1, ¬((turns i).task ≠ none ∧ (turns i).source = .loc 0 0)) ∧
      (∀ i < localBurstMax, (turns i).task = some 1 ∧ (turns i).source = .loc 0 0) ∧
      yielded.task ≠ some 1 ∧ idle.task = none ∧
      ∀ q ∈ levelQueues 0 0 0, ∃ i ≤ 7, ∃ pr,
        idle.Accesses i pr ∧ (probe (idle.states i) 0 none (.main 0) pr).1.1 = q ∧ (idle.states i).queue q = [] := by
  have hidle : idle.task = none := by decide +kernel
  refine ⟨(queueChoice 0).turns turns 0 ⟨?_, ?_⟩ ?_, by decide +kernel, ?_, hidle, (queueChoice 0).empty idle hidle⟩
  · decide +kernel
  · have hburst : ∀ i < 64, ((turns (i + 1)).states 0).localBurst 0 0 =
        ((turns i).states ((turns i).length + 1)).localBurst 0 0 := by
      decide +kernel
    exact fun i hi => hburst i (Nat.lt_of_succ_lt_succ hi)
  · have hocc : ∀ i < 65, ∀ k ≤ (turns i).length,
        ((turns i).states k).queue (.ready (((turns i).states 0).group 0) 0) ≠ [] := by
      decide +kernel
    exact hocc
  · -- the queues stay as they are until a task is taken
    have hqueue : ∀ i ≤ 2, (yielded.states i).queue = (shared 0 (some 1)).queue := by
      intro i hi
      obtain rfl | rfl | rfl : i = 0 ∨ i = 1 ∨ i = 2 := by omega
      · rfl
      · rfl
      · rfl
    refine (queueChoice 0).avoid yielded 1 (.loc 0 0) rfl (.inr ⟨0, rfl⟩) (fun i hi q => ?_)
      ⟨.ready 0 0, by decide +kernel, by simp, fun i hi => ?_⟩
    · rw [hqueue i hi, mem_shared]
      simp
    · rw [hqueue i hi]
      simp [shared]

end Dlsmc.Runtime
