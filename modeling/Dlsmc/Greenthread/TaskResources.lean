import Dlsmc.Greenthread.TaskControlSafety

/-!
# What a task owns when its control block is freed

`task_free` releases the stack, the fiber, the completion mutex and condition
and the array of local values. `dlsm_gt_task_release`, `dlsm_gt_runtime_free`
and a refused spawn call it; the VP that reclaims a task calls `free` alone,
after it has released the stack and the fiber. So everything is released if no
task is left to its VP, that is, if `task_execution_released` always finds a
reference, and a task left to its VP always leaks.
-/

namespace Dlsmc.TaskControl

/-- Every control block freed so far owned nothing any more. -/
def ReleasesAll (s : State) : Prop := ∀ e ∈ s.frees, e.left = []

/-- A reference is held on a task whose VP releases its execution resources. -/
def keepsReference (s : State) : Act → Bool
  | .next c _ =>
    match s.pc c with
    | .execLocked t => s.externalRefs t ≠ 0
    | _ => true
  | _ => true

/-- The thread reclaims a task as its VP. -/
def Pc.vpReclaims : Pc → Bool
  | .unlink .vp _ | .unlock (some .vp) _ | .free .vp _ => true
  | _ => false

/-- What `task_free` needs to know of the completion mutex and condition. -/
def Initialized (s : State) (t : Nat) : Prop :=
  s.completionInitialized t = true ∨ s.completionMutex t = false ∧ s.completionCondition t = false

variable {s s' : State} {c t : Nat}

/-- `task_free` leaves nothing. -/
theorem taskFree_frees {p : Path} (h : Initialized s t) : (taskFree s p t).frees = ⟨t, p, []⟩ :: s.frees := by
  unfold taskFree
  dsimp only
  rcases h with h | h
  · rw [if_pos (by exact h)]
    simp [freeTask, owned, taskReleaseStack]
  · split
    · simp [freeTask, owned, taskReleaseStack]
    · simp [freeTask, owned, taskReleaseStack, h]

/-- The VP of a task without references is about to decide. -/
def Abandons (s : State) (a : Act) : Prop :=
  ∃ c fuel t, a = .next c fuel ∧ s.pc c = .execLocked t ∧ s.externalRefs t = 0

/-- The control block of `t` has been made and not refused. -/
def Made (s : State) (t : Nat) : Prop := t ∈ s.accepted ∨ ∃ c, (s.pc c).role = .fresh t

/-- What a step can do to the resources of tasks. -/
inductive ResourceMove (s : State) (a : Act) : State → Prop
  | make (c t : Nat) (fiber : Bool) : ResourceMove s a ((taskNew s t fiber).goto c (.spawn t))
  | free (c t : Nat) (p : Path) (b : List Nat) (pc : Pc) (hv : pc.vpReclaims = false) (hr : pc.role.task = none)
      (hp : s.pc c = .free p t ∨ s.pc c = .refused t ∧ p = .refused ∨ p = .runtimeFree) :
      ResourceMove s a ({ reclaim s p t with busy := b }.goto c pc)
  | quiet (s' : State) (hf : s'.frees = s.frees) (hi : s'.completionInitialized = s.completionInitialized)
      (hm : s'.completionMutex = s.completionMutex) (hc : s'.completionCondition = s.completionCondition)
      (hmade : ∀ t, Made s' t → Made s t)
      (hv : ∀ d, (s'.pc d).vpReclaims = true → (s.pc d).vpReclaims = true ∨ Abandons s a) : ResourceMove s a s'

variable {a : Act}

theorem Made.goto {s₁ : State} {pc : Pc} (hpc : s₁.pc = s.pc) (ha : ∀ t ∈ s₁.accepted, Made s t)
    (hr : ∀ t, pc.role = .fresh t → (s.pc c).role = .fresh t) (h : Made (s₁.goto c pc) t) : Made s t := by
  rcases h with h | ⟨d, hd⟩
  · exact ha t h
  · by_cases e : d = c
    · subst e
      rw [goto_pc_self] at hd
      exact .inr ⟨d, hr t hd⟩
    · rw [goto_pc_of_ne e, hpc] at hd
      exact .inr ⟨d, hd⟩

/-- A step that moves `c` and changes none of the resources. -/
theorem ResourceMove.goto {s₁ : State} {pc : Pc} (hf : s₁.frees = s.frees)
    (hi : s₁.completionInitialized = s.completionInitialized) (hm : s₁.completionMutex = s.completionMutex)
    (hc : s₁.completionCondition = s.completionCondition) (hpc : s₁.pc = s.pc) (ha : ∀ t ∈ s₁.accepted, Made s t)
    (hr : ∀ t, pc.role = .fresh t → (s.pc c).role = .fresh t)
    (hv : pc.vpReclaims = true → (s.pc c).vpReclaims = true ∨ Abandons s a) : ResourceMove s a (s₁.goto c pc) := by
  refine .quiet _ hf hi hm hc (fun t ht => ht.goto hpc ha hr) fun d hd => ?_
  by_cases e : d = c
  · subst e
    rw [goto_pc_self] at hd
    exact hv hd
  · rw [goto_pc_of_ne e, hpc] at hd
    exact .inl hd

theorem ResourceMove.acquire {pc : Pc} (ha : s.acquire c t pc = some s') (hr : ∀ t, pc.role ≠ .fresh t)
    (hv : pc.vpReclaims = false) : ResourceMove s a s' := by
  simp only [State.acquire] at ha
  split_ifs at ha
  exact Option.some.inj ha ▸ .goto rfl rfl rfl rfl rfl (fun _ => .inl) (fun t h => absurd h (hr t)) fun h =>
    absurd h (by simp [hv])

theorem ResourceMove.acquireMutex {pc : Pc} (ha : s.acquireMutex c t pc = some s') (hr : ∀ t, pc.role ≠ .fresh t)
    (hv : pc.vpReclaims = false) : ResourceMove s a s' := by
  simp only [State.acquireMutex] at ha
  split_ifs at ha
  exact Option.some.inj ha ▸ .goto rfl rfl rfl rfl rfl (fun _ => .inl) (fun t h => absurd h (hr t)) fun h =>
    absurd h (by simp [hv])

theorem next_resourceMove {fuel : Nat} (hn : next s c fuel = some s') : ResourceMove s (.next c fuel) s' := by
  cases hp : s.pc c with simp only [next, hp] at hn
  | idle => cases hn
  | spawn t =>
    obtain rfl := Option.some.inj hn
    unfold spawnAccept
    split
    · refine .goto rfl rfl rfl rfl rfl (fun x hx => ?_) (by rintro _ ⟨⟩) (by rintro ⟨⟩)
      rcases List.mem_cons.mp hx with rfl | hx
      · exact .inr ⟨c, by rw [hp]; rfl⟩
      · exact .inl hx
    · exact .goto rfl rfl rfl rfl rfl (fun _ => .inl) (fun x hx => by rw [hp]; exact hx) (by rintro ⟨⟩)
  | accepted t =>
    split_ifs at hn
    exact Option.some.inj hn ▸ .goto rfl rfl rfl rfl rfl (fun _ => .inl) (by rintro _ ⟨⟩) (by rintro ⟨⟩)
  | refused t => exact Option.some.inj hn ▸ .free c t .refused _ .idle rfl rfl (.inr (.inl ⟨hp, rfl⟩))
  | retain t => exact .acquire hn (by rintro _ ⟨⟩) rfl
  | retainLocked t =>
    obtain rfl := Option.some.inj hn
    unfold taskRetain
    split <;> exact .goto rfl rfl rfl rfl rfl (fun _ => .inl) (by rintro _ ⟨⟩) (by rintro ⟨⟩)
  | release t => exact .acquire hn (by rintro _ ⟨⟩) rfl
  | releaseLocked t =>
    obtain rfl := Option.some.inj hn
    unfold taskRelease
    split
    · exact .goto rfl rfl rfl rfl rfl (fun _ => .inl) (by rintro _ ⟨⟩) (by rintro ⟨⟩)
    · dsimp only
      split <;> exact .goto rfl rfl rfl rfl rfl (fun _ => .inl) (by rintro _ ⟨⟩) (by rintro ⟨⟩)
  | wait t => exact .acquireMutex hn (by rintro _ ⟨⟩) rfl
  | waitLocked t =>
    obtain rfl := Option.some.inj hn
    split <;> exact .goto rfl rfl rfl rfl rfl (fun _ => .inl) (by rintro _ ⟨⟩) (by rintro ⟨⟩)
  | run t => cases hn
  | done t => exact .acquire hn (by rintro _ ⟨⟩) rfl
  | doneMutex t => exact .acquireMutex hn (by rintro _ ⟨⟩) rfl
  | exec t => exact .acquire hn (by rintro _ ⟨⟩) rfl
  | execLocked t =>
    obtain rfl := Option.some.inj hn
    unfold taskExecutionReleased
    dsimp only
    split
    · rename_i hz
      exact .goto rfl rfl rfl rfl rfl (fun _ => .inl) (by rintro _ ⟨⟩) fun _ => .inr ⟨c, fuel, t, rfl, hp, hz⟩
    · exact .goto rfl rfl rfl rfl rfl (fun _ => .inl) (by rintro _ ⟨⟩) (by rintro ⟨⟩)
  | unlink p t =>
    obtain ⟨r, hr, rfl⟩ := Option.map_eq_some_iff.mp hn
    obtain ⟨tasks, links, u, e⟩ := taskUnlink_frame hr
    rw [e]
    refine .goto rfl rfl rfl rfl rfl (fun _ => .inl) ?_ fun hv => .inl ?_
    · split <;> rintro _ ⟨⟩
    · rw [hp]
      cases p <;> split at hv <;> first | rfl | cases hv
  | unlock p t =>
    cases p with
    | none =>
      obtain rfl := Option.some.inj hn
      rw [ret_eq]
      exact .goto rfl rfl rfl rfl rfl (fun _ => .inl) (by rintro _ ⟨⟩) (by rintro ⟨⟩)
    | some p =>
      obtain rfl := Option.some.inj hn
      refine .goto rfl rfl rfl rfl rfl (fun _ => .inl) (by rintro _ ⟨⟩) fun hv => .inl ?_
      rw [hp]
      cases p <;> first | rfl | cases hv
  | free p t =>
    obtain rfl := Option.some.inj hn
    rw [ret_eq]
    exact .free c t p _ .idle rfl rfl (.inl hp)
  | runtimeFree l =>
    cases l with
    | none => exact Option.some.inj hn ▸ .goto rfl rfl rfl rfl rfl (fun _ => .inl) (by rintro _ ⟨⟩) (by rintro ⟨⟩)
    | some t => exact Option.some.inj hn ▸ .free c t .runtimeFree _ _ rfl rfl (.inr (.inr rfl))
  | _ => exact Option.some.inj hn ▸ .goto rfl rfl rfl rfl rfl (fun _ => .inl) (by rintro _ ⟨⟩) (by rintro ⟨⟩)

theorem step_resourceMove (hs : step s a = some s') : ResourceMove s a s' := by
  cases a with simp only [step] at hs
  | spawn c t fiber =>
    split_ifs at hs
    exact Option.some.inj hs ▸ .make c t fiber
  | transfer c d t =>
    split_ifs at hs
    exact Option.some.inj hs ▸ .quiet _ rfl rfl rfl rfl (fun _ h => h) fun _ => .inl
  | yield c =>
    split at hs <;> [skip; cases hs]
    split_ifs at hs
    obtain rfl := Option.some.inj hs
    rw [ret_eq]
    exact .goto rfl rfl rfl rfl rfl (fun _ => .inl) (by rintro _ ⟨⟩) (by rintro ⟨⟩)
  | park c =>
    split at hs <;> [skip; cases hs]
    split_ifs at hs
    obtain rfl := Option.some.inj hs
    rw [ret_eq]
    exact .goto rfl rfl rfl rfl rfl (fun _ => .inl) (by rintro _ ⟨⟩) (by rintro ⟨⟩)
  | unpark c t =>
    split_ifs at hs
    exact Option.some.inj hs ▸ .quiet _ rfl rfl rfl rfl (fun _ h => h) fun _ => .inl
  | setspecific c ok =>
    split at hs <;> [skip; cases hs]
    exact Option.some.inj hs ▸ .quiet _ rfl rfl rfl rfl (fun _ h => h) fun _ => .inl
  | finish c =>
    split at hs <;> [skip; cases hs]
    exact Option.some.inj hs ▸ .goto rfl rfl rfl rfl rfl (fun _ => .inl) (by rintro _ ⟨⟩) (by rintro ⟨⟩)
  | setState st stop =>
    split_ifs at hs
    exact Option.some.inj hs ▸ .quiet _ rfl rfl rfl rfl (fun _ h => h) fun _ => .inl
  | next c fuel => exact next_resourceMove hs
  | _ =>
    split_ifs at hs
    exact Option.some.inj hs ▸ .goto rfl rfl rfl rfl rfl (fun _ => .inl) (by rintro _ ⟨⟩) (by rintro ⟨⟩)

/-! ## Nothing is left if a reference is held -/

/-- The invariant of the runs in which no task is left to its VP. -/
structure Clean (s : State) : Prop where
  released : ReleasesAll s
  vp : ∀ c, (s.pc c).vpReclaims = false
  init : ∀ t, Initialized s t

theorem initialized_taskFree {p : Path} {x : Nat} (h : Initialized s x) : Initialized (taskFree s p t) x := by
  unfold taskFree
  dsimp only
  split
  · rcases h with h | h
    · exact .inl h
    · exact .inr ⟨update_false h.1, update_false h.2⟩
  · exact h

theorem reclaim_pc {p : Path} : (reclaim s p t).pc = s.pc := by
  obtain ⟨_, _, _, _, _, _, e, -⟩ := reclaim_eq (s := s) (t := t) p
  rw [e]

theorem Clean.step (h : Clean s) (ha : keepsReference s a = true) (hs : step s a = some s') : Clean s' := by
  cases step_resourceMove hs with
  | make c t fiber =>
    refine ⟨h.released, fun d => ?_, fun x => ?_⟩
    · by_cases e : d = c
      · subst e; rw [goto_pc_self]; rfl
      · rw [goto_pc_of_ne e]; exact h.vp d
    · by_cases e : x = t
      · subst e
        exact .inl (by simp [taskNew, State.goto])
      · simpa [Initialized, taskNew, State.goto, e] using h.init x
  | free c t p b pc hv hr hp =>
    -- it is not the VP that frees the task
    have hpv : p ≠ .vp := by
      rintro rfl
      rcases hp with hp | hp | hp
      · have := h.vp c
        rw [hp] at this
        cases this
      · cases hp.2
      · cases hp
    have hre : reclaim s p t = taskFree s p t := by cases p <;> first | rfl | exact absurd rfl hpv
    refine ⟨fun e he => ?_, fun d => ?_, fun x => ?_⟩
    · rw [State.goto, hre] at he
      dsimp only at he
      rw [taskFree_frees (h.init t)] at he
      rcases List.mem_cons.mp he with rfl | he
      · rfl
      · exact h.released e he
    · by_cases e : d = c
      · subst e; rwa [goto_pc_self]
      · rw [goto_pc_of_ne e]
        exact (congrArg Pc.vpReclaims (congrFun reclaim_pc d)).trans (h.vp d)
    · rw [hre]
      exact initialized_taskFree (p := p) (h.init x)
  | quiet _ hf hi hm hc hmade hv =>
    refine ⟨?_, fun d => ?_, fun x => ?_⟩
    · simpa only [ReleasesAll, hf] using h.released
    · rw [Bool.eq_false_iff]
      intro hd
      rcases hv d hd with hv | ⟨c, fuel, t, rfl, hp, hz⟩
      · simp [h.vp d] at hv
      · simp [keepsReference, hp, hz] at ha
    · simpa only [Initialized, hi, hm, hc] using h.init x

theorem clean_of_reach (h : machine.ReachBy (fun s a => keepsReference s a = true) s) : Clean s := by
  refine h.invariant (I := Clean) ?_ ?_
  · rintro _ ⟨b, rfl⟩
    exact ⟨nofun, fun _ => rfl, fun _ => .inr ⟨rfl, rfl⟩⟩
  · exact fun s s' a _ hi ha hs => hi.step ha hs

/-! ## A task left to its VP leaks -/

/-- A control block keeps its completion mutex and condition until it is freed,
and the VP does not release them. -/
structure Leaks (s : State) : Prop where
  owns : ∀ t, Made s t → t ∉ freed s → s.completionMutex t = true ∧ s.completionCondition t = true
  left : ∀ e ∈ s.frees, e.path = .vp → .completionMutex ∈ e.left ∧ .completionCondition ∈ e.left

theorem freed_reclaim {p : Path} : freed (reclaim s p t) = t :: freed s := congrArg Ledger.freed ledger_reclaim

/-- Another task keeps its mutex and condition. -/
theorem reclaim_of_ne {p : Path} {x : Nat} (hx : x ≠ t) :
    (reclaim s p t).completionMutex x = s.completionMutex x ∧
      (reclaim s p t).completionCondition x = s.completionCondition x := by
  have hfree : ∀ p, (taskFree s p t).completionMutex x = s.completionMutex x ∧
      (taskFree s p t).completionCondition x = s.completionCondition x := by
    intro p
    unfold taskFree
    dsimp only
    split
    · exact ⟨Function.update_of_ne hx _ _, Function.update_of_ne hx _ _⟩
    · exact ⟨rfl, rfl⟩
  cases p with
  | vp => exact ⟨rfl, rfl⟩
  | release => exact hfree _
  | refused => exact hfree _
  | runtimeFree => exact hfree _

/-- The entry of a free, and what the VP leaves. -/
theorem reclaim_frees {p : Path} :
    ∃ left, (reclaim s p t).frees = ⟨t, p, left⟩ :: s.frees ∧ (p = .vp → left = owned s t) := by
  have hfree : ∀ p, ∃ left, (taskFree s p t).frees = ⟨t, p, left⟩ :: s.frees := by
    intro p
    unfold taskFree
    dsimp only
    split <;> exact ⟨_, rfl⟩
  cases p with
  | vp => exact ⟨_, rfl, fun _ => rfl⟩
  | release => exact (hfree _).imp fun _ h => ⟨h, nofun⟩
  | refused => exact (hfree _).imp fun _ h => ⟨h, nofun⟩
  | runtimeFree => exact (hfree _).imp fun _ h => ⟨h, nofun⟩

theorem Leaks.step (h : Leaks s) (hi : Inv s) (hs : step s a = some s') : Leaks s' := by
  cases step_resourceMove hs with
  | make c t fiber =>
    refine ⟨fun x hx hf => ?_, h.left⟩
    by_cases e : x = t
    · subst e
      simp [taskNew, State.goto]
    · have hx : Made s x := by
        rcases hx with hx | ⟨d, hd⟩
        · exact .inl hx
        · by_cases ed : d = c
          · subst ed
            rw [goto_pc_self] at hd
            exact absurd (Role.fresh.inj hd).symm e
          · rw [goto_pc_of_ne ed] at hd
            exact .inr ⟨d, hd⟩
      simpa [taskNew, State.goto, e] using h.owns x hx hf
  | free c t p b pc hv hr hp =>
    have hacc : (reclaim s p t).accepted = s.accepted := congrArg Ledger.accepted ledger_reclaim
    refine ⟨fun x hx hf => ?_, fun e he hvp => ?_⟩
    · have hf : x ∉ t :: freed s := freed_reclaim (s := s) (t := t) (p := p) ▸ hf
      have hne := List.ne_of_not_mem_cons hf
      have hf := List.not_mem_of_not_mem_cons hf
      have hx : Made s x := hx.goto (s := s) reclaim_pc (fun y hy => .inl (hacc ▸ hy)) fun y hy => by
        simp [hy, Role.task] at hr
      obtain ⟨e₁, e₂⟩ := reclaim_of_ne (s := s) (p := p) hne
      exact ⟨e₁.trans (h.owns x hx hf).1, e₂.trans (h.owns x hx hf).2⟩
    · obtain ⟨left, hfrees, hl⟩ := reclaim_frees (s := s) (t := t) (p := p)
      rw [State.goto] at he
      dsimp only at he
      rw [hfrees] at he
      rcases List.mem_cons.mp he with rfl | he
      · obtain rfl : p = .vp := hvp
        have hpc : s.pc c = .free .vp t := by
          rcases hp with hp | hp | hp
          · exact hp
          · cases hp.2
          · cases hp
        have hrole : (s.pc c).role = .reclaim true t := by rw [hpc]; rfl
        have hok := hi.life.roles c
        rw [show (ledger s).role c = _ from hrole] at hok
        have ho := h.owns t (.inl hok.accepted) hok.unfreed
        simp [hl rfl, owned, ho.1, ho.2]
      · exact h.left e he hvp
  | quiet _ hf hi hm hc hmade hv =>
    refine ⟨fun t ht hfr => ?_, by rw [hf]; exact h.left⟩
    rw [hm, hc]
    exact h.owns t (hmade t ht) (by rwa [freed, hf] at hfr)

theorem leaks_of_reach (h : machine.ReachBy (fun _ a => inUse a = true) s) : Inv s ∧ Leaks s := by
  refine h.invariant (I := fun s => Inv s ∧ Leaks s) ?_ ?_
  · rintro _ ⟨b, rfl⟩
    refine ⟨inv_initial b, fun t ht => ?_, nofun⟩
    rcases ht with ht | ⟨c, hc⟩
    · cases ht
    · cases hc
  · exact fun s s' a _ hi ha hs => ⟨hi.1.step ha hs, hi.2.step hi.1 hs⟩

/-- In every run in which a reference is held on each task whose VP releases its
execution resources, what a task owns is released before its control block is
freed, on every path. A task that is left to its VP always leaks its completion
mutex and condition. -/
theorem reclaim_releases_owned (s : State) :
    (machine.ReachBy (fun s a => keepsReference s a = true) s → ReleasesAll s) ∧
      (machine.ReachBy (fun _ a => inUse a = true) s → ∀ e ∈ s.frees, e.path = .vp →
        .completionMutex ∈ e.left ∧ .completionCondition ∈ e.left) :=
  ⟨fun h => (clean_of_reach h).released, fun h => (leaks_of_reach h).2.left⟩

/-- A task sets a local value and ends before its last reference is given up. -/
theorem reclaim_releases_owned_last : ∃ s, ReleasesAll s ∧ s.frees = [⟨0, .release, []⟩] := by
  obtain ⟨s, hr, hs⟩ := machine.exists_reachBy_of_run (C := fun s a => keepsReference s a = true) (c := keepsReference)
    (fun _ _ h => h) (s := State.initial false)
    (l := ([.spawn 0 0 true, .next 0 0, .next 0 0, .setState .running false, .dispatch 7 0, .setspecific 7 true,
        .finish 7] : List Act) ++ (List.replicate 10 (.next 7 1) : List Act) ++ ([.release 0 0] : List Act) ++
      (List.replicate 5 (.next 0 1) : List Act))
    (p := fun s => s.frees = [⟨0, .release, []⟩]) ⟨false, rfl⟩ (by decide +kernel)
  exact ⟨s, (reclaim_releases_owned s).1 hr, of_decide_eq_true hs⟩

/-- A detached task sets a local value, ends, and is reclaimed by its VP. -/
def leakRun : List Act :=
  ([.spawn 0 0 false, .next 0 0, .next 0 0, .release 0 0, .next 0 0, .next 0 0, .next 0 0, .setState .running false,
    .dispatch 7 0, .setspecific 7 true, .finish 7] : List Act) ++ (List.replicate 12 (.next 7 1) : List Act)

theorem detached_task_leaks : ∃ s, machine.Reach s ∧
    s.frees = [⟨0, .vp, [.completionMutex, .completionCondition, .localValues]⟩] ∧ ¬ ReleasesAll s := by
  obtain ⟨s, hr, hs⟩ := machine.exists_reach_of_run (s := State.initial false) (l := leakRun)
    (p := fun s => s.frees = [⟨0, .vp, [.completionMutex, .completionCondition, .localValues]⟩])
    ⟨false, rfl⟩ (by decide +kernel)
  have hs := of_decide_eq_true hs
  refine ⟨s, hr, hs, fun h => ?_⟩
  have := h ⟨0, .vp, [.completionMutex, .completionCondition, .localValues]⟩ (by rw [hs]; simp)
  cases this

end Dlsmc.TaskControl
