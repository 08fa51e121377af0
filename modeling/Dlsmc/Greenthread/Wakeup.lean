import Dlsmc.Greenthread.Lifecycle

/-!
# No wakeup is lost

`dlsm_gt_unpark` either finds its task parked and puts it in a run queue, or
leaves `unpark_pending` set. Only the next `rt_park` of the task clears it, and
makes the task ready instead of parking it.
-/

namespace Dlsmc.Runtime

variable {s s' : State} {a : Actor} {v t : Nat} {loc : Nat → Loc}

attribute [local grind =] Function.update_apply

/-- The action is `rt_park` of task `t`. -/
def Parks (t : Nat) (s : State) : Act → Prop
  | .vp v _ => s.pc v = .switch t .park
  | _ => False

/-- What `dlsm_gt_unpark` returns, at its section under `t->lock`. -/
def unparkOk (s : State) (t : Nat) (stopped : Bool) : Bool := !(s.state t == .finished || stopped)

/-- Task `t` keeps its token, and is not parked by the step. -/
structure SameToken (s s' : State) (t : Nat) : Prop where
  pending : s'.unparkPending t = s.unparkPending t
  parked : s'.state t = .parked → s.state t = .parked

theorem SameToken.of_state (hp : s'.unparkPending = s.unparkPending) (hs : s'.state = s.state) : SameToken s s' t :=
  ⟨congrFun hp t, fun h => congrFun hs t ▸ h⟩

theorem SameToken.of_update {u : Nat} {x : TaskState} (hp : s'.unparkPending = s.unparkPending)
    (hs : s'.state = Function.update s.state u x) (hx : x ≠ .parked) : SameToken s s' t := by
  refine ⟨congrFun hp t, fun h => ?_⟩
  rw [hs, Function.update_apply] at h
  split at h
  · exact absurd h hx
  · exact h

theorem execOp_token {o : Op} {r : State × List Op} (h : execOp s a o = some r) (hu : ∀ u b, o ≠ .unparkSection u b) :
    SameToken s r.1 t := by
  cases o with
  | unparkSection u b => exact absurd rfl (hu u b)
  | ready u q w =>
    simp only [execOp, makeReady, Option.ite_none_left_eq_some, Option.some.injEq] at h
    obtain ⟨-, rfl⟩ := h
    exact .of_update (u := u) (x := .ready) rfl rfl (by simp)
  | _ =>
    simp only [execOp, idleWake, idleWakeSection, gtStart, gtWait] at h
    repeat' split at h
    all_goals cases h
    all_goals exact .of_state rfl rfl

theorem Calls.token {x : Act} {r : State × List Op} (h : Calls s a r x) : SameToken s r.1 t := by
  cases x with
  | spawn b u p g w =>
    obtain ⟨rfl, hr⟩ := h
    obtain ⟨-, rfl | ⟨-, -, -, rfl⟩⟩ := gtSpawnEx_eq_some hr
    · exact .of_state rfl rfl
    · exact .of_update (u := u) (x := .new) rfl rfl (by simp)
  | addVp b g =>
    obtain ⟨rfl, hr⟩ := h
    rcases runtimeAddVp_eq_some hr with rfl | ⟨-, -, -, rfl⟩ <;> exact .of_state rfl rfl
  | stop b =>
    obtain ⟨rfl, hr⟩ := h
    simp only [gtStop] at hr
    repeat' split at hr
    all_goals cases hr
    all_goals exact .of_state rfl rfl
  | run y =>
    obtain ⟨rfl, hr⟩ := h
    simp only [gtRun] at hr
    repeat' split at hr
    all_goals cases hr
    all_goals exact .of_state rfl rfl
  | unpark b u =>
    obtain ⟨-, -, -, rfl⟩ := h
    exact .of_state rfl rfl
  | start y | wait y =>
    obtain ⟨-, rfl⟩ := h
    exact .of_state rfl rfl
  | leave | op | vp => cases h

theorem vpStep_token {ws : List Nat} {r : State × List Op} (h : vpStep s v ws = some r)
    (hp : s.pc v ≠ .switch t .park) : SameToken s r.1 t := by
  cases hpc : s.pc v with
  | off | run | exited => simp [vpStep, hpc] at h
  | scan second avoid pos pr =>
    simp only [vpStep, hpc, scanStep, Option.some.injEq] at h
    subst h
    dsimp only
    repeat' split
    all_goals exact .of_state rfl rfl
  | popped u =>
    simp only [vpStep, hpc, Option.ite_none_left_eq_some, Option.some.injEq] at h
    obtain ⟨-, rfl⟩ := h
    exact .of_update (u := u) (x := .running) rfl rfl (by simp)
  | switch u tr =>
    obtain ⟨-, ⟨-, rfl⟩ | ⟨rfl, rfl⟩ | ⟨-, -, rfl⟩⟩ := vpStep_switch hpc h
    · exact .of_update (u := u) (x := .ready) rfl rfl (by simp)
    · have hu : t ≠ u := fun e => hp (e ▸ hpc)
      unfold rtPark
      split
      · exact ⟨Function.update_of_ne hu _ _, fun h => by simpa [setPc, taskMakeReady, hu] using h⟩
      · exact ⟨rfl, fun h => by simpa [setPc, hu] using h⟩
    · exact .of_update (u := u) (x := .finished) rfl rfl (by simp)
  | _ =>
    simp only [vpStep, hpc] at h
    repeat' split at h
    all_goals cases h
    all_goals exact .of_state rfl rfl

/-- The outcomes of the section of `dlsm_gt_unpark`. -/
theorem unparkSection_cases {b : Bool} {r : State × List Op} (h : unparkSection s t b = some r) :
    unparkOk s t b = false ∧ r = (s, []) ∨
    unparkOk s t b = true ∧ s.state t = .parked ∧ r = makeReady s t (unparkTarget s t).1 (unparkTarget s t).2 ∨
    unparkOk s t b = true ∧ s.state t ≠ .parked ∧
      r = ({ s with unparkPending := Function.update s.unparkPending t true }, []) := by
  simp only [unparkSection, Option.ite_none_left_eq_some] at h
  obtain ⟨-, h⟩ := h
  split at h
  · rename_i hc
    refine .inl ⟨?_, (Option.some.inj h).symm⟩
    rcases hc with hc | hc <;> simp [unparkOk, hc]
  · rename_i hc
    have hok : unparkOk s t b = true := by simpa [unparkOk, not_or] using hc
    split at h
    · rename_i hp
      exact .inr (.inl ⟨hok, hp, (Option.some.inj h).symm⟩)
    · rename_i hp
      exact .inr (.inr ⟨hok, hp, (Option.some.inj h).symm⟩)

/-- Only `dlsm_gt_unpark` and `rt_park` touch the token. -/
theorem token_cases {x : Act} (h : step s x = some s') :
    SameToken s s' t ∧ ¬ Parks t s x ∨
    (s.state t ≠ .parked ∧ s'.state t = s.state t ∧ s'.unparkPending t = true ∧ ¬ Parks t s x) ∨
    (Parks t s x ∧ s'.unparkPending t = false ∧ s'.state t = if s.unparkPending t then .ready else .parked) := by
  obtain ⟨a, r, hc, hr, rfl⟩ | ⟨v, tr, u, rfl, ho, hpc, rfl⟩ | ⟨a, o, l, r, rfl, ho, hr, rfl⟩ |
    ⟨v, ws, r, rfl, ho, -, hr, rfl⟩ := step_cases h
  · refine .inl ⟨⟨hr.token.pending, hr.token.parked⟩, ?_⟩
    cases x <;> first | exact hr.elim | exact id
  · exact .inl ⟨.of_state rfl rfl, id⟩
  · by_cases hu : ∃ u b, o = .unparkSection u b
    · obtain ⟨u, b, rfl⟩ := hu
      obtain ⟨-, rfl⟩ | ⟨-, -, rfl⟩ | ⟨-, hp, rfl⟩ := unparkSection_cases hr
      · exact .inl ⟨.of_state rfl rfl, id⟩
      · exact .inl ⟨.of_update (u := u) (x := .ready) rfl rfl (by simp), id⟩
      · by_cases hut : t = u
        · subst hut
          exact .inr (.inl ⟨hp, rfl, Function.update_self .., id⟩)
        · exact .inl ⟨⟨Function.update_of_ne hut _ _, fun h => h⟩, id⟩
    · have := execOp_token (t := t) hr fun u b e => hu ⟨u, b, e⟩
      exact .inl ⟨⟨this.pending, this.parked⟩, id⟩
  · by_cases hp : s.pc v = .switch t .park
    · obtain ⟨-, ⟨hx, -⟩ | ⟨-, rfl⟩ | ⟨hx, -, -⟩⟩ := vpStep_switch hp hr
      · cases hx
      · refine .inr (.inr ⟨hp, ?_⟩)
        unfold rtPark
        split <;> simp_all [setPc, setOps, taskMakeReady]
      · cases hx
    · have := vpStep_token hr hp
      exact .inl ⟨⟨this.pending, this.parked⟩, hp⟩

/-- A parked task has no token. -/
theorem parked_no_token (h : machine.Reach s) (t : Nat) : s.state t = .parked → s.unparkPending t = false := by
  refine Machine.Reach.invariant (I := fun s => s.state t = .parked → s.unparkPending t = false) ?_ ?_ h
  · rintro s ⟨groups, -, -, rfl⟩ _
    rfl
  · intro s s' x _ ih hs hp
    obtain ⟨ht, -⟩ | ⟨hn, he, -, -⟩ | ⟨-, hf, -⟩ := token_cases (t := t) hs
    · rw [ht.pending]
      exact ih (ht.parked hp)
    · exact absurd (he ▸ hp) hn
    · exact hf

/-- `dlsm_gt_unpark` has seen `RT_STOPPED` only if the runtime is stopped. -/
def StopSeen (s : State) : Prop := ∀ a t, Op.unparkSection t true ∈ s.ops a → s.rtState = .stopped

theorem execOp_section {o : Op} {r : State × List Op} (h : execOp s a o = some r)
    (hm : Op.unparkSection t true ∈ r.2) : s.rtState = .stopped ∧ r.1 = s := by
  cases o with
  | unpark u =>
    simp only [execOp, Option.ite_none_left_eq_some, Option.some.injEq] at h
    obtain ⟨-, rfl⟩ := h
    simp at hm
    exact ⟨hm.2, rfl⟩
  | ready u q w =>
    simp only [execOp, makeReady, Option.ite_none_left_eq_some, Option.some.injEq] at h
    obtain ⟨-, rfl⟩ := h
    cases w <;> simp [Wake.op] at hm
  | unparkSection u b =>
    obtain ⟨-, rfl⟩ | ⟨-, -, rfl⟩ | ⟨-, -, rfl⟩ := unparkSection_cases h
    · simp at hm
    · generalize (unparkTarget s u).2 = w at hm
      cases w <;> simp [makeReady, Wake.op] at hm
    · simp at hm
  | _ =>
    simp only [execOp, idleWake, idleWakeSection, gtStart, gtWait, groupScan] at h
    repeat' split at h
    all_goals cases h
    all_goals simp at hm

theorem vpStep_section {ws : List Nat} {r : State × List Op} (h : vpStep s v ws = some r) (b : Bool) :
    Op.unparkSection t b ∉ r.2 := by
  cases hpc : s.pc v with
  | switch u tr =>
    obtain ⟨-, ⟨-, rfl⟩ | ⟨-, rfl⟩ | ⟨-, -, rfl⟩⟩ := vpStep_switch hpc h
    · simp [rtEnqueue]
    · unfold rtPark
      split <;> simp
    · intro hm
      rcases mem_rtTaskDone_ops hm with ⟨w, -, hw⟩ | hw <;> cases hw
  | _ =>
    simp only [vpStep, hpc] at h
    repeat' split at h
    all_goals cases h
    all_goals simp

theorem Calls.section {x : Act} {r : State × List Op} (h : Calls s a r x) (b : Bool) : Op.unparkSection t b ∉ r.2 := by
  cases x with
  | spawn c u p g w =>
    obtain ⟨rfl, hr⟩ := h
    obtain ⟨-, rfl | ⟨-, -, -, rfl⟩⟩ := gtSpawnEx_eq_some hr <;> simp
  | addVp c g =>
    obtain ⟨rfl, hr⟩ := h
    rcases runtimeAddVp_eq_some hr with rfl | ⟨-, -, -, rfl⟩
    · simp
    · dsimp only
      split <;> simp
  | stop c =>
    obtain ⟨rfl, hr⟩ := h
    rcases gtStop_eq_some hr with rfl | ⟨-, rfl⟩ | ⟨-, rfl⟩
    · simp
    · simp
    · dsimp only
      split <;> simp
  | run y =>
    obtain ⟨rfl, hr⟩ := h
    simp only [gtRun] at hr
    repeat' split at hr
    all_goals cases hr
    all_goals simp
  | unpark c u =>
    obtain ⟨-, -, -, rfl⟩ := h
    simp
  | start y | wait y =>
    obtain ⟨-, rfl⟩ := h
    simp
  | leave | op | vp => cases h

/-- `RT_STOPPED` is the last state of a runtime. -/
theorem step_stopped (hp : Placed s loc) {x : Act} (he : step s x = some s') (hs : s.rtState = .stopped) :
    s'.rtState = .stopped := by
  obtain ⟨a, r, hc, hr, rfl⟩ | ⟨v, tr, t, rfl, ho, hpc, rfl⟩ | ⟨a, o, l, r, rfl, ho, hr, rfl⟩ |
    ⟨v, ws, r, rfl, ho, -, hr, rfl⟩ := step_cases he
  · exact (hr.stopped hs).1
  · exact hs
  · by_cases hst : ∃ n i b, o = .startVp n i b
    · obtain ⟨n, i, b, rfl⟩ := hst
      simp only [execOp] at hr
      split at hr <;> cases hr <;> exact hs
    · exact (execOp_stopped hr hs fun n i b e => hst ⟨n, i, b, e⟩).1
  · rcases hp.vp_tally hr with ⟨t, -, -, rfl⟩ | ⟨hf, -⟩
    · simp [rtTaskDone, setPc, setOps, hs]
    · obtain ⟨h, -⟩ := vpStep_sameLife hr hf
      exact h.rtState.trans hs

theorem stopSeen (h : machine.Reach s) : StopSeen s := by
  refine Machine.Reach.invariant (I := StopSeen) ?_ ?_ h
  · rintro s ⟨groups, -, -, rfl⟩ a t hm
    simp [State.initial] at hm
  · intro s s' x hr ih he b t hm
    obtain ⟨loc, hp⟩ := reach_placed hr
    replace he : step s x = some s' := he
    have hst := step_stopped hp he
    obtain ⟨a, r, hc, hcall, rfl⟩ | ⟨v, tr, u, rfl, ho, hpc, rfl⟩ | ⟨a, o, l, r, rfl, ho, hop, rfl⟩ |
      ⟨v, ws, r, rfl, ho, -, hv, rfl⟩ := step_cases he
    · refine hst ?_
      rcases mem_setOps hm with ⟨rfl, hx⟩ | ⟨-, hx⟩
      · exact absurd hx (hcall.section true)
      · exact ih b t (hcall.frame.2.1 ▸ hx)
    · exact ih b t hm
    · refine hst ?_
      rcases mem_setOps_append (execOp_ops hop) ho hm with hx | hx
      · exact (execOp_section hop hx).1
      · exact ih b t hx
    · refine hst ?_
      rcases mem_setOps hm with ⟨rfl, hx⟩ | ⟨-, hx⟩
      · exact absurd hx (vpStep_section hv true)
      · exact ih b t ((vpStep_sameVps hv).1.ops ▸ hx)

theorem Placed.queuedOnce (h : Placed s loc) {q : Queue} (hm : t ∈ s.queue q) : QueuedOnce s t := by
  refine ⟨q, List.count_eq_one_of_mem (h.nodup q) hm, fun q' hq hm' => hq ?_⟩
  have := (h.queued q t).mp hm
  rw [(h.queued q' t).mp hm'] at this
  exact Loc.queued.inj this

/-- As long as task `t` is not parked, it keeps its token. -/
theorem token_stable (h : machine.Reach s) (hp : s.unparkPending t = true)
    (hs : machine.StepsBy (fun s x => ¬ Parks t s x) s s') : machine.Reach s' ∧ s'.unparkPending t = true := by
  refine hs.stable (I := fun s => s.unparkPending t = true) (fun s s' x _ hi hc he => ?_) h hp
  obtain ⟨ht, -⟩ | ⟨-, -, ht, -⟩ | ⟨hx, -, -⟩ := token_cases (t := t) he
  · exact ht.pending.trans hi
  · exact ht
  · exact absurd hx hc

/-- `rt_park` of a task with a token makes it ready. -/
theorem park_with_token {x : Act} (h : machine.Reach s) (hp : s.unparkPending t = true) (hx : Parks t s x)
    (hs : step s x = some s') : s'.state t = .ready ∧ QueuedOnce s' t := by
  cases x with
  | vp v ws =>
    obtain ⟨loc, hl⟩ := reach_placed (Machine.Reach.step (a := .vp v ws) h hs)
    obtain ⟨a, r, hc, hr, -⟩ | ⟨_, tr, u, hv, -⟩ | ⟨a, o, l, r, hv, -⟩ | ⟨_, ws', r, hv, ho, -, hr, rfl⟩ :=
      step_cases hs
    · exact hr.elim
    · cases hv
    · cases hv
    · cases hv
      obtain ⟨-, ⟨hx, -⟩ | ⟨-, rfl⟩ | ⟨hx, -, -⟩⟩ := vpStep_switch hx hr
      · cases hx
      · refine ⟨?_, hl.queuedOnce (q := ownQueue s v t) ?_⟩ <;> simp [rtPark, hp, setPc, setOps, taskMakeReady]
      · cases hx
  | _ => exact hx.elim

/-- What `dlsm_gt_unpark` of `t` has done when it has left `t->lock`, in `s'`. -/
structure Delivered (s s' : State) (t : Nat) (stopped : Bool) : Prop where
  error : unparkOk s t stopped = false → s.state t = .finished ∨ s.rtState = .stopped
  parked : unparkOk s t stopped = true → s.state t = .parked → s'.state t = .ready ∧ QueuedOnce s' t
  remembered : unparkOk s t stopped = true → s.state t ≠ .parked → s'.unparkPending t = true ∧
    ∀ s₁ x s₂, machine.StepsBy (fun s x => ¬ Parks t s x) s' s₁ → Parks t s₁ x → step s₁ x = some s₂ →
      s₂.state t = .ready ∧ QueuedOnce s₂ t

/-- No wakeup is lost: a parked task has no token; `dlsm_gt_unpark` fails only
for a finished task or a stopped runtime, and otherwise makes a parked task
ready, or is remembered until the next `rt_park`, which leaves the task ready. -/
theorem no_lost_wakeup (h : machine.Reach s) :
    (∀ t, s.state t = .parked → s.unparkPending t = false) ∧
      ∀ a t stopped l s', s.ops a = .unparkSection t stopped :: l → step s (.op a) = some s' →
        Delivered s s' t stopped := by
  refine ⟨fun t => parked_no_token h t, fun a t stopped l s' ho hs => ?_⟩
  have hr' : machine.Reach s' := Machine.Reach.step (a := .op a) h hs
  obtain ⟨loc, hl⟩ := reach_placed hr'
  simp only [step, ho, execOp] at hs
  obtain ⟨r, hr, rfl⟩ := Option.map_eq_some_iff.mp hs
  obtain ⟨hok, -⟩ | ⟨hok, hp, rfl⟩ | ⟨hok, hp, rfl⟩ := unparkSection_cases hr
  · refine ⟨fun _ => ?_, fun ht => by simp [hok] at ht, fun ht => by simp [hok] at ht⟩
    simp only [unparkOk, Bool.not_eq_false', Bool.or_eq_true, beq_iff_eq] at hok
    refine hok.imp_right fun hst => ?_
    subst hst
    exact stopSeen h a t (by simp [ho])
  · refine ⟨fun ht => by simp [hok] at ht, fun _ _ => ⟨?_, hl.queuedOnce (q := (unparkTarget s t).1) ?_⟩,
      fun _ hn => absurd hp hn⟩ <;> simp [makeReady, setOps, taskMakeReady]
  · have ht : (setOps { s with unparkPending := Function.update s.unparkPending t true } a ([] ++ l)).unparkPending t
        = true := Function.update_self ..
    refine ⟨fun ht => by simp [hok] at ht, fun _ hn => absurd hn hp, fun _ _ => ⟨ht, fun s₁ x s₂ h₁ hx h₂ => ?_⟩⟩
    obtain ⟨hr₁, hp₁⟩ := token_stable hr' ht h₁
    exact park_with_token hr₁ hp₁ hx h₂

/-- VP 0 runs task 1, and thread 2 unparks it, up to the section under its lock. -/
def unparkRun : List Act :=
  List.flatten [[.spawn (.ext 0) 1 0 (some 0) none, .op (.ext 0), .op (.ext 0), .start 1],
    List.replicate 3 (.op (.ext 1)),
    List.replicate 6 (.vp 0 []), [.unpark (.ext 2) 1, .op (.ext 2)]]

theorem no_lost_wakeup_running :
    ∃ s, machine.Reach s ∧ s.ops (.ext 2) = [.unparkSection 1 false] ∧ s.state 1 = .running ∧
      ∀ s', step s (.op (.ext 2)) = some s' → Delivered s s' 1 false := by
  obtain ⟨s, hs, hp⟩ := Machine.exists_reach_of_run (M := machine) (s := State.initial [0]) (l := unparkRun)
    (p := fun s => s.ops (.ext 2) == [.unparkSection 1 false] && s.state 1 == .running)
    ⟨[0], by decide, by decide, rfl⟩ (by decide +kernel)
  simp only [Bool.and_eq_true, beq_iff_eq] at hp
  exact ⟨s, hs, hp.1, hp.2, fun s' h' => (no_lost_wakeup hs).2 _ _ _ _ _ hp.1 h'⟩

end Dlsmc.Runtime
