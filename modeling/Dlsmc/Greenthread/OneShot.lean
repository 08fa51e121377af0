import Dlsmc.Greenthread.Lifecycle

/-!
# Spawning into a runtime that `dlsm_gt_run` drives

`dlsm_gt_run` goes on into `dlsm_gt_wait`, which sets `RT_JOINING` while tasks
run; from then on `dlsm_gt_spawn_ex` and `dlsm_gt_runtime_add_vp` refuse
(`spawn_refused_while_running`). Until then, and as long as a task is live,
both accept (`one_shot_accepts`).
-/

namespace Dlsmc.Runtime

variable {s s' : State} {a : Actor} {v t : Nat} {loc : Nat → Loc}

/-- A call of a run that `dlsm_gt_run` drives: nobody stops, starts or waits. -/
def runDriven : Act → Bool
  | .stop _ | .start _ | .wait _ => false
  | _ => true

/-- A thread is past the section of `dlsm_gt_wait` that sets `RT_JOINING`. -/
def Joining (s : State) : Prop := ∃ a, ∃ o ∈ s.ops a, o.joins = true

structure OneShotOk (s : State) : Prop where
  stopping : s.rtState = .stopping → s.shutdown = true
  stopped : s.rtState = .stopped → s.joined = true
  joining : s.rtState = .joining → Joining s

theorem OneShotOk.frame (h : OneShotOk s)
    (hs : s'.rtState = s.rtState ∧ s'.shutdown = s.shutdown ∧ s'.joined = s.joined) (hj : Joining s → Joining s') :
    OneShotOk s' := by
  obtain ⟨e1, e2, e3⟩ := hs
  obtain ⟨hstopping, hstopped, hjoining⟩ := h
  exact ⟨by rwa [e1, e2], by rwa [e1, e3], fun hr => hj (hjoining (e1 ▸ hr))⟩

/-- A thread goes on from operations that do not join. -/
theorem Joining.setOps (h : Joining s) {o l k : List Op} (hops : s'.ops = s.ops) (ho : s.ops a = o ++ l)
    (hn : ∀ x ∈ o, x.joins = false) : Joining (setOps s' a (k ++ l)) := by
  obtain ⟨b, x, hm, hj⟩ := h
  refine ⟨b, x, ?_, hj⟩
  by_cases e : b = a
  · subst e
    rw [ho, List.mem_append] at hm
    rcases hm with hm | hm
    · simp [hn x hm] at hj
    · simp [Runtime.setOps, hm]
  · simpa [Runtime.setOps, Function.update_of_ne e, hops] using hm

theorem OneShotOk.call (h : OneShotOk s) {x : Act} {r : State × List Op} (hc : canCall s a = true)
    (hx : Calls s a r x) (hd : runDriven x = true) : OneShotOk (setOps r.1 a r.2) := by
  have same : ∀ {s' : State} {l : List Op}, s'.rtState = s.rtState ∧ s'.shutdown = s.shutdown ∧ s'.joined = s.joined →
      s'.ops = s.ops → OneShotOk (setOps s' a l) := by
    intro s' l he ho
    refine h.frame he fun hj => ?_
    simpa using hj.setOps (l := []) (o := []) (k := l) ho (canCall_ops hc) (by simp)
  cases x with
  | spawn b t p g w =>
    obtain ⟨rfl, hr⟩ := hx
    obtain ⟨-, rfl | ⟨-, -, -, rfl⟩⟩ := gtSpawnEx_eq_some hr
    · exact same ⟨rfl, rfl, rfl⟩ rfl
    · exact same ⟨rfl, rfl, rfl⟩ rfl
  | addVp b g =>
    obtain ⟨rfl, hr⟩ := hx
    rcases runtimeAddVp_eq_some hr with rfl | ⟨-, -, -, rfl⟩
    · exact same ⟨rfl, rfl, rfl⟩ rfl
    · exact same ⟨rfl, rfl, rfl⟩ rfl
  | run x =>
    obtain ⟨rfl, hr⟩ := hx
    simp only [gtRun] at hr
    repeat' split at hr
    all_goals cases hr
    all_goals exact same ⟨rfl, rfl, rfl⟩ rfl
  | unpark b t =>
    obtain ⟨-, -, -, rfl⟩ := hx
    exact same ⟨rfl, rfl, rfl⟩ rfl
  | stop | start | wait => cases hd
  | leave | op | vp => cases hx

theorem OneShotOk.op (h : OneShotOk s) {o : Op} {l : List Op} {r : State × List Op} (ho : s.ops a = o :: l)
    (hr : execOp s a o = some r) : OneShotOk (setOps r.1 a (r.2 ++ l)) := by
  have hops := execOp_ops hr
  have same : o.joins = false → r.1.rtState = s.rtState ∧ r.1.shutdown = s.shutdown ∧ r.1.joined = s.joined →
      OneShotOk (setOps r.1 a (r.2 ++ l)) := fun hn he =>
    h.frame he fun hj => hj.setOps (o := [_]) hops ho (by simpa using hn)
  cases o with
  | start b =>
    rcases gtStart_eq_some hr with rfl | ⟨-, -, -, -, rfl⟩ | ⟨-, -, -, rfl⟩
    · exact same rfl ⟨rfl, rfl, rfl⟩
    · exact ⟨fun _ => rfl, by simp [setOps], by simp [setOps]⟩
    · exact ⟨by simp [setOps], by simp [setOps], by simp [setOps]⟩
  | startVp n i b =>
    refine same rfl ?_
    simp only [execOp] at hr
    split at hr <;> cases hr <;> exact ⟨rfl, rfl, rfl⟩
  | addPublish w g =>
    refine same rfl ?_
    simp only [execOp] at hr
    split at hr <;> cases hr <;> exact ⟨rfl, rfl, rfl⟩
  | wait =>
    simp only [execOp, gtWait, Option.ite_none_left_eq_some] at hr
    obtain ⟨-, hr⟩ := hr
    split at hr <;> cases hr
    · exact ⟨by simp [setOps], by simp [setOps], fun _ => ⟨a, .join s.startedVps 0, by simp [setOps], rfl⟩⟩
    · exact same rfl ⟨rfl, rfl, rfl⟩
  | join n i =>
    simp only [execOp] at hr
    repeat' split at hr
    · cases hr
      exact h.frame ⟨rfl, rfl, rfl⟩ fun _ => ⟨a, .waitEnd, by simp [setOps], rfl⟩
    · cases hr
      exact h.frame ⟨rfl, rfl, rfl⟩ fun _ => ⟨a, .join n (i + 1), by simp [setOps], rfl⟩
    · cases hr
  | waitEnd =>
    simp only [execOp, Option.ite_none_left_eq_some, Option.some.injEq] at hr
    obtain ⟨-, rfl⟩ := hr
    exact ⟨by simp [setOps], fun _ => rfl, by simp [setOps]⟩
  | _ =>
    obtain ⟨hs, -⟩ := execOp_sameLife hr rfl (by simp)
    exact same rfl ⟨hs.rtState, hs.shutdown, hs.joined⟩

theorem OneShotOk.step (h : OneShotOk s) (hp : Placed s loc) {x : Act} (hd : runDriven x = true)
    (he : step s x = some s') : OneShotOk s' := by
  obtain ⟨a, r, hc, hr, rfl⟩ | ⟨v, tr, t, rfl, ho, hpc, rfl⟩ | ⟨a, o, l, r, rfl, ho, hr, rfl⟩ |
    ⟨v, ws, r, rfl, ho, -, hr, rfl⟩ := step_cases he
  · exact h.call hc hr hd
  · exact h.frame ⟨rfl, rfl, rfl⟩ id
  · exact h.op ho hr
  · obtain ⟨hs, -⟩ := vpStep_sameVps hr
    have hj : Joining s → Joining (setOps r.1 (.vp v) r.2) := fun hj => by
      simpa using hj.setOps (l := []) (o := []) (k := r.2) hs.ops ho (by simp)
    rcases hp.vp_tally hr with ⟨t, -, -, rfl⟩ | ⟨hf, -⟩
    · obtain ⟨hstopping, hstopped, hjoining⟩ := h
      refine ⟨fun hr => ?_, fun hr => hstopped ?_, fun hr => hj (hjoining ?_)⟩ <;>
        simp only [setOps, rtTaskDone, setPc] at hr ⊢ <;> grind -linarith
    · obtain ⟨hs, -⟩ := vpStep_sameLife hr hf
      exact h.frame ⟨hs.rtState, hs.shutdown, hs.joined⟩ hj

theorem reach_oneShotOk (h : machine.ReachBy (fun _ x => runDriven x = true) s) : OneShotOk s := by
  refine h.invariant ?_ ?_
  · rintro s ⟨groups, -, -, rfl⟩
    refine ⟨?_, ?_, ?_⟩ <;> simp [State.initial]
  · intro s s' x hr hi hd hs
    obtain ⟨loc, hp⟩ := reach_placed hr.reach
    exact hi.step hp hd hs

/-- While a task is live, the runtime accepts unless it is being joined. -/
theorem accepts_iff (h : machine.ReachBy (fun _ x => runDriven x = true) s) (hl : 0 < s.live) :
    accepts s = true ↔ ¬ Joining s := by
  have ho := reach_oneShotOk h
  have hlife := (reach_life h.reach).2
  have hsh : s.shutdown = true → Dead s := fun e => (hlife.shutdown e).resolve_left (by omega)
  refine ⟨fun ha ⟨b, o, hm, hj⟩ => ?_, fun hj => ?_⟩
  · simp [(hlife.joining b o hm hj).2] at ha
  · cases hr : s.rtState with
    | created | running => simp [accepts, hr]
    | joining => exact absurd (ho.joining hr) hj
    | stopping =>
      have := (hsh (ho.stopping hr)).1
      simp [hr] at this
    | stopped =>
      have hjd := hlife.joined (ho.stopped hr)
      have := (hsh hjd.1).2.1
      simp [hjd.2] at this

theorem mem_accepted_step (hp : Placed s loc) {x : Act} (he : step s x = some s') (ht : t ∈ s.accepted) :
    t ∈ s'.accepted := by
  obtain ⟨a, r, hc, hr, rfl⟩ | ⟨v, tr, u, rfl, ho, hpc, rfl⟩ | ⟨a, o, l, r, rfl, ho, hr, rfl⟩ |
    ⟨v, ws, r, rfl, ho, -, hr, rfl⟩ := step_cases he
  · cases x with
    | spawn b u p g w =>
      obtain ⟨rfl, hr⟩ := hr
      obtain ⟨-, rfl | ⟨-, -, -, rfl⟩⟩ := gtSpawnEx_eq_some hr
      · exact ht
      · exact List.mem_append_left _ ht
    | addVp b g =>
      obtain ⟨rfl, hr⟩ := hr
      rcases runtimeAddVp_eq_some hr with rfl | ⟨-, -, -, rfl⟩ <;> exact ht
    | stop b =>
      obtain ⟨rfl, hr⟩ := hr
      rcases gtStop_eq_some hr with rfl | ⟨-, rfl⟩ | ⟨-, rfl⟩ <;> exact ht
    | run x =>
      obtain ⟨rfl, hr⟩ := hr
      simp only [gtRun] at hr
      repeat' split at hr
      all_goals cases hr
      all_goals exact ht
    | unpark b u =>
      obtain ⟨-, -, -, rfl⟩ := hr
      exact ht
    | start x | wait x =>
      obtain ⟨-, rfl⟩ := hr
      exact ht
    | leave | op | vp => cases hr
  · exact ht
  · have := (hp.op_tally (by simp [ho]) hr).accepted
    simpa [setOps, this] using ht
  · rcases hp.vp_tally hr with ⟨u, -, -, rfl⟩ | ⟨-, h⟩
    · exact ht
    · simpa [setOps, h.accepted] using ht

/-- `dlsm_gt_spawn_ex` by `a` returns task `t`, which has run when `dlsm_gt_run` returns. -/
def SpawnAccepted (s : State) (a : Actor) (t p : Nat) (g w : Option Nat) : Prop :=
  ∃ s', step s (.spawn a t p g w) = some s' ∧ t ∈ s'.accepted ∧
    ∀ s'', machine.Steps s' s'' → s''.joined = true → s''.completions t = 1

/-- `dlsm_gt_runtime_add_vp` by `a` goes on to create or publish the VP. -/
def AddVpAccepted (s : State) (a : Actor) (g : Nat) : Prop :=
  ∃ s', step s (.addVp a g) = some s' ∧ (s'.ops a = [.addCreate s.nvp g] ∨ s'.ops a = [.addPublish s.nvp g])

theorem spawnAccepted_iff (hr : machine.Reach s) (hl : s.rtLock = none) (hc : canCall s a = true)
    (ht : s.state t = .none) {p : Nat} {g w : Option Nat} (hok : optionsOk s p (spawnGroup s a g) w = true) :
    SpawnAccepted s a t p g w ↔ accepts s = true := by
  obtain ⟨loc, hp⟩ := reach_placed hr
  have hna : t ∉ s.accepted := by
    rw [hp.accepted]
    simpa using (hp.of_state t).1 ht
  refine ⟨fun ⟨s', hs, hm, _⟩ => ?_, fun ha => ?_⟩
  · obtain ⟨-, r, hr, rfl⟩ := call_eq_some hs
    obtain ⟨-, rfl | ⟨-, -, ha, -⟩⟩ := gtSpawnEx_eq_some hr
    · exact absurd hm hna
    · exact ha
  · have hs : step s (.spawn a t p g w) = some (setOps (accept s t p (spawnGroup s a g) w) a
        [.ready t (spawnTarget s a p (spawnGroup s a g) w).1 (spawnTarget s a p (spawnGroup s a g) w).2]) := by
      simp [step, call, hc, gtSpawnEx, ht, hl, hok, ha]
    have hs' : machine.step s (.spawn a t p g w) = _ := hs
    have hm : t ∈ (accept s t p (spawnGroup s a g) w).accepted := by simp [accept]
    refine ⟨_, hs, hm, fun s'' hs'' hj => ?_⟩
    obtain ⟨hr'', hm''⟩ := hs''.stable (I := fun u => t ∈ u.accepted) (fun u u' x hu hi he =>
      (reach_placed hu).elim fun _ hp => mem_accepted_step hp he hi) (hr.step hs') hm
    obtain ⟨htally, hlife⟩ := reach_life hr''
    obtain ⟨hsh, hst⟩ := hlife.joined hj
    have hz : s''.live = 0 := (hlife.shutdown hsh).resolve_right fun hd => by simp [hd.2.1] at hst
    exact (htally.all_finished hz hm'').2

theorem addVpAccepted_iff (hl : s.rtLock = none) (hc : canCall s a = true) {g : Nat} (hg : g < s.ngroups)
    (hn : s.groupNvp g ≠ 0) (hv : s.nvp ≠ intMax) : AddVpAccepted s a g ↔ accepts s = true := by
  refine ⟨fun ⟨s', hs, ho⟩ => ?_, fun ha => ?_⟩
  · obtain ⟨-, r, hr, rfl⟩ := call_eq_some hs
    rcases runtimeAddVp_eq_some hr with rfl | ⟨-, -, ha, -⟩
    · simp [setOps] at ho
    · exact ha
  · simp only [AddVpAccepted, step, call, hc, if_true, runtimeAddVp, hl, ne_eq, not_true, if_false, ha, hv, hn,
      or_false,
      Nat.not_le.mpr hg, Bool.true_eq_false, Option.map_some, Option.some.injEq, exists_eq_left']
    split <;> simp [setOps]

/-- In every state of a run that `dlsm_gt_run` drives, while a task is live,
tasks and VPs are accepted exactly as long as no thread is joining the VPs. -/
theorem one_shot_accepts (hr : machine.ReachBy (fun _ x => runDriven x = true) s) (hlive : 0 < s.live)
    (hl : s.rtLock = none) :
    (∀ a t p g w, canCall s a = true → s.state t = .none → optionsOk s p (spawnGroup s a g) w = true →
      (SpawnAccepted s a t p g w ↔ ¬ Joining s)) ∧
    ∀ a g, canCall s a = true → g < s.ngroups → s.groupNvp g ≠ 0 → s.nvp ≠ intMax →
      (AddVpAccepted s a g ↔ ¬ Joining s) := by
  have hacc := accepts_iff hr hlive
  exact ⟨fun a t p g w hc ht hok => (spawnAccepted_iff hr.reach hl hc ht hok).trans hacc,
    fun a g hc hg hn hv => (addVpAccepted_iff hl hc hg hn hv).trans hacc⟩

/-- `dlsm_gt_run` has started the VP, which runs task 1. -/
def oneShotRun : List Act :=
  List.flatten [[.spawn (.ext 0) 1 0 (some 0) none, .op (.ext 0), .op (.ext 0), .run 1],
    List.replicate 3 (.op (.ext 1)), List.replicate 6 (.vp 0 [])]

theorem one_shot_accepts_before_wait :
    ∃ s, machine.ReachBy (fun _ x => runDriven x = true) s ∧ s.pc 0 = .run 1 ∧ s.ops (.ext 1) = [.wait] ∧
      SpawnAccepted s (.vp 0) 2 0 none none ∧ AddVpAccepted s (.ext 5) 0 := by
  obtain ⟨s, hs, hp⟩ := Machine.exists_reachBy_of_run (M := machine) (C := fun _ x => runDriven x = true)
    (c := fun _ x => runDriven x) (fun _ _ h => h) (s := State.initial [0]) (l := oneShotRun)
    (p := fun s => s.pc 0 == .run 1 && s.ops (.ext 1) == [.wait] && decide (0 < s.live) && s.rtLock == none &&
      canCall s (.vp 0) && canCall s (.ext 5) && s.state 2 == .none && optionsOk s 0 (spawnGroup s (.vp 0) none) none &&
      decide (0 < s.ngroups) && s.groupNvp 0 != 0 && s.nvp != intMax && accepts s)
    ⟨[0], by decide, by decide, rfl⟩ (by decide +kernel)
  simp only [Bool.and_eq_true, beq_iff_eq, decide_eq_true_eq, bne_iff_ne] at hp
  obtain ⟨⟨⟨⟨⟨⟨⟨⟨⟨⟨⟨hpc, hops⟩, hlive⟩, hlock⟩, hvp⟩, hext⟩, hnew⟩, hok⟩, hgroups⟩, hvps⟩, hnvp⟩, hacc⟩ := hp
  obtain ⟨hspawn, hadd⟩ := one_shot_accepts hs hlive hlock
  have hj : ¬ Joining s := (accepts_iff hs hlive).mp hacc
  exact ⟨s, hs, hpc, hops, (hspawn _ _ _ _ _ hvp hnew hok).mpr hj, (hadd _ _ hext hgroups hvps hnvp).mpr hj⟩

/-- The thread in `dlsm_gt_run` has gone on into `dlsm_gt_wait` while task 1
runs: its valid spawn, and another thread's `add_vp`, are refused. -/
theorem spawn_refused_while_running :
    ∃ s, machine.ReachBy (fun _ x => runDriven x = true) s ∧ s.pc 0 = .run 1 ∧ 0 < s.live ∧ s.rtLock = none ∧
      canCall s (.vp 0) = true ∧ s.state 2 = .none ∧ optionsOk s 0 (spawnGroup s (.vp 0) none) none = true ∧
      canCall s (.ext 5) = true ∧ 0 < s.ngroups ∧ s.groupNvp 0 ≠ 0 ∧ s.nvp ≠ intMax ∧
      ¬ SpawnAccepted s (.vp 0) 2 0 none none ∧ ¬ AddVpAccepted s (.ext 5) 0 := by
  obtain ⟨s, hs, hp⟩ := Machine.exists_reachBy_of_run (M := machine) (C := fun _ x => runDriven x = true)
    (c := fun _ x => runDriven x) (fun _ _ h => h) (s := State.initial [0]) (l := oneShotRun ++ [Act.op (.ext 1)])
    (p := fun s => s.pc 0 == .run 1 && decide (0 < s.live) && s.rtLock == none &&
      canCall s (.vp 0) && canCall s (.ext 5) && s.state 2 == .none && optionsOk s 0 (spawnGroup s (.vp 0) none) none &&
      decide (0 < s.ngroups) && s.groupNvp 0 != 0 && s.nvp != intMax && !accepts s)
    ⟨[0], by decide, by decide, rfl⟩ (by decide +kernel)
  simp only [Bool.and_eq_true, beq_iff_eq, decide_eq_true_eq, bne_iff_ne, Bool.not_eq_true'] at hp
  obtain ⟨⟨⟨⟨⟨⟨⟨⟨⟨⟨hpc, hlive⟩, hlock⟩, hvp⟩, hext⟩, hnew⟩, hok⟩, hgroups⟩, hvps⟩, hnvp⟩, hacc⟩ := hp
  refine ⟨s, hs, hpc, hlive, hlock, hvp, hnew, hok, hext, hgroups, hvps, hnvp, fun h => ?_, fun h => ?_⟩
  · simp [(spawnAccepted_iff hs.reach hlock hvp hnew hok).mp h] at hacc
  · simp [(addVpAccepted_iff hlock hext hgroups hvps hnvp).mp h] at hacc

end Dlsmc.Runtime
