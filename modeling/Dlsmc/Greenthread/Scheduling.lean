import Dlsmc.Greenthread.Placement

/-!
# The scheduler keeps every task in one place

Each step of a VP, of a call or of a task keeps the tasks placed
(`Placed.vp_step`, `Placed.op`, `Placed.call`), so in every reachable state a task
is where its data says, and nowhere else (`placement`).
-/

namespace Dlsmc.Runtime

variable {s s' : State} {a : Actor} {v t : Nat} {loc : Nat → Loc}

attribute [local grind =] Function.update_apply

/-! ## Steps of a VP -/

/-- VP `v` goes on with the task it has, or without one. -/
theorem Placed.vp_frame (h : Placed s loc) (ho : s.ops (.vp v) = []) {l : List Op} (hl : ∀ x ∈ l, x.isReady = false)
    (ht : SameTasks s s') (hs : SameVps s s') (hp : ∀ w, w ≠ v → s'.pc w = s.pc w) (hv : SameHeld (s.pc v) (s'.pc v)) :
    Placed (setOps s' (.vp v) l) loc := by
  refine h.frame ⟨ht.queue, ht.state, ht.priority, ht.groupId, ht.vpId, ht.lastVpId, ht.accepted⟩ (fun w => ?_)
    (Nat.le_of_eq hs.nvp.symm) (fun w _ => by rw [← hs.group]; rfl) (fun b u q w hm => ?_) (fun b u q w hm => ?_)
  · by_cases e : w = v
    · exact e ▸ hv
    · change SameHeld (s.pc w) (s'.pc w)
      rw [hp w e]
      exact .refl _
  · rcases mem_setOps hm with ⟨rfl, hx⟩ | ⟨-, hx⟩
    · simpa [Op.isReady] using hl _ hx
    · exact hs.ops ▸ hx
  · have e : b ≠ .vp v := by
      rintro rfl
      simp [ho] at hm
    simp only [setOps, Function.update_of_ne e, hs.ops]

theorem Serves.fits_ownQueue (hs : Serves s v t) (hp : s.pc v ≠ .off) : Fits s t (ownQueue s v t) := by
  cases hw : s.vpId t with
  | none =>
    simp only [ownQueue, hw, Fits]
    exact ⟨trivial, trivial, hs.2, hp⟩
  | some w =>
    obtain rfl := hs.1 w hw
    simp only [ownQueue, hw, Fits]
    exact ⟨trivial, trivial, hs.2⟩

/-- The switch from a task that yields, parks or has finished. -/
theorem Placed.switch (h : Placed s loc) {ws : List Nat} {tr : Transition} {r : State × List Op}
    (ho : s.ops (.vp v) = []) (hpc : s.pc v = .switch t tr) (hr : vpStep s v ws = some r) :
    ∃ loc', Placed (setOps r.1 (.vp v) r.2) loc' := by
  have hl : loc t = .held v := (h.held v t).mp (by simp [hpc, VPc.held])
  have hok := h.ok t
  rw [hl] at hok
  have hfit : Fits s t (ownQueue s v t) := hok.2.fits_ownQueue (by simp [hpc])
  have ha : loc t ≠ .absent := by simp [hl]
  have hq : ∀ q, loc t ≠ .queued q := by simp [hl]
  obtain ⟨-, ⟨-, rfl⟩ | ⟨-, rfl⟩ | ⟨-, -, rfl⟩⟩ := vpStep_switch hpc hr
  · have hG : Gives s (setOps (rtEnqueue s v t).1 (.vp v) (rtEnqueue s v t).2) t :=
      h.gives_switch hpc ho (by simp [rtEnqueue, Op.isReady]) ⟨rfl, rfl⟩ ⟨rfl, rfl, rfl, rfl, rfl, rfl, rfl⟩
    exact ⟨_, h.push hG ha hq hfit rfl rfl⟩
  · cases hu : s.unparkPending t with
    | true =>
      have hG : Gives s (setOps (rtPark s v t).1 (.vp v) (rtPark s v t).2) t := by
        simp only [rtPark, hu, if_true]
        refine h.gives_switch hpc ho (by simp [Op.isReady]) ⟨?_, ?_⟩ ⟨?_, ?_, ?_, ?_, ?_, ?_, ?_⟩ <;> rfl
      refine ⟨_, h.push hG ha hq hfit ?_ ?_⟩ <;> simp only [rtPark, hu, if_true] <;> rfl
    | false =>
      have hG : Gives s (setOps (rtPark s v t).1 (.vp v) (rtPark s v t).2) t := by
        simp only [rtPark, hu, Bool.false_eq_true, if_false]
        refine h.gives_switch hpc ho (by simp) ⟨?_, ?_⟩ ⟨?_, ?_, ?_, ?_, ?_, ?_, ?_⟩ <;> rfl
      refine ⟨_, h.rest hG hl ?_ (fun u hu' => ?_) (.inl ⟨rfl, ?_⟩)⟩ <;>
        simp only [rtPark, hu, Bool.false_eq_true, if_false, setOps, setPc, Function.update_self]
      exact Function.update_of_ne hu' _ _
  · have hG : Gives s (setOps (rtTaskDone s v t ws).1 (.vp v) (rtTaskDone s v t ws).2) t := by
      refine h.gives_switch hpc ho (fun x hx => ?_) ⟨rfl, rfl⟩ ⟨rfl, rfl, rfl, rfl, rfl, rfl, rfl⟩
      rcases mem_rtTaskDone_ops hx with ⟨w, -, rfl⟩ | rfl <;> rfl
    refine ⟨_, h.rest hG hl rfl (fun u hu => ?_) (.inr ⟨rfl, ?_⟩)⟩
    · exact Function.update_of_ne hu _ _
    · exact Function.update_self _ _ _

/-- `sched_next` marks the task it dispatches. -/
theorem Placed.dispatch (h : Placed s loc) (ho : s.ops (.vp v) = []) (hpc : s.pc v = .popped t) :
    Placed (setOps (setPc { s with
      state := Function.update s.state t .running
      lastVpId := Function.update s.lastVpId t (some v) } v (.mark t)) (.vp v) []) loc := by
  have hl : loc t = .held v := (h.held v t).mp (by simp [hpc, VPc.held])
  have hok := h.ok t
  rw [hl] at hok
  have hu : Function.update loc t (.held v) = loc := by rw [← hl, Function.update_eq_self]
  rw [← hu]
  refine h.move (fun q => ?_) (fun w u => ?_) (fun w => ?_) (fun b u q w hm => ?_) (fun b u q w _ hm => ?_) (by simp)
    (fun u hu => ?_) ⟨rfl, rfl⟩ ⟨?_, hok.2⟩ (fun w hw => ?_) (h.vp t) ⟨fun u => ?_, by simp⟩
  · refine ⟨h.nodup q, fun u => ?_⟩
    have := h.queued q t
    simp only [setOps, setPc]
    grind -linarith
  · have := h.held w u
    have := h.held w t
    simp only [setOps, setPc]
    grind -linarith [VPc.held]
  · simp only [setOps, setPc]
    grind -linarith
  · rcases mem_setOps hm with ⟨rfl, hx⟩ | ⟨-, hx⟩
    · cases hx
    · refine .inl ⟨?_, hx⟩
      rintro rfl
      have := (h.ready b u q w hx).1
      simp [hl] at this
  · have e : b ≠ .vp v := by
      rintro rfl
      simp [ho] at hm
    simp [setOps, setPc, Function.update_of_ne e]
  · simp [setOps, setPc, Function.update_of_ne hu]
  · simp [setOps, setPc]
  · simp only [setOps, setPc, Function.update_self, Option.some.injEq] at hw ⊢
    subst hw
    refine ⟨hok.2.2, by simp⟩
  · have := (h.accepted t).mpr (by simp [hl])
    simp only [setOps, setPc]
    grind -linarith

theorem Placed.vp_step (h : Placed s loc) {ws : List Nat} {r : State × List Op} (ho : s.ops (.vp v) = [])
    (hr : vpStep s v ws = some r) : ∃ loc', Placed (setOps r.1 (.vp v) r.2) loc' := by
  cases hpc : s.pc v with
  | off | run | exited => simp [vpStep, hpc] at hr
  | switch t tr => exact h.switch ho hpc hr
  | popped t =>
    simp only [vpStep, hpc, Option.ite_none_left_eq_some, Option.some.injEq] at hr
    obtain ⟨-, rfl⟩ := hr
    exact ⟨loc, h.dispatch ho hpc⟩
  | scan second avoid pos pr =>
    simp only [vpStep, hpc, scanStep, Option.some.injEq] at hr
    subst hr
    split
    · refine ⟨loc, h.vp_frame ho (by simp) ⟨rfl, rfl, rfl, rfl, rfl, rfl, rfl⟩ ⟨rfl, rfl, rfl, rfl, rfl, rfl⟩
        (fun w hw => Function.update_of_ne hw _ _) ?_⟩
      simp [SameHeld, hpc, setPc, VPc.held]
    · split
      case _ q t l b nx hpr =>
        obtain ⟨hq, hm⟩ := probe_eq_some hpr
        have ht := h.take pos (b := b) hq hm (by simp [hpc, VPc.held])
        refine ⟨_, ht.vp_frame ho (by simp) (.refl _) (.refl _) (fun _ _ => rfl) (.refl _)⟩
      case _ =>
        refine ⟨loc, h.vp_frame ho (by simp) ⟨rfl, rfl, rfl, rfl, rfl, rfl, rfl⟩ ⟨rfl, rfl, rfl, rfl, rfl, rfl⟩
          (fun w hw => Function.update_of_ne hw _ _) ?_⟩
        simp [SameHeld, hpc, setPc, VPc.held]
  | _ =>
    obtain ⟨hs, hp, -⟩ := vpStep_sameVps hr
    simp only [vpStep, hpc] at hr
    repeat' split at hr
    all_goals cases hr
    all_goals refine ⟨loc, h.vp_frame ho (by simp) ⟨rfl, rfl, rfl, rfl, rfl, rfl, rfl⟩ hs hp ?_⟩
    all_goals simp only [SameHeld, hpc, setPc, VPc.held, Function.update_self]
    all_goals grind -linarith

/-! ## Operations of calls -/

/-- An operation that is not a push leaves the tasks alone. -/
theorem execOp_sameTasks {o : Op} {r : State × List Op} (h : execOp s a o = some r) (ho : o.isReady = false)
    (hu : ∀ t b, o ≠ .unparkSection t b) :
    SameTasks s r.1 ∧ r.1.group = s.group ∧ ∀ x ∈ r.2, x.isReady = false := by
  cases o with
  | ready t q w => cases ho
  | unparkSection t b => exact absurd rfl (hu t b)
  | _ =>
    simp only [execOp, idleWake, idleWakeSection, groupScan, gtStart, gtWait] at h
    repeat' split at h
    all_goals cases h
    all_goals refine ⟨⟨rfl, rfl, rfl, rfl, rfl, rfl, rfl⟩, rfl, ?_⟩
    all_goals simp [Op.isReady]

theorem unparkSection_eq_some {b : Bool} {r : State × List Op} (h : unparkSection s t b = some r) :
    r = (s, []) ∨ (s.state t = .parked ∧ r = makeReady s t (unparkTarget s t).1 (unparkTarget s t).2) ∨
      r = ({ s with unparkPending := Function.update s.unparkPending t true }, []) := by
  simp only [unparkSection, Option.ite_none_left_eq_some] at h
  obtain ⟨-, h⟩ := h
  split at h
  · exact .inl (Option.some.inj h).symm
  · split at h
    · rename_i hp
      exact .inr (.inl ⟨hp, (Option.some.inj h).symm⟩)
    · exact .inr (.inr (Option.some.inj h).symm)

/-- The state of a task tells where it is, unless it is in use. -/
theorem Placed.of_state (h : Placed s loc) (t : Nat) :
    (s.state t = .none → loc t = .absent) ∧ (s.state t = .parked → loc t = .parked) ∧
      (s.state t = .finished → loc t = .finished) := by
  have hok := h.ok t
  cases hl : loc t with
  | held v =>
    simp only [hl, LocOk] at hok
    rw [hok.1]
    split <;> simp
  | _ =>
    simp only [hl, LocOk] at hok
    simp [hok]

theorem Placed.fits_unparkTarget (h : Placed s loc) (t : Nat) : Fits s t (unparkTarget s t).1 := by
  unfold unparkTarget
  split
  case _ w hw => exact ⟨rfl, hw, (h.vp t w hw).2⟩
  case _ l hv hl => exact ⟨rfl, hv, h.last t l hl⟩
  case _ hv _ => exact ⟨rfl, hv, rfl⟩

@[simp] theorem Wake.op_isReady (w : Wake) (tag : Tag) : (w.op tag).isReady = false := by
  cases w <;> rfl

theorem makeReady_ops (q : Queue) (w : Wake) : ∀ x ∈ (makeReady s t q w).2, x.isReady = false := by
  intro x hx
  simp only [makeReady, List.mem_cons, List.not_mem_nil, or_false] at hx
  rcases hx with rfl | rfl
  · rfl
  · exact w.op_isReady _

/-- An operation of a call that moves no task. -/
theorem Placed.op_frame (h : Placed s loc) {o : Op} {l l' : List Op} (ho : s.ops a = o :: l) (hn : o.isReady = false)
    (hl : ∀ x ∈ l', x.isReady = false) (ht : SameTasks s s') (hp : ∀ v, SameHeld (s.pc v) (s'.pc v))
    (hv : s.nvp ≤ s'.nvp) (hg : s'.group = s.group) (hops : s'.ops = s.ops) : Placed (setOps s' a (l' ++ l)) loc := by
  have htl := h.tail_not_ready ho
  refine h.frame ⟨ht.queue, ht.state, ht.priority, ht.groupId, ht.vpId, ht.lastVpId, ht.accepted⟩ hp hv
    (fun v _ => by rw [← hg]; rfl) (fun b u q w hm => ?_) (fun b u q w hm => ?_)
  · rcases mem_setOps hm with ⟨rfl, hx⟩ | ⟨-, hx⟩
    · rcases List.mem_append.mp hx with hx | hx
      · simpa [Op.isReady] using hl _ hx
      · simpa [Op.isReady] using htl _ hx
    · exact hops ▸ hx
  · have e : b ≠ a := by
      rintro rfl
      rw [ho, List.mem_cons] at hm
      rcases hm with rfl | hm
      · cases hn
      · simpa [Op.isReady] using htl _ hm
    simp only [setOps, Function.update_of_ne e, hops]

theorem Placed.op (h : Placed s loc) (hv : VpsOk s) (hst : StartOk s) {o : Op} {l : List Op} {r : State × List Op}
    (ho : s.ops a = o :: l) (hr : execOp s a o = some r) : ∃ loc', Placed (setOps r.1 a (r.2 ++ l)) loc' := by
  have hm : o ∈ s.ops a := by simp [ho]
  have hops := execOp_ops hr
  -- the thread of a VP is created at most once
  have created : ∀ w, s.pc w = .off → ∀ u, SameHeld (s.pc u) (Function.update s.pc w (.tryNext false) u) := by
    intro w hw u
    by_cases e : u = w
    · subst e
      simp [SameHeld, hw, VPc.held]
    · rw [Function.update_of_ne e]
      exact .refl _
  cases o with
  | ready t q w =>
    simp only [execOp, Option.ite_none_left_eq_some, Option.some.injEq] at hr
    obtain ⟨-, rfl⟩ := hr
    have hl := (h.ready a t q w hm).1
    have hok := h.ok t
    rw [hl] at hok
    have hG : Gives s (setOps (makeReady s t q w).1 a ((makeReady s t q w).2 ++ l)) t := by
      refine h.gives_op ho (by simp [hl]) (fun b q' hb => ?_) (fun _ => ⟨q, w, rfl⟩) (makeReady_ops q w) ⟨rfl, rfl⟩
        ⟨rfl, rfl, rfl, rfl, rfl, rfl, rfl⟩
      rw [hl] at hb
      cases hb
      rfl
    exact ⟨_, h.push hG (by simp [hl]) (by simp [hl]) hok.2 rfl rfl⟩
  | unparkSection t b =>
    rcases unparkSection_eq_some hr with rfl | ⟨hp, rfl⟩ | rfl
    · exact ⟨loc, h.op_frame ho rfl (by simp) (.refl s) (fun _ => .refl _) (Nat.le_refl _) rfl rfl⟩
    · have hl := (h.of_state t).2.1 hp
      have hG : Gives s (setOps (makeReady s t (unparkTarget s t).1 (unparkTarget s t).2).1 a
          ((makeReady s t (unparkTarget s t).1 (unparkTarget s t).2).2 ++ l)) t :=
        h.gives_op ho (by simp [hl]) (by simp [hl]) (by simp [Op.isReady]) (makeReady_ops _ _) ⟨rfl, rfl⟩
          ⟨rfl, rfl, rfl, rfl, rfl, rfl, rfl⟩
      exact ⟨_, h.push hG (by simp [hl]) (by simp [hl]) (h.fits_unparkTarget t) rfl rfl⟩
    · exact ⟨loc, h.op_frame ho rfl (by simp) ⟨rfl, rfl, rfl, rfl, rfl, rfl, rfl⟩ (fun _ => .refl _) (Nat.le_refl _)
        rfl rfl⟩
  | startVp n i b =>
    obtain ⟨ht, hg, hl⟩ := execOp_sameTasks hr rfl (by simp)
    have hoff := (hst.starting a n i b hm).2 i (Nat.le_refl i)
    refine ⟨loc, h.op_frame ho rfl hl ht (fun u => ?_) (Nat.le_of_eq ?_) hg hops⟩ <;>
      simp only [execOp] at hr <;> split at hr <;> cases hr
    · exact created i hoff u
    · exact .refl _
    · rfl
    · rfl
  | addCreate w g =>
    obtain ⟨ht, hg, hl⟩ := execOp_sameTasks hr rfl (by simp)
    obtain ⟨rfl, -⟩ := hv.adding a w g (.inl hm)
    have hoff : s.pc s.nvp = .off := by
      by_contra hoff
      rcases hv.lt_nvp_of_head ho rfl hoff with hlt | ⟨g', hg'⟩
      · exact Nat.lt_irrefl _ hlt
      · cases hg'
    cases hr
    exact ⟨loc, h.op_frame ho rfl hl ht (created s.nvp hoff) (Nat.le_refl _) hg hops⟩
  | addPublish w g =>
    obtain ⟨ht, hg, hl⟩ := execOp_sameTasks hr rfl (by simp)
    obtain ⟨rfl, -⟩ := hv.adding a w g (.inr hm)
    refine ⟨loc, h.op_frame ho rfl hl ht (fun u => ?_) ?_ hg hops⟩ <;>
      simp only [execOp] at hr <;> split at hr <;> cases hr
    · exact .refl _
    · exact .refl _
    · exact Nat.le_succ _
    · exact Nat.le_succ _
  | start b =>
    obtain ⟨ht, hg, hl⟩ := execOp_sameTasks hr rfl (by simp)
    refine ⟨loc, h.op_frame ho rfl hl ht (fun u => ?_) (Nat.le_of_eq ?_) hg hops⟩ <;>
      rcases gtStart_eq_some hr with rfl | ⟨-, -, -, -, rfl⟩ | ⟨-, -, -, rfl⟩
    all_goals exact .refl _
  | unlockRt =>
    cases hr
    exact ⟨loc, h.op_frame ho rfl (by simp) ⟨rfl, rfl, rfl, rfl, rfl, rfl, rfl⟩ (fun _ => .refl _) (Nat.le_refl _)
      rfl rfl⟩
  | _ =>
    obtain ⟨ht, hg, hl⟩ := execOp_sameTasks hr rfl (by simp)
    obtain ⟨hs, hp, -⟩ := execOp_sameVps hr rfl (by simp)
    exact ⟨loc, h.op_frame ho rfl hl ht (fun u => hp ▸ .refl _) (Nat.le_of_eq hs.nvp.symm) hg hops⟩

/-! ## Calls -/

/-- A call that accepts no task. -/
theorem Placed.call_frame (h : Placed s loc) (hc : canCall s a = true) {l : List Op} (ht : SameTasks s s')
    (hl : ∀ x ∈ l, x.isReady = false) (hp : s'.pc = s.pc) (hops : s'.ops = s.ops) (hn : s'.nvp = s.nvp)
    (hg : ∀ v, s.pc v ≠ .off ∨ v < s.nvp → s'.group v = s.group v) : Placed (setOps s' a l) loc := by
  have ho := canCall_ops hc
  refine h.frame ⟨ht.queue, ht.state, ht.priority, ht.groupId, ht.vpId, ht.lastVpId, ht.accepted⟩
    (fun v => ?_) (Nat.le_of_eq hn.symm) hg (fun b u q w hm => ?_) (fun b u q w hm => ?_)
  · change SameHeld (s.pc v) (s'.pc v)
    rw [hp]
    exact .refl _
  · rcases mem_setOps hm with ⟨rfl, hx⟩ | ⟨-, hx⟩
    · simpa [Op.isReady] using hl _ hx
    · exact hops ▸ hx
  · have e : b ≠ a := by
      rintro rfl
      simp [ho] at hm
    simp only [setOps, Function.update_of_ne e, hops]

/-- What `dlsm_gt_spawn_ex` accepts. -/
theorem gtSpawnEx_eq_some {p : Nat} {g w : Option Nat} {r : State × List Op} (h : gtSpawnEx s a t p g w = some r) :
    s.state t = .none ∧ (r = (s, []) ∨
      s.rtLock = none ∧ optionsOk s p (spawnGroup s a g) w = true ∧ accepts s = true ∧
        r = (accept s t p (spawnGroup s a g) w, [.ready t (spawnTarget s a p (spawnGroup s a g) w).1
          (spawnTarget s a p (spawnGroup s a g) w).2])) := by
  simp only [gtSpawnEx, Option.ite_none_left_eq_some, not_or, Decidable.not_not] at h
  obtain ⟨⟨hs, hl⟩, h⟩ := h
  refine ⟨hs, ?_⟩
  split at h
  · exact .inl (Option.some.inj h).symm
  · rename_i ho
    simp only [not_or, Bool.not_eq_false] at ho
    exact .inr ⟨hl, ho.1, ho.2, (Option.some.inj h).symm⟩

theorem optionsOk_vpId {p g w : Nat} (h : optionsOk s p g (some w) = true) : w < s.nvp ∧ s.group w = g := by
  simp only [optionsOk, Bool.and_eq_true, decide_eq_true_eq, beq_iff_eq] at h
  exact h.2

/-- A new task fits the queue its spawner chooses. -/
theorem fits_spawnTarget (hc : canCall s a = true) {p g : Nat} {w : Option Nat} (hok : optionsOk s p g w = true) :
    Fits (Runtime.accept s t p g w) t (spawnTarget s a p g w).1 := by
  cases w with
  | some w => simp [spawnTarget, Fits, Runtime.accept, (optionsOk_vpId hok).2]
  | none =>
    cases a with
    | ext x => simp [spawnTarget, Fits, Runtime.accept]
    | vp v =>
      simp only [spawnTarget]
      split
      · rename_i hg
        have hp : s.pc v ≠ .off := by
          intro e
          simp [canCall, e] at hc
        simp [Fits, Runtime.accept, hg, hp]
      · simp [Fits, Runtime.accept]

theorem Placed.accept (h : Placed s loc) (hc : canCall s a = true) {p g : Nat} {w : Option Nat}
    (hn : s.state t = .none) (hok : optionsOk s p g w = true) :
    ∃ loc', Placed
      (setOps (accept s t p g w) a [.ready t (spawnTarget s a p g w).1 (spawnTarget s a p g w).2]) loc' := by
  have ho := canCall_ops hc
  have hl := (h.of_state t).1 hn
  have hla := h.ok t
  rw [hl] at hla
  have hvp : ∀ v, w = some v → v < s.nvp ∧ s.group v = g := fun v hv => optionsOk_vpId (hv ▸ hok)
  refine ⟨_, h.move (t := t) (x := .spawning a (spawnTarget s a p g w).1) (fun q => ?_) (fun v u => ?_) (fun v => ?_)
    (fun b u q w' hm => ?_) (fun b u q w' hu hm => ?_) (fun b q hx => ?_) (fun u hu => ?_) ⟨rfl, rfl⟩ ⟨?_, ?_⟩
    (fun v hv => ?_) (fun v hv => ?_) ⟨fun u => ?_, by simp⟩⟩
  · refine ⟨h.nodup q, fun u => ?_⟩
    have := h.queued q t
    simp only [setOps, Runtime.accept]
    grind -linarith
  · have := h.held v t
    simp only [setOps, Runtime.accept]
    grind -linarith
  · simp [setOps, Runtime.accept]
  · rcases mem_setOps hm with ⟨rfl, hx⟩ | ⟨-, hx⟩
    · simp only [List.mem_singleton, Op.ready.injEq] at hx
      obtain ⟨rfl, rfl, rfl⟩ := hx
      exact .inr ⟨rfl, rfl, by simp [setOps]⟩
    · refine .inl ⟨?_, hx⟩
      rintro rfl
      have := (h.ready b u q w' hx).1
      simp [hl] at this
  · have e : b ≠ a := by
      rintro rfl
      simp [ho] at hm
    simp [setOps, Runtime.accept, Function.update_of_ne e]
  · cases hx
    exact ⟨_, by simp [setOps]; rfl⟩
  · simp [setOps, Runtime.accept, Function.update_of_ne hu]
  · simp [setOps, Runtime.accept]
  · exact (fits_spawnTarget hc hok).mono rfl rfl rfl rfl fun _ => id
  · simp [setOps, Runtime.accept, hla.2] at hv
  · simp only [setOps, Runtime.accept, Function.update_self] at hv ⊢
    exact hvp v hv
  · simp [setOps, Runtime.accept]

theorem Placed.call (h : Placed s loc) (hv : VpsOk s) {x : Act} {r : State × List Op} (hc : canCall s a = true)
    (hx : Calls s a r x) : ∃ loc', Placed (setOps r.1 a r.2) loc' := by
  have same : ∀ {s' : State} {l : List Op}, SameTasks s s' → (∀ x ∈ l, x.isReady = false) → s'.pc = s.pc →
      s'.ops = s.ops → s'.nvp = s.nvp → s'.group = s.group → ∃ loc', Placed (setOps s' a l) loc' :=
    fun ht hl hp ho hn hg => ⟨loc, h.call_frame hc ht hl hp ho hn fun v _ => by rw [hg]⟩
  cases x with
  | spawn b t p g w =>
    obtain ⟨rfl, hr⟩ := hx
    obtain ⟨hn, rfl | ⟨-, hok, -, rfl⟩⟩ := gtSpawnEx_eq_some hr
    · exact same (.refl s) (by simp) rfl rfl rfl rfl
    · exact h.accept hc hn hok
  | addVp b g =>
    obtain ⟨rfl, hr⟩ := hx
    rcases runtimeAddVp_eq_some hr with rfl | ⟨hl, -, -, rfl⟩
    · exact same (.refl s) (by simp) rfl rfl rfl rfl
    · refine ⟨loc, h.call_frame hc ⟨rfl, rfl, rfl, rfl, rfl, rfl, rfl⟩ ?_ rfl rfl rfl fun v hp => ?_⟩
      · dsimp only
        split <;> simp [Op.isReady]
      · have hlt : v < s.nvp := hp.elim (hv.lt_nvp hl) id
        exact Function.update_of_ne (Nat.ne_of_lt hlt) _ _
  | stop b =>
    obtain ⟨rfl, hr⟩ := hx
    simp only [gtStop] at hr
    repeat' split at hr
    all_goals cases hr
    all_goals exact same ⟨rfl, rfl, rfl, rfl, rfl, rfl, rfl⟩ (by simp [Op.isReady]) rfl rfl rfl rfl
  | run x =>
    obtain ⟨rfl, hr⟩ := hx
    simp only [gtRun] at hr
    repeat' split at hr
    all_goals cases hr
    all_goals exact same ⟨rfl, rfl, rfl, rfl, rfl, rfl, rfl⟩ (by simp [Op.isReady]) rfl rfl rfl rfl
  | unpark b t =>
    obtain ⟨-, -, -, rfl⟩ := hx
    exact same (.refl s) (by simp [Op.isReady]) rfl rfl rfl rfl
  | start x | wait x =>
    obtain ⟨-, rfl⟩ := hx
    exact same (.refl s) (by simp [Op.isReady]) rfl rfl rfl rfl
  | leave | op | vp => cases hx

/-! ## Runs -/

theorem Placed.step (h : Placed s loc) (hv : VpsOk s) (hst : StartOk s) {x : Act} (he : step s x = some s') :
    ∃ loc', Placed s' loc' := by
  obtain ⟨a, r, hc, hr, rfl⟩ | ⟨v, tr, t, rfl, ho, hp, rfl⟩ | ⟨a, o, l, r, rfl, ho, hr, rfl⟩ |
    ⟨v, ws, r, rfl, ho, -, hr, rfl⟩ := step_cases he
  · exact h.call hv hc hr
  · refine ⟨loc, h.frame ⟨rfl, rfl, rfl, rfl, rfl, rfl, rfl⟩ (fun w => ?_) (Nat.le_refl _) (fun _ _ => rfl)
      (fun _ _ _ _ hm => hm) (fun _ _ _ _ _ => rfl)⟩
    simp only [setPc]
    by_cases e : w = v
    · subst e
      simp [SameHeld, hp, VPc.held]
    · rw [Function.update_of_ne e]
      exact .refl _
  · exact h.op hv hst ho hr
  · exact h.vp_step ho hr

theorem placed_initial (groups : List Nat) : Placed (State.initial groups) fun _ => .absent := by
  refine ⟨?_, ?_, ?_, ?_, ?_, fun t => ⟨rfl, rfl⟩, ?_, ?_, ?_⟩ <;> simp [State.initial, VPc.held]

theorem reach_vpsOk (h : machine.Reach s) : VpsOk s ∧ StartOk s := by
  refine Machine.Reach.invariant (I := fun s => VpsOk s ∧ StartOk s) ?_ ?_ h
  · rintro s ⟨groups, hn, -, rfl⟩
    exact ⟨vpsOk_initial hn, startOk_initial groups⟩
  · intro s s' x _ hi hs
    exact ⟨hi.1.step hs, hi.2.step hi.1 hs⟩

theorem reach_placed (h : machine.Reach s) : ∃ loc, Placed s loc := by
  refine Machine.Reach.invariant (I := fun s => ∃ loc, Placed s loc) ?_ ?_ h
  · rintro s ⟨groups, -, -, rfl⟩
    exact ⟨_, placed_initial groups⟩
  · rintro s s' x hr ⟨loc, hp⟩ hs
    exact hp.step (reach_vpsOk hr).1 (reach_vpsOk hr).2 hs

/-- Task `t` is in one run queue, once. -/
def QueuedOnce (s : State) (t : Nat) : Prop := ∃ q, (s.queue q).count t = 1 ∧ ∀ q', q' ≠ q → t ∉ s.queue q'

def Unqueued (s : State) (t : Nat) : Prop := ∀ q, t ∉ s.queue q

/-- One VP has taken `t` and not given it back. -/
def HeldOnce (s : State) (t : Nat) : Prop :=
  ∃ v, (s.pc v).held = some t ∧ s.state t = (if s.pc v = .popped t then .ready else .running) ∧
    ∀ w, w ≠ v → (s.pc w).held ≠ some t

def Unheld (s : State) (t : Nat) : Prop := ∀ v, (s.pc v).held ≠ some t

/-- Where the tasks of a runtime are. -/
structure Placement (s : State) : Prop where
  /-- An accepted task that has not finished is in one place. -/
  one_place : ∀ t ∈ s.accepted, s.state t ≠ .finished →
    (s.state t = .ready ∧ QueuedOnce s t ∧ Unheld s t) ∨ (HeldOnce s t ∧ Unqueued s t) ∨
    ((s.state t = .parked ∨ s.state t = .new ∧ ∃ a q w, s.ops a = [.ready t q w]) ∧ Unqueued s t ∧ Unheld s t)
  only_accepted : ∀ t, t ∉ s.accepted → Unqueued s t ∧ Unheld s t
  own_priority : ∀ q, ∀ t ∈ s.queue q, q.priority = s.priority t
  /-- A task with `vp_id = v`. -/
  bound : ∀ t v, s.vpId t = some v →
    (∀ q, t ∈ s.queue q → q = .bound v (s.priority t)) ∧ ∀ w, (s.pc w).held = some t → w = v
  /-- A task with `vp_id = DLSM_GT_VP_ANY`. -/
  any : ∀ t, s.vpId t = none →
    (∀ q, t ∈ s.queue q → q = .ready (s.groupId t) (s.priority t) ∨
      ∃ v, q = .loc v (s.priority t) ∧ s.group v = s.groupId t) ∧
    ∀ w, (s.pc w).held = some t → s.group w = s.groupId t
  one_vp : ∀ t v w, (s.pc v).held = some t → (s.pc w).held = some t → v = w
  finished : ∀ t, s.state t = .finished → Unqueued s t ∧ Unheld s t

theorem Placed.unqueued (h : Placed s loc) (hl : ∀ q, loc t ≠ .queued q) : Unqueued s t :=
  fun q hm => hl q ((h.queued q t).mp hm)

theorem Placed.unheld (h : Placed s loc) (hl : ∀ v, loc t ≠ .held v) : Unheld s t :=
  fun v hm => hl v ((h.held v t).mp hm)

theorem Placed.to_placement (h : Placed s loc) : Placement s := by
  have inj : ∀ t v w, (s.pc v).held = some t → (s.pc w).held = some t → v = w := by
    intro t v w hv hw
    have := (h.held v t).mp hv
    rw [(h.held w t).mp hw] at this
    exact (Loc.held.inj this).symm
  have fits : ∀ q, ∀ t ∈ s.queue q, Fits s t q := by
    intro q t hm
    have hok := h.ok t
    rw [(h.queued q t).mp hm] at hok
    exact hok.2
  have serves : ∀ v t, (s.pc v).held = some t → Serves s v t := by
    intro v t hm
    have hok := h.ok t
    rw [(h.held v t).mp hm] at hok
    exact hok.2
  refine ⟨fun t ha hf => ?_, fun t ha => ?_, fun q t hm => ?_, fun t v hv => ⟨fun q hm => ?_, fun w hm => ?_⟩,
    fun t hv => ⟨fun q hm => ?_, fun w hm => ?_⟩, inj, fun t hf => ?_⟩
  · have hok := h.ok t
    have ha := (h.accepted t).mp ha
    cases hl : loc t with
    | absent => exact absurd hl ha
    | finished =>
      rw [hl] at hok
      exact absurd hok hf
    | queued q =>
      rw [hl] at hok
      refine .inl ⟨hok.1, ⟨q, ?_, fun q' hq' hm => ?_⟩, h.unheld (by simp [hl])⟩
      · exact List.count_eq_one_of_mem (h.nodup q) ((h.queued q t).mpr hl)
      · have := (h.queued q' t).mp hm
        rw [hl] at this
        exact hq' (Loc.queued.inj this).symm
    | held v =>
      rw [hl] at hok
      have hv := (h.held v t).mpr hl
      exact .inr (.inl ⟨⟨v, hv, hok.1, fun w hw hm => hw (inj t w v hm hv)⟩, h.unqueued (by simp [hl])⟩)
    | parked =>
      rw [hl] at hok
      exact .inr (.inr ⟨.inl hok, h.unqueued (by simp [hl]), h.unheld (by simp [hl])⟩)
    | spawning a q =>
      rw [hl] at hok
      obtain ⟨w, hm⟩ := h.spawning a t q hl
      exact .inr (.inr ⟨.inr ⟨hok.1, a, q, w, (h.ready a t q w hm).2⟩, h.unqueued (by simp [hl]),
        h.unheld (by simp [hl])⟩)
  · have hl : loc t = .absent := by simpa [h.accepted] using ha
    exact ⟨h.unqueued (by simp [hl]), h.unheld (by simp [hl])⟩
  · have hf := fits q t hm
    cases q <;> exact hf.1
  · have hf := fits q t hm
    cases q with
    | bound w p => rw [hf.1, Option.some.inj (hf.2.1.symm.trans hv)]
    | loc | ready => simp [Fits, hv] at hf
  · exact ((serves w t hm).1 v hv).symm
  · have hf := fits q t hm
    cases q with
    | bound w p => simp [Fits, hv] at hf
    | loc w p => exact .inr ⟨w, by rw [hf.1], hf.2.2.1⟩
    | ready g p => exact .inl (by rw [hf.1, hf.2.2])
  · exact (serves w t hm).2
  · have hl := (h.of_state t).2.2 hf
    exact ⟨h.unqueued (by simp [hl]), h.unheld (by simp [hl])⟩

/-- In every reachable state every task is in one place, and its queue and its
VP are ones its priority, its VP and its group allow. -/
theorem placement (h : machine.Reach s) : Placement s := by
  obtain ⟨loc, hp⟩ := reach_placed h
  exact hp.to_placement

/-- Task 1 runs on VP 0 and spawns tasks 2 and 3; VP 1 steals task 2. -/
def stealRun : List Act :=
  List.flatten [[.spawn (.ext 0) 1 0 (some 0) none, .op (.ext 0), .op (.ext 0), .start 1],
    List.replicate 4 (.op (.ext 1)), List.replicate 6 (.vp 0 []), [.spawn (.vp 0) 2 0 none none],
    List.replicate 10 (.op (.vp 0)), [.spawn (.vp 0) 3 0 none none, .op (.vp 0), .op (.vp 0)],
    List.replicate 11 (.vp 1 [])]

theorem placement_after_steal :
    ∃ s, machine.Reach s ∧ s.pc 0 = .run 1 ∧ s.pc 1 = .run 2 ∧ s.queue (.loc 0 0) = [3] ∧ Placement s := by
  obtain ⟨s, hs, hp⟩ := Machine.exists_reach_of_run (M := machine) (s := State.initial [0, 0]) (l := stealRun)
    (p := fun s => s.pc 0 == .run 1 && s.pc 1 == .run 2 && s.queue (.loc 0 0) == [3])
    ⟨[0, 0], by decide, by decide, rfl⟩ (by decide +kernel)
  simp only [Bool.and_eq_true, beq_iff_eq] at hp
  exact ⟨s, hs, hp.1.1, hp.1.2, hp.2, placement hs⟩

end Dlsmc.Runtime
