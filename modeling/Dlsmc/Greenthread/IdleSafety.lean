import Dlsmc.Greenthread.Idle
import Dlsmc.Greenthread.Lifecycle

/-!
# No VP sleeps on runnable work

As long as no wakeup lands between the load and the store of `idle.state` in
`dlsm_gt_vp_idle_sleep` (`sleepPrompt`), a VP that sleeps has missed no push:
every task in its queues has a producer whose wakeup is in flight
(`no_sleep_on_work`). A wakeup that does land there is lost
(`sleeps_on_work`).
-/

namespace Dlsmc.Runtime

variable {s s' : State} {a : Actor} {v w t : Nat} {loc : Nat → Loc} {x : Act} {q : Queue}

attribute [local grind =] Function.update_apply

/-- `dlsm_gt_vp_idle_sleep` stores `SLEEPING` over the `SPINNING` it has read. -/
def sleepPrompt (s : State) : Act → Bool
  | .vp v _ => if s.pc v = .sleepStore then s.idle v == .spinning else true
  | _ => true

/-! ## VPs that do not rely on wakeups -/

/-- What a step does to the idle state of a VP. -/
theorem vpStep_idle {ws : List Nat} {r : State × List Op} (h : vpStep s v ws = some r) (w : Nat) :
    r.1.idle w = s.idle w ∨ w = v ∧ (r.1.idle v = .running ∨ r.1.pc v = .spinning ∨
      s.pc v = .sleepStore ∧ r.1.pc v = .sleepLoop ∧ r.1.idle v = .sleeping) := by
  cases hpc : s.pc v with
  | off | run | exited => simp [vpStep, hpc] at h
  | scan second avoid pos pr =>
    simp only [vpStep, hpc, scanStep, Option.some.injEq] at h
    subst h
    dsimp only
    repeat' split
    all_goals exact .inl rfl
  | switch t tr =>
    obtain ⟨-, ⟨-, rfl⟩ | ⟨-, rfl⟩ | ⟨-, -, rfl⟩⟩ := vpStep_switch hpc h
    · exact .inl rfl
    · unfold rtPark
      split <;> exact .inl rfl
    · exact .inl rfl
  | _ =>
    simp only [vpStep, hpc] at h
    repeat' split at h
    all_goals cases h
    all_goals simp only [setPc]
    all_goals grind -linarith

theorem execOp_idle {o : Op} {r : State × List Op} (h : execOp s a o = some r) (w : Nat) :
    r.1.idle w = s.idle w ∨ r.1.idle w = .running := by
  cases o <;> simp only [execOp, makeReady, unparkSection, idleWake, idleWakeSection, gtStart, gtWait] at h
  all_goals repeat' split at h
  all_goals cases h
  all_goals simp only [setIdle, setPc, taskMakeReady]
  all_goals grind -linarith

theorem Calls.idle {r : State × List Op} (h : Calls s a r x) (w : Nat) :
    r.1.idle w = s.idle w ∨ r.1.idle w = .running := by
  cases x with
  | spawn b t p g w =>
    obtain ⟨rfl, hr⟩ := h
    obtain ⟨-, rfl | ⟨-, -, -, rfl⟩⟩ := gtSpawnEx_eq_some hr <;> exact .inl rfl
  | addVp b g =>
    obtain ⟨rfl, hr⟩ := h
    rcases runtimeAddVp_eq_some hr with rfl | ⟨-, -, -, rfl⟩
    · exact .inl rfl
    · dsimp only
      grind -linarith
  | stop b =>
    obtain ⟨rfl, hr⟩ := h
    rcases gtStop_eq_some hr with rfl | ⟨-, rfl⟩ | ⟨-, rfl⟩ <;> exact .inl rfl
  | run x =>
    obtain ⟨rfl, hr⟩ := h
    simp only [gtRun] at hr
    repeat' split at hr
    all_goals cases hr
    all_goals exact .inl rfl
  | unpark b t =>
    obtain ⟨-, -, -, rfl⟩ := h
    exact .inl rfl
  | start x | wait x =>
    obtain ⟨-, rfl⟩ := h
    exact .inl rfl
  | leave | op | vp => cases h

theorem execOp_pc {o : Op} {r : State × List Op} (h : execOp s a o = some r) (w : Nat) :
    r.1.pc w = s.pc w ∨ r.1.pc w = .tryNext false := by
  cases o <;> simp only [execOp, makeReady, unparkSection, idleWake, idleWakeSection, gtStart, gtWait] at h
  all_goals repeat' split at h
  all_goals cases h
  all_goals simp only [setIdle, setPc, taskMakeReady]
  all_goals grind -linarith

/-- A VP comes to rely on wakeups only by its own step. -/
theorem dozing_back {past : VPc → Bool} (hsp : past .spinning = false) (htn : past (.tryNext false) = false)
    (hsw : ∀ t tr, past (.switch t tr) = false) (hc : sleepPrompt s x = true) (he : step s x = some s')
    (hd : Dozing s' w past) :
    Dozing s w past ∨ ∃ ws r, x = .vp w ws ∧ vpStep s w ws = some r ∧
      past (s.pc w) = false ∧ past (r.1.pc w) = true := by
  obtain ⟨hi, hp⟩ := hd
  obtain ⟨a, r, -, hr, rfl⟩ | ⟨v, tr, t, rfl, -, -, rfl⟩ | ⟨a, o, l, r, rfl, -, hr, rfl⟩ |
    ⟨v, ws, r, rfl, -, -, hr, rfl⟩ := step_cases he
  · have h₁ := hr.idle w
    have h₂ := hr.frame.1
    simp only [setOps] at hi hp
    rw [h₂] at hp
    exact .inl ⟨fun e => hi (h₁.elim (·.trans e) id), hp⟩
  · simp only [setPc] at hp
    by_cases e : w = v
    · subst e
      simp [hsw] at hp
    · rw [Function.update_of_ne e] at hp
      exact .inl ⟨hi, hp⟩
  · have h₁ := execOp_idle hr w
    simp only [setOps] at hi hp
    rcases execOp_pc hr w with h₂ | h₂
    · rw [h₂] at hp
      exact .inl ⟨fun e => hi (h₁.elim (·.trans e) id), hp⟩
    · simp [h₂, htn] at hp
  · have hpc := (vpStep_sameVps hr).2.1
    simp only [setOps] at hi hp
    by_cases e : w = v
    · subst e
      cases hpw : past (s.pc w) with
      | false => exact .inr ⟨ws, r, rfl, hr, rfl, hp⟩
      | true =>
        refine .inl ⟨fun e => ?_, hpw⟩
        rcases vpStep_idle hr w with h₁ | ⟨-, h₁ | h₁ | ⟨h₁, -, -⟩⟩
        · exact hi (h₁.trans e)
        · exact hi h₁
        · simp [h₁, hsp] at hp
        · simp [sleepPrompt, h₁, e] at hc
    · rw [hpc w e] at hp
      rcases vpStep_idle hr w with h₁ | ⟨h₁, -⟩
      · exact .inl ⟨fun e => hi (h₁.trans e), hp⟩
      · exact absurd h₁ e

/-- The VPs that look at a queue. -/
def Watches (s : State) (w : Nat) : Queue → Prop
  | .bound v _ | .loc v _ => w = v
  | .ready g _ => w < s.nvp ∧ s.group w = g

/-- A probe that takes nothing leads to the next one, or to the next priority. -/
theorem probe_next {avoid : Option Nat} {pos pos' : Pos} {pr pr' : Probe} {q' : Queue} {b : Nat}
    (h : probe s w avoid pos pr = ((q', none, b), (pos', pr'))) :
    (pos' = pos ∧ pr'.rank ≤ pr.rank + 1) ∨ (pr.rank = 7 ∧ pos' = pos.next ∧ pr' = .boundUnless) := by
  cases pr with
  | steal n offset =>
    simp only [probe, Prod.mk.injEq] at h
    obtain ⟨-, h⟩ := h
    split at h <;> cases h
    · exact .inl ⟨rfl, by simp [Probe.rank]⟩
    · exact .inr ⟨rfl, rfl, rfl⟩
  | _ =>
    simp only [probe, Prod.mk.injEq] at h
    obtain ⟨-, rfl, rfl⟩ := h
    exact .inl ⟨rfl, by simp [Probe.rank]⟩

/-- The last access to a queue takes what is in it. -/
theorem probe_last {avoid : Option Nat} {p : Nat} {pr : Probe} {q' : Queue} {b : Nat} {nx : Pos × Probe}
    (h : probe s w avoid (.main p) pr = ((q', none, b), nx)) (hw : Watches s w q) (hp : q.priority = p)
    (hr : pr.rank = q.rank) : s.queue q = [] := by
  subst hp
  cases q with
  | bound v p =>
    obtain rfl : w = v := hw
    cases pr <;> simp [Probe.rank, Queue.rank] at hr
    simp only [probe, Prod.mk.injEq] at h
    exact queuePop_eq_none h.1.2.1
  | loc v p =>
    obtain rfl : w = v := hw
    cases pr <;> simp [Probe.rank, Queue.rank] at hr
    simp only [probe, Prod.mk.injEq] at h
    exact queuePop_eq_none h.1.2.1
  | ready g p =>
    obtain ⟨-, rfl⟩ := hw
    cases pr <;> simp [Probe.rank, Queue.rank] at hr
    simp only [probe, Prod.mk.injEq] at h
    exact queuePop_eq_none h.1.2.1

/-- The last look at a queue finds it empty. -/
theorem queue_eq_nil_of_past {ws : List Nat} {r : State × List Op} (hr : vpStep s w ws = some r)
    (hp : (s.pc w).past q = false) (hp' : (r.1.pc w).past q = true) (hw : Watches s w q)
    (hq : q.priority < priorityLevels) : s.queue q = [] := by
  cases hpc : s.pc w with
  | off | run | exited => simp [vpStep, hpc] at hr
  | scan second avoid pos pr =>
    simp only [vpStep, hpc, scanStep, Option.some.injEq] at hr
    subst hr
    rw [hpc] at hp
    have hrank : q.rank < 7 := by cases q <;> simp [Queue.rank]
    split at hp'
    case _ hm =>
      subst hm
      cases second <;> simp [setPc, VPc.past] at hp hp'
      omega
    case _ =>
      split at hp'
      · simp [take, VPc.past] at hp'
      case _ pos' pr' hpr =>
        simp only [setPc, Function.update_self] at hp'
        cases second with
        | false => simp [VPc.past] at hp'
        | true =>
          rcases probe_next hpr with ⟨rfl, hle⟩ | ⟨h7, rfl, rfl⟩
          · cases pos' with
            | aging o => simp [VPc.past] at hp'
            | main p =>
              simp only [VPc.past, decide_eq_true_eq, decide_eq_false_iff_not] at hp hp'
              exact probe_last hpr hw (by omega) (by omega)
          · cases pos with
            | aging o =>
              simp only [Pos.next] at hp'
              split at hp' <;> simp [VPc.past, Probe.rank] at hp'
            | main p =>
              have h0 : Probe.boundUnless.rank = 0 := rfl
              simp only [Pos.next, VPc.past, decide_eq_true_eq, decide_eq_false_iff_not, h7, h0] at hp hp'
              omega
  | switch t tr =>
    obtain ⟨-, ⟨-, rfl⟩ | ⟨-, rfl⟩ | ⟨-, -, rfl⟩⟩ := vpStep_switch hpc hr
    · simp [rtEnqueue, setPc, VPc.past] at hp'
    · unfold rtPark at hp'
      split at hp' <;> simp [setPc, VPc.past] at hp'
    · simp [rtTaskDone, setPc, VPc.past] at hp'
  | tryNext second =>
    simp only [vpStep, hpc, Option.some.injEq] at hr
    subst hr
    simp only [setPc, Function.update_self] at hp'
    split at hp' <;> cases second <;> simp [VPc.past, Probe.rank] at hp'
  | _ =>
    rw [hpc] at hp
    simp only [vpStep, hpc] at hr
    repeat' split at hr
    all_goals cases hr
    all_goals simp_all [setPc, VPc.past]

/-- The last look at `rt->shutdown` finds it unset. -/
theorem shutdown_eq_false_of_committed {ws : List Nat} {r : State × List Op} (hr : vpStep s w ws = some r)
    (hp : (s.pc w).committed = false) (hp' : (r.1.pc w).committed = true) : s.shutdown = false := by
  cases hpc : s.pc w with
  | off | run | exited => simp [vpStep, hpc] at hr
  | scan second avoid pos pr =>
    simp only [vpStep, hpc, scanStep, Option.some.injEq] at hr
    subst hr
    repeat' split at hp'
    all_goals simp [setPc, take, VPc.committed] at hp'
  | switch t tr =>
    obtain ⟨-, ⟨-, rfl⟩ | ⟨-, rfl⟩ | ⟨-, -, rfl⟩⟩ := vpStep_switch hpc hr
    · simp [rtEnqueue, setPc, VPc.committed] at hp'
    · unfold rtPark at hp'
      split at hp' <;> simp [setPc, VPc.committed] at hp'
    · simp [rtTaskDone, setPc, VPc.committed] at hp'
  | _ =>
    rw [hpc] at hp
    simp only [vpStep, hpc] at hr
    repeat' split at hr
    all_goals cases hr
    all_goals simp_all [setPc, VPc.committed]

/-! ## Requests in flight -/

/-- Published VPs keep their groups. -/
theorem step_vps (hv : VpsOk s) (he : step s x = some s') :
    s.nvp ≤ s'.nvp ∧ s'.ngroups = s.ngroups ∧ (∀ w < s.nvp, s'.group w = s.group w) ∧
      ∀ g, s.groupNvp g ≠ 0 → s'.groupNvp g ≠ 0 := by
  obtain ⟨a, r, -, hr, rfl⟩ | ⟨v, tr, t, rfl, -, -, rfl⟩ | ⟨a, o, l, r, rfl, ho, hr, rfl⟩ |
    ⟨v, ws, r, rfl, -, -, hr, rfl⟩ := step_cases he
  · cases x with
    | spawn b t p g w =>
      obtain ⟨rfl, hr⟩ := hr
      obtain ⟨-, rfl | ⟨-, -, -, rfl⟩⟩ := gtSpawnEx_eq_some hr <;>
        exact ⟨Nat.le_refl _, rfl, fun _ _ => rfl, fun _ => id⟩
    | addVp b g =>
      obtain ⟨rfl, hr⟩ := hr
      rcases runtimeAddVp_eq_some hr with rfl | ⟨-, -, -, rfl⟩
      · exact ⟨Nat.le_refl _, rfl, fun _ _ => rfl, fun _ => id⟩
      · exact ⟨Nat.le_refl _, rfl, fun w hw => Function.update_of_ne (Nat.ne_of_lt hw) _ _, fun _ => id⟩
    | stop b =>
      obtain ⟨rfl, hr⟩ := hr
      rcases gtStop_eq_some hr with rfl | ⟨-, rfl⟩ | ⟨-, rfl⟩ <;>
        exact ⟨Nat.le_refl _, rfl, fun _ _ => rfl, fun _ => id⟩
    | run x =>
      obtain ⟨rfl, hr⟩ := hr
      simp only [gtRun] at hr
      repeat' split at hr
      all_goals cases hr
      all_goals exact ⟨Nat.le_refl _, rfl, fun _ _ => rfl, fun _ => id⟩
    | unpark b t =>
      obtain ⟨-, -, -, rfl⟩ := hr
      exact ⟨Nat.le_refl _, rfl, fun _ _ => rfl, fun _ => id⟩
    | start x | wait x =>
      obtain ⟨-, rfl⟩ := hr
      exact ⟨Nat.le_refl _, rfl, fun _ _ => rfl, fun _ => id⟩
    | leave | op | vp => cases hr
  · exact ⟨Nat.le_refl _, rfl, fun _ _ => rfl, fun _ => id⟩
  · cases o with
    | addPublish w g =>
      obtain ⟨rfl, -⟩ := hv.adding a w g (.inr (by simp [ho]))
      simp only [execOp] at hr
      split at hr <;> cases hr
      all_goals
        refine ⟨Nat.le_succ _, rfl, fun _ _ => rfl, fun g' hg' => ?_⟩
        simp only [setOps]
        grind -linarith
    | _ =>
      simp only [execOp, makeReady, unparkSection, idleWake, idleWakeSection, gtStart, gtWait] at hr
      repeat' split at hr
      all_goals cases hr
      all_goals exact ⟨Nat.le_refl _, rfl, fun _ _ => rfl, fun _ => id⟩
  · obtain ⟨hs, -⟩ := vpStep_sameVps hr
    exact ⟨Nat.le_of_eq hs.nvp.symm, hs.ngroups, fun w _ => congrFun hs.group w,
      fun g => by rw [← hs.groupNvp]; exact id⟩

theorem Watches.step (h : Watches s w q) (hv : VpsOk s) (he : step s x = some s') : Watches s' w q := by
  obtain ⟨h₁, -, h₂, -⟩ := step_vps hv he
  cases q with
  | bound | loc => exact h
  | ready g p => exact ⟨Nat.lt_of_lt_of_le h.1 h₁, (h₂ w h.1).trans h.2⟩

/-- Some VP looks at the queue before it sleeps. -/
def Awake (s : State) (q : Queue) : Prop := ∃ w, Watches s w q ∧ ¬ Dozing s w (VPc.past q)

theorem Awake.step (h : Awake s q) (hv : VpsOk s) (hq : s.queue q ≠ []) (hp : q.priority < priorityLevels)
    (hc : sleepPrompt s x = true) (he : step s x = some s') : Awake s' q := by
  obtain ⟨w, hw, hd⟩ := h
  refine ⟨w, hw.step hv he, fun hd' => ?_⟩
  rcases dozing_back rfl rfl (fun _ _ => rfl) hc he hd' with hd' | ⟨ws, r, -, hr, h₁, h₂⟩
  · exact hd hd'
  · exact hq (queue_eq_nil_of_past hr h₁ h₂ hw hp)

/-- A producer still has to wake `v`, or another VP in its place. -/
def Covered (s : State) (r : Req) (v : Nat) : Prop :=
  ∃ a, ∃ o ∈ s.ops a, o.early r v = true ∨ s.idle v = .sleeping ∧ o.late r v = true

theorem Covered.step {r : Req} (h : Covered s r v) (hr : r.concerns s v) (hok : ∀ a, ∀ o ∈ s.ops a, o.groupOk s)
    (he : step s x = some s') :
    Covered s' r v ∨ (∃ w, r.mayWake s' v w ∧ s'.idle w = .running) ∨ s'.pc v = .spinning := by
  obtain ⟨b, o, hm, ho⟩ := h
  -- the producer is another thread, or goes on with the same operation
  have keep : o ∈ s'.ops b → (s'.idle v = s.idle v ∨ s'.idle v = .running ∨ s'.idle v = .sleeping) →
      Covered s' r v ∨ (∃ w, r.mayWake s' v w ∧ s'.idle w = .running) ∨ s'.pc v = .spinning := by
    intro hm' hi
    rcases ho with ho | ⟨hsl, ho⟩
    · exact .inl ⟨b, o, hm', .inl ho⟩
    · rcases hi with hi | hi | hi
      · exact .inl ⟨b, o, hm', .inr ⟨hi.trans hsl, ho⟩⟩
      · exact .inr (.inl ⟨v, .inl rfl, hi⟩)
      · exact .inl ⟨b, o, hm', .inr ⟨hi, ho⟩⟩
  obtain ⟨a, res, hc, hx, rfl⟩ | ⟨w, tr, t, rfl, ho', hpc, rfl⟩ | ⟨a, o', l, res, rfl, ho', hx, rfl⟩ |
    ⟨w, ws, res, rfl, ho', -, hx, rfl⟩ := step_cases he
  · have e : b ≠ a := by
      rintro rfl
      simp [canCall_ops hc] at hm
    refine keep ?_ ((hx.idle v).imp id .inl)
    simpa [setOps, Function.update_of_ne e, hx.frame.2.1] using hm
  · exact keep hm (.inl rfl)
  · by_cases hh : b = a ∧ o = o'
    · obtain ⟨rfl, rfl⟩ := hh
      have hca : Carries res.1 r v res.2 := ho.elim (fun ho => execOp_early hx ho hr (hok b o hm))
        fun ho => execOp_late hx ho.2 ho.1 hr (hok b o hm)
      rcases hca with ⟨o₁, hm₁, h₁⟩ | ⟨hsl, o₁, hm₁, h₁⟩ | ⟨w, hw, hi⟩
      · exact .inl ⟨b, o₁, by simp [setOps, hm₁], .inl h₁⟩
      · exact .inl ⟨b, o₁, by simp [setOps, hm₁], .inr ⟨hsl, h₁⟩⟩
      · exact .inr (.inl ⟨w, hw, hi⟩)
    · refine keep ?_ ((execOp_idle hx v).imp id .inl)
      by_cases e : b = a
      · subst e
        rw [ho', List.mem_cons] at hm
        have hm := hm.resolve_left fun e => hh ⟨rfl, e⟩
        simp [setOps, hm]
      · simpa [setOps, Function.update_of_ne e, execOp_ops hx] using hm
  · have e : b ≠ .vp w := by
      rintro rfl
      simp [ho'] at hm
    have hm' : o ∈ (setOps res.1 (.vp w) res.2).ops b := by
      simpa [setOps, Function.update_of_ne e, (vpStep_sameVps hx).1.ops] using hm
    rcases vpStep_idle hx v with hi | ⟨rfl, hi | hi | ⟨-, -, hi⟩⟩
    · exact keep hm' (.inl hi)
    · exact keep hm' (.inr (.inl hi))
    · exact .inr (.inr hi)
    · exact keep hm' (.inr (.inr hi))

/-! ## Producers -/

/-- The wakeup after a push to `q` by thread `a`; a VP that pushes to its own
queue wakes others. -/
def Aims (a : Actor) (q : Queue) (k : Wake) : Prop :=
  match q with
  | .bound v _ => k = .vp v
  | .loc v _ => a = .vp v ∨ k = .vp v
  | .ready g _ => k = .group g none

structure WakeOk (s : State) : Prop where
  busy : ∀ v, s.ops (.vp v) ≠ [] → s.pc v = .tryNext false ∨ ∃ t, s.pc v = .run t
  aims : ∀ a t q k, Op.ready t q k ∈ s.ops a → Aims a q k
  group : ∀ a, ∀ o ∈ s.ops a, o.groupOk s
  tasks : ∀ t ∈ s.accepted, s.priority t < priorityLevels ∧ s.groupNvp (s.groupId t) ≠ 0

theorem aims_spawnTarget (s : State) (a : Actor) (p g : Nat) (k : Option Nat) :
    Aims a (spawnTarget s a p g k).1 (spawnTarget s a p g k).2 := by
  cases k with
  | some w => rfl
  | none =>
    cases a with
    | ext x => rfl
    | vp v =>
      simp only [spawnTarget]
      split
      · exact .inl rfl
      · rfl

theorem aims_unparkTarget (s : State) (a : Actor) (t : Nat) : Aims a (unparkTarget s t).1 (unparkTarget s t).2 := by
  unfold unparkTarget
  split
  · rfl
  · exact .inr rfl
  · rfl

theorem execOp_data {o : Op} {r : State × List Op} (h : execOp s a o = some r) :
    r.1.priority = s.priority ∧ r.1.groupId = s.groupId ∧ r.1.accepted = s.accepted := by
  cases o <;> simp only [execOp, makeReady, unparkSection, idleWake, idleWakeSection, gtStart, gtWait] at h
  all_goals repeat' split at h
  all_goals cases h
  all_goals exact ⟨rfl, rfl, rfl⟩

theorem vpStep_data {ws : List Nat} {r : State × List Op} (h : vpStep s v ws = some r) :
    r.1.priority = s.priority ∧ r.1.groupId = s.groupId ∧ r.1.accepted = s.accepted ∧
      (r.2 ≠ [] → r.1.pc v = .tryNext false) ∧ ∀ o ∈ r.2, o.isReady = false ∧ o.groupOk r.1 := by
  cases hpc : s.pc v with
  | off | run | exited => simp [vpStep, hpc] at h
  | scan second avoid pos pr =>
    simp only [vpStep, hpc, scanStep, Option.some.injEq] at h
    subst h
    dsimp only
    repeat' split
    all_goals exact ⟨rfl, rfl, rfl, by simp, by simp⟩
  | switch t tr =>
    obtain ⟨-, ⟨-, rfl⟩ | ⟨-, rfl⟩ | ⟨-, -, rfl⟩⟩ := vpStep_switch hpc h
    · exact ⟨rfl, rfl, rfl, by simp [rtEnqueue, setPc], by simp [rtEnqueue, Op.isReady, Op.groupOk]⟩
    · unfold rtPark
      split
      · exact ⟨rfl, rfl, rfl, by simp [setPc], by simp [Op.isReady, Op.groupOk]⟩
      · exact ⟨rfl, rfl, rfl, by simp, by simp⟩
    · refine ⟨rfl, rfl, rfl, by simp [rtTaskDone, setPc], fun o ho => ?_⟩
      rcases mem_rtTaskDone_ops ho with ⟨w, -, rfl⟩ | rfl <;> exact ⟨rfl, trivial⟩
  | _ =>
    simp only [vpStep, hpc] at h
    repeat' split at h
    all_goals cases h
    all_goals exact ⟨rfl, rfl, rfl, by simp, by simp⟩

/-- The operations that an operation continues with visit published VPs. -/
theorem execOp_groupOk {o : Op} {r : State × List Op} (h : execOp s a o = some r) (hok : o.groupOk s)
    (hn : s.nvp ≤ r.1.nvp) (hg : ∀ w < s.nvp, r.1.group w = s.group w) :
    ∀ o' ∈ r.2, o'.isReady = false ∧ o'.groupOk r.1 := by
  cases o with
  | ready t q k =>
    simp only [execOp, Option.ite_none_left_eq_some, Option.some.injEq] at h
    obtain ⟨-, rfl⟩ := h
    cases k <;> simp [makeReady, Wake.op, Op.isReady, Op.groupOk]
  | unparkSection t b =>
    rcases unparkSection_eq_some h with rfl | ⟨-, rfl⟩ | rfl
    · simp
    · cases (unparkTarget s t).2 <;> simp [makeReady, Wake.op, Op.isReady, Op.groupOk]
    · simp
  | _ =>
    simp only [execOp, idleWake, idleWakeSection, groupScan, gtStart, gtWait] at h
    repeat' split at h
    all_goals cases h
    all_goals simp_all [Op.isReady, Op.groupOk, setPc, setIdle]

theorem Op.groupOk.mono {o : Op} (h : o.groupOk s) (hn : s.nvp ≤ s'.nvp) (hg : ∀ w < s.nvp, s'.group w = s.group w) :
    o.groupOk s' := by
  cases o <;> simp only [Op.groupOk] at h ⊢
  case groupScan => omega
  case groupWake n i g ex tag => exact ⟨by omega, h.2.1, (hg i (by omega)).trans h.2.2⟩
  case groupSection n i g ex tag => exact ⟨by omega, h.2.1, (hg i (by omega)).trans h.2.2⟩

/-- A call accepts at most its own task, whose options are in order. -/
theorem Calls.tasks {r : State × List Op} (h : Calls s a r x) (hp : Placed s loc)
    (ht : ∀ t ∈ s.accepted, s.priority t < priorityLevels ∧ s.groupNvp (s.groupId t) ≠ 0) :
    (∀ t ∈ r.1.accepted, r.1.priority t < priorityLevels ∧ r.1.groupNvp (r.1.groupId t) ≠ 0) ∧
      ∀ o ∈ r.2, (∀ t q k, o = .ready t q k → Aims a q k) ∧ o.groupOk r.1 := by
  cases x with
  | spawn b t p g w =>
    obtain ⟨rfl, hr⟩ := h
    obtain ⟨hn, rfl | ⟨-, hok, -, rfl⟩⟩ := gtSpawnEx_eq_some hr
    · exact ⟨ht, by simp⟩
    · refine ⟨fun u hu => ?_, ?_⟩
      · have hna : t ∉ s.accepted := by
          rw [hp.accepted]
          simpa using (hp.of_state t).1 hn
        have hok' : p < priorityLevels ∧ s.groupNvp (spawnGroup s b g) ≠ 0 := by
          simp only [optionsOk, Bool.and_eq_true, decide_eq_true_eq, bne_iff_ne] at hok
          exact ⟨hok.1.1.1, hok.1.2⟩
        simp only [accept, List.mem_append, List.mem_singleton] at hu ⊢
        rcases hu with hu | rfl
        · have : u ≠ t := fun e => hna (e ▸ hu)
          simpa [Function.update_of_ne this] using ht u hu
        · simpa using hok'
      · simp only [List.mem_singleton, forall_eq, Op.ready.injEq, and_imp]
        refine ⟨?_, trivial⟩
        rintro _ _ _ rfl rfl rfl
        exact aims_spawnTarget s b p _ w
  | addVp b g =>
    obtain ⟨rfl, hr⟩ := h
    rcases runtimeAddVp_eq_some hr with rfl | ⟨-, -, -, rfl⟩
    · exact ⟨ht, by simp⟩
    · refine ⟨ht, ?_⟩
      dsimp only
      split <;> simp [Op.groupOk]
  | stop b =>
    obtain ⟨rfl, hr⟩ := h
    rcases gtStop_eq_some hr with rfl | ⟨-, rfl⟩ | ⟨-, rfl⟩
    · exact ⟨ht, by simp⟩
    · exact ⟨ht, by simp⟩
    · refine ⟨ht, ?_⟩
      dsimp only
      split <;> simp [Op.groupOk]
  | run x =>
    obtain ⟨rfl, hr⟩ := h
    simp only [gtRun] at hr
    repeat' split at hr
    all_goals cases hr
    all_goals exact ⟨ht, by simp [Op.groupOk]⟩
  | unpark b t =>
    obtain ⟨-, -, -, rfl⟩ := h
    exact ⟨ht, by simp [Op.groupOk]⟩
  | start x | wait x =>
    obtain ⟨-, rfl⟩ := h
    exact ⟨ht, by simp [Op.groupOk]⟩
  | leave | op | vp => cases h

theorem canCall_pc (h : canCall s (.vp v) = true) : ∃ t, s.pc v = .run t := by
  simp only [canCall, Bool.and_eq_true] at h
  obtain ⟨-, h⟩ := h
  split at h
  · rename_i t ht
    exact ⟨t, ht⟩
  · cases h

theorem WakeOk.step (h : WakeOk s) (hp : Placed s loc) (hv : VpsOk s) (he : step s x = some s') : WakeOk s' := by
  obtain ⟨hn, -, hg, hgn⟩ := step_vps hv he
  obtain ⟨hbusy, haims, hgroup, htasks⟩ := h
  obtain ⟨a, r, hc, hr, rfl⟩ | ⟨v, tr, t, rfl, ho, hpc, rfl⟩ | ⟨a, o, l, r, rfl, ho, hr, rfl⟩ |
    ⟨v, ws, r, rfl, ho, -, hr, rfl⟩ := step_cases he
  · obtain ⟨hpc, hops, -⟩ := hr.frame
    obtain ⟨ht, hos⟩ := hr.tasks hp htasks
    refine ⟨fun v hb => ?_, fun b t q k hm => ?_, fun b o hm => ?_, ht⟩
    · change r.1.pc v = _ ∨ ∃ t, r.1.pc v = _
      rw [hpc]
      by_cases e : Actor.vp v = a
      · subst e
        exact .inr (canCall_pc hc)
      · exact hbusy v (by simpa [setOps, Function.update_of_ne e, hops] using hb)
    · rcases mem_setOps hm with ⟨rfl, hm'⟩ | ⟨-, hm⟩
      · exact (hos _ hm').1 t q k rfl
      · exact haims b t q k (hops ▸ hm)
    · rcases mem_setOps hm with ⟨rfl, hm'⟩ | ⟨-, hm⟩
      · exact (hos o hm').2.mono (Nat.le_refl _) fun _ _ => rfl
      · exact (hgroup b o (hops ▸ hm)).mono hn hg
  · refine ⟨fun w hb => ?_, haims, fun b o hm => (hgroup b o hm).mono hn hg, htasks⟩
    have e : w ≠ v := by
      rintro rfl
      exact hb ho
    simpa [setPc, Function.update_of_ne e] using hbusy w hb
  · have hops := execOp_ops hr
    have hos := execOp_groupOk hr (hgroup a o (by simp [ho])) hn hg
    obtain ⟨d1, d2, d3⟩ := execOp_data hr
    refine ⟨fun w hb => ?_, fun b t q k hm => ?_, fun b x hm => ?_, fun t hm => ?_⟩
    · change r.1.pc w = _ ∨ ∃ t, r.1.pc w = _
      rcases execOp_pc hr w with hpc | hpc
      · rw [hpc]
        refine hbusy w ?_
        by_cases e : Actor.vp w = a
        · subst e
          simp [ho]
        · simpa [setOps, Function.update_of_ne e, hops] using hb
      · exact .inl hpc
    · rcases mem_setOps_append hops ho hm with hm | hm
      · simpa [Op.isReady] using (hos _ hm).1
      · exact haims b t q k hm
    · rcases mem_setOps_append hops ho hm with hm | hm
      · exact (hos x hm).2.mono (Nat.le_refl _) fun _ _ => rfl
      · exact (hgroup b x hm).mono hn hg
    · simp only [setOps, d3] at hm
      have := htasks t hm
      simp only [setOps, d1, d2]
      exact ⟨this.1, hgn _ this.2⟩
  · obtain ⟨hs, hpc, -⟩ := vpStep_sameVps hr
    obtain ⟨d1, d2, d3, d4, d5⟩ := vpStep_data hr
    refine ⟨fun w hb => ?_, fun b t q k hm => ?_, fun b o hm => ?_, fun t hm => ?_⟩
    · change r.1.pc w = _ ∨ ∃ t, r.1.pc w = _
      by_cases e : w = v
      · subst e
        exact .inl (d4 (by simpa [setOps] using hb))
      · rw [hpc w e]
        exact hbusy w (by simpa [setOps, Function.update_of_ne, e, hs.ops] using hb)
    · rcases mem_setOps hm with ⟨rfl, hm'⟩ | ⟨-, hm⟩
      · simpa [Op.isReady] using (d5 _ hm').1
      · exact haims b t q k (hs.ops ▸ hm)
    · rcases mem_setOps hm with ⟨rfl, hm'⟩ | ⟨-, hm⟩
      · exact (d5 o hm').2.mono (Nat.le_refl _) fun _ _ => rfl
      · exact (hgroup b o (hs.ops ▸ hm)).mono hn hg
    · simp only [setOps, d3] at hm
      have := htasks t hm
      simp only [setOps, d1, d2]
      exact ⟨this.1, hgn _ this.2⟩

/-! ## Pushes -/

theorem Calls.queue {r : State × List Op} (h : Calls s a r x) : r.1.queue = s.queue ∧ r.1.pushes = s.pushes := by
  cases x with
  | spawn b t p g w =>
    obtain ⟨rfl, hr⟩ := h
    obtain ⟨-, rfl | ⟨-, -, -, rfl⟩⟩ := gtSpawnEx_eq_some hr <;> exact ⟨rfl, rfl⟩
  | addVp b g =>
    obtain ⟨rfl, hr⟩ := h
    rcases runtimeAddVp_eq_some hr with rfl | ⟨-, -, -, rfl⟩ <;> exact ⟨rfl, rfl⟩
  | stop b =>
    obtain ⟨rfl, hr⟩ := h
    rcases gtStop_eq_some hr with rfl | ⟨-, rfl⟩ | ⟨-, rfl⟩ <;> exact ⟨rfl, rfl⟩
  | run x =>
    obtain ⟨rfl, hr⟩ := h
    simp only [gtRun] at hr
    repeat' split at hr
    all_goals cases hr
    all_goals exact ⟨rfl, rfl⟩
  | unpark b t =>
    obtain ⟨-, -, -, rfl⟩ := h
    exact ⟨rfl, rfl⟩
  | start x | wait x =>
    obtain ⟨-, rfl⟩ := h
    exact ⟨rfl, rfl⟩
  | leave | op | vp => cases h

/-- A task in a queue was there before, or was pushed now: by a producer that
is going to wake a VP for it, or by the VP that switched from it. -/
def Pushed (s s' : State) (q : Queue) (t : Nat) : Prop :=
  (t ∈ s.queue q ∧ s'.pushes t = s.pushes t) ∨
  (∃ a k, Aims a q k ∧ k.op (some (t, s'.pushes t)) ∈ s'.ops a ∧ ∀ v, a = .vp v → (s'.pc v).past q = false) ∨
  ∃ v, Watches s' v q ∧ s'.pc v = .tryNext false

/-- `task_make_ready` appends to one queue. -/
theorem mem_taskMakeReady {q₀ : Queue} {u : Nat} (h : t ∈ (taskMakeReady s u q₀).queue q) :
    (t ∈ s.queue q ∧ (t ≠ u → (taskMakeReady s u q₀).pushes t = s.pushes t)) ∨ t = u ∧ q = q₀ := by
  simp only [taskMakeReady] at h ⊢
  grind -linarith

theorem WakeOk.pushed_makeReady (hw : WakeOk s) (hp : Placed s loc) {u : Nat} {q₀ : Queue} {k : Wake} {o : Op}
    {l : List Op} (ho : s.ops a = o :: l) (hu : ∀ q, loc u ≠ .queued q) (ha : Aims a q₀ k)
    (h : t ∈ (makeReady s u q₀ k).1.queue q) :
    Pushed s (setOps (makeReady s u q₀ k).1 a ((makeReady s u q₀ k).2 ++ l)) q t := by
  rcases mem_taskMakeReady h with ⟨hm, hs⟩ | ⟨rfl, rfl⟩
  · exact .inl ⟨hm, hs fun e => hu q (e ▸ (hp.queued q t).mp hm)⟩
  · refine .inr (.inl ⟨a, k, ha, ?_, ?_⟩)
    · simp [setOps, makeReady, taskMakeReady]
    · rintro v rfl
      change (s.pc v).past q = false
      rcases hw.busy v (by simp [ho]) with hpc | ⟨t, hpc⟩ <;> rw [hpc] <;> rfl

theorem pushed_ownQueue (hp : Placed s loc) {tr : Transition} {u : Nat} (hpc : s.pc v = .switch u tr) {s₁ : State}
    {l : List Op} (h₁ : s₁.queue = s.queue ∧ s₁.pushes = s.pushes ∧ s₁.nvp = s.nvp ∧ s₁.group = s.group)
    (h : t ∈ (taskMakeReady s₁ u (ownQueue s v u)).queue q) :
    Pushed s (setOps (setPc (taskMakeReady s₁ u (ownQueue s v u)) v (.tryNext false)) (.vp v) l) q t := by
  obtain ⟨e1, e2, -, -⟩ := h₁
  have hl : loc u = .held v := (hp.held v u).mp (by simp [hpc, VPc.held])
  have hok := hp.ok u
  rw [hl] at hok
  rcases mem_taskMakeReady h with ⟨hm, hs⟩ | ⟨rfl, rfl⟩
  · rw [e1] at hm
    refine .inl ⟨hm, ?_⟩
    rw [← e2]
    refine hs ?_
    rintro rfl
    have := (hp.queued q t).mp hm
    simp [hl] at this
  · refine .inr (.inr ⟨v, ?_, by simp [setOps, setPc]⟩)
    cases hvp : s.vpId t with
    | none => simp [ownQueue, hvp, Watches]
    | some w => simpa [ownQueue, hvp, Watches] using (hok.2.1 w hvp).symm

theorem scanStep_pushes {second : Bool} {avoid : Option Nat} {pos : Pos} {pr : Probe} (t : Nat) :
    (scanStep s v second avoid pos pr).pushes t = s.pushes t := by
  unfold scanStep
  repeat' split
  all_goals rfl

theorem mem_scanStep {second : Bool} {avoid : Option Nat} {pos : Pos} {pr : Probe}
    (h : t ∈ (scanStep s v second avoid pos pr).queue q) : t ∈ s.queue q := by
  unfold scanStep at h
  split at h
  · exact h
  · split at h
    case _ hpr =>
      obtain ⟨hq, -⟩ := probe_eq_some hpr
      simp only [take] at h
      grind -linarith
    case _ => exact h

theorem WakeOk.pushed (hw : WakeOk s) (hp : Placed s loc) (he : Runtime.step s x = some s') (ht : t ∈ s'.queue q) :
    Pushed s s' q t := by
  obtain ⟨a, r, hc, hr, rfl⟩ | ⟨v, tr, u, rfl, ho, hpc, rfl⟩ | ⟨a, o, l, r, rfl, ho, hr, rfl⟩ |
    ⟨v, ws, r, rfl, ho, -, hr, rfl⟩ := step_cases he
  · obtain ⟨h₁, h₂⟩ := hr.queue
    exact .inl ⟨by simpa [setOps, h₁] using ht, congrFun h₂ t⟩
  · exact .inl ⟨ht, rfl⟩
  · cases o with
    | ready u q₀ k =>
      simp only [execOp, Option.ite_none_left_eq_some, Option.some.injEq] at hr
      obtain ⟨-, rfl⟩ := hr
      have hl := (hp.ready a u q₀ k (by simp [ho])).1
      exact hw.pushed_makeReady hp ho (by simp [hl]) (hw.aims a u q₀ k (by simp [ho])) ht
    | unparkSection u b =>
      rcases unparkSection_eq_some hr with rfl | ⟨hpk, rfl⟩ | rfl
      · exact .inl ⟨ht, rfl⟩
      · have hl := (hp.of_state u).2.1 hpk
        exact hw.pushed_makeReady hp ho (by simp [hl]) (aims_unparkTarget s a u) ht
      · exact .inl ⟨ht, rfl⟩
    | _ =>
      refine .inl ?_
      simp only [execOp, idleWake, idleWakeSection, gtStart, gtWait] at hr
      repeat' split at hr
      all_goals cases hr
      all_goals exact ⟨ht, rfl⟩
  · cases hpc : s.pc v with
    | off | run | exited => simp [vpStep, hpc] at hr
    | scan second avoid pos pr =>
      simp only [vpStep, hpc, Option.some.injEq] at hr
      subst hr
      exact .inl ⟨mem_scanStep ht, scanStep_pushes t⟩
    | switch u tr =>
      obtain ⟨-, ⟨-, rfl⟩ | ⟨-, rfl⟩ | ⟨-, -, rfl⟩⟩ := vpStep_switch hpc hr
      · exact pushed_ownQueue hp hpc ⟨rfl, rfl, rfl, rfl⟩ ht
      · unfold rtPark at ht ⊢
        split at ht
        case _ hu =>
          simp only [hu, if_true]
          exact pushed_ownQueue hp hpc ⟨rfl, rfl, rfl, rfl⟩ ht
        case _ hu =>
          simp only [hu]
          exact .inl ⟨ht, rfl⟩
      · exact .inl ⟨ht, rfl⟩
    | _ =>
      refine .inl ?_
      simp only [vpStep, hpc] at hr
      repeat' split at hr
      all_goals cases hr
      all_goals exact ⟨ht, rfl⟩

/-! ## Nothing is missed -/

/-- The VPs that a push to the queue wakes if they sleep: of a group, those the
runtime was created with. -/
def Target (s : State) (v : Nat) : Queue → Prop
  | .bound w _ | .loc w _ => v = w
  | .ready g _ => v < s.ngroups ∧ s.group v = g

structure NoLoss (s : State) : Prop where
  tasks : ∀ q t v, t ∈ s.queue q → Target s v q → Awake s q ∨ Covered s (.push q t (s.pushes t)) v
  shutdown : s.shutdown = true → ∀ v, Dozing s v VPc.committed → Covered s .shutdown v

theorem Target.watches (h : Target s v q) (hv : VpsOk s) : Watches s v q := by
  cases q with
  | bound | loc => exact h
  | ready g p => exact ⟨Nat.lt_of_lt_of_le h.1 hv.ngroups.2, h.2⟩

theorem Target.concerns (h : Target s v q) (hv : VpsOk s) {k : Nat} : (Req.push q t k).concerns s v := by
  cases q with
  | bound | loc => trivial
  | ready g p => exact ⟨Nat.lt_of_lt_of_le h.1 hv.ngroups.2, h.2⟩

theorem Target.back (h : Target s' v q) (hv : VpsOk s) (he : step s x = some s') : Target s v q := by
  obtain ⟨-, h₁, h₂, -⟩ := step_vps hv he
  cases q with
  | bound | loc => exact h
  | ready g p =>
    have hlt : v < s.ngroups := h₁ ▸ h.1
    exact ⟨hlt, (h₂ v (Nat.lt_of_lt_of_le hlt hv.ngroups.2)).symm.trans h.2⟩

/-- A queue that a VP in a loop of its own watches. -/
theorem awake_of_not_past (hw : Watches s w q) (h : s.idle w = .running ∨ (s.pc w).past q = false) : Awake s q := by
  refine ⟨w, hw, fun hd => ?_⟩
  rcases h with h | h
  · exact hd.1 h
  · simp [hd.2] at h

theorem NoLoss.tasks_step (h : NoLoss s) (hp : Placed s loc) (hv : VpsOk s) (hv' : VpsOk s') (hw : WakeOk s)
    (hc : sleepPrompt s x = true) (he : step s x = some s') (ht : t ∈ s'.queue q) (hT : Target s' v q) :
    Awake s' q ∨ Covered s' (.push q t (s'.pushes t)) v := by
  have hT₀ := hT.back hv he
  have hW' := hT.watches hv'
  rcases hw.pushed hp he ht with ⟨hm, hk⟩ | ⟨a, k, ha, hm, hpc⟩ | ⟨w, hw, hpc⟩
  · have hq : q.priority < priorityLevels := by
      have hl := (hp.queued q t).mp hm
      have hok := hp.ok t
      rw [hl] at hok
      have := (hw.tasks t ((hp.accepted t).mpr (by simp [hl]))).1
      cases q <;> exact hok.2.1 ▸ this
    rcases h.tasks q t v hm hT₀ with hA | hC
    · exact .inl (hA.step hv (List.ne_nil_of_mem hm) hq hc he)
    · rw [hk]
      rcases hC.step (hT₀.concerns hv) hw.group he with hC | ⟨w, hw, hi⟩ | hi
      · exact .inr hC
      · refine .inl (awake_of_not_past (w := w) ?_ (.inl hi))
        rcases hw with rfl | ⟨g, p, t, k, hr, hlt, hg⟩
        · exact hW'
        · cases hr
          exact ⟨hlt, hg⟩
      · exact .inl (awake_of_not_past hW' (.inr (by rw [hi]; rfl)))
  · cases q with
    | bound w p =>
      obtain rfl : k = .vp w := ha
      obtain rfl : v = w := hT
      exact .inr ⟨a, _, hm, .inl (by simp [Wake.op, Op.early, Req.isPush])⟩
    | loc w p =>
      obtain rfl : v = w := hT
      rcases ha with ha | rfl
      · exact .inl (awake_of_not_past hW' (.inr (hpc v ha)))
      · exact .inr ⟨a, _, hm, .inl (by simp [Wake.op, Op.early, Req.isPush])⟩
    | ready g p =>
      obtain rfl : k = .group g none := ha
      exact .inr ⟨a, _, hm, .inl (by simp [Wake.op, Op.early, Req.isGroup, Queue.ofGroup])⟩
  · exact .inl (awake_of_not_past hw (.inr (by rw [hpc]; rfl)))

/-- The shutdown is set before any VP thread exists, or its setter wakes all VPs. -/
theorem step_sets_shutdown (hst : StartOk s) (hp : Placed s loc) (he : step s x = some s') (hs : s.shutdown = false)
    (hs' : s'.shutdown = true) : (∀ v, s'.pc v = .off) ∨ ∃ a, Op.wakeAll ∈ s'.ops a := by
  obtain ⟨a, r, hc, hr, rfl⟩ | ⟨v, tr, u, rfl, ho, hpc, rfl⟩ | ⟨a, o, l, r, rfl, ho, hr, rfl⟩ |
    ⟨v, ws, r, rfl, ho, -, hr, rfl⟩ := step_cases he
  · cases x with
    | spawn b t p g w =>
      obtain ⟨rfl, hr⟩ := hr
      obtain ⟨-, rfl | ⟨-, -, -, rfl⟩⟩ := gtSpawnEx_eq_some hr <;> simp [setOps, accept, hs] at hs'
    | addVp b g =>
      obtain ⟨rfl, hr⟩ := hr
      rcases runtimeAddVp_eq_some hr with rfl | ⟨-, -, -, rfl⟩ <;> simp [setOps, hs] at hs'
    | stop b =>
      obtain ⟨rfl, hr⟩ := hr
      rcases gtStop_eq_some hr with rfl | ⟨hcr, rfl⟩ | ⟨-, rfl⟩
      · simp [setOps, hs] at hs'
      · exact .inl (hst.created hcr)
      · have hl : s.live = 0 := by
          by_contra hl
          simp [setOps, hs, hl] at hs'
        exact .inr ⟨b, by simp [setOps, hl]⟩
    | run x =>
      obtain ⟨rfl, hr⟩ := hr
      simp only [gtRun] at hr
      repeat' split at hr
      all_goals cases hr
      all_goals simp [setOps, hs] at hs'
    | unpark b t =>
      obtain ⟨-, -, -, rfl⟩ := hr
      simp [setOps, hs] at hs'
    | start x | wait x =>
      obtain ⟨-, rfl⟩ := hr
      simp [setOps, hs] at hs'
    | leave | op | vp => cases hr
  · simp [setPc, hs] at hs'
  · by_cases hb : ∃ b, o = .start b
    · obtain ⟨b, rfl⟩ := hb
      rcases gtStart_eq_some hr with rfl | ⟨-, hcr, -, -, rfl⟩ | ⟨-, -, -, rfl⟩
      · simp [setOps, hs] at hs'
      · exact .inl (hst.created hcr)
      · simp [setOps, hs] at hs'
    · cases o with
      | start b => exact absurd ⟨b, rfl⟩ hb
      | _ =>
        simp only [execOp, makeReady, unparkSection, idleWake, idleWakeSection, gtWait] at hr
        repeat' split at hr
        all_goals cases hr
        all_goals simp [setOps, setPc, setIdle, taskMakeReady, hs] at hs'
  · rcases hp.vp_tally hr with ⟨t, -, -, rfl⟩ | ⟨hf, -⟩
    · refine .inr ⟨.vp v, ?_⟩
      simp only [setOps, rtTaskDone, setPc, hs] at hs' ⊢
      split at hs'
      case _ hcomp => simp [hcomp]
      case _ => cases hs'
    · have := (vpStep_sameLife hr hf).1.shutdown
      simp [setOps, this, hs] at hs'

theorem VPc.idling_of_committed {p : VPc} (h : p.committed = true) : p.idling = true := by
  cases p <;> simp_all [VPc.committed, VPc.idling]

theorem NoLoss.shutdown_step (h : NoLoss s) (hp : Placed s loc) (hv : VpsOk s) (hst : StartOk s) (hw : WakeOk s)
    (hc : sleepPrompt s x = true) (he : step s x = some s') (hs' : s'.shutdown = true)
    (hd : Dozing s' v VPc.committed) : Covered s' .shutdown v := by
  cases hs : s.shutdown with
  | false =>
    rcases step_sets_shutdown hst hp he hs hs' with hoff | ⟨a, hm⟩
    · have := hd.2
      simp [hoff v, VPc.committed] at this
    · exact ⟨a, _, hm, .inl rfl⟩
  | true =>
    rcases dozing_back rfl rfl (fun _ _ => rfl) hc he hd with hd₀ | ⟨ws, r, -, hr, h₁, h₂⟩
    · have hlt : v < s.nvp := hv.idling v (VPc.idling_of_committed hd₀.2)
      rcases (h.shutdown hs v hd₀).step hlt hw.group he with hC | ⟨w, hw, hi⟩ | hi
      · exact hC
      · rcases hw with rfl | ⟨g, p, t, k, hr, -⟩
        · exact absurd hi hd.1
        · cases hr
      · have := hd.2
        simp [hi, VPc.committed] at this
    · simp [shutdown_eq_false_of_committed hr h₁ h₂] at hs

theorem reach_noLoss (h : machine.ReachBy (fun s x => sleepPrompt s x = true) s) : WakeOk s ∧ NoLoss s := by
  refine h.invariant (I := fun s => WakeOk s ∧ NoLoss s) ?_ ?_
  · rintro s ⟨groups, -, -, rfl⟩
    constructor
    · refine ⟨?_, ?_, ?_, ?_⟩ <;> simp [State.initial]
    · refine ⟨?_, ?_⟩ <;> simp [State.initial]
  · rintro s s' x hr ⟨hw, hl⟩ hc he
    obtain ⟨loc, hp⟩ := reach_placed hr.reach
    obtain ⟨hv, hst⟩ := reach_vpsOk hr.reach
    exact ⟨hw.step hp hv he, fun q t v ht hT => hl.tasks_step hp hv (hv.step he) hw hc he ht hT,
      fun hs v hd => hl.shutdown_step hp hv hst hw hc he hs hd⟩

/-! ## Sleeping VPs -/

/-- VP `v` is blocked in `dlsm_gt_vp_idle_sleep`. -/
def Asleep (s : State) (v : Nat) : Prop := s.pc v = .blocked ∧ s.idle v = .sleeping

/-- In `dlsm_gt_vp_idle_wake` of `v`, after the push `tag`. -/
def Op.wakesFor (v : Nat) (tag : Nat × Nat) : Op → Prop
  | .wake w tag' | .wakeSection w tag' => w = v ∧ tag' = some tag
  | _ => False

/-- In `wake_group_vp` of group `g`, after the push `tag`. -/
def Op.wakesGroupFor (g : Nat) (tag : Nat × Nat) : Op → Prop
  | .groupLoad _ g' _ tag' | .groupScan _ _ _ g' _ tag' | .groupWake _ _ _ g' _ tag' | .groupSection _ _ _ g' _ tag' =>
    g' = g ∧ tag' = some tag
  | _ => False

/-- In `wake_all_vps`. -/
def Op.wakesAll : Op → Prop
  | .wakeAll | .allWake _ _ | .allSection _ _ => True
  | _ => False

/-- No VP sleeps on work that nobody is about to wake it for. -/
structure NoSleepOnWork (s : State) : Prop where
  /-- Each task in its own queues has a producer that has not finished its wakeup. -/
  own : ∀ v, Asleep s v → ∀ p t, t ∈ s.queue (.bound v p) ∨ t ∈ s.queue (.loc v p) →
    ∃ a, ∃ o ∈ s.ops a, o.wakesFor v (t, s.pushes t)
  /-- If all VPs of a group sleep, so has each task in the queues of the group. -/
  group : ∀ g, (∀ v < s.nvp, s.group v = g → Asleep s v) → ∀ p, ∀ t ∈ s.queue (.ready g p),
    ∃ a, ∃ o ∈ s.ops a, o.wakesGroupFor g (t, s.pushes t)
  shutdown : s.shutdown = true → ∀ v, Asleep s v → ∃ a, ∃ o ∈ s.ops a, o.wakesAll

theorem Asleep.dozing (h : Asleep s v) {past : VPc → Bool} (hp : past .blocked = true) : Dozing s v past := by
  simp [Dozing, h.1, h.2, hp]

/-- The wakeup in flight is one for the queue. -/
theorem Covered.wakes {r : Req} (h : Covered s r v) :
    ∃ a, ∃ o ∈ s.ops a, match r with
      | .push (.ready g _) t k => o.wakesGroupFor g (t, k)
      | .push _ t k => o.wakesFor v (t, k)
      | .shutdown => o.wakesAll := by
  obtain ⟨a, o, hm, ho⟩ := h
  refine ⟨a, o, hm, ?_⟩
  have ho : o.early r v = true ∨ o.late r v = true := ho.imp id And.right
  cases r with
  | shutdown =>
    cases o <;> simp_all [Op.early, Op.late, Op.wakesAll, Req.isGroup, Req.isPush]
  | push q t k =>
    cases q <;> cases o <;>
      simp [Op.early, Op.late, Op.wakesFor, Op.wakesGroupFor, Req.isGroup, Req.isPush, Req.isShutdown, Queue.ofGroup]
        at ho ⊢
    all_goals grind -linarith

/-- In every state of a run in which no wakeup lands between the load and the
store of `dlsm_gt_vp_idle_sleep`, no VP sleeps on work. -/
theorem no_sleep_on_work (h : machine.ReachBy (fun s x => sleepPrompt s x = true) s) : NoSleepOnWork s := by
  obtain ⟨hw, hl⟩ := reach_noLoss h
  obtain ⟨hv, -⟩ := reach_vpsOk h.reach
  obtain ⟨loc, hp⟩ := reach_placed h.reach
  refine ⟨fun v hs p t ht => ?_, fun g hs p t ht => ?_, fun hsh v hs => (hl.shutdown hsh v (hs.dozing rfl)).wakes⟩
  · rcases ht with ht | ht
    · rcases hl.tasks _ t v ht rfl with ⟨w, hww, hd⟩ | hC
      · obtain rfl : w = v := hww
        exact absurd (hs.dozing rfl) hd
      · exact hC.wakes
    · rcases hl.tasks _ t v ht rfl with ⟨w, hww, hd⟩ | hC
      · obtain rfl : w = v := hww
        exact absurd (hs.dozing rfl) hd
      · exact hC.wakes
  · -- the group of an accepted task has a VP that the runtime was created with
    have hlt := (hp.queued _ t).mp ht
    have hok := hp.ok t
    rw [hlt] at hok
    obtain ⟨v, hvn, hvg⟩ := hv.groups _ (hw.tasks t ((hp.accepted t).mpr (by simp [hlt]))).2
    have hT : Target s v (.ready g p) := ⟨hvn, hvg.trans hok.2.2.2.symm⟩
    rcases hl.tasks _ t v ht hT with ⟨w, hww, hd⟩ | hC
    · exact absurd ((hs w hww.1 hww.2).dozing rfl) hd
    · exact hC.wakes

/-- VP 0 scans its queues twice and goes to sleep, to where it has read `idle.state`. -/
def toSleepRun : List Act :=
  List.flatten [[.start 1], List.replicate 3 (.op (.ext 1)), List.replicate 138 (.vp 0 [])]

/-- It sleeps, and task 1 is pushed to its group. -/
def sleepFirstRun : List Act :=
  List.flatten [toSleepRun, [.vp 0 [], .vp 0 [], .spawn (.ext 0) 1 0 (some 0) none, .op (.ext 0)]]

theorem no_sleep_on_work_spawned :
    ∃ s, machine.ReachBy (fun s x => sleepPrompt s x = true) s ∧ Asleep s 0 ∧ s.queue (.ready 0 0) = [1] ∧
      NoSleepOnWork s := by
  obtain ⟨s, hs, hp⟩ := Machine.exists_reachBy_of_run (M := machine) (C := fun s x => sleepPrompt s x = true)
    (c := sleepPrompt) (fun _ _ h => h) (s := State.initial [0]) (l := sleepFirstRun)
    (p := fun s => s.pc 0 == .blocked && s.idle 0 == .sleeping && s.queue (.ready 0 0) == [1])
    ⟨[0], by decide, by decide, rfl⟩ (by decide +kernel)
  simp only [Bool.and_eq_true, beq_iff_eq] at hp
  exact ⟨s, hs, hp.1, hp.2, no_sleep_on_work hs⟩

/-- The thread that acts. -/
def Act.actor : Act → Actor
  | .spawn a _ _ _ _ | .unpark a _ | .stop a | .addVp a _ | .op a => a
  | .start x | .run x | .wait x => .ext x
  | .leave v _ | .vp v _ => .vp v

theorem step_ops_of_ne (he : step s x = some s') (ha : a ≠ x.actor) : s'.ops a = s.ops a := by
  obtain ⟨b, r, hc, hr, rfl⟩ | ⟨v, tr, u, rfl, ho, hpc, rfl⟩ | ⟨b, o, l, r, rfl, ho, hr, rfl⟩ |
    ⟨v, ws, r, rfl, ho, -, hr, rfl⟩ := step_cases he
  · have e : a ≠ b := by
      rintro rfl
      cases x <;> simp_all [Calls, Act.actor]
    simp [setOps, Function.update_of_ne e, hr.frame.2.1]
  · rfl
  · have e : a ≠ b := ha
    simp [setOps, Function.update_of_ne e, execOp_ops hr]
  · have e : a ≠ .vp v := ha
    simp [setOps, Function.update_of_ne e, (vpStep_sameVps hr).1.ops]

/-- Threads that do not act in a run are in no call after it. -/
theorem run_ops : ∀ {l : List Act} {s s' : State}, machine.run s l = some s' → (∀ x ∈ l, a ≠ x.actor) →
    s'.ops a = s.ops a
  | [], s, s', h, _ => by
    simp only [Machine.run, Option.some.injEq] at h
    rw [h]
  | x :: l, s, s', h, ha => by
    obtain ⟨s₁, h₁, h₂⟩ := Option.bind_eq_some_iff.mp h
    rw [run_ops h₂ fun y hy => ha y (List.mem_cons_of_mem _ hy)]
    exact step_ops_of_ne h₁ (ha x List.mem_cons_self)

/-- Before VP 0 stores `SLEEPING`, task 1 is pushed and its producer wakes the
VP by the compare-exchange from `SPINNING`. -/
def lostWakeRun : List Act :=
  List.flatten [toSleepRun, [.spawn (.ext 0) 1 0 (some 0) none], List.replicate 5 (.op (.ext 0)), [.vp 0 [], .vp 0 []]]

/-- VP 0, the only one of its group, sleeps on task 1, and no call is in
progress. -/
theorem sleeps_on_work :
    ∃ s, machine.Reach s ∧ s.nvp = 1 ∧ Asleep s 0 ∧ s.queue (.ready 0 0) = [1] ∧ (∀ a, s.ops a = []) ∧
      ¬ NoSleepOnWork s := by
  have hrun : (machine.run (State.initial [0]) lostWakeRun).map (fun s => s.pc 0 == .blocked && s.idle 0 == .sleeping &&
      s.queue (.ready 0 0) == [1] && s.nvp == 1 && s.ops (.ext 0) == [] && s.ops (.ext 1) == [] &&
      s.ops (.vp 0) == []) = some true := by
    decide +kernel
  obtain ⟨s, h₁, h₂⟩ := Option.map_eq_some_iff.mp hrun
  simp only [Bool.and_eq_true, beq_iff_eq] at h₂
  obtain ⟨⟨⟨⟨⟨⟨hpc, hid⟩, hq⟩, hn⟩, ho₁⟩, ho₂⟩, ho₃⟩ := h₂
  have hops : ∀ a, s.ops a = [] := by
    intro a
    by_cases ha : a = .ext 0 ∨ a = .ext 1 ∨ a = .vp 0
    · rcases ha with rfl | rfl | rfl <;> assumption
    · refine run_ops h₁ fun x hx e => ha ?_
      have : ∀ x ∈ lostWakeRun, x.actor = .ext 0 ∨ x.actor = .ext 1 ∨ x.actor = .vp 0 := by decide +kernel
      exact e ▸ this x hx
  refine ⟨s, (Machine.Reach.init (M := machine) ⟨[0], by decide, by decide, rfl⟩).of_run h₁, hn, ⟨hpc, hid⟩, hq, hops,
    fun h => ?_⟩
  obtain ⟨a, o, hm, -⟩ := h.group 0 (fun v hv _ => by
    obtain rfl : v = 0 := by omega
    exact ⟨hpc, hid⟩) 0 1 (by simp [hq])
  simp [hops a] at hm

end Dlsmc.Runtime
