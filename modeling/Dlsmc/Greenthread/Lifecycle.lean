import Mathlib.Data.Bool.Basic
import Dlsmc.Greenthread.Scheduling

/-!
# Stopping a runtime drains it

`rt->live` counts the accepted tasks that have not finished (`Tally`), and
`rt->shutdown` is set when it is zero, except by a stop before the start
(`LifeOk.shutdown`). A VP thread returns only after it has seen `rt->shutdown`,
so a `dlsm_gt_wait` that has joined them returns with every task finished
(`drain_on_stop`).
-/

namespace Dlsmc.Runtime

variable {s s' : State} {a : Actor} {v t : Nat} {loc : Nat → Loc}

attribute [local grind =] Function.update_apply

/-! ## The number of live tasks -/

/-- The accepted tasks that have not finished. -/
def unfinished (s : State) : List Nat := s.accepted.filter fun t => decide (s.state t ≠ .finished)

structure Tally (s : State) : Prop where
  nodup : s.accepted.Nodup
  live : s.live = (unfinished s).length
  completions : ∀ t, s.completions t = if s.state t = .finished then 1 else 0

/-- No task is accepted or finished. -/
structure SameTally (s s' : State) : Prop where
  accepted : s'.accepted = s.accepted
  live : s'.live = s.live
  completions : s'.completions = s.completions
  finished : ∀ t, s'.state t = .finished ↔ s.state t = .finished

theorem Tally.frame (h : Tally s) (hs : SameTally s s') : Tally s' := by
  obtain ⟨hnodup, hlive, hcompletions⟩ := h
  obtain ⟨e1, e2, e3, e4⟩ := hs
  refine ⟨e1 ▸ hnodup, ?_, fun t => ?_⟩
  · rw [e2, hlive]
    simp only [unfinished, e1, ne_eq, e4]
  · rw [e3, hcompletions]
    simp only [e4]

theorem Tally.accept (h : Tally s) (ht : t ∉ s.accepted) (hs : s.state t = .none) {p g : Nat} {w : Option Nat} :
    Tally (accept s t p g w) := by
  obtain ⟨hnodup, hlive, hcompletions⟩ := h
  have hst : ∀ u, (Function.update s.state t .new u = .finished) ↔ s.state u = .finished := by
    intro u
    grind -linarith
  refine ⟨?_, ?_, fun u => ?_⟩
  · exact List.nodup_append.mpr ⟨hnodup, List.nodup_singleton t, by grind -linarith⟩
  · simp only [Runtime.accept, unfinished, ne_eq, hst, List.filter_append, List.length_append, hlive]
    simp [hs]
  · simp only [Runtime.accept, hst, hcompletions]

theorem Tally.done (h : Tally s) (ht : t ∈ s.accepted) (hs : s.state t ≠ .finished) (ws : List Nat) :
    0 < s.live ∧ Tally (rtTaskDone s v t ws).1 := by
  obtain ⟨hnodup, hlive, hcompletions⟩ := h
  have hm : t ∈ unfinished s := by simp [unfinished, ht, hs]
  have hl : unfinished (rtTaskDone s v t ws).1 = (unfinished s).erase t := by
    have hn : (unfinished s).Nodup := hnodup.filter _
    rw [hn.erase_eq_filter]
    simp only [unfinished, rtTaskDone, setPc, List.filter_filter]
    refine List.filter_congr fun u _ => ?_
    grind -linarith
  refine ⟨hlive ▸ List.length_pos_of_mem hm, hnodup, ?_, fun u => ?_⟩
  · rw [hl, List.length_erase_of_mem hm, ← hlive]
    rfl
  · have := hcompletions u
    simp only [rtTaskDone, setPc]
    grind -linarith

/-- A step of a VP finishes its task, or none. -/
theorem Placed.vp_tally (h : Placed s loc) {ws : List Nat} {r : State × List Op} (hr : vpStep s v ws = some r) :
    (∃ t, s.pc v = .switch t .finish ∧ s.rtLock = none ∧ r = rtTaskDone s v t ws) ∨
      (∀ t, s.pc v ≠ .switch t .finish) ∧ SameTally s r.1 := by
  have hok : ∀ t, (s.pc v).held = some t → s.state t ≠ .finished := by
    intro t hh
    have := h.ok t
    rw [(h.held v t).mp hh] at this
    rw [this.1]
    split <;> simp
  cases hpc : s.pc v with
  | off | run | exited => simp [vpStep, hpc] at hr
  | scan second avoid pos pr =>
    simp only [vpStep, hpc, scanStep, Option.some.injEq] at hr
    subst hr
    dsimp only
    repeat' split
    all_goals exact .inr ⟨by simp, rfl, rfl, rfl, fun _ => Iff.rfl⟩
  | switch t tr =>
    have ht := hok t (by simp [hpc, VPc.held])
    obtain ⟨-, ⟨rfl, rfl⟩ | ⟨rfl, rfl⟩ | ⟨rfl, hl, rfl⟩⟩ := vpStep_switch hpc hr
    · refine .inr ⟨by simp, rfl, rfl, rfl, fun u => ?_⟩
      simp only [rtEnqueue, setPc, taskMakeReady]
      grind -linarith
    · unfold rtPark
      split
      · refine .inr ⟨by simp, rfl, rfl, rfl, fun u => ?_⟩
        simp only [setPc, taskMakeReady]
        grind -linarith
      · refine .inr ⟨by simp, rfl, rfl, rfl, fun u => ?_⟩
        simp only [setPc]
        grind -linarith
    · exact .inl ⟨t, rfl, hl, rfl⟩
  | popped t =>
    have ht := hok t (by simp [hpc, VPc.held])
    simp only [vpStep, hpc, Option.ite_none_left_eq_some, Option.some.injEq] at hr
    obtain ⟨-, rfl⟩ := hr
    refine .inr ⟨by simp, rfl, rfl, rfl, fun u => ?_⟩
    simp only [setPc]
    grind -linarith
  | _ =>
    simp only [vpStep, hpc] at hr
    repeat' split at hr
    all_goals cases hr
    all_goals exact .inr ⟨by simp, rfl, rfl, rfl, fun _ => Iff.rfl⟩

theorem Placed.op_tally (h : Placed s loc) {o : Op} {r : State × List Op} (ho : o ∈ s.ops a)
    (hr : execOp s a o = some r) : SameTally s r.1 := by
  have push : ∀ t q w, s.state t ≠ .finished → SameTally s (makeReady s t q w).1 := by
    intro t q w ht
    refine ⟨rfl, rfl, rfl, fun u => ?_⟩
    simp only [makeReady, taskMakeReady]
    grind -linarith
  cases o with
  | ready t q w =>
    simp only [execOp, Option.ite_none_left_eq_some, Option.some.injEq] at hr
    obtain ⟨-, rfl⟩ := hr
    have hok := h.ok t
    rw [(h.ready a t q w ho).1] at hok
    exact push t q w (by simp [hok.1])
  | unparkSection t b =>
    rcases unparkSection_eq_some hr with rfl | ⟨hp, rfl⟩ | rfl
    · exact ⟨rfl, rfl, rfl, fun _ => Iff.rfl⟩
    · exact push t _ _ (by simp [hp])
    · exact ⟨rfl, rfl, rfl, fun _ => Iff.rfl⟩
  | _ =>
    simp only [execOp, idleWake, idleWakeSection, groupScan, gtStart, gtWait] at hr
    repeat' split at hr
    all_goals cases hr
    all_goals exact ⟨rfl, rfl, rfl, fun _ => Iff.rfl⟩

/-! ## The life of a runtime -/

/-- Stopped before it was started. -/
def Dead (s : State) : Prop := s.rtState = .stopped ∧ s.started = false ∧ ∀ a n i b, Op.startVp n i b ∉ s.ops a

/-- The part of `dlsm_gt_wait` after it has set `RT_JOINING`. -/
def Op.joins : Op → Bool
  | .join _ _ | .waitEnd => true
  | _ => false

/-- `dlsm_gt_start` has returned, or is creating VP threads. -/
def Begun (s : State) : Prop := s.started = true ∨ ∃ a n i b, Op.startVp n i b ∈ s.ops a

structure LifeOk (s : State) : Prop where
  fresh : s.rtState = .created → s.startedVps = 0 ∧ s.started = false
  closed : s.shutdown = true → accepts s = false
  shutdown : s.shutdown = true → s.live = 0 ∨ Dead s
  exited : ∀ v, s.pc v = .exited ∨ s.pc v = .exitMark → s.shutdown = true
  counting : ∀ a n i b, Op.startVp n i b ∈ s.ops a → s.startedVps = i
  working : s.rtState = .running ∨ s.rtState = .stopping →
    s.shutdown = true ∨ 0 < s.startedVps ∨ ∃ a n i b, Op.startVp n i b ∈ s.ops a
  begun : s.rtState = .running ∨ s.rtState = .stopping → Begun s
  joining : ∀ a, ∀ o ∈ s.ops a, o.joins = true → s.started = true ∧ accepts s = false
  joins : ∀ a n i, Op.join n i ∈ s.ops a → s.shutdown = true ∨ i = 0 ∧ 0 < n
  waited : ∀ a, Op.waitEnd ∈ s.ops a → s.shutdown = true
  joined : s.joined = true → s.shutdown = true ∧ s.started = true

/-- The fields that say where the runtime is in its life. -/
structure SameLife (s s' : State) : Prop where
  rtState : s'.rtState = s.rtState
  live : s'.live = s.live
  shutdown : s'.shutdown = s.shutdown
  startedVps : s'.startedVps = s.startedVps
  started : s'.started = s.started
  joined : s'.joined = s.joined

theorem SameLife.refl (s : State) : SameLife s s := ⟨rfl, rfl, rfl, rfl, rfl, rfl⟩

/-- The operations that a step of another kind neither adds nor removes. -/
def Op.ofLife : Op → Bool
  | .startVp _ _ _ | .join _ _ | .waitEnd => true
  | _ => false

theorem Op.ofLife_of_joins {o : Op} (h : o.joins = true) : o.ofLife = true := by
  cases o <;> simp_all [Op.joins, Op.ofLife]

theorem LifeOk.frame (h : LifeOk s) (hs : SameLife s s')
    (hp : ∀ v, s'.pc v = .exited ∨ s'.pc v = .exitMark → s.shutdown = true)
    (ho : ∀ b o, o.ofLife = true → (o ∈ s'.ops b ↔ o ∈ s.ops b)) : LifeOk s' := by
  obtain ⟨e1, e2, e3, e4, e5, e6⟩ := hs
  have hst : ∀ b n i r, Op.startVp n i r ∈ s'.ops b ↔ Op.startVp n i r ∈ s.ops b := fun b n i r => ho b _ rfl
  have hj : ∀ b n i, Op.join n i ∈ s'.ops b ↔ Op.join n i ∈ s.ops b := fun b n i => ho b _ rfl
  have hw : ∀ b, Op.waitEnd ∈ s'.ops b ↔ Op.waitEnd ∈ s.ops b := fun b => ho b _ rfl
  have ha : accepts s' = accepts s := by simp only [accepts, e1]
  obtain ⟨hfresh, hclosed, hshutdown, hexited, hcounting, hworking, hbegun, hjoining, hjoins, hwaited, hjoined⟩ := h
  refine ⟨?_, ?_, ?_, ?_, ?_, ?_, ?_, fun b o hm hj => ?_, ?_, ?_, ?_⟩
  · rwa [e1, e4, e5]
  · rwa [e3, ha]
  · simpa only [e3, e2, Dead, e1, e5, hst] using hshutdown
  · rwa [e3]
  · simpa only [e4, hst] using hcounting
  · simpa only [e1, e3, e4, hst] using hworking
  · simpa only [e1, e5, Begun, hst] using hbegun
  · rw [e5, ha]
    exact hjoining b o ((ho b o (Op.ofLife_of_joins hj)).mp hm) hj
  · simpa only [e3, hj] using hjoins
  · simpa only [e3, hw] using hwaited
  · simpa only [e3, e5, e6] using hjoined

/-- A step of a VP that finishes no task. -/
theorem vpStep_sameLife {ws : List Nat} {r : State × List Op} (hr : vpStep s v ws = some r)
    (hf : ∀ t, s.pc v ≠ .switch t .finish) :
    SameLife s r.1 ∧ (r.1.pc v = .exited ∨ r.1.pc v = .exitMark → s.pc v = .exitMark ∨ s.shutdown = true) ∧
      ∀ o ∈ r.2, o.ofLife = false := by
  cases hpc : s.pc v with
  | off | run | exited => simp [vpStep, hpc] at hr
  | scan second avoid pos pr =>
    simp only [vpStep, hpc, scanStep, Option.some.injEq] at hr
    subst hr
    dsimp only
    repeat' split
    all_goals exact ⟨⟨rfl, rfl, rfl, rfl, rfl, rfl⟩, by simp [setPc, take], by simp⟩
  | switch t tr =>
    obtain ⟨-, ⟨-, rfl⟩ | ⟨-, rfl⟩ | ⟨rfl, -, rfl⟩⟩ := vpStep_switch hpc hr
    · exact ⟨⟨rfl, rfl, rfl, rfl, rfl, rfl⟩, by simp [rtEnqueue, setPc], by simp [rtEnqueue, Op.ofLife]⟩
    · unfold rtPark
      split <;> exact ⟨⟨rfl, rfl, rfl, rfl, rfl, rfl⟩, by simp [setPc], by simp [Op.ofLife]⟩
    · exact absurd hpc (hf t)
  | _ =>
    simp only [vpStep, hpc] at hr
    repeat' split at hr
    all_goals cases hr
    all_goals refine ⟨⟨rfl, rfl, rfl, rfl, rfl, rfl⟩, ?_, by simp⟩
    all_goals simp_all [setPc]

/-- A thread goes on from `o` with `k`. -/
theorem mem_ofLife {u : State} {o l k : List Op} (hops : u.ops = s.ops) (ho : s.ops a = o ++ l)
    (hn : ∀ x ∈ o, x.ofLife = false)
    (hl : ∀ x ∈ k, x.ofLife = false) (b : Actor) (x : Op) (hx : x.ofLife = true) :
    x ∈ (setOps u a (k ++ l)).ops b ↔ x ∈ s.ops b := by
  by_cases e : b = a
  · subst e
    have h₁ : x ∉ o := fun hm => by simp [hn x hm] at hx
    have h₂ : x ∉ k := fun hm => by simp [hl x hm] at hx
    simp [setOps, ho, h₁, h₂]
  · simp [setOps, Function.update_of_ne e, hops]

theorem LifeOk.vp_step (h : LifeOk s) {ws : List Nat} {r : State × List Op} (ho : s.ops (.vp v) = [])
    (hr : vpStep s v ws = some r) (hf : ∀ t, s.pc v ≠ .switch t .finish) : LifeOk (setOps r.1 (.vp v) r.2) := by
  obtain ⟨hs, hpv, hl⟩ := vpStep_sameLife hr hf
  obtain ⟨hs', hp, -⟩ := vpStep_sameVps hr
  refine h.frame ⟨hs.rtState, hs.live, hs.shutdown, hs.startedVps, hs.started, hs.joined⟩ (fun w hw => ?_) ?_
  · by_cases e : w = v
    · subst e
      exact (hpv hw).elim (fun hx => h.exited w (.inr hx)) id
    · change r.1.pc w = .exited ∨ r.1.pc w = .exitMark at hw
      rw [hp w e] at hw
      exact h.exited w hw
  · simpa using mem_ofLife (l := []) (o := []) hs'.ops ho (by simp) hl

/-- The last task may finish. -/
theorem LifeOk.done (h : LifeOk s) (hlive : 0 < s.live) (hl : ∀ a n i b, Op.startVp n i b ∉ s.ops a)
    (hc : s.rtState ≠ .created) (ho : s.ops (.vp v) = []) (ws : List Nat) :
    LifeOk (setOps (rtTaskDone s v t ws).1 (.vp v) (rtTaskDone s v t ws).2) := by
  have hops := mem_ofLife (u := (rtTaskDone s v t ws).1) (l := []) (o := []) (k := (rtTaskDone s v t ws).2) rfl ho
    (by simp) fun x hx => by rcases mem_rtTaskDone_ops hx with ⟨w, -, rfl⟩ | rfl <;> rfl
  rw [List.append_nil] at hops
  have hst : ∀ b n i r, Op.startVp n i r ∉ (setOps (rtTaskDone s v t ws).1 (.vp v) (rtTaskDone s v t ws).2).ops b :=
    fun b n i r hm => hl b n i r ((hops b _ rfl).mp hm)
  obtain ⟨-, hclosed, hshutdown, hexited, hcounting, hworking, hbegun, hjoining, hjoins, hwaited, hjoined⟩ := h
  have hmono : s.shutdown = true → (rtTaskDone s v t ws).1.shutdown = true := by
    simp only [rtTaskDone, setPc]
    grind -linarith
  have hacc : accepts s = false → accepts (rtTaskDone s v t ws).1 = false := by
    simp only [rtTaskDone, setPc, accepts]
    grind -linarith
  have hrt : (rtTaskDone s v t ws).1.rtState = .running ∨ (rtTaskDone s v t ws).1.rtState = .stopping →
      s.rtState = .running ∨ s.rtState = .stopping := by
    simp only [rtTaskDone, setPc]
    grind -linarith
  refine ⟨?_, ?_, ?_, fun w hw => hmono (hexited w ?_), fun b n i r hm => absurd hm (hst b n i r), fun hr => ?_,
    fun hr => ?_,
    fun b o hm hj => ?_, fun b n i hm => ?_, fun b hm => ?_, fun hj => ?_⟩
  · simp only [setOps, rtTaskDone, setPc]
    grind -linarith
  · simp only [setOps, rtTaskDone, setPc, accepts] at hclosed ⊢
    grind -linarith
  · simp only [setOps, rtTaskDone, setPc, Dead] at hshutdown hst ⊢
    grind -linarith
  · simp only [setOps, rtTaskDone, setPc] at hw
    grind -linarith
  · rcases hworking (hrt hr) with hworking | hworking | ⟨b, n, i, r, hm⟩
    · exact .inl (hmono hworking)
    · exact .inr (.inl hworking)
    · exact absurd hm (hl b n i r)
  · rcases hbegun (hrt hr) with hbegun | ⟨b, n, i, r, hm⟩
    · exact .inl hbegun
    · exact absurd hm (hl b n i r)
  · have := hjoining b o ((hops b o (Op.ofLife_of_joins hj)).mp hm) hj
    exact ⟨this.1, hacc this.2⟩
  · exact (hjoins b n i ((hops b _ rfl).mp hm)).imp hmono id
  · exact hmono (hwaited b ((hops b _ rfl).mp hm))
  · exact ⟨hmono (hjoined hj).1, (hjoined hj).2⟩

theorem execOp_sameLife {o : Op} {r : State × List Op} (hr : execOp s a o = some r) (hl : o.ofLife = false)
    (hn : (∀ b, o ≠ .start b) ∧ o ≠ .wait ∧ ∀ v g, o ≠ .addPublish v g) :
    SameLife s r.1 ∧ (∀ w, r.1.pc w = .exited ∨ r.1.pc w = .exitMark → s.pc w = .exited ∨ s.pc w = .exitMark) ∧
      ∀ x ∈ r.2, x.ofLife = false := by
  cases o with
  | start b => exact absurd rfl (hn.1 b)
  | wait => exact absurd rfl hn.2.1
  | addPublish v g => exact absurd rfl (hn.2.2 v g)
  | startVp | join | waitEnd => cases hl
  | addCreate w g =>
    cases hr
    refine ⟨⟨rfl, rfl, rfl, rfl, rfl, rfl⟩, fun u hu => ?_, by simp [Op.ofLife]⟩
    simp only [setPc] at hu
    grind -linarith
  | ready t q w =>
    simp only [execOp, Option.ite_none_left_eq_some, Option.some.injEq] at hr
    obtain ⟨-, rfl⟩ := hr
    refine ⟨⟨rfl, rfl, rfl, rfl, rfl, rfl⟩, fun u hu => hu, ?_⟩
    cases w <;> simp [makeReady, Wake.op, Op.ofLife]
  | unparkSection t b =>
    rcases unparkSection_eq_some hr with rfl | ⟨-, rfl⟩ | rfl
    · exact ⟨.refl s, fun u hu => hu, by simp⟩
    · refine ⟨⟨rfl, rfl, rfl, rfl, rfl, rfl⟩, fun u hu => hu, ?_⟩
      cases (unparkTarget s t).2 <;> simp [makeReady, Wake.op, Op.ofLife]
    · exact ⟨⟨rfl, rfl, rfl, rfl, rfl, rfl⟩, fun u hu => hu, by simp⟩
  | _ =>
    simp only [execOp, idleWake, idleWakeSection, groupScan] at hr
    repeat' split at hr
    all_goals cases hr
    all_goals exact ⟨⟨rfl, rfl, rfl, rfl, rfl, rfl⟩, fun u hu => hu, by simp [Op.ofLife]⟩

theorem mem_setOps_append {u : State} {o : Op} {l k : List Op} (hops : u.ops = s.ops)
    (ho : s.ops a = o :: l) {b : Actor} {x : Op}
    (hx : x ∈ (setOps u a (k ++ l)).ops b) : x ∈ k ∨ x ∈ s.ops b := by
  rcases mem_setOps hx with ⟨rfl, hm⟩ | ⟨-, hm⟩
  · rcases List.mem_append.mp hm with hm | hm
    · exact .inl hm
    · exact .inr (by simp [ho, hm])
  · exact .inr (hops ▸ hm)

theorem LifeOk.start (h : LifeOk s) (hst : StartOk s) {b : Bool} {l : List Op} {r : State × List Op}
    (ho : s.ops a = .start b :: l) (hr : gtStart s a b = some r) : LifeOk (setOps r.1 a (r.2 ++ l)) := by
  obtain ⟨hfresh, hclosed, hshutdown, hexited, hcounting, hworking, hbegun, hjoining, hjoins, hwaited, hjoined⟩ := id h
  rcases gtStart_eq_some hr with rfl | ⟨-, hc, -, hlive, rfl⟩ | ⟨-, hc, -, rfl⟩
  · exact h.frame ⟨rfl, rfl, rfl, rfl, rfl, rfl⟩ (fun v hv => hexited v hv)
      (mem_ofLife (o := [_]) rfl ho (by simp [Op.ofLife]) (by simp))
  · refine ⟨by simp [setOps], fun _ => rfl, fun _ => .inl hlive, fun _ _ => rfl, fun c n i r hm => ?_,
      fun _ => .inl rfl,
      fun _ => .inl rfl, fun _ _ _ _ => ⟨rfl, rfl⟩, fun _ _ _ _ => .inl rfl, fun _ _ => rfl, fun _ => ⟨rfl, rfl⟩⟩
    rcases mem_setOps_append (u := { s with
      stopRequested := true, shutdown := true, rtState := .stopping, started := true }) rfl ho hm with hm | hm
    · cases b <;> simp at hm
    · exact absurd hc (hst.starting c n i r hm).1
  · have hacc : accepts s = true := by simp [accepts, hc]
    have hsh : s.shutdown ≠ true := fun e => by simp [hclosed e] at hacc
    have hmem : ∀ c x, x ∈ (setOps { s with rtState := .running, rtLock := some a } a
        ([Op.startVp s.nvp 0 b] ++ l)).ops c → x = .startVp s.nvp 0 b ∨ x ∈ s.ops c := by
      intro c x hx
      simpa using mem_setOps_append (u := { s with rtState := .running, rtLock := some a }) rfl ho hx
    have hnew : ∃ c n i r, Op.startVp n i r ∈ (setOps { s with rtState := .running, rtLock := some a } a
        ([Op.startVp s.nvp 0 b] ++ l)).ops c := ⟨a, s.nvp, 0, b, by simp [setOps]⟩
    -- no call is past the start of a runtime that was just created
    have hjoin : ∀ c x, x ∈ (setOps { s with rtState := .running, rtLock := some a } a
        ([Op.startVp s.nvp 0 b] ++ l)).ops c → x.joins ≠ true := by
      intro c x hx hj
      rcases hmem c x hx with rfl | hx
      · cases hj
      · simp [(hjoining c x hx hj).2] at hacc
    refine ⟨by simp [setOps], fun e => absurd e hsh, fun e => absurd e hsh, fun w hw => hexited w hw,
      fun c n i r hm => ?_,
      fun _ => .inr (.inr hnew), fun _ => .inr hnew, fun c x hx hj => absurd hj (hjoin c x hx),
      fun c n i hm => absurd rfl (hjoin c _ hm), fun c hm => absurd rfl (hjoin c _ hm),
      fun hj => absurd (hjoined hj).1 hsh⟩
    rcases hmem c _ hm with hm | hm
    · cases hm
      exact (hfresh hc).1
    · exact absurd hc (hst.starting c n i r hm).1

theorem LifeOk.start_vp (h : LifeOk s) (hv : VpsOk s) (hst : StartOk s) {n i : Nat} {b : Bool} {l : List Op}
    {r : State × List Op} (ho : s.ops a = .startVp n i b :: l) (hr : execOp s a (.startVp n i b) = some r) :
    LifeOk (setOps r.1 a (r.2 ++ l)) := by
  have hm : Op.startVp n i b ∈ s.ops a := by simp [ho]
  have hi := h.counting a n i b hm
  have hcr := (hst.starting a n i b hm).1
  have key := fun {c x} => hv.mem_held (b := c) (x := x) (k := r.2) ho rfl (execOp_ops hr)
  have hlive : s.shutdown = true → s.live = 0 := fun e =>
    (h.shutdown e).elim id fun hd => absurd hm (hd.2.2 a n i b)
  obtain ⟨-, hclosed, -, hexited, -, -, -, hjoining, hjoins, hwaited, hjoined⟩ := h
  -- the operations after `dlsm_gt_start` are those of before
  have hold : ∀ c x, x ∈ (setOps r.1 a (r.2 ++ l)).ops c → x.joins = true → x ∈ s.ops c := by
    intro c x hx hj
    rcases mem_setOps_append (execOp_ops hr) ho hx with hx | hx
    · simp only [execOp] at hr
      split at hr <;> cases hr <;> cases b <;> simp at hx <;> simp [hx, Op.joins] at hj
    · exact hx
  simp only [execOp] at hr
  split at hr <;> cases hr
  · have hnew : ∃ c m j r, Op.startVp m j r ∈ (setOps (setPc { s with startedVps := s.startedVps + 1 } i
        (.tryNext false)) a ([Op.startVp n (i + 1) b] ++ l)).ops c := ⟨a, n, i + 1, b, by simp [setOps, setPc]⟩
    refine ⟨fun e => absurd e hcr, hclosed, fun e => .inl (hlive e), fun w hw => hexited w ?_, fun c n' i' b' hx => ?_,
      fun _ => .inr (.inl (Nat.succ_pos _)), fun _ => .inr hnew, fun c x hx hj => hjoining c x (hold c x hx hj) hj,
      fun c n i hx => hjoins c n i (hold c _ hx rfl), fun c hx => hwaited c (hold c _ hx rfl), hjoined⟩
    · simp only [setOps, setPc] at hw
      grind -linarith
    · have hx := (key hx rfl).2
      simp only [List.mem_singleton, Op.startVp.injEq] at hx
      simp only [setOps, setPc, hi, hx.2.1]
  case _ hlt =>
    have hpos : 0 < s.startedVps := by
      have hn := hv.starting a n i b hm
      have := hv.ngroups
      omega
    refine ⟨fun e => absurd e hcr, hclosed, fun e => .inl (hlive e), hexited, fun c n' i' b' hx => ?_,
      fun _ => .inr (.inl hpos), fun _ => .inl rfl, fun c x hx hj => ⟨rfl, (hjoining c x (hold c x hx hj) hj).2⟩,
      fun c n i hx => hjoins c n i (hold c _ hx rfl), fun c hx => hwaited c (hold c _ hx rfl),
      fun e => ⟨(hjoined e).1, rfl⟩⟩
    have hx := (key hx rfl).2
    cases b <;> simp at hx

theorem LifeOk.add_publish (h : LifeOk s) (hv : VpsOk s) {w g : Nat} {l : List Op}
    {r : State × List Op} (ho : s.ops a = .addPublish w g :: l) (hr : execOp s a (.addPublish w g) = some r) :
    LifeOk (setOps r.1 a (r.2 ++ l)) := by
  obtain ⟨hll, hb⟩ := hv.only ho rfl
  have hnone : ∀ c n i b, Op.startVp n i b ∉ s.ops c := by
    intro c n i b hx
    by_cases e : c = a
    · subst e
      rw [ho, List.mem_cons] at hx
      rcases hx with hx | hx
      · cases hx
      · exact absurd (hll _ hx) (by simp [Op.holdsRt])
    · exact absurd (hb c e _ hx) (by simp [Op.holdsRt])
  have hops := mem_ofLife (u := r.1) (k := r.2) (o := [_]) (execOp_ops hr) ho (by simp [Op.ofLife]) (by
    simp only [execOp] at hr
    split at hr <;> cases hr <;> simp [Op.ofLife])
  simp only [execOp] at hr
  split at hr <;> cases hr
  case _ hrun =>
    have hexited := h.exited
    have h' : LifeOk { s with startedVps := s.startedVps + 1 } := by
      obtain ⟨hfresh, hclosed, hshutdown, hexited, hcounting, hworking, hbegun, hjoining, hjoins, hwaited, hjoined⟩ := h
      exact ⟨by simp [hrun], hclosed, hshutdown, hexited, fun c n i b hx => absurd hx (hnone c n i b),
        fun _ => .inr (.inl (Nat.succ_pos _)),
        hbegun, hjoining, hjoins, hwaited, hjoined⟩
    exact h'.frame ⟨rfl, rfl, rfl, rfl, rfl, rfl⟩ hexited hops
  case _ => exact h.frame ⟨rfl, rfl, rfl, rfl, rfl, rfl⟩ h.exited hops

theorem LifeOk.wait (h : LifeOk s) (hv : VpsOk s) {l : List Op} {r : State × List Op} (ho : s.ops a = .wait :: l)
    (hr : gtWait s = some r) : LifeOk (setOps r.1 a (r.2 ++ l)) := by
  simp only [gtWait, Option.ite_none_left_eq_some, Decidable.not_not] at hr
  obtain ⟨hl, hr⟩ := hr
  have hnone : ∀ c n i b, Op.startVp n i b ∉ s.ops c := fun c n i b hx => by
    simpa [Op.holdsRt] using hv.not_holds hl hx
  split at hr <;> cases hr
  case _ hrt =>
    have hrt : s.rtState = .running ∨ s.rtState = .stopping := hrt.elim .inr fun e => .inl e.1
    obtain ⟨-, hclosed, hshutdown, hexited, hcounting, hworking, hbegun, hjoining, hjoins, hwaited, hjoined⟩ := h
    have hstarted : s.started = true := by
      rcases hbegun hrt with hs | ⟨c, n, i, b, hx⟩
      · exact hs
      · exact absurd hx (hnone c n i b)
    have hmem : ∀ c x, x ∈ (setOps { s with rtState := .joining } a ([Op.join s.startedVps 0] ++ l)).ops c →
        x = .join s.startedVps 0 ∨ x ∈ s.ops c := by
      intro c x hx
      simpa using mem_setOps_append (u := { s with rtState := .joining }) rfl ho hx
    refine ⟨by simp [setOps], fun _ => rfl, fun e => (hshutdown e).imp id fun hd => ?_, hexited, fun c n i b hx => ?_,
      by simp [setOps], by simp [setOps], fun _ _ _ _ => ⟨hstarted, rfl⟩, fun c n i hx => ?_, fun c hx => ?_, hjoined⟩
    · exact absurd hd.1 (by rcases hrt with hrt | hrt <;> simp [hrt])
    · rcases hmem c _ hx with hx | hx
      · cases hx
      · exact hcounting c n i b hx
    · rcases hmem c _ hx with hx | hx
      · cases hx
        rcases hworking hrt with hworking | hworking | ⟨c, n, i, b, hx⟩
        · exact .inl hworking
        · exact .inr ⟨rfl, hworking⟩
        · exact absurd hx (hnone c n i b)
      · exact hjoins c n i hx
    · rcases hmem c _ hx with hx | hx
      · cases hx
      · exact hwaited c hx
  case _ => exact h.frame ⟨rfl, rfl, rfl, rfl, rfl, rfl⟩ h.exited (mem_ofLife (o := [_]) rfl ho (by simp [Op.ofLife])
    (by simp))

/-- `dlsm_gt_wait` joins the VP threads it counted, of which there is one unless the runtime never had work. -/
theorem LifeOk.join (h : LifeOk s) {n i : Nat} {l : List Op} {r : State × List Op} (ho : s.ops a = .join n i :: l)
    (hr : execOp s a (.join n i) = some r) : LifeOk (setOps r.1 a (r.2 ++ l)) := by
  have hm : Op.join n i ∈ s.ops a := by simp [ho]
  have hj := h.joining a _ hm rfl
  obtain ⟨hsh, o, rfl, hoj⟩ : s.shutdown = true ∧ ∃ o, r = (s, [o]) ∧ o.joins = true := by
    simp only [execOp] at hr
    split at hr
    case _ hle =>
      cases hr
      exact ⟨(h.joins a n i hm).elim id fun e => by omega, .waitEnd, rfl, rfl⟩
    case _ =>
      split at hr
      case _ hex =>
        cases hr
        exact ⟨h.exited i (.inl hex), .join n (i + 1), rfl, rfl⟩
      case _ => cases hr
  have hmem : ∀ c x, x ∈ (setOps s a ([o] ++ l)).ops c → x = o ∨ x ∈ s.ops c := by
    intro c x hx
    simpa using mem_setOps_append rfl ho hx
  have hst : ∀ c n i b, Op.startVp n i b ∈ (setOps s a ([o] ++ l)).ops c ↔ Op.startVp n i b ∈ s.ops c := by
    intro c n i b
    refine ⟨fun hx => ?_, fun hx => ?_⟩
    · rcases hmem c _ hx with rfl | hx
      · cases hoj
      · exact hx
    · by_cases e : c = a
      · subst e
        rw [ho, List.mem_cons] at hx
        simpa [setOps] using .inr (hx.resolve_left (by simp))
      · simpa [setOps, Function.update_of_ne e] using hx
  obtain ⟨hfresh, hclosed, hshutdown, hexited, hcounting, hworking, hbegun, hjoining, hjoins, hwaited, hjoined⟩ := h
  refine ⟨hfresh, hclosed, ?_, hexited, ?_, fun _ => .inl hsh, ?_, fun _ _ _ _ => hj, fun _ _ _ _ => .inl hsh,
    fun _ _ => hsh, hjoined⟩
  · simp only [Dead, hst]
    exact hshutdown
  · simp only [hst]
    exact hcounting
  · simp only [Begun, hst]
    exact hbegun

theorem LifeOk.wait_end (h : LifeOk s) {l : List Op} {r : State × List Op} (ho : s.ops a = .waitEnd :: l)
    (hr : execOp s a .waitEnd = some r) : LifeOk (setOps r.1 a (r.2 ++ l)) := by
  have hm : Op.waitEnd ∈ s.ops a := by simp [ho]
  have hj := h.joining a _ hm rfl
  have hsh := h.waited a hm
  simp only [execOp, Option.ite_none_left_eq_some, Option.some.injEq] at hr
  obtain ⟨-, rfl⟩ := hr
  obtain ⟨-, hclosed, hshutdown, hexited, hcounting, hworking, hbegun, hjoining, hjoins, hwaited, hjoined⟩ := h
  refine ⟨by simp [setOps], fun _ => rfl, fun e => .inl ?_, hexited, fun c n i b hx => ?_, by simp [setOps],
    by simp [setOps],
    fun _ _ _ _ => ⟨hj.1, rfl⟩, fun _ _ _ _ => .inl hsh, fun _ _ => hsh, fun _ => ⟨hsh, hj.1⟩⟩
  · exact (hshutdown e).elim id fun hd => by simp [hd.2.1] at hj
  · rcases mem_setOps_append (u := { s with rtState := .stopped, joined := true }) rfl ho hx with hx | hx
    · cases hx
    · exact hcounting c n i b hx

theorem LifeOk.op (h : LifeOk s) (hv : VpsOk s) (hst : StartOk s) {o : Op} {l : List Op} {r : State × List Op}
    (ho : s.ops a = o :: l) (hr : execOp s a o = some r) : LifeOk (setOps r.1 a (r.2 ++ l)) := by
  cases o with
  | start b => exact h.start hst ho hr
  | startVp n i b => exact h.start_vp hv hst ho hr
  | addPublish w g => exact h.add_publish hv ho hr
  | wait => exact h.wait hv ho hr
  | join n i => exact h.join ho hr
  | waitEnd => exact h.wait_end ho hr
  | _ =>
    obtain ⟨hs, hp, hl⟩ := execOp_sameLife hr rfl (by simp)
    exact h.frame ⟨hs.rtState, hs.live, hs.shutdown, hs.startedVps, hs.started, hs.joined⟩
      (fun w hw => h.exited w (hp w hw)) (mem_ofLife (o := [_]) (execOp_ops hr) ho (by simp [Op.ofLife]) hl)

theorem gtStop_eq_some {r : State × List Op} (h : gtStop s = some r) :
    r = (s, []) ∨
    (s.rtState = .created ∧ r = ({ s with stopRequested := true, shutdown := true, rtState := .stopped }, [])) ∨
    s.rtState = .running ∧ r = ({ s with
        stopRequested := true
        rtState := .stopping
        shutdown := if s.live = 0 then true else s.shutdown }, if s.live = 0 then [.wakeAll] else []) := by
  simp only [gtStop, Option.ite_none_left_eq_some] at h
  obtain ⟨-, h⟩ := h
  split at h
  case _ hc => exact .inr (.inl ⟨hc, (Option.some.inj h).symm⟩)
  case _ =>
    split at h
    case _ => exact .inl (Option.some.inj h).symm
    case _ hr => exact .inr (.inr ⟨by simpa using hr, (Option.some.inj h).symm⟩)

theorem LifeOk.stop (h : LifeOk s) (hst : StartOk s) {r : State × List Op} (hc : canCall s a = true)
    (hr : gtStop s = some r) : LifeOk (setOps r.1 a r.2) := by
  have ho := canCall_ops hc
  have hops : ∀ {u : State} {l : List Op}, u.ops = s.ops → (∀ x ∈ l, x.ofLife = false) →
      ∀ b x, x.ofLife = true → (x ∈ (setOps u a l).ops b ↔ x ∈ s.ops b) := fun hs hl b x hx => by
    simpa using mem_ofLife (l := []) (o := []) hs ho (by simp) hl b x hx
  rcases gtStop_eq_some hr with rfl | ⟨hc, rfl⟩ | ⟨hrun, rfl⟩
  · exact h.frame ⟨rfl, rfl, rfl, rfl, rfl, rfl⟩ h.exited (hops rfl (by simp))
  · have hnone : ∀ c n i b, Op.startVp n i b ∉ s.ops c := fun c n i b hx => (hst.starting c n i b hx).1 hc
    have hjoins : ∀ c, ∀ x ∈ s.ops c, x.joins ≠ true := fun c x hx hj => by
      have := (h.joining c x hx hj).2
      simp [accepts, hc] at this
    have hops' := fun c x hx => (hops (u := { s with stopRequested := true, shutdown := true, rtState := .stopped })
      (l := []) rfl (by simp) c x hx).mp
    refine ⟨by simp [setOps], fun _ => rfl, fun _ => .inr ⟨rfl, (h.fresh hc).2, fun c n i b hx => ?_⟩, fun _ _ => rfl,
      fun c n i b hx => ?_, by simp [setOps], by simp [setOps], fun c x hx hj => ?_, fun _ _ _ _ => .inl rfl,
      fun _ _ => rfl, fun hj => ?_⟩
    · exact hnone c n i b (hops' c _ rfl hx)
    · exact absurd (hops' c _ rfl hx) (hnone c n i b)
    · exact absurd hj (hjoins c x (hops' c x (Op.ofLife_of_joins hj) hx))
    · have := (h.joined hj).2
      simp [(h.fresh hc).2] at this
  · have hops' := hops (u := { s with
        stopRequested := true
        rtState := .stopping
        shutdown := if s.live = 0 then true else s.shutdown }) (l := if s.live = 0 then [.wakeAll] else []) rfl
      (by split <;> simp [Op.ofLife])
    have hacc : accepts s = true := by simp [accepts, hrun]
    have hsh : s.shutdown ≠ true := fun e => by simp [h.closed e] at hacc
    obtain ⟨-, hclosed, hshutdown, hexited, hcounting, hworking, hbegun, hjoining, hjoins₀, hwaited, hjoined⟩ := h
    refine ⟨by simp [setOps], fun _ => rfl, fun hs => .inl ?_, fun w hw => absurd (hexited w hw) hsh,
      fun c n i b hx => ?_,
      fun _ => ?_, fun _ => ?_, fun c x hx hj => ?_, fun c n i hx => ?_, fun c hx => ?_,
      fun hj => absurd (hjoined hj).1 hsh⟩
    · by_contra hl
      have hl : ¬ s.live = 0 := hl
      simp [setOps, hl, hsh] at hs
    · exact hcounting c n i b ((hops' c _ rfl).mp hx)
    · rcases hworking (.inl hrun) with hworking | hworking | ⟨c, n, i, b, hx⟩
      · exact absurd hworking hsh
      · exact .inr (.inl hworking)
      · exact .inr (.inr ⟨c, n, i, b, (hops' c _ rfl).mpr hx⟩)
    · rcases hbegun (.inl hrun) with hbegun | ⟨c, n, i, b, hx⟩
      · exact .inl hbegun
      · exact .inr ⟨c, n, i, b, (hops' c _ rfl).mpr hx⟩
    · have := (hjoining c x ((hops' c x (Op.ofLife_of_joins hj)).mp hx) hj).2
      simp [hacc] at this
    · have := (hjoining c _ ((hops' c _ rfl).mp hx) rfl).2
      simp [hacc] at this
    · have := (hjoining c _ ((hops' c _ rfl).mp hx) rfl).2
      simp [hacc] at this

theorem LifeOk.accept (h : LifeOk s) (hacc : accepts s = true) (hc : canCall s a = true) {p g : Nat} {w : Option Nat}
    {q : Queue} {k : Wake} : LifeOk (setOps (accept s t p g w) a [.ready t q k]) := by
  have hsh : s.shutdown ≠ true := fun e => by simp [h.closed e] at hacc
  have h' : LifeOk (Runtime.accept s t p g w) := by
    obtain ⟨hfresh, hclosed, hshutdown, hexited, hcounting, hworking, hbegun, hjoining, hjoins, hwaited, hjoined⟩ := h
    exact ⟨hfresh, hclosed, fun e => absurd e hsh, hexited, hcounting, hworking, hbegun, hjoining, hjoins, hwaited,
      hjoined⟩
  refine h'.frame ⟨rfl, rfl, rfl, rfl, rfl, rfl⟩ h'.exited ?_
  simpa using mem_ofLife (s := Runtime.accept s t p g w) (l := []) (o := []) (k := [.ready t q k]) rfl (canCall_ops hc)
    (by simp) (by simp [Op.ofLife])

theorem LifeOk.call (h : LifeOk s) (hst : StartOk s) {x : Act} {r : State × List Op} (hc : canCall s a = true)
    (hx : Calls s a r x) : LifeOk (setOps r.1 a r.2) := by
  have same : ∀ {s' : State} {l : List Op}, SameLife s s' → s'.pc = s.pc → s'.ops = s.ops →
      (∀ x ∈ l, x.ofLife = false) → LifeOk (setOps s' a l) := by
    intro s' l hs hp ho hl
    refine h.frame ⟨hs.rtState, hs.live, hs.shutdown, hs.startedVps, hs.started, hs.joined⟩ (fun w hw => ?_) ?_
    · change s'.pc w = .exited ∨ s'.pc w = .exitMark at hw
      rw [hp] at hw
      exact h.exited w hw
    · simpa using mem_ofLife (l := []) (o := []) ho (canCall_ops hc) (by simp) hl
  cases x with
  | spawn b t p g w =>
    obtain ⟨rfl, hr⟩ := hx
    obtain ⟨hn, rfl | ⟨-, hok, hacc, rfl⟩⟩ := gtSpawnEx_eq_some hr
    · exact same (.refl s) rfl rfl (by simp)
    · exact h.accept hacc hc
  | addVp b g =>
    obtain ⟨rfl, hr⟩ := hx
    rcases runtimeAddVp_eq_some hr with rfl | ⟨-, -, -, rfl⟩
    · exact same (.refl s) rfl rfl (by simp)
    · refine same ⟨rfl, rfl, rfl, rfl, rfl, rfl⟩ rfl rfl ?_
      split <;> simp [Op.ofLife]
  | stop b =>
    obtain ⟨rfl, hr⟩ := hx
    exact h.stop hst hc hr
  | run x =>
    obtain ⟨rfl, hr⟩ := hx
    simp only [gtRun] at hr
    repeat' split at hr
    all_goals cases hr
    all_goals exact same ⟨rfl, rfl, rfl, rfl, rfl, rfl⟩ rfl rfl (by simp [Op.ofLife])
  | unpark b t =>
    obtain ⟨-, -, -, rfl⟩ := hx
    exact same (.refl s) rfl rfl (by simp [Op.ofLife])
  | start x | wait x =>
    obtain ⟨-, rfl⟩ := hx
    exact same (.refl s) rfl rfl (by simp [Op.ofLife])
  | leave | op | vp => cases hx

theorem Tally.call (h : Tally s) (hp : Placed s loc) {x : Act} {r : State × List Op} (hx : Calls s a r x) :
    Tally r.1 := by
  cases x with
  | spawn b t p g w =>
    obtain ⟨rfl, hr⟩ := hx
    obtain ⟨hn, rfl | ⟨-, -, -, rfl⟩⟩ := gtSpawnEx_eq_some hr
    · exact h
    · refine h.accept ?_ hn
      rw [hp.accepted]
      simpa using (hp.of_state t).1 hn
  | addVp b g =>
    obtain ⟨rfl, hr⟩ := hx
    rcases runtimeAddVp_eq_some hr with rfl | ⟨-, -, -, rfl⟩
    · exact h
    · exact h.frame ⟨rfl, rfl, rfl, fun _ => Iff.rfl⟩
  | stop b =>
    obtain ⟨rfl, hr⟩ := hx
    rcases gtStop_eq_some hr with rfl | ⟨-, rfl⟩ | ⟨-, rfl⟩
    all_goals exact h.frame ⟨rfl, rfl, rfl, fun _ => Iff.rfl⟩
  | run x =>
    obtain ⟨rfl, hr⟩ := hx
    simp only [gtRun] at hr
    repeat' split at hr
    all_goals cases hr
    all_goals exact h.frame ⟨rfl, rfl, rfl, fun _ => Iff.rfl⟩
  | unpark b t =>
    obtain ⟨-, -, -, rfl⟩ := hx
    exact h
  | start x | wait x =>
    obtain ⟨-, rfl⟩ := hx
    exact h
  | leave | op | vp => cases hx

/-! ## Runs -/

/-- What is kept by every step. -/
theorem Life.step (h : Tally s ∧ LifeOk s) (hp : Placed s loc) (hv : VpsOk s) (hst : StartOk s) {x : Act}
    (he : step s x = some s') : Tally s' ∧ LifeOk s' := by
  obtain ⟨a, r, hc, hr, rfl⟩ | ⟨v, tr, t, rfl, ho, hpc, rfl⟩ | ⟨a, o, l, r, rfl, ho, hr, rfl⟩ |
    ⟨v, ws, r, rfl, ho, -, hr, rfl⟩ := step_cases he
  · exact ⟨(h.1.call hp hr).frame ⟨rfl, rfl, rfl, fun _ => Iff.rfl⟩, h.2.call hst hc hr⟩
  · refine ⟨h.1.frame ⟨rfl, rfl, rfl, fun _ => Iff.rfl⟩, h.2.frame ⟨rfl, rfl, rfl, rfl, rfl, rfl⟩ (fun w hw => ?_)
      fun _ _ _ => Iff.rfl⟩
    have := h.2.exited w
    simp only [setPc] at hw
    grind -linarith
  · have ht := hp.op_tally (by simp [ho]) hr
    exact ⟨h.1.frame ⟨ht.accepted, ht.live, ht.completions, ht.finished⟩, h.2.op hv hst ho hr⟩
  · rcases hp.vp_tally hr with ⟨t, hpc, hl, rfl⟩ | ⟨hf, ht⟩
    · have hlt : loc t = .held v := (hp.held v t).mp (by simp [hpc, VPc.held])
      have hok := hp.ok t
      rw [hlt] at hok
      have hd := h.1.done (v := v) (t := t) ((hp.accepted t).mpr (by simp [hlt])) (by
        rw [hok.1]
        split <;> simp) ws
      refine ⟨hd.2.frame ⟨rfl, rfl, rfl, fun _ => Iff.rfl⟩, h.2.done hd.1 (fun c n i b hx => ?_) (fun e => ?_) ho ws⟩
      · simpa [Op.holdsRt] using hv.not_holds hl hx
      · have := hst.created e v
        simp [hpc] at this
    · exact ⟨h.1.frame ⟨ht.accepted, ht.live, ht.completions, ht.finished⟩, h.2.vp_step ho hr hf⟩

theorem life_initial (groups : List Nat) : Tally (State.initial groups) ∧ LifeOk (State.initial groups) := by
  constructor
  · refine ⟨?_, ?_, ?_⟩ <;> simp [State.initial, unfinished]
  · refine ⟨?_, ?_, ?_, ?_, ?_, ?_, ?_, ?_, ?_, ?_, ?_⟩ <;> simp [State.initial]

theorem reach_life (h : machine.Reach s) : Tally s ∧ LifeOk s := by
  refine Machine.Reach.invariant (I := fun s => Tally s ∧ LifeOk s) ?_ ?_ h
  · rintro s ⟨groups, -, -, rfl⟩
    exact life_initial groups
  · rintro s s' x hr hi hs
    obtain ⟨loc, hp⟩ := reach_placed hr
    exact Life.step hi hp (reach_vpsOk hr).1 (reach_vpsOk hr).2 hs

theorem execOp_stopped {o : Op} {r : State × List Op} (hr : execOp s a o = some r) (hs : s.rtState = .stopped)
    (hn : ∀ n i b, o ≠ .startVp n i b) :
    r.1.rtState = .stopped ∧ r.1.started = s.started ∧ ∀ n i b, Op.startVp n i b ∉ r.2 := by
  cases o with
  | startVp n i b => exact absurd rfl (hn n i b)
  | addPublish | waitEnd | addCreate | unlockRt | wait | join | start =>
    simp only [execOp, gtStart, gtWait, hs] at hr
    repeat' split at hr
    all_goals simp_all
    all_goals subst hr
    all_goals simp [setPc, hs]
  | _ =>
    obtain ⟨h₁, -, h₂⟩ := execOp_sameLife hr rfl (by simp)
    exact ⟨h₁.rtState.trans hs, h₁.started, fun n i b hm => by simpa [Op.ofLife] using h₂ _ hm⟩

theorem Calls.stopped {x : Act} {r : State × List Op} (h : Calls s a r x) (hs : s.rtState = .stopped) :
    r.1.rtState = .stopped ∧ r.1.started = s.started := by
  cases x with
  | spawn b t p g w =>
    obtain ⟨rfl, hr⟩ := h
    obtain ⟨hn, rfl | ⟨-, -, hacc, rfl⟩⟩ := gtSpawnEx_eq_some hr
    · exact ⟨hs, rfl⟩
    · exact ⟨hs, rfl⟩
  | addVp b g =>
    obtain ⟨rfl, hr⟩ := h
    rcases runtimeAddVp_eq_some hr with rfl | ⟨-, -, -, rfl⟩
    · exact ⟨hs, rfl⟩
    · exact ⟨hs, rfl⟩
  | stop b =>
    obtain ⟨rfl, hr⟩ := h
    rcases gtStop_eq_some hr with rfl | ⟨hc, rfl⟩ | ⟨hc, rfl⟩
    · exact ⟨hs, rfl⟩
    · simp [hs] at hc
    · simp [hs] at hc
  | run x =>
    obtain ⟨rfl, hr⟩ := h
    simp only [gtRun] at hr
    repeat' split at hr
    all_goals cases hr
    all_goals exact ⟨hs, rfl⟩
  | unpark b t =>
    obtain ⟨-, -, -, rfl⟩ := h
    exact ⟨hs, rfl⟩
  | start x | wait x =>
    obtain ⟨-, rfl⟩ := h
    exact ⟨hs, rfl⟩
  | leave | op | vp => cases h

/-- A runtime that was stopped before its start is never started. -/
theorem Dead.step (h : Dead s) (hp : Placed s loc) {x : Act} (he : step s x = some s') : Dead s' := by
  obtain ⟨hnodup, hlive, hcompletions⟩ := h
  obtain ⟨a, r, hc, hr, rfl⟩ | ⟨v, tr, t, rfl, ho, hpc, rfl⟩ | ⟨a, o, l, r, rfl, ho, hr, rfl⟩ |
    ⟨v, ws, r, rfl, ho, -, hr, rfl⟩ := step_cases he
  · obtain ⟨-, hops, -, -, -, hst⟩ := hr.frame
    refine ⟨(hr.stopped hnodup).1, (hr.stopped hnodup).2.trans hlive, fun b n i c hx => ?_⟩
    rcases mem_setOps hx with ⟨rfl, hm⟩ | ⟨-, hx⟩
    · exact hst n i c hm
    · exact hcompletions b n i c (hops ▸ hx)
  · exact ⟨hnodup, hlive, hcompletions⟩
  · obtain ⟨e1, e2, e3⟩ := execOp_stopped hr hnodup fun n i b e => hcompletions a n i b (by simp [ho, e])
    refine ⟨e1, e2.trans hlive, fun b n i c hx => ?_⟩
    rcases mem_setOps_append (execOp_ops hr) ho hx with hx | hx
    · exact e3 n i c hx
    · exact hcompletions b n i c hx
  · obtain ⟨hs, -, -, -, -, hos⟩ := vpStep_sameVps hr
    have hst : r.1.rtState = .stopped ∧ r.1.started = s.started := by
      rcases hp.vp_tally hr with ⟨t, -, -, rfl⟩ | ⟨hf, -⟩
      · simp [rtTaskDone, setPc, hnodup]
      · obtain ⟨hs, -⟩ := vpStep_sameLife hr hf
        exact ⟨hs.rtState.trans hnodup, hs.started⟩
    refine ⟨hst.1, hst.2.trans hlive, fun b n i c hx => ?_⟩
    rcases mem_setOps hx with ⟨rfl, hm⟩ | ⟨-, hx⟩
    · simpa [Op.holdsRt] using hos _ hm
    · exact hcompletions b n i c (hs.ops ▸ hx)

theorem Dead.steps (h : Dead s) (hr : machine.Reach s) (hs : machine.Steps s s') : Dead s' := by
  refine (hs.stable (I := Dead) (fun s s' x hr hd he => ?_) hr h).2
  obtain ⟨loc, hp⟩ := reach_placed hr
  exact hd.step hp he

theorem execOp_shutdown {o : Op} {r : State × List Op} (hr : execOp s a o = some r) (hs : s.shutdown = true) :
    r.1.shutdown = true := by
  cases o <;> simp only [execOp, makeReady, unparkSection, idleWake, idleWakeSection, gtStart, gtWait] at hr
  all_goals repeat' split at hr
  all_goals cases hr
  all_goals first | exact hs | rfl

/-- After the shutdown no task is accepted. -/
theorem LifeOk.closed_step (h : LifeOk s) (hp : Placed s loc) (hs : s.shutdown = true) {x : Act}
    (he : step s x = some s') : s'.shutdown = true ∧ s'.accepted = s.accepted := by
  have hacc := h.closed hs
  obtain ⟨a, r, hc, hr, rfl⟩ | ⟨v, tr, t, rfl, ho, hpc, rfl⟩ | ⟨a, o, l, r, rfl, ho, hr, rfl⟩ |
    ⟨v, ws, r, rfl, ho, -, hr, rfl⟩ := step_cases he
  · cases x with
    | spawn b t p g w =>
      obtain ⟨rfl, hr⟩ := hr
      obtain ⟨hn, rfl | ⟨-, -, hacc', rfl⟩⟩ := gtSpawnEx_eq_some hr
      · exact ⟨hs, rfl⟩
      · simp [hacc] at hacc'
    | addVp b g =>
      obtain ⟨rfl, hr⟩ := hr
      rcases runtimeAddVp_eq_some hr with rfl | ⟨-, -, -, rfl⟩
      · exact ⟨hs, rfl⟩
      · exact ⟨hs, rfl⟩
    | stop b =>
      obtain ⟨rfl, hr⟩ := hr
      rcases gtStop_eq_some hr with rfl | ⟨-, rfl⟩ | ⟨-, rfl⟩
      · exact ⟨hs, rfl⟩
      · exact ⟨rfl, rfl⟩
      · exact ⟨by simp [setOps, hs], rfl⟩
    | run x =>
      obtain ⟨rfl, hr⟩ := hr
      simp only [gtRun] at hr
      repeat' split at hr
      all_goals cases hr
      all_goals exact ⟨hs, rfl⟩
    | unpark b t =>
      obtain ⟨-, -, -, rfl⟩ := hr
      exact ⟨hs, rfl⟩
    | start x | wait x =>
      obtain ⟨-, rfl⟩ := hr
      exact ⟨hs, rfl⟩
    | leave | op | vp => cases hr
  · exact ⟨hs, rfl⟩
  · exact ⟨execOp_shutdown hr hs, (hp.op_tally (by simp [ho]) hr).accepted⟩
  · rcases hp.vp_tally hr with ⟨t, -, -, rfl⟩ | ⟨hf, ht⟩
    · exact ⟨by simp [setOps, rtTaskDone, setPc, hs], rfl⟩
    · exact ⟨(vpStep_sameLife hr hf).1.shutdown.trans hs, ht.accepted⟩

/-- What a state of a run whose `dlsm_gt_start` succeeds, at any time, satisfies. -/
structure Drains (s : State) : Prop where
  live : s.accepted.Nodup ∧ s.live = (unfinished s).length
  shutdown : s.shutdown = true → s.live = 0
  closed : s.shutdown = true → ∀ s', machine.Steps s s' → s'.accepted = s.accepted
  joined : s.joined = true → ∀ t ∈ s.accepted, s.state t = .finished ∧ s.completions t = 1

theorem Tally.all_finished (h : Tally s) (hl : s.live = 0) (ht : t ∈ s.accepted) :
    s.state t = .finished ∧ s.completions t = 1 := by
  have hnil : unfinished s = [] := List.length_eq_zero_iff.mp (h.live.symm.trans hl)
  have hf : s.state t = .finished := by
    by_contra hf
    have : t ∈ unfinished s := by simp [unfinished, ht, hf]
    simp [hnil] at this
  exact ⟨hf, by rw [h.completions, if_pos hf]⟩

/-- A run in which `dlsm_gt_start` succeeds keeps count of its tasks, shuts down
when none is left, and has run each of them once when `dlsm_gt_wait` returns. -/
theorem drain_on_stop (hr : machine.Reach s) (hs : machine.Steps s s') (hst : s'.started = true) : Drains s := by
  obtain ⟨ht, hl⟩ := reach_life hr
  have hdead : ¬ Dead s := fun hd => by simp [(hd.steps hr hs).2.1] at hst
  have hzero : s.shutdown = true → s.live = 0 := fun e => (hl.shutdown e).resolve_right hdead
  refine ⟨⟨ht.nodup, ht.live⟩, hzero, fun e s'' hs'' => ?_, fun hj t hm => ht.all_finished (hzero (hl.joined hj).1) hm⟩
  refine ((hs''.stable (I := fun u => u.shutdown = true ∧ u.accepted = s.accepted) (fun u u' x hu hi he => ?_) hr
    ⟨e, rfl⟩).2).2
  obtain ⟨loc, hp⟩ := reach_placed hu
  obtain ⟨h₁, h₂⟩ := (reach_life hu).2.closed_step hp hi.1 he
  exact ⟨h₁, h₂.trans hi.2⟩

/-- `dlsm_gt_run` of one task on one VP, to its return. -/
def drainRun : List Act :=
  List.flatten [[.spawn (.ext 0) 1 0 (some 0) none, .op (.ext 0), .op (.ext 0), .run 1],
    List.replicate 4 (.op (.ext 1)), List.replicate 6 (.vp 0 []), [.leave 0 .finish, .vp 0 []],
    List.replicate 3 (.op (.vp 0)), List.replicate 67 (.vp 0 []), List.replicate 3 (.op (.ext 1))]

theorem drain_on_stop_joined :
    ∃ s, machine.Reach s ∧ s.started = true ∧ s.joined = true ∧ s.accepted = [1] ∧ Drains s := by
  obtain ⟨s, hs, hp⟩ := Machine.exists_reach_of_run (M := machine) (s := State.initial [0]) (l := drainRun)
    (p := fun s => s.started && s.joined && s.accepted == [1]) ⟨[0], by decide, by decide, rfl⟩ (by decide +kernel)
  simp only [Bool.and_eq_true, beq_iff_eq] at hp
  exact ⟨s, hs, hp.1.1, hp.1.2, hp.2, drain_on_stop hs .refl hp.1.1⟩

end Dlsmc.Runtime
