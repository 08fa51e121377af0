import Dlsmc.Greenthread.Runtime

/-!
# The VPs of a runtime and its lock

A thread that holds `rt->lock` between two steps has an operation left that
releases it (`Op.holdsRt`), so the lock excludes others as it should
(`VpsOk.holds`). From this: a VP thread that looks at `rt->shutdown` is one of
the `rt->nvp` published (`VpsOk.idling`), and each group with VPs has one from
the beginning (`VpsOk.groups`).
-/

namespace Dlsmc.Runtime

/-- An operation before whose end `rt->lock` is released. -/
def Op.holdsRt : Op → Bool
  | .startVp _ _ _ | .addCreate _ _ | .addPublish _ _ | .unlockRt => true
  | _ => false

/-- The VP has passed its first look at `rt->shutdown` since it last ran a task. -/
def VPc.idling : VPc → Bool
  | .spin | .spinning | .tryNext true | .scan true _ _ _ | .check true | .sleepLock | .sleepLoad | .sleepStore
  | .sleepLoop | .blocked | .exitMark => true
  | _ => false

structure VpsOk (s : State) : Prop where
  holds : ∀ a, ∀ o ∈ s.ops a, o.holdsRt = true → s.rtLock = some a
  once : ∀ a, (s.ops a).countP Op.holdsRt ≤ 1
  created : ∀ v, s.pc v ≠ .off → v < s.nvp ∨ ∃ a g, Op.addPublish v g ∈ s.ops a
  adding : ∀ a v g, Op.addCreate v g ∈ s.ops a ∨ Op.addPublish v g ∈ s.ops a → v = s.nvp ∧ s.groupNvp g ≠ 0
  starting : ∀ a n i b, Op.startVp n i b ∈ s.ops a → n = s.nvp
  idling : ∀ v, (s.pc v).idling = true → v < s.nvp
  ngroups : 0 < s.ngroups ∧ s.ngroups ≤ s.nvp
  groups : ∀ g, s.groupNvp g ≠ 0 → ∃ v < s.ngroups, s.group v = g

variable {s s' : State} {a : Actor} {v : Nat}

attribute [local grind =] Function.update_apply

/-- With the lock free, no call is in the middle of a section. -/
theorem VpsOk.not_holds (h : VpsOk s) (hl : s.rtLock = none) {o : Op} (ho : o ∈ s.ops a) : o.holdsRt = false := by
  cases hh : o.holdsRt with
  | false => rfl
  | true => simpa [hl] using h.holds a o ho hh

theorem VpsOk.lt_nvp (h : VpsOk s) (hl : s.rtLock = none) (hp : s.pc v ≠ .off) : v < s.nvp := by
  rcases h.created v hp with hv | ⟨a, g, hm⟩
  · exact hv
  · simpa [Op.holdsRt] using h.not_holds hl hm

/-- A step that leaves the lock and the VPs as they are. -/
theorem VpsOk.frame (h : VpsOk s)
    (hf : s'.rtLock = s.rtLock ∧ s'.nvp = s.nvp ∧ s'.ngroups = s.ngroups ∧ s'.groupNvp = s.groupNvp ∧
      s'.group = s.group)
    (hp : ∀ v, s'.pc v ≠ .off → s.pc v ≠ .off) (hi : ∀ v, (s'.pc v).idling = true → v < s.nvp)
    (ho : ∀ b, ∀ o ∈ s'.ops b, o.holdsRt = true → o ∈ s.ops b)
    (hc : ∀ b, (s'.ops b).countP Op.holdsRt ≤ (s.ops b).countP Op.holdsRt)
    (hk : ∀ b v g, Op.addPublish v g ∈ s.ops b → Op.addPublish v g ∈ s'.ops b) : VpsOk s' := by
  obtain ⟨hholds, honce, hcreated, hadding, hstarting, hidling, hngroups, hgroups⟩ := h
  obtain ⟨e1, e2, e3, e4, e5⟩ := hf
  refine ⟨fun b o hm hh => ?_, fun b => Nat.le_trans (hc b) (honce b), fun v hv => ?_, fun b v g hm => ?_,
    fun b n i r hm => ?_, fun v hv => ?_, ?_, ?_⟩
  · rw [e1]
    exact hholds b o (ho b o hm hh) hh
  · rw [e2]
    rcases hcreated v (hp v hv) with hv | ⟨b, g, hm⟩
    · exact .inl hv
    · exact .inr ⟨b, g, hk b v g hm⟩
  · rw [e2, e4]
    exact hadding b v g (hm.imp (ho b _ · rfl) (ho b _ · rfl))
  · rw [e2]
    exact hstarting b n i r (ho b _ hm rfl)
  · rw [e2]
    exact hi v hv
  · rw [e2, e3]
    exact hngroups
  · rw [e3, e4, e5]
    exact hgroups

/-- What only the operations that hold `rt->lock`, and those that take it, change. -/
structure SameVps (s s' : State) : Prop where
  rtLock : s'.rtLock = s.rtLock
  nvp : s'.nvp = s.nvp
  ngroups : s'.ngroups = s.ngroups
  groupNvp : s'.groupNvp = s.groupNvp
  group : s'.group = s.group
  ops : s'.ops = s.ops

theorem SameVps.refl (s : State) : SameVps s s := ⟨rfl, rfl, rfl, rfl, rfl, rfl⟩

@[simp] theorem Wake.op_holdsRt (w : Wake) (tag : Tag) : (w.op tag).holdsRt = false := by
  cases w <;> rfl

/-- An operation that neither holds nor takes `rt->lock`. -/
theorem execOp_sameVps {o : Op} {r : State × List Op} (h : execOp s a o = some r) (hh : o.holdsRt = false)
    (hs : ∀ b, o ≠ .start b) : SameVps s r.1 ∧ r.1.pc = s.pc ∧ ∀ o' ∈ r.2, o'.holdsRt = false := by
  cases o with
  | start b => exact absurd rfl (hs b)
  | startVp | addCreate | addPublish | unlockRt => cases hh
  | ready t q w =>
    simp only [execOp, makeReady] at h
    split at h
    · cases h
    · cases h
      refine ⟨⟨rfl, rfl, rfl, rfl, rfl, rfl⟩, rfl, ?_⟩
      simp only [List.mem_cons, List.not_mem_nil, or_false, forall_eq_or_imp, forall_eq, Wake.op_holdsRt, and_true]
      rfl
  | _ =>
    simp only [execOp, idleWake, idleWakeSection, unparkSection, makeReady, groupScan, gtWait] at h
    repeat' split at h
    all_goals cases h
    all_goals refine ⟨⟨rfl, rfl, rfl, rfl, rfl, rfl⟩, rfl, ?_⟩
    all_goals
      simp only [List.mem_cons, List.not_mem_nil, or_false, forall_eq_or_imp, forall_eq, false_implies, implies_true,
        Wake.op_holdsRt]
    all_goals trivial

/-- A VP has switched back from a task. -/
theorem vpStep_switch {ws : List Nat} {t : Nat} {tr : Transition} {r : State × List Op} (hpc : s.pc v = .switch t tr)
    (h : vpStep s v ws = some r) :
    s.lock t = false ∧ (tr = .yield ∧ r = rtEnqueue s v t ∨ tr = .park ∧ r = rtPark s v t ∨
      tr = .finish ∧ s.rtLock = none ∧ r = rtTaskDone s v t ws) := by
  cases tr <;> simp only [vpStep, hpc, Option.ite_none_left_eq_some, Option.some.injEq] at h <;> simp_all

theorem mem_rtTaskDone_ops {ws : List Nat} {t : Nat} {o : Op} (h : o ∈ (rtTaskDone s v t ws).2) :
    (∃ w ∈ ws, o = .unpark w) ∨ o = .wakeAll := by
  simp only [rtTaskDone, List.mem_append, List.mem_map] at h
  rcases h with ⟨w, hw, rfl⟩ | h
  · exact .inl ⟨w, hw, rfl⟩
  · split at h
    · exact .inr (List.mem_singleton.mp h)
    · cases h

/-- A step of the scheduler loop of `v`. -/
theorem vpStep_sameVps {ws : List Nat} {r : State × List Op} (h : vpStep s v ws = some r) :
    SameVps s r.1 ∧ (∀ w, w ≠ v → r.1.pc w = s.pc w) ∧ s.pc v ≠ .off ∧ r.1.pc v ≠ .off ∧
      ((r.1.pc v).idling = true → (s.pc v).idling = true ∨ s.rtLock = none) ∧ ∀ o ∈ r.2, o.holdsRt = false := by
  cases hpc : s.pc v with
  | off | run | exited => simp [vpStep, hpc] at h
  | scan second avoid pos pr =>
    simp only [vpStep, hpc, scanStep, Option.some.injEq] at h
    subst h
    dsimp only
    split
    · refine ⟨⟨rfl, rfl, rfl, rfl, rfl, rfl⟩, fun w hw => Function.update_of_ne hw _ _, by simp, ?_, ?_, by simp⟩
      · simp [setPc]
      · cases second <;> simp [setPc, VPc.idling]
    · split
      · refine ⟨⟨rfl, rfl, rfl, rfl, rfl, rfl⟩, fun w hw => Function.update_of_ne hw _ _, by simp, ?_, ?_, by simp⟩ <;>
          simp [take, VPc.idling]
      · refine ⟨⟨rfl, rfl, rfl, rfl, rfl, rfl⟩, fun w hw => Function.update_of_ne hw _ _, by simp, ?_, ?_, by simp⟩
        · simp [setPc]
        · cases second <;> simp [setPc, VPc.idling]
  | switch t tr =>
    obtain ⟨-, ⟨-, rfl⟩ | ⟨-, rfl⟩ | ⟨-, -, rfl⟩⟩ := vpStep_switch hpc h
    · refine ⟨⟨rfl, rfl, rfl, rfl, rfl, rfl⟩, fun w hw => Function.update_of_ne hw _ _, by simp, ?_, ?_, ?_⟩ <;>
        simp [rtEnqueue, setPc, VPc.idling, Op.holdsRt]
    · unfold rtPark
      split <;>
        refine ⟨⟨rfl, rfl, rfl, rfl, rfl, rfl⟩, fun w hw => Function.update_of_ne hw _ _, by simp, ?_, ?_, ?_⟩ <;>
        simp [setPc, VPc.idling, Op.holdsRt]
    · refine ⟨⟨rfl, rfl, rfl, rfl, rfl, rfl⟩, fun w hw => Function.update_of_ne hw _ _, by simp, ?_, ?_, ?_⟩
      · simp [rtTaskDone, setPc]
      · simp [rtTaskDone, setPc, VPc.idling]
      · intro o ho
        rcases mem_rtTaskDone_ops ho with ⟨w, -, rfl⟩ | rfl <;> rfl
  | tryNext second | check second =>
    simp only [vpStep, hpc] at h
    repeat' split at h
    all_goals cases h
    all_goals refine ⟨⟨rfl, rfl, rfl, rfl, rfl, rfl⟩, fun w hw => Function.update_of_ne hw _ _, by simp, ?_, ?_,
    by simp⟩
    all_goals cases second <;> simp_all [setPc, VPc.idling]
  | _ =>
    simp only [vpStep, hpc] at h
    repeat' split at h
    all_goals cases h
    all_goals
      refine ⟨⟨rfl, rfl, rfl, rfl, rfl, rfl⟩, fun w hw => Function.update_of_ne hw _ _, by simp, ?_, ?_, by simp⟩
    all_goals simp [setPc, VPc.idling]

theorem SameVps.frame (h : VpsOk s) (hs : SameVps s s') {l l' : List Op} {o : List Op} (ho : s.ops a = o ++ l)
    (ho' : ∀ x ∈ o, x.holdsRt = false) (hl : ∀ x ∈ l', x.holdsRt = false) (hp : ∀ v, s'.pc v ≠ .off → s.pc v ≠ .off)
    (hi : ∀ v, (s'.pc v).idling = true → v < s.nvp) : VpsOk (setOps s' a (l' ++ l)) := by
  obtain ⟨e1, e2, e3, e4, e5, e6⟩ := hs
  have hc : l'.countP Op.holdsRt = 0 := List.countP_eq_zero.mpr (by simpa using hl)
  have hc' : o.countP Op.holdsRt = 0 := List.countP_eq_zero.mpr (by simpa using ho')
  refine h.frame ⟨e1, e2, e3, e4, e5⟩ hp hi (fun b x hx hh => ?_) (fun b => ?_) (fun b w g hm => ?_) <;>
    by_cases e : b = a
  · subst e
    simp only [setOps, Function.update_self, List.mem_append] at hx
    rw [ho]
    rcases hx with hx | hx
    · simp [hl x hx] at hh
    · exact List.mem_append_right _ hx
  · simpa [setOps, Function.update_of_ne e, e6] using hx
  · subst e
    simp only [setOps, Function.update_self, ho, List.countP_append, hc, hc']
    omega
  · simp [setOps, Function.update_of_ne e, e6]
  · subst e
    simp only [setOps, Function.update_self, List.mem_append]
    rw [ho, List.mem_append] at hm
    rcases hm with hm | hm
    · simpa [Op.holdsRt] using ho' _ hm
    · exact .inr hm
  · simpa [setOps, Function.update_of_ne e, e6] using hm

/-- A call that takes the lock, which was free. -/
theorem VpsOk.acquire (h : VpsOk s) (hl : s.rtLock = none) {o : Op} {l : List Op}
    (hf : s'.rtLock = some a ∧ s'.nvp = s.nvp ∧ s'.ngroups = s.ngroups ∧ s'.groupNvp = s.groupNvp ∧ s'.ops = s.ops ∧
      s'.pc = s.pc)
    (hg : ∀ v < s.nvp, s'.group v = s.group v) (hm : ∀ x ∈ l, x ∈ s.ops a)
    (ho : (∀ v g, o = .addCreate v g ∨ o = .addPublish v g → v = s.nvp ∧ s.groupNvp g ≠ 0) ∧
      ∀ n i b, o = .startVp n i b → n = s.nvp) :
    VpsOk (setOps s' a (o :: l)) := by
  have hn : ∀ b {x}, x ∈ s.ops b → x.holdsRt = false := fun b _ hx => h.not_holds hl hx
  have hv : ∀ v, s.pc v ≠ .off → v < s.nvp := fun v hp => h.lt_nvp hl hp
  obtain ⟨hholds, honce, hcreated, hadding, hstarting, hidling, hngroups, hgroups⟩ := h
  obtain ⟨e1, e2, e3, e4, e5, e6⟩ := hf
  have hc : l.countP Op.holdsRt = 0 := List.countP_eq_zero.mpr fun x hx => by simp [hn a (hm x hx)]
  refine ⟨fun b x hx hh => ?_, fun b => ?_, fun v hp => ?_, fun b v g hx => ?_, fun b n i r hx => ?_,
    fun v hp => ?_, ?_, fun g hgn => ?_⟩
  · by_cases e : b = a
    · rw [e]
      exact e1
    · simp only [setOps, Function.update_of_ne e, e5] at hx
      simp [hn b hx] at hh
  · by_cases e : b = a
    · subst e
      simp only [setOps, Function.update_self, List.countP_cons, hc]
      split <;> omega
    · simpa only [setOps, Function.update_of_ne e, e5] using honce b
  · change s'.pc v ≠ .off at hp
    rw [e6] at hp
    exact .inl (Nat.lt_of_lt_of_eq (hv v hp) e2.symm)
  · change v = s'.nvp ∧ s'.groupNvp g ≠ 0
    rw [e2, e4]
    by_cases e : b = a
    · subst e
      simp only [setOps, Function.update_self, List.mem_cons] at hx
      rcases hx with (hx | hx) | (hx | hx)
      · exact ho.1 v g (.inl hx.symm)
      · exact absurd (hn b (hm _ hx)) (by simp [Op.holdsRt])
      · exact ho.1 v g (.inr hx.symm)
      · exact absurd (hn b (hm _ hx)) (by simp [Op.holdsRt])
    · simp only [setOps, Function.update_of_ne e, e5] at hx
      exact hadding b v g hx
  · change n = s'.nvp
    rw [e2]
    by_cases e : b = a
    · subst e
      simp only [setOps, Function.update_self, List.mem_cons] at hx
      rcases hx with hx | hx
      · exact ho.2 n i r hx.symm
      · exact absurd (hn b (hm _ hx)) (by simp [Op.holdsRt])
    · simp only [setOps, Function.update_of_ne e, e5] at hx
      exact hstarting b n i r hx
  · change (s'.pc v).idling = true at hp
    rw [e6] at hp
    exact Nat.lt_of_lt_of_eq (hidling v hp) e2.symm
  · change 0 < s'.ngroups ∧ s'.ngroups ≤ s'.nvp
    rw [e2, e3]
    exact hngroups
  · change s'.groupNvp g ≠ 0 at hgn
    rw [e4] at hgn
    obtain ⟨v, hv', hvg⟩ := hgroups g hgn
    exact ⟨v, Nat.lt_of_lt_of_eq hv' e3.symm, (hg v (by omega)).trans hvg⟩

/-- While `a` is at an operation that holds the lock, no other one does. -/
theorem VpsOk.only (h : VpsOk s) {o : Op} {l : List Op} (ho : s.ops a = o :: l) (hh : o.holdsRt = true) :
    (∀ x ∈ l, x.holdsRt = false) ∧ ∀ b ≠ a, ∀ x ∈ s.ops b, x.holdsRt = false := by
  have hl := h.holds a o (by simp [ho]) hh
  constructor
  · have hc := h.once a
    rw [ho, List.countP_cons_of_pos hh] at hc
    have : l.countP Op.holdsRt = 0 := by omega
    simpa using List.countP_eq_zero.mp this
  · intro b hb x hx
    cases hxh : x.holdsRt with
    | false => rfl
    | true =>
      have := h.holds b x hx hxh
      rw [hl] at this
      exact absurd (Option.some.inj this).symm hb

/-- Then every VP but the one being added is published. -/
theorem VpsOk.lt_nvp_of_head (h : VpsOk s) {o : Op} {l : List Op} (ho : s.ops a = o :: l) (hh : o.holdsRt = true)
    (hv : s.pc v ≠ .off) : v < s.nvp ∨ ∃ g, o = .addPublish v g := by
  obtain ⟨hll, hb⟩ := h.only ho hh
  rcases h.created v hv with hv | ⟨c, g, hx⟩
  · exact .inl hv
  · by_cases e : c = a
    · subst e
      rw [ho, List.mem_cons] at hx
      rcases hx with hx | hx
      · exact .inr ⟨g, hx.symm⟩
      · exact absurd (hll _ hx) (by simp [Op.holdsRt])
    · exact absurd (hb c e _ hx) (by simp [Op.holdsRt])

/-- A step of the thread that holds the lock. -/
theorem VpsOk.held (h : VpsOk s) {o : Op} {l l' : List Op} (ho : s.ops a = o :: l) (hh : o.holdsRt = true)
    (hops : s'.ops = s.ops) (hn : 0 < s'.ngroups ∧ s'.ngroups ≤ s'.nvp)
    (hg : ∀ g, s'.groupNvp g ≠ 0 → ∃ v < s'.ngroups, s'.group v = g)
    (hl : l'.countP Op.holdsRt ≤ 1 ∧ ∀ x ∈ l', x.holdsRt = true → s'.rtLock = some a)
    (hp : ∀ v, s'.pc v ≠ .off → v < s'.nvp ∨ ∃ g, Op.addPublish v g ∈ l')
    (ha : ∀ v g, Op.addCreate v g ∈ l' ∨ Op.addPublish v g ∈ l' → v = s'.nvp ∧ s'.groupNvp g ≠ 0)
    (hs : ∀ n i b, Op.startVp n i b ∈ l' → n = s'.nvp)
    (hi : ∀ v, (s'.pc v).idling = true → v < s'.nvp) : VpsOk (setOps s' a (l' ++ l)) := by
  obtain ⟨hll, hb⟩ := h.only ho hh
  have hc : l.countP Op.holdsRt = 0 := List.countP_eq_zero.mpr (by simpa using hll)
  -- the only operations that hold the lock are those of `l'`
  have key : ∀ b, ∀ x ∈ (setOps s' a (l' ++ l)).ops b, x.holdsRt = true → b = a ∧ x ∈ l' := by
    intro b x hx hxh
    by_cases e : b = a
    · subst e
      simp only [setOps, Function.update_self, List.mem_append] at hx
      rcases hx with hx | hx
      · exact ⟨rfl, hx⟩
      · simp [hll x hx] at hxh
    · simp only [setOps, Function.update_of_ne e, hops] at hx
      simp [hb b e x hx] at hxh
  refine ⟨fun b x hx hxh => ?_, fun b => ?_, fun v hv => ?_, fun b v g hx => ?_, fun b n i r hx => ?_, hi, hn, hg⟩
  · obtain ⟨rfl, hx'⟩ := key b x hx hxh
    exact hl.2 x hx' hxh
  · by_cases e : b = a
    · subst e
      simp only [setOps, Function.update_self, List.countP_append, hc]
      exact hl.1
    · simpa only [setOps, Function.update_of_ne e, hops] using h.once b
  · rcases hp v hv with hv | ⟨g, hx⟩
    · exact .inl hv
    · exact .inr ⟨a, g, by simp [setOps, hx]⟩
  · rcases hx with hx | hx
    · exact ha v g (.inl (key b _ hx rfl).2)
    · exact ha v g (.inr (key b _ hx rfl).2)
  · exact hs n i r (key b _ hx rfl).2

theorem VpsOk.op (h : VpsOk s) {o : Op} {l : List Op} {r : State × List Op} (ho : s.ops a = o :: l)
    (he : execOp s a o = some r) : VpsOk (setOps r.1 a (r.2 ++ l)) := by
  have hm : o ∈ s.ops a := by simp [ho]
  have hgr := h.groups
  have hng := h.ngroups
  cases o with
  | startVp n i b =>
    have hl := h.holds a _ hm rfl
    obtain rfl := h.starting a n i b hm
    have hcr : ∀ v, s.pc v ≠ .off → v < s.nvp := fun v hv => by simpa using h.lt_nvp_of_head ho rfl hv
    simp only [execOp] at he
    split at he
    case _ hlt =>
      cases he
      refine h.held ho rfl rfl hng hgr ⟨by simp [Op.holdsRt], fun _ _ _ => hl⟩ (fun v hv => .inl ?_) (by simp) ?_ ?_
      · simp only [setPc] at hv ⊢
        grind -linarith
      · grind -linarith [setPc]
      · have := h.idling
        simp only [setPc]
        grind -linarith [VPc.idling]
    case _ =>
      cases he
      refine h.held ho rfl rfl hng hgr ⟨?_, ?_⟩ (fun v hv => .inl (hcr v hv)) ?_ ?_ h.idling <;>
        cases b <;> simp [Op.holdsRt]
  | addCreate v g =>
    have hl := h.holds a _ hm rfl
    obtain ⟨rfl, hgn⟩ := h.adding a v g (.inl hm)
    have hcr : ∀ v, s.pc v ≠ .off → v < s.nvp := fun v hv => by simpa using h.lt_nvp_of_head ho rfl hv
    cases he
    refine h.held ho rfl rfl hng hgr ⟨by simp [Op.holdsRt], fun _ _ _ => hl⟩ (fun v hv => ?_) ?_ (by simp) ?_
    · simp only [setPc, List.mem_singleton, Op.addPublish.injEq] at hv ⊢
      grind -linarith
    · simp [setPc, hgn]
    · have := h.idling
      simp only [setPc]
      grind -linarith [VPc.idling]
  | addPublish v g =>
    have hl := h.holds a _ hm rfl
    obtain ⟨rfl, hgn⟩ := h.adding a v g (.inr hm)
    have hcr : ∀ v, s.pc v ≠ .off → v < s.nvp + 1 := by
      intro v hv
      have := h.lt_nvp_of_head ho rfl hv
      grind -linarith
    have hid := h.idling
    have hgr' : ∀ g', Function.update s.groupNvp g (s.groupNvp g + 1) g' ≠ 0 → ∃ v < s.ngroups, s.group v = g' := by
      intro g' hg'
      by_cases e : g' = g
      · exact hgr g' (e ▸ hgn)
      · rw [Function.update_of_ne e] at hg'
        exact hgr g' hg'
    simp only [execOp] at he
    split at he
    · cases he
      exact h.held ho rfl rfl ⟨hng.1, Nat.le_succ_of_le hng.2⟩ hgr' ⟨by simp [Op.holdsRt], fun _ _ _ => hl⟩
        (fun v hv => .inl (hcr v hv)) (by simp) (by simp) fun v hv => Nat.lt_succ_of_lt (hid v hv)
    · cases he
      exact h.held ho rfl rfl ⟨hng.1, Nat.le_succ_of_le hng.2⟩ hgr' ⟨by simp [Op.holdsRt], fun _ _ _ => hl⟩
        (fun v hv => .inl (hcr v hv)) (by simp) (by simp) fun v hv => Nat.lt_succ_of_lt (hid v hv)
  | unlockRt =>
    cases he
    exact h.held ho rfl rfl hng hgr (by simp) (fun v hv => .inl (by simpa using h.lt_nvp_of_head ho rfl hv)) (by simp)
      (by simp) h.idling
  | start b =>
    simp only [execOp, gtStart] at he
    split at he
    · cases he
    case _ hl =>
      have hl : s.rtLock = none := by simpa using hl
      split at he
      · cases he
        exact (SameVps.refl s).frame h (o := [_]) ho (by simp [Op.holdsRt]) (by simp) (by simp) h.idling
      · split at he
        · cases he
          refine SameVps.frame h ?_ (o := [_]) ho (by simp [Op.holdsRt]) ?_ (by simp) h.idling
          · exact ⟨rfl, rfl, rfl, rfl, rfl, rfl⟩
          · cases b <;> simp [Op.holdsRt]
        · cases he
          exact h.acquire hl ⟨rfl, rfl, rfl, rfl, rfl, rfl⟩ (fun _ _ => rfl)
            (fun x hx => ho ▸ List.mem_cons_of_mem _ hx) (by simp)
  | _ =>
    obtain ⟨hs, hp, hos⟩ := execOp_sameVps he rfl (by simp)
    exact hs.frame h (o := [_]) ho (by simp [Op.holdsRt]) hos (by simp [hp]) (fun v hv => h.idling v (hp ▸ hv))

/-- A call begins. -/
theorem canCall_ops (h : canCall s a = true) : s.ops a = [] := by
  simp only [canCall, Bool.and_eq_true, beq_iff_eq] at h
  exact h.1

theorem call_eq_some {f : Option (State × List Op)} (h : call s a f = some s') :
    canCall s a = true ∧ ∃ r, f = some r ∧ s' = setOps r.1 a r.2 := by
  simp only [call, Option.ite_none_right_eq_some] at h
  obtain ⟨hc, h⟩ := h
  obtain ⟨r, hf, rfl⟩ := Option.map_eq_some_iff.mp h
  exact ⟨hc, r, hf, rfl⟩

/-- A call that does not take the lock. -/
theorem VpsOk.call (h : VpsOk s) (hc : canCall s a = true) {r : State × List Op} (hs : SameVps s r.1)
    (hp : r.1.pc = s.pc) (ho : ∀ o ∈ r.2, o.holdsRt = false) : VpsOk (setOps r.1 a r.2) := by
  have := hs.frame (l := []) (o := []) h (canCall_ops hc) (by simp) ho (by simp [hp]) (fun v hv => h.idling v (hp ▸ hv))
  simpa using this

/-! ## The cases of a step -/

/-- The call `x` of `a`, up to its first operation. -/
def Calls (s : State) (a : Actor) (r : State × List Op) : Act → Prop
  | .spawn b t p g w => b = a ∧ gtSpawnEx s a t p g w = some r
  | .unpark b t => b = a ∧ s.state t ≠ .none ∧ s.state t ≠ .new ∧ r = (s, [.unpark t])
  | .stop b => b = a ∧ gtStop s = some r
  | .addVp b g => b = a ∧ runtimeAddVp s a g = some r
  | .start x => .ext x = a ∧ r = (s, [.start false])
  | .run x => .ext x = a ∧ gtRun s = some r
  | .wait x => .ext x = a ∧ r = (s, [.wait])
  | _ => False

theorem step_cases {x : Act} (h : step s x = some s') :
    (∃ a r, canCall s a = true ∧ Calls s a r x ∧ s' = setOps r.1 a r.2) ∨
    (∃ v tr t, x = .leave v tr ∧ s.ops (.vp v) = [] ∧ s.pc v = .run t ∧ s' = setPc s v (.switch t tr)) ∨
    (∃ a o l r, x = .op a ∧ s.ops a = o :: l ∧ execOp s a o = some r ∧ s' = setOps r.1 a (r.2 ++ l)) ∨
    ∃ v ws r, x = .vp v ws ∧ s.ops (.vp v) = [] ∧ (∀ w ∈ ws, s.state w ≠ .none ∧ s.state w ≠ .new) ∧
      vpStep s v ws = some r ∧ s' = setOps r.1 (.vp v) r.2 := by
  cases x with
  | leave v tr =>
    simp only [step] at h
    split at h
    case _ t ho hp =>
      cases h
      exact .inr (.inl ⟨v, tr, t, rfl, ho, hp, rfl⟩)
    case _ => cases h
  | op a =>
    simp only [step] at h
    split at h
    · cases h
    case _ o l ho =>
      obtain ⟨r, hr, rfl⟩ := Option.map_eq_some_iff.mp h
      exact .inr (.inr (.inl ⟨a, o, l, r, rfl, ho, hr, rfl⟩))
  | vp v ws =>
    simp only [step, Option.ite_none_right_eq_some] at h
    obtain ⟨⟨ho, hw⟩, h⟩ := h
    obtain ⟨r, hr, rfl⟩ := Option.map_eq_some_iff.mp h
    exact .inr (.inr (.inr ⟨v, ws, r, rfl, ho, hw, hr, rfl⟩))
  | unpark a t =>
    simp only [step, Option.ite_none_left_eq_some, not_or] at h
    obtain ⟨hc, r, hr, rfl⟩ := call_eq_some h.2
    cases hr
    exact .inl ⟨a, _, hc, ⟨rfl, h.1.1, h.1.2, rfl⟩, rfl⟩
  | start x | wait x =>
    obtain ⟨hc, r, hr, rfl⟩ := call_eq_some h
    cases hr
    exact .inl ⟨_, _, hc, ⟨rfl, rfl⟩, rfl⟩
  | spawn a t p g w | stop a | addVp a g | run x =>
    obtain ⟨hc, r, hr, rfl⟩ := call_eq_some h
    exact .inl ⟨_, r, hc, ⟨rfl, hr⟩, rfl⟩

/-- An `add_vp` that is not refused. -/
theorem runtimeAddVp_eq_some {g : Nat} {r : State × List Op} (h : runtimeAddVp s a g = some r) :
    r = (s, []) ∨ s.rtLock = none ∧ s.groupNvp g ≠ 0 ∧ accepts s = true ∧
      r = ({ s with
          rtLock := some a
          group := Function.update s.group s.nvp g
          agingCursor := Function.update s.agingCursor s.nvp 1
          idle := Function.update s.idle s.nvp .running },
        if s.rtState = .running then [.addCreate s.nvp g] else [.addPublish s.nvp g]) := by
  simp only [runtimeAddVp, Option.ite_none_left_eq_some, Decidable.not_not] at h
  obtain ⟨hl, h⟩ := h
  split at h
  · exact .inl (Option.some.inj h).symm
  · split at h
    · exact .inl (Option.some.inj h).symm
    · split at h
      · exact .inl (Option.some.inj h).symm
      · rename_i ha hg _
        exact .inr ⟨hl, fun e => hg (.inr e), by simpa using ha, (Option.some.inj h).symm⟩

theorem VpsOk.step (h : VpsOk s) {x : Act} (he : step s x = some s') : VpsOk s' := by
  obtain ⟨a, r, hc, hr, rfl⟩ | ⟨v, tr, t, rfl, ho, hp, rfl⟩ | ⟨a, o, l, r, rfl, ho, hr, rfl⟩ |
    ⟨v, ws, r, rfl, ho, -, hr, rfl⟩ := step_cases he
  · cases x with
    | spawn b t p g w =>
      obtain ⟨rfl, hr⟩ := hr
      simp only [gtSpawnEx] at hr
      repeat' split at hr
      all_goals cases hr
      all_goals exact h.call hc ⟨rfl, rfl, rfl, rfl, rfl, rfl⟩ rfl (by simp [Op.holdsRt])
    | unpark b t =>
      obtain ⟨rfl, -, -, rfl⟩ := hr
      exact h.call hc (.refl s) rfl (by simp [Op.holdsRt])
    | stop b =>
      obtain ⟨rfl, hr⟩ := hr
      simp only [gtStop] at hr
      repeat' split at hr
      all_goals cases hr
      all_goals exact h.call hc ⟨rfl, rfl, rfl, rfl, rfl, rfl⟩ rfl (by simp [Op.holdsRt])
    | addVp b g =>
      obtain ⟨rfl, hr⟩ := hr
      rcases runtimeAddVp_eq_some hr with rfl | ⟨hl, hg, -, rfl⟩
      · exact h.call hc (.refl s) rfl (by simp)
      · have hgr : ∀ v < s.nvp, Function.update s.group s.nvp g v = s.group v := fun v hv =>
          Function.update_of_ne (Nat.ne_of_lt hv) _ _
        dsimp only
        split <;> exact h.acquire (l := []) hl ⟨rfl, rfl, rfl, rfl, rfl, rfl⟩ hgr (by simp) (by simp [hg])
    | start x | wait x =>
      obtain ⟨rfl, rfl⟩ := hr
      exact h.call hc (.refl s) rfl (by simp [Op.holdsRt])
    | run x =>
      obtain ⟨rfl, hr⟩ := hr
      simp only [gtRun] at hr
      repeat' split at hr
      all_goals cases hr
      all_goals exact h.call hc ⟨rfl, rfl, rfl, rfl, rfl, rfl⟩ rfl (by simp [Op.holdsRt])
    | leave | op | vp => cases hr
  · refine h.frame ⟨rfl, rfl, rfl, rfl, rfl⟩ ?_ ?_ (fun _ _ hx _ => hx) (fun _ => Nat.le_refl _) (fun _ _ _ hx => hx)
    · simp only [setPc]
      grind -linarith
    · have := h.idling
      simp only [setPc]
      grind -linarith [VPc.idling]
  · exact h.op ho hr
  · obtain ⟨hs, hw, hv, hv', hi, hos⟩ := vpStep_sameVps hr
    have := hs.frame (l := []) (o := []) h ho (by simp) hos (fun w hp => ?_) (fun w hp => ?_)
    · simpa using this
    · by_cases e : w = v
      · exact e ▸ hv
      · rwa [hw w e] at hp
    · by_cases e : w = v
      · subst e
        rcases hi hp with hi | hl
        · exact h.idling w hi
        · exact h.lt_nvp hl hv
      · rw [hw w e] at hp
        exact h.idling w hp

theorem vpsOk_initial {groups : List Nat} (hn : groups ≠ []) : VpsOk (State.initial groups) := by
  refine ⟨by simp [State.initial], by simp [State.initial], by simp [State.initial], by simp [State.initial],
    by simp [State.initial], by simp [State.initial, VPc.idling], ?_, fun g hg => ?_⟩
  · exact ⟨List.length_pos_iff.mpr hn, Nat.le_refl _⟩
  · simp only [State.initial, ne_eq, List.count_eq_zero, Decidable.not_not] at hg
    obtain ⟨v, hv, rfl⟩ := List.mem_iff_getElem.mp hg
    exact ⟨v, hv, by simp [State.initial, hv]⟩


/-! ## The creation of the VP threads -/

/-- A VP thread exists only after `dlsm_gt_start` created it. -/
structure StartOk (s : State) : Prop where
  created : s.rtState = .created → ∀ v, s.pc v = .off
  starting : ∀ a n i b, Op.startVp n i b ∈ s.ops a → s.rtState ≠ .created ∧ ∀ v, i ≤ v → s.pc v = .off
  adding : ∀ a v g, Op.addCreate v g ∈ s.ops a → s.rtState ≠ .created

/-- An operation that creates a VP thread. -/
def Op.creates : Op → Bool
  | .startVp _ _ _ | .addCreate _ _ => true
  | _ => false

theorem Op.holdsRt_of_creates {o : Op} (h : o.creates = true) : o.holdsRt = true := by
  cases o <;> simp_all [Op.creates, Op.holdsRt]

theorem StartOk.frame (h : StartOk s) (hp : ∀ v, s.pc v = .off → s'.pc v = .off)
    (hc : s'.rtState = .created → s.rtState = .created)
    (ho : ∀ b, ∀ o ∈ s'.ops b, o.creates = true → o ∈ s.ops b) : StartOk s' := by
  obtain ⟨hcreated, hstarting, hadding⟩ := h
  refine ⟨fun hr v => hp v (hcreated (hc hr) v), fun b n i r hm => ?_,
    fun b v g hm hr => hadding b v g (ho b _ hm rfl) (hc hr)⟩
  have hst := hstarting b n i r (ho b _ hm rfl)
  exact ⟨fun hr => hst.1 (hc hr), fun v hv => hp v (hst.2 v hv)⟩

theorem mem_setOps {l : List Op} {b : Actor} {o : Op} (h : o ∈ (setOps s a l).ops b) :
    b = a ∧ o ∈ l ∨ b ≠ a ∧ o ∈ s.ops b := by
  by_cases e : b = a
  · subst e
    exact .inl ⟨rfl, by simpa [setOps] using h⟩
  · exact .inr ⟨e, by simpa [setOps, Function.update_of_ne e] using h⟩

theorem execOp_rtState {o : Op} {r : State × List Op} (h : execOp s a o = some r) (hr : r.1.rtState = .created) :
    s.rtState = .created := by
  cases o <;> simp only [execOp, makeReady, unparkSection, idleWake, idleWakeSection, gtStart, gtWait] at h
  all_goals repeat' split at h
  all_goals cases h
  all_goals first | exact hr | cases hr

theorem execOp_ops {o : Op} {r : State × List Op} (h : execOp s a o = some r) : r.1.ops = s.ops := by
  cases o <;> simp only [execOp, makeReady, unparkSection, idleWake, idleWakeSection, gtStart, gtWait] at h
  all_goals repeat' split at h
  all_goals cases h
  all_goals rfl

/-- After a step of the thread that holds the lock, the operations that hold it are those it continues with. -/
theorem VpsOk.mem_held (h : VpsOk s) {o : Op} {l k : List Op} (ho : s.ops a = o :: l) (hh : o.holdsRt = true)
    (hops : s'.ops = s.ops) {b : Actor} {x : Op} (hx : x ∈ (setOps s' a (k ++ l)).ops b) (hxh : x.holdsRt = true) :
    b = a ∧ x ∈ k := by
  obtain ⟨hll, hb⟩ := h.only ho hh
  rcases mem_setOps hx with ⟨rfl, hx'⟩ | ⟨e, hx⟩
  · rcases List.mem_append.mp hx' with hx | hx
    · exact ⟨rfl, hx⟩
    · simp [hll x hx] at hxh
  · simp [hb b e x (hops ▸ hx)] at hxh

/-- What `dlsm_gt_start` does up to the creation of the VP threads. -/
theorem gtStart_eq_some {b : Bool} {r : State × List Op} (h : gtStart s a b = some r) :
    r = (s, []) ∨
    (s.rtLock = none ∧ s.rtState = .created ∧ s.autoStop = true ∧ s.live = 0 ∧
      r = ({ s with stopRequested := true, shutdown := true, rtState := .stopping, started := true },
        if b then [.wait] else [])) ∨
    s.rtLock = none ∧ s.rtState = .created ∧ ¬(s.autoStop = true ∧ s.live = 0) ∧
      r = ({ s with rtState := .running, rtLock := some a }, [.startVp s.nvp 0 b]) := by
  simp only [gtStart, Option.ite_none_left_eq_some, Decidable.not_not] at h
  obtain ⟨hl, h⟩ := h
  split at h
  · exact .inl (Option.some.inj h).symm
  · rename_i hc
    have hc : s.rtState = .created := by simpa using hc
    split at h
    · rename_i ha
      exact .inr (.inl ⟨hl, hc, ha.1, ha.2, (Option.some.inj h).symm⟩)
    · rename_i ha
      exact .inr (.inr ⟨hl, hc, ha, (Option.some.inj h).symm⟩)

theorem StartOk.op (h : StartOk s) (hv : VpsOk s) {o : Op} {l : List Op} {r : State × List Op} (ho : s.ops a = o :: l)
    (he : execOp s a o = some r) : StartOk (setOps r.1 a (r.2 ++ l)) := by
  have hops := execOp_ops he
  have hm : o ∈ s.ops a := by simp [ho]
  by_cases hh : o.holdsRt = true
  · have key := fun {b x} => hv.mem_held (b := b) (x := x) (k := r.2) ho hh hops
    cases o with
    | startVp n i b =>
      obtain ⟨hcr, hst⟩ := h.starting a n i b hm
      simp only [execOp] at he
      split at he <;> cases he
      · refine ⟨fun hr => absurd hr hcr, fun c n' i' b' hx => ?_, fun _ _ _ _ => hcr⟩
        obtain ⟨-, hx⟩ := key hx rfl
        simp only [List.mem_singleton, Op.startVp.injEq] at hx
        obtain ⟨-, rfl, -⟩ := hx
        refine ⟨hcr, fun v hi => ?_⟩
        simp only [setOps, setPc, Function.update_of_ne (by omega : v ≠ i)]
        exact hst v (by omega)
      · refine ⟨fun hr => absurd hr hcr, fun c n' i' b' hx => ?_, fun _ _ _ _ => hcr⟩
        have := (key hx rfl).2
        cases b <;> simp at this
    | addCreate w g =>
      have hcr := h.adding a w g hm
      cases he
      refine ⟨fun hr => absurd hr hcr, fun c n' i' b' hx => ?_, fun _ _ _ _ => hcr⟩
      simpa using (key hx rfl).2
    | addPublish w g =>
      refine h.frame (fun v hv => ?_) (execOp_rtState he) (fun b x hx hxc => ?_)
      · simp only [execOp] at he
        split at he <;> cases he <;> exact hv
      · have hx := (key hx (Op.holdsRt_of_creates hxc)).2
        simp only [execOp] at he
        split at he <;> cases he <;> simp at hx
        · rcases hx with rfl | rfl <;> cases hxc
        · rw [hx] at hxc
          cases hxc
    | unlockRt =>
      cases he
      exact h.frame (fun v hv => hv) id fun b x hx hxc => by simpa using (key hx (Op.holdsRt_of_creates hxc)).2
    | _ => cases hh
  · have hold : ∀ b x, x ∈ (setOps r.1 a (r.2 ++ l)).ops b → x.creates = true → x ∈ r.2 ∨ x ∈ s.ops b := by
      intro b x hx hxc
      rcases mem_setOps hx with ⟨rfl, hx'⟩ | ⟨e, hx⟩
      · rcases List.mem_append.mp hx' with hx | hx
        · exact .inl hx
        · exact .inr (by simp [ho, hx])
      · exact .inr (hops ▸ hx)
    by_cases hs : ∃ b, o = .start b
    · obtain ⟨b, rfl⟩ := hs
      rcases gtStart_eq_some he with rfl | ⟨-, -, -, -, rfl⟩ | ⟨hl, hc, -, rfl⟩
      · exact h.frame (fun v hv => hv) id fun c x hx hxc => by simpa using hold c x hx hxc
      · refine h.frame (fun v hv => hv) (by simp [setOps]) fun c x hx hxc => ?_
        rcases hold c x hx hxc with hx | hx
        · cases b <;> simp at hx
          rw [hx] at hxc
          cases hxc
        · exact hx
      · have hof := h.created hc
        refine ⟨by simp [setOps], fun c n i b' hx => ⟨by simp [setOps], fun v _ => hof v⟩, by simp [setOps]⟩
    · obtain ⟨hs, hp, hos⟩ := execOp_sameVps he (by simpa using hh) (by simpa using hs)
      refine h.frame (fun v hv => by simpa [setOps, hp] using hv) (execOp_rtState he) (fun b x hx hxc => ?_)
      rcases hold b x hx hxc with hx | hx
      · exact absurd (Op.holdsRt_of_creates hxc) (by simp [hos x hx])
      · exact hx

/-- What a call leaves alone before its first operation. -/
theorem Calls.frame {x : Act} {r : State × List Op} (h : Calls s a r x) :
    r.1.pc = s.pc ∧ r.1.ops = s.ops ∧ (r.1.rtState = .created → s.rtState = .created) ∧ r.1.nvp = s.nvp ∧
      (∀ o ∈ r.2, o.creates = true → s.rtState = .running) ∧ ∀ n i b, Op.startVp n i b ∉ r.2 := by
  cases x with
  | spawn b t p g w =>
    obtain ⟨rfl, hr⟩ := h
    simp only [gtSpawnEx] at hr
    repeat' split at hr
    all_goals cases hr
    all_goals refine ⟨rfl, rfl, id, rfl, by simp [Op.creates], by simp⟩
  | stop b =>
    obtain ⟨rfl, hr⟩ := h
    simp only [gtStop] at hr
    repeat' split at hr
    all_goals cases hr
    all_goals refine ⟨rfl, rfl, by simp, rfl, by simp [Op.creates], by simp⟩
  | run x =>
    obtain ⟨rfl, hr⟩ := h
    simp only [gtRun] at hr
    repeat' split at hr
    all_goals cases hr
    all_goals refine ⟨rfl, rfl, id, rfl, by simp [Op.creates], by simp⟩
  | addVp b g =>
    obtain ⟨rfl, hr⟩ := h
    rcases runtimeAddVp_eq_some hr with rfl | ⟨-, -, -, rfl⟩
    · exact ⟨rfl, rfl, id, rfl, by simp, by simp⟩
    · refine ⟨rfl, rfl, id, rfl, ?_, ?_⟩ <;> dsimp only <;> split <;> simp_all [Op.creates]
  | unpark b t =>
    obtain ⟨-, -, -, rfl⟩ := h
    exact ⟨rfl, rfl, id, rfl, by simp [Op.creates], by simp⟩
  | start x | wait x =>
    obtain ⟨-, rfl⟩ := h
    exact ⟨rfl, rfl, id, rfl, by simp [Op.creates], by simp⟩
  | leave | op | vp => cases h

theorem vpStep_rtState {ws : List Nat} {r : State × List Op} (h : vpStep s v ws = some r)
    (hr : r.1.rtState = .created) : s.rtState = .created := by
  cases hpc : s.pc v with
  | off | run | exited => simp [vpStep, hpc] at h
  | scan second avoid pos pr =>
    simp only [vpStep, hpc, scanStep, Option.some.injEq] at h
    subst h
    dsimp only at hr
    repeat' split at hr
    all_goals exact hr
  | switch t tr =>
    obtain ⟨-, ⟨-, rfl⟩ | ⟨-, rfl⟩ | ⟨-, -, rfl⟩⟩ := vpStep_switch hpc h
    · exact hr
    · unfold rtPark at hr
      split at hr <;> exact hr
    · simp only [rtTaskDone, setPc] at hr
      split at hr
      · cases hr
      · exact hr
  | _ =>
    simp only [vpStep, hpc] at h
    repeat' split at h
    all_goals cases h
    all_goals exact hr

theorem StartOk.step (h : StartOk s) (hv : VpsOk s) {x : Act} (he : step s x = some s') : StartOk s' := by
  obtain ⟨a, r, hc, hr, rfl⟩ | ⟨v, tr, t, rfl, ho, hp, rfl⟩ | ⟨a, o, l, r, rfl, ho, hr, rfl⟩ |
    ⟨v, ws, r, rfl, ho, -, hr, rfl⟩ := step_cases he
  · obtain ⟨hp, hops, hrt, -, hcr, hst⟩ := hr.frame
    obtain ⟨hcreated, hstarting, hadding⟩ := h
    refine ⟨fun hr v => hp ▸ hcreated (hrt hr) v, fun b n i c hx => ?_, fun b w g hx => ?_⟩
    · rcases mem_setOps hx with ⟨rfl, hm⟩ | ⟨-, hx⟩
      · exact absurd hm (hst n i c)
      · rw [hops] at hx
        exact ⟨fun hr => (hstarting b n i c hx).1 (hrt hr), fun v hv => hp ▸ (hstarting b n i c hx).2 v hv⟩
    · intro hr
      rcases mem_setOps hx with ⟨rfl, hm⟩ | ⟨-, hx⟩
      · have := hcr _ hm rfl
        rw [hrt hr] at this
        cases this
      · exact hadding b w g (hops ▸ hx) (hrt hr)
  · refine h.frame (fun w hw => ?_) id (fun b o hx _ => hx)
    have : w ≠ v := by
      rintro rfl
      simp [hp] at hw
    simpa [setPc, Function.update_of_ne this] using hw
  · exact h.op hv ho hr
  · obtain ⟨hs, hw, hv, hv', -, hos⟩ := vpStep_sameVps hr
    refine h.frame (fun w hp => ?_) (vpStep_rtState hr) (fun b x hx hxc => ?_)
    · have : w ≠ v := by
        rintro rfl
        exact hv hp
      exact (hw w this).trans hp
    · rcases mem_setOps hx with ⟨rfl, hm⟩ | ⟨-, hx⟩
      · exact absurd (Op.holdsRt_of_creates hxc) (by simp [hos x hm])
      · exact hs.ops ▸ hx

theorem startOk_initial (groups : List Nat) : StartOk (State.initial groups) := by
  refine ⟨?_, ?_, ?_⟩ <;> simp [State.initial]

end Dlsmc.Runtime
