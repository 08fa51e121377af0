import Mathlib.Data.List.Nodup
import Dlsmc.Greenthread.Vps

/-!
# Where tasks are

Every task is in one place (`Loc`): in its spawner, in one run queue, with one
VP, parked or finished. `Placed s loc` says that the queues, the VPs, the calls
in progress and the states of the tasks agree with the places `loc`. A step
moves at most one task (`Placed.move`) or none (`Placed.frame`).
-/

namespace Dlsmc.Runtime

/-- The task a VP has taken from a queue and not given back. -/
def VPc.held : VPc → Option Nat
  | .popped t | .mark t | .run t | .switch t _ => some t
  | _ => none

inductive Loc where
  | absent
  /-- Accepted, inside the call of `a` that puts it in `q`. -/
  | spawning (a : Actor) (q : Queue)
  | queued (q : Queue)
  | held (v : Nat)
  | parked
  | finished

/-- Task `t` may be put in the queue. -/
def Fits (s : State) (t : Nat) : Queue → Prop
  | .bound v p => p = s.priority t ∧ s.vpId t = some v ∧ s.group v = s.groupId t
  | .loc v p => p = s.priority t ∧ s.vpId t = none ∧ s.group v = s.groupId t ∧ s.pc v ≠ .off
  | .ready g p => p = s.priority t ∧ s.vpId t = none ∧ g = s.groupId t

/-- VP `v` may run task `t`. -/
def Serves (s : State) (v t : Nat) : Prop := (∀ w, s.vpId t = some w → w = v) ∧ s.group v = s.groupId t

/-- The state and the queue of a task at a place. -/
def LocOk (s : State) (t : Nat) : Loc → Prop
  | .absent => s.state t = .none ∧ s.lastVpId t = none
  | .spawning _ q => s.state t = .new ∧ Fits s t q
  | .queued q => s.state t = .ready ∧ Fits s t q
  | .held v => s.state t = (if s.pc v = .popped t then .ready else .running) ∧ Serves s v t
  | .parked => s.state t = .parked
  | .finished => s.state t = .finished

structure Placed (s : State) (loc : Nat → Loc) : Prop where
  nodup : ∀ q, (s.queue q).Nodup
  queued : ∀ q t, t ∈ s.queue q ↔ loc t = .queued q
  held : ∀ v t, (s.pc v).held = some t ↔ loc t = .held v
  ready : ∀ a t q w, Op.ready t q w ∈ s.ops a → loc t = .spawning a q ∧ s.ops a = [.ready t q w]
  spawning : ∀ a t q, loc t = .spawning a q → ∃ w, Op.ready t q w ∈ s.ops a
  ok : ∀ t, LocOk s t (loc t)
  last : ∀ t v, s.lastVpId t = some v → s.group v = s.groupId t ∧ s.pc v ≠ .off
  vp : ∀ t v, s.vpId t = some v → v < s.nvp ∧ s.group v = s.groupId t
  accepted : ∀ t, t ∈ s.accepted ↔ loc t ≠ .absent

variable {s s' : State} {a : Actor} {v t : Nat} {loc : Nat → Loc}

attribute [local grind =] Function.update_apply

/-- The data of the tasks is the same. -/
structure SameTasks (s s' : State) : Prop where
  queue : s'.queue = s.queue
  state : s'.state = s.state
  priority : s'.priority = s.priority
  groupId : s'.groupId = s.groupId
  vpId : s'.vpId = s.vpId
  lastVpId : s'.lastVpId = s.lastVpId
  accepted : s'.accepted = s.accepted

theorem SameTasks.refl (s : State) : SameTasks s s := ⟨rfl, rfl, rfl, rfl, rfl, rfl, rfl⟩

/-- A VP has the same task, at the same stage. -/
def SameHeld (p p' : VPc) : Prop :=
  p'.held = p.held ∧ (∀ t, p' = .popped t ↔ p = .popped t) ∧ (p ≠ .off → p' ≠ .off)

theorem SameHeld.refl (p : VPc) : SameHeld p p := ⟨rfl, fun _ => Iff.rfl, fun h => h⟩

theorem Placed.used (h : Placed s loc) (hl : loc t = .held v) : s.pc v ≠ .off := by
  intro e
  have := (h.held v t).mpr hl
  simp [e, VPc.held] at this

/-- A step that moves no task. -/
theorem Placed.frame (h : Placed s loc) (ht : SameTasks s s') (hp : ∀ v, SameHeld (s.pc v) (s'.pc v))
    (hn : s.nvp ≤ s'.nvp) (hg : ∀ v, s.pc v ≠ .off ∨ v < s.nvp → s'.group v = s.group v)
    (ho : ∀ a t q w, Op.ready t q w ∈ s'.ops a → Op.ready t q w ∈ s.ops a)
    (ho' : ∀ a t q w, Op.ready t q w ∈ s.ops a → s'.ops a = s.ops a) : Placed s' loc := by
  obtain ⟨e1, e2, e3, e4, e5, e6, e7⟩ := ht
  have hu : ∀ t v, loc t = .held v → s.pc v ≠ .off := fun t v => h.used
  obtain ⟨hnodup, hqueued, hheld, hready, hspawning, hok₀, hlast, hvp, haccepted⟩ := h
  refine ⟨by rwa [e1], by rwa [e1], fun v t => by rw [(hp v).1, hheld], fun a t q w hm => ?_, fun a t q hl => ?_,
    fun t => ?_, fun t v hl => ?_, fun t v hl => ?_, by rwa [e7]⟩
  · have hm := ho a t q w hm
    rw [ho' a t q w hm]
    exact hready a t q w hm
  · obtain ⟨w, hm⟩ := hspawning a t q hl
    exact ⟨w, by rwa [ho' a t q w hm]⟩
  · have hok := hok₀ t
    have hfit : ∀ q, Fits s t q → Fits s' t q := by
      intro q hq
      cases q with
      | bound v p =>
        simp only [Fits, e3, e4, e5] at hq ⊢
        rw [hg v (.inr (hvp t v hq.2.1).1)]
        exact hq
      | loc v p =>
        simp only [Fits, e3, e4, e5] at hq ⊢
        rw [hg v (.inl hq.2.2.2)]
        exact ⟨hq.1, hq.2.1, hq.2.2.1, (hp v).2.2 hq.2.2.2⟩
      | ready g p =>
        simp only [Fits, e3, e4, e5] at hq ⊢
        exact hq
    cases hl : loc t with
    | absent | parked | finished => simpa only [hl, LocOk, e2, e6] using hok
    | spawning a q | queued q =>
      simp only [hl, LocOk, e2] at hok ⊢
      exact ⟨hok.1, hfit q hok.2⟩
    | held v =>
      simp only [hl, LocOk, Serves, e2, e4, e5, (hp v).2.1] at hok ⊢
      rw [hg v (.inl (hu t v hl))]
      exact hok
  · rw [e6] at hl
    rw [e4, hg v (.inl (hlast t v hl).2)]
    exact ⟨(hlast t v hl).1, (hp v).2.2 (hlast t v hl).2⟩
  · rw [e5] at hl
    rw [e4, hg v (.inr (hvp t v hl).1)]
    exact ⟨Nat.lt_of_lt_of_le (hvp t v hl).1 hn, (hvp t v hl).2⟩

/-- A step that moves task `t` to `x`, and no other. -/
theorem Placed.move (h : Placed s loc) {x : Loc}
    (hq : ∀ q, (s'.queue q).Nodup ∧ ∀ u, u ∈ s'.queue q ↔ u ≠ t ∧ u ∈ s.queue q ∨ u = t ∧ x = .queued q)
    (hh : ∀ v u, (s'.pc v).held = some u ↔ u ≠ t ∧ (s.pc v).held = some u ∨ u = t ∧ x = .held v)
    (hp : ∀ v, (∀ u ≠ t, s'.pc v = .popped u ↔ s.pc v = .popped u) ∧ (s.pc v ≠ .off → s'.pc v ≠ .off))
    (hr : ∀ b u q w, Op.ready u q w ∈ s'.ops b →
      u ≠ t ∧ Op.ready u q w ∈ s.ops b ∨ u = t ∧ x = .spawning b q ∧ s'.ops b = [.ready u q w])
    (hr' : ∀ b u q w, u ≠ t → Op.ready u q w ∈ s.ops b → s'.ops b = s.ops b)
    (hx : ∀ b q, x = .spawning b q → ∃ w, Op.ready t q w ∈ s'.ops b)
    (hd : ∀ u ≠ t, s'.state u = s.state u ∧ s'.priority u = s.priority u ∧ s'.groupId u = s.groupId u ∧
      s'.vpId u = s.vpId u ∧ s'.lastVpId u = s.lastVpId u)
    (hs : s'.nvp = s.nvp ∧ s'.group = s.group) (hok : LocOk s' t x)
    (hlast : ∀ v, s'.lastVpId t = some v → s'.group v = s'.groupId t ∧ s'.pc v ≠ .off)
    (hvp : ∀ v, s'.vpId t = some v → v < s'.nvp ∧ s'.group v = s'.groupId t)
    (hacc : (∀ u, u ∈ s'.accepted ↔ u ∈ s.accepted ∨ u = t) ∧ x ≠ .absent) :
    Placed s' (Function.update loc t x) := by
  obtain ⟨e1, e2⟩ := hs
  obtain ⟨hnodup, hqueued, hheld, hready, hspawning, hok₀, hlast₀, hvp₀, haccepted⟩ := h
  have hloc : ∀ u, u ≠ t → Function.update loc t x u = loc u := fun u hu => Function.update_of_ne hu _ _
  refine ⟨fun q => (hq q).1, fun q u => ?_, fun v u => ?_, fun b u q w hm => ?_, fun b u q hl => ?_, fun u => ?_,
    fun u v hl => ?_, fun u v hl => ?_, fun u => ?_⟩
  · rw [(hq q).2 u, hqueued]
    grind -linarith
  · rw [hh v u, hheld]
    grind -linarith
  · rcases hr b u q w hm with ⟨hu, hm⟩ | ⟨rfl, rfl, hb⟩
    · rw [hloc u hu, hr' b u q w hu hm]
      exact hready b u q w hm
    · exact ⟨by simp, hb⟩
  · by_cases hu : u = t
    · subst hu
      rw [Function.update_self] at hl
      exact hx b q hl
    · rw [hloc u hu] at hl
      obtain ⟨w, hm⟩ := hspawning b u q hl
      exact ⟨w, by rwa [hr' b u q w hu hm]⟩
  · by_cases hu : u = t
    · subst hu
      rwa [Function.update_self]
    · rw [hloc u hu]
      obtain ⟨d1, d2, d3, d4, d5⟩ := hd u hu
      have hok := hok₀ u
      have hfit : ∀ q, Fits s u q → Fits s' u q := by
        intro q hq
        cases q with
        | bound | ready => simpa only [Fits, d2, d3, d4, e2] using hq
        | loc v p =>
          simp only [Fits, d2, d3, d4, e2] at hq ⊢
          exact ⟨hq.1, hq.2.1, hq.2.2.1, (hp v).2 hq.2.2.2⟩
      cases hl : loc u with
      | absent | parked | finished => simpa only [hl, LocOk, d1, d5] using hok
      | spawning | queued =>
        simp only [hl, LocOk, d1] at hok ⊢
        exact ⟨hok.1, hfit _ hok.2⟩
      | held v => simpa only [hl, LocOk, Serves, d1, d3, d4, e2, (hp v).1 u hu] using hok
  · by_cases hu : u = t
    · subst hu
      exact hlast v hl
    · obtain ⟨-, -, d3, -, d5⟩ := hd u hu
      rw [d5] at hl
      rw [d3, e2]
      exact ⟨(hlast₀ u v hl).1, (hp v).2 (hlast₀ u v hl).2⟩
  · by_cases hu : u = t
    · subst hu
      exact hvp v hl
    · obtain ⟨-, -, d3, d4, -⟩ := hd u hu
      rw [d4] at hl
      rw [d3, e1, e2]
      exact hvp₀ u v hl
  · rw [hacc.1 u, haccepted]
    by_cases hu : u = t
    · simp [hu, hacc.2]
    · simp [hu]

/-! ## What a VP may take -/

theorem queuePop_eq_some {l l' : List Nat} (h : queuePop l = some (t, l')) : l = t :: l' := by
  cases l <;> simp_all [queuePop]

theorem queuePop_eq_none {l : List Nat} (h : queuePop l = none) : l = [] := by
  cases l with
  | nil => rfl
  | cons t l => cases h

theorem queuePopUnless_eq_some {l l' : List Nat} {avoid : Option Nat} (h : queuePopUnless l avoid = some (t, l')) :
    l = t :: l' := by
  cases l with
  | nil => cases h
  | cons u l =>
    simp only [queuePopUnless, Option.ite_none_left_eq_some, Option.some.injEq, Prod.mk.injEq] at h
    rw [h.2.1, h.2.2]

theorem queueStealSurplus_eq_some {l l' : List Nat} (h : queueStealSurplus l = some (t, l')) : l = t :: l' := by
  unfold queueStealSurplus at h
  split at h
  · simp only [Option.some.injEq, Prod.mk.injEq] at h
    rw [h.1, h.2]
  · cases h

/-- The queues VP `v` takes tasks from. -/
def MayTake (s : State) (v : Nat) : Queue → Prop
  | .bound w _ => w = v
  | .loc w _ => s.group w = s.group v
  | .ready g _ => g = s.group v

theorem probe_eq_some {avoid : Option Nat} {pos : Pos} {pr : Probe} {q : Queue} {l : List Nat} {b : Nat}
    {nx : Pos × Probe} (h : probe s v avoid pos pr = ((q, some (t, l), b), nx)) :
    s.queue q = t :: l ∧ MayTake s v q := by
  cases pr with
  | steal n offset =>
    simp only [probe, Prod.mk.injEq, Option.ite_none_right_eq_some] at h
    obtain ⟨⟨rfl, ⟨⟨-, hg⟩, hl⟩, -⟩, -⟩ := h
    exact ⟨queueStealSurplus_eq_some hl, hg⟩
  | localUnless =>
    simp only [probe, Prod.mk.injEq, Option.ite_none_right_eq_some] at h
    obtain ⟨⟨rfl, ⟨-, hl⟩, -⟩, -⟩ := h
    exact ⟨queuePopUnless_eq_some hl, rfl⟩
  | nvp => simp [probe] at h
  | boundUnless | localAgain =>
    simp only [probe, Prod.mk.injEq] at h
    obtain ⟨⟨rfl, hl, -⟩, -⟩ := h
    exact ⟨queuePopUnless_eq_some hl, rfl⟩
  | ready | bound | loc =>
    simp only [probe, Prod.mk.injEq] at h
    obtain ⟨⟨rfl, hl, -⟩, -⟩ := h
    exact ⟨queuePop_eq_some hl, rfl⟩

theorem Fits.serves {q : Queue} (hf : Fits s t q) (hm : MayTake s v q) : Serves s v t := by
  cases q with
  | bound w p =>
    simp only [Fits, MayTake] at hf hm
    subst hm
    exact ⟨fun w' hw => by simpa [hf.2.1] using hw.symm, hf.2.2⟩
  | loc w p =>
    simp only [Fits, MayTake] at hf hm
    exact ⟨fun w' hw => by simp [hf.2.1] at hw, hm ▸ hf.2.2.1⟩
  | ready g p =>
    simp only [Fits, MayTake] at hf hm
    exact ⟨fun w' hw => by simp [hf.2.1] at hw, hm ▸ hf.2.2⟩

/-- VP `v` takes the first task of a queue. -/
theorem Placed.take (h : Placed s loc) (pos : Pos) {q : Queue} {l : List Nat} {b : Nat} (hq : s.queue q = t :: l)
    (hm : MayTake s v q) (hv : (s.pc v).held = none) :
    Placed (take s v pos q t l b) (Function.update loc t (.held v)) := by
  have hl : loc t = .queued q := (h.queued q t).mp (by simp [hq])
  have hnd := List.nodup_cons.mp (hq ▸ h.nodup q)
  have hok := h.ok t
  rw [hl] at hok
  refine h.move (fun q' => ?_) (fun w u => ?_) (fun w => ?_) (fun b u q' w hr => ?_) (fun _ _ _ _ _ _ => rfl)
    (by simp) (fun u hu => ⟨rfl, rfl, rfl, rfl, rfl⟩) ⟨rfl, rfl⟩ ?_ (fun w hw => ?_) (fun w hw => h.vp t w hw) ?_
  · have := h.nodup q'
    have := h.queued q' t
    simp only [Runtime.take]
    by_cases e : q' = q
    · subst e
      simp only [Function.update_self]
      refine ⟨hnd.2, fun u => ?_⟩
      rw [hq]
      grind -linarith
    · simp only [Function.update_of_ne e]
      grind -linarith
  · have := h.held w t
    have := h.held v u
    simp only [Runtime.take]
    grind -linarith [VPc.held]
  · simp only [Runtime.take]
    grind -linarith [VPc.held]
  · refine .inl ⟨fun e => ?_, hr⟩
    subst e
    have := (h.ready b u q' w hr).1
    simp [hl] at this
  · simp only [LocOk, Runtime.take, Function.update_self, if_true]
    exact ⟨hok.1, hok.2.serves hm⟩
  · have := h.last t w hw
    simp only [Runtime.take]
    grind -linarith
  · simp only [Runtime.take]
    refine ⟨fun u => ?_, by simp⟩
    have := (h.accepted t).mpr (by simp [hl])
    grind -linarith

/-! ## Pushes and the end of a dispatch -/

theorem Fits.mono {q : Queue} (hf : Fits s t q) (hp : s'.priority t = s.priority t) (hg : s'.groupId t = s.groupId t)
    (hv : s'.vpId t = s.vpId t) (hgr : s'.group = s.group) (ho : ∀ v, s.pc v ≠ .off → s'.pc v ≠ .off) :
    Fits s' t q := by
  cases q with
  | bound | ready => simpa only [Fits, hp, hg, hv, hgr] using hf
  | loc v p =>
    simp only [Fits, hp, hg, hv, hgr] at hf ⊢
    exact ⟨hf.1, hf.2.1, hf.2.2.1, ho v hf.2.2.2⟩

/-- The VPs and calls of `s'` are those of `s` without task `t`. -/
structure Gives (s s' : State) (t : Nat) : Prop where
  held : ∀ w u, (s'.pc w).held = some u ↔ u ≠ t ∧ (s.pc w).held = some u
  popped : ∀ w, (∀ u ≠ t, s'.pc w = .popped u ↔ s.pc w = .popped u) ∧ (s.pc w ≠ .off → s'.pc w ≠ .off)
  ready : ∀ b u q w, Op.ready u q w ∈ s'.ops b → u ≠ t ∧ Op.ready u q w ∈ s.ops b
  others : ∀ b u q w, u ≠ t → Op.ready u q w ∈ s.ops b → s'.ops b = s.ops b
  data : s'.priority = s.priority ∧ s'.groupId = s.groupId ∧ s'.vpId = s.vpId ∧ s'.lastVpId = s.lastVpId ∧
    s'.accepted = s.accepted ∧ s'.nvp = s.nvp ∧ s'.group = s.group

theorem Placed.give (h : Placed s loc) (hG : Gives s s' t) {x : Loc} (ha : loc t ≠ .absent)
    (hq : ∀ q, (s'.queue q).Nodup ∧ ∀ u, u ∈ s'.queue q ↔ u ≠ t ∧ u ∈ s.queue q ∨ u = t ∧ x = .queued q)
    (hs : ∀ u ≠ t, s'.state u = s.state u)
    (hx : x ≠ .absent ∧ (∀ v, x ≠ .held v) ∧ ∀ b q, x ≠ .spawning b q) (hok : LocOk s' t x) :
    Placed s' (Function.update loc t x) := by
  obtain ⟨hh, hp, hr, hr', d1, d2, d3, d4, d5, d6, d7⟩ := hG
  refine h.move hq (fun w u => ?_) hp (fun b u q w hm => .inl (hr b u q w hm)) hr' (fun b q e => ?_) (fun u hu => ?_)
    ⟨d6, d7⟩ hok (fun w hw => ?_) (fun w hw => ?_) ⟨fun u => ?_, hx.1⟩
  · rw [hh w u]
    have := hx.2.1 w
    simp [this]
  · exact absurd e (hx.2.2 b q)
  · rw [d1, d2, d3, d4]
    exact ⟨hs u hu, rfl, rfl, rfl, rfl⟩
  · rw [d4] at hw
    rw [d2, d7]
    exact ⟨(h.last t w hw).1, (hp w).2 (h.last t w hw).2⟩
  · rw [d3] at hw
    rw [d2, d6, d7]
    exact h.vp t w hw
  · rw [d5]
    have := (h.accepted t).mpr ha
    grind -linarith

/-- `task_make_ready` of a task that is in no queue. -/
theorem Placed.push (h : Placed s loc) (hG : Gives s s' t) {q : Queue} (ha : loc t ≠ .absent)
    (hn : ∀ q, loc t ≠ .queued q) (hf : Fits s t q)
    (hq : s'.queue = Function.update s.queue q (s.queue q ++ [t])) (hs : s'.state = Function.update s.state t .ready) :
    Placed s' (Function.update loc t (.queued q)) := by
  refine h.give hG ha (fun q' => ?_) (fun u hu => ?_) (by simp) ⟨?_, ?_⟩
  · have h₁ := h.nodup q'
    have h₂ := h.queued q' t
    have h₃ := hn q'
    rw [hq]
    by_cases e : q' = q
    · subst e
      simp only [Function.update_self]
      refine ⟨List.nodup_append.mpr ⟨h₁, List.nodup_singleton t, ?_⟩, fun u => ?_⟩
      · grind -linarith
      · grind -linarith
    · simp only [Function.update_of_ne e]
      grind -linarith
  · rw [hs, Function.update_of_ne hu]
  · rw [hs, Function.update_self]
  · obtain ⟨d1, d2, d3, -, -, -, d7⟩ := hG.data
    exact hf.mono (by rw [d1]) (by rw [d2]) (by rw [d3]) d7 fun v => (hG.popped v).2

/-- The task leaves its VP and is in no queue. -/
theorem Placed.rest (h : Placed s loc) (hG : Gives s s' t) {x : Loc} (hl : loc t = .held v) (hq : s'.queue = s.queue)
    (hs : ∀ u ≠ t, s'.state u = s.state u)
    (hx : x = .parked ∧ s'.state t = .parked ∨ x = .finished ∧ s'.state t = .finished) :
    Placed s' (Function.update loc t x) := by
  refine h.give hG (by simp [hl]) (fun q => ?_) hs ?_ ?_
  · rw [hq]
    refine ⟨h.nodup q, fun u => ?_⟩
    have := h.queued q t
    grind -linarith
  · rcases hx with ⟨rfl, -⟩ | ⟨rfl, -⟩ <;> simp
  · rcases hx with ⟨rfl, hx⟩ | ⟨rfl, hx⟩ <;> exact hx

def Op.isReady : Op → Bool
  | .ready _ _ _ => true
  | _ => false

/-- A call that still has to make its task ready has nothing else to do. -/
theorem Placed.tail_not_ready (h : Placed s loc) {o : Op} {l : List Op} (ho : s.ops a = o :: l) :
    ∀ x ∈ l, x.isReady = false := by
  intro x hx
  cases x with
  | ready u q w =>
    have := (h.ready a u q w (by simp [ho, hx])).2
    rw [ho] at this
    simp only [List.cons.injEq] at this
    simp [this.2] at hx
  | _ => rfl

/-- VP `v` gives back the task it switched from. -/
theorem Placed.gives_switch (h : Placed s loc) {tr : Transition} {s₁ : State} {l : List Op}
    (hpc : s.pc v = .switch t tr) (ho : s.ops (.vp v) = []) (hl : ∀ x ∈ l, x.isReady = false)
    (h₁ : s₁.pc = Function.update s.pc v (.tryNext false) ∧ s₁.ops = s.ops)
    (hd : s₁.priority = s.priority ∧ s₁.groupId = s.groupId ∧ s₁.vpId = s.vpId ∧ s₁.lastVpId = s.lastVpId ∧
      s₁.accepted = s.accepted ∧ s₁.nvp = s.nvp ∧ s₁.group = s.group) : Gives s (setOps s₁ (.vp v) l) t := by
  obtain ⟨hp, hops⟩ := h₁
  have hlt : loc t = .held v := (h.held v t).mp (by simp [hpc, VPc.held])
  refine ⟨fun w u => ?_, fun w => ?_, fun b u q w hm => ?_, fun b u q w _ hm => ?_, hd⟩
  · have := h.held w u
    simp only [setOps, hp]
    grind -linarith [VPc.held]
  · simp only [setOps, hp]
    grind -linarith
  · by_cases e : b = .vp v
    · subst e
      simp only [setOps, Function.update_self] at hm
      simpa [Op.isReady] using hl _ hm
    · simp only [setOps, Function.update_of_ne e, hops] at hm
      refine ⟨fun e' => ?_, hm⟩
      subst e'
      have := (h.ready b u q w hm).1
      simp [hlt] at this
  · by_cases e : b = .vp v
    · subst e
      simp [ho] at hm
    · simp only [setOps, Function.update_of_ne e, hops]

/-- A thread that is at an operation on `t`, which no VP holds. -/
theorem Placed.gives_op (h : Placed s loc) {s₁ : State} {o : Op} {l l' : List Op} (ho : s.ops a = o :: l)
    (hn : ∀ v, loc t ≠ .held v) (hr : ∀ b q, loc t = .spawning b q → b = a)
    (hr' : o.isReady = true → ∃ q w, o = .ready t q w)
    (hl : ∀ x ∈ l', x.isReady = false) (h₁ : s₁.pc = s.pc ∧ s₁.ops = s.ops)
    (hd : s₁.priority = s.priority ∧ s₁.groupId = s.groupId ∧ s₁.vpId = s.vpId ∧ s₁.lastVpId = s.lastVpId ∧
      s₁.accepted = s.accepted ∧ s₁.nvp = s.nvp ∧ s₁.group = s.group) : Gives s (setOps s₁ a (l' ++ l)) t := by
  obtain ⟨hp, hops⟩ := h₁
  have htl := h.tail_not_ready ho
  refine ⟨fun w u => ?_, fun w => ?_, fun b u q w hm => ?_, fun b u q w hu hm => ?_, hd⟩
  · have := h.held w u
    have := hn w
    simp only [setOps, hp]
    grind -linarith
  · simp [setOps, hp]
  · by_cases e : b = a
    · subst e
      simp only [setOps, Function.update_self, List.mem_append] at hm
      rcases hm with hm | hm
      · simpa [Op.isReady] using hl _ hm
      · simpa [Op.isReady] using htl _ hm
    · simp only [setOps, Function.update_of_ne e, hops] at hm
      refine ⟨fun e' => ?_, hm⟩
      subst e'
      exact e (hr b q (h.ready b u q w hm).1)
  · by_cases e : b = a
    · subst e
      rw [ho, List.mem_cons] at hm
      rcases hm with hm | hm
      · obtain ⟨q', w', he⟩ := hr' (by rw [← hm]; rfl)
        rw [he] at hm
        cases hm
        exact absurd rfl hu
      · simpa [Op.isReady] using htl _ hm
    · simp only [setOps, Function.update_of_ne e, hops]

end Dlsmc.Runtime
