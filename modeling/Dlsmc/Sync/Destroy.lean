import Mathlib.Algebra.Group.Nat.Defs
import Mathlib.Tactic.SplitIfs
import Dlsmc.Framework.LinkQueue
import Dlsmc.Framework.Machine

/-!
# Destroying a semaphore, a condition or a mutex (`gt_wait.c`, `gt_mutex.c`)

One object of one of the three kinds, the calls on it by any number of tasks,
and its destruction by a task whose own wait, or lock and unlock, has returned.
What a call does is followed as far as the object's fields go: the check of
`initialized`, the section under `qlock`, and for a call that grants a waiter
also the load and the store with which it releases `qlock` and the read of `ops`
for `unpark`. A section is one step, with `qlock` still held after it if it
granted a waiter; a waiter reads `granted`, on its own stack, at any time. The
mutex of a condition is left out: its calls take any time and may fail.

`State.returned` are the tasks whose own wait has returned, `State.waking` the
calls that released `qlock` and have still to read `ops`, and `State.late` the
accesses of granting calls after the destruction; no step reads the last two.
-/

namespace Dlsmc.Destroy

/-- `UINT64_MAX` -/
def UINT64_MAX : Nat := 2 ^ 64 - 1

inductive Kind where
  | semaphore
  | condition
  | mutex
  deriving DecidableEq

/-- The calls. -/
inductive Call where
  /-- `semaphore_wait`, `condition_wait`, `mutex_lock` -/
  | wait
  /-- `condition_timedwait`, `mutex_timedlock` -/
  | timedwait
  /-- `mutex_trylock` -/
  | trylock
  /-- `semaphore_post`, `condition_signal`, `mutex_unlock` -/
  | post
  /-- `condition_broadcast` -/
  | broadcast
  | destroy
  deriving DecidableEq

/-- Where a task stands. -/
inductive Pc where
  | idle
  /-- Found the object initialised, about to take `qlock`. -/
  | enter (c : Call)
  /-- Queued, and parked or about to park. -/
  | wait (timed : Bool)
  /-- Granted `w`, about to load `qlock.owner`. -/
  | release (w : Nat)
  /-- Granted `w`, about to store `qlock.owner`. -/
  | store (w : Nat)
  /-- Granted `w`, about to read `ops` and unpark it. -/
  | unpark (w : Nat)
  deriving DecidableEq

/-- The fields a granting call touches after its section. -/
inductive Field where
  | qlock
  | ops
  deriving DecidableEq

/-- The object, the waiter nodes and the tasks. -/
structure State where
  initialized : Bool
  /-- `ops` is not `NULL`. -/
  ops : Bool
  /-- `ops->park_until` is not `NULL`. -/
  parkUntil : Bool
  count : Nat
  locked : Bool
  owner : Option Nat
  queue : Links Nat
  /-- The task that holds `qlock` between two steps. -/
  qlock : Option Nat
  granted : Nat → Bool
  pc : Nat → Pc
  returned : Nat → Bool
  /-- `destroy` has returned `OK`. -/
  destroyed : Bool
  waking : List Nat
  late : List (Nat × Field)

/-- After `init`; `count` is that of a semaphore. -/
def State.initial (count : Nat) (parkUntil : Bool) : State where
  initialized := true
  ops := true
  parkUntil := parkUntil
  count := count
  locked := false
  owner := none
  queue := ⟨fun _ => none, none, none⟩
  qlock := none
  granted := fun _ => false
  pc := fun _ => .idle
  returned := fun _ => false
  destroyed := false
  waking := []
  late := []

def State.goto (s : State) (t : Nat) (pc : Pc) : State := { s with pc := Function.update s.pc t pc }

/-- The call of `t` returns. -/
def State.ret (s : State) (t : Nat) : State := s.goto t .idle

/-- The wait of `t` returns `OK`, or its unlock does. -/
def State.retOk (s : State) (t : Nat) : State := { s with returned := Function.update s.returned t true }.ret t

/-- `t` queues its node and leaves the section. -/
def enqueue (s : State) (t : Nat) (timed : Bool) : State :=
  { s with queue := s.queue.push t, granted := Function.update s.granted t false }.goto t (.wait timed)

/-- `t` grants `w` and is about to release `qlock`. -/
def grant (s : State) (t w : Nat) (q : Links Nat) : State :=
  { s with queue := q, granted := Function.update s.granted w true, qlock := some t }.goto t (.release w)

/-- `dlsm_gt_semaphore_wait`, the section. -/
def semaphoreWait (s : State) (t : Nat) : State :=
  if s.count > 0 then { s with count := s.count - 1 }.retOk t else enqueue s t false

/-- `dlsm_gt_semaphore_post`, the section. -/
def semaphorePost (s : State) (t : Nat) : State :=
  match s.queue.pop with
  | some (w, q) => grant s t w q
  | none =>
    if s.count = UINT64_MAX then s.ret t -- DLSM_SYNC_E_STATE
    else { s with count := (s.count + 1) % 2 ^ 64 }.ret t

/-- `dlsm_gt_condition_wait` and `timedwait`, the section; `ok` is whether the
mutex could be unlocked. -/
def conditionWait (s : State) (t : Nat) (timed ok : Bool) : State := if ok then enqueue s t timed else s.ret t

/-- `dlsm_gt_condition_signal`, the section. -/
def conditionSignal (s : State) (t : Nat) : State :=
  match s.queue.pop with
  | some (w, q) => grant s t w q
  | none => s.ret t

/-- `for (node = waiters; node; node = node->next)` of `grant_all_locked`. -/
def grantAll (next : Nat → Option Nat) : Nat → Option Nat → (Nat → Bool) → Option (Nat → Bool)
  | _, none, granted => some granted
  | 0, some _, _ => none
  | fuel + 1, some n, granted => grantAll next fuel (next n) (Function.update granted n true)

/-- `dlsm_gt_condition_broadcast`, the section: `grant_all_locked` has `ops` as its
argument and touches no field after it released `qlock`. -/
def conditionBroadcast (s : State) (t fuel : Nat) : Option State :=
  (grantAll s.queue.next fuel s.queue.head s.granted).map fun g =>
    { s with queue := { s.queue with head := none, tail := none }, granted := g }.ret t

/-- `dlsm_gt_mutex_lock` and `timedlock`, the section. -/
def mutexLock (s : State) (t : Nat) (timed : Bool) : State :=
  if s.locked = false then { s with locked := true, owner := some t }.ret t
  else if s.owner = some t then s.ret t -- DLSM_SYNC_E_STATE
  else if timed = true ∧ s.parkUntil = false then s.ret t -- DLSM_SYNC_E_INVAL
  else enqueue s t timed

/-- `dlsm_gt_mutex_trylock`, the section. -/
def mutexTrylock (s : State) (t : Nat) : State :=
  if s.locked = false then { s with locked := true, owner := some t }.ret t else s.ret t

/-- `dlsm_gt_mutex_unlock`, the section. -/
def mutexUnlock (s : State) (t : Nat) : State :=
  if s.locked = false ∨ s.owner ≠ some t then s.ret t -- DLSM_SYNC_E_STATE
  else
    match s.queue.head with
    | some w =>
      let head := s.queue.next w
      { grant s t w { s.queue with head := head, tail := if head = none then none else s.queue.tail } with
        owner := some w }
    | none => { s with locked := false, owner := none }.retOk t

/-- The section of the three `destroy`. -/
def destroy (k : Kind) (s : State) (t : Nat) : State :=
  if (k = .mutex ∧ s.locked = true) ∨ s.queue.head ≠ none ∨ s.queue.tail ≠ none then s.ret t -- DLSM_SYNC_E_STATE
  else { s with initialized := false, ops := false, destroyed := true }.ret t

/-- The section of a call. -/
def enterSection (k : Kind) (s : State) (t : Nat) (c : Call) (ok : Bool) (fuel : Nat) : Option State :=
  match k, c with
  | .semaphore, .wait => some (semaphoreWait s t)
  | .semaphore, .post => some (semaphorePost s t)
  | .condition, .wait => some (conditionWait s t false ok)
  | .condition, .timedwait => some (conditionWait s t true ok)
  | .condition, .post => some (conditionSignal s t)
  | .condition, .broadcast => conditionBroadcast s t fuel
  | .mutex, .wait => some (mutexLock s t false)
  | .mutex, .timedwait => some (mutexLock s t true)
  | .mutex, .trylock => some (mutexTrylock s t)
  | .mutex, .post => some (mutexUnlock s t)
  | k, .destroy => some (destroy k s t)
  | _, _ => none

inductive Act where
  /-- A call begins, in a task, and finds the object initialised or returns. A task
  destroys the object only after its own wait has returned. -/
  | call (t : Nat) (c : Call)
  /-- The section under `qlock`. -/
  | enter (t : Nat) (ok : Bool) (fuel : Nat)
  /-- A waiter reads `granted`, and parks and wakes if it is 0. -/
  | poll (t : Nat)
  /-- The section of a timed wait after `park_until`; `timeout` is whether that failed. -/
  | recheck (t : Nat) (timeout : Bool) (fuel : Nat)
  /-- The next access of a call that granted a waiter. -/
  | next (t : Nat)
  deriving DecidableEq

/-- An access of a granting call. -/
def State.touch (s : State) (t : Nat) (f : Field) : State :=
  if s.destroyed then { s with late := (t, f) :: s.late } else s

/-- What a granted waiter goes on with: a mutex is then locked and still has to
be unlocked. -/
def granted (k : Kind) (s : State) (t : Nat) : State := if k = .mutex then s.ret t else s.retOk t

/-- One step. -/
def step (k : Kind) (s : State) : Act → Option State
  | .call t c =>
    if s.pc t = .idle ∧ (c = .destroy → s.returned t = true) then
      if s.initialized then some (s.goto t (.enter c)) else some s -- DLSM_SYNC_E_INVAL
    else none
  | .enter t ok fuel =>
    match s.pc t with
    | .enter c => if s.qlock = none then enterSection k s t c ok fuel else none
    | _ => none
  | .poll t =>
    if s.pc t = .wait false then
      if s.granted t then some (granted k s t) else some s
    else none
  | .recheck t timeout fuel =>
    if s.pc t = .wait true ∧ s.qlock = none then
      if s.granted t then some (granted k s t)
      else if timeout then (s.queue.remove t fuel).map fun r => { s with queue := r.2 }.ret t
      else some s
    else none
  | .next t =>
    match s.pc t with
    | .release w => some ((s.touch t .qlock).goto t (.store w))
    | .store w => some { (s.touch t .qlock).goto t (.unpark w) with qlock := none, waking := t :: s.waking }
    | .unpark _ =>
      let s := { s.touch t .ops with waking := s.waking.erase t }
      some (if k = .mutex then s.retOk t else s.ret t)
    | _ => none

/-- An object of kind `k` in use by any number of tasks. -/
def machine (k : Kind) (count : Nat) (parkUntil : Bool) : Machine State Act where
  init := fun s => s = State.initial count parkUntil
  step := step k

/-- No granting call is between its release of `qlock` and its read of `ops` when
`destroy` takes `qlock`, and no call takes the `qlock` of a destroyed object. -/
def settled (s : State) : Act → Bool
  | .enter t _ _ => s.initialized && (s.pc t != .enter .destroy || s.waking = [])
  | _ => true

/-- The call of a task that granted a waiter is not at its end yet. -/
def Pc.grants : Pc → Bool
  | .release _ | .store _ | .unpark _ => true
  | _ => false

/-- The invariant of the settled runs. -/
structure Inv (s : State) : Prop where
  late : s.late = []
  lock : ∀ t w, s.pc t = .release w ∨ s.pc t = .store w → s.qlock = some t
  waking : ∀ t w, s.pc t = .unpark w → t ∈ s.waking
  destroyed : s.destroyed = true → s.initialized = false ∧ ∀ t, (s.pc t).grants = false

variable {k : Kind} {s s' : State} {t : Nat} {c : Call} {a : Act}

theorem goto_pc (pc : Pc) (r : Nat) : (s.goto t pc).pc r = if r = t then pc else s.pc r := by
  simp [State.goto, Function.update_apply]

/-- What a section does that the destruction depends on: it grants a waiter and
keeps `qlock`, destroys the object, or neither. -/
inductive SectionMove (s : State) (t : Nat) (c : Call) : State → Prop
  | grant (w : Nat) (s₁ : State) (hl : s₁.late = s.late) (hq : s₁.qlock = some t) (hpc : s₁.pc = s.pc)
      (hw : s₁.waking = s.waking) (hd : s₁.destroyed = s.destroyed) : SectionMove s t c (s₁.goto t (.release w))
  | destroy (s₁ : State) (hc : c = .destroy) (hl : s₁.late = s.late) (hq : s₁.qlock = s.qlock) (hpc : s₁.pc = s.pc)
      (hw : s₁.waking = s.waking) (hi : s₁.initialized = false) : SectionMove s t c (s₁.goto t .idle)
  | quiet (pc : Pc) (s₁ : State) (hg : pc.grants = false) (hl : s₁.late = s.late) (hq : s₁.qlock = s.qlock)
      (hpc : s₁.pc = s.pc) (hw : s₁.waking = s.waking) (hd : s₁.destroyed = s.destroyed) :
      SectionMove s t c (s₁.goto t pc)

theorem SectionMove.enqueue (timed : Bool) : SectionMove s t c (enqueue s t timed) := .quiet _ _ rfl rfl rfl rfl rfl rfl

theorem SectionMove.ret : SectionMove s t c (s.ret t) := .quiet .idle s rfl rfl rfl rfl rfl rfl

theorem destroy_move (k : Kind) : SectionMove s t .destroy (destroy k s t) := by
  unfold destroy
  split
  · exact .ret
  · exact .destroy _ rfl rfl rfl rfl rfl rfl

theorem mutexLock_move (timed : Bool) : SectionMove s t c (mutexLock s t timed) := by
  unfold mutexLock
  split_ifs
  · exact .quiet .idle _ rfl rfl rfl rfl rfl rfl
  · exact .ret
  · exact .ret
  · exact .enqueue timed

theorem conditionWait_move (timed ok : Bool) : SectionMove s t c (conditionWait s t timed ok) := by
  unfold conditionWait
  split
  · exact .enqueue timed
  · exact .ret

theorem section_move {ok : Bool} {fuel : Nat} (h : enterSection k s t c ok fuel = some s') : SectionMove s t c s' := by
  unfold enterSection at h
  split at h <;> first | cases h; done | skip
  · obtain rfl := Option.some.inj h
    unfold semaphoreWait
    split
    · exact .quiet .idle _ rfl rfl rfl rfl rfl rfl
    · exact .enqueue false
  · obtain rfl := Option.some.inj h
    unfold semaphorePost
    split
    · exact .grant _ _ rfl rfl rfl rfl rfl
    · split
      · exact .ret
      · exact .quiet .idle _ rfl rfl rfl rfl rfl rfl
  · exact Option.some.inj h ▸ conditionWait_move false ok
  · exact Option.some.inj h ▸ conditionWait_move true ok
  · obtain rfl := Option.some.inj h
    unfold conditionSignal
    split
    · exact .grant _ _ rfl rfl rfl rfl rfl
    · exact .ret
  · obtain ⟨g, -, rfl⟩ := Option.map_eq_some_iff.mp h
    exact .quiet .idle _ rfl rfl rfl rfl rfl rfl
  · exact Option.some.inj h ▸ mutexLock_move false
  · exact Option.some.inj h ▸ mutexLock_move true
  · obtain rfl := Option.some.inj h
    unfold mutexTrylock
    split
    · exact .quiet .idle _ rfl rfl rfl rfl rfl rfl
    · exact .ret
  · obtain rfl := Option.some.inj h
    unfold mutexUnlock
    split
    · exact .ret
    · split
      · rename_i w _
        exact .grant w { s with
          queue := { s.queue with head := s.queue.next w, tail := if s.queue.next w = none then none else s.queue.tail }
          granted := Function.update s.granted w true
          qlock := some t
          owner := some w } rfl rfl rfl rfl rfl
      · exact .quiet .idle _ rfl rfl rfl rfl rfl rfl
  · exact Option.some.inj h ▸ destroy_move k

/-- A task that grants nothing moves to a place where it grants nothing. -/
theorem Inv.goto {s₁ : State} {pc : Pc} (h : Inv s) (hg : pc.grants = false)
    (hl : s₁.late = s.late) (hq : s₁.qlock = s.qlock) (hpc : s₁.pc = s.pc) (hw : s₁.waking = s.waking)
    (hd : s₁.destroyed = s.destroyed ∧ s₁.initialized = s.initialized ∨ s₁.destroyed = false ∨
      s₁.initialized = false ∧ ∀ r, (s.pc r).grants = false) : Inv (s₁.goto t pc) := by
  have hne : ∀ r, ((s₁.goto t pc).pc r).grants = true → r ≠ t ∧ (s₁.goto t pc).pc r = s.pc r := fun r hr => by
    rw [goto_pc] at hr ⊢
    split_ifs at hr ⊢ with e
    · simp [hg] at hr
    · exact ⟨e, by rw [hpc]⟩
  refine ⟨hl.trans h.late, fun r w hr => ?_, fun r w hr => ?_, fun hde => ?_⟩
  · have := hne r (by rcases hr with hr | hr <;> rw [hr] <;> rfl)
    exact hq.trans (h.lock r w (this.2 ▸ hr))
  · have := hne r (by rw [hr]; rfl)
    exact hw ▸ h.waking r w (this.2 ▸ hr)
  · have key : s₁.initialized = false ∧ ∀ r, (s.pc r).grants = false := by
      rcases hd with hd | hd | hd
      · have := h.destroyed (hd.1 ▸ hde)
        exact ⟨hd.2.trans this.1, this.2⟩
      · exact absurd hde (by simp [State.goto, hd])
      · exact hd
    refine ⟨key.1, fun r => Bool.eq_false_iff.mpr fun hr => ?_⟩
    have := (hne r hr).2
    rw [this, key.2 r] at hr
    cases hr

/-- A task that ends its call or goes on to wait. -/
theorem Inv.quiet {pc : Pc} (h : Inv s) (hg : pc.grants = false) : Inv (s.goto t pc) :=
  h.goto hg rfl rfl rfl rfl (.inl ⟨rfl, rfl⟩)

theorem Inv.granted (h : Inv s) : Inv (granted k s t) := by
  unfold Destroy.granted
  split
  · exact h.quiet rfl
  · exact h.goto rfl rfl rfl rfl rfl (.inl ⟨rfl, rfl⟩)

/-- A section, of an object that is not destroyed. -/
theorem Inv.enter (h : Inv s) (hm : SectionMove s t c s') (hq : s.qlock = none) (hi : s.initialized = true)
    (hw : c = .destroy → s.waking = []) : Inv s' := by
  have hnd : s.destroyed = false := Bool.eq_false_iff.mpr fun e => by simp [(h.destroyed e).1] at hi
  have hfree : ∀ r w, ¬ (s.pc r = .release w ∨ s.pc r = .store w) := fun r w e => by
    rw [h.lock r w e] at hq; cases hq
  cases hm with
  | grant w s₁ hl hq₁ hpc hwk hd =>
    refine ⟨hl.trans h.late, fun r w' hr => ?_, fun r w' hr => ?_, fun hde => ?_⟩
    · rw [goto_pc] at hr
      split_ifs at hr with e
      · exact e ▸ hq₁
      · exact absurd (hpc ▸ hr) (hfree r w')
    · rw [goto_pc] at hr
      split_ifs at hr
      exact hwk ▸ h.waking r w' (hpc ▸ hr)
    · exact absurd (hd ▸ hde : s.destroyed = true) (by simp [hnd])
  | destroy s₁ hc hl hq₁ hpc hwk hi₁ =>
    refine h.goto rfl hl hq₁ hpc hwk (.inr (.inr ⟨hi₁, fun r => Bool.eq_false_iff.mpr fun hr => ?_⟩))
    cases hpr : s.pc r with
    | release w => exact hfree r w (.inl hpr)
    | store w => exact hfree r w (.inr hpr)
    | unpark w =>
      have := h.waking r w hpr
      rw [hw hc] at this
      cases this
    | _ => rw [hpr] at hr; cases hr
  | quiet pc s₁ hg hl hq₁ hpc hwk hd => exact h.goto hg hl hq₁ hpc hwk (.inr (.inl (hd.trans hnd)))

/-- An access by a call that granted a waiter finds the object in place. -/
theorem Inv.not_destroyed (h : Inv s) (ht : (s.pc t).grants = true) : s.destroyed = false :=
  Bool.eq_false_iff.mpr fun e => by simp [(h.destroyed e).2 t] at ht

theorem touch_eq (h : s.destroyed = false) (f : Field) : s.touch t f = s := by simp [State.touch, h]

theorem Inv.next (h : Inv s) (hs : step k s (.next t) = some s') : Inv s' := by
  simp only [step] at hs
  split at hs
  · rename_i w hp
    have hnd := h.not_destroyed (t := t) (by rw [hp]; rfl)
    have hlk := h.lock t w (.inl hp)
    simp only [touch_eq hnd] at hs
    obtain rfl := Option.some.inj hs
    refine ⟨h.late, fun r w' hr => ?_, fun r w' hr => ?_, fun hde => absurd hde (by simp [State.goto, hnd])⟩
    · rw [goto_pc] at hr
      split_ifs at hr with e
      · exact e ▸ hlk
      · exact h.lock r w' hr
    · rw [goto_pc] at hr
      split_ifs at hr
      exact h.waking r w' hr
  · rename_i w hp
    have hnd := h.not_destroyed (t := t) (by rw [hp]; rfl)
    have hlk := h.lock t w (.inr hp)
    simp only [touch_eq hnd] at hs
    obtain rfl := Option.some.inj hs
    refine ⟨h.late, fun r w' hr => ?_, fun r w' hr => ?_, fun hde => absurd hde (by simp [State.goto, hnd])⟩
    · have hr : (s.goto t (.unpark w)).pc r = .release w' ∨ (s.goto t (.unpark w)).pc r = .store w' := hr
      rw [goto_pc] at hr
      split_ifs at hr with e
      · simp at hr
      · exact absurd (Option.some.inj ((h.lock r w' hr).symm.trans hlk)) e
    · have hr : (s.goto t (.unpark w)).pc r = .unpark w' := hr
      rw [goto_pc] at hr
      split_ifs at hr with e
      · exact e ▸ List.mem_cons_self
      · exact List.mem_cons_of_mem t (h.waking r w' hr)
  · rename_i w hp
    have hnd := h.not_destroyed (t := t) (by rw [hp]; rfl)
    simp only [touch_eq hnd] at hs
    obtain rfl := Option.some.inj hs
    have hend : ∀ s₁ : State, s₁.late = s.late → s₁.qlock = s.qlock → s₁.pc = s.pc → s₁.waking = s.waking.erase t →
        s₁.destroyed = s.destroyed → Inv (s₁.goto t .idle) := by
      intro s₁ hl hq hpc hw hd
      refine ⟨hl.trans h.late, fun r w' hr => ?_, fun r w' hr => ?_,
        fun hde => absurd (hd ▸ hde : s.destroyed = true) (by simp [hnd])⟩
      · rw [goto_pc] at hr
        split_ifs at hr
        · simp at hr
        · exact hq.trans (h.lock r w' (hpc ▸ hr))
      · rw [goto_pc] at hr
        split_ifs at hr with e
        exact hw ▸ (List.mem_erase_of_ne e).mpr (h.waking r w' (hpc ▸ hr))
    split
    · exact hend _ rfl rfl rfl rfl rfl
    · exact hend _ rfl rfl rfl rfl rfl
  · cases hs

/-- The step lemma. -/
theorem Inv.step (h : Inv s) (ha : settled s a = true) (hs : step k s a = some s') : Inv s' := by
  cases a with
  | call t c =>
    simp only [Destroy.step] at hs
    split_ifs at hs <;> obtain rfl := Option.some.inj hs
    · exact h.quiet rfl
    · exact h
  | enter t ok fuel =>
    simp only [Destroy.step] at hs
    split at hs <;> [skip; cases hs]
    rename_i c hp
    split_ifs at hs with hq
    simp only [settled, hp, Bool.and_eq_true, Bool.or_eq_true, bne_iff_ne, ne_eq, Pc.enter.injEq,
      decide_eq_true_eq] at ha
    exact h.enter (section_move hs) hq ha.1 fun hc => ha.2.resolve_left fun hn => hn hc
  | poll t =>
    simp only [Destroy.step] at hs
    split_ifs at hs <;> obtain rfl := Option.some.inj hs
    · exact h.granted
    · exact h
  | recheck t timeout fuel =>
    simp only [Destroy.step] at hs
    split_ifs at hs
    · exact Option.some.inj hs ▸ h.granted
    · obtain ⟨r, -, rfl⟩ := Option.map_eq_some_iff.mp hs
      exact h.goto rfl rfl rfl rfl rfl (.inl ⟨rfl, rfl⟩)
    · exact Option.some.inj hs ▸ h
  | next t => exact h.next hs

/-- The run lemma. -/
theorem inv_of_reach {n : Nat} {p : Bool} (h : (machine k n p).ReachBy (fun s a => settled s a = true) s) : Inv s := by
  refine h.invariant (I := Inv) ?_ ?_
  · rintro _ rfl
    exact ⟨rfl, fun t w hr => by simp [State.initial] at hr, fun t w hr => by simp [State.initial] at hr, nofun⟩
  · exact fun s s' a _ hi ha hs => hi.step ha hs

/-- Destroying the object is safe where it waits for the calls that granted: in
every run in which no such call stands between its release of `qlock` and its
read of `ops` when `destroy` takes `qlock`, and no other call takes the `qlock` of
the destroyed object, no call that granted a waiter touches the object after
`destroy` has returned `OK`. -/
theorem destroy_safe_of_settled (k : Kind) (count : Nat) (parkUntil : Bool) (s : State)
    (h : (machine k count parkUntil).ReachBy (fun s a => settled s a = true) s) : s.late = [] := (inv_of_reach h).late

/-- A semaphore is posted to and destroyed after both calls have returned. -/
theorem destroy_safe_of_settled_post : ∃ s, (machine .semaphore 0 true).ReachBy (fun s a => settled s a = true) s ∧
    s.destroyed = true ∧ s.late = [] := by
  obtain ⟨s, hr, hs⟩ := (machine .semaphore 0 true).exists_reachBy_of_run (C := fun s a => settled s a = true)
    (c := settled) (fun _ _ h => h) (s := State.initial 0 true)
    (l := [.call 0 .wait, .enter 0 true 0, .call 1 .post, .enter 1 true 0, .poll 0, .next 1, .next 1, .next 1,
      .call 0 .destroy, .enter 0 true 0]) (p := fun s => s.destroyed) rfl (by decide +kernel)
  exact ⟨s, hr, hs, destroy_safe_of_settled _ _ _ s hr⟩

/-- The waiter of a post, a signal or an unlock that does not park returns and
destroys the object before the call that granted it reads `ops`. -/
theorem destroy_unsafe_after_grant :
    (∃ s, (machine .semaphore 0 true).Reach s ∧ s.late = [(1, .ops)]) ∧
    (∃ s, (machine .condition 0 true).Reach s ∧ s.late = [(1, .ops)]) ∧
    ∃ s, (machine .mutex 0 true).Reach s ∧ s.late = [(1, .ops)] := by
  refine ⟨?_, ?_, ?_⟩
  · obtain ⟨s, hr, hs⟩ := (machine .semaphore 0 true).exists_reach_of_run (s := State.initial 0 true)
      (l := [.call 0 .wait, .enter 0 true 0, .call 1 .post, .enter 1 true 0, .next 1, .next 1, .poll 0,
        .call 0 .destroy, .enter 0 true 0, .next 1]) (p := fun s => s.late = [(1, .ops)]) rfl (by decide +kernel)
    exact ⟨s, hr, of_decide_eq_true hs⟩
  · obtain ⟨s, hr, hs⟩ := (machine .condition 0 true).exists_reach_of_run (s := State.initial 0 true)
      (l := [.call 0 .wait, .enter 0 true 0, .call 1 .post, .enter 1 true 0, .next 1, .next 1, .poll 0,
        .call 0 .destroy, .enter 0 true 0, .next 1]) (p := fun s => s.late = [(1, .ops)]) rfl (by decide +kernel)
    exact ⟨s, hr, of_decide_eq_true hs⟩
  · obtain ⟨s, hr, hs⟩ := (machine .mutex 0 true).exists_reach_of_run (s := State.initial 0 true)
      (l := [.call 1 .wait, .enter 1 true 0, .call 0 .wait, .enter 0 true 0, .call 1 .post, .enter 1 true 0, .next 1,
        .next 1, .poll 0, .call 0 .post, .enter 0 true 0, .call 0 .destroy, .enter 0 true 0, .next 1])
      (p := fun s => s.late = [(1, .ops)]) rfl (by decide +kernel)
    exact ⟨s, hr, of_decide_eq_true hs⟩

end Dlsmc.Destroy
