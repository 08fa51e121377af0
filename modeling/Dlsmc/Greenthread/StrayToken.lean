import Dlsmc.Greenthread.Tokens

/-!
# Tokens left over from an earlier wait

A thread that grants a mutex, a semaphore, an event or the result of a blocking
call to a task unparks it afterwards. The task may see the grant before the
unpark, go on without a park, and find the token in a later wait:
`dlsm_gt_sleep_until` and `dlsm_gt_task_wait` take the end of one park for the
event they wait for, and return `DLSM_GT_E_CANCELLED`.

If a task has no token when it calls one of the two (`TokenFree`), then a token
that it gets during the call is that of the timer or of the task it waits for
(`Clean`).
-/

namespace Dlsmc.Timer

/-- `dlsm_gt_sleep_until` and `dlsm_gt_task_wait` do not return `DLSM_GT_E_CANCELLED`,
and a sleep that returns `DLSM_OK` has reached its deadline. -/
def Ret.Fair : Ret → Prop
  | .sleep _ d st clock => st ≠ .cancelled ∧ (st = .ok → d ≤ clock)
  | .taskWait _ _ st => st ≠ .cancelled
  | .tick _ _ _ _ => True

/-- User code does not call `dlsm_gt_unpark` and `dlsm_gt_task_cancel`, and the
timer is stopped when no task is left. -/
def Cooperative (s : State) : Act → Prop
  | .call _ (.unpark _) | .call _ (.taskCancel _) => False
  | .requestStop => s.live = []
  | _ => True

/-- A task that calls `dlsm_gt_sleep_until` or `dlsm_gt_task_wait` has no token:
its `unpark_pending` is not set, and no thread is about to unpark it. -/
def TokenFree (s : State) : Act → Prop
  | .call (.task t) (.sleepUntil _) | .call (.task t) (.taskWait _) => tokens s t = 0
  | _ => True

/-- A task is in a `dlsm_gt_sleep_until` of its own, not yet at its end. -/
def Pc.inSleep : Pc → Bool
  | .sleepCheck _ .user | .sleepClock _ .user | .register (.sleep _ .user) => true
  | .park (.timer _ (.sleep _ .user)) | .parked (.timer _ (.sleep _ .user)) => true
  | _ => false

/-- What holds of a sleep or of the wait for a task, where task `t` stands in it. -/
def CleanPc (s : State) (t : Nat) : Pc → Prop
  | .sleepCheck _ .user | .sleepClock _ .user | .register (.sleep _ .user) => tokens s t = 0
  | .park (.timer n (.sleep d .user)) | .parked (.timer n (.sleep d .user)) =>
    (s.nodeState n = .waiting → tokens s t = 0) ∧ s.nodeState n ≠ .cancelled ∧ s.deadline n = d
  | .finish n (.sleep d .user) => s.nodeState n = .expired ∧ s.deadline n = d
  | .park (.done u) | .parked (.done u) =>
    (t ∈ s.completionWaiters u ∧ tokens s t = 0) ∨ s.completionDone u = true
  | .waitEnd u => s.completionDone u = true
  | .cancelTimer _ (.finish _ (.sleep _ .user)) | .unparks _ (.finish _ (.sleep _ .user)) => False
  | _ => True

structure Clean (t : Nat) (s : State) : Prop where
  ok : CleanPc s t (s.pc (.task t))
  requested : s.cancelRequested t = false
  running : t ∈ s.live → s.timerStop = false
  live : (s.pc (.task t)).inSleep = true → t ∈ s.live
  cancels : ∀ a k, a ≠ .task t → s.pc a = .cancelTimer t k → ∃ k', k = .unlock k'
  log : ∀ r, r ∈ s.log → r.task = t → r.Fair

/-- A step that neither cancels nor stops anything. -/
structure Aside (t : Nat) (s s' : State) : Prop where
  requested : s'.cancelRequested t = s.cancelRequested t
  timerStop : s'.timerStop = s.timerStop
  live : t ∈ s'.live → t ∈ s.live
  cancels : ∀ a k, a ≠ .task t → s'.pc a = .cancelTimer t k → s.pc a = .cancelTimer t k ∨ ∃ k', k = .unlock k'
  log : ∀ r, r ∈ s'.log → r ∈ s.log ∨ (r.task = t → r.Fair)

section Clean

variable {s s' s₁ : State} {a : Actor} {t n u : Nat} {c : Pc}

theorem clean_initial (t : Nat) : Clean t State.initial := by
  refine ⟨trivial, rfl, fun _ => rfl, by simp [State.initial, Pc.inSleep], fun a k _ hpc => ?_,
    by simp [State.initial]⟩
  simp only [State.initial] at hpc
  split at hpc <;> cases hpc

/-- With fewer tokens, and when the task that is waited for has ended. -/
theorem CleanPc.congr {p : Pc} (h : CleanPc s t p) (ht : tokens s' t ≤ tokens s t)
    (hn : ∀ n, p.node = some n → s'.nodeState n = s.nodeState n ∧ s'.deadline n = s.deadline n)
    (hw : ∀ u, t ∈ s.completionWaiters u → t ∈ s'.completionWaiters u ∨ s'.completionDone u = true)
    (hd : ∀ u, s.completionDone u = true → s'.completionDone u = true) : CleanPc s' t p := by
  have hzero : tokens s t = 0 → tokens s' t = 0 := by omega
  have hwait : ∀ u, (t ∈ s.completionWaiters u ∧ tokens s t = 0) ∨ s.completionDone u = true →
      (t ∈ s'.completionWaiters u ∧ tokens s' t = 0) ∨ s'.completionDone u = true := by
    rintro u (⟨hm, h0⟩ | hdone)
    · exact (hw u hm).imp_left fun hm => ⟨hm, hzero h0⟩
    · exact .inr (hd u hdone)
  unfold CleanPc at h ⊢
  split at h
  · exact hzero h
  · exact hzero h
  · exact hzero h
  · obtain ⟨h₁, h₂⟩ := hn _ rfl
    rw [h₁, h₂]
    exact ⟨fun hs => hzero (h.1 hs), h.2⟩
  · obtain ⟨h₁, h₂⟩ := hn _ rfl
    rw [h₁, h₂]
    exact ⟨fun hs => hzero (h.1 hs), h.2⟩
  · obtain ⟨h₁, h₂⟩ := hn _ rfl
    rw [h₁, h₂]
    exact h
  · exact hwait _ h
  · exact hwait _ h
  · exact hd _ h
  · exact h
  · exact h
  · trivial

/-- Nothing is said of a task that waits at a ticker or an object. -/
theorem CleanPc.of_place {p : Pc} (h : (∃ k, p.place = .tick k) ∨ ∃ o, p.place = .sync o) : CleanPc s t p := by
  unfold CleanPc
  split <;> simp [Pc.place, Caller.place, Wait.place, Block.place, After.place] at h ⊢

theorem Frame.aside (h : Frame t s s') : Aside t s s' :=
  ⟨h.requested, h.timerStop, h.live.mp, fun a k _ hpc => .inl (h.cancels a k hpc), fun r hr =>
    (h.log r hr).imp_right fun hne he => absurd he hne⟩

theorem Clean.of_aside (h : Clean t s) (hA : Aside t s s') (hok : CleanPc s' t (s'.pc (.task t)))
    (hl : (s'.pc (.task t)).inSleep = true → t ∈ s'.live) : Clean t s' where
  ok := hok
  requested := hA.requested.trans h.requested
  running := fun ht => hA.timerStop.trans (h.running (hA.live ht))
  live := hl
  cancels := fun a k ha hpc => (hA.cancels a k ha hpc).elim (h.cancels a k ha) id
  log := fun r hr ht => (hA.log r hr).elim (fun hr => h.log r hr ht) fun hf => hf ht

theorem Clean.frame (h : Clean t s) (hf : Frame t s s') : Clean t s' := by
  refine h.of_aside hf.aside ?_ ?_
  · rw [hf.pc]
    exact h.ok.congr (Nat.le_of_eq hf.tokens) hf.node (fun u hm => .inl ((hf.waiters u).mpr hm)) hf.done
  · rw [hf.pc]
    exact fun hs => hf.live.mpr (h.live hs)

/-! ## Steps that are aside -/

/-- What `Aside` depends on. -/
def State.aside (s : State) : (Actor → Pc) × (Nat → Bool) × Bool × List Nat × List Ret :=
  (s.pc, s.cancelRequested, s.timerStop, s.live, s.log)

theorem Aside.of_eq (h : s'.aside = s.aside) : Aside t s s' := by
  simp only [State.aside, Prod.mk.injEq] at h
  obtain ⟨h₁, h₂, h₃, h₄, h₅⟩ := h
  constructor <;> simp_all

theorem Aside.trans {s'' : State} (h : Aside t s s') (h' : Aside t s' s'') : Aside t s s'' where
  requested := h'.requested.trans h.requested
  timerStop := h'.timerStop.trans h.timerStop
  live := fun hl => h.live (h'.live hl)
  cancels := fun a k ha hpc => (h'.cancels a k ha hpc).elim (h.cancels a k ha) .inr
  log := fun r hr => (h'.log r hr).elim (h.log r) .inr

theorem Aside.goto (hc : a = .task t ∨ ∀ k, c = .cancelTimer t k → ∃ k', k = .unlock k') (h : Aside t s s₁) :
    Aside t s (setPc s₁ a c) := by
  refine h.trans ⟨rfl, rfl, id, fun b k hb hpc => ?_, fun r hr => .inl hr⟩
  by_cases hba : b = a
  · subst hba
    rw [show (setPc s₁ b c).pc b = c from Function.update_self _ _ _] at hpc
    exact .inr (hc.elim (fun he => absurd he hb) fun hc => hc k hpc)
  · rw [show (setPc s₁ a c).pc b = s₁.pc b from Function.update_of_ne hba _ _] at hpc
    exact .inl hpc

/-- To somewhere else than `timer_cancel_task_wait` of the task. -/
theorem Aside.goto_ne (hc : ∀ k, c ≠ .cancelTimer t k) (h : Aside t s s₁) : Aside t s (setPc s₁ a c) :=
  .goto (.inr fun k he => absurd he (hc k)) h

theorem Aside.willUnpark {l : List Nat} {k : After} (h : Aside t s s₁) : Aside t s (willUnpark s₁ a l k) := by
  unfold Timer.willUnpark
  split
  · exact .goto_ne (After.pc_ne_cancelTimer k) h
  · exact .goto_ne (by simp) (h.trans (.of_eq rfl))

theorem Aside.unpark (h : Aside t s s₁) : Aside t s (unpark s₁ u) := by
  unfold Timer.unpark
  split
  · exact h
  · split
    · rename_i b hb
      exact .goto_ne (by cases b <;> simp [Block.resume]) h
    · exact h.trans (.of_eq rfl)

theorem Aside.cancelNode : Aside t s (cancelNode s n) := by
  refine .of_eq ?_
  unfold Timer.cancelNode Timer.leave signal
  dsimp only
  split_ifs <;> (try split) <;> rfl

theorem Aside.timerCancelTaskWait {k : After} : Aside t s (timerCancelTaskWait s a u k) := by
  unfold Timer.timerCancelTaskWait
  split
  · split
    · exact .willUnpark .cancelNode
    · exact .goto_ne (After.pc_ne_cancelTimer k) (.of_eq rfl)
  · exact .goto_ne (After.pc_ne_cancelTimer k) (.of_eq rfl)

theorem Aside.cancelWaiter {k : Nat} (h : Aside t s s₁) : Aside t s (cancelWaiter s₁ a k) := by
  unfold Timer.cancelWaiter
  split
  · exact .goto_ne (by simp) h
  · refine .goto (.inr fun k' he => ?_) h
    simp only [Pc.cancelTimer.injEq] at he
    exact ⟨k, he.2.symm⟩

theorem Aside.tickerReset {k interval now : Nat} (hs : tickerReset s a k interval now = some s') : Aside t s s' := by
  unfold Timer.tickerReset at hs
  dsimp only at hs
  split_ifs at hs
  · exact Option.some.inj hs ▸ .goto_ne (by simp) (.of_eq rfl)
  all_goals exact Option.some.inj hs ▸ .cancelWaiter (.of_eq rfl)

theorem Aside.log_append {r : Ret} (hr : r.task = t → r.Fair) (h : Aside t s s₁) :
    Aside t s { s₁ with log := s₁.log ++ [r] } := by
  refine h.trans ⟨rfl, rfl, id, fun _ _ _ h => .inl h, fun r' hr' => ?_⟩
  rcases List.mem_append.mp hr' with hr' | hr'
  · exact .inl hr'
  · exact .inr (List.mem_singleton.mp hr' ▸ hr)

/-! ## Steps of other threads -/

/-- A park ends with a token only when the timer has expired, or the task waited for has ended. -/
theorem CleanPc.resume {b : Block} (h : CleanPc s t (.parked b)) (ht : 0 < tokens s t)
    (hn : s'.nodeState = s.nodeState) (hd : s'.deadline = s.deadline) (hdone : s'.completionDone = s.completionDone) :
    CleanPc s' t b.resume := by
  cases b with
  | timer n w =>
    cases w with
    | tick k d g => trivial
    | sleep d c =>
      cases c with
      | timedlock i => trivial
      | user =>
        obtain ⟨h₁, h₂, h₃⟩ := h
        have hw : s.nodeState n ≠ .waiting := fun he => by
          have := h₁ he
          omega
        refine ⟨?_, hd ▸ h₃⟩
        rw [hn]
        cases hs : s.nodeState n with
        | waiting => exact absurd hs hw
        | expired => rfl
        | cancelled => exact absurd hs h₂
  | sync o => trivial
  | done u =>
    obtain ⟨-, h0⟩ | hu := h
    · omega
    · show s'.completionDone u = true
      rwa [hdone]

/-- The owed unpark of task `t` is executed. -/
theorem Clean.unparked (h : Clean t s) (ho : Owes s) {l : List Nat} {k : After} (ha : a ≠ .task t)
    (hpc : s.pc a = .unparks (t :: l) k) : Clean t (unparkStep s a (t :: l) k) := by
  obtain ⟨hpos, herase⟩ := ho.erase_owed hpc
  have h₁ : tokens { s with owed := s.owed.erase (a, t) } t < tokens s t := by
    simp only [tokens, herase]
    omega
  have hcongr {s₂ : State} (hp : s₂.pc (.task t) = s.pc (.task t)) (ht : tokens s₂ t ≤ tokens s t)
      (hA : Aside t s s₂) (hn : s₂.nodeState = s.nodeState) (hd : s₂.deadline = s.deadline)
      (hw : s₂.completionWaiters = s.completionWaiters) (hdone : s₂.completionDone = s.completionDone)
      (hl : s₂.live = s.live) : Clean t s₂ := by
    refine h.of_aside hA ?_ ?_
    · rw [hp]
      exact h.ok.congr ht (fun n _ => by rw [hn, hd]; exact ⟨rfl, rfl⟩) (fun u hm => .inl (hw ▸ hm))
        fun u hu => hdone ▸ hu
    · rw [hp, hl]
      exact h.live
  have hgo : Clean t (unpark { s with owed := s.owed.erase (a, t) } t) := by
    unfold unpark
    split
    · exact hcongr rfl (Nat.le_of_lt h₁) (.of_eq rfl) rfl rfl rfl rfl rfl
    · split
      · rename_i b hb
        have hok := h.ok
        rw [hb] at hok
        refine h.of_aside (.goto_ne (by cases b <;> simp [Block.resume]) (.of_eq rfl)) ?_ ?_
        · rw [show (setPc _ (.task t) b.resume).pc (.task t) = b.resume from Function.update_self _ _ _]
          exact hok.resume (by omega) rfl rfl rfl
        · rw [show (setPc _ (.task t) b.resume).pc (.task t) = b.resume from Function.update_self _ _ _]
          cases b <;> simp [Block.resume, Pc.inSleep]
      · refine hcongr rfl ?_ (.of_eq rfl) rfl rfl rfl rfl rfl
        simp only [tokens, herase, Function.update_self, Bool.toNat_true]
        omega
  unfold unparkStep
  refine hgo.frame (.goto ha (fun k' => ?_) (.refl t _))
  split
  · exact After.pc_ne_cancelTimer k k'
  · simp

/-- Another thread goes on after a change that does not concern the sleeps and waits of task `t`, which is at a
ticker or an object. -/
theorem Clean.of_place (h : Clean t s)
    (hp : (∃ k, (s.pc (.task t)).place = .tick k) ∨ ∃ o, (s.pc (.task t)).place = .sync o)
    (hA : Aside t s s') (hpc : s'.pc (.task t) = s.pc (.task t)) : Clean t s' := by
  refine h.of_aside hA (.of_place (by rwa [hpc])) fun hs => ?_
  rw [hpc] at hs
  unfold Pc.inSleep at hs
  split at hs <;> simp_all [Pc.place, Caller.place, Wait.place, Block.place]

theorem pc_setPc_of_ne (ha : a ≠ .task t) : (setPc s a c).pc (.task t) = s.pc (.task t) :=
  Function.update_of_ne (Ne.symm ha) _ _

theorem pc_willUnpark_of_ne {l : List Nat} {k : After} (ha : a ≠ .task t) :
    (willUnpark s a l k).pc (.task t) = s.pc (.task t) := by
  unfold willUnpark
  split <;> exact pc_setPc_of_ne ha

theorem pc_cancelWaiter_of_ne {k : Nat} (ha : a ≠ .task t) : (cancelWaiter s a k).pc (.task t) = s.pc (.task t) := by
  unfold cancelWaiter
  split <;> exact pc_setPc_of_ne ha

/-- The timer of task `t` is found by a reset or a stop, of a ticker that it waits at. -/
theorem Clean.cancelled (h : Clean t s) (hp : Places s.places) (ha : a ≠ .task t) {k : After}
    (hpc : s.pc a = .cancelTimer t k) : Clean t (timerCancelTaskWait s a t k) := by
  obtain ⟨k', rfl⟩ := h.cancels a k ha hpc
  have hd : s.places.deed a = .cancel t k' := by rw [show s.places.deed a = (s.pc a).deed from rfl, hpc]; rfl
  refine h.of_place (.inl ⟨k', (hp.waiter k' t).mp (hp.cancel a t k' hd)⟩) .timerCancelTaskWait ?_
  unfold timerCancelTaskWait
  split
  · split
    · rw [pc_willUnpark_of_ne ha, pc_cancelNode]
    · exact pc_setPc_of_ne ha
  · exact pc_setPc_of_ne ha

theorem Clean.reset (h : Clean t s) (hp : Places s.places) (ha : a ≠ .task t) {k interval now : Nat}
    (hw : (s.ticker k).waiter = some t) (hs : tickerReset s a k interval now = some s') : Clean t s' := by
  refine h.of_place (.inl ⟨k, (hp.waiter k t).mp hw⟩) (.tickerReset hs) ?_
  unfold tickerReset at hs
  dsimp only at hs
  split_ifs at hs
  · exact Option.some.inj hs ▸ pc_setPc_of_ne ha
  all_goals exact Option.some.inj hs ▸ pc_cancelWaiter_of_ne ha

/-- A wait with a timer is that of a ticker, of a timed lock, or of a sleep of the task's own. -/
theorem Wait.place_or (w : Wait) :
    ((∃ k, w.place = .tick k) ∨ ∃ o, w.place = .sync o) ∨ ∃ d, w = .sleep d .user := by
  cases w with
  | tick k d g => exact .inl (.inl ⟨k, rfl⟩)
  | sleep d c =>
    cases c with
    | user => exact .inr ⟨d, rfl⟩
    | timedlock i => exact .inl (.inr ⟨_, rfl⟩)

/-- Where a task is that has a node. -/
theorem Clean.of_node (h : Clean t s) (hn : (s.pc (.task t)).node = some n) :
    ((∃ k, (s.pc (.task t)).place = .tick k) ∨ ∃ o, (s.pc (.task t)).place = .sync o) ∨
      ∃ d, s.pc (.task t) = .park (.timer n (.sleep d .user)) ∨ s.pc (.task t) = .parked (.timer n (.sleep d .user)) ∨
        s.pc (.task t) = .finish n (.sleep d .user) := by
  have hok := h.ok
  cases hp : s.pc (.task t) with rw [hp] at hn hok
  | park b =>
    cases b with
    | timer m w =>
      obtain rfl : m = n := Option.some.inj hn
      exact w.place_or.imp id fun ⟨d, hd⟩ => ⟨d, .inl (hd ▸ rfl)⟩
    | _ => cases hn
  | parked b =>
    cases b with
    | timer m w =>
      obtain rfl : m = n := Option.some.inj hn
      exact w.place_or.imp id fun ⟨d, hd⟩ => ⟨d, .inr (.inl (hd ▸ rfl))⟩
    | _ => cases hn
  | finish m w =>
    obtain rfl : m = n := Option.some.inj hn
    exact w.place_or.imp id fun ⟨d, hd⟩ => ⟨d, .inr (.inr (hd ▸ rfl))⟩
  | tickStale m k d g => exact .inl (.inl ⟨k, rfl⟩)
  | cancelTimer u k =>
    cases k with
    | finish m w =>
      obtain hw | ⟨d, rfl⟩ := w.place_or
      · exact .inl hw
      · exact hok.elim
    | _ => cases hn
  | unparks l k =>
    cases k with
    | finish m w =>
      obtain hw | ⟨d, rfl⟩ := w.place_or
      · exact .inl hw
      · exact hok.elim
    | _ => cases hn
  | _ => cases hn

/-- The timer of task `t` expires. -/
theorem Clean.timerLoop (h : Clean t s) (hi : Inv s.view) {e : Env} (hc : 0 < s.heap.count)
    (ht : s.nodeTask (s.heap.arr 0) = t) : Clean t (timerLoop s e) := by
  have hn := (hi.mem (s.heap.arr 0)).mp ⟨0, hc, rfl⟩
  have hnode : (s.pc (.task t)).node = some (s.heap.arr 0) := by
    have := hi.points (s.heap.arr 0) hn.1
    rw [show s.view.nodeTask (s.heap.arr 0) = t from ht] at this
    exact (hi.timerNode t).symm.trans this
  have hA : Aside t s (Timer.timerLoop s e) ∧ (Timer.timerLoop s e).pc (.task t) = s.pc (.task t) := by
    unfold Timer.timerLoop
    dsimp only
    split_ifs
    · exact ⟨.willUnpark (.of_eq rfl), pc_willUnpark_of_ne (by simp)⟩
    · exact ⟨.goto_ne (by simp) (.of_eq rfl), pc_setPc_of_ne (by simp)⟩
    · exact ⟨.willUnpark (.of_eq rfl), pc_willUnpark_of_ne (by simp)⟩
    · exact ⟨.goto_ne (by simp) (.of_eq rfl), pc_setPc_of_ne (by simp)⟩
  rcases h.of_node hnode with hp | ⟨d, hp⟩
  · exact h.of_place hp hA.1 hA.2
  · -- the task sleeps, so that it is live and the timer is not stopped
    have hok := h.ok
    have hsleep : (s.pc (.task t)).inSleep = true ∧ s.deadline (s.heap.arr 0) = d := by
      obtain hp | hp | hp := hp <;> rw [hp] at hok ⊢
      · exact ⟨rfl, hok.2.2⟩
      · exact ⟨rfl, hok.2.2⟩
      · have := hok.1
        rw [show s.nodeState (s.heap.arr 0) = .waiting from hn.2] at this
        cases this
    have hrun := h.running (h.live hsleep.1)
    by_cases hexp : gtNow s e ≠ 0 ∧ s.deadline (s.heap.arr 0) ≤ gtNow s e
    · have hl : Timer.timerLoop s e =
          willUnpark (leave s 0 (s.heap.arr 0) .expired) .timer [s.nodeTask (s.heap.arr 0)] .timer := by
        unfold Timer.timerLoop
        dsimp only
        rw [if_neg (by simp [hrun]), if_neg (by omega), if_pos hexp]
      have hnew : CleanPc (Timer.timerLoop s e) t (.parked (.timer (s.heap.arr 0) (.sleep d .user))) := by
        rw [hl]
        unfold willUnpark
        simp only [List.cons_ne_nil, if_false]
        exact ⟨by simp [setPc, leave], by simp [setPc, leave], hsleep.2⟩
      refine h.of_aside hA.1 ?_ ?_
      · rw [hA.2]
        obtain hp | hp | hp := hp <;> rw [hp] at hok ⊢
        · exact hnew
        · exact hnew
        · rw [hp] at hsleep
          cases hsleep.1
      · rw [hA.2, hl]
        unfold willUnpark
        simp only [List.cons_ne_nil, if_false]
        exact h.live
    · unfold Timer.timerLoop
      dsimp only
      rw [if_neg (by simp [hrun]), if_neg (by omega), if_neg hexp]
      exact h.frame (.goto (by simp) (by simp) (.refl t s))

/-- The task that task `t` waits for ends. -/
theorem Clean.completed (h : Clean t s) (hp : Places s.places) (ha : a ≠ .task t) (hm : t ∈ s.completionWaiters u) :
    Clean t (willUnpark { s with
      completionDone := Function.update s.completionDone u true
      completionWaiters := Function.update s.completionWaiters u [] } a (s.completionWaiters u) .ret) := by
  have hplace : (s.pc (.task t)).place = .wait u := hp.waits u t hm
  have hdone : ({ s with
      completionDone := Function.update s.completionDone u true
      completionWaiters := Function.update s.completionWaiters u [] } : State).completionDone u = true :=
    Function.update_self _ _ _
  have hok {s₁ : State} (hd : s₁.completionDone u = true) : CleanPc s₁ t (s.pc (.task t)) ∧
      (s.pc (.task t)).inSleep = false := by
    unfold CleanPc Pc.inSleep
    split <;> simp_all [Pc.place, Caller.place, Wait.place, Block.place, After.place]
  refine h.of_aside (.willUnpark (.of_eq rfl)) ?_ ?_
  · rw [pc_willUnpark_of_ne ha]
    refine (hok ?_).1
    unfold willUnpark
    split <;> exact hdone
  · rw [pc_willUnpark_of_ne ha, (hok hdone).2]
    simp

/-- The steps of other threads. -/
theorem Clean.next_other {e : Env} (h : Clean t s) (hi : Inv s.view) (hp : Places s.places) (ho : Owes s)
    (ha : a ≠ .task t) (hs : next s a e = some s') : Clean t s' := by
  by_cases h₁ : ∃ l k, s.pc a = .unparks (t :: l) k
  · obtain ⟨l, k, hpc⟩ := h₁
    have hs' : some (unparkStep s a (t :: l) k) = some s' := by
      cases a <;> simpa only [next, hpc] using hs
    exact Option.some.inj hs' ▸ h.unparked ho ha hpc
  by_cases h₂ : ∃ k, s.pc a = .cancelTimer t k
  · obtain ⟨k, hpc⟩ := h₂
    have hs' : some (timerCancelTaskWait s a t k) = some s' := by
      cases a <;> simpa only [next, hpc] using hs
    exact Option.some.inj hs' ▸ h.cancelled hp ha hpc
  by_cases h₃ : ∃ k interval now, s.pc a = .reset k interval now ∧ (s.ticker k).waiter = some t
  · obtain ⟨k, interval, now, hpc, hw⟩ := h₃
    have hs' : tickerReset s a k interval now = some s' := by
      cases a <;> simpa only [next, hpc] using hs
    exact h.reset hp ha hw hs'
  by_cases h₄ : a = .timer ∧ s.pc a = .timerLoop ∧ 0 < s.heap.count ∧ s.nodeTask (s.heap.arr 0) = t
  · obtain ⟨rfl, hpc, hcount, ht⟩ := h₄
    have hs' : some (Timer.timerLoop s e) = some s' := by
      simpa only [next, hpc] using hs
    exact Option.some.inj hs' ▸ h.timerLoop hi hcount ht
  by_cases h₅ : s.pc a = .work t
  · have hs' : some (willUnpark { s with granted := Function.update s.granted t true } a [t] .ret) = some s' := by
      cases a <;> simpa only [next, h₅] using hs
    have hw := (hp.work a t (by rw [show s.places.deed a = (s.pc a).deed from rfl, h₅]; rfl)).1
    exact Option.some.inj hs' ▸ h.of_place (.inr ⟨_, hw⟩) (.willUnpark (.of_eq rfl)) (pc_willUnpark_of_ne ha)
  by_cases h₆ : ∃ u, a = .task u ∧ s.pc a = .complete ∧ t ∈ s.completionWaiters u
  · obtain ⟨u, rfl, hpc, hm⟩ := h₆
    simp only [next, hpc] at hs
    exact Option.some.inj hs ▸ h.completed hp ha hm
  refine h.frame (frame_next hi hp ⟨ha, fun l k hpc he => ?_, fun k hpc => h₂ ⟨k, hpc⟩, h₅,
    fun u hu hpc hm => h₆ ⟨u, hu, hpc, hm⟩, fun ht hpc hcount he => h₄ ⟨ht, hpc, hcount, he⟩,
    fun k interval now hpc hw => h₃ ⟨k, interval, now, hpc, hw⟩⟩ hs)
  cases l with
  | nil => cases he
  | cons u l =>
    obtain rfl : u = t := by simpa using he
    exact h₁ ⟨l, k, hpc⟩

/-! ## Calls -/

theorem Aside.mutexLock {i : Nat} (hc : ∀ k, c ≠ .cancelTimer t k) : Aside t s (mutexLock s u i c) := by
  unfold Timer.mutexLock
  split
  · exact .of_eq rfl
  · split_ifs
    · exact .of_eq rfl
    · exact .goto_ne hc (.of_eq rfl)

theorem aside_taskCall {c : Call} (hs : taskCall s u c = some s') : Aside t s s' := by
  cases c with simp only [taskCall, reduceCtorEq] at hs
  | sleepUntil d => exact Option.some.inj hs ▸ .goto_ne (by simp) (.of_eq rfl)
  | tickerWait k =>
    split_ifs at hs
    · exact Option.some.inj hs ▸ .log_append (fun _ => trivial) (.of_eq rfl)
    · exact Option.some.inj hs ▸ .goto_ne (by simp) (.of_eq rfl)
  | taskWait v =>
    split_ifs at hs
    · exact Option.some.inj hs ▸ .log_append (fun _ => by simp [Ret.Fair]) (.of_eq rfl)
    · exact Option.some.inj hs ▸ .log_append (fun _ => by simp [Ret.Fair]) (.of_eq rfl)
    · exact Option.some.inj hs ▸ .goto_ne (by simp) (.of_eq rfl)
  | lock i => exact Option.some.inj hs ▸ .mutexLock (by simp)
  | timedlock i d =>
    split_ifs at hs
    · exact Option.some.inj hs ▸ .of_eq rfl
    · exact Option.some.inj hs ▸ .mutexLock (by simp)
  | unlock i =>
    refine Option.some.inj hs ▸ ?_
    unfold mutexUnlock
    split_ifs
    · exact .of_eq rfl
    · split
      · exact .of_eq rfl
      · exact .willUnpark (.of_eq rfl)
  | semaphoreWait i =>
    refine Option.some.inj hs ▸ ?_
    unfold semaphoreWait
    split_ifs
    · exact .of_eq rfl
    · exact .goto_ne (by simp) (.of_eq rfl)
  | eventWait i =>
    refine Option.some.inj hs ▸ ?_
    unfold eventWait
    split_ifs
    · exact .of_eq rfl
    · exact .goto_ne (by simp) (.of_eq rfl)
  | blockingCall => exact Option.some.inj hs ▸ .goto_ne (by simp) (.of_eq rfl)
  | exit =>
    exact Option.some.inj hs ▸ .goto_ne (by simp) ⟨rfl, rfl, List.mem_of_mem_erase, fun _ _ _ h => .inl h,
      fun _ h => .inl h⟩

theorem aside_anyCall {c : Call} (hc : ∀ u, c ≠ .taskCancel u) (hs : anyCall s a c = some s') : Aside t s s' := by
  cases c with simp only [anyCall, reduceCtorEq] at hs
  | tickerReset k interval =>
    split_ifs at hs
    · exact Option.some.inj hs ▸ .of_eq rfl
    · exact Option.some.inj hs ▸ .goto_ne (by simp) (.of_eq rfl)
  | tickerStop k =>
    split_ifs at hs
    exact Option.some.inj hs ▸ .cancelWaiter (.of_eq rfl)
  | taskCancel u => exact absurd rfl (hc u)
  | unpark u => exact Option.some.inj hs ▸ .willUnpark (.of_eq rfl)
  | semaphorePost i =>
    refine Option.some.inj hs ▸ ?_
    unfold semaphorePost
    split
    · exact .willUnpark (.of_eq rfl)
    · split_ifs <;> exact .of_eq rfl
  | eventSet i => exact Option.some.inj hs ▸ .willUnpark (.of_eq rfl)
  | eventReset i => exact Option.some.inj hs ▸ .of_eq rfl

theorem pc_mutexUnlock_of_ne {i : Nat} (hu : u ≠ t) : (mutexUnlock s u i).pc (.task t) = s.pc (.task t) := by
  unfold mutexUnlock
  split_ifs
  · rfl
  · split
    · rfl
    · exact pc_willUnpark_of_ne fun he => hu (Actor.task.inj he)

theorem pc_semaphorePost_of_ne {i : Nat} (ha : a ≠ .task t) : (semaphorePost s a i).pc (.task t) = s.pc (.task t) := by
  unfold semaphorePost
  split
  · exact pc_willUnpark_of_ne ha
  · split_ifs <;> rfl

/-- A call that grants something to the tasks of a queue leaves them where they are. -/
theorem pc_taskCall_of_grants {c : Call} {o : Obj} (hu : u ≠ t) (hc : c.grants = some o)
    (hs : taskCall s u c = some s') : s'.pc (.task t) = s.pc (.task t) := by
  cases c with
  | unlock i => exact Option.some.inj hs ▸ pc_mutexUnlock_of_ne hu
  | semaphorePost i => cases hs
  | eventSet i => cases hs
  | _ => cases hc

theorem pc_anyCall_of_grants {c : Call} {o : Obj} (ha : a ≠ .task t) (hc : c.grants = some o)
    (hs : anyCall s a c = some s') : s'.pc (.task t) = s.pc (.task t) := by
  cases c with
  | unlock i => cases hs
  | semaphorePost i => exact Option.some.inj hs ▸ pc_semaphorePost_of_ne ha
  | eventSet i => exact Option.some.inj hs ▸ pc_willUnpark_of_ne ha
  | _ => cases hc

/-- The calls of other threads, except `dlsm_gt_unpark` and `dlsm_gt_task_cancel`. -/
theorem Clean.call_other {c : Call} (h : Clean t s) (hp : Places s.places) (ha : a ≠ .task t)
    (hc : ∀ u, c ≠ .taskCancel u ∧ c ≠ .unpark u) (hs : call s a c = some s') : Clean t s' := by
  have htask {u : Nat} (hu : u ≠ t) (hs : taskCall s u c = some s') : Clean t s' := by
    by_cases hq : ∃ o, c.grants = some o ∧ t ∈ s.queue o
    · obtain ⟨o, ho, hm⟩ := hq
      exact h.of_place (.inr ⟨o, (hp.queued o t hm).1⟩) (aside_taskCall hs) (pc_taskCall_of_grants hu ho hs)
    · exact h.frame (frame_taskCall hu (fun o ho hm => hq ⟨o, ho, hm⟩) hs)
  have hany (hs : anyCall s a c = some s') : Clean t s' := by
    by_cases hq : ∃ o, c.grants = some o ∧ t ∈ s.queue o
    · obtain ⟨o, ho, hm⟩ := hq
      exact h.of_place (.inr ⟨o, (hp.queued o t hm).1⟩) (aside_anyCall (fun u => (hc u).1) hs)
        (pc_anyCall_of_grants ha ho hs)
    · by_cases hk : ∃ k, c = .tickerStop k ∧ (s.ticker k).waiter = some t
      · obtain ⟨k, rfl, hw⟩ := hk
        refine h.of_place (.inl ⟨k, (hp.waiter k t).mp hw⟩) (aside_anyCall (fun u => (hc u).1) hs) ?_
        simp only [anyCall] at hs
        split_ifs at hs
        exact Option.some.inj hs ▸ pc_cancelWaiter_of_ne ha
      · exact h.frame (frame_anyCall hp ha (fun o ho hm => hq ⟨o, ho, hm⟩)
          ⟨(hc t).1, (hc t).2, fun k hk' hw => hk ⟨k, hk', hw⟩⟩ hs)
  unfold call at hs
  split_ifs at hs with hpc
  split at hs
  · cases hs
  · rename_i u
    split_ifs at hs
    rcases Option.or_eq_some_iff.mp hs with hs | ⟨-, hs⟩
    · exact htask (fun he => ha (he ▸ rfl)) hs
    · exact hany hs
  · split at hs
    · exact Option.some.inj hs ▸ h.frame (.goto ha (by simp) (.of_eq rfl))
    · exact hany hs

/-! ## Steps of the task -/

/-- Task `t` goes on. -/
theorem Clean.goto (h : Clean t s) (hA : Aside t s s₁) (hok : CleanPc s₁ t c) (hl : c.inSleep = true → t ∈ s₁.live) :
    Clean t (setPc s₁ (.task t) c) := by
  have hpc : (setPc s₁ (.task t) c).pc (.task t) = c := Function.update_self _ _ _
  refine h.of_aside (.goto (.inl rfl) hA) ?_ ?_
  · rw [hpc]
    exact hok
  · rw [hpc]
    exact hl

theorem Clean.sleepRet (h : Clean t s) {d : Nat} {c : Caller} {st : Status} (hA : Aside t s s₁)
    (hst : c = .user → st ≠ .cancelled ∧ (st = .ok → d ≤ s₁.clock)) : Clean t (sleepRet s₁ t d c st) := by
  unfold Timer.sleepRet
  split
  · exact h.goto (hA.log_append fun _ => hst rfl) trivial (by simp [Pc.inSleep])
  · split <;> exact h.goto hA trivial (by simp [Pc.inSleep])

theorem Clean.registerFail (h : Clean t s) {w : Wait} {st : Status} (hA : Aside t s s₁)
    (hst : st = .nomem ∨ st = .state) :
    Clean t (registerFail s₁ t w st) := by
  unfold Timer.registerFail
  split
  · refine h.sleepRet hA fun _ => ?_
    obtain rfl | rfl := hst <;> simp
  · exact h.goto hA trivial (by simp [Pc.inSleep])

/-- The registration of the timer. -/
theorem Clean.registered (h : Clean t s) {w : Wait} (hpc : s.pc (.task t) = .register w)
    (h₁ : s₁.core = { s.core with
      nodeState := Function.update s.nodeState n .waiting
      deadline := Function.update s.deadline n w.deadline })
    (hc : (∃ d c', w = .sleep d c' ∧ c = .park (.timer n w)) ∨ ∃ k d g, w = .tick k d g ∧ c = .tickStale n k d g) :
    Clean t (setPc s₁ (.task t) c) := by
  have hok := h.ok
  have hl := h.live
  rw [hpc] at hok hl
  simp only [State.core, Core.mk.injEq] at h₁
  obtain ⟨hp, howed, hpend, hnode, hdead, -, -, -, hstop, hreq, hlive, hlog⟩ := h₁
  have hA : Aside t s s₁ := .of_eq (by simp only [State.aside, hp, hstop, hreq, hlive, hlog])
  have htok : tokens s₁ t = tokens s t := by
    unfold tokens
    rw [howed, hpend]
  obtain ⟨d, c', rfl, rfl⟩ | ⟨k, d, g, rfl, rfl⟩ := hc
  · cases c' with
    | timedlock i => exact h.goto hA trivial (by simp [Pc.inSleep])
    | user =>
      refine h.goto hA ⟨fun _ => htok.trans hok, ?_, ?_⟩ fun _ => hlive ▸ hl rfl
      · rw [hnode, Function.update_self]
        simp
      · rw [hdead, Function.update_self]
        rfl
  · exact h.goto hA trivial (by simp [Pc.inSleep])

theorem Clean.timerWaitRegister (h : Clean t s) {w : Wait} {e : Env} (hpc : s.pc (.task t) = .register w)
    (hs : timerWaitRegister s t w e = some s') : Clean t s' := by
  unfold Timer.timerWaitRegister at hs
  split at hs
  · exact Option.some.inj hs ▸ h.registerFail (.of_eq rfl) (.inl rfl)
  · rename_i n _
    split_ifs at hs
    · exact Option.some.inj hs ▸ h.registerFail (.of_eq rfl) (.inr rfl)
    · split at hs
      · exact Option.some.inj hs ▸ h.registerFail (.of_eq rfl) (.inl rfl)
      · refine Option.some.inj hs ▸ ?_
        unfold registerNode
        refine h.registered (n := n) hpc ?_ ?_
        · unfold signal
          dsimp only
          split_ifs
          · split <;> rfl
          · rfl
        · cases w with
          | sleep d c => exact .inl ⟨d, c, rfl, rfl⟩
          | tick k d g => exact .inr ⟨k, d, g, rfl, rfl⟩

theorem Clean.rtPark (h : Clean t s) {b : Block} (hpc : s.pc (.task t) = .park b) : Clean t (rtPark s t b) := by
  have hok : CleanPc s t (.parked b) := by
    have := h.ok
    rw [hpc] at this
    cases b with
    | timer n w =>
      cases w with
      | tick k d g => trivial
      | sleep d c => cases c <;> exact this
    | _ => exact this
  have hl : (Pc.parked b).inSleep = true → t ∈ s.live := by
    have := h.live
    rw [hpc] at this
    cases b with
    | timer n w =>
      cases w with
      | tick k d g => simp [Pc.inSleep]
      | sleep d c => cases c <;> exact this
    | _ => simp [Pc.inSleep]
  unfold Timer.rtPark
  split
  · rename_i hp
    have htok : 0 < tokens s t := by
      unfold tokens
      rw [hp]
      simp
    exact h.goto (.of_eq rfl) (hok.resume htok rfl rfl rfl) (by cases b <;> simp [Block.resume, Pc.inSleep])
  · exact h.goto (.of_eq rfl) hok hl

theorem Clean.timerWaitFinish (h : Clean t s) (hi : Inv s.view) {w : Wait} (hpc : s.pc (.task t) = .finish n w) :
    Clean t (timerWaitFinish s t n w) := by
  have hok := h.ok
  rw [hpc] at hok
  have hn : s.timerNode t = some n := by
    rw [show s.timerNode t = (s.pc (.task t)).node from hi.timerNode t, hpc]
    rfl
  have hf : Aside t s (finishNode s n) := by
    unfold finishNode
    split
    · exact .cancelNode
    · exact .of_eq rfl
  unfold Timer.timerWaitFinish waitRet
  dsimp only
  split
  · rename_i d c
    refine h.sleepRet (hf.trans (.of_eq rfl)) fun hc => ?_
    subst hc
    obtain ⟨hexp, hd⟩ := hok
    have hfs : finishNode s n = s := if_neg (by simp [hexp])
    have hst : finishStatus s n = .ok := finishStatus_eq_ok.mpr hexp
    rw [hst, hfs]
    refine ⟨by simp, fun _ => ?_⟩
    rw [← hd]
    exact hi.expired n (hi.owner t n hn).1 hexp
  · exact h.goto (hf.trans (.of_eq rfl)) trivial (by simp [Pc.inSleep])

/-- Nothing is said of a task after its unparks, if it does not go on in a sleep of its own. -/
theorem After.clean {k : After} (hk : ∀ n d, k ≠ .finish n (.sleep d .user)) (s : State) (t : Nat) (l : List Nat) :
    (CleanPc s t k.pc ∧ CleanPc s t (.unparks l k)) ∧ k.pc.inSleep = false := by
  cases k with
  | finish n w =>
    cases w with
    | tick k d g => exact ⟨⟨trivial, trivial⟩, rfl⟩
    | sleep d c =>
      cases c with
      | timedlock i => exact ⟨⟨trivial, trivial⟩, rfl⟩
      | user => exact absurd rfl (hk n d)
  | _ => exact ⟨⟨trivial, trivial⟩, rfl⟩

theorem Clean.goto_after (h : Clean t s) {k : After} (hk : ∀ n d, k ≠ .finish n (.sleep d .user)) (hA : Aside t s s₁) :
    Clean t (setPc s₁ (.task t) k.pc) :=
  h.goto hA (After.clean hk s₁ t []).1.1 (by simp [(After.clean hk s₁ t []).2])

theorem Clean.willUnpark (h : Clean t s) {l : List Nat} {k : After} (hk : ∀ n d, k ≠ .finish n (.sleep d .user))
    (hA : Aside t s s₁) : Clean t (Timer.willUnpark s₁ (.task t) l k) := by
  unfold Timer.willUnpark
  split
  · exact h.goto_after hk hA
  · exact h.goto (hA.trans (.of_eq rfl)) (After.clean hk _ t l).1.2 (by simp [Pc.inSleep])

theorem Clean.unparkStep (h : Clean t s) {l : List Nat} {k : After} (hk : ∀ n d, k ≠ .finish n (.sleep d .user)) :
    Clean t (Timer.unparkStep s (.task t) l k) := by
  unfold Timer.unparkStep
  split
  · exact h.goto_after hk (.of_eq rfl)
  · rename_i u l
    have hA : Aside t s (unpark { s with owed := s.owed.erase (.task t, u) } u) := .unpark (.of_eq rfl)
    split
    · exact h.goto_after hk hA
    · exact h.goto hA (After.clean hk _ t l).1.2 (by simp [Pc.inSleep])

theorem Clean.timerCancelTaskWait (h : Clean t s) {k : After} (hk : ∀ n d, k ≠ .finish n (.sleep d .user)) :
    Clean t (Timer.timerCancelTaskWait s (.task t) u k) := by
  unfold Timer.timerCancelTaskWait
  split
  · split
    · exact h.willUnpark hk .cancelNode
    · exact h.goto_after hk (.of_eq rfl)
  · exact h.goto_after hk (.of_eq rfl)

/-- The next step does not go on to unparks for a sleep of the task's own. -/
theorem CleanPc.after {k : After} (h : CleanPc s t (.cancelTimer u k) ∨ ∃ l, CleanPc s t (.unparks l k)) :
    ∀ n d, k ≠ .finish n (.sleep d .user) := by
  rintro n d rfl
  exact h.elim id fun ⟨_, h⟩ => h

theorem Clean.cancelWaiter (h : Clean t s) {k : Nat} (hA : Aside t s s₁) :
    Clean t (Timer.cancelWaiter s₁ (.task t) k) := by
  unfold Timer.cancelWaiter
  split <;> exact h.goto hA trivial (by simp [Pc.inSleep])

theorem Clean.tickRet (h : Clean t s) {k count : Nat} {st : Status} (hA : Aside t s s₁) :
    Clean t (Timer.tickRet s₁ t k st count) := by
  have hA' : Aside t s (setTicker s₁ k { s₁.ticker k with waiter := none }) := hA.trans (.of_eq rfl)
  exact h.goto (.log_append (fun _ => trivial) hA') trivial (by simp [Pc.inSleep])

theorem Clean.tickEnd (h : Clean t s) {k d g : Nat} {st : Status} {e : Env}
    (hs : Timer.tickEnd s t k d g st e = some s') : Clean t s' := by
  have hA (x : Nat) : Aside t s (setTicker s k { s.ticker k with nextDeadline := x }) := .of_eq rfl
  unfold Timer.tickEnd at hs
  dsimp only at hs
  split_ifs at hs
  · exact Option.some.inj hs ▸ h.tickRet (.of_eq rfl)
  · exact Option.some.inj hs ▸ h.goto (.of_eq rfl) trivial (by simp [Pc.inSleep])
  · exact Option.some.inj hs ▸ h.tickRet (.of_eq rfl)
  · exact Option.some.inj hs ▸ h.tickRet (.of_eq rfl)
  all_goals exact Option.some.inj hs ▸ h.tickRet (hA _)

/-- The steps of task `t`. -/
theorem Clean.next_self {e : Env} (h : Clean t s) (hi : Inv s.view) (hs : next s (.task t) e = some s') :
    Clean t s' := by
  have hok := h.ok
  have hl := h.live
  cases hpc : s.pc (.task t) with
      (rw [hpc] at hok hl; simp only [next, hpc, reduceCtorEq] at hs)
  | sleepCheck d c =>
    refine Option.some.inj hs ▸ ?_
    unfold sleepCheck
    rw [if_neg (by simp [h.requested])]
    split_ifs
    · exact h.sleepRet (.of_eq rfl) fun _ => by simp
    · cases c with
      | user => exact h.goto (.of_eq rfl) hok hl
      | timedlock i => exact h.goto (.of_eq rfl) trivial (by simp [Pc.inSleep])
  | sleepClock d c =>
    refine Option.some.inj hs ▸ ?_
    unfold sleepClock
    split_ifs with h0 hd
    · exact h.sleepRet (.of_eq rfl) fun _ => by simp
    · refine h.sleepRet (.of_eq rfl) fun _ => ⟨by simp, fun _ => Nat.le_trans hd ?_⟩
      unfold gtNow
      split <;> omega
    · cases c with
      | user => exact h.goto (.of_eq rfl) hok hl
      | timedlock i => exact h.goto (.of_eq rfl) trivial (by simp [Pc.inSleep])
  | register w => exact h.timerWaitRegister hpc hs
  | park b => exact Option.some.inj hs ▸ h.rtPark hpc
  | finish n w => exact Option.some.inj hs ▸ h.timerWaitFinish hi hpc
  | parkUntil i d => exact Option.some.inj hs ▸ h.goto (.of_eq rfl) trivial (by simp [Pc.inSleep])
  | recheck i d st =>
    refine Option.some.inj hs ▸ ?_
    unfold timedRecheck
    split_ifs <;> exact h.goto (.of_eq rfl) trivial (by simp [Pc.inSleep])
  | check o =>
    refine Option.some.inj hs ▸ h.goto (.of_eq rfl) ?_ ?_
    · split <;> trivial
    · split <;> simp [Pc.inSleep]
  | tickLoop k =>
    unfold tickLoop at hs
    dsimp only at hs
    split_ifs at hs
    · exact Option.some.inj hs ▸ h.tickRet (.of_eq rfl)
    · exact Option.some.inj hs ▸ h.goto (.of_eq rfl) trivial (by simp [Pc.inSleep])
  | tickStale n k d g =>
    unfold tickStale at hs
    dsimp only at hs
    split_ifs at hs <;> exact Option.some.inj hs ▸ h.goto (.of_eq rfl) trivial (by simp [Pc.inSleep])
  | tickEnd k d g st => exact h.tickEnd hs
  | tickFail k st =>
    split_ifs at hs
    exact Option.some.inj hs ▸ h.tickRet (.of_eq rfl)
  | waitEnd u =>
    have hdone : s.completionDone u = true := hok
    rw [if_pos hdone] at hs
    exact Option.some.inj hs ▸ h.goto (.log_append (fun _ => by simp [Ret.Fair]) (.of_eq rfl)) trivial
      (by simp [Pc.inSleep])
  | complete => exact Option.some.inj hs ▸ h.willUnpark (by simp) (.of_eq rfl)
  | resetClock k interval =>
    refine Option.some.inj hs ▸ h.goto (.of_eq rfl) ?_ ?_
    · split <;> trivial
    · split <;> simp [Pc.inSleep]
  | reset k interval now =>
    unfold tickerReset at hs
    dsimp only at hs
    split_ifs at hs
    · exact Option.some.inj hs ▸ h.goto (.of_eq rfl) trivial (by simp [Pc.inSleep])
    all_goals exact Option.some.inj hs ▸ h.cancelWaiter (.of_eq rfl)
  | unlockTicker k => exact Option.some.inj hs ▸ h.goto (.of_eq rfl) trivial (by simp [Pc.inSleep])
  | cancelTimer u k => exact Option.some.inj hs ▸ h.timerCancelTaskWait (CleanPc.after (.inl hok))
  | unparks l k => exact Option.some.inj hs ▸ h.unparkStep (CleanPc.after (u := 0) (.inr ⟨l, hok⟩))
  | work u => exact Option.some.inj hs ▸ h.willUnpark (by simp) (.of_eq rfl)

/-- Task `t` joins a queue. -/
theorem Clean.enqueue (h : Clean t s) {o : Obj} (hok : ∀ s', CleanPc s' t c) (hl : c.inSleep = false) :
    Clean t (enqueue s t o c) :=
  h.goto (.of_eq rfl) (hok _) (by simp [hl])

/-- A call that leaves task `t` where it was. -/
theorem Clean.stay (h : Clean t s) (hpc : s.pc (.task t) = .idle) (h₁ : s₁.aside = s.aside) : Clean t s₁ := by
  have hp : s₁.pc = s.pc := congrArg Prod.fst h₁
  refine h.of_aside (.of_eq h₁) ?_ ?_
  · rw [hp, hpc]
    trivial
  · rw [hp, hpc]
    simp [Pc.inSleep]

/-- A call of task `t` that has returned. -/
theorem Clean.returned (h : Clean t s) (hpc : s.pc (.task t) = .idle) {r : Ret} (hr : r.Fair) :
    Clean t { s with log := s.log ++ [r] } := by
  refine h.of_aside (.log_append (fun _ => hr) (.of_eq rfl)) ?_ ?_
  · dsimp only
    rw [hpc]
    trivial
  · dsimp only
    rw [hpc]
    simp [Pc.inSleep]

theorem Clean.mutexLock (h : Clean t s) (hpc : s.pc (.task t) = .idle) {i : Nat} (hok : ∀ s', CleanPc s' t c)
    (hl : c.inSleep = false) : Clean t (mutexLock s t i c) := by
  unfold Timer.mutexLock
  split
  · exact h.stay hpc rfl
  · split_ifs
    · exact h
    · exact h.enqueue hok hl

theorem Clean.taskCall (h : Clean t s) {c : Call} (hpc : s.pc (.task t) = .idle) (hlive : t ∈ s.live)
    (hc : TokenFree s (.call (.task t) c)) (hs : taskCall s t c = some s') : Clean t s' := by
  cases c with simp only [Timer.taskCall, reduceCtorEq] at hs
  | sleepUntil d => exact Option.some.inj hs ▸ h.goto (.of_eq rfl) hc fun _ => hlive
  | tickerWait k =>
    split_ifs at hs
    · exact Option.some.inj hs ▸ h.returned hpc trivial
    · exact Option.some.inj hs ▸ h.goto (.of_eq rfl) trivial (by simp [Pc.inSleep])
  | taskWait u =>
    split_ifs at hs
    · exact Option.some.inj hs ▸ h.returned hpc (by simp [Ret.Fair])
    · exact Option.some.inj hs ▸ h.returned hpc (by simp [Ret.Fair])
    · exact Option.some.inj hs ▸ h.goto (.of_eq rfl) (.inl ⟨by simp, hc⟩) (by simp [Pc.inSleep])
  | lock i => exact Option.some.inj hs ▸ h.mutexLock hpc (fun _ => trivial) rfl
  | timedlock i d =>
    split_ifs at hs
    · exact Option.some.inj hs ▸ h
    · exact Option.some.inj hs ▸ h.mutexLock hpc (fun _ => trivial) rfl
  | unlock i =>
    refine Option.some.inj hs ▸ ?_
    unfold mutexUnlock
    split_ifs
    · exact h
    · split
      · exact h.stay hpc rfl
      · exact h.willUnpark (by simp) (.of_eq rfl)
  | semaphoreWait i =>
    refine Option.some.inj hs ▸ ?_
    unfold semaphoreWait
    split_ifs
    · exact h.stay hpc rfl
    · exact h.enqueue (fun _ => trivial) rfl
  | eventWait i =>
    refine Option.some.inj hs ▸ ?_
    unfold eventWait
    split_ifs
    · exact h
    · exact h.enqueue (fun _ => trivial) rfl
  | blockingCall => exact Option.some.inj hs ▸ h.enqueue (fun _ => trivial) rfl
  | exit =>
    exact Option.some.inj hs ▸ h.goto ⟨rfl, rfl, List.mem_of_mem_erase, fun _ _ _ h => .inl h, fun _ h => .inl h⟩
      trivial (by simp [Pc.inSleep])

theorem Clean.anyCall (h : Clean t s) {c : Call} (hpc : s.pc (.task t) = .idle)
    (hc : ∀ u, c ≠ .taskCancel u ∧ c ≠ .unpark u)
    (hs : anyCall s (.task t) c = some s') : Clean t s' := by
  cases c with simp only [Timer.anyCall, reduceCtorEq] at hs
  | tickerReset k interval =>
    split_ifs at hs
    · exact Option.some.inj hs ▸ h
    · exact Option.some.inj hs ▸ h.goto (.of_eq rfl) trivial (by simp [Pc.inSleep])
  | tickerStop k =>
    split_ifs at hs
    exact Option.some.inj hs ▸ h.cancelWaiter (.of_eq rfl)
  | taskCancel u => exact absurd rfl (hc u).1
  | unpark u => exact absurd rfl (hc u).2
  | semaphorePost i =>
    refine Option.some.inj hs ▸ ?_
    unfold semaphorePost
    split
    · exact h.willUnpark (by simp) (.of_eq rfl)
    · split_ifs <;> exact h.stay hpc rfl
  | eventSet i => exact Option.some.inj hs ▸ h.willUnpark (by simp) (.of_eq rfl)
  | eventReset i => exact Option.some.inj hs ▸ h.stay hpc rfl

theorem Clean.call {c : Call} (h : Clean t s) (hp : Places s.places) (hco : Cooperative s (.call a c))
    (hc : TokenFree s (.call a c)) (hs : call s a c = some s') : Clean t s' := by
  have hne : ∀ u, c ≠ .taskCancel u ∧ c ≠ .unpark u := fun u => by
    constructor <;> rintro rfl <;> exact hco
  by_cases ha : a = .task t
  · subst ha
    unfold Timer.call at hs
    split_ifs at hs with hpc
    replace hpc := not_not.mp hpc
    dsimp only at hs
    split_ifs at hs with hl
    rcases Option.or_eq_some_iff.mp hs with hs | ⟨-, hs⟩
    · exact h.taskCall hpc hl hc hs
    · exact h.anyCall hpc hne hs
  · exact h.call_other hp ha hne hs

theorem Clean.step {x : Act} (h : Clean t s) (hi : Inv s.view) (hp : Places s.places) (ho : Owes s)
    (hco : Cooperative s x) (hc : TokenFree s x) (hs : step s x = some s') : Clean t s' := by
  cases x with
  | call a c => exact h.call hp hco hc hs
  | next a e =>
    by_cases ha : a = .task t
    · subst ha
      exact h.next_self hi hs
    · exact h.next_other hi hp ho ha hs
  | requestStop =>
    have hl : s.live = [] := hco
    have h₁ : Clean t { s with timerStop := true } :=
      ⟨h.ok, h.requested, fun ht => by simp [hl] at ht, h.live, h.cancels, h.log⟩
    exact Option.some.inj hs ▸ h₁.frame (.signal (.refl t _))
  | spawn u =>
    by_cases hu : u = t
    · simp only [Timer.step] at hs
      split_ifs at hs with hg
      simp only [not_or, Bool.not_eq_true] at hg
      exact Option.some.inj hs ▸ ⟨h.ok, h.requested, fun _ => hg.2.2, fun _ => hu ▸ List.mem_cons_self, h.cancels,
        h.log⟩
    · exact h.frame (frame_env hp (fun a => by simp) (by simp) (by simp [hu]) hs)
  | _ => exact h.frame (frame_env hp (fun a => by simp) (by simp) (by simp) hs)

end Clean

/-- In every run in which no task has a token when it calls `dlsm_gt_sleep_until`
or `dlsm_gt_task_wait`, neither returns `DLSM_GT_E_CANCELLED`, and a sleep that
returns `DLSM_OK` has reached its deadline. -/
theorem token_free_waits_fair {s : State} (h : machine.ReachBy (fun s x => Cooperative s x ∧ TokenFree s x) s) :
    ∀ r ∈ s.log, r.Fair := by
  intro r hr
  have hi : Clean r.task s := h.invariant (I := Clean r.task) (fun s (h : s = State.initial) => h ▸ clean_initial _)
    fun _ _ _ hr h hc hs =>
      h.step (inv_of_reach hr.reach) (places_of_reach hr.reach) (owes_of_reach hr.reach) hc.1 hc.2 hs
  exact hi.log r hr rfl

/-- `Cooperative` and `TokenFree`, as a test. -/
def cooperative (s : State) : Act → Bool
  | .call _ (.unpark _) | .call _ (.taskCancel _) => false
  | .requestStop => decide (s.live = [])
  | _ => true

def tokenFree (s : State) : Act → Bool
  | .call (.task t) (.sleepUntil _) | .call (.task t) (.taskWait _) => decide (tokens s t = 0)
  | _ => true

theorem cooperative_of {s : State} {x : Act} (h : cooperative s x = true) : Cooperative s x := by
  unfold cooperative at h
  split at h <;> simp_all [Cooperative]

theorem tokenFree_of {s : State} {x : Act} (h : tokenFree s x = true) : TokenFree s x := by
  unfold tokenFree at h
  split at h <;> simp_all [TokenFree]

/-- Task 1 is granted a semaphore and unparked before it looks at the grant, then sleeps and ends; task 2 waits
for it. -/
def tokenFreeRun : List Act :=
  [.spawn 1, .spawn 2, .call (.task 2) (.taskWait 1), .next (.task 2) ⟨true, none, true⟩,
    .call (.task 1) (.semaphoreWait 0), .next (.task 1) ⟨true, none, true⟩, .next (.task 1) ⟨true, none, true⟩,
    .call (.ext 0) (.semaphorePost 0), .next (.ext 0) ⟨true, none, true⟩, .next (.task 1) ⟨true, none, true⟩,
    .call (.task 1) (.sleepUntil 3), .next (.task 1) ⟨true, none, true⟩, .next (.task 1) ⟨true, none, true⟩,
    .next (.task 1) ⟨true, some 10, true⟩, .next (.task 1) ⟨true, none, true⟩,
    .clock 4, .next .timer ⟨true, none, true⟩, .next .timer ⟨true, none, true⟩, .next (.task 1) ⟨true, none, true⟩,
    .call (.task 1) .exit, .next (.task 1) ⟨true, none, true⟩, .next (.task 1) ⟨true, none, true⟩,
    .next (.task 2) ⟨true, none, true⟩]

theorem token_free_waits_fair_run : ∃ s, machine.ReachBy (fun s x => Cooperative s x ∧ TokenFree s x) s ∧
    s.log = [.sleep 1 3 .ok 4, .taskWait 2 1 .ok] ∧ ∀ r ∈ s.log, r.Fair := by
  obtain ⟨s, hr, hp⟩ := Machine.exists_reachBy_of_run (M := machine) (C := fun s x => Cooperative s x ∧ TokenFree s x)
    (c := fun s x => cooperative s x && tokenFree s x)
    (fun s x hx => by
      rw [Bool.and_eq_true] at hx
      exact ⟨cooperative_of hx.1, tokenFree_of hx.2⟩)
    (s := State.initial) (l := tokenFreeRun) (p := fun s => decide (s.log = [.sleep 1 3 .ok 4, .taskWait 2 1 .ok])) rfl
    (by decide +kernel)
  exact ⟨s, hr, of_decide_eq_true hp, token_free_waits_fair hr⟩

/-- Task 1 sees that it is granted a semaphore before the thread that has posted it unparks the task, and sleeps. -/
def strayTokenRun : List Act :=
  [.spawn 1, .call (.task 1) (.semaphoreWait 0), .call (.ext 0) (.semaphorePost 0), .next (.task 1) ⟨true, none, true⟩,
    .call (.task 1) (.sleepUntil 5), .next (.task 1) ⟨true, none, true⟩, .next (.task 1) ⟨true, none, true⟩,
    .next (.task 1) ⟨true, some 10, true⟩, .next (.ext 0) ⟨true, none, true⟩, .next (.task 1) ⟨true, none, true⟩,
    .next (.task 1) ⟨true, none, true⟩]

theorem stray_token_ends_sleep : ∃ s, machine.ReachBy Cooperative s ∧ .sleep 1 5 .cancelled 1 ∈ s.log := by
  obtain ⟨s, hr, hp⟩ := Machine.exists_reachBy_of_run (M := machine) (C := Cooperative) (c := cooperative)
    (fun s x hx => cooperative_of hx) (s := State.initial) (l := strayTokenRun)
    (p := fun s => decide (.sleep 1 5 .cancelled 1 ∈ s.log)) rfl (by decide +kernel)
  exact ⟨s, hr, of_decide_eq_true hp⟩

end Dlsmc.Timer
