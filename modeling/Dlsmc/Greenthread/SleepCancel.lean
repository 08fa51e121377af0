import Mathlib.Tactic.SplitIfs
import Dlsmc.Greenthread.TimerProtocol

/-!
# When a cancellation ends a sleep

`dlsm_gt_sleep_until` reads `cancel_requested` before it registers its timer,
and `dlsm_gt_task_cancel` looks for the timer once, after it has set the flag.
A task whose timer is registered between the two, and after the look, sleeps
until its deadline. Where that does not happen (`CancelInTime`), a task that
sleeps with its flag set is about to be woken (`Woken`): most steps keep this
because they neither begin a sleep nor end a cancellation (`Calm`).
-/

namespace Dlsmc.Timer

/-- What a thread does, as far as the cancellation of sleeps goes. -/
inductive Mark where
  | other
  /-- It parks in `dlsm_gt_sleep_until`, with node `n`. -/
  | asleep (n : Nat)
  /-- It is in `dlsm_gt_task_cancel`, about to look for the timer of task `t`. -/
  | cancels (t : Nat)

def Pc.mark : Pc → Mark
  | .park (.timer n (.sleep _ _)) | .parked (.timer n (.sleep _ _)) => .asleep n
  | .cancelTimer t .ret => .cancels t
  | _ => .other

/-- A task that is parked in `dlsm_gt_sleep_until` with `cancel_requested` set
and a timer that waits is about to be found by a `dlsm_gt_task_cancel`. -/
def CancelFinds (s : State) : Prop :=
  ∀ t n d c, s.pc (.task t) = .parked (.timer n (.sleep d c)) → s.cancelRequested t = true →
    s.nodeState n = .waiting → ∃ a, s.pc a = .cancelTimer t .ret

/-- If `dlsm_gt_sleep_until` registers its timer with `cancel_requested` set,
then a `dlsm_gt_task_cancel` of the task is still to look for the timer. -/
def CancelInTime (s : State) : Act → Prop
  | .next (.task t) _ => ∀ d c, s.pc (.task t) = .register (.sleep d c) → s.cancelRequested t = true →
    ∃ a, s.pc a = .cancelTimer t .ret
  | _ => True

/-- `CancelFinds`, also for tasks on their way to `rt_park`. -/
def Woken (s : State) : Prop :=
  ∀ t n, (s.pc (.task t)).mark = .asleep n → s.cancelRequested t = true → s.nodeState n = .waiting →
    ∃ a, (s.pc a).mark = .cancels t

/-- No sleep has begun and no cancellation has ended. -/
structure Calm (s s' : State) : Prop where
  asleep : ∀ t n, (s'.pc (.task t)).mark = .asleep n → (s.pc (.task t)).mark = .asleep n
  cancels : ∀ a t, (s.pc a).mark = .cancels t → (s'.pc a).mark = .cancels t
  requested : s'.cancelRequested = s.cancelRequested
  waiting : ∀ n, s'.nodeState n = .waiting → s.nodeState n = .waiting

section Calm

variable {s s' : State} {a : Actor} {t n : Nat}

theorem Calm.woken (hc : Calm s s') (h : Woken s) : Woken s' := by
  intro t n hm hr hw
  obtain ⟨a, ha⟩ := h t n (hc.asleep t n hm) (hc.requested ▸ hr) (hc.waiting n hw)
  exact ⟨a, hc.cancels a t ha⟩

theorem Calm.refl (s : State) : Calm s s := ⟨fun _ _ h => h, fun _ _ h => h, rfl, fun _ h => h⟩

/-- States that agree on what matters. -/
theorem Calm.of_eq (hp : s'.pc = s.pc) (hr : s'.cancelRequested = s.cancelRequested)
    (hn : s'.nodeState = s.nodeState) : Calm s s' :=
  ⟨fun _ _ h => hp ▸ h, fun _ _ h => hp ▸ h, hr, fun _ h => hn ▸ h⟩

theorem Calm.trans {s'' : State} (h : Calm s s') (h' : Calm s' s'') : Calm s s'' :=
  ⟨fun t n hm => h.asleep t n (h'.asleep t n hm), fun a t hm => h'.cancels a t (h.cancels a t hm),
    h'.requested.trans h.requested, fun n hn => h.waiting n (h'.waiting n hn)⟩

section After

variable {s₁ : State}

/-- A thread that cancels nothing goes on, not to sleep. -/
theorem Calm.goto {c : Pc} (h : Calm s s₁) (hp : ∀ t, (s₁.pc a).mark ≠ .cancels t)
    (hc : ∀ n, c.mark = .asleep n → (s₁.pc a).mark = .asleep n) : Calm s (setPc s₁ a c) := by
  refine h.trans ⟨fun t n hm => ?_, fun b t hm => ?_, rfl, fun _ h => h⟩
  · by_cases ha : a = .task t
    · subst ha
      exact hc n (by simpa [setPc] using hm)
    · simpa [setPc, Function.update_of_ne (Ne.symm ha)] using hm
  · have hb : b ≠ a := by
      rintro rfl
      exact hp t hm
    simpa [setPc, Function.update_of_ne hb] using hm

/-- It goes on from one place where it neither sleeps nor cancels to another. -/
theorem Calm.move {c : Pc} (hp : (s₁.pc a).mark = .other) (hc : c.mark = .other) (h : Calm s s₁) :
    Calm s (setPc s₁ a c) := by
  refine h.goto (fun t => ?_) fun n hm => ?_
  · rw [hp]
    simp
  · rw [hc] at hm
    cases hm

theorem Calm.signal (h : Calm s s₁) : Calm s (signal s₁) := by
  unfold Timer.signal
  split
  · exact h.trans (.of_eq rfl rfl rfl)
  · exact h

theorem Calm.leave (s : State) (i n : Nat) {st : TimerState} (hst : st ≠ .waiting) : Calm s (leave s i n st) := by
  refine ⟨fun _ _ h => h, fun _ _ h => h, rfl, fun m hm => ?_⟩
  by_cases h : m = n
  · subst h
    exact absurd (by simpa [Timer.leave] using hm) hst
  · simpa [Timer.leave, h] using hm

theorem Calm.cancelNode (s : State) (n : Nat) : Calm s (cancelNode s n) := by
  unfold Timer.cancelNode
  have := Calm.leave s (s.heap.index n) n (show TimerState.cancelled ≠ .waiting by simp)
  split
  · exact this.signal
  · exact this

theorem Block.resume_mark (b : Block) : b.resume.mark = .other := by
  cases b <;> rfl

theorem After.pc_mark (k : After) : k.pc.mark = .other := by
  cases k <;> rfl

theorem Block.mark_ne_cancels (b : Block) (t : Nat) :
    (Pc.park b).mark ≠ .cancels t ∧ (Pc.parked b).mark ≠ .cancels t := by
  cases b with
  | timer n w => cases w <;> simp [Pc.mark]
  | _ => simp [Pc.mark]

theorem Calm.unpark (h : Calm s s₁) (t : Nat) : Calm s (unpark s₁ t) := by
  unfold Timer.unpark
  split
  · exact h
  · split
    · rename_i b hb
      refine h.goto (fun u => ?_) fun n hn => ?_
      · rw [hb]
        exact (b.mark_ne_cancels u).2
      · rw [Block.resume_mark] at hn
        cases hn
    · exact h.trans (.of_eq rfl rfl rfl)

theorem Calm.willUnpark {l : List Nat} {k : After} (hp : (s₁.pc a).mark = .other) (h : Calm s s₁) :
    Calm s (willUnpark s₁ a l k) := by
  unfold Timer.willUnpark
  split
  · exact .move hp (After.pc_mark k) h
  · exact .move hp rfl (h.trans (.of_eq rfl rfl rfl))

end After

/-! ## Steps that are calm -/

theorem Calm.sleepRet {s₁ : State} {d : Nat} {c : Caller} {st : Status} (hp : (s₁.pc (.task t)).mark = .other)
    (h : Calm s s₁) : Calm s (Timer.sleepRet s₁ t d c st) := by
  unfold Timer.sleepRet
  split
  · exact .move hp rfl (h.trans (.of_eq rfl rfl rfl))
  · split <;> exact .move hp rfl h

theorem Calm.registerFail {s₁ : State} {w : Wait} {st : Status} (hp : (s₁.pc (.task t)).mark = .other)
    (h : Calm s s₁) : Calm s (Timer.registerFail s₁ t w st) := by
  unfold Timer.registerFail
  split
  · exact .sleepRet hp h
  · exact .move hp rfl h

theorem Calm.timerWaitFinish {w : Wait} (hpc : s.pc (.task t) = .finish n w) :
    Calm s (Timer.timerWaitFinish s t n w) := by
  have hf : Calm s (finishNode s n) ∧ (finishNode s n).pc = s.pc := by
    unfold finishNode
    split
    · exact ⟨.cancelNode s n, pc_cancelNode s n⟩
    · exact ⟨.refl s, rfl⟩
  have hp : ((finishNode s n).pc (.task t)).mark = .other := by rw [hf.2, hpc]; rfl
  have hf' : Calm s { finishNode s n with
      timerNode := Function.update (finishNode s n).timerNode t none
      allocated := Function.update (finishNode s n).allocated n false } := hf.1.trans (.of_eq rfl rfl rfl)
  unfold Timer.timerWaitFinish waitRet
  dsimp only
  split
  · exact .sleepRet hp hf'
  · exact .move hp rfl hf'

theorem Calm.rtPark {b : Block} (hpc : s.pc (.task t) = .park b) : Calm s (Timer.rtPark s t b) := by
  have hp : ∀ u, (s.pc (.task t)).mark ≠ .cancels u := by
    intro u
    rw [hpc]
    exact (b.mark_ne_cancels u).1
  unfold Timer.rtPark
  split
  · refine Calm.goto (.of_eq rfl rfl rfl) hp fun n hn => ?_
    rw [Block.resume_mark] at hn
    cases hn
  · refine (Calm.refl s).goto hp fun n hn => ?_
    rw [hpc, ← hn]
    cases b with
    | timer n w => cases w <;> rfl
    | _ => rfl

theorem Calm.unparkStep {l : List Nat} {k : After} (hpc : s.pc a = .unparks l k) :
    Calm s (Timer.unparkStep s a l k) := by
  have hm : (s.pc a).mark = .other := by rw [hpc]; rfl
  unfold Timer.unparkStep
  split
  · exact .move hm (After.pc_mark k) (.refl s)
  · rename_i t l
    have hpc' : (Timer.unpark { s with owed := s.owed.erase (a, t) } t).pc a = s.pc a :=
      pc_unpark_of_ne (s := { s with owed := s.owed.erase (a, t) }) fun b => by simp [hpc]
    have h₁ : Calm s { s with owed := s.owed.erase (a, t) } := .of_eq rfl rfl rfl
    refine .move ?_ ?_ (h₁.unpark t)
    · rw [hpc']
      exact hm
    · split
      · exact After.pc_mark k
      · rfl

theorem Calm.cancelTimer {k : After} (hp : (s.pc a).mark = .other) : Calm s (timerCancelTaskWait s a t k) := by
  unfold timerCancelTaskWait
  split
  · rename_i n hn
    split
    · refine .willUnpark ?_ (.cancelNode s n)
      rw [pc_cancelNode, hp]
    · exact .move hp (After.pc_mark k) (.refl s)
  · exact .move hp (After.pc_mark k) (.refl s)

theorem Calm.timerLoop {e : Env} (hp : (s.pc .timer).mark = .other) : Calm s (Timer.timerLoop s e) := by
  unfold Timer.timerLoop
  dsimp only
  split_ifs
  · exact .willUnpark hp (.leave s 0 _ (by simp))
  · exact .move hp rfl (.refl s)
  · exact .move hp rfl (.refl s)
  · exact .willUnpark hp (.leave s 0 _ (by simp))
  · exact .move hp rfl (.refl s)

theorem Calm.tickRet {s₁ : State} {k count : Nat} {st : Status} (hp : (s₁.pc (.task t)).mark = .other)
    (h : Calm s s₁) : Calm s (Timer.tickRet s₁ t k st count) :=
  .move hp rfl (h.trans (.of_eq rfl rfl rfl))

theorem Calm.cancelWaiter {s₁ : State} {k : Nat} (hp : (s₁.pc a).mark = .other) (h : Calm s s₁) :
    Calm s (Timer.cancelWaiter s₁ a k) := by
  unfold Timer.cancelWaiter
  split
  · exact .move hp rfl h
  · exact .move hp rfl h

/-- The steps of a thread, except a registration and the look of a
`dlsm_gt_task_cancel` for the timer. -/
theorem Calm.next {e : Env} (hr : ∀ t w, a = .task t → s.pc a ≠ .register w) (hk : ∀ t, s.pc a ≠ .cancelTimer t .ret)
    (hs : next s a e = some s') : Calm s s' := by
  unfold Timer.next at hs
  split at hs
  · rename_i t d c hpc
    have hp : (s.pc (.task t)).mark = .other := by rw [hpc]; rfl
    refine Option.some.inj hs ▸ ?_
    unfold sleepCheck
    split_ifs
    · exact .sleepRet hp (.refl s)
    · exact .sleepRet hp (.refl s)
    · exact .move hp rfl (.of_eq rfl rfl rfl)
  · rename_i t d c hpc
    have hp : (s.pc (.task t)).mark = .other := by rw [hpc]; rfl
    refine Option.some.inj hs ▸ ?_
    unfold sleepClock
    split_ifs
    · exact .sleepRet hp (.refl s)
    · exact .sleepRet hp (.refl s)
    · exact .move hp rfl (.of_eq rfl rfl rfl)
  · rename_i t w hpc
    exact absurd hpc (hr t w rfl)
  · rename_i t b hpc
    exact Option.some.inj hs ▸ .rtPark hpc
  · rename_i t n w hpc
    exact Option.some.inj hs ▸ .timerWaitFinish hpc
  · rename_i t i d hpc
    exact Option.some.inj hs ▸ .move (by rw [hpc]; rfl) rfl (.of_eq rfl rfl rfl)
  · rename_i t i d st hpc
    have hp : (s.pc (.task t)).mark = .other := by rw [hpc]; rfl
    refine Option.some.inj hs ▸ ?_
    unfold timedRecheck
    split_ifs <;> exact .move hp rfl (.of_eq rfl rfl rfl)
  · rename_i t o hpc
    exact Option.some.inj hs ▸ .move (by rw [hpc]; rfl) (by split <;> rfl) (.of_eq rfl rfl rfl)
  · rename_i t k hpc
    have hp : (s.pc (.task t)).mark = .other := by rw [hpc]; rfl
    unfold tickLoop at hs
    dsimp only at hs
    split_ifs at hs
    · exact Option.some.inj hs ▸ .tickRet hp (.of_eq rfl rfl rfl)
    · exact Option.some.inj hs ▸ .move hp rfl (.of_eq rfl rfl rfl)
  · rename_i t n k d g hpc
    have hp : (s.pc (.task t)).mark = .other := by rw [hpc]; rfl
    unfold tickStale at hs
    dsimp only at hs
    split_ifs at hs
    · exact Option.some.inj hs ▸ .move hp rfl (.of_eq rfl rfl rfl)
    · exact Option.some.inj hs ▸ .move hp rfl (.of_eq rfl rfl rfl)
  · rename_i t k d g st hpc
    have hp : (s.pc (.task t)).mark = .other := by rw [hpc]; rfl
    unfold tickEnd at hs
    dsimp only at hs
    split_ifs at hs
    · exact Option.some.inj hs ▸ .tickRet hp (.of_eq rfl rfl rfl)
    · exact Option.some.inj hs ▸ .move hp rfl (.of_eq rfl rfl rfl)
    all_goals exact Option.some.inj hs ▸ .tickRet hp (.of_eq rfl rfl rfl)
  · rename_i t k st hpc
    split_ifs at hs
    exact Option.some.inj hs ▸ .tickRet (by rw [hpc]; rfl) (.refl s)
  · rename_i t u hpc
    split_ifs at hs <;> exact Option.some.inj hs ▸ .move (by rw [hpc]; rfl) rfl (.of_eq rfl rfl rfl)
  · rename_i t hpc
    exact Option.some.inj hs ▸ .willUnpark (by dsimp only; rw [hpc]; rfl) (.of_eq rfl rfl rfl)
  · rename_i hpc
    exact Option.some.inj hs ▸ .move (by rw [hpc]; rfl) (by split <;> rfl) (.of_eq rfl rfl rfl)
  · rename_i k interval now hpc
    have hp := congrArg Pc.mark hpc
    unfold tickerReset at hs
    dsimp only at hs
    split_ifs at hs
    · exact Option.some.inj hs ▸ .move hp rfl (.of_eq rfl rfl rfl)
    all_goals exact Option.some.inj hs ▸ .cancelWaiter hp (.of_eq rfl rfl rfl)
  · rename_i k hpc
    exact Option.some.inj hs ▸ .move (by simp only [setTicker]; rw [hpc]; rfl) rfl (.of_eq rfl rfl rfl)
  · rename_i t k hpc
    have hm : (Pc.cancelTimer t k).mark = .other := by
      cases k with
      | ret => exact absurd hpc (hk t)
      | _ => rfl
    exact Option.some.inj hs ▸ .cancelTimer ((congrArg Pc.mark hpc).trans hm)
  · rename_i l k hpc
    exact Option.some.inj hs ▸ .unparkStep hpc
  · rename_i t hpc
    exact Option.some.inj hs ▸ .willUnpark (by dsimp only; rw [hpc]; rfl) (.of_eq rfl rfl rfl)
  · rename_i hpc
    exact Option.some.inj hs ▸ .timerLoop (by rw [hpc]; rfl)
  · rename_i hpc
    exact Option.some.inj hs ▸ .move (by rw [hpc]; rfl) rfl (.of_eq rfl rfl rfl)
  · cases hs

theorem Calm.enqueue {o : Obj} {c : Pc} (hp : (s.pc (.task t)).mark = .other) (hc : c.mark = .other) :
    Calm s (Timer.enqueue s t o c) :=
  .move hp hc (.of_eq rfl rfl rfl)

theorem Calm.mutexLock {i : Nat} {c : Pc} (hp : (s.pc (.task t)).mark = .other) (hc : c.mark = .other) :
    Calm s (Timer.mutexLock s t i c) := by
  unfold Timer.mutexLock
  split
  · exact .of_eq rfl rfl rfl
  · split_ifs
    · exact .refl s
    · exact .enqueue hp hc

theorem Calm.mutexUnlock {i : Nat} (hp : (s.pc (.task t)).mark = .other) : Calm s (Timer.mutexUnlock s t i) := by
  unfold Timer.mutexUnlock
  split_ifs
  · exact .refl s
  · split
    · exact .of_eq rfl rfl rfl
    · exact .willUnpark hp (.of_eq rfl rfl rfl)

theorem Calm.taskCall {c : Call} (hpc : s.pc (.task t) = .idle) (hs : taskCall s t c = some s') : Calm s s' := by
  have hp : (s.pc (.task t)).mark = .other := by rw [hpc]; rfl
  cases c with simp only [Timer.taskCall, reduceCtorEq] at hs
  | sleepUntil d => exact Option.some.inj hs ▸ .move hp rfl (.refl s)
  | tickerWait k =>
    split_ifs at hs
    · exact Option.some.inj hs ▸ .of_eq rfl rfl rfl
    · exact Option.some.inj hs ▸ .move hp rfl (.of_eq rfl rfl rfl)
  | taskWait u =>
    split_ifs at hs
    · exact Option.some.inj hs ▸ .of_eq rfl rfl rfl
    · exact Option.some.inj hs ▸ .of_eq rfl rfl rfl
    · exact Option.some.inj hs ▸ .move hp rfl (.of_eq rfl rfl rfl)
  | lock i => exact Option.some.inj hs ▸ .mutexLock hp rfl
  | timedlock i d =>
    split_ifs at hs
    · exact Option.some.inj hs ▸ .refl s
    · exact Option.some.inj hs ▸ .mutexLock hp rfl
  | unlock i => exact Option.some.inj hs ▸ .mutexUnlock hp
  | semaphoreWait i =>
    refine Option.some.inj hs ▸ ?_
    unfold semaphoreWait
    split_ifs
    · exact .of_eq rfl rfl rfl
    · exact .enqueue hp rfl
  | eventWait i =>
    refine Option.some.inj hs ▸ ?_
    unfold eventWait
    split_ifs
    · exact .refl s
    · exact .enqueue hp rfl
  | blockingCall => exact Option.some.inj hs ▸ .enqueue hp rfl
  | exit => exact Option.some.inj hs ▸ .move hp rfl (.of_eq rfl rfl rfl)

/-- The calls any thread makes, except `dlsm_gt_task_cancel`. -/
theorem Calm.anyCall {c : Call} (hc : ∀ t, c ≠ .taskCancel t) (hpc : s.pc a = .idle)
    (hs : anyCall s a c = some s') : Calm s s' := by
  have hp : (s.pc a).mark = .other := by rw [hpc]; rfl
  cases c with simp only [Timer.anyCall, reduceCtorEq] at hs
  | tickerReset k interval =>
    split_ifs at hs
    · exact Option.some.inj hs ▸ .refl s
    · exact Option.some.inj hs ▸ .move hp rfl (.refl s)
  | tickerStop k =>
    split_ifs at hs
    exact Option.some.inj hs ▸ .cancelWaiter hp (.of_eq rfl rfl rfl)
  | taskCancel t => exact absurd rfl (hc t)
  | unpark t => exact Option.some.inj hs ▸ .willUnpark hp (.refl s)
  | semaphorePost i =>
    refine Option.some.inj hs ▸ ?_
    unfold semaphorePost
    split
    · exact .willUnpark hp (.of_eq rfl rfl rfl)
    · split_ifs <;> exact .of_eq rfl rfl rfl
  | eventSet i => exact Option.some.inj hs ▸ .willUnpark hp (.of_eq rfl rfl rfl)
  | eventReset i => exact Option.some.inj hs ▸ .of_eq rfl rfl rfl

end Calm

/-! ## The steps that are not -/

section Woken

variable {s s' : State} {a : Actor} {t n : Nat}

/-- `dlsm_gt_task_cancel` sets the flag, and is about to look for the timer. -/
theorem Woken.taskCancel (h : Woken s) (hpc : s.pc a = .idle) (hs : anyCall s a (.taskCancel t) = some s') :
    Woken s' := by
  simp only [anyCall] at hs
  split_ifs at hs
  · exact Option.some.inj hs ▸ h
  · refine Option.some.inj hs ▸ fun u n hm hr hw => ?_
    by_cases hu : u = t
    · subst hu
      exact ⟨a, by simp [setPc, Pc.mark]⟩
    · have hua : Actor.task u ≠ a := by
        rintro rfl
        simp [setPc, Pc.mark] at hm
      simp only [setPc, Function.update_of_ne hua, Function.update_of_ne hu] at hm hr
      obtain ⟨b, hb⟩ := h u n hm hr hw
      have hba : b ≠ a := by
        rintro rfl
        simp [hpc, Pc.mark] at hb
      exact ⟨b, by simpa [setPc, Function.update_of_ne hba] using hb⟩

theorem Pc.node_of_asleep {p : Pc} (h : p.mark = .asleep n) : p.node = some n := by
  unfold Pc.mark at h
  split at h <;> simp_all [Pc.node]

/-- A `dlsm_gt_task_cancel` goes on when the task does not sleep with a timer that waits. -/
theorem Woken.end_cancel {s₁ : State} {c : Pc} (h : Woken s) (hpc : s.pc a = .cancelTimer t .ret) (hc : Calm s s₁)
    (h₁ : s₁.pc = s.pc) (hm : c.mark = .other)
    (ht : ∀ n, (s.pc (.task t)).mark = .asleep n → s₁.nodeState n ≠ .waiting) : Woken (setPc s₁ a c) := by
  intro u n hu hr hw
  have hua : Actor.task u ≠ a := by
    rintro rfl
    simp [setPc, hm] at hu
  simp only [setPc, Function.update_of_ne hua, h₁, hc.requested] at hu hr
  have hut : u ≠ t := by
    rintro rfl
    exact ht n hu hw
  obtain ⟨b, hb⟩ := h u n hu hr (hc.waiting n hw)
  have hba : b ≠ a := by
    rintro rfl
    rw [hpc] at hb
    exact hut (Mark.cancels.inj hb).symm
  exact ⟨b, by simpa [setPc, Function.update_of_ne hba, h₁] using hb⟩

/-- The look of `dlsm_gt_task_cancel`: a timer it finds no longer waits. -/
theorem Woken.cancelTimer (hi : Inv s.view) (h : Woken s) (hpc : s.pc a = .cancelTimer t .ret) :
    Woken (timerCancelTaskWait s a t .ret) := by
  have hn : ∀ n, (s.pc (.task t)).mark = .asleep n → s.timerNode t = some n := fun n hm =>
    (hi.timerNode t).trans (Pc.node_of_asleep hm)
  unfold timerCancelTaskWait
  split
  · rename_i m htm
    split
    · refine h.end_cancel hpc ((Calm.cancelNode s m).trans (.of_eq rfl rfl rfl)) (pc_cancelNode s m) rfl fun n hm => ?_
      obtain rfl : m = n := Option.some.inj (htm.symm.trans (hn n hm))
      rw [show ({ cancelNode s m with owed := _ } : State).nodeState m = .cancelled from nodeState_cancelNode s m]
      simp
    · rename_i hw
      refine h.end_cancel hpc (.refl s) rfl rfl fun n hm => ?_
      obtain rfl : m = n := Option.some.inj (htm.symm.trans (hn n hm))
      exact hw
  · rename_i htm
    refine h.end_cancel hpc (.refl s) rfl rfl fun n hm => ?_
    rw [hn n hm] at htm
    cases htm

theorem Woken.registerNode {w : Wait} {capacity : Nat} (hi : Inv s.view) (h : Woken s)
    (hpc : s.pc (.task t) = .register w)
    (hc : ∀ d c, w = .sleep d c → s.cancelRequested t = true → ∃ a, s.pc a = .cancelTimer t .ret)
    (ha : s.allocated n = false) : Woken (Timer.registerNode s t n w capacity) := by
  intro u m hm hr hw
  rw [pc_registerNode] at hm
  rw [show (Timer.registerNode s t n w capacity).cancelRequested = s.cancelRequested from
    cancelRequested_registerNode ..] at hr
  rw [nodeState_registerNode] at hw
  have hkeep {b : Actor} (hb : (s.pc b).mark = .cancels u) :
      ((Timer.registerNode s t n w capacity).pc b).mark = .cancels u := by
    have hbt : b ≠ .task t := by
      rintro rfl
      rw [hpc] at hb
      cases hb
    rwa [pc_registerNode, Function.update_of_ne hbt]
  by_cases hut : u = t
  · subst hut
    cases w with
    | tick k d g => simp [Pc.mark] at hm
    | sleep d c =>
      obtain ⟨a, hca⟩ := hc d c rfl hr
      exact ⟨a, hkeep (by rw [hca]; rfl)⟩
  · rw [Function.update_of_ne (fun e => hut (Actor.task.inj e))] at hm
    have hmn : m ≠ n := by
      rintro rfl
      have := (hi.owner u m ((hi.timerNode u).trans (Pc.node_of_asleep hm))).1
      rw [show s.view.allocated m = false from ha] at this
      cases this
    rw [Function.update_of_ne hmn] at hw
    obtain ⟨b, hb⟩ := h u m hm hr hw
    exact ⟨b, hkeep hb⟩

/-- A registration, if a `dlsm_gt_task_cancel` that has set the flag is still to look for the timer. -/
theorem Woken.register {w : Wait} {e : Env} (hi : Inv s.view) (h : Woken s) (hpc : s.pc (.task t) = .register w)
    (hc : ∀ d c, w = .sleep d c → s.cancelRequested t = true → ∃ a, s.pc a = .cancelTimer t .ret)
    (hs : timerWaitRegister s t w e = some s') : Woken s' := by
  have hp : (s.pc (.task t)).mark = .other := by rw [hpc]; rfl
  unfold timerWaitRegister at hs
  split at hs
  · exact Option.some.inj hs ▸ (Calm.registerFail hp (.refl s)).woken h
  · rename_i n _
    split_ifs at hs with ha hn
    · exact Option.some.inj hs ▸ (Calm.registerFail hp (.refl s)).woken h
    · split at hs
      · refine Option.some.inj hs ▸ Calm.woken ?_ h
        exact .registerFail hp (.of_eq rfl rfl rfl)
      · exact Option.some.inj hs ▸ h.registerNode hi hpc hc (by simpa using ha)

theorem woken_next {e : Env} (hi : Inv s.view) (h : Woken s) (hc : CancelInTime s (.next a e))
    (hs : next s a e = some s') : Woken s' := by
  by_cases hr : ∃ t w, a = .task t ∧ s.pc a = .register w
  · obtain ⟨t, w, rfl, hpc⟩ := hr
    simp only [next, hpc] at hs
    refine h.register hi hpc (fun d c hw => ?_) hs
    subst hw
    exact hc d c hpc
  · by_cases hk : ∃ t, s.pc a = .cancelTimer t .ret
    · obtain ⟨t, hpc⟩ := hk
      have hs' : some (timerCancelTaskWait s a t .ret) = some s' := by
        cases a <;> simpa only [next, hpc] using hs
      exact Option.some.inj hs' ▸ h.cancelTimer hi hpc
    · exact (Calm.next (fun t w ha hpc => hr ⟨t, w, ha, hpc⟩) (fun t hpc => hk ⟨t, hpc⟩) hs).woken h

theorem woken_call {c : Call} (h : Woken s) (hs : call s a c = some s') : Woken s' := by
  have hany (hpc : s.pc a = .idle) (hs : anyCall s a c = some s') : Woken s' := by
    by_cases hc : ∃ t, c = .taskCancel t
    · obtain ⟨t, rfl⟩ := hc
      exact h.taskCancel hpc hs
    · exact (Calm.anyCall (fun t ht => hc ⟨t, ht⟩) hpc hs).woken h
  unfold call at hs
  split_ifs at hs with hpc
  replace hpc := not_not.mp hpc
  split at hs
  · cases hs
  · split_ifs at hs
    rcases Option.or_eq_some_iff.mp hs with hs | ⟨-, hs⟩
    · exact (Calm.taskCall hpc hs).woken h
    · exact hany hpc hs
  · split at hs
    · refine Option.some.inj hs ▸ Calm.woken ?_ h
      exact .move (by simp only [setQueue]; rw [hpc]; rfl) rfl (.of_eq rfl rfl rfl)
    · exact hany hpc hs

theorem woken_step {x : Act} (hi : Inv s.view) (h : Woken s) (hc : CancelInTime s x) (hs : step s x = some s') :
    Woken s' := by
  cases x with simp only [step] at hs
  | clock c =>
    split_ifs at hs
    exact Option.some.inj hs ▸ Calm.woken (.of_eq rfl rfl rfl) h
  | spawn t =>
    split_ifs at hs
    exact Option.some.inj hs ▸ Calm.woken (.of_eq rfl rfl rfl) h
  | tickerNew k interval e =>
    split_ifs at hs
    exact Option.some.inj hs ▸ Calm.woken (.of_eq rfl rfl rfl) h
  | call a c => exact woken_call h hs
  | next a e => exact woken_next hi h hc hs
  | requestStop => exact Option.some.inj hs ▸ (Calm.signal (.of_eq rfl rfl rfl)).woken h

theorem woken_initial : Woken State.initial := by
  intro t n hm
  simp [State.initial, Pc.mark] at hm

theorem woken_of_reachBy (h : machine.ReachBy CancelInTime s) : Woken s :=
  h.invariant (fun _ h => h ▸ woken_initial) fun _ _ _ hr h hc hs => woken_step (inv_of_reach hr.reach) h hc hs

end Woken

/-- In every run in which each registration of a sleep with `cancel_requested`
set comes before the look of some `dlsm_gt_task_cancel`, a task that is parked
with its timer waiting and its flag set is about to be found by one. -/
theorem cancel_finds_sleeper {s : State} (h : machine.ReachBy CancelInTime s) : CancelFinds s := by
  intro t n d c hpc hr hw
  obtain ⟨a, ha⟩ := woken_of_reachBy h t n (by rw [hpc]; rfl) hr hw
  refine ⟨a, ?_⟩
  unfold Pc.mark at ha
  split at ha <;> simp_all

/-- Task 1 sleeps, and a `dlsm_gt_task_cancel` sets its flag before the registration and looks after it. -/
def cancelInTimeRun : List Act :=
  [.spawn 1, .call (.task 1) (.sleepUntil 5), .next (.task 1) ⟨true, none, true⟩, .next (.task 1) ⟨true, none, true⟩,
    .call (.ext 0) (.taskCancel 1), .next (.task 1) ⟨true, some 10, true⟩, .next (.task 1) ⟨true, none, true⟩]

/-- `CancelInTime`, for runs where only thread 0 cancels. -/
def cancelInTime (s : State) : Act → Bool
  | .next (.task t) _ => !s.cancelRequested t || decide (s.pc (.ext 0) = .cancelTimer t .ret)
  | _ => true

theorem cancel_finds_sleeper_run : ∃ s, machine.ReachBy CancelInTime s ∧ CancelFinds s ∧
    s.pc (.task 1) = .parked (.timer 10 (.sleep 5 .user)) ∧ s.cancelRequested 1 = true ∧
    s.nodeState 10 = .waiting := by
  have hc : ∀ s x, cancelInTime s x = true → CancelInTime s x := by
    intro s x hx
    unfold CancelInTime
    split
    · rename_i t e
      intro d c _ hr
      simp only [cancelInTime, hr, Bool.not_true, Bool.false_or, decide_eq_true_eq] at hx
      exact ⟨_, hx⟩
    · trivial
  obtain ⟨s, hr, hp⟩ := Machine.exists_reachBy_of_run (M := machine) (C := CancelInTime) (c := cancelInTime) hc
    (s := State.initial) (l := cancelInTimeRun)
    (p := fun s => decide (s.pc (.task 1) = .parked (.timer 10 (.sleep 5 .user)) ∧ s.cancelRequested 1 = true ∧
      s.nodeState 10 = .waiting)) rfl (by decide +kernel)
  exact ⟨s, hr, cancel_finds_sleeper hr, of_decide_eq_true hp⟩

/-- The whole of `dlsm_gt_task_cancel` runs between the look of
`dlsm_gt_sleep_until` at `cancel_requested` and the registration of its timer. -/
def cancelLostRun : List Act :=
  [.spawn 1, .call (.task 1) (.sleepUntil 5), .next (.task 1) ⟨true, none, true⟩, .next (.task 1) ⟨true, none, true⟩,
    .call (.ext 0) (.taskCancel 1), .next (.ext 0) ⟨true, none, true⟩,
    .next (.task 1) ⟨true, some 10, true⟩, .next (.task 1) ⟨true, none, true⟩]

theorem cancel_lost_by_sleeper : ∃ s, machine.Reach s ∧ ¬ CancelFinds s := by
  have hrun : (machine.run State.initial cancelLostRun).map (fun s => decide (
      s.pc (.task 1) = .parked (.timer 10 (.sleep 5 .user)) ∧ s.cancelRequested 1 = true ∧
      s.nodeState 10 = .waiting ∧ s.pc .timer = .timerLoop ∧ s.pc (.task 0) = .idle ∧ s.pc (.ext 0) = .idle)) =
      some true := by decide +kernel
  obtain ⟨s, hs, hp⟩ := Option.map_eq_some_iff.mp hrun
  obtain ⟨hpark, hr, hw, htimer, h0, hx0⟩ := of_decide_eq_true hp
  -- the run mentions no other thread
  have htask (y : Nat) :
      (machine.run State.initial cancelLostRun).map (fun s => s.pc (.task (y + 2))) = some .idle := rfl
  have hext (y : Nat) : (machine.run State.initial cancelLostRun).map (fun s => s.pc (.ext (y + 1))) = some .idle := rfl
  simp only [hs, Option.map_some, Option.some.injEq] at htask hext
  refine ⟨s, (Machine.Reach.init rfl).of_run hs, fun hc => ?_⟩
  obtain ⟨a, ha⟩ := hc 1 10 5 .user hpark hr hw
  cases a with
  | timer => simp [htimer] at ha
  | task t =>
    match t with
    | 0 => simp [h0] at ha
    | 1 => simp [hpark] at ha
    | y + 2 => simp [htask y] at ha
  | ext x =>
    match x with
    | 0 => simp [hx0] at ha
    | y + 1 => simp [hext y] at ha

end Dlsmc.Timer
