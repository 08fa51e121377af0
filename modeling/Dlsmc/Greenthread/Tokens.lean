import Mathlib.Data.List.Count
import Dlsmc.Greenthread.Places

/-!
# Unparks, and who is not concerned by a step

A decided unpark of a task is a token until a park of the task uses it: threads
owe it first, then it is `unpark_pending` (`tokens`). A thread owes at least the
unparks it is about to execute (`Owes`).

A step concerns few tasks: that of the thread, the ones it unparks, and the one
whose timer it ends. For the others it changes nothing they depend on
(`Frame`).
-/

namespace Dlsmc.Timer

/-- The unparks of task `t` that no park has used. -/
def tokens (s : State) (t : Nat) : Nat := s.owed.countP (·.2 = t) + (s.unparkPending t).toNat

/-- The unparks a thread is about to execute. -/
def Pc.todo : Pc → List Nat
  | .unparks l _ => l
  | _ => []

/-- Every unpark that a thread is about to execute is owed. -/
def Owes (s : State) : Prop := ∀ a t, (s.pc a).todo.count t ≤ s.owed.count (a, t)

/-! ## Owed unparks -/

section Owes

variable {s s' s₁ : State} {a : Actor} {t n : Nat} {c : Pc}

theorem owes_initial : Owes State.initial := by
  intro a t
  cases a <;> simp [State.initial, Pc.todo]

theorem After.pc_todo (k : After) : k.pc.todo = [] := by
  cases k <;> rfl

theorem Block.resume_todo (b : Block) : b.resume.todo = [] := by
  cases b <;> rfl

theorem Owes.goto (h : Owes s₁) (hc : c.todo = []) : Owes (setPc s₁ a c) := by
  intro b u
  by_cases hb : b = a
  · subst hb
    simp [setPc, hc]
  · simpa [setPc, hb] using h b u

theorem Owes.signal (h : Owes s₁) : Owes (signal s₁) := by
  unfold Timer.signal
  split <;> exact h

theorem Owes.cancelNode (h : Owes s₁) : Owes (cancelNode s₁ n) := by
  unfold Timer.cancelNode
  dsimp only
  split
  · exact Owes.signal h
  · exact h

theorem count_owed_append (s : State) (a b : Actor) (l : List Nat) (u : Nat) :
    (s.owed ++ l.map (Prod.mk a)).count (b, u) = s.owed.count (b, u) + if b = a then l.count u else 0 := by
  rw [List.count_append]
  congr 1
  split_ifs with hb
  · subst hb
    exact List.count_map_of_injective l (Prod.mk b) (fun _ _ h => (Prod.mk.inj h).2) u
  · refine List.count_eq_zero.mpr fun hm => hb ?_
    obtain ⟨_, _, he⟩ := List.mem_map.mp hm
    exact (Prod.mk.inj he).1.symm

theorem Owes.willUnpark {l : List Nat} {k : After} (h : Owes s₁) : Owes (willUnpark s₁ a l k) := by
  unfold Timer.willUnpark
  split
  · exact h.goto (After.pc_todo k)
  · intro b u
    have := count_owed_append s₁ a b l u
    by_cases hb : b = a
    · subst hb
      simp only [setPc, Function.update_self, Pc.todo, this, if_true]
      omega
    · simp only [setPc, Function.update_of_ne hb, this]
      exact Nat.le_trans (h b u) (Nat.le_add_right _ _)

theorem owed_unpark (s : State) (t : Nat) : (unpark s t).owed = s.owed := by
  unfold unpark
  split
  · rfl
  · split <;> rfl

theorem todo_unpark (s : State) (t : Nat) (b : Actor) : ((unpark s t).pc b).todo = (s.pc b).todo := by
  unfold unpark
  split
  · rfl
  · split
    · rename_i c hc
      by_cases hb : b = .task t
      · subst hb
        simp only [setPc, Function.update_self, Block.resume_todo, hc]
        rfl
      · simp [setPc, hb]
    · rfl

/-- The other unparks are still owed after one of thread `a` is executed. -/
theorem Owes.unparkStep {l : List Nat} {k : After} (h : Owes s) (hpc : s.pc a = .unparks l k) :
    Owes (unparkStep s a l k) := by
  unfold Timer.unparkStep
  split
  · exact h.goto (After.pc_todo k)
  · rename_i t l
    intro b u
    have hbu := h b u
    simp only [setPc, owed_unpark]
    by_cases hb : b = a
    · subst hb
      rw [hpc] at hbu
      have htodo : (if l = [] then k.pc else Pc.unparks l k).todo = l := by
        split
        · rename_i hl
          rw [hl, After.pc_todo]
        · rfl
      simp only [Pc.todo, List.count_cons] at hbu
      rw [Function.update_self, htodo]
      by_cases hu : u = t
      · subst hu
        simp only [beq_self_eq_true, if_true] at hbu
        rw [List.count_erase_self]
        omega
      · rw [List.count_erase_of_ne (by simp [hu])]
        omega
    · rw [Function.update_of_ne hb, todo_unpark, List.count_erase_of_ne (by simp [hb])]
      exact hbu

/-- The unpark that a thread executes is a token, and one less is owed after it. -/
theorem Owes.erase_owed {l : List Nat} {k : After} (h : Owes s) (hpc : s.pc a = .unparks (t :: l) k) :
    0 < s.owed.countP (·.2 = t) ∧
      (s.owed.erase (a, t)).countP (·.2 = t) = s.owed.countP (·.2 = t) - 1 := by
  have hcount := h a t
  rw [hpc] at hcount
  simp only [Pc.todo, List.count_cons_self] at hcount
  have hmem : (a, t) ∈ s.owed := List.count_pos_iff.mp (by omega)
  refine ⟨List.countP_pos_iff.mpr ⟨(a, t), hmem, by simp⟩, ?_⟩
  rw [List.countP_erase]
  simp [hmem]

theorem Owes.sleepRet {d : Nat} {c : Caller} {st : Status} (h : Owes s₁) : Owes (sleepRet s₁ t d c st) := by
  unfold Timer.sleepRet
  split
  · exact Owes.goto h rfl
  · split <;> exact h.goto rfl

theorem Owes.registerFail {w : Wait} {st : Status} (h : Owes s₁) : Owes (registerFail s₁ t w st) := by
  unfold Timer.registerFail
  split
  · exact h.sleepRet
  · exact h.goto rfl

theorem Owes.timerWaitRegister {w : Wait} {e : Env} (h : Owes s) (hs : timerWaitRegister s t w e = some s') :
    Owes s' := by
  unfold Timer.timerWaitRegister at hs
  split at hs
  · exact Option.some.inj hs ▸ h.registerFail
  · split_ifs at hs
    · exact Option.some.inj hs ▸ h.registerFail
    · split at hs
      · refine Option.some.inj hs ▸ Owes.registerFail ?_
        exact h
      · refine Option.some.inj hs ▸ ?_
        unfold registerNode
        refine Owes.goto ?_ (by cases w <;> rfl)
        split_ifs
        · exact Owes.signal h
        · exact h

theorem Owes.timerWaitFinish {w : Wait} (h : Owes s) : Owes (timerWaitFinish s t n w) := by
  have hf : Owes (finishNode s n) := by
    unfold finishNode
    split
    · exact h.cancelNode
    · exact h
  unfold Timer.timerWaitFinish waitRet
  dsimp only
  split
  · exact Owes.sleepRet hf
  · exact Owes.goto hf rfl

theorem Owes.rtPark {b : Block} (h : Owes s) : Owes (rtPark s t b) := by
  unfold Timer.rtPark
  split
  · exact Owes.goto h (Block.resume_todo b)
  · exact h.goto rfl

theorem Owes.timerCancelTaskWait {k : After} (h : Owes s) : Owes (timerCancelTaskWait s a t k) := by
  unfold Timer.timerCancelTaskWait
  split
  · split
    · exact h.cancelNode.willUnpark
    · exact h.goto (After.pc_todo k)
  · exact h.goto (After.pc_todo k)

theorem Owes.timerLoop {e : Env} (h : Owes s) : Owes (timerLoop s e) := by
  unfold Timer.timerLoop
  dsimp only
  split_ifs
  · exact Owes.willUnpark h
  · exact h.goto rfl
  · exact h.goto rfl
  · exact Owes.willUnpark h
  · exact h.goto rfl

theorem Owes.cancelWaiter {k : Nat} (h : Owes s₁) : Owes (cancelWaiter s₁ a k) := by
  unfold Timer.cancelWaiter
  split <;> exact h.goto rfl

theorem Owes.tickRet {k count : Nat} {st : Status} (h : Owes s₁) : Owes (tickRet s₁ t k st count) :=
  Owes.goto h rfl

theorem owes_next {e : Env} (h : Owes s) (hs : next s a e = some s') : Owes s' := by
  unfold next at hs
  split at hs
  · refine Option.some.inj hs ▸ ?_
    unfold sleepCheck
    split_ifs
    · exact h.sleepRet
    · exact h.sleepRet
    · exact h.goto rfl
  · refine Option.some.inj hs ▸ ?_
    unfold sleepClock
    split_ifs
    · exact h.sleepRet
    · exact h.sleepRet
    · exact h.goto rfl
  · exact h.timerWaitRegister hs
  · exact Option.some.inj hs ▸ h.rtPark
  · exact Option.some.inj hs ▸ h.timerWaitFinish
  · exact Option.some.inj hs ▸ h.goto rfl
  · refine Option.some.inj hs ▸ ?_
    unfold timedRecheck
    split_ifs <;> exact Owes.goto h rfl
  · exact Option.some.inj hs ▸ h.goto (by split <;> rfl)
  · unfold tickLoop at hs
    dsimp only at hs
    split_ifs at hs
    · exact Option.some.inj hs ▸ h.tickRet
    · exact Option.some.inj hs ▸ h.goto rfl
  · unfold tickStale at hs
    dsimp only at hs
    split_ifs at hs <;> exact Option.some.inj hs ▸ h.goto rfl
  · unfold tickEnd at hs
    dsimp only at hs
    split_ifs at hs
    · exact Option.some.inj hs ▸ h.tickRet
    · exact Option.some.inj hs ▸ h.goto rfl
    · exact Option.some.inj hs ▸ h.tickRet
    · exact Option.some.inj hs ▸ h.tickRet
    all_goals
      refine Option.some.inj hs ▸ Owes.tickRet ?_
      exact h
  · split_ifs at hs
    exact Option.some.inj hs ▸ h.tickRet
  · split_ifs at hs <;>
    · refine Option.some.inj hs ▸ Owes.goto ?_ rfl
      exact h
  · refine Option.some.inj hs ▸ Owes.willUnpark ?_
    exact h
  · exact Option.some.inj hs ▸ h.goto (by split <;> rfl)
  · unfold tickerReset at hs
    dsimp only at hs
    split_ifs at hs
    · exact Option.some.inj hs ▸ h.goto rfl
    all_goals
      refine Option.some.inj hs ▸ Owes.cancelWaiter ?_
      exact h
  · refine Option.some.inj hs ▸ Owes.goto ?_ rfl
    exact h
  · exact Option.some.inj hs ▸ h.timerCancelTaskWait
  · rename_i l k hpc
    exact Option.some.inj hs ▸ h.unparkStep hpc
  · refine Option.some.inj hs ▸ Owes.willUnpark ?_
    exact h
  · exact Option.some.inj hs ▸ h.timerLoop
  · refine Option.some.inj hs ▸ Owes.goto ?_ rfl
    exact h
  · cases hs

theorem Owes.enqueue {o : Obj} (h : Owes s) (hc : c.todo = []) : Owes (enqueue s t o c) :=
  Owes.goto h hc

theorem Owes.mutexLock {i : Nat} (h : Owes s) (hc : c.todo = []) : Owes (mutexLock s t i c) := by
  unfold Timer.mutexLock
  split
  · exact h
  · split_ifs
    · exact h
    · exact h.enqueue hc

theorem owes_taskCall {c : Call} (h : Owes s) (hs : taskCall s t c = some s') : Owes s' := by
  cases c with simp only [taskCall, reduceCtorEq] at hs
  | sleepUntil d => exact Option.some.inj hs ▸ h.goto rfl
  | tickerWait k =>
    split_ifs at hs
    · exact Option.some.inj hs ▸ h
    · exact Option.some.inj hs ▸ Owes.goto h rfl
  | taskWait u =>
    split_ifs at hs
    · exact Option.some.inj hs ▸ h
    · exact Option.some.inj hs ▸ h
    · exact Option.some.inj hs ▸ Owes.goto h rfl
  | lock i => exact Option.some.inj hs ▸ h.mutexLock rfl
  | timedlock i d =>
    split_ifs at hs
    · exact Option.some.inj hs ▸ h
    · exact Option.some.inj hs ▸ h.mutexLock rfl
  | unlock i =>
    refine Option.some.inj hs ▸ ?_
    unfold mutexUnlock
    split_ifs
    · exact h
    · split
      · exact h
      · exact Owes.willUnpark h
  | semaphoreWait i =>
    refine Option.some.inj hs ▸ ?_
    unfold semaphoreWait
    split_ifs
    · exact h
    · exact h.enqueue rfl
  | eventWait i =>
    refine Option.some.inj hs ▸ ?_
    unfold eventWait
    split_ifs
    · exact h
    · exact h.enqueue rfl
  | blockingCall => exact Option.some.inj hs ▸ h.enqueue rfl
  | exit => exact Option.some.inj hs ▸ Owes.goto h rfl

theorem owes_anyCall {c : Call} (h : Owes s) (hs : anyCall s a c = some s') : Owes s' := by
  cases c with simp only [anyCall, reduceCtorEq] at hs
  | tickerReset k interval =>
    split_ifs at hs
    · exact Option.some.inj hs ▸ h
    · exact Option.some.inj hs ▸ h.goto rfl
  | tickerStop k =>
    split_ifs at hs
    exact Option.some.inj hs ▸ Owes.cancelWaiter h
  | taskCancel t =>
    split_ifs at hs
    · exact Option.some.inj hs ▸ h
    · exact Option.some.inj hs ▸ Owes.goto h rfl
  | unpark t => exact Option.some.inj hs ▸ h.willUnpark
  | semaphorePost i =>
    refine Option.some.inj hs ▸ ?_
    unfold semaphorePost
    split
    · exact Owes.willUnpark h
    · split_ifs <;> exact h
  | eventSet i => exact Option.some.inj hs ▸ Owes.willUnpark h
  | eventReset i => exact Option.some.inj hs ▸ h

theorem owes_call {c : Call} (h : Owes s) (hs : call s a c = some s') : Owes s' := by
  unfold call at hs
  split_ifs at hs
  split at hs
  · cases hs
  · split_ifs at hs
    rcases Option.or_eq_some_iff.mp hs with hs | ⟨-, hs⟩
    · exact owes_taskCall h hs
    · exact owes_anyCall h hs
  · split at hs
    · exact Option.some.inj hs ▸ Owes.goto h rfl
    · exact owes_anyCall h hs

theorem owes_step {x : Act} (h : Owes s) (hs : step s x = some s') : Owes s' := by
  cases x with simp only [step] at hs
  | clock c =>
    split_ifs at hs
    exact Option.some.inj hs ▸ h
  | spawn t =>
    split_ifs at hs
    exact Option.some.inj hs ▸ h
  | tickerNew k interval e =>
    split_ifs at hs
    exact Option.some.inj hs ▸ h
  | call a c => exact owes_call h hs
  | next a e => exact owes_next h hs
  | requestStop => exact Option.some.inj hs ▸ Owes.signal h

theorem owes_of_reach (h : machine.Reach s) : Owes s :=
  h.invariant (I := Owes) (fun s (h : s = State.initial) => h ▸ owes_initial) fun _ _ _ _ h hs => owes_step h hs

end Owes

/-! ## The tasks that a step does not concern -/

/-- What a task depends on. -/
structure Core where
  pc : Actor → Pc
  owed : List (Actor × Nat)
  pending : Nat → Bool
  nodeState : Nat → TimerState
  deadline : Nat → Nat
  waiters : Nat → List Nat
  done : Nat → Bool
  ticker : Nat → Ticker
  timerStop : Bool
  requested : Nat → Bool
  live : List Nat
  log : List Ret

def State.core (s : State) : Core where
  pc := s.pc
  owed := s.owed
  pending := s.unparkPending
  nodeState := s.nodeState
  deadline := s.deadline
  waiters := s.completionWaiters
  done := s.completionDone
  ticker := s.ticker
  timerStop := s.timerStop
  requested := s.cancelRequested
  live := s.live
  log := s.log

/-- The task that has called. -/
def Ret.task : Ret → Nat
  | .sleep t _ _ _ | .tick t _ _ _ | .taskWait t _ _ => t

/-- What task `t` depends on has not changed. -/
structure Frame (t : Nat) (s s' : State) : Prop where
  pc : s'.pc (.task t) = s.pc (.task t)
  owed : s'.owed.countP (·.2 = t) = s.owed.countP (·.2 = t)
  pending : s'.unparkPending t = s.unparkPending t
  node : ∀ n, (s.pc (.task t)).node = some n → s'.nodeState n = s.nodeState n ∧ s'.deadline n = s.deadline n
  waiters : ∀ u, t ∈ s'.completionWaiters u ↔ t ∈ s.completionWaiters u
  done : ∀ u, s.completionDone u = true → s'.completionDone u = true
  ticker : ∀ k, (s.pc (.task t)).place = .tick k →
    (s'.ticker k).generation = (s.ticker k).generation ∧ (s'.ticker k).stopped = (s.ticker k).stopped
  timerStop : s'.timerStop = s.timerStop
  requested : s'.cancelRequested t = s.cancelRequested t
  cancels : ∀ a k, s'.pc a = .cancelTimer t k → s.pc a = .cancelTimer t k
  live : t ∈ s'.live ↔ t ∈ s.live
  log : ∀ r, r ∈ s'.log → r ∈ s.log ∨ r.task ≠ t

section Frame

variable {s s' s₁ : State} {a : Actor} {t n u : Nat} {c : Pc}

theorem Frame.of_eq (h : s'.core = s.core) : Frame t s s' := by
  simp only [State.core, Core.mk.injEq] at h
  obtain ⟨h₁, h₂, h₃, h₄, h₅, h₆, h₇, h₈, h₉, h₁₀, h₁₁, h₁₂⟩ := h
  constructor <;> simp_all

/-- Only nodes of other tasks have changed. -/
theorem Frame.of_node {f : Nat → TimerState} {d : Nat → Nat}
    (h : s'.core = { s.core with nodeState := f, deadline := d })
    (hf : ∀ n, (s.pc (.task t)).node = some n → f n = s.nodeState n ∧ d n = s.deadline n) : Frame t s s' := by
  simp only [State.core, Core.mk.injEq] at h
  obtain ⟨h₁, h₂, h₃, h₄, h₅, h₆, h₇, h₈, h₉, h₁₀, h₁₁, h₁₂⟩ := h
  constructor <;> simp_all

theorem Frame.refl (t : Nat) (s : State) : Frame t s s := .of_eq rfl

theorem Frame.trans {s'' : State} (h : Frame t s s') (h' : Frame t s' s'') : Frame t s s'' where
  pc := h'.pc.trans h.pc
  owed := h'.owed.trans h.owed
  pending := h'.pending.trans h.pending
  node := fun n hn => ⟨(h'.node n (h.pc ▸ hn)).1.trans (h.node n hn).1, (h'.node n (h.pc ▸ hn)).2.trans (h.node n hn).2⟩
  waiters := fun u => (h'.waiters u).trans (h.waiters u)
  done := fun u hu => h'.done u (h.done u hu)
  ticker := fun k hk => ⟨(h'.ticker k (h.pc ▸ hk)).1.trans (h.ticker k hk).1,
    (h'.ticker k (h.pc ▸ hk)).2.trans (h.ticker k hk).2⟩
  timerStop := h'.timerStop.trans h.timerStop
  requested := h'.requested.trans h.requested
  cancels := fun a k hk => h.cancels a k (h'.cancels a k hk)
  live := h'.live.trans h.live
  log := fun r hr => (h'.log r hr).elim (h.log r) .inr

/-- Its number of tokens is among what has not changed. -/
theorem Frame.tokens (h : Frame t s s') : tokens s' t = tokens s t := by
  unfold Timer.tokens
  rw [h.owed, h.pending]

/-- Another thread goes on, not to cancel the timer of the task. -/
theorem Frame.goto (ha : a ≠ .task t) (hc : ∀ k, c ≠ .cancelTimer t k) (h : Frame t s s₁) :
    Frame t s (setPc s₁ a c) := by
  have hp : (setPc s₁ a c).pc (.task t) = s₁.pc (.task t) := Function.update_of_ne (Ne.symm ha) _ _
  refine h.trans ⟨hp, rfl, rfl, fun _ _ => ⟨rfl, rfl⟩, fun _ => .rfl, fun _ h => h, fun _ _ => ⟨rfl, rfl⟩, rfl, rfl,
    fun b k hb => ?_, .rfl, fun _ h => .inl h⟩
  by_cases hba : b = a
  · subst hba
    rw [show (setPc s₁ b c).pc b = c from Function.update_self _ _ _] at hb
    exact absurd hb (hc k)
  · rwa [show (setPc s₁ a c).pc b = s₁.pc b from Function.update_of_ne hba _ _] at hb

theorem After.pc_ne_cancelTimer (k k' : After) : k.pc ≠ .cancelTimer t k' := by
  cases k <;> simp [After.pc]

/-- A node of another task leaves the heap. -/
theorem Frame.leave (i : Nat) {st : TimerState} (hn : (s.pc (.task t)).node ≠ some n) (h : Frame t s s₁) :
    Frame t s (leave s₁ i n st) := by
  refine h.trans ⟨rfl, rfl, rfl, fun m hm => ?_, fun _ => .rfl, fun _ h => h, fun _ _ => ⟨rfl, rfl⟩, rfl, rfl,
    fun _ _ h => h, .rfl, fun _ h => .inl h⟩
  have hmn : m ≠ n := by
    rintro rfl
    exact hn (h.pc ▸ hm)
  exact ⟨Function.update_of_ne hmn _ _, rfl⟩

theorem Frame.signal (h : Frame t s s₁) : Frame t s (signal s₁) := by
  unfold Timer.signal
  split
  · exact h.trans (.of_eq rfl)
  · exact h

theorem Frame.cancelNode (hn : (s.pc (.task t)).node ≠ some n) (h : Frame t s s₁) : Frame t s (cancelNode s₁ n) := by
  unfold Timer.cancelNode
  dsimp only
  split
  · exact (h.leave _ hn).signal
  · exact h.leave _ hn

/-- Another task is unparked. -/
theorem Frame.unpark (hu : u ≠ t) (h : Frame t s s₁) : Frame t s (unpark s₁ u) := by
  unfold Timer.unpark
  split
  · exact h
  · split
    · rename_i b hb
      refine .goto (fun he => hu (Actor.task.inj he)) (fun k => ?_) h
      cases b <;> simp [Block.resume]
    · refine h.trans ⟨rfl, rfl, Function.update_of_ne (Ne.symm hu) _ _, fun _ _ => ⟨rfl, rfl⟩, fun _ => .rfl,
        fun _ h => h,
        fun _ _ => ⟨rfl, rfl⟩, rfl, rfl, fun _ _ h => h, .rfl, fun _ h => .inl h⟩

/-- Another thread is to unpark other tasks. -/
theorem Frame.willUnpark {l : List Nat} {k : After} (ha : a ≠ .task t) (hl : t ∉ l) (h : Frame t s s₁) :
    Frame t s (willUnpark s₁ a l k) := by
  unfold Timer.willUnpark
  split
  · exact .goto ha (After.pc_ne_cancelTimer k) h
  · refine .goto ha (by simp) (h.trans ⟨rfl, ?_, rfl, fun _ _ => ⟨rfl, rfl⟩, fun _ => .rfl, fun _ h => h,
      fun _ _ => ⟨rfl, rfl⟩,
      rfl, rfl, fun _ _ h => h, .rfl, fun _ h => .inl h⟩)
    dsimp only
    have h0 : (l.map (Prod.mk a)).countP (·.2 = t) = 0 := by
      refine List.countP_eq_zero.mpr fun p hp => ?_
      obtain ⟨u, hu, rfl⟩ := List.mem_map.mp hp
      simp only [decide_eq_true_eq]
      rintro rfl
      exact hl hu
    rw [List.countP_append, h0, Nat.add_zero]

theorem Frame.erase_owed (hu : u ≠ t) (h : Frame t s s₁) : Frame t s { s₁ with owed := s₁.owed.erase (a, u) } := by
  refine h.trans ⟨rfl, ?_, rfl, fun _ _ => ⟨rfl, rfl⟩, fun _ => .rfl, fun _ h => h, fun _ _ => ⟨rfl, rfl⟩, rfl, rfl,
    fun _ _ h => h, .rfl, fun _ h => .inl h⟩
  dsimp only
  rw [List.countP_erase]
  simp [hu]

theorem Frame.unparkStep {l : List Nat} {k : After} (ha : a ≠ .task t) (hl : l.head? ≠ some t) (h : Frame t s s₁) :
    Frame t s (unparkStep s₁ a l k) := by
  unfold Timer.unparkStep
  split
  · exact .goto ha (After.pc_ne_cancelTimer k) h
  · rename_i u l
    have hu : u ≠ t := fun he => hl (by rw [he]; rfl)
    refine .goto ha (fun k' => ?_) (.unpark hu (h.erase_owed hu))
    split
    · exact After.pc_ne_cancelTimer k k'
    · simp

/-- A task other than `t` goes on, in a call that it has returned from or not. -/
theorem Frame.log_goto {r : Ret} (hu : u ≠ t) (hr : r.task = u) (hc : ∀ k, c ≠ .cancelTimer t k) (h : Frame t s s₁) :
    Frame t s (setPc { s₁ with log := s₁.log ++ [r] } (.task u) c) := by
  refine .goto (fun he => hu (Actor.task.inj he)) hc (h.trans ⟨rfl, rfl, rfl, fun _ _ => ⟨rfl, rfl⟩, fun _ => .rfl,
    fun _ h => h, fun _ _ => ⟨rfl, rfl⟩, rfl, rfl, fun _ _ h => h, .rfl, fun r' hr' => ?_⟩)
  rcases List.mem_append.mp hr' with hr' | hr'
  · exact .inl hr'
  · rw [List.mem_singleton.mp hr', hr]
    exact .inr hu

theorem Frame.sleepRet {d : Nat} {c : Caller} {st : Status} (hu : u ≠ t) (h : Frame t s s₁) :
    Frame t s (sleepRet s₁ u d c st) := by
  have ha : Actor.task u ≠ .task t := fun he => hu (Actor.task.inj he)
  unfold Timer.sleepRet
  split
  · exact .log_goto hu rfl (by simp) h
  · split <;> exact .goto ha (by simp) h

theorem Frame.registerFail {w : Wait} {st : Status} (hu : u ≠ t) (h : Frame t s s₁) :
    Frame t s (registerFail s₁ u w st) := by
  unfold Timer.registerFail
  split
  · exact .sleepRet hu h
  · exact .goto (fun he => hu (Actor.task.inj he)) (by simp) h

/-- Nodes are registered at addresses that are not in use. -/
theorem Frame.timerWaitRegister {w : Wait} {e : Env} (hu : u ≠ t)
    (hn : ∀ n, (s.pc (.task t)).node = some n → s.allocated n = true)
    (hs : timerWaitRegister s u w e = some s') : Frame t s s' := by
  have ha : Actor.task u ≠ .task t := fun he => hu (Actor.task.inj he)
  unfold Timer.timerWaitRegister at hs
  split at hs
  · exact Option.some.inj hs ▸ .registerFail hu (.refl t s)
  · rename_i n _
    split_ifs at hs with hal
    · exact Option.some.inj hs ▸ .registerFail hu (.refl t s)
    · split at hs
      · exact Option.some.inj hs ▸ .registerFail hu (.of_eq rfl)
      · refine Option.some.inj hs ▸ ?_
        unfold registerNode
        have h₂ {s₂ : State} (h₁ : s₂.core = { s.core with
            nodeState := Function.update s.nodeState n .waiting
            deadline := Function.update s.deadline n w.deadline }) : Frame t s s₂ := by
          refine .of_node h₁ fun m hm => ?_
          have hmn : m ≠ n := by
            rintro rfl
            exact hal (hn m hm)
          exact ⟨Function.update_of_ne hmn _ _, Function.update_of_ne hmn _ _⟩
        refine .goto ha (fun k => by cases w <;> simp) ?_
        split_ifs
        · exact .signal (h₂ rfl)
        · exact h₂ rfl

theorem Frame.timerWaitFinish {w : Wait} (hu : u ≠ t) (hn : (s.pc (.task t)).node ≠ some n) :
    Frame t s (timerWaitFinish s u n w) := by
  have hf : Frame t s (finishNode s n) := by
    unfold finishNode
    split
    · exact .cancelNode hn (.refl t s)
    · exact .refl t s
  unfold Timer.timerWaitFinish waitRet
  dsimp only
  split
  · exact .sleepRet hu (hf.trans (.of_eq rfl))
  · exact .goto (fun he => hu (Actor.task.inj he)) (by simp) (hf.trans (.of_eq rfl))

theorem Frame.rtPark {b : Block} (hu : u ≠ t) : Frame t s (rtPark s u b) := by
  have ha : Actor.task u ≠ .task t := fun he => hu (Actor.task.inj he)
  unfold Timer.rtPark
  split
  · refine .goto ha (fun k => by cases b <;> simp [Block.resume]) ⟨rfl, rfl, Function.update_of_ne (Ne.symm hu) _ _,
      fun _ _ => ⟨rfl, rfl⟩, fun _ => .rfl, fun _ h => h, fun _ _ => ⟨rfl, rfl⟩, rfl, rfl, fun _ _ h => h, .rfl,
      fun _ h => .inl h⟩
  · exact .goto ha (by simp) (.refl t s)

/-- Some ticker changes, but the task does not wait at it or what matters of it is the same. -/
theorem Frame.setTicker {k : Nat} {tk : Ticker} (hk : (s.pc (.task t)).place = .tick k →
      tk.generation = (s₁.ticker k).generation ∧ tk.stopped = (s₁.ticker k).stopped) (h : Frame t s s₁) :
    Frame t s (setTicker s₁ k tk) := by
  refine h.trans ⟨rfl, rfl, rfl, fun _ _ => ⟨rfl, rfl⟩, fun _ => .rfl, fun _ h => h, fun j hj => ?_, rfl,
    rfl, fun _ _ h => h, .rfl, fun _ h => .inl h⟩
  by_cases hjk : j = k
  · subst hjk
    simpa [Timer.setTicker] using hk (h.pc ▸ hj)
  · simp [Timer.setTicker, hjk]

theorem Frame.tickRet {k count : Nat} {st : Status} (hu : u ≠ t) (h : Frame t s s₁) :
    Frame t s (tickRet s₁ u k st count) := by
  have h' : Frame t s (Timer.setTicker s₁ k { s₁.ticker k with waiter := none }) :=
    .setTicker (fun _ => ⟨rfl, rfl⟩) h
  exact .log_goto hu rfl (by simp) h'

/-- A thread locks the mutex of a ticker whose waiter is another task. -/
theorem Frame.cancelWaiter {k : Nat} (ha : a ≠ .task t) (hk : (s₁.ticker k).waiter ≠ some t) (h : Frame t s s₁) :
    Frame t s (cancelWaiter s₁ a k) := by
  unfold Timer.cancelWaiter
  split
  · exact .goto ha (by simp) h
  · rename_i u hu
    refine .goto ha (fun k' => ?_) h
    simp only [ne_eq, Pc.cancelTimer.injEq, not_and]
    rintro rfl
    exact absurd hu hk

/-- The next step of thread `a` does not concern task `t`. -/
structure Apart (s : State) (a : Actor) (t : Nat) : Prop where
  self : a ≠ .task t
  unparks : ∀ l k, s.pc a = .unparks l k → l.head? ≠ some t
  cancel : ∀ k, s.pc a ≠ .cancelTimer t k
  work : s.pc a ≠ .work t
  complete : ∀ u, a = .task u → s.pc a = .complete → t ∉ s.completionWaiters u
  timer : a = .timer → s.pc a = .timerLoop → 0 < s.heap.count → s.nodeTask (s.heap.arr 0) ≠ t
  reset : ∀ k interval now, s.pc a = .reset k interval now → (s.ticker k).waiter ≠ some t

theorem Frame.timerLoop {e : Env} (hn : 0 < s.heap.count → s.nodeTask (s.heap.arr 0) ≠ t)
    (hnode : ∀ n, (s.pc (.task t)).node = some n → s.nodeTask n = t) : Frame t s (timerLoop s e) := by
  have hl {st : TimerState} (hc : 0 < s.heap.count) :
      Frame t s (Timer.willUnpark (Timer.leave s 0 (s.heap.arr 0) st) .timer [s.nodeTask (s.heap.arr 0)] .timer) := by
    refine .willUnpark (by simp) ?_ (.leave 0 (fun he => hn hc (hnode _ he)) (.refl t s))
    rw [List.mem_singleton]
    exact Ne.symm (hn hc)
  unfold Timer.timerLoop
  dsimp only
  split_ifs
  · exact hl (by assumption)
  · exact .goto (by simp) (by simp) (.refl t s)
  · exact .goto (by simp) (by simp) (.refl t s)
  · exact hl (by omega)
  · exact .goto (by simp) (by simp) (.refl t s)

theorem Frame.tickEnd {k d g : Nat} {st : Status} {e : Env} (hu : u ≠ t) (hs : tickEnd s u k d g st e = some s') :
    Frame t s s' := by
  unfold Timer.tickEnd at hs
  dsimp only at hs
  split_ifs at hs
  · exact Option.some.inj hs ▸ .tickRet hu (.refl t s)
  · exact Option.some.inj hs ▸ .goto (fun he => hu (Actor.task.inj he)) (by simp) (.refl t s)
  · exact Option.some.inj hs ▸ .tickRet hu (.refl t s)
  · exact Option.some.inj hs ▸ .tickRet hu (.refl t s)
  all_goals exact Option.some.inj hs ▸ .tickRet hu (.setTicker (fun _ => ⟨rfl, rfl⟩) (.refl t s))

theorem frame_next {e : Env} (hi : Inv s.view) (hp : Places s.places) (h : Apart s a t) (hs : next s a e = some s') :
    Frame t s s' := by
  have ha := h.self
  have hnode : ∀ n, (s.pc (.task t)).node = some n → s.allocated n = true ∧ s.nodeTask n = t := fun n hn =>
    hi.owner t n ((hi.timerNode t).trans hn)
  have hother {u n : Nat} (hu : u ≠ t) (hn : s.timerNode u = some n) : (s.pc (.task t)).node ≠ some n := fun he =>
    hu ((hi.owner u n hn).2.symm.trans (hnode n he).2)
  unfold next at hs
  split at hs
  · rename_i u d c hpc
    have hu : u ≠ t := fun he => ha (he ▸ rfl)
    refine Option.some.inj hs ▸ ?_
    unfold sleepCheck
    split_ifs
    · exact .sleepRet hu (.refl t s)
    · exact .sleepRet hu (.refl t s)
    · exact .goto ha (by simp) (.refl t s)
  · rename_i u d c hpc
    have hu : u ≠ t := fun he => ha (he ▸ rfl)
    refine Option.some.inj hs ▸ ?_
    unfold sleepClock
    split_ifs
    · exact .sleepRet hu (.refl t s)
    · exact .sleepRet hu (.refl t s)
    · exact .goto ha (by simp) (.refl t s)
  · rename_i u w hpc
    exact .timerWaitRegister (fun he => ha (he ▸ rfl)) (fun n hn => (hnode n hn).1) hs
  · exact Option.some.inj hs ▸ .rtPark fun he => ha (he ▸ rfl)
  · rename_i u n w hpc
    have hu : u ≠ t := fun he => ha (he ▸ rfl)
    refine Option.some.inj hs ▸ .timerWaitFinish hu (hother hu ?_)
    rw [show s.timerNode u = (s.pc (.task u)).node from hi.timerNode u, hpc]
    rfl
  · exact Option.some.inj hs ▸ .goto ha (by simp) (.refl t s)
  · refine Option.some.inj hs ▸ ?_
    unfold timedRecheck
    split_ifs <;> exact .goto ha (by simp) (.of_eq rfl)
  · exact Option.some.inj hs ▸ .goto ha (by intro k; split <;> simp) (.refl t s)
  · unfold tickLoop at hs
    dsimp only at hs
    split_ifs at hs
    · exact Option.some.inj hs ▸ .tickRet (fun he => ha (he ▸ rfl)) (.refl t s)
    · exact Option.some.inj hs ▸ .goto ha (by simp) (.refl t s)
  · rename_i u n k d g hpc
    have hu : u ≠ t := fun he => ha (he ▸ rfl)
    unfold tickStale at hs
    dsimp only at hs
    split_ifs at hs
    · exact Option.some.inj hs ▸ .goto ha (by simp [hu]) (.refl t s)
    · exact Option.some.inj hs ▸ .goto ha (by simp) (.refl t s)
  · exact .tickEnd (fun he => ha (he ▸ rfl)) hs
  · split_ifs at hs
    exact Option.some.inj hs ▸ .tickRet (fun he => ha (he ▸ rfl)) (.refl t s)
  · rename_i u v hpc
    have hu : u ≠ t := fun he => ha (he ▸ rfl)
    split_ifs at hs
    · exact Option.some.inj hs ▸ .log_goto hu rfl (by simp) (.refl t s)
    · have hf : Frame t s { s with
          completionWaiters := Function.update s.completionWaiters v ((s.completionWaiters v).erase u) } := by
        refine ⟨rfl, rfl, rfl, fun _ _ => ⟨rfl, rfl⟩, fun v' => ?_, fun _ h => h, fun _ _ => ⟨rfl, rfl⟩, rfl, rfl,
          fun _ _ h => h, .rfl, fun _ h => .inl h⟩
        by_cases hv : v' = v
        · subst hv
          simp [List.mem_erase_of_ne (Ne.symm hu)]
        · simp [hv]
      exact Option.some.inj hs ▸ .log_goto hu rfl (by simp) hf
  · rename_i u hpc
    have hw := h.complete u rfl hpc
    refine Option.some.inj hs ▸ .willUnpark ha hw ⟨rfl, rfl, rfl, fun _ _ => ⟨rfl, rfl⟩, fun v => ?_, fun v hv => ?_,
      fun _ _ => ⟨rfl, rfl⟩, rfl, rfl, fun _ _ h => h, .rfl, fun _ h => .inl h⟩
    · by_cases hv : v = u
      · subst hv
        simp [hw]
      · simp [hv]
    · by_cases hvu : v = u
      · subst hvu
        simp
      · simpa [hvu] using hv
  · exact Option.some.inj hs ▸ .goto ha (by intro k; split <;> simp) (.refl t s)
  · rename_i k interval now hpc
    have hw := h.reset k interval now hpc
    unfold tickerReset at hs
    dsimp only at hs
    split_ifs at hs
    · exact Option.some.inj hs ▸ .goto ha (by simp) (.refl t s)
    all_goals
      refine Option.some.inj hs ▸ .cancelWaiter ha (by simpa [setTicker] using hw)
        (.setTicker (fun hk => ?_) (.refl t s))
      exact absurd ((hp.waiter k t).mpr hk) hw
  · exact Option.some.inj hs ▸ .goto ha (by simp) (.setTicker (fun _ => ⟨rfl, rfl⟩) (.refl t s))
  · rename_i u k hpc
    have hu : u ≠ t := fun he => h.cancel k (he ▸ hpc)
    refine Option.some.inj hs ▸ ?_
    unfold timerCancelTaskWait
    split
    · rename_i n hn
      split
      · exact .willUnpark ha (by simp [Ne.symm hu]) (.cancelNode (hother hu hn) (.refl t s))
      · exact .goto ha (After.pc_ne_cancelTimer k) (.refl t s)
    · exact .goto ha (After.pc_ne_cancelTimer k) (.refl t s)
  · rename_i l k hpc
    exact Option.some.inj hs ▸ .unparkStep ha (h.unparks l k hpc) (.refl t s)
  · rename_i u hpc
    have hu : u ≠ t := fun he => h.work (he ▸ hpc)
    exact Option.some.inj hs ▸ .willUnpark ha (by simp [Ne.symm hu]) (.of_eq rfl)
  · rename_i hpc
    exact Option.some.inj hs ▸ .timerLoop (h.timer rfl hpc) fun n hn => (hnode n hn).2
  · exact Option.some.inj hs ▸ .goto ha (by simp) (.of_eq rfl)
  · cases hs

theorem Frame.log_append {r : Ret} (hr : r.task ≠ t) : Frame t s { s with log := s.log ++ [r] } := by
  refine ⟨rfl, rfl, rfl, fun _ _ => ⟨rfl, rfl⟩, fun _ => .rfl, fun _ h => h, fun _ _ => ⟨rfl, rfl⟩, rfl, rfl,
    fun _ _ h => h,
    .rfl, fun r' hr' => ?_⟩
  rcases List.mem_append.mp hr' with hr' | hr'
  · exact .inl hr'
  · exact .inr (List.mem_singleton.mp hr' ▸ hr)

theorem Frame.enqueue {o : Obj} (hu : u ≠ t) (hc : ∀ k, c ≠ .cancelTimer t k) : Frame t s (enqueue s u o c) :=
  .goto (fun he => hu (Actor.task.inj he)) hc (.of_eq rfl)

theorem Frame.mutexLock {i : Nat} (hu : u ≠ t) (hc : ∀ k, c ≠ .cancelTimer t k) : Frame t s (mutexLock s u i c) := by
  unfold Timer.mutexLock
  split
  · exact .of_eq rfl
  · split_ifs
    · exact .refl t s
    · exact .enqueue hu hc

/-- The queue whose tasks a call grants something to. -/
def Call.grants : Call → Option Obj
  | .unlock i => some (.mutex i)
  | .semaphorePost i => some (.semaphore i)
  | .eventSet i => some (.event i)
  | _ => none

theorem frame_taskCall {c : Call} (hu : u ≠ t) (hq : ∀ o, c.grants = some o → t ∉ s.queue o)
    (hs : taskCall s u c = some s') :
    Frame t s s' := by
  have ha : Actor.task u ≠ .task t := fun he => hu (Actor.task.inj he)
  cases c with simp only [taskCall, reduceCtorEq] at hs
  | sleepUntil d => exact Option.some.inj hs ▸ .goto ha (by simp) (.refl t s)
  | tickerWait k =>
    split_ifs at hs
    · exact Option.some.inj hs ▸ .log_append hu
    · exact Option.some.inj hs ▸ .goto ha (by simp) (.setTicker (fun _ => ⟨rfl, rfl⟩) (.refl t s))
  | taskWait v =>
    split_ifs at hs
    · exact Option.some.inj hs ▸ .log_append hu
    · exact Option.some.inj hs ▸ .log_append hu
    · refine Option.some.inj hs ▸ .goto ha (by simp) ⟨rfl, rfl, rfl, fun _ _ => ⟨rfl, rfl⟩, fun v' => ?_, fun _ h => h,
        fun _ _ => ⟨rfl, rfl⟩, rfl, rfl, fun _ _ h => h, .rfl, fun _ h => .inl h⟩
      by_cases hv : v' = v
      · subst hv
        simp [Ne.symm hu]
      · simp [hv]
  | lock i => exact Option.some.inj hs ▸ .mutexLock hu (by simp)
  | timedlock i d =>
    split_ifs at hs
    · exact Option.some.inj hs ▸ .refl t s
    · exact Option.some.inj hs ▸ .mutexLock hu (by simp)
  | unlock i =>
    refine Option.some.inj hs ▸ ?_
    unfold mutexUnlock
    split_ifs
    · exact .refl t s
    · split
      · exact .of_eq rfl
      · rename_i v l hl
        refine .willUnpark ha (fun hm => hq (.mutex i) rfl ?_) (.of_eq rfl)
        rw [hl, List.mem_singleton.mp hm]
        exact List.mem_cons_self
  | semaphoreWait i =>
    refine Option.some.inj hs ▸ ?_
    unfold semaphoreWait
    split_ifs
    · exact .of_eq rfl
    · exact .enqueue hu (by simp)
  | eventWait i =>
    refine Option.some.inj hs ▸ ?_
    unfold eventWait
    split_ifs
    · exact .refl t s
    · exact .enqueue hu (by simp)
  | blockingCall => exact Option.some.inj hs ▸ .enqueue hu (by simp)
  | exit =>
    refine Option.some.inj hs ▸ .goto ha (by simp) ⟨rfl, rfl, rfl, fun _ _ => ⟨rfl, rfl⟩, fun _ => .rfl, fun _ h => h,
      fun _ _ => ⟨rfl, rfl⟩, rfl, rfl, fun _ _ h => h, List.mem_erase_of_ne (Ne.symm hu), fun _ h => .inl h⟩

/-- A call of another thread that is not about task `t`. -/
def Call.Spares (s : State) (t : Nat) (c : Call) : Prop :=
  c ≠ .taskCancel t ∧ c ≠ .unpark t ∧ ∀ k, c = .tickerStop k → (s.ticker k).waiter ≠ some t

theorem frame_anyCall {c : Call} (hp : Places s.places) (ha : a ≠ .task t) (hq : ∀ o, c.grants = some o → t ∉ s.queue o)
    (hc : c.Spares s t) (hs : anyCall s a c = some s') : Frame t s s' := by
  cases c with simp only [anyCall, reduceCtorEq] at hs
  | tickerReset k interval =>
    split_ifs at hs
    · exact Option.some.inj hs ▸ .refl t s
    · exact Option.some.inj hs ▸ .goto ha (by simp) (.refl t s)
  | tickerStop k =>
    have hk := hc.2.2 k rfl
    split_ifs at hs
    refine Option.some.inj hs ▸ .cancelWaiter ha (by simpa [setTicker] using hk) (.setTicker (fun ht => ?_) (.refl t s))
    exact absurd ((hp.waiter k t).mpr ht) hk
  | taskCancel u =>
    have hu : t ≠ u := fun he => hc.1 (he ▸ rfl)
    split_ifs at hs
    · exact Option.some.inj hs ▸ .refl t s
    · exact Option.some.inj hs ▸ .goto ha (by simp [Ne.symm hu]) ⟨rfl, rfl, rfl, fun _ _ => ⟨rfl, rfl⟩, fun _ => .rfl,
        fun _ h => h, fun _ _ => ⟨rfl, rfl⟩, rfl, Function.update_of_ne hu _ _, fun _ _ h => h, .rfl,
        fun _ h => .inl h⟩
  | unpark u =>
    have hu : t ≠ u := fun he => hc.2.1 (he ▸ rfl)
    exact Option.some.inj hs ▸ .willUnpark ha (by simp [hu]) (.refl t s)
  | semaphorePost i =>
    refine Option.some.inj hs ▸ ?_
    unfold semaphorePost
    split
    · rename_i v l hl
      refine .willUnpark ha (fun hm => hq (.semaphore i) rfl ?_) (.of_eq rfl)
      rw [hl, List.mem_singleton.mp hm]
      exact List.mem_cons_self
    · split_ifs <;> exact .of_eq rfl
  | eventSet i => exact Option.some.inj hs ▸ .willUnpark ha (hq (.event i) rfl) (.of_eq rfl)
  | eventReset i => exact Option.some.inj hs ▸ .of_eq rfl

theorem frame_call {c : Call} (hp : Places s.places) (ha : a ≠ .task t) (hq : ∀ o, c.grants = some o → t ∉ s.queue o)
    (hc : c.Spares s t) (hs : call s a c = some s') : Frame t s s' := by
  unfold call at hs
  split_ifs at hs with hpc
  split at hs
  · cases hs
  · rename_i u
    have hu : u ≠ t := fun he => ha (he ▸ rfl)
    split_ifs at hs
    rcases Option.or_eq_some_iff.mp hs with hs | ⟨-, hs⟩
    · exact frame_taskCall hu hq hs
    · exact frame_anyCall hp ha hq hc hs
  · split at hs
    · exact Option.some.inj hs ▸ .goto ha (by simp) (.of_eq rfl)
    · exact frame_anyCall hp ha hq hc hs

/-- The steps of no thread, except `timer_runtime_request_stop` and the start of the task. -/
theorem frame_env {x : Act} (hp : Places s.places) (hx : ∀ a, (∀ c, x ≠ .call a c) ∧ ∀ e, x ≠ .next a e)
    (hr : x ≠ .requestStop) (hsp : x ≠ .spawn t) (hs : step s x = some s') : Frame t s s' := by
  cases x with simp only [step] at hs
  | clock c =>
    split_ifs at hs
    exact Option.some.inj hs ▸ .of_eq rfl
  | spawn u =>
    have hut : t ≠ u := fun he => hsp (he ▸ rfl)
    split_ifs at hs
    exact Option.some.inj hs ▸ ⟨rfl, rfl, rfl, fun _ _ => ⟨rfl, rfl⟩, fun _ => .rfl, fun _ h => h,
      fun _ _ => ⟨rfl, rfl⟩, rfl,
      rfl, fun _ _ h => h, by simp [hut], fun _ h => .inl h⟩
  | tickerNew k interval e =>
    split_ifs at hs with hk
    refine Option.some.inj hs ▸ .setTicker (fun ht => ?_) (.refl t s)
    have := hp.made k t ((hp.waiter k t).mpr ht)
    exact absurd this fun hm => hk (.inl hm)
  | call a c => exact absurd rfl ((hx a).1 c)
  | next a e => exact absurd rfl ((hx a).2 e)
  | requestStop => exact absurd rfl hr

end Frame

end Dlsmc.Timer
