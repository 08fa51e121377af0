import Dlsmc.Greenthread.TimerHeap
import Dlsmc.Greenthread.TimerProtocol

/-!
# The timer thread is armed in time

The timer thread waits for the deadline at the root of the heap, or for a
signal if the heap is empty. While it waits, the deadline stays a lower bound
of those in the heap (`Armed`): a registration that is not the new minimum
comes after the root, and a removal only takes nodes away. The others signal.
-/

namespace Dlsmc.Timer

/-- The wait of the timer thread. -/
def Pc.wait : Pc → Option (Option Nat)
  | .timerWait d => some d
  | _ => none

/-- The part of the state the argument is about. -/
structure Arming where
  heap : IndexedHeap Nat
  deadline : Nat → Nat
  sequence : Nat → Nat
  timerStop : Bool
  signalled : Bool
  wait : Option (Option Nat)

def State.arming (s : State) : Arming where
  heap := s.heap
  deadline := s.deadline
  sequence := s.sequence
  timerStop := s.timerStop
  signalled := s.signalled
  wait := (s.pc .timer).wait

def Arming.less (v : Arming) (left right : Nat) : Bool :=
  decide (v.deadline left < v.deadline right ∨
    v.deadline left = v.deadline right ∧ v.sequence left < v.sequence right)

structure Armed (v : Arming) : Prop where
  ordered : v.heap.Ordered v.less
  quiet : v.wait = none → v.signalled = false
  armed : ∀ d, v.wait = some d → v.signalled = false →
    v.timerStop = false ∧ ∀ n, v.heap.Mem n → ∃ x, d = some x ∧ x ≤ v.deadline n

/-- Unless a signal is pending, the timer thread waits for a deadline that is not later than any in the heap; it
waits without one only if the heap is empty; and it does not wait once the timer is stopped. -/
def NotLate (s : State) : Prop := ∀ d, s.pc .timer = .timerWait d → s.signalled = false → s.timerStop = false ∧
  (s.heap.count = 0 ∧ d = none ∨ ∃ x, d = some x ∧ ∀ n, s.heap.Mem n → x ≤ s.deadline n)

variable {s s' : State} {a : Actor} {t n i : Nat}

theorem armed_initial : Armed State.initial.arming where
  ordered _ hlt := absurd hlt (Nat.not_lt_zero _)
  quiet _ := rfl
  armed d hd _ := by cases hd

/-! ## Steps that leave the timer alone -/

/-- A thread that is not in the wait of the timer thread does not enter it. -/
theorem Armed.goto {c : Pc} (h : Armed s.arming) (ha : (s.pc a).wait = none) (hc : c.wait = none) :
    Armed (setPc s a c).arming := by
  have hw : ((setPc s a c).pc .timer).wait = (s.pc .timer).wait := by
    simp only [setPc, Function.update_apply]
    split
    · next he => rw [hc, he, ha]
    · rfl
  exact ⟨h.ordered, fun hn => h.quiet (hw.symm.trans hn), fun d hd => h.armed d (hw.symm.trans hd)⟩

theorem wait_pc (k : After) : k.pc.wait = none := by cases k <;> rfl

theorem wait_resume (b : Block) : b.resume.wait = none := by cases b <;> rfl

theorem Armed.unpark (h : Armed s.arming) (t : Nat) : Armed (unpark s t).arming := by
  unfold Timer.unpark
  split
  · exact h
  · split
    · next b hb => exact h.goto (by rw [hb]; rfl) (wait_resume b)
    · exact h

theorem Armed.willUnpark {l : List Nat} {k : After} (h : Armed s.arming) (ha : (s.pc a).wait = none) :
    Armed (willUnpark s a l k).arming := by
  unfold Timer.willUnpark
  split
  · exact h.goto ha (wait_pc k)
  · exact Armed.goto (s := { s with owed := s.owed ++ l.map (Prod.mk a) }) h ha rfl

theorem Armed.unparkStep {l : List Nat} {k : After} (h : Armed s.arming) (ha : s.pc a = .unparks l k) :
    Armed (unparkStep s a l k).arming := by
  unfold Timer.unparkStep
  split
  · exact h.goto (by rw [ha]; rfl) (wait_pc k)
  · rename_i t l
    have hu := Armed.unpark (s := { s with owed := s.owed.erase (a, t) }) h t
    refine hu.goto ?_ ?_
    · rw [pc_unpark_of_ne (s := { s with owed := s.owed.erase (a, t) }) (by simp [ha])]
      simp only [ha, Pc.wait]
    · split
      · exact wait_pc k
      · rfl

theorem Armed.sleepRet {d : Nat} {c : Caller} {st : Status} (h : Armed s.arming)
    (ht : (s.pc (.task t)).wait = none) : Armed (sleepRet s t d c st).arming := by
  unfold Timer.sleepRet
  split
  · exact Armed.goto (s := { s with log := s.log ++ [.sleep t d st s.clock] }) h ht rfl
  · split <;> exact h.goto ht rfl

theorem Armed.waitRet {w : Wait} {st : Status} (h : Armed s.arming) (ht : (s.pc (.task t)).wait = none) :
    Armed (waitRet s t w st).arming := by
  unfold Timer.waitRet
  split
  · exact h.sleepRet ht
  · exact h.goto ht rfl

theorem Armed.registerFail {w : Wait} {st : Status} (h : Armed s.arming) (ht : (s.pc (.task t)).wait = none) :
    Armed (registerFail s t w st).arming := by
  unfold Timer.registerFail
  split
  · exact h.sleepRet ht
  · exact h.goto ht rfl

/-! ## The heap -/

/-- After a signal nothing is asked of the wait. -/
theorem Armed.signal (ho : s.heap.Ordered s.arming.less) (hq : s.arming.wait = none → s.signalled = false) :
    Armed (signal s).arming := by
  unfold Timer.signal
  split
  · next hd =>
    refine ⟨ho, fun hn => ?_, fun _ _ hf => by cases hf⟩
    simp only [State.arming, hd, Pc.wait, reduceCtorEq] at hn
  · next hd =>
    refine ⟨ho, hq, fun d hw => ?_⟩
    simp only [State.arming] at hw
    unfold Pc.wait at hw
    split at hw
    · next hpc => exact absurd hpc (hd _)
    · cases hw

theorem Armed.leave (h : Armed s.arming) (hi : s.heap.Indexed) (st : TimerState) (n : Nat) :
    Armed (leave s i n st).arming := by
  have hless : s.arming.less = timerLess s := rfl
  unfold Timer.leave
  cases hr : s.heap.remove (timerLess s) SIZE_MAX i with
  | none => exact h
  | some p =>
    obtain ⟨m, heap⟩ := p
    have ho : heap.Ordered (timerLess s) := h.ordered.remove (weakOrder_timerLess s) hr
    have hsub : ∀ x, heap.Mem x → s.heap.Mem x := by
      by_cases hlt : i < s.heap.count
      · obtain ⟨heap', hr', hw⟩ := IndexedHeap.remove_spec (timerLess s) SIZE_MAX hi hlt
        rw [hr] at hr'
        obtain ⟨-, rfl⟩ := Prod.mk.inj (Option.some.inj hr')
        exact fun x hx => ((hw.mem x).mp hx).2
      · rw [IndexedHeap.remove, if_neg hlt] at hr
        cases hr
    exact ⟨ho, h.quiet, fun d hd hs => ⟨(h.armed d hd hs).1, fun x hx => (h.armed d hd hs).2 x (hsub x hx)⟩⟩

theorem Armed.cancelNode (h : Armed s.arming) (hi : s.heap.Indexed) (n : Nat) : Armed (cancelNode s n).arming := by
  have hl := h.leave (i := s.heap.index n) hi .cancelled n
  unfold Timer.cancelNode
  dsimp only
  split
  · exact Armed.signal hl.ordered hl.quiet
  · exact hl

/-- A node that is not in the heap is registered: the timer thread is signalled
if the node comes first, and else waits for no later a deadline. -/
theorem Armed.registerNode {w : Wait} {capacity : Nat} (h : Armed s.arming) (hi : s.heap.Indexed)
    (hn : ¬ s.heap.Mem n) (ht : (s.pc (.task t)).wait = none) : Armed (registerNode s t n w capacity).arming := by
  unfold Timer.registerNode
  extract_lets s₁ first s₂
  have hne : ∀ x, s.heap.Mem x → x ≠ n := fun x hx e => hn (e ▸ hx)
  have hless : ∀ x y, s.heap.Mem x → s.heap.Mem y → timerLess s₁ x y = timerLess s x y := fun x y hx hy => by
    simp only [timerLess, s₁, Function.update_of_ne (hne x hx), Function.update_of_ne (hne y hy)]
  have hold : s.heap.Ordered (timerLess s₁) := h.ordered.congr hless
  have ho : s₂.heap.Ordered (timerLess s₁) := hold.push (weakOrder_timerLess s₁) n
  obtain ⟨-, -, hmem⟩ := IndexedHeap.push_spec (timerLess s₁) hi hn
  have hpc : ∀ c : Pc, c.wait = none → Armed (setPc (if first then Timer.signal s₂ else s₂) (.task t) c).arming := by
    intro c hc
    split
    · refine (Armed.signal ho h.quiet).goto ?_ hc
      rw [pc_signal]
      exact ht
    · next hf =>
      obtain ⟨hcount, hroot⟩ := not_or.mp hf
      refine Armed.goto ⟨ho, h.quiet, fun d hd hs => ⟨(h.armed d hd hs).1, fun x hx => ?_⟩⟩ ht hc
      have harm := (h.armed d hd hs).2
      have h₀ : s.heap.Mem (s.heap.arr 0) := ⟨0, Nat.pos_of_ne_zero hcount, rfl⟩
      show ∃ y, d = some y ∧ y ≤ Function.update s.deadline n w.deadline x
      rcases (hmem x).mp hx with rfl | hx
      · obtain ⟨y, rfl, hle⟩ := harm _ h₀
        refine ⟨y, rfl, Nat.le_trans hle ?_⟩
        simp only [timerLess, s₁, Function.update_self, Function.update_of_ne (hne _ h₀), decide_eq_true_eq] at hroot
        simp only [State.arming, Function.update_self]
        omega
      · rw [Function.update_of_ne (hne x hx)]
        exact harm x hx
  exact hpc _ (by cases w <;> rfl)

theorem Armed.timerWaitRegister {w : Wait} {e : Env} (h : Armed s.arming) (hi : Inv s.view)
    (hpc : s.pc (.task t) = .register w) (hs : timerWaitRegister s t w e = some s') : Armed s'.arming := by
  have ht : (s.pc (.task t)).wait = none := by rw [hpc]; rfl
  unfold Timer.timerWaitRegister at hs
  split at hs
  · exact Option.some.inj hs ▸ h.registerFail ht
  · rename_i n _
    split_ifs at hs with ha hf
    · exact Option.some.inj hs ▸ h.registerFail ht
    · split at hs
      · refine Option.some.inj hs ▸ Armed.registerFail ?_ ht
        exact h
      · refine Option.some.inj hs ▸ h.registerNode hi.indexed (fun hm => ?_) ht
        exact ha ((hi.mem n).mp hm).1

theorem Armed.timerWaitFinish {w : Wait} (h : Armed s.arming) (hi : Inv s.view)
    (hpc : s.pc (.task t) = .finish n w) : Armed (timerWaitFinish s t n w).arming := by
  have ht : (s.pc (.task t)).wait = none := by rw [hpc]; rfl
  have hf : Armed (finishNode s n).arming ∧ (finishNode s n).pc = s.pc := by
    unfold finishNode
    split
    · exact ⟨h.cancelNode hi.indexed n, pc_cancelNode s n⟩
    · exact ⟨h, rfl⟩
  unfold Timer.timerWaitFinish
  refine Armed.waitRet ?_ (by simp only [hf.2, ht])
  exact hf.1

theorem Armed.timerCancelTaskWait {k : After} (h : Armed s.arming) (hi : Inv s.view)
    (hpc : s.pc a = .cancelTimer t k) : Armed (timerCancelTaskWait s a t k).arming := by
  have ha : (s.pc a).wait = none := by rw [hpc]; rfl
  unfold Timer.timerCancelTaskWait
  split
  · rename_i n hn
    split
    · exact (h.cancelNode hi.indexed n).willUnpark (by rw [pc_cancelNode, ha])
    · exact h.goto ha (wait_pc k)
  · exact h.goto ha (wait_pc k)

/-- The timer thread begins to wait. -/
theorem Armed.wait {d : Option Nat} (h : Armed s.arming) (hs : s.timerStop = false)
    (hd : ∀ n, s.heap.Mem n → ∃ x, d = some x ∧ x ≤ s.deadline n) : Armed (setPc s .timer (.timerWait d)).arming := by
  have hw : (setPc s .timer (.timerWait d)).arming.wait = some d := by
    simp only [State.arming, setPc, Function.update_self, Pc.wait]
  refine ⟨h.ordered, fun hn => ?_, fun d' hd' _ => ⟨hs, fun n hn => ?_⟩⟩
  · rw [hw] at hn
    cases hn
  · rw [hw] at hd'
    exact Option.some.inj hd' ▸ hd n hn

theorem Armed.timerLoop {e : Env} (h : Armed s.arming) (hi : Inv s.view) (hpc : s.pc .timer = .timerLoop) :
    Armed (timerLoop s e).arming := by
  have ha : (s.pc .timer).wait = none := by rw [hpc]; rfl
  unfold Timer.timerLoop
  dsimp only
  split_ifs with h₁ h₂ h₃ h₄
  · exact (h.leave hi.indexed .cancelled _).willUnpark ha
  · exact h.goto ha rfl
  · refine h.wait (by simpa using h₁) fun n hn => ?_
    obtain ⟨j, hj, -⟩ := hn
    omega
  · exact (h.leave hi.indexed .expired _).willUnpark ha
  · refine h.wait (by simpa using h₁) fun n hn => ⟨_, rfl, ?_⟩
    obtain ⟨j, hj, rfl⟩ := hn
    have hle : timerLess s (s.heap.arr j) (s.heap.arr 0) = false := h.ordered.least (weakOrder_timerLess s) hj
    simp only [timerLess, decide_eq_false_iff_not] at hle
    omega

/-! ## Steps -/

theorem Armed.tickRet {k count : Nat} {st : Status} (h : Armed s.arming) (ht : (s.pc (.task t)).wait = none) :
    Armed (tickRet s t k st count).arming :=
  Armed.goto (s := { setTicker s k { s.ticker k with waiter := none } with log := s.log ++ [.tick t k st count] })
    h ht rfl

theorem Armed.cancelWaiter {k : Nat} (h : Armed s.arming) (ha : (s.pc a).wait = none) :
    Armed (cancelWaiter s a k).arming := by
  unfold Timer.cancelWaiter
  split
  · exact h.goto ha rfl
  · exact h.goto ha rfl

theorem armed_next {e : Env} (h : Armed s.arming) (hi : Inv s.view) (hs : next s a e = some s') : Armed s'.arming := by
  unfold next at hs
  split at hs
  · rename_i t d c hpc
    have ht : (s.pc (.task t)).wait = none := by rw [hpc]; rfl
    refine Option.some.inj hs ▸ ?_
    unfold sleepCheck
    split_ifs
    · exact h.sleepRet ht
    · exact h.sleepRet ht
    · exact h.goto ht rfl
  · rename_i t d c hpc
    have ht : (s.pc (.task t)).wait = none := by rw [hpc]; rfl
    refine Option.some.inj hs ▸ ?_
    unfold sleepClock
    split_ifs
    · exact h.sleepRet ht
    · exact h.sleepRet ht
    · exact h.goto ht rfl
  · rename_i t w hpc
    exact h.timerWaitRegister hi hpc hs
  · rename_i t b hpc
    have ht : (s.pc (.task t)).wait = none := by rw [hpc]; rfl
    refine Option.some.inj hs ▸ ?_
    unfold rtPark
    split_ifs
    · exact Armed.goto (s := { s with unparkPending := Function.update s.unparkPending t false }) h ht (wait_resume b)
    · exact h.goto ht rfl
  · rename_i t n w hpc
    exact Option.some.inj hs ▸ h.timerWaitFinish hi hpc
  · rename_i t i d hpc
    exact Option.some.inj hs ▸ h.goto (by rw [hpc]; rfl) rfl
  · rename_i t i d st hpc
    have ht : (s.pc (.task t)).wait = none := by rw [hpc]; rfl
    refine Option.some.inj hs ▸ ?_
    unfold timedRecheck
    split_ifs
    · exact h.goto ht rfl
    · exact Armed.goto (s := setQueue s (.mutex i) ((s.queue (.mutex i)).erase t)) h ht rfl
    · exact h.goto ht rfl
  · rename_i t o hpc
    exact Option.some.inj hs ▸ h.goto (by rw [hpc]; rfl) (by split <;> rfl)
  · rename_i t k hpc
    have ht : (s.pc (.task t)).wait = none := by rw [hpc]; rfl
    unfold tickLoop at hs
    dsimp only at hs
    split_ifs at hs
    · exact Option.some.inj hs ▸ h.tickRet ht
    · exact Option.some.inj hs ▸ h.goto ht rfl
  · rename_i t n k d g hpc
    unfold tickStale at hs
    dsimp only at hs
    split_ifs at hs
    · exact Option.some.inj hs ▸ h.goto (by rw [hpc]; rfl) rfl
    · exact Option.some.inj hs ▸ h.goto (by rw [hpc]; rfl) rfl
  · rename_i t k d g st hpc
    have ht : (s.pc (.task t)).wait = none := by rw [hpc]; rfl
    unfold tickEnd at hs
    dsimp only at hs
    split_ifs at hs
    · exact Option.some.inj hs ▸ h.tickRet ht
    · exact Option.some.inj hs ▸ h.goto ht rfl
    · exact Option.some.inj hs ▸ h.tickRet ht
    · exact Option.some.inj hs ▸ h.tickRet ht
    all_goals
      refine Option.some.inj hs ▸ Armed.tickRet ?_ ht
      exact h
  · rename_i t k st hpc
    split_ifs at hs
    exact Option.some.inj hs ▸ h.tickRet (by rw [hpc]; rfl)
  · rename_i t u hpc
    have ht : (s.pc (.task t)).wait = none := by rw [hpc]; rfl
    split_ifs at hs
    · exact Option.some.inj hs ▸ Armed.goto (s := { s with log := s.log ++ [.taskWait t u .ok] }) h ht rfl
    · exact Option.some.inj hs ▸ Armed.goto (s := { s with
        completionWaiters := Function.update s.completionWaiters u ((s.completionWaiters u).erase t)
        log := s.log ++ [.taskWait t u .cancelled] }) h ht rfl
  · rename_i t hpc
    refine Option.some.inj hs ▸ Armed.willUnpark ?_ (by rw [hpc]; rfl)
    exact h
  · rename_i hpc
    exact Option.some.inj hs ▸ h.goto (by rw [hpc]; rfl) (by split <;> rfl)
  · rename_i k interval now hpc
    unfold tickerReset at hs
    dsimp only at hs
    split_ifs at hs
    · exact Option.some.inj hs ▸ h.goto (by rw [hpc]; rfl) rfl
    all_goals
      refine Option.some.inj hs ▸ Armed.cancelWaiter ?_ (by simp only [setTicker]; rw [hpc]; rfl)
      exact h
  · rename_i k hpc
    exact Option.some.inj hs ▸ Armed.goto (s := setTicker s k { s.ticker k with locked := false }) h
      (by simp only [setTicker]; rw [hpc]; rfl) rfl
  · rename_i t k hpc
    exact Option.some.inj hs ▸ h.timerCancelTaskWait hi hpc
  · rename_i l k hpc
    exact Option.some.inj hs ▸ h.unparkStep hpc
  · rename_i t hpc
    refine Option.some.inj hs ▸ Armed.willUnpark ?_ (by simp only; rw [hpc]; rfl)
    exact h
  · rename_i hpc
    exact Option.some.inj hs ▸ h.timerLoop hi hpc
  · refine Option.some.inj hs ▸ ⟨h.ordered, fun _ => rfl, fun d hd => ?_⟩
    simp only [State.arming, setPc, Function.update_self, Pc.wait, reduceCtorEq] at hd
  · cases hs

theorem Armed.enqueue {o : Obj} {c : Pc} (h : Armed s.arming) (ht : (s.pc (.task t)).wait = none) (hc : c.wait = none) :
    Armed (enqueue s t o c).arming :=
  Armed.goto (s := setQueue { s with granted := Function.update s.granted t false } o (s.queue o ++ [t])) h ht hc

theorem Armed.mutexLock {i : Nat} {c : Pc} (h : Armed s.arming) (ht : (s.pc (.task t)).wait = none)
    (hc : c.wait = none) : Armed (mutexLock s t i c).arming := by
  unfold Timer.mutexLock
  split
  · exact h
  · split_ifs
    · exact h
    · exact h.enqueue ht hc

theorem armed_taskCall {c : Call} (h : Armed s.arming) (hpc : s.pc (.task t) = .idle) (hs : taskCall s t c = some s') :
    Armed s'.arming := by
  have ht : (s.pc (.task t)).wait = none := by rw [hpc]; rfl
  cases c with simp only [taskCall, reduceCtorEq] at hs
  | sleepUntil d => exact Option.some.inj hs ▸ h.goto ht rfl
  | tickerWait k =>
    split_ifs at hs
    · exact Option.some.inj hs ▸ h
    · exact Option.some.inj hs ▸ Armed.goto (s := setTicker s k { s.ticker k with waiter := some t }) h ht rfl
  | taskWait u =>
    split_ifs at hs
    · exact Option.some.inj hs ▸ h
    · exact Option.some.inj hs ▸ h
    · exact Option.some.inj hs ▸ Armed.goto (s := { s with
        completionWaiters := Function.update s.completionWaiters u (t :: s.completionWaiters u) }) h ht rfl
  | lock i => exact Option.some.inj hs ▸ h.mutexLock ht rfl
  | timedlock i d =>
    split_ifs at hs
    · exact Option.some.inj hs ▸ h
    · exact Option.some.inj hs ▸ h.mutexLock ht rfl
  | unlock i =>
    refine Option.some.inj hs ▸ ?_
    unfold mutexUnlock
    split_ifs
    · exact h
    · split
      · exact h
      · refine Armed.willUnpark ?_ ht
        exact h
  | semaphoreWait i =>
    refine Option.some.inj hs ▸ ?_
    unfold semaphoreWait
    split_ifs
    · exact h
    · exact h.enqueue ht rfl
  | eventWait i =>
    refine Option.some.inj hs ▸ ?_
    unfold eventWait
    split_ifs
    · exact h
    · exact h.enqueue ht rfl
  | blockingCall => exact Option.some.inj hs ▸ h.enqueue ht rfl
  | exit =>
    exact Option.some.inj hs ▸ Armed.goto (s := { s with
      finished := Function.update s.finished t true, live := s.live.erase t }) h ht rfl

theorem armed_anyCall {c : Call} (h : Armed s.arming) (hpc : s.pc a = .idle) (hs : anyCall s a c = some s') :
    Armed s'.arming := by
  have ha : (s.pc a).wait = none := by rw [hpc]; rfl
  cases c with simp only [anyCall, reduceCtorEq] at hs
  | tickerReset k interval =>
    split_ifs at hs
    · exact Option.some.inj hs ▸ h
    · exact Option.some.inj hs ▸ h.goto ha rfl
  | tickerStop k =>
    split_ifs at hs
    refine Option.some.inj hs ▸ Armed.cancelWaiter ?_ ha
    exact h
  | taskCancel t =>
    split_ifs at hs
    · exact Option.some.inj hs ▸ h
    · exact Option.some.inj hs ▸ Armed.goto (s := { s with
        cancelRequested := Function.update s.cancelRequested t true }) h ha rfl
  | unpark t => exact Option.some.inj hs ▸ h.willUnpark ha
  | semaphorePost i =>
    refine Option.some.inj hs ▸ ?_
    unfold semaphorePost
    split
    · refine Armed.willUnpark ?_ ha
      exact h
    · split_ifs <;> exact h
  | eventSet i =>
    refine Option.some.inj hs ▸ Armed.willUnpark ?_ ha
    exact h
  | eventReset i => exact Option.some.inj hs ▸ h

theorem armed_call {c : Call} (h : Armed s.arming) (hs : call s a c = some s') : Armed s'.arming := by
  unfold call at hs
  split_ifs at hs with hpc
  replace hpc := not_not.mp hpc
  split at hs
  · cases hs
  · split_ifs at hs
    rcases Option.or_eq_some_iff.mp hs with hs | ⟨-, hs⟩
    · exact armed_taskCall h hpc hs
    · exact armed_anyCall h hpc hs
  · split at hs
    · exact Option.some.inj hs ▸ Armed.goto (s := setQueue s .jobs _) h (by simp only [setQueue]; rw [hpc]; rfl) rfl
    · exact armed_anyCall h hpc hs

theorem armed_step {x : Act} (h : Armed s.arming) (hi : Inv s.view) (hs : step s x = some s') : Armed s'.arming := by
  cases x with simp only [step] at hs
  | clock c =>
    split_ifs at hs
    exact Option.some.inj hs ▸ h
  | spawn t =>
    split_ifs at hs
    exact Option.some.inj hs ▸ h
  | tickerNew k interval e =>
    split_ifs at hs
    exact Option.some.inj hs ▸ h
  | call a c => exact armed_call h hs
  | next a e => exact armed_next h hi hs
  | requestStop => exact Option.some.inj hs ▸ Armed.signal (s := { s with timerStop := true }) h.ordered h.quiet

theorem armed_of_reach (h : machine.Reach s) : Armed s.arming :=
  h.invariant (I := fun s => Armed s.arming) (fun _ h => h ▸ armed_initial) fun _ _ _ hr h hs =>
    armed_step h (inv_of_reach hr) hs

/-- The timer thread is never armed too late. -/
theorem notLate_of_reach (h : machine.Reach s) : NotLate s := by
  intro d hd hs
  have hw : s.arming.wait = some d := by simp only [State.arming, hd, Pc.wait]
  obtain ⟨hstop, hle⟩ := (armed_of_reach h).armed d hw hs
  refine ⟨hstop, ?_⟩
  cases d with
  | none =>
    refine .inl ⟨?_, rfl⟩
    by_contra hne
    obtain ⟨x, hx, -⟩ := hle (s.heap.arr 0) ⟨0, Nat.pos_of_ne_zero hne, rfl⟩
    cases hx
  | some x =>
    refine .inr ⟨x, rfl, fun n hn => ?_⟩
    obtain ⟨y, hy, hle⟩ := hle n hn
    exact Option.some.inj hy ▸ hle

/-- The timer thread waits for the first of two timers, registered after the
other one. -/
theorem notLate_of_reach_two : ∃ s, machine.Reach s ∧ NotLate s ∧ s.pc .timer = .timerWait (some 5) ∧
    s.signalled = false ∧ s.heap.count = 2 := by
  obtain ⟨s, hr, hp⟩ := Machine.exists_reach_of_run (M := machine) (s := State.initial)
    (l := [.spawn 1, .spawn 2, .call (.task 1) (.sleepUntil 9), .next (.task 1) ⟨true, none, true⟩,
      .next (.task 1) ⟨true, none, true⟩, .next (.task 1) ⟨true, some 10, true⟩, .next .timer ⟨true, none, true⟩,
      .call (.task 2) (.sleepUntil 5), .next (.task 2) ⟨true, none, true⟩, .next (.task 2) ⟨true, none, true⟩,
      .next (.task 2) ⟨true, some 11, true⟩, .next .timer ⟨true, none, true⟩, .next .timer ⟨true, none, true⟩])
    (p := fun s => decide (s.pc .timer = .timerWait (some 5) ∧ s.signalled = false ∧ s.heap.count = 2)) rfl
    (by decide +kernel)
  exact ⟨s, hr, notLate_of_reach hr, of_decide_eq_true hp⟩

end Dlsmc.Timer
