import Mathlib.Data.List.Nodup
import Dlsmc.Greenthread.Timer

/-!
# Every timer has one outcome

A node is in the heap as long as its state is `TIMER_WAITING` (`Inv`). It
leaves the heap and that state in one section, by the timer thread, by
`timer_cancel_task_wait` or by the task that waits with it, which alone frees
it.
-/

namespace Dlsmc.Timer

/-- The node a task waits with, where it stands. -/
def After.node : After → Option Nat
  | .finish n _ => some n
  | _ => none

def Pc.node : Pc → Option Nat
  | .park (.timer n _) | .parked (.timer n _) | .finish n _ | .tickStale n _ _ _ => some n
  | .cancelTimer _ k | .unparks _ k => k.node
  | _ => none

/-- Nodes are in the heap while they wait, every registration has one outcome
when it no longer does, the counters agree with the heap, a task has one node,
and `timer_wait_finish` returns `DLSM_OK` for those that have expired. -/
structure TimerProtocol (s : State) : Prop where
  waiting : ∀ n, s.heap.Mem n ↔ s.allocated n = true ∧ s.nodeState n = .waiting
  once : (s.outcomes.map Prod.fst).Nodup ∧ ∀ p ∈ s.outcomes, p.2 = .expired ∨ p.2 = .cancelled
  outcome : ∀ k, k < s.timersRegistered →
    (k ∈ s.outcomes.map Prod.fst ↔ ¬ ∃ n, s.allocated n = true ∧ s.nodeState n = .waiting ∧ s.serial n = k)
  state : ∀ n, s.allocated n = true → s.nodeState n ≠ .waiting → (s.serial n, s.nodeState n) ∈ s.outcomes
  counters : s.timersRegistered = s.timersExpired + s.timersCancelled + s.heap.count
  one : ∀ n, s.allocated n = true → ∀ m, s.timerNode (s.nodeTask n) = some m ↔ m = n
  timerNode : ∀ t, s.timerNode t = (s.pc (.task t)).node
  finish : ∀ t n w, s.pc (.task t) = .finish n w → s.allocated n = true ∧ s.nodeTask n = t ∧
    (finishStatus s n = .ok ↔ (s.serial n, .expired) ∈ s.outcomes) ∧
    (finishStatus s n = .ok → s.deadline n ≤ s.clock)

/-- The part of the state the argument is about. -/
structure View where
  clock : Nat
  heap : IndexedHeap Nat
  deadline : Nat → Nat
  nodeState : Nat → TimerState
  nodeTask : Nat → Nat
  allocated : Nat → Bool
  timersRegistered : Nat
  timersExpired : Nat
  timersCancelled : Nat
  timerNode : Nat → Option Nat
  serial : Nat → Nat
  outcomes : List (Nat × TimerState)
  node : Nat → Option Nat

def State.view (s : State) : View where
  clock := s.clock
  heap := s.heap
  deadline := s.deadline
  nodeState := s.nodeState
  nodeTask := s.nodeTask
  allocated := s.allocated
  timersRegistered := s.timersRegistered
  timersExpired := s.timersExpired
  timersCancelled := s.timersCancelled
  timerNode := s.timerNode
  serial := s.serial
  outcomes := s.outcomes
  node := fun t => (s.pc (.task t)).node

structure Inv (v : View) : Prop where
  indexed : v.heap.Indexed
  mem : ∀ n, v.heap.Mem n ↔ v.allocated n = true ∧ v.nodeState n = .waiting
  counters : v.timersRegistered = v.timersExpired + v.timersCancelled + v.heap.count
  timerNode : ∀ t, v.timerNode t = v.node t
  owner : ∀ t n, v.timerNode t = some n → v.allocated n = true ∧ v.nodeTask n = t
  points : ∀ n, v.allocated n = true → v.timerNode (v.nodeTask n) = some n
  expired : ∀ n, v.allocated n = true → v.nodeState n = .expired → v.deadline n ≤ v.clock
  serial_lt : ∀ n, v.allocated n = true → v.serial n < v.timersRegistered
  serial_inj : ∀ n m, v.allocated n = true → v.allocated m = true → v.serial n = v.serial m → n = m
  outcome : ∀ n, v.allocated n = true → v.nodeState n ≠ .waiting → (v.serial n, v.nodeState n) ∈ v.outcomes
  unfinished : ∀ n, v.allocated n = true → v.nodeState n = .waiting → ∀ st, (v.serial n, st) ∉ v.outcomes
  past : ∀ k st, (k, st) ∈ v.outcomes → k < v.timersRegistered ∧ st ≠ .waiting
  nodup : (v.outcomes.map Prod.fst).Nodup
  all : ∀ k, k < v.timersRegistered →
    (∃ st, (k, st) ∈ v.outcomes) ∨ ∃ n, v.allocated n = true ∧ v.nodeState n = .waiting ∧ v.serial n = k

section Steps

variable {v : View} {t n : Nat}

attribute [local grind =] Function.update_apply

theorem inv_initial : Inv State.initial.view := by
  constructor <;> simp [State.initial, State.view, IndexedHeap.Indexed, IndexedHeap.Mem, Pc.node]

theorem Inv.clock (h : Inv v) {c : Nat} (hc : v.clock ≤ c) : Inv { v with clock := c } := by
  obtain ⟨h₁, h₂, h₃, h₄, h₅, h₆, h₇, h₈, h₉, h₁₀, h₁₁, h₁₂, h₁₃, h₁₄⟩ := h
  exact ⟨h₁, h₂, h₃, h₄, h₅, h₆, fun n ha he => Nat.le_trans (h₇ n ha he) hc, h₈, h₉, h₁₀, h₁₁, h₁₂, h₁₃, h₁₄⟩

/-- A waiting node leaves the heap. -/
theorem Inv.leave (h : Inv v) (hm : v.heap.Mem n) {st : TimerState} (hst : st ≠ .waiting)
    (hd : st = .expired → v.deadline n ≤ v.clock) {heap : IndexedHeap Nat} (hw : v.heap.Without heap n) :
    Inv { v with
      heap := heap
      nodeState := Function.update v.nodeState n st
      timersExpired := if st = .expired then v.timersExpired + 1 else v.timersExpired
      timersCancelled := if st = .cancelled then v.timersCancelled + 1 else v.timersCancelled
      outcomes := v.outcomes ++ [(v.serial n, st)] } := by
  obtain ⟨h₁, h₂, h₃, h₄, h₅, h₆, h₇, h₈, h₉, h₁₀, h₁₁, h₁₂, h₁₃, h₁₄⟩ := h
  have hn := (h₂ n).mp hm
  have hnew : ∀ st, (v.serial n, st) ∉ v.outcomes := h₁₁ n hn.1 hn.2
  have hcount := hw.count
  refine ⟨hw.indexed, fun m => ?_, ?_, h₄, h₅, h₆, ?_, h₈, h₉, ?_, ?_, ?_, ?_, ?_⟩
  · rw [hw.mem m, h₂ m]
    grind -linarith
  · cases st with
    | waiting => exact absurd rfl hst
    | expired =>
      simp only [reduceCtorEq, if_true, if_false]
      omega
    | cancelled =>
      simp only [reduceCtorEq, if_true, if_false]
      omega
  · grind -linarith
  · grind -linarith
  · grind -linarith
  · grind -linarith
  · simp only [List.map_append, List.map_cons, List.map_nil]
    refine List.nodup_append.mpr ⟨h₁₃, List.nodup_singleton _, ?_⟩
    intro a ha b hb e
    obtain ⟨p, hp, rfl⟩ := List.mem_map.mp ha
    simp only [List.mem_singleton] at hb
    exact hnew p.2 (by rw [← hb, ← e]; exact hp)
  · grind -linarith

/-- A node is registered for task `t`. -/
theorem Inv.register (h : Inv v) (ha : v.allocated n = false) (ht : v.timerNode t = none) {d : Nat}
    {heap : IndexedHeap Nat} (hi : heap.Indexed) (hc : heap.count = v.heap.count + 1)
    (hm : ∀ m, heap.Mem m ↔ m = n ∨ v.heap.Mem m) :
    Inv { v with
      heap := heap
      deadline := Function.update v.deadline n d
      nodeState := Function.update v.nodeState n .waiting
      nodeTask := Function.update v.nodeTask n t
      allocated := Function.update v.allocated n true
      timersRegistered := v.timersRegistered + 1
      timerNode := Function.update v.timerNode t (some n)
      serial := Function.update v.serial n v.timersRegistered
      node := Function.update v.node t (some n) } := by
  obtain ⟨h₁, h₂, h₃, h₄, h₅, h₆, h₇, h₈, h₉, h₁₀, h₁₁, h₁₂, h₁₃, h₁₄⟩ := h
  refine ⟨hi, fun m => ?_, ?_, ?_, ?_, ?_, ?_, ?_, ?_, ?_, ?_, ?_, h₁₃, fun k hk => ?_⟩
  · rw [hm m, h₂ m]
    grind -linarith
  · simp only
    omega
  · grind -linarith
  · grind -linarith
  · grind -linarith
  · grind -linarith
  · grind -linarith
  · grind -linarith
  · grind -linarith
  · grind -linarith
  · grind -linarith
  · rcases Nat.lt_or_eq_of_le (Nat.le_of_lt_succ hk) with hk | rfl
    · rcases h₁₄ k hk with ho | ⟨m, hma, hms, rfl⟩
      · exact .inl ho
      · exact .inr ⟨m, by grind -linarith, by grind -linarith, by grind -linarith⟩
    · exact .inr ⟨n, by simp, by simp, by simp⟩

/-- Task `t` frees its node, which no longer waits. -/
theorem Inv.free (h : Inv v) (ht : v.timerNode t = some n) (hs : v.nodeState n ≠ .waiting) :
    Inv { v with
      timerNode := Function.update v.timerNode t none
      allocated := Function.update v.allocated n false
      node := Function.update v.node t none } := by
  obtain ⟨h₁, h₂, h₃, h₄, h₅, h₆, h₇, h₈, h₉, h₁₀, h₁₁, h₁₂, h₁₃, h₁₄⟩ := h
  refine ⟨h₁, fun m => ?_, h₃, ?_, ?_, ?_, ?_, ?_, ?_, ?_, ?_, h₁₂, h₁₃, fun k hk => ?_⟩
  · rw [h₂ m]
    grind -linarith
  · grind -linarith
  · grind -linarith
  · grind -linarith
  · grind -linarith
  · grind -linarith
  · grind -linarith
  · grind -linarith
  · grind -linarith
  · rcases h₁₄ k hk with ho | ⟨m, hma, hms, rfl⟩
    · exact .inl ho
    · exact .inr ⟨m, by grind -linarith, hms, rfl⟩

end Steps

/-! ## What each step does to the timers -/

section Views

variable {s s' : State} {a : Actor} {t n : Nat}

theorem view_setPc_task (s : State) (t : Nat) (c : Pc) :
    (setPc s (.task t) c).view = { s.view with node := Function.update s.view.node t c.node } := by
  simp only [State.view, setPc, View.mk.injEq, true_and]
  funext u
  by_cases hu : u = t
  · subst hu
    simp
  · simp [hu]

/-- A thread goes on with the node it has. -/
theorem view_setPc {c : Pc} (h : ∀ t, a = .task t → c.node = (s.pc a).node) : (setPc s a c).view = s.view := by
  simp only [State.view, setPc, View.mk.injEq, true_and]
  funext u
  by_cases hu : a = .task u
  · subst hu
    simpa using h u rfl
  · rw [Function.update_of_ne (Ne.symm hu)]

theorem view_signal (s : State) : (signal s).view = s.view := by
  unfold signal
  split <;> rfl

theorem pc_signal (s : State) : (signal s).pc = s.pc := by
  unfold signal
  split <;> rfl

theorem Block.resume_node (b : Block) : b.resume.node = (Pc.parked b).node := by
  cases b <;> rfl

theorem After.pc_node (k : After) : k.pc.node = k.node := by
  cases k <;> rfl

theorem view_unpark (s : State) (t : Nat) : (unpark s t).view = s.view := by
  unfold unpark
  split
  · rfl
  · split
    · rename_i b hb
      exact view_setPc fun u hu => by cases hu; rw [hb, Block.resume_node]
    · rfl

/-- Only a parked task is moved by an unpark. -/
theorem pc_unpark_of_ne {c : Actor} (hc : ∀ b, s.pc c ≠ .parked b) : (unpark s t).pc c = s.pc c := by
  unfold unpark
  split
  · rfl
  · split
    · rename_i b hb
      refine Function.update_of_ne ?_ _ _
      rintro rfl
      exact hc b hb
    · rfl

theorem view_willUnpark {l : List Nat} {k : After} (h : ∀ t, a = .task t → k.node = (s.pc a).node) :
    (willUnpark s a l k).view = s.view := by
  unfold willUnpark
  split
  · exact view_setPc fun t ht => by rw [After.pc_node]; exact h t ht
  · exact view_setPc (s := { s with owed := s.owed ++ l.map (Prod.mk a) }) h

theorem view_unparkStep {l : List Nat} {k : After} (h : s.pc a = .unparks l k) :
    (unparkStep s a l k).view = s.view := by
  unfold unparkStep
  split
  · exact view_setPc fun t _ => by rw [h, After.pc_node]; rfl
  · rename_i t l
    have hpc : (unpark { s with owed := s.owed.erase (a, t) } t).pc a = .unparks (t :: l) k := by
      rw [pc_unpark_of_ne (s := { s with owed := s.owed.erase (a, t) })]
      · exact h
      · intro b
        simp [h]
    rw [view_setPc, view_unpark]
    · rfl
    · intro u _
      rw [hpc]
      split
      · exact After.pc_node k
      · rfl

theorem Inv.leave_index (h : Inv s.view) (hm : s.heap.Mem n) {st : TimerState} (hst : st ≠ .waiting)
    (hd : st = .expired → s.deadline n ≤ s.clock) : Inv (Timer.leave s (s.heap.index n) n st).view := by
  obtain ⟨heap, hr, hw⟩ := IndexedHeap.remove_index_spec (timerLess s) SIZE_MAX h.indexed hm
  replace hr : s.heap.remove (timerLess s) SIZE_MAX (s.heap.index n) = some (n, heap) := hr
  have := h.leave hm hst hd hw
  simpa only [Timer.leave, State.view, hr] using this

theorem Inv.leave_first (h : Inv s.view) (hc : 0 < s.heap.count) {st : TimerState} (hst : st ≠ .waiting)
    (hd : st = .expired → s.deadline (s.heap.arr 0) ≤ s.clock) :
    Inv (Timer.leave s 0 (s.heap.arr 0) st).view := by
  have hm : s.heap.Mem (s.heap.arr 0) := ⟨0, hc, rfl⟩
  have := h.leave_index hm hst hd
  rwa [show s.heap.index (s.heap.arr 0) = 0 from h.indexed 0 hc] at this

theorem Inv.cancelNode (h : Inv s.view) (hm : s.heap.Mem n) : Inv (Timer.cancelNode s n).view := by
  have := h.leave_index hm (show TimerState.cancelled ≠ .waiting by simp) (by simp)
  unfold Timer.cancelNode
  dsimp only
  split
  · rwa [view_signal]
  · exact this

theorem pc_cancelNode (s : State) (n : Nat) : (cancelNode s n).pc = s.pc := by
  unfold cancelNode
  dsimp only
  split
  · exact pc_signal _
  · rfl

theorem nodeState_cancelNode (s : State) (n : Nat) : (cancelNode s n).nodeState n = .cancelled := by
  unfold cancelNode leave signal
  dsimp only
  split_ifs <;> (try split) <;> simp

theorem timerNode_cancelNode (s : State) (n : Nat) : (cancelNode s n).timerNode = s.timerNode := by
  unfold cancelNode leave signal
  dsimp only
  split_ifs <;> (try split) <;> rfl

/-- `timer_cancel_task_wait` -/
theorem Inv.timerCancelTaskWait {k : After} (h : Inv s.view) (hpc : s.pc a = .cancelTimer t k) :
    Inv (Timer.timerCancelTaskWait s a t k).view := by
  have hk : (setPc s a k.pc).view = s.view := view_setPc fun u _ => by rw [hpc, After.pc_node]; rfl
  unfold Timer.timerCancelTaskWait
  split
  · rename_i n hn
    split
    · rename_i hw
      rw [view_willUnpark]
      · exact h.cancelNode ((h.mem n).mpr ⟨(h.owner t n hn).1, hw⟩)
      · intro u _
        rw [pc_cancelNode, hpc]
        rfl
    · rwa [hk]
  · rwa [hk]

/-! ## The wait of a task -/

theorem view_sleepRet (s : State) (t d : Nat) (c : Caller) (st : Status) :
    (sleepRet s t d c st).view = { s.view with node := Function.update s.view.node t none } := by
  unfold sleepRet
  split
  · exact view_setPc_task { s with log := s.log ++ [.sleep t d st s.clock] } t .idle
  · split <;> exact view_setPc_task ..

theorem view_waitRet (s : State) (t : Nat) (w : Wait) (st : Status) :
    (waitRet s t w st).view = { s.view with node := Function.update s.view.node t none } := by
  unfold waitRet
  split
  · exact view_sleepRet ..
  · exact view_setPc_task ..

theorem view_registerFail (s : State) (t : Nat) (w : Wait) (st : Status) :
    (registerFail s t w st).view = { s.view with node := Function.update s.view.node t none } := by
  unfold registerFail
  split
  · exact view_sleepRet ..
  · exact view_setPc_task ..

/-- A task that has no node still has none. -/
theorem Inv.no_node (h : Inv s.view) (ht : (s.pc (.task t)).node = none) :
    Inv { s.view with node := Function.update s.view.node t none } := by
  rwa [show Function.update s.view.node t none = s.view.node from Function.update_eq_self_iff.mpr ht.symm]

theorem Inv.timerWaitFinish {w : Wait} (h : Inv s.view) (hpc : s.pc (.task t) = .finish n w) :
    Inv (Timer.timerWaitFinish s t n w).view := by
  have hn : s.timerNode t = some n := by
    rw [show s.timerNode t = (s.pc (.task t)).node from h.timerNode t, hpc]
    rfl
  have hf : Inv (finishNode s n).view ∧
      (finishNode s n).nodeState n ≠ .waiting ∧ (finishNode s n).timerNode t = some n := by
    unfold finishNode
    split
    · rename_i hw
      refine ⟨h.cancelNode ((h.mem n).mpr ⟨(h.owner t n hn).1, hw⟩), ?_, ?_⟩
      · rw [nodeState_cancelNode]
        simp
      · rw [timerNode_cancelNode]
        exact hn
    · rename_i hw
      exact ⟨h, hw, hn⟩
  unfold Timer.timerWaitFinish
  dsimp only
  rw [view_waitRet]
  exact hf.1.free hf.2.2 hf.2.1

theorem pc_registerNode (s : State) (t n : Nat) (w : Wait) (capacity : Nat) :
    (registerNode s t n w capacity).pc = Function.update s.pc (.task t)
      (match w with
        | .sleep _ _ => .park (.timer n w)
        | .tick k d g => .tickStale n k d g) := by
  unfold registerNode
  cases w <;> simp only [setPc] <;> split_ifs <;> (try rw [pc_signal]) <;> rfl

theorem nodeState_registerNode (s : State) (t n : Nat) (w : Wait) (capacity : Nat) :
    (registerNode s t n w capacity).nodeState = Function.update s.nodeState n .waiting := by
  unfold registerNode signal
  simp only [setPc]
  split_ifs <;> (try split) <;> rfl

theorem cancelRequested_registerNode (s : State) (t n : Nat) (w : Wait) (capacity : Nat) :
    (registerNode s t n w capacity).cancelRequested = s.cancelRequested := by
  unfold registerNode signal
  simp only [setPc]
  split_ifs <;> (try split) <;> rfl

theorem Inv.registerNode {w : Wait} {capacity : Nat} (h : Inv s.view) (ha : s.allocated n = false)
    (ht : s.timerNode t = none) : Inv (Timer.registerNode s t n w capacity).view := by
  have hx : ¬ s.heap.Mem n := fun hm => by
    have := ((h.mem n).mp hm).1
    simp [State.view, ha] at this
  unfold Timer.registerNode
  dsimp only
  rw [view_setPc_task]
  obtain ⟨hc, hi, hm⟩ := IndexedHeap.push_spec (timerLess { s with
    deadline := Function.update s.deadline n w.deadline
    sequence := Function.update s.sequence n s.timerSequence
    nodeState := Function.update s.nodeState n .waiting
    nodeTask := Function.update s.nodeTask n t
    allocated := Function.update s.allocated n true
    timerSequence := (s.timerSequence + 1) % 2 ^ 64
    serial := Function.update s.serial n s.timersRegistered }) h.indexed hx
  have := h.register ha ht (d := w.deadline) hi hc hm
  cases w <;> dsimp only <;> split
  · rw [view_signal]
    exact this
  · exact this
  · rw [view_signal]
    exact this
  · exact this

/-! ## Steps -/

/-- A thread goes on with the node it has. -/
theorem Inv.goto {c : Pc} (h : Inv s.view) (hc : c.node = (s.pc a).node) : Inv (setPc s a c).view := by
  rwa [view_setPc fun _ _ => hc]

theorem Inv.willUnpark {l : List Nat} {k : After} (h : Inv s.view) (hk : k.node = (s.pc a).node) :
    Inv (Timer.willUnpark s a l k).view := by
  rwa [view_willUnpark fun _ _ => hk]

theorem Inv.sleepRet {d : Nat} {c : Caller} {st : Status} (h : Inv s.view) (ht : (s.pc (.task t)).node = none) :
    Inv (Timer.sleepRet s t d c st).view := by
  rw [view_sleepRet]
  exact h.no_node ht

theorem Inv.registerFail {w : Wait} {st : Status} (h : Inv s.view) (ht : (s.pc (.task t)).node = none) :
    Inv (Timer.registerFail s t w st).view := by
  rw [view_registerFail]
  exact h.no_node ht

theorem Inv.timerWaitRegister {w : Wait} {e : Env} (h : Inv s.view) (hpc : s.pc (.task t) = .register w)
    (hs : Timer.timerWaitRegister s t w e = some s') : Inv s'.view := by
  have ht : (s.pc (.task t)).node = none := by rw [hpc]; rfl
  unfold Timer.timerWaitRegister at hs
  split at hs
  · exact Option.some.inj hs ▸ h.registerFail ht
  · rename_i n _
    split at hs
    · cases hs
    · rename_i ha
      split at hs
      · exact Option.some.inj hs ▸ h.registerFail ht
      · rename_i hn
        split at hs
        · refine Option.some.inj hs ▸ Inv.registerFail ?_ ht
          exact h
        · exact Option.some.inj hs ▸ h.registerNode (by simpa using ha) (not_not.mp fun hn' => hn (.inr hn'))

theorem Inv.rtPark {b : Block} (h : Inv s.view) (hpc : s.pc (.task t) = .park b) :
    Inv (Timer.rtPark s t b).view := by
  have hb : (Pc.parked b).node = (s.pc (.task t)).node := by rw [hpc]; cases b <;> rfl
  unfold Timer.rtPark
  split
  · exact Inv.goto (s := { s with unparkPending := Function.update s.unparkPending t false }) h
      (b.resume_node.trans hb)
  · exact h.goto hb

theorem Inv.timerLoop {e : Env} (h : Inv s.view) (hpc : s.pc .timer = .timerLoop) :
    Inv (Timer.timerLoop s e).view := by
  have hk {st} : After.timer.node = ((Timer.leave s 0 (s.heap.arr 0) st).pc .timer).node := by
    rw [show (Timer.leave s 0 (s.heap.arr 0) st).pc = s.pc from rfl, hpc]
    rfl
  unfold Timer.timerLoop
  dsimp only
  split_ifs with h₁ h₂ h₃ h₄
  · exact (h.leave_first h₂ (by simp) (by simp)).willUnpark hk
  · exact h.goto (by rw [hpc]; rfl)
  · exact h.goto (by rw [hpc]; rfl)
  · refine (h.leave_first (by omega) (by simp) fun _ => Nat.le_trans h₄.2 ?_).willUnpark hk
    unfold gtNow
    split <;> omega
  · exact h.goto (by rw [hpc]; rfl)

/-- The steps of tickers. -/
theorem Inv.tickRet {k count : Nat} {st : Status} (h : Inv s.view) (ht : (s.pc (.task t)).node = none) :
    Inv (Timer.tickRet s t k st count).view :=
  Inv.goto (s := { setTicker s k { s.ticker k with waiter := none } with log := s.log ++ [.tick t k st count] })
    h ht.symm

theorem Inv.tickEnd {k d g : Nat} {st : Status} {e : Env} (h : Inv s.view)
    (hpc : s.pc (.task t) = .tickEnd k d g st) (hs : Timer.tickEnd s t k d g st e = some s') : Inv s'.view := by
  have ht : (s.pc (.task t)).node = none := by rw [hpc]; rfl
  unfold Timer.tickEnd at hs
  dsimp only at hs
  split_ifs at hs
  · exact Option.some.inj hs ▸ h.tickRet ht
  · exact Option.some.inj hs ▸ h.goto ht.symm
  · exact Option.some.inj hs ▸ h.tickRet ht
  · exact Option.some.inj hs ▸ h.tickRet ht
  all_goals
    refine Option.some.inj hs ▸ Inv.tickRet ?_ ht
    exact h

theorem Inv.cancelWaiter {k : Nat} (h : Inv s.view) (ha : (s.pc a).node = none) :
    Inv (Timer.cancelWaiter s a k).view := by
  unfold Timer.cancelWaiter
  split
  · exact h.goto ha.symm
  · exact h.goto ha.symm

theorem inv_next {e : Env} (h : Inv s.view) (hs : next s a e = some s') : Inv s'.view := by
  unfold next at hs
  split at hs
  · rename_i t d c hpc
    have ht : (s.pc (.task t)).node = none := by rw [hpc]; rfl
    refine Option.some.inj hs ▸ ?_
    unfold sleepCheck
    split_ifs
    · exact h.sleepRet ht
    · exact h.sleepRet ht
    · exact h.goto ht.symm
  · rename_i t d c hpc
    have ht : (s.pc (.task t)).node = none := by rw [hpc]; rfl
    refine Option.some.inj hs ▸ ?_
    unfold sleepClock
    split_ifs
    · exact h.sleepRet ht
    · exact h.sleepRet ht
    · exact h.goto ht.symm
  · rename_i t w hpc
    exact h.timerWaitRegister hpc hs
  · rename_i t b hpc
    exact Option.some.inj hs ▸ h.rtPark hpc
  · rename_i t n w hpc
    exact Option.some.inj hs ▸ h.timerWaitFinish hpc
  · rename_i t i d hpc
    exact Option.some.inj hs ▸ h.goto (by rw [hpc]; rfl)
  · rename_i t i d st hpc
    have ht : (s.pc (.task t)).node = none := by rw [hpc]; rfl
    refine Option.some.inj hs ▸ ?_
    unfold timedRecheck
    split_ifs
    · exact h.goto ht.symm
    · exact Inv.goto (s := setQueue s (.mutex i) ((s.queue (.mutex i)).erase t)) h ht.symm
    · exact h.goto ht.symm
  · rename_i t o hpc
    exact Option.some.inj hs ▸ h.goto (by rw [hpc]; split <;> rfl)
  · rename_i t k hpc
    have ht : (s.pc (.task t)).node = none := by rw [hpc]; rfl
    unfold tickLoop at hs
    dsimp only at hs
    split_ifs at hs
    · exact Option.some.inj hs ▸ h.tickRet ht
    · exact Option.some.inj hs ▸ h.goto ht.symm
  · rename_i t n k d g hpc
    unfold tickStale at hs
    dsimp only at hs
    split_ifs at hs
    · exact Option.some.inj hs ▸ h.goto (by rw [hpc]; rfl)
    · exact Option.some.inj hs ▸ h.goto (by rw [hpc]; rfl)
  · rename_i t k d g st hpc
    exact h.tickEnd hpc hs
  · rename_i t k st hpc
    split_ifs at hs
    exact Option.some.inj hs ▸ h.tickRet (by rw [hpc]; rfl)
  · rename_i t u hpc
    have ht : (s.pc (.task t)).node = none := by rw [hpc]; rfl
    split_ifs at hs
    · exact Option.some.inj hs ▸ Inv.goto (s := { s with log := s.log ++ [.taskWait t u .ok] }) h ht.symm
    · exact Option.some.inj hs ▸ Inv.goto (s := { s with
        completionWaiters := Function.update s.completionWaiters u ((s.completionWaiters u).erase t)
        log := s.log ++ [.taskWait t u .cancelled] }) h ht.symm
  · rename_i t hpc
    refine Option.some.inj hs ▸ Inv.willUnpark ?_ (by rw [hpc]; rfl)
    exact h
  · rename_i hpc
    exact Option.some.inj hs ▸ h.goto (by rw [hpc]; split <;> rfl)
  · rename_i k interval now hpc
    unfold tickerReset at hs
    dsimp only at hs
    split_ifs at hs
    · exact Option.some.inj hs ▸ h.goto (by rw [hpc]; rfl)
    all_goals
      refine Option.some.inj hs ▸ Inv.cancelWaiter ?_ (by simp only [setTicker]; rw [hpc]; rfl)
      exact h
  · rename_i k hpc
    exact Option.some.inj hs ▸ Inv.goto (s := setTicker s k { s.ticker k with locked := false }) h
      (by simp only [setTicker]; rw [hpc]; rfl)
  · rename_i t k hpc
    exact Option.some.inj hs ▸ h.timerCancelTaskWait hpc
  · rename_i l k hpc
    exact Option.some.inj hs ▸ (by rwa [view_unparkStep hpc])
  · rename_i t hpc
    refine Option.some.inj hs ▸ Inv.willUnpark ?_ (by simp only; rw [hpc]; rfl)
    exact h
  · rename_i hpc
    exact Option.some.inj hs ▸ h.timerLoop hpc
  · rename_i hpc
    exact Option.some.inj hs ▸ Inv.goto (s := { s with signalled := false }) h (by simp only; rw [hpc]; rfl)
  · cases hs

theorem Inv.enqueue {o : Obj} {c : Pc} (h : Inv s.view) (ht : (s.pc (.task t)).node = none) (hc : c.node = none) :
    Inv (Timer.enqueue s t o c).view :=
  Inv.goto (s := setQueue { s with granted := Function.update s.granted t false } o (s.queue o ++ [t])) h
    (hc.trans ht.symm)

theorem Inv.mutexLock {i : Nat} {c : Pc} (h : Inv s.view) (ht : (s.pc (.task t)).node = none) (hc : c.node = none) :
    Inv (Timer.mutexLock s t i c).view := by
  unfold Timer.mutexLock
  split
  · exact h
  · split_ifs
    · exact h
    · exact h.enqueue ht hc

theorem Inv.mutexUnlock {i : Nat} (h : Inv s.view) (ht : (s.pc (.task t)).node = none) :
    Inv (Timer.mutexUnlock s t i).view := by
  unfold Timer.mutexUnlock
  split_ifs
  · exact h
  · split
    · exact h
    · refine Inv.willUnpark ?_ ht.symm
      exact h

theorem inv_taskCall {c : Call} (h : Inv s.view) (hpc : s.pc (.task t) = .idle) (hs : taskCall s t c = some s') :
    Inv s'.view := by
  have ht : (s.pc (.task t)).node = none := by rw [hpc]; rfl
  cases c with simp only [taskCall, reduceCtorEq] at hs
  | sleepUntil d => exact Option.some.inj hs ▸ h.goto ht.symm
  | tickerWait k =>
    split_ifs at hs
    · exact Option.some.inj hs ▸ h
    · exact Option.some.inj hs ▸ Inv.goto (s := setTicker s k { s.ticker k with waiter := some t }) h ht.symm
  | taskWait u =>
    split_ifs at hs
    · exact Option.some.inj hs ▸ h
    · exact Option.some.inj hs ▸ h
    · exact Option.some.inj hs ▸ Inv.goto (s := { s with
        completionWaiters := Function.update s.completionWaiters u (t :: s.completionWaiters u) }) h ht.symm
  | lock i => exact Option.some.inj hs ▸ h.mutexLock ht rfl
  | timedlock i d =>
    split_ifs at hs
    · exact Option.some.inj hs ▸ h
    · exact Option.some.inj hs ▸ h.mutexLock ht rfl
  | unlock i => exact Option.some.inj hs ▸ h.mutexUnlock ht
  | semaphoreWait i =>
    refine Option.some.inj hs ▸ ?_
    unfold semaphoreWait
    split_ifs
    · exact h
    · exact h.enqueue ht rfl
  | eventWait i =>
    refine Option.some.inj hs ▸ ?_
    unfold eventWait
    split_ifs
    · exact h
    · exact h.enqueue ht rfl
  | blockingCall => exact Option.some.inj hs ▸ h.enqueue ht rfl
  | exit =>
    exact Option.some.inj hs ▸ Inv.goto (s := { s with
      finished := Function.update s.finished t true, live := s.live.erase t }) h ht.symm

theorem inv_anyCall {c : Call} (h : Inv s.view) (hpc : s.pc a = .idle) (hs : anyCall s a c = some s') :
    Inv s'.view := by
  have ha : (s.pc a).node = none := by rw [hpc]; rfl
  cases c with simp only [anyCall, reduceCtorEq] at hs
  | tickerReset k interval =>
    split_ifs at hs
    · exact Option.some.inj hs ▸ h
    · exact Option.some.inj hs ▸ h.goto ha.symm
  | tickerStop k =>
    split_ifs at hs
    refine Option.some.inj hs ▸ Inv.cancelWaiter ?_ ha
    exact h
  | taskCancel t =>
    split_ifs at hs
    · exact Option.some.inj hs ▸ h
    · exact Option.some.inj hs ▸ Inv.goto (s := { s with
        cancelRequested := Function.update s.cancelRequested t true }) h ha.symm
  | unpark t => exact Option.some.inj hs ▸ h.willUnpark ha.symm
  | semaphorePost i =>
    refine Option.some.inj hs ▸ ?_
    unfold semaphorePost
    split
    · refine Inv.willUnpark ?_ ha.symm
      exact h
    · split_ifs <;> exact h
  | eventSet i =>
    refine Option.some.inj hs ▸ Inv.willUnpark ?_ ha.symm
    exact h
  | eventReset i => exact Option.some.inj hs ▸ h

theorem inv_call {c : Call} (h : Inv s.view) (hs : call s a c = some s') : Inv s'.view := by
  unfold call at hs
  split_ifs at hs with hpc
  replace hpc := not_not.mp hpc
  split at hs
  · cases hs
  · rename_i t
    split_ifs at hs
    rcases Option.or_eq_some_iff.mp hs with hs | ⟨-, hs⟩
    · exact inv_taskCall h hpc hs
    · exact inv_anyCall h hpc hs
  · split at hs
    · exact Option.some.inj hs ▸ Inv.goto (s := setQueue s .jobs _) h (by simp only [setQueue]; rw [hpc]; rfl)
    · exact inv_anyCall h hpc hs

theorem inv_step {x : Act} (h : Inv s.view) (hs : step s x = some s') : Inv s'.view := by
  cases x with simp only [step] at hs
  | clock c =>
    split_ifs at hs with hc
    exact Option.some.inj hs ▸ h.clock hc.1
  | spawn t =>
    split_ifs at hs
    exact Option.some.inj hs ▸ h
  | tickerNew k interval e =>
    split_ifs at hs
    exact Option.some.inj hs ▸ h
  | call a c => exact inv_call h hs
  | next a e => exact inv_next h hs
  | requestStop =>
    refine Option.some.inj hs ▸ ?_
    rw [view_signal]
    exact h

theorem inv_of_reach (h : machine.Reach s) : Inv s.view :=
  h.invariant (I := fun s => Inv s.view) (fun _ h => h ▸ inv_initial) fun _ _ _ _ h hs => inv_step h hs

/-- What `timer_wait_finish` returns is the state of the node, or that it is cancelled now. -/
theorem finishStatus_eq_ok : finishStatus s n = .ok ↔ s.nodeState n = .expired := by
  unfold finishStatus finishNode
  by_cases hw : s.nodeState n = .waiting
  · simp [hw, nodeState_cancelNode]
  · by_cases he : s.nodeState n = .expired
    · simp [he]
    · simp [hw, he]

/-- The outcome of a node that is still allocated is its state. -/
theorem Inv.mem_outcomes_iff (h : Inv s.view) (ha : s.allocated n = true) :
    (s.serial n, .expired) ∈ s.outcomes ↔ s.nodeState n = .expired := by
  refine ⟨fun hm => ?_, fun he => ?_⟩
  · by_cases hw : s.nodeState n = .waiting
    · exact absurd hm (h.unfinished n ha hw _)
    · have := List.inj_on_of_nodup_map h.nodup hm (h.outcome n ha hw) rfl
      exact (Prod.mk.inj this).2.symm
  · have := h.outcome n ha (show s.nodeState n ≠ .waiting by rw [he]; simp)
    rwa [show s.view.nodeState n = .expired from he] at this

/-- For every interleaving of registrations, expiries, cancellations, stray
unparks and the shutdown of the timer: a node is in the heap just when its state
is `TIMER_WAITING`, every registration that no longer waits has one outcome, the
counters agree with the heap, a task has at most one node, and
`timer_wait_finish` returns `DLSM_OK` just for the nodes that have expired. -/
theorem timer_one_outcome (h : machine.Reach s) : TimerProtocol s := by
  have hi := inv_of_reach h
  refine ⟨hi.mem, ⟨hi.nodup, fun p hp => ?_⟩, fun k hk => ?_, hi.outcome, hi.counters, fun n ha m => ?_,
    hi.timerNode, fun t n w hpc => ?_⟩
  · have := (hi.past p.1 p.2 hp).2
    cases hp2 : p.2 <;> simp_all
  · constructor
    · rintro hm ⟨n, ha, hw, rfl⟩
      obtain ⟨p, hp, he⟩ := List.mem_map.mp hm
      exact hi.unfinished n ha hw p.2 (by rw [show s.view.serial n = p.1 from he.symm]; exact hp)
    · intro hn
      obtain ⟨st, hst⟩ | hw := hi.all k hk
      · exact List.mem_map.mpr ⟨_, hst, rfl⟩
      · exact absurd hw hn
  · rw [show s.timerNode (s.nodeTask n) = some n from hi.points n ha]
    simp [eq_comm]
  · have ht : s.timerNode t = some n := by
      rw [show s.timerNode t = (s.pc (.task t)).node from hi.timerNode t, hpc]
      rfl
    obtain ⟨ha, hnt⟩ := hi.owner t n ht
    refine ⟨ha, hnt, ?_, fun hok => hi.expired n ha (finishStatus_eq_ok.mp hok)⟩
    rw [finishStatus_eq_ok, hi.mem_outcomes_iff ha]

end Views

/-- The node of task 1 has expired, that of task 2 was cancelled and freed after a
stray unpark, and that of task 3 waits. -/
def outcomesRun : List Act :=
  [.spawn 1, .spawn 2, .spawn 3,
    .call (.task 1) (.sleepUntil 5), .next (.task 1) ⟨true, none, true⟩, .next (.task 1) ⟨true, none, true⟩,
    .next (.task 1) ⟨true, some 10, true⟩, .next (.task 1) ⟨true, none, true⟩,
    .call (.task 2) (.sleepUntil 7), .next (.task 2) ⟨true, none, true⟩, .next (.task 2) ⟨true, none, true⟩,
    .next (.task 2) ⟨true, some 11, true⟩, .next (.task 2) ⟨true, none, true⟩,
    .call (.task 3) (.sleepUntil 9), .next (.task 3) ⟨true, none, true⟩, .next (.task 3) ⟨true, none, true⟩,
    .next (.task 3) ⟨true, some 12, true⟩, .next (.task 3) ⟨true, none, true⟩,
    .call (.ext 0) (.unpark 2), .next (.ext 0) ⟨true, none, true⟩, .next (.task 2) ⟨true, none, true⟩,
    .clock 6, .next .timer ⟨true, none, true⟩, .next .timer ⟨true, none, true⟩]

theorem timer_one_outcome_run : ∃ s, machine.Reach s ∧ TimerProtocol s ∧
    s.pc (.task 1) = .finish 10 (.sleep 5 .user) ∧ finishStatus s 10 = .ok ∧
    s.outcomes = [(1, .cancelled), (0, .expired)] ∧ s.heap.count = 1 := by
  obtain ⟨s, hr, hp⟩ := Machine.exists_reach_of_run (M := machine) (s := State.initial) (l := outcomesRun)
    (p := fun s => decide (s.pc (.task 1) = .finish 10 (.sleep 5 .user) ∧ finishStatus s 10 = .ok ∧
      s.outcomes = [(1, .cancelled), (0, .expired)] ∧ s.heap.count = 1)) rfl (by decide +kernel)
  exact ⟨s, hr, timer_one_outcome hr, of_decide_eq_true hp⟩

end Dlsmc.Timer
