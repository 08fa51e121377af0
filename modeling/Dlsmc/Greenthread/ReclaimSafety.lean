import Mathlib.Data.List.Nodup
import Dlsmc.Greenthread.Reclaim

/-!
# Wakeups in flight and reclaimed tasks

A waker publishes the release while the task is still in its wait
(`Inv.job`, `Inv.running`, `Inv.queued`, `Inv.timer`), so the task cannot have finished. Until the
waker has called `dlsm_gt_unpark`, nothing but the wait itself or a reference
keeps the control block (`Inv.flight`), and the code holds no reference: a task
that sees the release without parking returns, finishes and is freed.
-/

namespace Dlsmc.Reclaim

/-- The sync object a task waits for. -/
def Place.obj : Place → Option Nat
  | .sync o | .timed o | .check o _ => some o
  | .sleep o => o
  | _ => none

def Place.sleeping : Place → Bool
  | .sleep _ => true
  | _ => false

structure Inv (s : State) : Prop where
  jobs : s.jobs.Nodup
  job : ∀ t ∈ s.jobs, s.place t = .blocking ∧ s.released t = false
  running : ∀ w t, s.waker w = .job t → s.place t = .blocking ∧ s.released t = false ∧ t ∉ s.jobs
  unique : ∀ w w' t, s.waker w = .job t → s.waker w' = .job t → w = w'
  queue : ∀ o, (s.queue o).Nodup
  queued : ∀ o, ∀ t ∈ s.queue o, (s.place t).obj = some o ∧ s.released t = false
  timer : ∀ t, s.timer t ≠ .none → (s.place t).sleeping = true
  alive : ∀ t, s.place t ≠ .user → s.state t ≠ .finished ∧ s.state t ≠ .new
  reclaimed : ∀ t, s.reclaimed t = true → s.state t = .finished
  active : ∀ w, s.waker w ≠ .idle → w ∈ s.wakers
  flight : ∀ w t, s.waker w = .unpark t → s.reclaimed t = false ∧ (s.place t ≠ .user ∨ 0 < s.externalRefs t)

variable {s : State} {t : Nat}

attribute [local grind =] Function.update_apply

theorem Inv.of_quiet (h : Inv s) (hq : quiet s t = true) (w : Waker) : s.waker w ≠ .unpark t := by
  intro hw
  have hm := h.active w (by simp [hw])
  have := List.all_eq_true.mp hq w hm
  simp [hw] at this

/-- A task that may leave its wait has a reference, or no wakeup in flight. -/
theorem Inv.of_safeToLeave (h : Inv s) (hl : safeToLeave s t = true) {w : Waker} (hw : s.waker w = .unpark t) :
    0 < s.externalRefs t := by
  simp only [safeToLeave, Bool.or_eq_true, decide_eq_true_eq] at hl
  rcases hl with hl | hl
  · exact hl
  · exact absurd hw (h.of_quiet hl w)

theorem runs_iff : runs s t = true ↔ s.state t = .running ∧ s.switching t = false := by
  simp [runs]

/-- A task leaves its wait. -/
theorem Inv.leave (h : Inv s) (hl : safeToLeave s t = true) (hj : t ∉ s.jobs)
    (hw : ∀ w, s.waker w ≠ .job t) (hq : ∀ o, t ∉ s.queue o) (ht : s.timer t = .none) : Inv (setPlace s t .user) := by
  have hs := fun w => h.of_safeToLeave (t := t) hl (w := w)
  obtain ⟨hjobs, hjob, hrunning, hunique, hqueue, hqueued, htimer, halive, hreclaimed, hactive, hflight⟩ := h
  refine ⟨hjobs, ?_, ?_, hunique, hqueue, ?_, ?_, ?_, hreclaimed, hactive, ?_⟩ <;>
    simp only [setPlace] <;> grind -linarith

/-- A task that sees its release leaves its wait. -/
theorem Inv.leave_of_released (h : Inv s) (hl : safeToLeave s t = true) (hr : s.released t = true)
    (hp : (s.place t).sleeping = false) : Inv (setPlace s t .user) := by
  refine h.leave hl (fun hm => ?_) (fun w hw => ?_) (fun o hm => ?_) ?_
  · simp [(h.job t hm).2] at hr
  · simp [(h.running w t hw).2.1] at hr
  · simp [(h.queued o t hm).2] at hr
  · by_contra ht
    simp [h.timer t ht] at hp

/-- A step that changes only how the task is scheduled. -/
theorem Inv.schedule (h : Inv s) {st : TaskState} {sw up : Nat → Bool} (hst : st ≠ .finished ∧ st ≠ .new)
    (hf : s.state t ≠ .finished) :
    Inv { s with state := Function.update s.state t st, switching := sw, unparkPending := up } := by
  obtain ⟨hjobs, hjob, hrunning, hunique, hqueue, hqueued, htimer, halive, hreclaimed, hactive, hflight⟩ := h
  refine ⟨hjobs, hjob, hrunning, hunique, hqueue, hqueued, htimer, ?_, ?_, hactive, hflight⟩ <;> grind -linarith

theorem Inv.frame (h : Inv s) (sw up : Nat → Bool) : Inv { s with switching := sw, unparkPending := up } :=
  ⟨h.jobs, h.job, h.running, h.unique, h.queue, h.queued, h.timer, h.alive, h.reclaimed, h.active, h.flight⟩

/-- A running task enters a wait on a sync object. -/
theorem Inv.syncWait (h : Inv s) (hr : runs s t = true) (hu : s.place t = .user) {o : Nat} {p : Place}
    (hp : p.obj = some o) :
    Inv (setPlace { s with
      queue := Function.update s.queue o (s.queue o ++ [t])
      released := Function.update s.released t false } t p) := by
  have hs := (runs_iff.mp hr).1
  obtain ⟨hjobs, hjob, hrunning, hunique, hqueue, hqueued, htimer, halive, hreclaimed, hactive, hflight⟩ := h
  have hq : ∀ o, t ∉ s.queue o := fun o hm => by
    simpa [hu, Place.obj] using (hqueued o t hm).1
  refine ⟨hjobs, ?_, ?_, hunique, ?_, ?_, ?_, ?_, hreclaimed, hactive, ?_⟩ <;> simp only [setPlace]
  · grind -linarith
  · grind -linarith
  · grind -linarith
  · grind -linarith
  · grind -linarith [Place.sleeping]
  · grind -linarith
  · grind -linarith [Place.obj]

theorem Inv.blockingCall (h : Inv s) (hr : runs s t = true) (hu : s.place t = .user) :
    Inv (setPlace { s with jobs := s.jobs ++ [t], released := Function.update s.released t false } t .blocking) := by
  have hs := (runs_iff.mp hr).1
  obtain ⟨hjobs, hjob, hrunning, hunique, hqueue, hqueued, htimer, halive, hreclaimed, hactive, hflight⟩ := h
  refine ⟨?_, ?_, ?_, hunique, hqueue, ?_, ?_, ?_, hreclaimed, hactive, ?_⟩ <;> simp only [setPlace]
  · grind -linarith
  · grind -linarith
  · grind -linarith
  · grind -linarith [Place.obj]
  · grind -linarith [Place.sleeping]
  · grind -linarith
  · grind -linarith

/-- A task in a timed wait, or about to sleep, moves on without leaving its wait. -/
theorem Inv.setPlace (h : Inv s) {p : Place} {m : Timer} (hr : runs s t = true) (hp : p ≠ .user)
    (ho : p.obj = (s.place t).obj) (hb : s.place t ≠ .blocking) (ht : m ≠ .none → p.sleeping = true) :
    Inv (setPlace { s with timer := Function.update s.timer t m } t p) := by
  have hs := (runs_iff.mp hr).1
  obtain ⟨hjobs, hjob, hrunning, hunique, hqueue, hqueued, htimer, halive, hreclaimed, hactive, hflight⟩ := h
  refine ⟨hjobs, ?_, ?_, hunique, hqueue, ?_, ?_, ?_, hreclaimed, hactive, ?_⟩ <;>
    simp only [Reclaim.setPlace] <;> grind -linarith

theorem Inv.waitFinish (h : Inv s) {b : Bool} {o : Option Nat} (hr : runs s t = true) (hp : s.place t = .sleep o)
    (hl : s.place t = .sleep none → safeToLeave s t = true) : Inv (waitFinish s t b o) := by
  unfold Reclaim.waitFinish
  have hb : s.place t ≠ .blocking := by simp [hp]
  cases o with
  | none =>
    have hsl := hl hp
    have hs := fun w => h.of_safeToLeave (t := t) hsl (w := w)
    obtain ⟨hjobs, hjob, hrunning, hunique, hqueue, hqueued, htimer, halive, hreclaimed, hactive, hflight⟩ := h
    refine ⟨hjobs, ?_, ?_, hunique, hqueue, ?_, ?_, ?_, hreclaimed, hactive, ?_⟩ <;> simp only [Reclaim.setPlace] <;>
      grind -linarith [Place.obj]
  | some o => exact h.setPlace hr (by simp) (by simp [hp, Place.obj]) hb (by simp)

theorem Inv.sleepUntil (h : Inv s) {b ok : Bool} {o : Option Nat} (hr : runs s t = true)
    (hp : s.place t = .user ∧ o = none ∨ ∃ p, s.place t = .timed p ∧ o = some p) :
    Inv (sleepUntil s t b ok o) := by
  have hb : s.place t ≠ .blocking := by rcases hp with ⟨hp, -⟩ | ⟨p, hp, -⟩ <;> simp [hp]
  have ho : (s.place t).obj = o := by rcases hp with ⟨hp, rfl⟩ | ⟨p, hp, rfl⟩ <;> simp [hp, Place.obj]
  unfold Reclaim.sleepUntil
  split
  · exact (h.setPlace (p := .sleep o) hr (by simp) ho.symm hb fun _ => rfl).frame _ _
  · rcases hp with ⟨hp, rfl⟩ | ⟨p, hp, rfl⟩
    · exact h
    · have hs : s.timer t = .none := by
        by_contra hc
        simpa [hp, Place.sleeping] using h.timer t hc
      have := h.setPlace (p := .check p ok) (m := .none) hr (by simp) ho.symm hb (by simp)
      rwa [← hs, Function.update_eq_self] at this

/-- A timed wait looks at `granted`. -/
theorem Inv.check (h : Inv s) {ok : Bool} {o : Nat} (hr : runs s t = true) (hp : s.place t = .check o ok)
    (hl : s.released t = false ∧ ok = true ∨ safeToLeave s t = true) : Inv (check s t o ok) := by
  unfold Reclaim.check
  split
  case _ hg => exact h.leave_of_released (by simpa [hg] using hl) hg (by simp [hp, Place.sleeping])
  case _ hg =>
    have hs : s.timer t = .none := by
      by_contra hc
      simpa [hp, Place.sleeping] using h.timer t hc
    split
    case _ hok =>
      -- the node is taken off the queue, then the wait returns
      have hl : safeToLeave s t = true := by simpa [hok] using hl
      have hq : Inv { s with queue := Function.update s.queue o ((s.queue o).erase t) } := by
        obtain ⟨hjobs, hjob, hrunning, hunique, hqueue, hqueued, htimer, halive, hreclaimed, hactive, hflight⟩ := h
        refine ⟨hjobs, hjob, hrunning, hunique, fun o' => ?_, fun o' t' => ?_, htimer, halive, hreclaimed, hactive,
          hflight⟩
        · grind -linarith [List.Nodup.erase]
        · grind -linarith [List.mem_of_mem_erase]
      refine hq.leave hl (fun hm => ?_) (fun w hw => ?_) (fun o' hm => ?_) hs
      · simpa [hp] using (h.job t hm).1
      · simpa [hp] using (h.running w t hw).1
      · simp only [Function.update_apply] at hm
        split at hm
        · exact (h.queue o).not_mem_erase hm
        case _ hne => exact hne (by simpa [hp, Place.obj] using (h.queued o' t hm).1.symm)
    case _ =>
      have := h.setPlace (p := .timed o) (m := .none) hr (by simp) (by simp [hp, Place.obj]) (by simp [hp]) (by simp)
      rwa [← hs, Function.update_eq_self] at this

/-! ## Wakers -/

theorem Inv.take (h : Inv s) {i : Nat} {l : List Nat} (hj : s.jobs = t :: l) (hm : Waker.blocking i ∈ s.wakers) :
    Inv (setWaker { s with jobs := l } (.blocking i) (.job t)) := by
  obtain ⟨hjobs, hjob, hrunning, hunique, hqueue, hqueued, htimer, halive, hreclaimed, hactive, hflight⟩ := h
  rw [hj] at hjobs hjob hrunning
  obtain ⟨hn, hjobs⟩ := List.nodup_cons.mp hjobs
  refine ⟨hjobs, ?_, ?_, ?_, hqueue, hqueued, htimer, halive, hreclaimed, ?_, ?_⟩ <;>
    simp only [setWaker] <;> grind -linarith

/-- A waker publishes the release of a task that is in its wait. -/
theorem Inv.publish (h : Inv s) {w : Waker} {j : List Nat} {q : Nat → List Nat} {r : Nat → Bool} {m : Nat → Timer}
    (hm : w ∈ s.wakers) (hp : s.place t ≠ .user)
    (hj : j = s.jobs) (hq : ∀ o, (q o).Nodup ∧ ∀ u ∈ q o, u ∈ s.queue o)
    (hr : ∀ u, r u = s.released u ∨ u = t ∧ t ∉ j ∧ (∀ o, t ∉ q o) ∧ ∀ w', s.waker w' = .job t → w' = w)
    (ht : ∀ u, m u ≠ .none → s.timer u ≠ .none) :
    Inv (setWaker { s with jobs := j, queue := q, released := r, timer := m } w (.unpark t)) := by
  obtain ⟨hjobs, hjob, hrunning, hunique, hqueue, hqueued, htimer, halive, hreclaimed, hactive, hflight⟩ := h
  subst hj
  have ha := halive t hp
  have hrec : s.reclaimed t = false := by
    cases hc : s.reclaimed t with
    | false => rfl
    | true => exact absurd (hreclaimed t hc) ha.1
  refine ⟨hjobs, ?_, ?_, ?_, fun o => (hq o).1, fun o u hu => ?_, ?_, halive, hreclaimed, ?_, ?_⟩ <;>
    simp only [setWaker]
  · grind -linarith
  · grind -linarith
  · grind -linarith
  · change u ∈ q o at hu
    have := hqueued o u ((hq o).2 u hu)
    grind -linarith
  · grind -linarith
  · grind -linarith
  · grind -linarith

theorem Inv.jobDone (h : Inv s) {i : Nat} (hw : s.waker (.blocking i) = .job t) :
    Inv (setWaker { s with released := Function.update s.released t true } (.blocking i) (.unpark t)) := by
  obtain ⟨hp, hr, hn⟩ := h.running _ t hw
  refine h.publish (h.active _ (by simp [hw])) (by simp [hp]) rfl (fun o => ⟨h.queue o, fun _ hu => hu⟩)
    (fun u => ?_) fun _ ht => ht
  by_cases e : u = t
  · refine .inr ⟨e, hn, fun o hm => ?_, fun w' hw' => h.unique w' _ t hw' hw⟩
    simpa [hp, Place.obj] using (h.queued o t hm).1
  · exact .inl (Function.update_of_ne e _ _)

theorem Inv.expire (h : Inv s) (hm : Waker.timer ∈ s.wakers) (ht : s.timer t = .waiting) :
    Inv (setWaker { s with timer := Function.update s.timer t .expired } .timer (.unpark t)) := by
  have hp := h.timer t (by simp [ht])
  refine h.publish hm (fun e => by simp [e, Place.sleeping] at hp) rfl
    (fun o => ⟨h.queue o, fun _ hu => hu⟩) (fun u => .inl rfl) fun u hu => ?_
  by_cases e : u = t
  · simp [e, ht]
  · rwa [Function.update_of_ne e] at hu

theorem Inv.grant (h : Inv s) {i o : Nat} {l : List Nat} (hq : s.queue o = t :: l) (hm : Waker.caller i ∈ s.wakers) :
    Inv (setWaker { s with
      queue := Function.update s.queue o l
      released := Function.update s.released t true } (.caller i) (.unpark t)) := by
  obtain ⟨hp, hr⟩ := h.queued o t (by simp [hq])
  have hnd := List.nodup_cons.mp (hq ▸ h.queue o)
  refine h.publish hm (fun e => by simp [e, Place.obj] at hp) rfl (fun o' => ?_) (fun u => ?_) fun _ ht => ht
  · by_cases e : o' = o
    · subst e
      rw [Function.update_self, hq]
      exact ⟨hnd.2, fun u hu => List.mem_cons_of_mem _ hu⟩
    · rw [Function.update_of_ne e]
      exact ⟨h.queue o', fun _ hu => hu⟩
  · by_cases e : u = t
    · refine .inr ⟨e, fun hj => ?_, fun o' hm' => ?_, fun w' hw' => ?_⟩
      · simp [(h.job t hj).1, Place.obj] at hp
      · by_cases e' : o' = o
        · subst e'
          exact hnd.1 (by simpa using hm')
        · rw [Function.update_of_ne e'] at hm'
          exact e' (by simpa [hp] using (h.queued o' t hm').1.symm)
      · simp [(h.running w' t hw').1, Place.obj] at hp
    · exact .inl (Function.update_of_ne e _ _)

theorem Inv.unpark (h : Inv s) {w : Waker} : Inv (setWaker (gtUnpark s t) w .idle) := by
  have hg : Inv (gtUnpark s t) := by
    unfold gtUnpark
    split
    · exact h
    · split
      · exact h.schedule (by simp) (by assumption)
      · exact h.frame _ _
  obtain ⟨hjobs, hjob, hrunning, hunique, hqueue, hqueued, htimer, halive, hreclaimed, hactive, hflight⟩ := hg
  refine ⟨hjobs, hjob, ?_, ?_, hqueue, hqueued, htimer, halive, hreclaimed, ?_, ?_⟩ <;>
    simp only [setWaker] <;> grind -linarith

/-! ## References and the end of a task -/

theorem Inv.spawn (h : Inv s) (hn : s.state t = .new) :
    Inv { s with
      state := Function.update s.state t .ready
      externalRefs := Function.update s.externalRefs t 1 } := by
  obtain ⟨hjobs, hjob, hrunning, hunique, hqueue, hqueued, htimer, halive, hreclaimed, hactive, hflight⟩ := h
  refine ⟨hjobs, hjob, hrunning, hunique, hqueue, hqueued, htimer, ?_, ?_, hactive, ?_⟩ <;> grind -linarith

theorem Inv.release (h : Inv s) {s' : State} (hl : s.externalRefs t ≠ 1 ∨ s.place t ≠ .user ∨ quiet s t = true)
    (he : taskRelease s t = some s') : Inv s' := by
  unfold taskRelease at he
  split at he
  · cases he
  case _ hr =>
    cases he
    have hq : quiet s t = true → ∀ w, s.waker w ≠ .unpark t := h.of_quiet
    obtain ⟨hjobs, hjob, hrunning, hunique, hqueue, hqueued, htimer, halive, hreclaimed, hactive, hflight⟩ := h
    refine ⟨hjobs, hjob, hrunning, hunique, hqueue, hqueued, htimer, halive, ?_, hactive, ?_⟩ <;> grind -linarith

theorem Inv.executionReleased (h : Inv s) (hf : s.state t = .finished) : Inv (taskExecutionReleased s t) := by
  have hp : s.place t = .user := by
    by_contra hc
    exact (h.alive t hc).1 hf
  obtain ⟨hjobs, hjob, hrunning, hunique, hqueue, hqueued, htimer, halive, hreclaimed, hactive, hflight⟩ := h
  refine ⟨hjobs, hjob, hrunning, hunique, hqueue, hqueued, htimer, halive, ?_, hactive, ?_⟩ <;>
    simp only [taskExecutionReleased] <;> grind -linarith

/-- The step lemma. -/
theorem inv_step {s' : State} {a : Act} (h : Inv s) (hc : settled s a = true) (he : step s a = some s') : Inv s' := by
  cases a with
  | spawn t =>
    simp only [step, Option.ite_none_right_eq_some, Option.some.injEq] at he
    obtain ⟨hn, rfl⟩ := he
    exact h.spawn hn
  | retain t =>
    simp only [step, taskRetain] at he
    split at he
    · cases he
    · split at he
      · cases he
        exact h
      · cases he
        obtain ⟨hjobs, hjob, hrunning, hunique, hqueue, hqueued, htimer, halive, hreclaimed, hactive, hflight⟩ := h
        refine ⟨hjobs, hjob, hrunning, hunique, hqueue, hqueued, htimer, halive, hreclaimed, hactive, ?_⟩
        grind -linarith
  | release t =>
    refine h.release ?_ he
    simpa [settled, or_assoc] using hc
  | dispatch t =>
    simp only [step, Option.ite_none_right_eq_some, Option.some.injEq] at he
    obtain ⟨hr, rfl⟩ := he
    exact h.schedule (by simp) (by simp [hr])
  | yield t =>
    simp only [step, Option.ite_none_right_eq_some, Option.some.injEq] at he
    obtain ⟨hr, rfl⟩ := he
    exact h.schedule (by simp) (by simp [(runs_iff.mp hr).1])
  | park t =>
    simp only [step, Option.ite_none_right_eq_some, Option.some.injEq] at he
    obtain ⟨⟨hr, -⟩, rfl⟩ := he
    unfold rtPark
    split
    · exact h.schedule (by simp) (by simp [hr])
    · exact h.schedule (by simp) (by simp [hr])
  | taskDone t =>
    simp only [step, Option.ite_none_right_eq_some, Option.some.injEq] at he
    obtain ⟨⟨hr, hu⟩, rfl⟩ := he
    have hs := (runs_iff.mp hr).1
    obtain ⟨hjobs, hjob, hrunning, hunique, hqueue, hqueued, htimer, halive, hreclaimed, hactive, hflight⟩ := h
    refine ⟨hjobs, hjob, hrunning, hunique, hqueue, hqueued, htimer, ?_, ?_, hactive, hflight⟩ <;> grind -linarith
  | executionReleased t =>
    simp only [step, Option.ite_none_right_eq_some, Option.some.injEq] at he
    obtain ⟨⟨hf, -⟩, rfl⟩ := he
    exact h.executionReleased hf
  | blockingCall t =>
    simp only [step, Option.ite_none_right_eq_some, Option.some.injEq] at he
    obtain ⟨⟨hr, hu⟩, rfl⟩ := he
    exact h.blockingCall hr hu
  | syncWait t o timed =>
    simp only [step, Option.ite_none_right_eq_some, Option.some.injEq] at he
    obtain ⟨⟨hr, hu⟩, rfl⟩ := he
    exact h.syncWait hr hu (by split <;> rfl)
  | poll t =>
    simp only [step, Option.ite_none_right_eq_some] at he
    obtain ⟨hr, he⟩ := he
    have key : ∀ p, s.place t = p → p.sleeping = false → Inv (poll s t) := by
      intro p hp hsl
      unfold poll
      split
      case _ hg => exact h.leave_of_released (by simpa [settled, hg] using hc) hg (hp ▸ hsl)
      case _ => exact h.frame _ _
    split at he
    case _ hp => cases he; exact key _ hp rfl
    case _ o hp => cases he; exact key _ hp rfl
    case _ => cases he
  | sleepUntil t b ok =>
    simp only [step, Option.ite_none_right_eq_some] at he
    obtain ⟨hr, he⟩ := he
    split at he
    case _ hp => cases he; exact h.sleepUntil hr (.inl ⟨hp, rfl⟩)
    case _ o hp => cases he; exact h.sleepUntil hr (.inr ⟨o, hp, rfl⟩)
    case _ => cases he
  | waitFinish t b =>
    simp only [step, Option.ite_none_right_eq_some] at he
    obtain ⟨hr, he⟩ := he
    split at he
    case _ o hp => cases he; exact h.waitFinish hr hp fun e => by simpa [settled, e] using hc
    case _ => cases he
  | check t =>
    simp only [step, Option.ite_none_right_eq_some] at he
    obtain ⟨hr, he⟩ := he
    split at he
    case _ o ok hp => cases he; exact h.check hr hp (by simpa [settled, hp] using hc)
    case _ => cases he
  | take i =>
    simp only [step] at he
    split at he
    case _ => cases he
    case _ t l hj =>
      simp only [Option.ite_none_right_eq_some, Option.some.injEq] at he
      obtain ⟨⟨hm, -⟩, rfl⟩ := he
      exact h.take hj hm
  | jobDone i =>
    simp only [step] at he
    split at he
    case _ t hw => cases he; exact h.jobDone hw
    case _ => cases he
  | expire t =>
    simp only [step, Option.ite_none_right_eq_some, Option.some.injEq] at he
    obtain ⟨⟨hm, -, ht⟩, rfl⟩ := he
    exact h.expire hm ht
  | grant i o =>
    simp only [step] at he
    split at he
    case _ => cases he
    case _ t l hq =>
      simp only [Option.ite_none_right_eq_some, Option.some.injEq] at he
      obtain ⟨⟨hm, -⟩, rfl⟩ := he
      exact h.grant hq hm
  | unpark w =>
    simp only [step] at he
    split at he
    case _ t hw => cases he; exact h.unpark
    case _ => cases he

theorem inv_initial (wakers : List Waker) : Inv (State.initial wakers) := by
  constructor <;> simp [State.initial]

/-- In every run in which a task that no reference keeps leaves its wait only
when no waker is about to unpark it, no waker is ever about to unpark a
reclaimed task. -/
theorem no_stale_wakeup (s : State) (h : machine.ReachBy (fun s a => settled s a = true) s) : NoStaleWakeup s := by
  have hi : Inv s := h.invariant (fun s hs => by obtain ⟨wakers, rfl⟩ := hs; exact inv_initial wakers)
    fun _ _ _ _ hi hc he => inv_step hi hc he
  exact fun w t hw => (hi.flight w t hw).1

/-- A detached task makes a blocking call, sees `job.done` before it has
parked, returns from its entry function and is freed; the thread of the pool
has not called `dlsm_gt_unpark` yet. -/
def unparkedCall : List Act :=
  [.spawn 7, .release 7, .dispatch 7, .blockingCall 7, .take 0, .jobDone 0, .poll 7, .taskDone 7, .executionReleased 7]

theorem stale_wakeup : ¬ ∀ s, machine.Reach s → NoStaleWakeup s := by
  intro hall
  obtain ⟨s, hs, hp⟩ := Machine.exists_reach_of_run (M := machine) (s := State.initial [.blocking 0])
    (l := unparkedCall) (p := fun s => s.waker (.blocking 0) == .unpark 7 && s.reclaimed 7) ⟨_, rfl⟩ (by decide +kernel)
  simp only [Bool.and_eq_true, beq_iff_eq] at hp
  have := hall s hs _ 7 hp.1
  rw [hp.2] at this
  cases this

/-- The detached task parks, is unparked, and only then returns; a second task
waits on a sync object and is granted it. -/
def parkedCall : List Act :=
  [.spawn 7, .release 7, .dispatch 7, .blockingCall 7, .poll 7, .park 7, .take 0, .jobDone 0, .unpark (.blocking 0),
    .dispatch 7, .poll 7, .taskDone 7, .executionReleased 7, .spawn 8, .dispatch 8, .syncWait 8 3 false, .grant 1 3]

theorem no_stale_wakeup_parked :
    ∃ s, machine.ReachBy (fun s a => settled s a = true) s ∧ s.reclaimed 7 = true ∧
      s.waker (.caller 1) = .unpark 8 ∧ NoStaleWakeup s := by
  obtain ⟨s, hs, hp⟩ := Machine.exists_reachBy_of_run (M := machine) (C := fun s a => settled s a = true)
    (c := settled) (fun _ _ h => h) (s := State.initial [.blocking 0, .caller 1]) (l := parkedCall)
    (p := fun s => s.reclaimed 7 && s.waker (.caller 1) == .unpark 8) ⟨_, rfl⟩ (by decide +kernel)
  simp only [Bool.and_eq_true, beq_iff_eq] at hp
  exact ⟨s, hs, hp.1, hp.2, no_stale_wakeup s hs⟩

end Dlsmc.Reclaim
