import Mathlib.Data.List.Nodup
import Mathlib.Tactic.SplitIfs
import Dlsmc.Greenthread.TimerProtocol

/-!
# Where tasks wait

A task that waits is in one place: in the queue of one object, in the list of
waiters of one task, or the waiter of one ticker, and it is there only while it
executes the call (`Places`). Who holds the mutex of a ticker, and which task
that thread is about to wake, is part of it.
-/

namespace Dlsmc.Timer

/-- The call that a task is in, of those in which other threads hold a pointer to it. -/
inductive Place where
  | none
  | sync (o : Obj)
  | tick (k : Nat)
  | wait (u : Nat)
  deriving DecidableEq

def Caller.place : Caller → Place
  | .user => .none
  | .timedlock i => .sync (.mutex i)

def Wait.place : Wait → Place
  | .sleep _ c => c.place
  | .tick k _ _ => .tick k

def Block.place : Block → Place
  | .timer _ w => w.place
  | .sync o => .sync o
  | .done u => .wait u

def After.place : After → Place
  | .finish _ w => w.place
  | _ => .none

def Pc.place : Pc → Place
  | .sleepCheck _ c | .sleepClock _ c => c.place
  | .register w | .finish _ w => w.place
  | .park b | .parked b => b.place
  | .parkUntil i _ | .recheck i _ _ => .sync (.mutex i)
  | .check o => .sync o
  | .tickLoop k | .tickStale _ k _ _ | .tickEnd k _ _ _ | .tickFail k _ => .tick k
  | .cancelTimer _ k | .unparks _ k => k.place
  | .waitEnd u => .wait u
  | _ => .none

/-- What a thread is about to do to a task or a ticker. -/
inductive Deed where
  | none
  /-- It executes the job of task `t`. -/
  | work (t : Nat)
  /-- It holds the mutex of ticker `k` and is about to cancel the timer of task `t`. -/
  | cancel (t k : Nat)
  /-- It holds the mutex of ticker `k`. -/
  | hold (k : Nat)
  /-- It is about to lock the mutex of ticker `k`, to reset it. -/
  | near (k : Nat)
  deriving DecidableEq

def Pc.deed : Pc → Deed
  | .work t => .work t
  | .cancelTimer t (.unlock k) => .cancel t k
  | .unparks _ (.unlock k) | .unlockTicker k => .hold k
  | .resetClock k _ | .reset k _ _ => .near k
  | _ => .none

/-- The ticker whose mutex a thread holds. -/
def Deed.ticker : Deed → Option Nat
  | .cancel _ k | .hold k => some k
  | _ => Option.none

/-- The part of the state the places are about. -/
structure PlaceView where
  place : Nat → Place
  deed : Actor → Deed
  granted : Nat → Bool
  queue : Obj → List Nat
  done : Nat → Bool
  waiters : Nat → List Nat
  made : Nat → Bool
  locked : Nat → Bool
  waiter : Nat → Option Nat

def State.places (s : State) : PlaceView where
  place := fun t => (s.pc (.task t)).place
  deed := fun a => (s.pc a).deed
  granted := s.granted
  queue := s.queue
  done := s.completionDone
  waiters := s.completionWaiters
  made := fun k => (s.ticker k).made
  locked := fun k => (s.ticker k).locked
  waiter := fun k => (s.ticker k).waiter

structure Places (v : PlaceView) : Prop where
  nodup : ∀ o, (v.queue o).Nodup
  queued : ∀ o t, t ∈ v.queue o → v.place t = .sync o ∧ v.granted t = false
  work : ∀ a t, v.deed a = .work t → v.place t = .sync .jobs ∧ v.granted t = false ∧ t ∉ v.queue .jobs
  work_unique : ∀ a b t, v.deed a = .work t → v.deed b = .work t → a = b
  waiters_nodup : ∀ u, (v.waiters u).Nodup
  waits : ∀ u t, t ∈ v.waiters u → v.place t = .wait u
  done : ∀ u, v.done u = true → v.waiters u = []
  waiter : ∀ k t, v.waiter k = some t ↔ v.place t = .tick k
  made : ∀ k t, v.waiter k = some t → v.made k = true
  locked : ∀ a k, (v.deed a).ticker = some k → v.locked k = true
  holder_unique : ∀ a b k, (v.deed a).ticker = some k → (v.deed b).ticker = some k → a = b
  cancel : ∀ a t k, v.deed a = .cancel t k → v.waiter k = some t
  near : ∀ a k, v.deed a = .near k → v.made k = true
  locked_made : ∀ k, v.locked k = true → v.made k = true

theorem places_initial : Places State.initial.places := by
  have hd (a : Actor) : State.initial.places.deed a = .none := by cases a <;> rfl
  have ht (a : Actor) : (State.initial.places.deed a).ticker = none := by rw [hd]; rfl
  constructor <;> try simp only [ht, reduceCtorEq, false_implies, implies_true]
  all_goals try simp only [hd, reduceCtorEq, false_implies, implies_true]
  all_goals simp [State.initial, State.places, Pc.place]

section Moves

variable {v : PlaceView} {a : Actor} {t u k i : Nat} {o : Obj}

attribute [local grind =] Function.update_apply Deed.ticker List.nodup_append List.nodup_cons List.mem_erase_of_ne
attribute [local grind .] List.Nodup.erase List.Nodup.not_mem_erase
attribute [local grind →] List.mem_of_mem_erase

/-- Task `t` joins a queue. -/
theorem Places.enqueue (h : Places v) (ht : v.place t = .none) :
    Places { v with
      place := Function.update v.place t (.sync o)
      granted := Function.update v.granted t false
      queue := Function.update v.queue o (v.queue o ++ [t]) } := by
  obtain ⟨h₁, h₂, h₃, h₄, h₅, h₆, h₇, h₈, h₉, h₁₀, h₁₁, h₁₂, h₁₃, h₁₄⟩ := h
  have hq : ∀ o, t ∉ v.queue o := fun o hm => by simp [(h₂ o t hm).1] at ht
  refine ⟨fun o' => ?_, fun o' t' hm => ?_, fun b t' hb => ?_, h₄, h₅, fun u' t' hm => ?_, h₇, fun k t' => ?_,
    h₉, h₁₀, h₁₁, h₁₂, h₁₃, h₁₄⟩
  · grind -linarith
  · grind -linarith
  · grind -linarith
  · grind -linarith
  · grind -linarith

/-- Some tasks of the queue of `o` are granted what they wait for. -/
theorem Places.grant {l : List Nat} (h : Places v) (hl : l.Sublist (v.queue o)) {granted : Nat → Bool}
    (hg : ∀ t, t ∉ v.queue o → granted t = v.granted t) (hn : ∀ t, t ∈ l → granted t = v.granted t) :
    Places { v with granted := granted, queue := Function.update v.queue o l } := by
  obtain ⟨h₁, h₂, h₃, h₄, h₅, h₆, h₇, h₈, h₉, h₁₀, h₁₁, h₁₂, h₁₃, h₁₄⟩ := h
  have hm : ∀ t, t ∈ l → t ∈ v.queue o := fun t ht => hl.subset ht
  refine ⟨fun o' => ?_, fun o' t' hm' => ?_, fun b t' hb => ?_, h₄, h₅, h₆, h₇, h₈, h₉, h₁₀, h₁₁, h₁₂, h₁₃, h₁₄⟩
  · have := hl.nodup (h₁ o)
    grind -linarith
  · grind -linarith
  · grind -linarith

/-- Task `t` goes on from a queue that it is not, or no longer, in. -/
theorem Places.leave {l : List Nat} (h : Places v) (ht : v.place t = .sync o) (hl : l.Sublist (v.queue o))
    (hn : t ∉ l) (hw : ∀ a, v.deed a ≠ .work t) :
    Places { v with place := Function.update v.place t .none, queue := Function.update v.queue o l } := by
  obtain ⟨h₁, h₂, h₃, h₄, h₅, h₆, h₇, h₈, h₉, h₁₀, h₁₁, h₁₂, h₁₃, h₁₄⟩ := h
  have hm : ∀ t, t ∈ l → t ∈ v.queue o := fun t ht => hl.subset ht
  refine ⟨fun o' => ?_, fun o' t' hm' => ?_, fun b t' hb => ?_, h₄, h₅, fun u' t' hm => ?_, h₇, fun k t' => ?_,
    h₉, h₁₀, h₁₁, h₁₂, h₁₃, h₁₄⟩
  · have := hl.nodup (h₁ o)
    grind -linarith
  · grind -linarith
  · grind -linarith
  · grind -linarith
  · grind -linarith

/-- A thread of the blocking pool takes the first job. -/
theorem Places.takeJob {l : List Nat} (h : Places v) (hq : v.queue .jobs = t :: l) :
    Places { v with deed := Function.update v.deed a (.work t), queue := Function.update v.queue .jobs l } := by
  obtain ⟨h₁, h₂, h₃, h₄, h₅, h₆, h₇, h₈, h₉, h₁₀, h₁₁, h₁₂, h₁₃, h₁₄⟩ := h
  have hn := h₁ .jobs
  have hq' := h₂ .jobs
  rw [hq] at hn
  refine ⟨fun o' => ?_, fun o' t' hm' => ?_, fun b t' hb => ?_, fun b c t' hb hc => ?_, h₅, h₆, h₇, h₈,
    h₉, fun b k hb => ?_, fun b c k hb hc => ?_, fun b t' k hb => ?_, fun b k hb => ?_, h₁₄⟩
  · grind -linarith
  · grind -linarith
  · grind -linarith
  · grind -linarith
  · grind -linarith
  · grind -linarith
  · grind -linarith
  · grind -linarith

/-- It has executed the job. -/
theorem Places.work_done (h : Places v) (ha : v.deed a = .work t) :
    Places { v with deed := Function.update v.deed a .none, granted := Function.update v.granted t true } := by
  obtain ⟨h₁, h₂, h₃, h₄, h₅, h₆, h₇, h₈, h₉, h₁₀, h₁₁, h₁₂, h₁₃, h₁₄⟩ := h
  have hw := h₃ a t ha
  refine ⟨h₁, fun o' t' hm' => ?_, fun b t' hb => ?_, fun b c t' hb hc => ?_, h₅, h₆, h₇, h₈,
    h₉, fun b k hb => ?_, fun b c k hb hc => ?_, fun b t' k hb => ?_, fun b k hb => ?_, h₁₄⟩
  · grind -linarith
  · grind -linarith
  · grind -linarith
  · grind -linarith
  · grind -linarith
  · grind -linarith
  · grind -linarith

/-- Task `t` waits for task `u`. -/
theorem Places.wait (h : Places v) (ht : v.place t = .none) (hu : v.done u = false) :
    Places { v with
      place := Function.update v.place t (.wait u)
      waiters := Function.update v.waiters u (t :: v.waiters u) } := by
  obtain ⟨h₁, h₂, h₃, h₄, h₅, h₆, h₇, h₈, h₉, h₁₀, h₁₁, h₁₂, h₁₃, h₁₄⟩ := h
  have hw : ∀ u, t ∉ v.waiters u := fun u hm => by simp [h₆ u t hm] at ht
  refine ⟨h₁, fun o' t' hm' => ?_, fun b t' hb => ?_, h₄, fun u' => ?_, fun u' t' hm => ?_, fun u' hd => ?_,
    fun k t' => ?_, h₉, h₁₀, h₁₁, h₁₂, h₁₃, h₁₄⟩
  · grind -linarith
  · grind -linarith
  · grind -linarith
  · grind -linarith
  · grind -linarith
  · grind -linarith

/-- It stops waiting. -/
theorem Places.wait_end (h : Places v) (ht : v.place t = .wait u) :
    Places { v with
      place := Function.update v.place t .none
      waiters := Function.update v.waiters u ((v.waiters u).erase t) } := by
  obtain ⟨h₁, h₂, h₃, h₄, h₅, h₆, h₇, h₈, h₉, h₁₀, h₁₁, h₁₂, h₁₃, h₁₄⟩ := h
  refine ⟨h₁, fun o' t' hm' => ?_, fun b t' hb => ?_, h₄, fun u' => ?_, fun u' t' hm => ?_, fun u' hd => ?_,
    fun k t' => ?_, h₉, h₁₀, h₁₁, h₁₂, h₁₃, h₁₄⟩
  · grind -linarith
  · grind -linarith
  · grind -linarith
  · have := (h₅ u).not_mem_erase (a := t)
    grind -linarith
  · grind -linarith
  · grind -linarith

/-- Task `u` has ended. -/
theorem Places.complete (h : Places v) :
    Places { v with done := Function.update v.done u true, waiters := Function.update v.waiters u [] } := by
  obtain ⟨h₁, h₂, h₃, h₄, h₅, h₆, h₇, h₈, h₉, h₁₀, h₁₁, h₁₂, h₁₃, h₁₄⟩ := h
  refine ⟨h₁, h₂, h₃, h₄, fun u' => ?_, fun u' t' hm => ?_, fun u' hd => ?_, h₈, h₉, h₁₀, h₁₁, h₁₂, h₁₃, h₁₄⟩
  · grind -linarith
  · grind -linarith
  · grind -linarith

/-- Task `t` becomes the waiter of ticker `k`. -/
theorem Places.tick (h : Places v) (ht : v.place t = .none) (hk : v.waiter k = none) (hm : v.made k = true) :
    Places { v with
      place := Function.update v.place t (.tick k)
      waiter := Function.update v.waiter k (some t) } := by
  obtain ⟨h₁, h₂, h₃, h₄, h₅, h₆, h₇, h₈, h₉, h₁₀, h₁₁, h₁₂, h₁₃, h₁₄⟩ := h
  refine ⟨h₁, fun o' t' hm' => ?_, fun b t' hb => ?_, h₄, h₅, fun u' t' hm => ?_, h₇, fun k' t' => ?_,
    fun k' t' => ?_, h₁₀, h₁₁, fun b t' k' hb => ?_, h₁₃, h₁₄⟩
  · grind -linarith
  · grind -linarith
  · grind -linarith
  · grind -linarith
  · grind -linarith
  · grind -linarith

/-- `dlsm_gt_ticker_wait` of ticker `k` returns. -/
theorem Places.tick_end (h : Places v) (ht : v.place t = .tick k) (hl : v.locked k = false) :
    Places { v with
      place := Function.update v.place t .none
      waiter := Function.update v.waiter k none } := by
  obtain ⟨h₁, h₂, h₃, h₄, h₅, h₆, h₇, h₈, h₉, h₁₀, h₁₁, h₁₂, h₁₃, h₁₄⟩ := h
  have hk := (h₈ k t).mpr ht
  refine ⟨h₁, fun o' t' hm' => ?_, fun b t' hb => ?_, h₄, h₅, fun u' t' hm => ?_, h₇, fun k' t' => ?_,
    fun k' t' => ?_, h₁₀, h₁₁, fun b t' k' hb => ?_, h₁₃, h₁₄⟩
  · grind -linarith
  · grind -linarith
  · grind -linarith
  · grind -linarith
  · grind -linarith
  · grind -linarith

/-- Thread `a` locks the mutex of ticker `k`, to cancel the timer of its waiter. -/
theorem Places.lock {d : Deed} (h : Places v) (hl : v.locked k = false) (hm : v.made k = true)
    (hd : d = .hold k ∨ ∃ t, v.waiter k = some t ∧ d = .cancel t k) :
    Places { v with deed := Function.update v.deed a d, locked := Function.update v.locked k true } := by
  obtain ⟨h₁, h₂, h₃, h₄, h₅, h₆, h₇, h₈, h₉, h₁₀, h₁₁, h₁₂, h₁₃, h₁₄⟩ := h
  refine ⟨h₁, h₂, fun b t' hb => ?_, fun b c t' hb hc => ?_, h₅, h₆, h₇, h₈, h₉, fun b k' hb => ?_,
    fun b c k' hb hc => ?_, fun b t' k' hb => ?_, fun b k' hb => ?_, fun k' hl => ?_⟩
  · grind -linarith
  · grind -linarith
  · grind -linarith
  · grind -linarith
  · grind -linarith
  · grind -linarith
  · grind -linarith

/-- It has cancelled the timer. -/
theorem Places.cancelled (h : Places v) (ha : v.deed a = .cancel t k) :
    Places { v with deed := Function.update v.deed a (.hold k) } := by
  obtain ⟨h₁, h₂, h₃, h₄, h₅, h₆, h₇, h₈, h₉, h₁₀, h₁₁, h₁₂, h₁₃, h₁₄⟩ := h
  refine ⟨h₁, h₂, fun b t' hb => ?_, fun b c t' hb hc => ?_, h₅, h₆, h₇, h₈, h₉, fun b k' hb => ?_,
    fun b c k' hb hc => ?_, fun b t' k' hb => ?_, fun b k' hb => ?_, fun k' hl => ?_⟩
  · grind -linarith
  · grind -linarith
  · grind -linarith
  · grind -linarith
  · grind -linarith
  · grind -linarith
  · grind -linarith

/-- It unlocks the mutex. -/
theorem Places.unlock (h : Places v) (ha : v.deed a = .hold k) :
    Places { v with deed := Function.update v.deed a .none, locked := Function.update v.locked k false } := by
  obtain ⟨h₁, h₂, h₃, h₄, h₅, h₆, h₇, h₈, h₉, h₁₀, h₁₁, h₁₂, h₁₃, h₁₄⟩ := h
  refine ⟨h₁, h₂, fun b t' hb => ?_, fun b c t' hb hc => ?_, h₅, h₆, h₇, h₈, h₉, fun b k' hb => ?_,
    fun b c k' hb hc => ?_, fun b t' k' hb => ?_, fun b k' hb => ?_, fun k' hl => ?_⟩
  · grind -linarith
  · grind -linarith
  · grind -linarith
  · grind -linarith
  · grind -linarith
  · grind -linarith
  · grind -linarith

/-- `dlsm_gt_ticker_new` -/
theorem Places.tickerNew (h : Places v) (hm : v.made k = false) :
    Places { v with
      made := Function.update v.made k true
      locked := Function.update v.locked k false
      waiter := Function.update v.waiter k none } := by
  obtain ⟨h₁, h₂, h₃, h₄, h₅, h₆, h₇, h₈, h₉, h₁₀, h₁₁, h₁₂, h₁₃, h₁₄⟩ := h
  refine ⟨h₁, h₂, h₃, h₄, h₅, h₆, h₇, fun k' t' => ?_, fun k' t' => ?_, fun b k' hb => ?_, h₁₁, fun b t' k' hb => ?_,
    fun b k' hb => ?_, fun k' hl => ?_⟩
  · grind -linarith
  · grind -linarith
  · grind -linarith
  · grind -linarith
  · grind -linarith
  · grind -linarith

/-- A thread does nothing to tickers and jobs, or is about to reset a ticker. -/
theorem Places.set_deed {d : Deed} (h : Places v) (hd : d = .none ∨ ∃ k, d = .near k ∧ v.made k = true) :
    Places { v with deed := Function.update v.deed a d } := by
  obtain ⟨h₁, h₂, h₃, h₄, h₅, h₆, h₇, h₈, h₉, h₁₀, h₁₁, h₁₂, h₁₃, h₁₄⟩ := h
  refine ⟨h₁, h₂, fun b t' hb => ?_, fun b c t' hb hc => ?_, h₅, h₆, h₇, h₈, h₉, fun b k' hb => ?_,
    fun b c k' hb hc => ?_, fun b t' k' hb => ?_, fun b k' hb => ?_, h₁₄⟩
  · grind -linarith
  · grind -linarith
  · grind -linarith
  · grind -linarith
  · grind -linarith
  · grind -linarith

/-- A task goes on when it has been granted what it waits for. -/
theorem Places.leave_granted (h : Places v) (ht : v.place t = .sync o) (hg : v.granted t = true) :
    Places { v with place := Function.update v.place t .none } := by
  have hn : t ∉ v.queue o := fun hm => by simp [(h.queued o t hm).2] at hg
  have hw : ∀ a, v.deed a ≠ .work t := fun a ha => by simp [(h.work a t ha).2.1] at hg
  have := h.leave ht (List.Sublist.refl _) hn hw
  rwa [Function.update_eq_self] at this

/-- A task gives up waiting for a mutex. -/
theorem Places.give_up (h : Places v) (ht : v.place t = .sync (.mutex i)) :
    Places { v with
      place := Function.update v.place t .none
      queue := Function.update v.queue (.mutex i) ((v.queue (.mutex i)).erase t) } := by
  refine h.leave ht List.erase_sublist (h.nodup _).not_mem_erase fun a ha => ?_
  have := (h.work a t ha).1
  rw [ht] at this
  cases this

end Moves

/-! ## What each step does to the places -/

section Views

variable {s s' s₁ : State} {a : Actor} {t n : Nat} {c : Pc}

def After.deed : After → Deed
  | .unlock k => .hold k
  | _ => .none

theorem After.pc_place (k : After) : k.pc.place = k.place := by
  cases k <;> rfl

theorem After.pc_deed (k : After) : k.pc.deed = k.deed := by
  cases k <;> rfl

theorem After.unparks_deed (l : List Nat) (k : After) : (Pc.unparks l k).deed = k.deed := by
  cases k <;> rfl

theorem Block.resume_place (b : Block) : b.resume.place = b.place := by
  cases b <;> rfl

theorem Block.resume_deed (b : Block) : b.resume.deed = .none := by
  cases b <;> rfl

theorem places_setPc_task (s : State) (t : Nat) (c : Pc) : (setPc s (.task t) c).places = { s.places with
    place := Function.update s.places.place t c.place
    deed := Function.update s.places.deed (.task t) c.deed } := by
  simp only [State.places, setPc, PlaceView.mk.injEq, and_true]
  refine ⟨?_, ?_⟩ <;> funext b
  · by_cases hb : b = t
    · subst hb
      simp
    · simp [hb]
  · by_cases hb : b = .task t
    · subst hb
      simp
    · simp [hb]

/-- A task goes on, in another place. -/
theorem places_setPc_place (hd : c.deed = (s.pc (.task t)).deed) :
    (setPc s (.task t) c).places = { s.places with place := Function.update s.places.place t c.place } := by
  have hu : Function.update s.places.deed (.task t) (s.pc (.task t)).deed = s.places.deed := Function.update_eq_self _ _
  rw [places_setPc_task, hd, hu]

/-- A thread goes on in the same place. -/
theorem places_setPc_deed (hp : ∀ t, a = .task t → c.place = (s.pc a).place) :
    (setPc s a c).places = { s.places with deed := Function.update s.places.deed a c.deed } := by
  cases a with
  | task t =>
    have hu : Function.update s.places.place t (s.pc (.task t)).place = s.places.place := Function.update_eq_self _ _
    rw [places_setPc_task, hp t rfl, hu]
  | timer =>
    simp only [State.places, setPc, PlaceView.mk.injEq, and_true]
    refine ⟨?_, ?_⟩ <;> funext b
    · simp
    · by_cases hb : b = .timer
      · subst hb
        simp
      · simp [hb]
  | ext x =>
    simp only [State.places, setPc, PlaceView.mk.injEq, and_true]
    refine ⟨?_, ?_⟩ <;> funext b
    · simp
    · by_cases hb : b = .ext x
      · subst hb
        simp
      · simp [hb]

/-- A thread goes on in the same place and with nothing else to do. -/
theorem places_setPc (hp : ∀ t, a = .task t → c.place = (s.pc a).place) (hd : c.deed = (s.pc a).deed) :
    (setPc s a c).places = s.places := by
  have hu : Function.update s.places.deed a (s.pc a).deed = s.places.deed := Function.update_eq_self _ _
  rw [places_setPc_deed hp, hd, hu]

theorem places_setTicker (s : State) (k : Nat) (tk : Ticker) : (setTicker s k tk).places = { s.places with
    made := Function.update s.places.made k tk.made
    locked := Function.update s.places.locked k tk.locked
    waiter := Function.update s.places.waiter k tk.waiter } := by
  simp only [State.places, setTicker, PlaceView.mk.injEq, true_and]
  refine ⟨?_, ?_, ?_⟩ <;> funext j <;> by_cases hj : j = k <;> simp [hj]

theorem places_signal (s : State) : (signal s).places = s.places := by
  unfold signal
  split <;> rfl

theorem places_cancelNode (s : State) (n : Nat) : (cancelNode s n).places = s.places := by
  unfold cancelNode
  dsimp only
  split
  · exact places_signal _
  · rfl

theorem places_unpark (s : State) (t : Nat) : (unpark s t).places = s.places := by
  unfold unpark
  split
  · rfl
  · split
    · rename_i b hb
      exact places_setPc (fun u hu => by rw [hb, Block.resume_place]; rfl) (by rw [hb, Block.resume_deed]; rfl)
    · rfl

theorem places_willUnpark {l : List Nat} {k : After} (hp : ∀ t, a = .task t → k.place = (s.pc a).place) :
    (willUnpark s a l k).places = { s.places with deed := Function.update s.places.deed a k.deed } := by
  unfold willUnpark
  split
  · rw [places_setPc_deed fun t ht => (After.pc_place k).trans (hp t ht), After.pc_deed]
  · rw [places_setPc_deed (s := { s with owed := s.owed ++ l.map (Prod.mk a) }) hp, After.unparks_deed]
    rfl

theorem places_sleepRet {d : Nat} {c : Caller} {st : Status} (hp : (s.pc (.task t)).place = c.place)
    (hd : (s.pc (.task t)).deed = .none) : (sleepRet s t d c st).places = s.places := by
  unfold sleepRet
  split
  · exact places_setPc (s := { s with log := _ }) (fun _ _ => hp.symm) hd.symm
  · split <;> exact places_setPc (fun _ _ => hp.symm) hd.symm

theorem places_registerFail {w : Wait} {st : Status} (hp : (s.pc (.task t)).place = w.place)
    (hd : (s.pc (.task t)).deed = .none) : (registerFail s t w st).places = s.places := by
  unfold registerFail
  split
  · exact places_sleepRet hp hd
  · exact places_setPc (fun _ _ => hp.symm) hd.symm

theorem places_waitRet {w : Wait} {st : Status} (hp : (s.pc (.task t)).place = w.place)
    (hd : (s.pc (.task t)).deed = .none) : (waitRet s t w st).places = s.places := by
  unfold waitRet
  split
  · exact places_sleepRet hp hd
  · exact places_setPc (fun _ _ => hp.symm) hd.symm

/-! ## Steps -/

/-- A thread goes on in the same place and with nothing else to do, after a change of other parts of the state. -/
theorem Places.goto (h : Places s₁.places) (hp : c.place = (s₁.pc a).place) (hd : c.deed = (s₁.pc a).deed) :
    Places (setPc s₁ a c).places := by
  rwa [places_setPc (fun _ _ => hp) hd]

theorem Places.willUnpark {l : List Nat} {k : After} (h : Places s₁.places) (hp : k.place = (s₁.pc a).place)
    (hd : k.deed = (s₁.pc a).deed) : Places (Timer.willUnpark s₁ a l k).places := by
  have hu : Function.update s₁.places.deed a (s₁.pc a).deed = s₁.places.deed := Function.update_eq_self _ _
  rwa [places_willUnpark fun _ _ => hp, hd, hu]

theorem Places.unparkStep {l : List Nat} {k : After} (h : Places s.places) (hpc : s.pc a = .unparks l k) :
    Places (Timer.unparkStep s a l k).places := by
  unfold Timer.unparkStep
  split
  · exact h.goto (by rw [hpc, After.pc_place]; rfl) (by rw [hpc, After.pc_deed, After.unparks_deed])
  · rename_i t l
    have hpc' : (unpark { s with owed := s.owed.erase (a, t) } t).pc a = .unparks (t :: l) k := by
      rw [pc_unpark_of_ne (s := { s with owed := s.owed.erase (a, t) })]
      · exact hpc
      · intro b
        simp [hpc]
    refine Places.goto (by rw [places_unpark]; exact h) ?_ ?_
    · rw [hpc']
      split
      · exact After.pc_place k
      · rfl
    · rw [hpc', After.unparks_deed]
      split
      · exact After.pc_deed k
      · exact After.unparks_deed l k

theorem Places.timerCancelTaskWait {k : After} (h : Places s.places) (hpc : s.pc a = .cancelTimer t k) :
    Places (Timer.timerCancelTaskWait s a t k).places := by
  have hk : Places { s.places with deed := Function.update s.places.deed a k.deed } := by
    cases k with
    | unlock k => exact h.cancelled (t := t) (by rw [show s.places.deed a = (s.pc a).deed from rfl, hpc]; rfl)
    | _ => exact h.set_deed (.inl rfl)
  have hgo : Places (setPc s a k.pc).places := by
    rw [places_setPc_deed fun u _ => by rw [hpc, After.pc_place]; rfl, After.pc_deed]
    exact hk
  unfold Timer.timerCancelTaskWait
  split
  · split
    · rw [places_willUnpark]
      · rw [places_cancelNode]
        exact hk
      · intro u _
        rw [pc_cancelNode, hpc]
        rfl
    · exact hgo
  · exact hgo

theorem Places.timerWaitFinish {w : Wait} (h : Places s.places) (hpc : s.pc (.task t) = .finish n w) :
    Places (Timer.timerWaitFinish s t n w).places := by
  have hf : (finishNode s n).places = s.places ∧ (finishNode s n).pc = s.pc := by
    unfold finishNode
    split
    · exact ⟨places_cancelNode s n, pc_cancelNode s n⟩
    · exact ⟨rfl, rfl⟩
  unfold Timer.timerWaitFinish
  dsimp only
  rw [places_waitRet]
  · show Places (finishNode s n).places
    rwa [hf.1]
  · rw [hf.2, hpc]
    rfl
  · rw [hf.2, hpc]
    rfl

theorem Places.timerWaitRegister {w : Wait} {e : Env} (h : Places s.places) (hpc : s.pc (.task t) = .register w)
    (hs : Timer.timerWaitRegister s t w e = some s') : Places s'.places := by
  have hp : (s.pc (.task t)).place = w.place := by rw [hpc]; rfl
  have hd : (s.pc (.task t)).deed = .none := by rw [hpc]; rfl
  unfold Timer.timerWaitRegister at hs
  split at hs
  · refine Option.some.inj hs ▸ ?_
    rwa [places_registerFail hp hd]
  · split_ifs at hs
    · refine Option.some.inj hs ▸ ?_
      rwa [places_registerFail hp hd]
    · split at hs
      · refine Option.some.inj hs ▸ ?_
        rw [places_registerFail]
        exacts [h, hp, hd]
      · refine Option.some.inj hs ▸ ?_
        unfold registerNode
        dsimp only
        split_ifs
        · cases w <;> exact Places.goto (by rw [places_signal]; exact h) (by rw [pc_signal]; exact hp.symm)
            (by rw [pc_signal]; exact hd.symm)
        · cases w <;> exact Places.goto h hp.symm hd.symm

theorem Places.rtPark {b : Block} (h : Places s.places) (hpc : s.pc (.task t) = .park b) :
    Places (Timer.rtPark s t b).places := by
  have hd : (s.pc (.task t)).deed = .none := by rw [hpc]; rfl
  unfold Timer.rtPark
  split
  · have h₁ : Places (State.places { s with unparkPending := Function.update s.unparkPending t false }) := h
    exact h₁.goto
      (by dsimp only; rw [hpc, Block.resume_place]; rfl) (by dsimp only; rw [hd, Block.resume_deed])
  · exact h.goto (by rw [hpc]; rfl) (by rw [hd]; rfl)

theorem Places.timerLoop {e : Env} (h : Places s.places) (hpc : s.pc .timer = .timerLoop) :
    Places (Timer.timerLoop s e).places := by
  have hl {st : TimerState} : Places (Timer.willUnpark (Timer.leave s 0 (s.heap.arr 0) st) .timer
      [s.nodeTask (s.heap.arr 0)] .timer).places :=
    Places.willUnpark (show Places (Timer.leave s 0 (s.heap.arr 0) st).places from h)
      (by unfold Timer.leave; dsimp only; rw [hpc]; rfl)
      (by unfold Timer.leave; dsimp only; rw [hpc]; rfl)
  unfold Timer.timerLoop
  dsimp only
  split_ifs
  · exact hl
  · exact h.goto (by rw [hpc]; rfl) (by rw [hpc]; rfl)
  · exact h.goto (by rw [hpc]; rfl) (by rw [hpc]; rfl)
  · exact hl
  · exact h.goto (by rw [hpc]; rfl) (by rw [hpc]; rfl)

/-- `dlsm_gt_ticker_wait` returns; only the deadline of the ticker has changed. -/
theorem Places.tickRet {k count : Nat} {st : Status} (h : Places s₁.places) (ht : (s₁.pc (.task t)).place = .tick k)
    (hd : (s₁.pc (.task t)).deed = .none) (hl : (s₁.ticker k).locked = false) :
    Places (Timer.tickRet s₁ t k st count).places := by
  have hv := places_setTicker s₁ k { s₁.ticker k with waiter := none }
  have hm : Function.update s₁.places.made k (s₁.ticker k).made = s₁.places.made := Function.update_eq_self _ _
  have hk : Function.update s₁.places.locked k (s₁.ticker k).locked = s₁.places.locked := Function.update_eq_self _ _
  simp only [hm, hk] at hv
  unfold Timer.tickRet
  rw [places_setPc_place]
  · show Places { (setTicker s₁ k { s₁.ticker k with waiter := none }).places with
      place := Function.update s₁.places.place t .none }
    rw [hv]
    exact h.tick_end ht hl
  · exact hd.symm

/-- Thread `a` has locked the mutex of ticker `k`, and cancels the timer of its waiter. -/
theorem Places.cancelWaiter {k : Nat} {tk : Ticker} (h : Places s.places) (hp : (s.pc a).place = .none)
    (hm : (s.ticker k).made = true) (hl : (s.ticker k).locked = false) (hm' : tk.made = (s.ticker k).made)
    (hl' : tk.locked = true) (hw : tk.waiter = (s.ticker k).waiter) :
    Places (Timer.cancelWaiter (setTicker s k tk) a k).places := by
  have hv := places_setTicker s k tk
  have hu₁ : Function.update s.places.made k (s.ticker k).made = s.places.made := Function.update_eq_self _ _
  have hu₂ : Function.update s.places.waiter k (s.ticker k).waiter = s.places.waiter := Function.update_eq_self _ _
  simp only [hm', hl', hw, hu₁, hu₂] at hv
  have htk : (setTicker s k tk).ticker k = tk := by simp [setTicker]
  unfold Timer.cancelWaiter
  rw [htk]
  split
  · rw [places_setPc_deed, hv]
    · exact h.lock hl hm (.inl rfl)
    · exact fun _ _ => hp.symm
  · rename_i t ht
    rw [places_setPc_deed, hv]
    · exact h.lock hl hm (.inr ⟨t, hw.symm.trans ht, rfl⟩)
    · exact fun _ _ => hp.symm

theorem Places.tickEnd {k d g : Nat} {st : Status} {e : Env} (h : Places s.places)
    (hpc : s.pc (.task t) = .tickEnd k d g st) (hs : Timer.tickEnd s t k d g st e = some s') : Places s'.places := by
  have hp : (s.pc (.task t)).place = .tick k := by rw [hpc]; rfl
  have hd : (s.pc (.task t)).deed = .none := by rw [hpc]; rfl
  have htk (x : Nat) : Places (setTicker s k { s.ticker k with nextDeadline := x }).places := by
    rw [places_setTicker]
    have hu₁ : Function.update s.places.made k (s.ticker k).made = s.places.made := Function.update_eq_self _ _
    have hu₂ : Function.update s.places.locked k (s.ticker k).locked = s.places.locked := Function.update_eq_self _ _
    have hu₃ : Function.update s.places.waiter k (s.ticker k).waiter = s.places.waiter := Function.update_eq_self _ _
    simpa only [hu₁, hu₂, hu₃] using h
  unfold Timer.tickEnd at hs
  dsimp only at hs
  split_ifs at hs with hl
  · exact Option.some.inj hs ▸ h.tickRet hp hd (by simpa using hl)
  · exact Option.some.inj hs ▸ h.goto hp.symm hd.symm
  · exact Option.some.inj hs ▸ h.tickRet hp hd (by simpa using hl)
  · exact Option.some.inj hs ▸ h.tickRet hp hd (by simpa using hl)
  all_goals exact Option.some.inj hs ▸ (htk _).tickRet hp hd (by simpa [setTicker] using hl)

theorem Places.waitEnd {u : Nat} (h : Places s.places) (hpc : s.pc (.task t) = .waitEnd u)
    {waiters : List Nat} (hw : waiters = (s.completionWaiters u).erase t) {log : List Ret} :
    Places (setPc { s with completionWaiters := Function.update s.completionWaiters u waiters, log := log }
      (.task t) .idle).places := by
  subst hw
  rw [places_setPc_place]
  · exact h.wait_end (by rw [show s.places.place t = (s.pc (.task t)).place from rfl, hpc]; rfl)
  · dsimp only
    rw [hpc]
    rfl

theorem Places.resetClock {k interval now : Nat} (h : Places s.places) (hpc : s.pc a = .resetClock k interval) :
    Places (setPc s a (if now = 0 then .idle else .reset k interval now)).places := by
  have hm := h.near a k (by rw [show s.places.deed a = (s.pc a).deed from rfl, hpc]; rfl)
  rw [places_setPc_deed fun _ _ => by rw [hpc]; split <;> rfl]
  split
  · exact h.set_deed (.inl rfl)
  · exact h.set_deed (.inr ⟨k, rfl, hm⟩)

theorem Places.tickerReset {k interval now : Nat} (h : Places s.places) (hpc : s.pc a = .reset k interval now)
    (hs : Timer.tickerReset s a k interval now = some s') : Places s'.places := by
  have hp : (s.pc a).place = .none := by rw [hpc]; rfl
  have hm := h.near a k (by rw [show s.places.deed a = (s.pc a).deed from rfl, hpc]; rfl)
  unfold Timer.tickerReset at hs
  dsimp only at hs
  split_ifs at hs with hl
  · refine Option.some.inj hs ▸ ?_
    rw [places_setPc_deed (c := .idle) fun _ _ => hp.symm]
    exact h.set_deed (.inl rfl)
  all_goals exact Option.some.inj hs ▸ h.cancelWaiter hp hm (by simpa using hl) rfl rfl rfl

theorem Places.unlockTicker {k : Nat} (h : Places s.places) (hpc : s.pc a = .unlockTicker k) :
    Places (setPc (setTicker s k { s.ticker k with locked := false }) a .idle).places := by
  have hv := places_setTicker s k { s.ticker k with locked := false }
  have hu₁ : Function.update s.places.made k (s.ticker k).made = s.places.made := Function.update_eq_self _ _
  have hu₂ : Function.update s.places.waiter k (s.ticker k).waiter = s.places.waiter := Function.update_eq_self _ _
  simp only [hu₁, hu₂] at hv
  rw [places_setPc_deed, hv]
  · exact h.unlock (by rw [show s.places.deed a = (s.pc a).deed from rfl, hpc]; rfl)
  · intro _ _
    rw [show (setTicker s k { s.ticker k with locked := false }).pc = s.pc from rfl, hpc]
    rfl

/-- A thread of the blocking pool has executed the job of task `t`. -/
theorem Places.job_done (h : Places s.places) (hpc : s.pc a = .work t) :
    Places (Timer.willUnpark { s with granted := Function.update s.granted t true } a [t] .ret).places := by
  rw [places_willUnpark]
  · exact h.work_done (by rw [show s.places.deed a = (s.pc a).deed from rfl, hpc]; rfl)
  · intro _ _
    dsimp only
    rw [hpc]
    rfl

theorem places_next {e : Env} (h : Places s.places) (hs : next s a e = some s') : Places s'.places := by
  unfold next at hs
  split at hs
  · rename_i t d c hpc
    have hp : (s.pc (.task t)).place = c.place := by rw [hpc]; rfl
    have hd : (s.pc (.task t)).deed = .none := by rw [hpc]; rfl
    refine Option.some.inj hs ▸ ?_
    unfold sleepCheck
    split_ifs
    · rwa [places_sleepRet hp hd]
    · rwa [places_sleepRet hp hd]
    · exact h.goto hp.symm hd.symm
  · rename_i t d c hpc
    have hp : (s.pc (.task t)).place = c.place := by rw [hpc]; rfl
    have hd : (s.pc (.task t)).deed = .none := by rw [hpc]; rfl
    refine Option.some.inj hs ▸ ?_
    unfold sleepClock
    split_ifs
    · rwa [places_sleepRet hp hd]
    · rwa [places_sleepRet hp hd]
    · exact h.goto hp.symm hd.symm
  · rename_i t w hpc
    exact h.timerWaitRegister hpc hs
  · rename_i t b hpc
    exact Option.some.inj hs ▸ h.rtPark hpc
  · rename_i t n w hpc
    exact Option.some.inj hs ▸ h.timerWaitFinish hpc
  · rename_i t i d hpc
    exact Option.some.inj hs ▸ h.goto (by rw [hpc]; rfl) (by rw [hpc]; rfl)
  · rename_i t i d st hpc
    have hp : (s.pc (.task t)).place = .sync (.mutex i) := by rw [hpc]; rfl
    have hd : (s.pc (.task t)).deed = .none := by rw [hpc]; rfl
    refine Option.some.inj hs ▸ ?_
    unfold timedRecheck
    split_ifs with hg
    · rw [places_setPc_place (c := .idle) hd.symm]
      exact h.leave_granted hp hg
    · rw [places_setPc_place]
      exacts [h.give_up hp, hd.symm]
    · exact h.goto hp.symm hd.symm
  · rename_i t o hpc
    have hp : (s.pc (.task t)).place = .sync o := by rw [hpc]; rfl
    have hd : (s.pc (.task t)).deed = .none := by rw [hpc]; rfl
    refine Option.some.inj hs ▸ ?_
    split_ifs with hg
    · rw [places_setPc_place (c := .idle) hd.symm]
      exact h.leave_granted hp hg
    · exact h.goto hp.symm hd.symm
  · rename_i t k hpc
    have hp : (s.pc (.task t)).place = .tick k := by rw [hpc]; rfl
    have hd : (s.pc (.task t)).deed = .none := by rw [hpc]; rfl
    unfold tickLoop at hs
    dsimp only at hs
    split_ifs at hs with hl
    · exact Option.some.inj hs ▸ h.tickRet hp hd (by simpa using hl)
    · exact Option.some.inj hs ▸ h.goto hp.symm hd.symm
  · rename_i t n k d g hpc
    have hp : (s.pc (.task t)).place = .tick k := by rw [hpc]; rfl
    have hd : (s.pc (.task t)).deed = .none := by rw [hpc]; rfl
    unfold tickStale at hs
    dsimp only at hs
    split_ifs at hs
    · exact Option.some.inj hs ▸ h.goto hp.symm hd.symm
    · exact Option.some.inj hs ▸ h.goto hp.symm hd.symm
  · rename_i t k d g st hpc
    exact h.tickEnd hpc hs
  · rename_i t k st hpc
    split_ifs at hs with hl
    exact Option.some.inj hs ▸ h.tickRet (by rw [hpc]; rfl) (by rw [hpc]; rfl) (by simpa using hl)
  · rename_i t u hpc
    split_ifs at hs with hdone
    · have hw := h.done u hdone
      refine Option.some.inj hs ▸ ?_
      have := @Places.waitEnd s t u h hpc [] (by rw [show s.completionWaiters u = [] from hw]; rfl)
        (s.log ++ [.taskWait t u .ok])
      rwa [show Function.update s.completionWaiters u [] = s.completionWaiters from
        Function.update_eq_self_iff.mpr hw.symm] at this
    · exact Option.some.inj hs ▸ h.waitEnd hpc rfl
  · rename_i t hpc
    exact Option.some.inj hs ▸ Places.willUnpark h.complete (by dsimp only; rw [hpc]; rfl)
      (by dsimp only; rw [hpc]; rfl)
  · rename_i k interval hpc
    exact Option.some.inj hs ▸ h.resetClock hpc
  · rename_i k interval now hpc
    exact h.tickerReset hpc hs
  · rename_i k hpc
    exact Option.some.inj hs ▸ h.unlockTicker hpc
  · rename_i t k hpc
    exact Option.some.inj hs ▸ h.timerCancelTaskWait hpc
  · rename_i l k hpc
    exact Option.some.inj hs ▸ h.unparkStep hpc
  · rename_i t hpc
    exact Option.some.inj hs ▸ h.job_done hpc
  · rename_i hpc
    exact Option.some.inj hs ▸ h.timerLoop hpc
  · rename_i hpc
    exact Option.some.inj hs ▸ Places.goto (show Places (State.places { s with signalled := false }) from h)
      (by dsimp only; rw [hpc]; rfl)
      (by dsimp only; rw [hpc]; rfl)
  · cases hs

theorem Places.join {o : Obj} (h : Places s.places) (hp : (s.pc (.task t)).place = .none)
    (hd : (s.pc (.task t)).deed = .none) (hc : c.place = .sync o) (hcd : c.deed = .none) :
    Places (Timer.enqueue s t o c).places := by
  unfold Timer.enqueue
  rw [places_setPc_place, hc]
  · exact h.enqueue hp
  · exact hcd.trans hd.symm

theorem Places.mutexLock {i : Nat} (h : Places s.places) (hp : (s.pc (.task t)).place = .none)
    (hd : (s.pc (.task t)).deed = .none) (hc : c.place = .sync (.mutex i)) (hcd : c.deed = .none) :
    Places (Timer.mutexLock s t i c).places := by
  unfold Timer.mutexLock
  split
  · exact h
  · split_ifs
    · exact h
    · exact h.join hp hd hc hcd

/-- A call of a thread that leaves it where it was, with some tasks of a queue granted. -/
theorem Places.grant_first {o : Obj} {u : Nat} {l : List Nat} (h : Places s.places) (hq : s.queue o = u :: l) :
    Places { s.places with
      granted := Function.update s.granted u true
      queue := Function.update s.queue o l } := by
  have hn := h.nodup o
  rw [show s.places.queue o = u :: l from hq] at hn
  refine h.grant (o := o) (by rw [show s.places.queue o = u :: l from hq]; exact List.sublist_cons_self _ _)
    (fun t ht => ?_) fun t ht => ?_
  · have : t ≠ u := by
      rintro rfl
      exact ht (by rw [show s.places.queue o = t :: l from hq]; exact List.mem_cons_self)
    exact Function.update_of_ne this _ _
  · have : t ≠ u := by
      rintro rfl
      exact (List.nodup_cons.mp hn).1 ht
    exact Function.update_of_ne this _ _

theorem Places.mutexUnlock {i : Nat} (h : Places s.places) (hp : (s.pc (.task t)).place = .none)
    (hd : (s.pc (.task t)).deed = .none) : Places (Timer.mutexUnlock s t i).places := by
  unfold Timer.mutexUnlock
  split_ifs
  · exact h
  · split
    · exact h
    · rename_i u l hq
      exact Places.willUnpark (h.grant_first hq) hp.symm hd.symm

theorem places_taskCall {c : Call} (h : Places s.places) (hpc : s.pc (.task t) = .idle)
    (hs : taskCall s t c = some s') : Places s'.places := by
  have hp : (s.pc (.task t)).place = .none := by rw [hpc]; rfl
  have hd : (s.pc (.task t)).deed = .none := by rw [hpc]; rfl
  cases c with simp only [taskCall, reduceCtorEq] at hs
  | sleepUntil d => exact Option.some.inj hs ▸ h.goto hp.symm hd.symm
  | tickerWait k =>
    split_ifs at hs with hk hw
    · exact Option.some.inj hs ▸ h
    · simp only [not_or, Bool.not_eq_true, Bool.not_eq_false, not_not] at hk hw
      have hv := places_setTicker s k { s.ticker k with waiter := some t }
      have hu₁ : Function.update s.places.made k (s.ticker k).made = s.places.made := Function.update_eq_self _ _
      have hu₂ : Function.update s.places.locked k (s.ticker k).locked = s.places.locked :=
        Function.update_eq_self _ _
      simp only [hu₁, hu₂] at hv
      refine Option.some.inj hs ▸ ?_
      rw [places_setPc_place, hv]
      · exact h.tick hp hw.2 hk.2
      · exact hd.symm
  | taskWait u =>
    split_ifs at hs with hu hdone
    · exact Option.some.inj hs ▸ h
    · exact Option.some.inj hs ▸ h
    · refine Option.some.inj hs ▸ ?_
      rw [places_setPc_place]
      · exact h.wait hp (Bool.eq_false_iff.mpr hdone)
      · exact hd.symm
  | lock i => exact Option.some.inj hs ▸ h.mutexLock hp hd rfl rfl
  | timedlock i d =>
    split_ifs at hs
    · exact Option.some.inj hs ▸ h
    · exact Option.some.inj hs ▸ h.mutexLock hp hd rfl rfl
  | unlock i => exact Option.some.inj hs ▸ h.mutexUnlock hp hd
  | semaphoreWait i =>
    refine Option.some.inj hs ▸ ?_
    unfold semaphoreWait
    split_ifs
    · exact h
    · exact h.join hp hd rfl rfl
  | eventWait i =>
    refine Option.some.inj hs ▸ ?_
    unfold eventWait
    split_ifs
    · exact h
    · exact h.join hp hd rfl rfl
  | blockingCall => exact Option.some.inj hs ▸ h.join hp hd rfl rfl
  | exit =>
    have h₁ : Places (State.places { s with
      finished := Function.update s.finished t true, live := s.live.erase t }) := h
    exact Option.some.inj hs ▸ h₁.goto hp.symm hd.symm

theorem places_anyCall {c : Call} (h : Places s.places) (hpc : s.pc a = .idle) (hs : anyCall s a c = some s') :
    Places s'.places := by
  have hp : (s.pc a).place = .none := by rw [hpc]; rfl
  have hd : (s.pc a).deed = .none := by rw [hpc]; rfl
  cases c with simp only [anyCall, reduceCtorEq] at hs
  | tickerReset k interval =>
    split_ifs at hs with hm
    · exact Option.some.inj hs ▸ h
    · refine Option.some.inj hs ▸ ?_
      rw [places_setPc_deed (c := .resetClock k interval) fun _ _ => hp.symm]
      exact h.set_deed (.inr ⟨k, rfl, Bool.ne_false_iff.mp hm⟩)
  | tickerStop k =>
    split_ifs at hs with hk
    simp only [not_or, Bool.not_eq_true, Bool.not_eq_false] at hk
    exact Option.some.inj hs ▸ h.cancelWaiter hp hk.2 hk.1 rfl rfl rfl
  | taskCancel t =>
    split_ifs at hs
    · exact Option.some.inj hs ▸ h
    · have h₁ : Places (State.places { s with cancelRequested := Function.update s.cancelRequested t true }) := h
      exact Option.some.inj hs ▸ h₁.goto hp.symm hd.symm
  | unpark t => exact Option.some.inj hs ▸ h.willUnpark hp.symm hd.symm
  | semaphorePost i =>
    refine Option.some.inj hs ▸ ?_
    unfold semaphorePost
    split
    · rename_i u l hq
      exact Places.willUnpark (h.grant_first hq) hp.symm hd.symm
    · split_ifs <;> exact h
  | eventSet i =>
    refine Option.some.inj hs ▸ ?_
    unfold eventSignal
    refine Places.willUnpark ?_ hp.symm hd.symm
    exact h.grant (o := .event i) (List.nil_sublist _) (fun t ht => if_neg ht) fun t ht => by simp at ht
  | eventReset i => exact Option.some.inj hs ▸ h

theorem places_call {c : Call} (h : Places s.places) (hs : call s a c = some s') : Places s'.places := by
  unfold call at hs
  split_ifs at hs with hpc
  replace hpc := not_not.mp hpc
  split at hs
  · cases hs
  · split_ifs at hs
    rcases Option.or_eq_some_iff.mp hs with hs | ⟨-, hs⟩
    · exact places_taskCall h hpc hs
    · exact places_anyCall h hpc hs
  · split at hs
    · rename_i t l hq
      refine Option.some.inj hs ▸ ?_
      rw [places_setPc_deed]
      · exact h.takeJob hq
      · exact fun _ ht => by cases ht
    · exact places_anyCall h hpc hs

theorem places_step {x : Act} (h : Places s.places) (hs : step s x = some s') : Places s'.places := by
  cases x with simp only [step] at hs
  | clock c =>
    split_ifs at hs
    exact Option.some.inj hs ▸ h
  | spawn t =>
    split_ifs at hs
    exact Option.some.inj hs ▸ h
  | tickerNew k interval e =>
    split_ifs at hs with hk
    simp only [not_or, Bool.not_eq_true] at hk
    refine Option.some.inj hs ▸ ?_
    rw [places_setTicker]
    exact h.tickerNew hk.1
  | call a c => exact places_call h hs
  | next a e => exact places_next h hs
  | requestStop =>
    refine Option.some.inj hs ▸ ?_
    rw [places_signal]
    exact h

/-- In every reachable state each task that waits is in one place. -/
theorem places_of_reach (h : machine.Reach s) : Places s.places :=
  h.invariant (I := fun s => Places s.places) (fun _ h => h ▸ places_initial) fun _ _ _ _ h hs => places_step h hs

end Views

end Dlsmc.Timer
