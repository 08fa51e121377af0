import Dlsmc.Sync.GtMutex

/-!
# The green-thread mutex: ownership, hand-off and order

The invariant (`Inv`) names the list `l` the queue holds: its tasks are the
waiters not granted, in the order of their tickets; the owner is the task that
holds the mutex or the waiter it was handed to. Each branch of the calls keeps
it (`Inv.acquire`, `Inv.enqueue`, `Inv.handoff`, `Inv.release`, `Inv.resume`,
`Inv.giveUp`; `Inv.move` puts them together), and `Safe` and `StepSafe` are what it gives to users of the
mutex.
-/

namespace Dlsmc.GtMutex

/-- A task inside `lock` or `timedlock` whose node has been enqueued. -/
def Pc.waiting : Pc → Bool
  | .lockWait | .timedPark | .timedCheck _ => true
  | _ => false

structure Inv (s : State) (l : List Nat) : Prop where
  repr : s.queue.Repr l
  mem : ∀ t, t ∈ l ↔ (s.pc t).waiting = true ∧ s.granted t = false
  owner : ∀ t, s.owner = some t ↔ s.pc t = .holds ∨ (s.pc t).waiting = true ∧ s.granted t = true
  locked : s.locked = false ↔ s.owner = none
  empty : s.locked = false → l = []
  sorted : l.Pairwise fun a b => s.ticket a < s.ticket b
  queued : ∀ t ∈ l, s.ticket t < s.tickets
  served : ∀ n < s.tickets, n ∈ s.grants ∨ n ∈ s.gaveUp ∨ ∃ t ∈ l, s.ticket t = n
  issued : ∀ n ∈ s.grants, n < s.tickets
  increasing : s.grants.Pairwise (· < ·)
  before : ∀ n ∈ s.grants, ∀ t ∈ l, n < s.ticket t
  order : ∀ n ∈ s.grants, ∀ m < n, m ∈ s.grants ∨ m ∈ s.gaveUp

variable {s : State} {l : List Nat} {t : Nat}

attribute [local grind =] Function.update_apply

theorem waiting_of_outside {pc : Pc} (h : pc.outside = true) : pc.waiting = false := by
  cases pc <;> simp_all [Pc.outside, Pc.waiting]

theorem Inv.acquire (h : Inv s l) (hl : s.locked = false) (ho : (s.pc t).outside = true) :
    Inv (acquire s t) l := by
  obtain ⟨hrepr, hmem, howner, hlocked, hempty, hsorted, hqueued, hserved, hissued, hincreasing, hbefore, horder⟩ := h
  have hw := waiting_of_outside ho
  have hn : s.owner = none := hlocked.mp hl
  refine ⟨hrepr, ?_, ?_, by simp [GtMutex.acquire], by simp [GtMutex.acquire], hsorted, hqueued, hserved, hissued,
    hincreasing, hbefore, horder⟩ <;>
    simp only [GtMutex.acquire] <;> grind -linarith [Pc.waiting]

theorem Inv.enqueue (h : Inv s l) {pc : Pc} (hl : s.locked = true) (ho : (s.pc t).outside = true)
    (hne : s.owner ≠ some t) (hp : pc.waiting = true) : Inv (enqueue s t pc) (l ++ [t]) := by
  obtain ⟨hrepr, hmem, howner, hlocked, hempty, hsorted, hqueued, hserved, hissued, hincreasing, hbefore, horder⟩ := h
  have hw := waiting_of_outside ho
  have ht : t ∉ l := fun hm => by simp [((hmem t).mp hm).1] at hw
  have htk : ∀ a ∈ l, Function.update s.ticket t s.tickets a = s.ticket a := fun a ha =>
    Function.update_of_ne (fun e : a = t => ht (e ▸ ha)) _ _
  refine ⟨hrepr.push ht, ?_, ?_, hlocked, ?_, ?_, ?_, ?_, ?_, hincreasing, ?_, horder⟩ <;> simp only [GtMutex.enqueue]
  · grind -linarith
  · grind -linarith [Pc.waiting]
  · simp [hl]
  · refine List.pairwise_append.mpr ⟨?_, List.pairwise_singleton _ _, ?_⟩
    · exact hsorted.imp_of_mem fun ha hb hab => by rwa [htk _ ha, htk _ hb]
    · grind -linarith
  · grind -linarith
  · intro n hn
    rcases Nat.lt_succ_iff_lt_or_eq.mp hn with hn | rfl
    · rcases hserved n hn with h | h | ⟨a, ha, h⟩
      · exact .inl h
      · exact .inr (.inl h)
      · exact .inr (.inr ⟨a, by simp [ha], by rw [htk a ha]; exact h⟩)
    · exact .inr (.inr ⟨t, by simp, by simp⟩)
  · grind -linarith
  · grind -linarith

theorem Inv.handoff (h : Inv s (w :: l)) (ho : s.owner = some t) (hp : s.pc t = .holds) :
    Inv { s with
      queue := { s.queue with head := s.queue.next w, tail := if s.queue.next w = none then none else s.queue.tail }
      owner := some w
      granted := Function.update s.granted w true
      pc := Function.update s.pc t (.unpark w)
      grants := s.grants ++ [s.ticket w] } l := by
  obtain ⟨hrepr, hmem, howner, hlocked, hempty, hsorted, hqueued, hserved, hissued, hincreasing, hbefore, horder⟩ := h
  have hnd := List.nodup_cons.mp hrepr.nodup
  have hw := (hmem w).mp List.mem_cons_self
  have hwt : w ≠ t := fun e => by simp [e, hp, Pc.waiting] at hw
  have hs := List.pairwise_cons.mp hsorted
  refine ⟨⟨hrepr.chain.2, hrepr.tail_of_cons⟩, ?_, ?_, ?_, ?_, hs.2, ?_, ?_, ?_, ?_, ?_, ?_⟩
  · grind -linarith [Pc.waiting]
  · grind -linarith [Pc.waiting]
  · grind -linarith
  · grind -linarith
  · grind -linarith
  · grind -linarith
  · grind -linarith
  · refine List.pairwise_append.mpr ⟨hincreasing, List.pairwise_singleton _ _, ?_⟩
    grind -linarith
  · grind -linarith
  · -- a smaller ticket still queued would stand before the head
    intro n hn m hm
    rcases List.mem_append.mp hn with hn | hn
    · rcases horder n hn m hm with h | h
      · exact .inl (List.mem_append_left _ h)
      · exact .inr h
    · obtain rfl := List.mem_singleton.mp hn
      rcases hserved m (by have := hqueued w List.mem_cons_self; omega) with h | h | ⟨a, ha, rfl⟩
      · exact .inl (List.mem_append_left _ h)
      · exact .inr h
      · rcases List.mem_cons.mp ha with rfl | ha
        · omega
        · have := hs.1 a ha; omega

theorem Inv.release (h : Inv s []) (ho : s.owner = some t) :
    Inv { s with locked := false, owner := none, pc := Function.update s.pc t .idle } [] := by
  obtain ⟨hrepr, hmem, howner, hlocked, hempty, hsorted, hqueued, hserved, hissued, hincreasing, hbefore, horder⟩ := h
  refine ⟨hrepr, ?_, ?_, by simp, by simp, hsorted, hqueued, hserved, hissued, hincreasing, hbefore, horder⟩ <;>
    grind -linarith [Pc.waiting]

/-- A waiter that was granted the mutex returns. -/
theorem Inv.resume (h : Inv s l) (hp : (s.pc t).waiting = true) (hg : s.granted t = true) :
    Inv { s with pc := Function.update s.pc t .holds } l := by
  obtain ⟨hrepr, hmem, howner, hlocked, hempty, hsorted, hqueued, hserved, hissued, hincreasing, hbefore, horder⟩ := h
  refine ⟨hrepr, ?_, ?_, hlocked, hempty, hsorted, hqueued, hserved, hissued, hincreasing, hbefore, horder⟩ <;>
    grind -linarith [Pc.waiting]

/-- A waiter moves on without leaving the queue. -/
theorem Inv.rewait (h : Inv s l) {pc : Pc} (hp : (s.pc t).waiting = true) (hw : pc.waiting = true) :
    Inv { s with pc := Function.update s.pc t pc } l := by
  obtain ⟨hrepr, hmem, howner, hlocked, hempty, hsorted, hqueued, hserved, hissued, hincreasing, hbefore, horder⟩ := h
  refine ⟨hrepr, ?_, ?_, hlocked, hempty, hsorted, hqueued, hserved, hissued, hincreasing, hbefore, horder⟩ <;>
    grind -linarith [Pc.waiting]

/-- `unlock` returns after the hand-off. -/
theorem Inv.unparked (h : Inv s l) {w : Nat} (hp : s.pc t = .unpark w) :
    Inv { s with pc := Function.update s.pc t .idle } l := by
  obtain ⟨hrepr, hmem, howner, hlocked, hempty, hsorted, hqueued, hserved, hissued, hincreasing, hbefore, horder⟩ := h
  refine ⟨hrepr, ?_, ?_, hlocked, hempty, hsorted, hqueued, hserved, hissued, hincreasing, hbefore, horder⟩ <;>
    grind -linarith [Pc.waiting]

/-- A waiter whose wait failed leaves the queue. -/
theorem Inv.giveUp (h : Inv s l) {q : Links Nat} (hp : (s.pc t).waiting = true) (hg : s.granted t = false)
    (hq : q.Repr (l.erase t)) :
    Inv { s with queue := q, pc := Function.update s.pc t .idle, gaveUp := s.gaveUp ++ [s.ticket t] } (l.erase t) := by
  obtain ⟨hrepr, hmem, howner, hlocked, hempty, hsorted, hqueued, hserved, hissued, hincreasing, hbefore, horder⟩ := h
  have hme : ∀ a, a ∈ l.erase t ↔ a ≠ t ∧ a ∈ l := fun a => hrepr.nodup.mem_erase_iff
  refine ⟨hq, ?_, ?_, hlocked, ?_, hsorted.sublist List.erase_sublist, ?_, ?_, hissued, hincreasing, ?_, ?_⟩
  · grind -linarith [Pc.waiting]
  · grind -linarith [Pc.waiting]
  · intro hl; simp [hempty hl]
  · grind -linarith
  · intro n hn
    rcases hserved n hn with h | h | ⟨a, ha, rfl⟩
    · exact .inl h
    · exact .inr (.inl (List.mem_append_left _ h))
    · by_cases e : a = t
      · exact .inr (.inl (by simp [e]))
      · exact .inr (.inr ⟨a, (hme a).mpr ⟨e, ha⟩, rfl⟩)
  · grind -linarith
  · grind -linarith

/-- What a step can do, with the status its call returns: the state after it,
by the branch it took. -/
inductive Move (s : State) : State → Option Status → Prop
  | refuse {st : Status} (h : st = .inval ∨ st = .state) : Move s s (some st)
  /-- `trylock` finds the mutex locked. -/
  | busy (hl : s.locked = true) : Move s s (some .ok)
  | acquire (t : Nat) (hl : s.locked = false) (ho : (s.pc t).outside = true) : Move s (acquire s t) (some .ok)
  | enqueue (t : Nat) (pc : Pc) (hl : s.locked = true) (ho : (s.pc t).outside = true) (hne : s.owner ≠ some t)
      (hw : pc = .lockWait ∨ pc = .timedPark) : Move s (enqueue s t pc) none
  | handoff (t w : Nat) (ho : s.owner = some t) (hp : (s.pc t).outside = true) (hh : s.queue.head = some w) :
      Move s { s with
        queue := { s.queue with head := s.queue.next w, tail := if s.queue.next w = none then none else s.queue.tail }
        owner := some w
        granted := Function.update s.granted w true
        pc := Function.update s.pc t (.unpark w)
        grants := s.grants ++ [s.ticket w] } none
  | release (t : Nat) (ho : s.owner = some t) (hp : (s.pc t).outside = true) (hh : s.queue.head = none) :
      Move s { s with locked := false, owner := none, pc := Function.update s.pc t .idle } (some .ok)
  | resume (t : Nat) (hw : (s.pc t).waiting = true) (hg : s.granted t = true) :
      Move s { s with pc := Function.update s.pc t .holds } (some .ok)
  | stay : Move s s none
  | rewait (t : Nat) (pc : Pc) (hw : (s.pc t).waiting = true) (hp : pc.waiting = true)
      (hst : pc ≠ .timedCheck .inval ∧ pc ≠ .timedCheck .state) :
      Move s { s with pc := Function.update s.pc t pc } none
  | giveUp (t : Nat) (st : Status) (fuel : Nat) (b : Bool) (q : Links Nat) (hp : s.pc t = .timedCheck st)
      (hst : st ≠ .ok) (hg : s.granted t = false) (hq : removeWaiter s.queue t fuel = some (b, q)) :
      Move s { s with queue := q, pc := Function.update s.pc t .idle, gaveUp := s.gaveUp ++ [s.ticket t] } (some st)
  | unparked (t w : Nat) (hp : s.pc t = .unpark w) :
      Move s { s with pc := Function.update s.pc t .idle } (some .ok)

theorem call_move {f : Nat → State × Option Status} {h : Option Nat} {s' : State} {r : Option Status}
    (hf : ∀ t, (s.pc t).outside = true → Move s (f t).1 (f t).2) (he : call s h f = some (s', r)) : Move s s' r := by
  cases h with
  | none =>
    simp only [call, Option.some.injEq, Prod.mk.injEq] at he
    obtain ⟨rfl, rfl⟩ := he
    exact .refuse (.inl rfl)
  | some t =>
    simp only [call, Option.ite_none_right_eq_some, Option.some.injEq] at he
    obtain ⟨ho, he⟩ := he
    have := hf t ho
    rwa [he] at this

theorem lock_move (ho : (s.pc t).outside = true) : Move s (lock s t).1 (lock s t).2 := by
  unfold lock
  split
  · exact .refuse (.inl rfl)
  · split
    case _ hl => exact .acquire t hl ho
    case _ hl =>
      split
      · exact .refuse (.inr rfl)
      case _ hne => exact .enqueue t _ (by simpa using hl) ho hne (.inl rfl)

theorem timedlock_move {d : Nat} (ho : (s.pc t).outside = true) :
    Move s (timedlock s t d).1 (timedlock s t d).2 := by
  unfold timedlock
  split
  · exact .refuse (.inl rfl)
  · split
    case _ hl => exact .acquire t hl ho
    case _ hl =>
      split
      · exact .refuse (.inr rfl)
      case _ hne =>
        split
        · exact .refuse (.inl rfl)
        · exact .enqueue t _ (by simpa using hl) ho hne (.inr rfl)

theorem trylock_move (ho : (s.pc t).outside = true) : Move s (trylock s t).1 (trylock s t).2 := by
  unfold trylock
  split
  · exact .refuse (.inl rfl)
  · split
    case _ hl => exact .acquire t hl ho
    case _ hl => exact .busy (by simpa using hl)

theorem unlock_move (ho : (s.pc t).outside = true) : Move s (unlock s t).1 (unlock s t).2 := by
  unfold unlock
  split
  · exact .refuse (.inl rfl)
  · split
    · exact .refuse (.inr rfl)
    case _ hown =>
      simp only [not_or, ne_eq, Decidable.not_not] at hown
      split
      case _ w hh => exact .handoff t w hown.2 ho hh
      case _ hh => exact .release t hown.2 ho hh

theorem recheck_move {st : Status} {f : Nat} {s' : State} {r : Option Status} (hp : s.pc t = .timedCheck st)
    (he : recheck s t st f = some (s', r)) : Move s s' r := by
  have hw : (s.pc t).waiting = true := by simp [hp, Pc.waiting]
  unfold recheck at he
  split at he
  case _ hg =>
    cases he
    exact .resume t hw hg
  case _ hg =>
    split at he
    case _ hst =>
      obtain ⟨⟨b, q⟩, hq, he⟩ := Option.map_eq_some_iff.mp he
      cases he
      exact .giveUp t st f b q hp hst (by simpa using hg) hq
    case _ =>
      cases he
      exact .rewait t .timedPark hw rfl (by simp)

theorem exec_move {a : Act} {s' : State} {r : Option Status} (hd : destroyLocked s a = true)
    (he : exec s a = some (s', r)) : Move s s' r := by
  cases a with
  | lock h => exact call_move (fun _ => lock_move) he
  | timedlock h d => exact call_move (fun _ => timedlock_move) he
  | trylock h => exact call_move (fun _ => trylock_move) he
  | unlock h => exact call_move (fun _ => unlock_move) he
  | destroy =>
    simp only [destroyLocked] at hd
    simp only [exec, destroy, hd, true_or, if_true, Option.some.injEq] at he
    split at he
    · cases he
      exact .refuse (.inl rfl)
    · cases he
      exact .refuse (.inr rfl)
  | poll t =>
    simp only [exec, Option.ite_none_right_eq_some] at he
    obtain ⟨hp, he⟩ := he
    split at he
    case _ hg =>
      cases he
      exact .resume t (by simp [hp, Pc.waiting]) hg
    case _ =>
      cases he
      exact .stay
  | wake t st =>
    simp only [exec, Option.ite_none_right_eq_some, Option.some.injEq, Prod.mk.injEq] at he
    obtain ⟨⟨hp, hi, hs⟩, rfl, rfl⟩ := he
    exact .rewait t _ (by simp [hp, Pc.waiting]) rfl (by simp [hi, hs])
  | recheck t f =>
    simp only [exec] at he
    split at he
    case _ st hp => exact recheck_move hp he
    case _ => cases he
  | unpark t =>
    simp only [exec] at he
    split at he
    case _ w hp =>
      cases he
      exact .unparked t w hp
    case _ => cases he

/-- A waiting `timedlock` remembers a status of `park_until`. -/
def StatusOk (s : State) : Prop := ∀ t, s.pc t ≠ .timedCheck .inval ∧ s.pc t ≠ .timedCheck .state

theorem StatusOk.update (h : StatusOk s) {pc : Pc} (hp : pc ≠ .timedCheck .inval ∧ pc ≠ .timedCheck .state) :
    ∀ u, Function.update s.pc t pc u ≠ .timedCheck .inval ∧ Function.update s.pc t pc u ≠ .timedCheck .state := by
  intro u
  rw [Function.update_apply]
  split
  · exact hp
  · exact h u

theorem StatusOk.move {s' : State} {r : Option Status} (h : StatusOk s) (hm : Move s s' r) : StatusOk s' := by
  cases hm with
  | refuse | busy | stay => exact h
  | acquire | handoff | release | resume | giveUp | unparked => exact h.update (by simp)
  | enqueue t pc hl ho hne hw => exact h.update (by rcases hw with rfl | rfl <;> simp)
  | rewait t pc hw hp hst => exact h.update hst

/-- The owner of the mutex, outside any call, is between its acquire and its
unlock. -/
theorem Inv.holds_of_owner (h : Inv s l) (ho : s.owner = some t) (hp : (s.pc t).outside = true) :
    s.pc t = .holds := by
  rcases (h.owner t).mp ho with hh | ⟨hw, -⟩
  · exact hh
  · simp [waiting_of_outside hp] at hw

/-- The step lemma: the list the queue holds after a step. -/
theorem Inv.move {s' : State} {r : Option Status} (h : Inv s l) (hm : Move s s' r) :
    ∃ l', Inv s' l' := by
  cases hm with
  | refuse | busy | stay => exact ⟨l, h⟩
  | acquire t hl ho => exact ⟨l, h.acquire hl ho⟩
  | enqueue t pc hl ho hne hw => exact ⟨_, h.enqueue hl ho hne (by rcases hw with rfl | rfl <;> rfl)⟩
  | handoff t w ho hp hh =>
    cases l with
    | nil => simp [h.repr.head] at hh
    | cons a l =>
      obtain rfl : a = w := by simpa [h.repr.head] using hh
      exact ⟨l, h.handoff ho (h.holds_of_owner ho hp)⟩
  | release t ho hp hh =>
    obtain rfl := h.repr.head_eq_none.mp hh
    exact ⟨[], h.release ho⟩
  | resume t hw hg => exact ⟨l, h.resume hw hg⟩
  | rewait t pc hw hp hst => exact ⟨l, h.rewait hw hp⟩
  | giveUp t st f b q hp hst hg hq =>
    exact ⟨_, h.giveUp (by simp [hp, Pc.waiting]) hg (h.repr.remove hq).2.1⟩
  | unparked t w hp => exact ⟨l, h.unparked hp⟩

/-- The node of `t` is in the waiter queue. -/
def Queued (s : State) (t : Nat) : Prop := ∃ l, s.queue.Repr l ∧ t ∈ l

theorem Inv.queued_iff (h : Inv s l) : Queued s t ↔ (s.pc t).waiting = true ∧ s.granted t = false := by
  rw [← h.mem t]
  constructor
  · rintro ⟨l', hr, hm⟩
    rwa [h.repr.unique hr]
  · exact fun hm => ⟨l, h.repr, hm⟩

/-- What holds in every state of the mutex. -/
structure Safe (s : State) : Prop where
  /-- At most one task is between an acquire and its unlock, and it is the owner. -/
  exclusive : ∀ t u, s.pc t = .holds → s.pc u = .holds → t = u
  holder : ∀ t, s.pc t = .holds → s.locked = true ∧ s.owner = some t
  unlocked : s.locked = false → s.owner = none ∧ s.queue.head = none ∧ s.queue.tail = none
  /-- The nodes queued are those of the waiters not granted the mutex. -/
  queued : ∀ t, Queued s t ↔ (s.pc t).waiting = true ∧ s.granted t = false
  granted : ∀ t, (s.pc t).waiting = true → (s.granted t = true ↔ s.owner = some t)
  /-- While a waiter has the mutex and has not returned, no task is between an
  acquire and its unlock. -/
  reserved : ∀ t u, (s.pc t).waiting = true → s.granted t = true → s.pc u ≠ .holds
  /-- Waiters were granted the mutex in the order they were enqueued, and a
  waiter was passed over only if it gave up. -/
  increasing : s.grants.Pairwise (· < ·)
  order : ∀ n ∈ s.grants, ∀ m < n, m ∈ s.grants ∨ m ∈ s.gaveUp
  /-- `remove_waiter` ends. -/
  rechecks : ∀ t st, s.pc t = .timedCheck st → ∃ f, ∀ fuel ≥ f, (exec s (.recheck t fuel)).isSome

theorem Inv.safe (h : Inv s l) : Safe s where
  exclusive t u ht hu := by
    have h₁ := (h.owner t).mpr (.inl ht)
    have h₂ := (h.owner u).mpr (.inl hu)
    simpa [h₁] using h₂
  holder t ht := by
    have ho := (h.owner t).mpr (.inl ht)
    refine ⟨?_, ho⟩
    rw [← Bool.not_eq_false, h.locked]
    simp [ho]
  unlocked hl := by
    have := h.empty hl
    exact ⟨h.locked.mp hl, h.repr.head_eq_none.mpr this, h.repr.tail_eq_none.mpr this⟩
  queued t := h.queued_iff
  granted t hw := by
    have hh : s.pc t ≠ .holds := fun e => by simp [e, Pc.waiting] at hw
    rw [h.owner t]
    simp [hh, hw]
  reserved t u hw hg hu := by
    have h₁ := (h.owner t).mpr (.inr ⟨hw, hg⟩)
    have h₂ := (h.owner u).mpr (.inl hu)
    obtain rfl : t = u := by simpa [h₁] using h₂
    simp [hu, Pc.waiting] at hw
  increasing := h.increasing
  order := h.order
  rechecks t st hp := by
    refine ⟨l.length + 1, fun fuel hf => ?_⟩
    have hr : removeWaiter s.queue t fuel ≠ none := h.repr.remove_of_lt (by omega)
    obtain ⟨r, hr⟩ := Option.ne_none_iff_exists'.mp hr
    simp only [exec, hp, recheck, hr, Option.map_some]
    split
    · rfl
    · split <;> rfl

/-- What a step from `s` to `s'` does whose call returns `r`, or does not return
if `r` is `none`. -/
structure StepSafe (s s' : State) (r : Option Status) : Prop where
  /-- A waiter's `granted` becomes 1 exactly when it becomes the owner, and its
  node is then not queued. -/
  grant : ∀ t, (s.pc t).waiting = true → s.granted t = false →
    (s'.granted t = true ↔ s'.owner = some t) ∧ (s'.granted t = true → ¬ Queued s' t)
  /-- A waiter given the mutex keeps it until it returns, and then holds it. -/
  keep : ∀ t, (s.pc t).waiting = true → s.granted t = true →
    s'.granted t = true ∧ s'.owner = some t ∧ ((s'.pc t).waiting = true ∨ s'.pc t = .holds)
  /-- A waiter that returns was granted the mutex and returns `OK`, or was not,
  returns the status of its wait, and leaves no node behind. -/
  returns : ∀ t, (s.pc t).waiting = true → (s'.pc t).waiting = false →
    s.granted t = true ∧ r = some .ok ∨
    ∃ st, st ≠ .ok ∧ s.pc t = .timedCheck st ∧ r = some st ∧
      s'.granted t = false ∧ s'.owner ≠ some t ∧ ¬ Queued s' t
  /-- The next ticket goes to the node that enters the queue, at its end. -/
  ticket : s'.tickets = s.tickets ∧ s'.ticket = s.ticket ∨
    ∃ t l, s.queue.Repr l ∧ s'.queue.Repr (l ++ [t]) ∧ s'.ticket = Function.update s.ticket t s.tickets ∧
      s'.tickets = s.tickets + 1
  /-- A hand-off goes to the head of the queue, which leaves it. -/
  handoff : s'.grants = s.grants ∨
    ∃ w l, s.queue.Repr (w :: l) ∧ s'.queue.Repr l ∧ s'.owner = some w ∧ s'.grants = s.grants ++ [s.ticket w]
  /-- Only a call that returns a failed wait counts as given up. -/
  gaveUp : s'.gaveUp = s.gaveUp ∨
    ∃ t st, st ≠ .ok ∧ s.pc t = .timedCheck st ∧ r = some st ∧ s'.gaveUp = s.gaveUp ++ [s.ticket t]
  /-- A waiter becomes the owner only by such a hand-off. -/
  transfer : ∀ w, (s.pc w).waiting = true → s.owner ≠ some w → s'.owner = some w →
    s'.grants = s.grants ++ [s.ticket w]
  refused : r = some .state ∨ r = some .inval →
    s'.locked = s.locked ∧ s'.owner = s.owner ∧ s'.queue = s.queue

theorem Inv.stepSafe {s' : State} {r : Option Status} (h : Inv s l) (hs : StatusOk s) (hm : Move s s' r) :
    StepSafe s s' r := by
  obtain ⟨l', h'⟩ := h.move hm
  have hq : ∀ t, s'.granted t = true → ¬ Queued s' t := fun t hg hc => by
    simpa [hg] using (h'.queued_iff.mp hc).2
  have ho := h.owner
  have ho' := h'.owner
  cases hm with
  | refuse | busy | stay => constructor <;> grind -linarith [Pc.waiting]
  | acquire t hl hp =>
    have hw := waiting_of_outside hp
    have hn := h.locked.mp hl
    constructor <;> simp only [GtMutex.acquire] at ho' hq ⊢ <;> grind -linarith [Pc.waiting]
  | enqueue t pc hl hp hne hpc =>
    have hw := waiting_of_outside hp
    have hpc : pc.waiting = true := by rcases hpc with rfl | rfl <;> rfl
    have hr' := (h.enqueue hl hp hne hpc).repr
    have hr := h.repr
    constructor <;> simp only [GtMutex.enqueue] at ho' hq hr' ⊢ <;> grind -linarith [Pc.waiting]
  | handoff t w hw hp hh =>
    obtain ⟨l, rfl⟩ : ∃ l₁, l = w :: l₁ := by
      cases l with
      | nil => simp [h.repr.head] at hh
      | cons a l => exact ⟨l, by simpa [h.repr.head] using hh⟩
    have hp := h.holds_of_owner hw hp
    have hr := h.repr
    have hr' := (h.handoff hw hp).repr
    have hwm := (h.mem w).mp List.mem_cons_self
    constructor <;> simp only at ho' hq hr' ⊢ <;> grind -linarith [Pc.waiting]
  | release t hw hp hh =>
    have hp := h.holds_of_owner hw hp
    constructor <;> simp only at ho' hq ⊢ <;> grind -linarith [Pc.waiting]
  | resume t hw hg => constructor <;> simp only at ho' hq ⊢ <;> grind -linarith [Pc.waiting]
  | rewait t pc hw hp hst => constructor <;> simp only at ho' hq ⊢ <;> grind -linarith [Pc.waiting]
  | giveUp t st f b q hp hst hg hrm =>
    have hs := hs t
    have hn : ¬ Queued { s with
        queue := q, pc := Function.update s.pc t .idle, gaveUp := s.gaveUp ++ [s.ticket t] } t := by
      rw [h'.queued_iff]
      simp [Pc.waiting]
    constructor <;> simp only at ho' hq ⊢ <;> grind -linarith [Pc.waiting]
  | unparked t w hp => constructor <;> simp only at ho' hq ⊢ <;> grind -linarith [Pc.waiting]

theorem inv_initial (p : Bool) : Inv (State.initial p) [] := by
  refine ⟨⟨rfl, rfl⟩, ?_, ?_, ?_, ?_, ?_, ?_, ?_, ?_, ?_, ?_, ?_⟩ <;> simp [State.initial, Pc.waiting]

theorem inv_of_reachBy (h : machine.ReachBy (fun s a => destroyLocked s a = true) s) :
    (∃ l, Inv s l) ∧ StatusOk s := by
  refine h.invariant (I := fun s => (∃ l, Inv s l) ∧ StatusOk s) ?_ ?_
  · rintro s ⟨p, rfl⟩
    exact ⟨⟨[], inv_initial p⟩, fun t => by simp [State.initial]⟩
  · rintro s s' a - ⟨⟨l, hi⟩, hs⟩ hd he
    obtain ⟨⟨s', r⟩, he₁, rfl⟩ := Option.map_eq_some_iff.mp he
    have hm := exec_move hd he₁
    exact ⟨hi.move hm, hs.move hm⟩

/-- Every state of every run of lock, timedlock, trylock and unlock, with
destroys attempted while the mutex is locked, is safe, and so is every step. -/
theorem gt_mutex_safe (s : State) (h : machine.ReachBy (fun s a => destroyLocked s a = true) s) :
    Safe s ∧ ∀ a s' r, destroyLocked s a = true → exec s a = some (s', r) → StepSafe s s' r := by
  obtain ⟨⟨l, hi⟩, hs⟩ := inv_of_reachBy h
  exact ⟨hi.safe, fun a s' r hd he => hi.stepSafe hs (exec_move hd he)⟩

/-- Tasks 1, 2 and 3 wait for task 0, task 2 times out, a destroy is refused,
and the mutex passes from task 0 to task 1 and then to task 3. -/
def handoffRun : List Act :=
  [.lock (some 0), .lock (some 1), .timedlock (some 2) 5, .timedlock (some 3) 5, .trylock (some 4), .destroy,
    .wake 2 .timeout, .recheck 2 4, .unlock (some 0), .poll 1, .unpark 0, .wake 3 .cancelled, .unlock (some 1),
    .recheck 3 4]

theorem gt_mutex_safe_handoff :
    ∃ s, machine.ReachBy (fun s a => destroyLocked s a = true) s ∧ s.pc 3 = .holds ∧ s.grants = [0, 2] ∧
      s.gaveUp = [1] ∧ Safe s ∧ ∀ a s' r, destroyLocked s a = true → exec s a = some (s', r) → StepSafe s s' r := by
  obtain ⟨s, hs, hp⟩ := Machine.exists_reachBy_of_run (M := machine) (C := fun s a => destroyLocked s a = true)
    (c := destroyLocked) (fun _ _ h => h) (s := State.initial true) (l := handoffRun)
    (p := fun s => s.pc 3 == .holds && s.grants == [0, 2] && s.gaveUp == [1]) ⟨true, rfl⟩ (by decide +kernel)
  simp only [Bool.and_eq_true, beq_iff_eq] at hp
  exact ⟨s, hs, hp.1.1, hp.1.2, hp.2, gt_mutex_safe s hs⟩

end Dlsmc.GtMutex
