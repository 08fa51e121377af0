import Dlsmc.Sync.Condition
import Dlsmc.Sync.GtMutexSafety
import Dlsmc.Sync.GtWaitBroadcast

/-!
# A condition and its mutex: no lost signal, one outcome, return with the mutex

The invariant (`Inv`) names the list `l` the condition's queue holds: its tasks
are the waiters that were neither granted nor gave up, and a task inside a wait
owns its mutex again only when it returns. `Record` says what the tickets tell
about every wait so far. What a step can do is said once (`Move`,
`exec_move`); `Safe` and `StepSafe` are what this gives to users of the
condition.
-/

namespace Dlsmc.Condition

open GtMutex (Status)

/-- A wait whose node has been queued, before it is over. -/
def Pc.waiting : Pc → Bool
  | .wait | .timedPark | .timedCheck _ => true
  | _ => false

/-- `wait_status` of a wait that is over. -/
def Pc.outcome : Pc → Option Status
  | .relock st | .locking st => some st
  | _ => none

/-- Inside a wait that released the mutex. -/
def Pc.released (pc : Pc) : Bool := pc.waiting || pc.outcome.isSome

theorem Pc.waiting_of_outcome {pc : Pc} {st : Status} (h : pc.outcome = some st) : pc.waiting = false := by
  cases pc <;> simp_all [Pc.outcome, Pc.waiting]

theorem Pc.outcome_of_waiting {pc : Pc} (h : pc.waiting = true) : pc.outcome = none := by
  cases pc <;> simp_all [Pc.outcome, Pc.waiting]

theorem Pc.released_of_outcome {pc : Pc} {st : Status} (h : pc.outcome = some st) : pc.released = true := by
  simp [Pc.released, h]

/-! ## Calls on the mutex inside a wait -/

/-- `m'` is the mutex after task `t` moved on to `pc` in a call on `m`. -/
structure Moved (m m' : GtMutex.State) (t : Nat) (pc : GtMutex.Pc) : Prop where
  inv : ∃ k, GtMutex.Inv m' k
  initialized : m'.initialized = m.initialized
  pc : m'.pc = Function.update m.pc t pc

variable {m m' : GtMutex.State} {t : Nat} {k : List Nat} {r : Option Status} {st : Status}

theorem Moved.pc_apply {pc : GtMutex.Pc} (h : Moved m m' t pc) (u : Nat) :
    m'.pc u = if u = t then pc else m.pc u := by
  rw [h.pc, Function.update_apply]

/-- A mutex that was not released is as it was, and `t` did not own it. -/
theorem mutexUnlock_spec (h : GtMutex.Inv m k) (hi : m.initialized = true) (ho : (m.pc t).outside = true) :
    m.owner = some t ∧ (mutexUnlock m t).2 = .ok ∧ Moved m (mutexUnlock m t).1 t .idle ∨
    m.owner ≠ some t ∧ mutexUnlock m t = (m, .state) := by
  have hm := GtMutex.unlock_move ho
  by_cases hown : m.owner = some t
  · left
    have hl : m.locked = true := by
      rw [← Bool.not_eq_false, h.locked]
      simp [hown]
    have hc : ¬ (m.locked = false ∨ m.owner ≠ some t) := by simp [hl, hown]
    unfold mutexUnlock
    unfold GtMutex.unlock at hm ⊢
    rw [if_neg (by simp [hi]), if_neg hc] at hm ⊢
    split
    · rename_i heq
      split at heq
      · simp at heq
      · rename_i hh
        simp only [Prod.mk.injEq, Option.some.injEq] at heq
        obtain ⟨rfl, rfl⟩ := heq
        rw [hh] at hm
        exact ⟨hown, rfl, h.move hm, rfl, rfl⟩
    · rename_i heq
      split at heq
      · rename_i w hh
        simp only [Prod.mk.injEq, and_true] at heq
        subst heq
        rw [hh] at hm
        obtain ⟨k', hk'⟩ := h.move hm
        exact ⟨hown, rfl, ⟨_, hk'.unparked (by simp; rfl)⟩, rfl, by simp⟩
      · simp at heq
  · right
    refine ⟨hown, ?_⟩
    simp [mutexUnlock, GtMutex.unlock, hi, hown]

/-- `lock` by a task that does not own the mutex acquires it or waits. -/
theorem lock_spec (h : GtMutex.Inv m k) (hi : m.initialized = true) (hp : m.pc t = .idle) :
    (GtMutex.lock m t).2 = some .ok ∧ Moved m (GtMutex.lock m t).1 t .holds ∨
    (GtMutex.lock m t).2 = none ∧ Moved m (GtMutex.lock m t).1 t .lockWait := by
  have hm := GtMutex.lock_move (s := m) (t := t) (by simp [hp, GtMutex.Pc.outside])
  have hown : m.owner ≠ some t := fun ho => by
    simpa [hp, GtMutex.Pc.waiting] using (h.owner t).mp ho
  unfold GtMutex.lock at hm ⊢
  rw [if_neg (by simp [hi])] at hm ⊢
  by_cases hl : m.locked = false
  · rw [if_pos hl] at hm ⊢
    exact .inl ⟨rfl, h.move hm, rfl, rfl⟩
  · rw [if_neg hl, if_neg hown] at hm ⊢
    exact .inr ⟨rfl, h.move hm, rfl, rfl⟩

/-- A task that waits in `lock` reads its `granted` once. -/
theorem poll_spec (h : GtMutex.Inv m k) (hp : m.pc t = .lockWait) (he : GtMutex.exec m (.poll t) = some (m', r)) :
    r = some .ok ∧ Moved m m' t .holds ∨ r = none ∧ Moved m m' t .lockWait := by
  simp only [GtMutex.exec, hp, if_true] at he
  split at he
  · rename_i hg
    obtain ⟨rfl, rfl⟩ := Prod.mk.inj (Option.some.inj he)
    exact .inl ⟨rfl, ⟨_, h.resume (by simp [hp, GtMutex.Pc.waiting]) hg⟩, rfl, rfl⟩
  · obtain ⟨rfl, rfl⟩ := Prod.mk.inj (Option.some.inj he)
    exact .inr ⟨rfl, ⟨_, h⟩, rfl, by rw [← hp, Function.update_eq_self]⟩

/-- A step on the mutex that moves at most the task `h`. -/
structure Others (m m' : GtMutex.State) (h : Option Nat) : Prop where
  pc : ∀ t, t ∉ h → m'.pc t = m.pc t
  initialized : m'.initialized = m.initialized

theorem Others.refl (m : GtMutex.State) (h : Option Nat) : Others m m h := ⟨fun _ _ => rfl, rfl⟩

theorem Others.of_update {u : Nat} {pc : GtMutex.Pc} (hp : m'.pc = Function.update m.pc u pc)
    (hi : m'.initialized = m.initialized) : Others m m' (some u) :=
  ⟨fun t ht => hp ▸ Function.update_of_ne (fun e : t = u => ht (congrArg some e.symm)) _ _, hi⟩

theorem call_others {f : Nat → GtMutex.State × Option Status} {h : Option Nat}
    (hf : ∀ u, Others m (f u).1 (some u)) (he : GtMutex.call m h f = some (m', r)) : Others m m' h := by
  cases h with
  | none =>
    obtain ⟨rfl, -⟩ := Prod.mk.inj (Option.some.inj he)
    exact .refl m none
  | some u =>
    simp only [GtMutex.call, Option.ite_none_right_eq_some, Option.some.injEq] at he
    have := hf u
    rwa [he.2] at this

theorem lock_others (u : Nat) : Others m (GtMutex.lock m u).1 (some u) := by
  unfold GtMutex.lock
  split_ifs
  · exact .refl m _
  · exact .of_update rfl rfl
  · exact .refl m _
  · exact .of_update rfl rfl

theorem timedlock_others (u d : Nat) : Others m (GtMutex.timedlock m u d).1 (some u) := by
  unfold GtMutex.timedlock
  split_ifs
  · exact .refl m _
  · exact .of_update rfl rfl
  · exact .refl m _
  · exact .refl m _
  · exact .of_update rfl rfl

theorem trylock_others (u : Nat) : Others m (GtMutex.trylock m u).1 (some u) := by
  unfold GtMutex.trylock
  split_ifs
  · exact .refl m _
  · exact .of_update rfl rfl
  · exact .refl m _

theorem unlock_others (u : Nat) : Others m (GtMutex.unlock m u).1 (some u) := by
  unfold GtMutex.unlock
  split_ifs
  · exact .refl m _
  · exact .refl m _
  · split <;> exact .of_update rfl rfl

theorem recheck_others {u f : Nat} (he : GtMutex.recheck m u st f = some (m', r)) : Others m m' (some u) := by
  unfold GtMutex.recheck at he
  split_ifs at he
  · obtain ⟨rfl, -⟩ := Prod.mk.inj (Option.some.inj he)
    exact .of_update rfl rfl
  · obtain ⟨q, -, he⟩ := Option.map_eq_some_iff.mp he
    obtain ⟨rfl, -⟩ := Prod.mk.inj he
    exact .of_update rfl rfl
  · obtain ⟨rfl, -⟩ := Prod.mk.inj (Option.some.inj he)
    exact .of_update rfl rfl

/-- A step of a call on the mutex moves only the task that takes it. -/
theorem exec_others {a : GtMutex.Act} (ha : a ≠ .destroy) (he : GtMutex.exec m a = some (m', r)) :
    Others m m' (actor a) := by
  cases a with
  | lock h => exact call_others lock_others he
  | timedlock h d => exact call_others (timedlock_others · d) he
  | trylock h => exact call_others trylock_others he
  | unlock h => exact call_others unlock_others he
  | destroy => exact absurd rfl ha
  | poll u =>
    simp only [GtMutex.exec, Option.ite_none_right_eq_some] at he
    obtain ⟨-, he⟩ := he
    split_ifs at he
    · obtain ⟨rfl, -⟩ := Prod.mk.inj (Option.some.inj he)
      exact .of_update rfl rfl
    · obtain ⟨rfl, -⟩ := Prod.mk.inj (Option.some.inj he)
      exact .refl _ _
  | wake u st =>
    simp only [GtMutex.exec, Option.ite_none_right_eq_some] at he
    obtain ⟨rfl, -⟩ := Prod.mk.inj (Option.some.inj he.2)
    exact .of_update rfl rfl
  | recheck u f =>
    simp only [GtMutex.exec] at he
    split at he
    · exact recheck_others he
    · cases he
  | unpark u =>
    simp only [GtMutex.exec] at he
    split at he
    · obtain ⟨rfl, -⟩ := Prod.mk.inj (Option.some.inj he)
      exact .of_update rfl rfl
    · cases he

/-! ## What a step can do -/

/-- The invariant: `l` is the queue of the condition. -/
structure Inv (s : State) (l : List Nat) : Prop where
  mutex : ∃ k, GtMutex.Inv s.mutex k
  initialized : s.mutex.initialized = true
  /-- A waiter, or one about to lock, is outside the mutex. -/
  away : ∀ t, (s.pc t).released = true → (∀ st, s.pc t ≠ .locking st) → s.mutex.pc t = .idle
  locking : ∀ t st, s.pc t = .locking st → s.mutex.pc t = .lockWait
  repr : s.queue.Repr l
  mem : ∀ t, t ∈ l ↔ (s.pc t).waiting = true ∧ s.granted t = false
  outcome : ∀ t st, (s.pc t).outcome = some st → (s.granted t = true ↔ st = .ok)

/-- What a step can do, with the status its call returns: the state after it,
by the branch it took. -/
inductive Move (s : State) : State → Option Status → Prop
  | refuse : Move s s (some .inval)
  /-- The mutex could not be released: the node is taken out again. -/
  | unlockFailed (t fuel : Nat) (b : Bool) (q : Links Nat) (hp : s.pc t = .idle) (ho : s.mutex.owner ≠ some t)
      (hq : (s.queue.push t).remove t fuel = some (b, q)) :
      Move s { s with granted := Function.update s.granted t false, queue := q } (some .state)
  | enter (t : Nat) (pc : Pc) (m : GtMutex.State) (hp : s.pc t = .idle) (hw : pc = .wait ∨ pc = .timedPark)
      (ho : s.mutex.owner = some t) (hm : Moved s.mutex m t .idle) :
      Move s { s with
        granted := Function.update s.granted t false
        queue := s.queue.push t
        mutex := m
        pc := Function.update s.pc t pc
        ticket := Function.update s.ticket t s.tickets
        tickets := s.tickets + 1 } none
  | stay : Move s s none
  | rewait (t : Nat) (pc : Pc) (hw : (s.pc t).waiting = true) (hp : pc.waiting = true) :
      Move s { s with pc := Function.update s.pc t pc } none
  | resume (t : Nat) (hw : (s.pc t).waiting = true) (hg : s.granted t = true) :
      Move s { s with pc := Function.update s.pc t (.relock .ok) } none
  | giveUp (t : Nat) (st : Status) (fuel : Nat) (b : Bool) (q : Links Nat) (hp : s.pc t = .timedCheck st)
      (hst : st ≠ .ok) (hg : s.granted t = false) (hq : s.queue.remove t fuel = some (b, q)) :
      Move s { s with
        queue := q, pc := Function.update s.pc t (.relock st), gaveUp := s.gaveUp ++ [s.ticket t] } none
  /-- The mutex is locked by another task. -/
  | relock (t : Nat) (st : Status) (m : GtMutex.State) (hp : (s.pc t).outcome = some st)
      (hm : Moved s.mutex m t .lockWait) :
      Move s { s with mutex := m, pc := Function.update s.pc t (.locking st) } none
  | relocked (t : Nat) (st : Status) (m : GtMutex.State) (hp : (s.pc t).outcome = some st)
      (hm : Moved s.mutex m t .holds) :
      Move s { s with
        mutex := m, pc := Function.update s.pc t .idle, returned := s.returned ++ [(s.ticket t, st)] } (some st)
  /-- A signal finds no waiter. -/
  | unheard (hq : s.queue.pop = none) : Move s s (some .ok)
  | signal (t w : Nat) (q : Links Nat) (hp : s.pc t = .idle) (hq : s.queue.pop = some (w, q)) :
      Move s { s with
        queue := q
        granted := Function.update s.granted w true
        pc := Function.update s.pc t (.unpark [w])
        grants := s.grants ++ [s.ticket w] } none
  | broadcast (t fuel : Nat) (l : List Nat) (pc : Pc) (r : Option Status) (hp : s.pc t = .idle)
      (hpc : pc = .idle ∧ r = some .ok ∨ pc = .unpark l ∧ r = none)
      (hl : GtWait.walk s.queue.next fuel s.queue.head = some l) :
      Move s { s with
        queue := { s.queue with head := none, tail := none }
        granted := fun u => if u ∈ l then true else s.granted u
        pc := Function.update s.pc t pc
        grants := s.grants ++ l.map s.ticket } r
  | unpark (t : Nat) (l : List Nat) (pc : Pc) (r : Option Status) (hp : s.pc t = .unpark l)
      (hpc : pc = .idle ∧ r = some .ok ∨ (∃ l, pc = .unpark l) ∧ r = none) :
      Move s { s with pc := Function.update s.pc t pc } r
  | mutex (m : GtMutex.State) (r : Option Status) (hi : ∃ k, GtMutex.Inv m k) (hn : m.initialized = true)
      (hp : ∀ t, s.pc t ≠ .idle → m.pc t = s.mutex.pc t) : Move s { s with mutex := m } r

variable {s s' : State} {l : List Nat}

theorem enter_move (h : Inv s l) {pc : Pc} {fuel : Nat} (hw : pc = .wait ∨ pc = .timedPark) (ho : outside s t = true)
    (he : enter s t pc fuel = some (s', r)) : Move s s' r := by
  obtain ⟨k, hk⟩ := h.mutex
  simp only [outside, Bool.and_eq_true, beq_iff_eq] at ho
  simp only [enter] at he
  rcases mutexUnlock_spec hk h.initialized ho.2 with ⟨hown, hst, hm⟩ | ⟨hown, hst⟩
  · rw [if_neg (by simp [hst])] at he
    obtain ⟨rfl, rfl⟩ := Prod.mk.inj (Option.some.inj he)
    exact .enter t pc _ ho.1 hw hown hm
  · rw [hst, if_pos (by simp)] at he
    obtain ⟨⟨b, q⟩, hq, he⟩ := Option.map_eq_some_iff.mp he
    obtain ⟨rfl, rfl⟩ := Prod.mk.inj he
    exact .unlockFailed t fuel b q ho.1 hown hq

theorem call_move {f : Nat → Option (State × Option Status)} {h : Option Nat}
    (hf : ∀ t s' r, outside s t = true → f t = some (s', r) → Move s s' r) (he : call s h f = some (s', r)) :
    Move s s' r := by
  cases h with
  | none =>
    obtain ⟨rfl, rfl⟩ := Prod.mk.inj (Option.some.inj he)
    exact .refuse
  | some t =>
    simp only [call, Option.ite_none_right_eq_some] at he
    exact hf t s' r he.1 he.2

theorem recheck_move {fuel : Nat} (hp : s.pc t = .timedCheck st) (he : recheck s t st fuel = some (s', r)) :
    Move s s' r := by
  have hw : (s.pc t).waiting = true := by rw [hp]; rfl
  unfold recheck at he
  split_ifs at he with hg hst
  · obtain ⟨rfl, rfl⟩ := Prod.mk.inj (Option.some.inj he)
    exact .resume t hw hg
  · obtain ⟨⟨b, q⟩, hq, he⟩ := Option.map_eq_some_iff.mp he
    obtain ⟨rfl, rfl⟩ := Prod.mk.inj he
    exact .giveUp t st fuel b q hp hst (by simpa using hg) hq
  · obtain ⟨rfl, rfl⟩ := Prod.mk.inj (Option.some.inj he)
    exact .rewait t .timedPark hw rfl

/-- A wait goes on after a step of `lock` that acquired the mutex or waits. -/
theorem locked_move {x : GtMutex.State × Option Status} (hp : (s.pc t).outcome = some st)
    (hx : x.2 = some .ok ∧ Moved s.mutex x.1 t .holds ∨ x.2 = none ∧ Moved s.mutex x.1 t .lockWait) :
    Move s (locked s t st x).1 (locked s t st x).2 := by
  obtain ⟨m, r⟩ := x
  rcases hx with ⟨rfl, hm⟩ | ⟨rfl, hm⟩
  · exact .relocked t st m hp hm
  · exact .relock t st m hp hm

theorem exec_move {a : Act} (h : Inv s l) (he : exec s a = some (s', r)) : Move s s' r := by
  obtain ⟨k, hk⟩ := h.mutex
  cases a with
  | wait hd fuel => exact call_move (fun _ _ _ ho he => enter_move h (.inl rfl) ho he) he
  | timedwait hd d fuel =>
    simp only [exec] at he
    split_ifs at he
    · obtain ⟨rfl, rfl⟩ := Prod.mk.inj (Option.some.inj he)
      exact .refuse
    · exact call_move (fun _ _ _ ho he => enter_move h (.inr rfl) ho he) he
  | poll t =>
    simp only [exec, Option.ite_none_right_eq_some] at he
    obtain ⟨hp, he⟩ := he
    split_ifs at he with hg
    · obtain ⟨rfl, rfl⟩ := Prod.mk.inj (Option.some.inj he)
      exact .resume t (by rw [hp]; rfl) hg
    · obtain ⟨rfl, rfl⟩ := Prod.mk.inj (Option.some.inj he)
      exact .stay
  | wake t st =>
    simp only [exec, Option.ite_none_right_eq_some] at he
    obtain ⟨hp, he⟩ := he
    obtain ⟨rfl, rfl⟩ := Prod.mk.inj (Option.some.inj he)
    exact .rewait t _ (by rw [hp]; rfl) rfl
  | recheck t fuel =>
    simp only [exec] at he
    split at he
    · rename_i st hp
      exact recheck_move hp he
    · cases he
  | relock t =>
    simp only [exec] at he
    split at he
    · rename_i st hp
      have hi : s.mutex.pc t = .idle := h.away t (by rw [hp]; rfl) (by simp [hp])
      have := locked_move (show (s.pc t).outcome = some st by rw [hp]; rfl) (lock_spec hk h.initialized hi)
      rwa [Option.some.inj he] at this
    · cases he
  | relockPoll t =>
    simp only [exec] at he
    split at he
    · rename_i st hp
      obtain ⟨x, hx, he⟩ := Option.map_eq_some_iff.mp he
      have := locked_move (show (s.pc t).outcome = some st by rw [hp]; rfl) (poll_spec hk (h.locking t st hp) hx)
      rwa [he] at this
    · cases he
  | signal t =>
    simp only [exec, Option.ite_none_right_eq_some, outside, Bool.and_eq_true, beq_iff_eq] at he
    obtain ⟨⟨hp, -⟩, he⟩ := he
    unfold signal at he
    split at he
    · rename_i hq
      obtain ⟨rfl, rfl⟩ := Prod.mk.inj (Option.some.inj he)
      exact .unheard hq
    · rename_i w q hq
      obtain ⟨rfl, rfl⟩ := Prod.mk.inj (Option.some.inj he)
      exact .signal t w q hp hq
  | broadcast t malloc fuel =>
    simp only [exec, Option.ite_none_right_eq_some, outside, Bool.and_eq_true, beq_iff_eq] at he
    obtain ⟨⟨hp, -⟩, he⟩ := he
    obtain ⟨l, hl, he⟩ := Option.map_eq_some_iff.mp he
    dsimp only at he
    split_ifs at he
    · obtain ⟨rfl, rfl⟩ := Prod.mk.inj he
      exact .broadcast t fuel l _ _ hp (.inr ⟨rfl, rfl⟩) hl
    · obtain ⟨rfl, rfl⟩ := Prod.mk.inj he
      have := Move.broadcast t fuel l .idle _ hp (.inl ⟨rfl, rfl⟩) hl
      rwa [← hp, Function.update_eq_self] at this
  | unpark t =>
    simp only [exec] at he
    split at he
    · rename_i w l hp
      obtain ⟨rfl, rfl⟩ := Prod.mk.inj (Option.some.inj he)
      exact .unpark t _ _ _ hp (.inr ⟨⟨l, rfl⟩, rfl⟩)
    · rename_i hp
      obtain ⟨rfl, rfl⟩ := Prod.mk.inj (Option.some.inj he)
      exact .unpark t _ _ _ hp (.inl ⟨rfl, rfl⟩)
    · cases he
  | mutex a =>
    by_cases hd : a = .destroy
    · subst hd
      cases he
    · have he' : (if ∀ t ∈ actor a, s.pc t = .idle then
          (GtMutex.exec s.mutex a).map fun r => (({ s with mutex := r.1 } : State), r.2) else none) = some (s', r) := by
        cases a with
        | destroy => exact absurd rfl hd
        | _ => exact he
      simp only [Option.ite_none_right_eq_some] at he'
      obtain ⟨hc, he'⟩ := he'
      obtain ⟨x, hx, he'⟩ := Option.map_eq_some_iff.mp he'
      obtain ⟨rfl, rfl⟩ := Prod.mk.inj he'
      have hf := exec_others hd hx
      refine .mutex _ _ (hk.move (GtMutex.exec_move (a := a) ?_ hx)) (hf.initialized.trans h.initialized)
        fun t ht => hf.pc t fun hm => ht (hc t hm)
      cases a with
      | destroy => exact absurd rfl hd
      | _ => rfl

/-! ## The invariant along runs -/

attribute [local grind =] Function.update_apply

attribute [local grind] Pc.waiting Pc.outcome Pc.released

attribute [local grind →] Pc.waiting_of_outcome Pc.released_of_outcome

theorem Inv.pop_cons (h : Inv s l) {w : Nat} {q : Links Nat} (hq : s.queue.pop = some (w, q)) :
    ∃ k, l = w :: k ∧ q.Repr k := by
  cases l with
  | nil => rw [h.repr.pop_nil] at hq; cases hq
  | cons a k =>
    obtain ⟨q', hq', hr, -⟩ := h.repr.pop_cons
    obtain ⟨rfl, rfl⟩ := Prod.mk.inj (Option.some.inj (hq'.symm.trans hq))
    exact ⟨k, rfl, hr⟩

theorem Inv.unlockFailed (h : Inv s l) {fuel : Nat} {b : Bool} {q : Links Nat} (hp : s.pc t = .idle)
    (hq : (s.queue.push t).remove t fuel = some (b, q)) :
    Inv { s with granted := Function.update s.granted t false, queue := q } l := by
  obtain ⟨hmutex, hinitialized, haway, hlocking, hrepr, hmem, houtcome⟩ := h
  have ht : t ∉ l := by grind -linarith
  have hr := ((hrepr.push ht).remove hq).2.1
  rw [List.erase_append_right _ ht, List.erase_cons_head, List.append_nil] at hr
  refine ⟨hmutex, hinitialized, haway, hlocking, hr, ?_, ?_⟩ <;> dsimp only <;> grind -linarith

theorem Inv.enter (h : Inv s l) {pc : Pc} (hp : s.pc t = .idle) (hw : pc = .wait ∨ pc = .timedPark)
    (hm : Moved s.mutex m t .idle) :
    Inv { s with
      granted := Function.update s.granted t false
      queue := s.queue.push t
      mutex := m
      pc := Function.update s.pc t pc
      ticket := Function.update s.ticket t s.tickets
      tickets := s.tickets + 1 } (l ++ [t]) := by
  obtain ⟨hmutex, hinitialized, haway, hlocking, hrepr, hmem, houtcome⟩ := h
  have hp' := hm.pc_apply
  have ht : t ∉ l := by grind -linarith
  refine ⟨hm.inv, hm.initialized.trans hinitialized, ?_, ?_, hrepr.push ht, ?_, ?_⟩ <;> dsimp only <;> grind -linarith

/-- A thread moves on without the queue. -/
theorem Inv.goto (h : Inv s l) {pc : Pc} (hw : pc.waiting = (s.pc t).waiting) (ho : pc.outcome = (s.pc t).outcome)
    (hl : ∀ st, pc ≠ .locking st) (hl' : ∀ st, s.pc t ≠ .locking st) :
    Inv { s with pc := Function.update s.pc t pc } l := by
  obtain ⟨hmutex, hinitialized, haway, hlocking, hrepr, hmem, houtcome⟩ := h
  refine ⟨hmutex, hinitialized, ?_, ?_, hrepr, ?_, ?_⟩ <;> dsimp only <;> grind -linarith

theorem Inv.resume (h : Inv s l) (hw : (s.pc t).waiting = true) (hg : s.granted t = true) :
    Inv { s with pc := Function.update s.pc t (.relock .ok) } l := by
  obtain ⟨hmutex, hinitialized, haway, hlocking, hrepr, hmem, houtcome⟩ := h
  refine ⟨hmutex, hinitialized, ?_, ?_, hrepr, ?_, ?_⟩ <;> dsimp only <;> grind -linarith

theorem Inv.giveUp (h : Inv s l) {fuel : Nat} {b : Bool} {q : Links Nat} (hp : s.pc t = .timedCheck st)
    (hst : st ≠ .ok) (hg : s.granted t = false) (hq : s.queue.remove t fuel = some (b, q)) :
    Inv { s with
      queue := q, pc := Function.update s.pc t (.relock st), gaveUp := s.gaveUp ++ [s.ticket t] } (l.erase t) := by
  obtain ⟨hmutex, hinitialized, haway, hlocking, hrepr, hmem, houtcome⟩ := h
  have hme : ∀ a, a ∈ l.erase t ↔ a ≠ t ∧ a ∈ l := fun a => hrepr.nodup.mem_erase_iff
  refine ⟨hmutex, hinitialized, ?_, ?_, (hrepr.remove hq).2.1, ?_, ?_⟩ <;> dsimp only <;> grind -linarith

theorem Inv.relock (h : Inv s l) (hp : (s.pc t).outcome = some st) (hm : Moved s.mutex m t .lockWait) :
    Inv { s with mutex := m, pc := Function.update s.pc t (.locking st) } l := by
  obtain ⟨hmutex, hinitialized, haway, hlocking, hrepr, hmem, houtcome⟩ := h
  have hp' := hm.pc_apply
  have hw := Pc.waiting_of_outcome hp
  refine ⟨hm.inv, hm.initialized.trans hinitialized, ?_, ?_, hrepr, ?_, ?_⟩ <;> dsimp only <;> grind -linarith

theorem Inv.relocked (h : Inv s l) {returned : List (Nat × Status)} (hp : (s.pc t).outcome = some st)
    (hm : Moved s.mutex m t .holds) :
    Inv { s with mutex := m, pc := Function.update s.pc t .idle, returned := returned } l := by
  obtain ⟨hmutex, hinitialized, haway, hlocking, hrepr, hmem, houtcome⟩ := h
  have hp' := hm.pc_apply
  have hw := Pc.waiting_of_outcome hp
  refine ⟨hm.inv, hm.initialized.trans hinitialized, ?_, ?_, hrepr, ?_, ?_⟩ <;> dsimp only <;> grind -linarith

theorem Inv.signal (h : Inv s (w :: l)) {q : Links Nat} {grants : List Nat} (hp : s.pc t = .idle) (hq : q.Repr l) :
    Inv { s with
      queue := q
      granted := Function.update s.granted w true
      pc := Function.update s.pc t (.unpark [w])
      grants := grants } l := by
  obtain ⟨hmutex, hinitialized, haway, hlocking, hrepr, hmem, houtcome⟩ := h
  have hnd := List.nodup_cons.mp hrepr.nodup
  refine ⟨hmutex, hinitialized, ?_, ?_, hq, ?_, ?_⟩ <;> dsimp only <;> grind -linarith

theorem Inv.broadcast (h : Inv s l) {pc : Pc} {grants : List Nat} (hp : s.pc t = .idle)
    (hpc : pc = .idle ∨ pc = .unpark l) :
    Inv { s with
      queue := { s.queue with head := none, tail := none }
      granted := fun u => if u ∈ l then true else s.granted u
      pc := Function.update s.pc t pc
      grants := grants } [] := by
  obtain ⟨hmutex, hinitialized, haway, hlocking, hrepr, hmem, houtcome⟩ := h
  refine ⟨hmutex, hinitialized, ?_, ?_, ⟨rfl, rfl⟩, ?_, ?_⟩ <;> dsimp only <;> grind -linarith

theorem Inv.mutex_step (h : Inv s l) (hi : ∃ k, GtMutex.Inv m k) (hn : m.initialized = true)
    (hp : ∀ t, s.pc t ≠ .idle → m.pc t = s.mutex.pc t) : Inv { s with mutex := m } l := by
  obtain ⟨hmutex, hinitialized, haway, hlocking, hrepr, hmem, houtcome⟩ := h
  refine ⟨hi, hn, ?_, ?_, hrepr, hmem, houtcome⟩ <;> dsimp only <;> grind -linarith

/-- What the tickets tell about the waits so far: `l` is the queue. -/
structure Record (s : State) (l : List Nat) : Prop where
  sorted : l.Pairwise fun a b => s.ticket a < s.ticket b
  issued : ∀ t, (s.pc t).released = true → s.ticket t < s.tickets
  distinct : ∀ t u, (s.pc t).released = true → (s.pc u).released = true → s.ticket t = s.ticket u → t = u
  granted : ∀ t, (s.pc t).released = true → (s.ticket t ∈ s.grants ↔ s.granted t = true)
  gaveUp : ∀ t, (s.pc t).released = true → (s.ticket t ∈ s.gaveUp ↔ ∃ st, (s.pc t).outcome = some st ∧ st ≠ .ok)
  past : ∀ n, n ∈ s.grants ∨ n ∈ s.gaveUp → n < s.tickets
  apart : ∀ n ∈ s.grants, n ∉ s.gaveUp
  served : ∀ n < s.tickets, n ∈ s.grants ∨ n ∈ s.gaveUp ∨ ∃ t ∈ l, s.ticket t = n
  returned : ∀ n st, (n, st) ∈ s.returned →
    n < s.tickets ∧ (n ∈ s.grants ↔ st = .ok) ∧ (n ∈ s.gaveUp ↔ st ≠ .ok) ∧
      ∀ t, (s.pc t).released = true → s.ticket t ≠ n
  pending : ∀ n < s.tickets, (∃ st, (n, st) ∈ s.returned) ∨ ∃ t, (s.pc t).released = true ∧ s.ticket t = n

theorem Record.enter (h : Record s l) (hI : Inv s l) {pc : Pc} {q : Links Nat} (hp : s.pc t = .idle)
    (hw : pc = .wait ∨ pc = .timedPark) :
    Record { s with
      granted := Function.update s.granted t false
      queue := q
      mutex := m
      pc := Function.update s.pc t pc
      ticket := Function.update s.ticket t s.tickets
      tickets := s.tickets + 1 } (l ++ [t]) := by
  obtain ⟨hsorted, hissued, hdistinct, hgranted, hgaveUp, hpast, hapart, hserved, hreturned, hpending⟩ := h
  have hmem := hI.mem
  have hpr : pc.released = true ∧ pc.outcome = none := by rcases hw with rfl | rfl <;> exact ⟨rfl, rfl⟩
  have htr : (s.pc t).released = false := by rw [hp]; rfl
  have hlr : ∀ u ∈ l, (s.pc u).released = true := fun u hu => by simp [Pc.released, ((hmem u).mp hu).1]
  have htl : t ∉ l := fun hm => by simp [hlr t hm] at htr
  have htk : ∀ u, (s.pc u).released = true → Function.update s.ticket t s.tickets u = s.ticket u := fun u hu =>
    Function.update_of_ne (fun e : u = t => by simp [e, htr] at hu) _ _
  constructor <;> dsimp only
  · refine List.pairwise_append.mpr ⟨?_, List.pairwise_singleton _ _, ?_⟩
    · exact hsorted.imp_of_mem fun ha hb hab => by rwa [htk _ (hlr _ ha), htk _ (hlr _ hb)]
    · grind -linarith
  · grind -linarith
  · grind -linarith
  · grind -linarith
  · grind -linarith
  · grind -linarith
  · exact hapart
  · intro n hn
    rcases Nat.lt_succ_iff_lt_or_eq.mp hn with hn | rfl
    · rcases hserved n hn with h | h | ⟨u, hu, h⟩
      · exact .inl h
      · exact .inr (.inl h)
      · exact .inr (.inr ⟨u, List.mem_append_left _ hu, (htk u (hlr u hu)).trans h⟩)
    · exact .inr (.inr ⟨t, by simp, by simp⟩)
  · grind -linarith
  · intro n hn
    rcases Nat.lt_succ_iff_lt_or_eq.mp hn with hn | rfl
    · rcases hpending n hn with h | ⟨u, hu, h⟩
      · exact .inl h
      · have hut : u ≠ t := fun e => by simp [e, htr] at hu
        exact .inr ⟨u, by rwa [Function.update_of_ne hut], (htk u hu).trans h⟩
    · exact .inr ⟨t, by simpa using hpr.1, by simp⟩

/-- A thread moves on without entering or leaving a wait. -/
theorem Record.goto (h : Record s l) {pc : Pc} {q : Links Nat} (hr : pc.released = (s.pc t).released)
    (ho : ∀ st, st ≠ .ok → (pc.outcome = some st ↔ (s.pc t).outcome = some st)) :
    Record { s with mutex := m, queue := q, pc := Function.update s.pc t pc } l := by
  have hpc : ∀ u, (Function.update s.pc t pc u).released = (s.pc u).released := fun u => by grind -linarith
  obtain ⟨hsorted, hissued, hdistinct, hgranted, hgaveUp, hpast, hapart, hserved, hreturned, hpending⟩ := h
  constructor <;> dsimp only <;> try simp only [hpc]
  · exact hsorted
  · exact hissued
  · exact hdistinct
  · exact hgranted
  · intro u hu
    rw [hgaveUp u hu]
    refine exists_congr fun st => and_congr_left fun hst => ?_
    by_cases e : u = t
    · rw [e, Function.update_self, ho st hst]
    · rw [Function.update_of_ne e]
  · exact hpast
  · exact hapart
  · exact hserved
  · exact hreturned
  · exact hpending

theorem Record.giveUp (h : Record s l) (hI : Inv s l) {q : Links Nat} (hp : s.pc t = .timedCheck st) (hst : st ≠ .ok)
    (hg : s.granted t = false) :
    Record { s with
      queue := q, pc := Function.update s.pc t (.relock st), gaveUp := s.gaveUp ++ [s.ticket t] } (l.erase t) := by
  have hme : ∀ a, a ∈ l.erase t ↔ a ≠ t ∧ a ∈ l := fun a => hI.repr.nodup.mem_erase_iff
  have htr : (s.pc t).released = true := by rw [hp]; rfl
  have hpc : ∀ u, (Function.update s.pc t (.relock st) u).released = (s.pc u).released := fun u => by grind -linarith
  obtain ⟨hsorted, hissued, hdistinct, hgranted, hgaveUp, hpast, hapart, hserved, hreturned, hpending⟩ := h
  constructor <;> dsimp only <;> try simp only [hpc, List.mem_append, List.mem_singleton]
  · exact hsorted.sublist List.erase_sublist
  · exact hissued
  · exact hdistinct
  · exact hgranted
  · grind -linarith
  · grind -linarith
  · grind -linarith
  · grind -linarith
  · grind -linarith
  · exact hpending

theorem Record.relocked (h : Record s l) (hI : Inv s l) (hp : (s.pc t).outcome = some st) :
    Record { s with
      mutex := m, pc := Function.update s.pc t .idle, returned := s.returned ++ [(s.ticket t, st)] } l := by
  have htr := Pc.released_of_outcome hp
  have hg := hI.outcome t st hp
  have hpc : ∀ u, (Function.update s.pc t .idle u).released = true ↔ u ≠ t ∧ (s.pc u).released = true := fun u => by
    grind -linarith
  obtain ⟨hsorted, hissued, hdistinct, hgranted, hgaveUp, hpast, hapart, hserved, hreturned, hpending⟩ := h
  constructor <;> dsimp only <;> try simp only [hpc, List.mem_append, List.mem_singleton]
  · exact hsorted
  · grind -linarith
  · grind -linarith
  · grind -linarith
  · grind -linarith
  · exact hpast
  · exact hapart
  · exact hserved
  · grind -linarith
  · intro n hn
    rcases hpending n hn with ⟨st', h⟩ | ⟨u, hu, h⟩
    · exact .inl ⟨st', .inl h⟩
    · by_cases e : u = t
      · exact .inl ⟨st, .inr (by rw [← h, e])⟩
      · exact .inr ⟨u, ⟨e, hu⟩, h⟩

/-- Waiters at the front of the queue are granted by a thread outside it. -/
theorem Record.grant (h : Record s (w ++ l)) (hI : Inv s (w ++ l)) {q : Links Nat} {pc : Pc} {granted : Nat → Bool}
    (hp : s.pc t = .idle) (hpc : pc.released = false)
    (hg : ∀ u, granted u = true ↔ u ∈ w ∨ s.granted u = true) :
    Record { s with
      queue := q
      granted := granted
      pc := Function.update s.pc t pc
      grants := s.grants ++ w.map s.ticket } l := by
  have hnd := List.nodup_append.mp hI.repr.nodup
  have hw : ∀ u ∈ w, (s.pc u).waiting = true ∧ s.granted u = false := fun u hu =>
    (hI.mem u).mp (List.mem_append_left _ hu)
  have hwr : ∀ u ∈ w, (s.pc u).released = true := fun u hu => by simp [Pc.released, (hw u hu).1]
  have hwo : ∀ u ∈ w, (s.pc u).outcome = none := fun u hu => Pc.outcome_of_waiting (hw u hu).1
  have hr : ∀ u, (Function.update s.pc t pc u).released = (s.pc u).released := fun u => by grind -linarith
  have ho : ∀ u, (s.pc u).released = true → Function.update s.pc t pc u = s.pc u := fun u hu => by grind -linarith
  obtain ⟨hsorted, hissued, hdistinct, hgranted, hgaveUp, hpast, hapart, hserved, hreturned, hpending⟩ := h
  constructor <;> dsimp only <;> try simp only [hr, List.mem_append, List.mem_map]
  · exact (List.pairwise_append.mp hsorted).2.1
  · exact hissued
  · exact hdistinct
  · grind -linarith
  · grind -linarith
  · grind -linarith
  · grind -linarith
  · grind -linarith
  · grind -linarith
  · exact hpending

/-- The step lemma: the queue after a step. -/
theorem Inv.move (h : Inv s l) (hR : Record s l) (hm : Move s s' r) : ∃ l', Inv s' l' ∧ Record s' l' := by
  cases hm with
  | refuse | stay | unheard => exact ⟨l, h, hR⟩
  | unlockFailed t fuel b q hp ho hq =>
    refine ⟨l, h.unlockFailed hp hq, ?_⟩
    have htr : (s.pc t).released = false := by rw [hp]; rfl
    obtain ⟨hsorted, hissued, hdistinct, hgranted, hgaveUp, hpast, hapart, hserved, hreturned, hpending⟩ := hR
    refine ⟨hsorted, hissued, hdistinct, ?_, hgaveUp, hpast, hapart, hserved, hreturned, hpending⟩
    dsimp only
    grind -linarith
  | enter t pc m hp hw ho hm => exact ⟨l ++ [t], h.enter hp hw hm, hR.enter h hp hw⟩
  | rewait t pc hw hp =>
    have hl : ∀ st, s.pc t ≠ .locking st := fun st e => by rw [e] at hw; cases hw
    have hl' : ∀ st, pc ≠ .locking st := fun st e => by rw [e] at hp; cases hp
    have ho := Pc.outcome_of_waiting hw
    have ho' := Pc.outcome_of_waiting hp
    exact ⟨l, h.goto (hp.trans hw.symm) (ho'.trans ho.symm) hl' hl,
      hR.goto (by simp [Pc.released, hw, hp]) fun st _ => by rw [ho, ho']⟩
  | resume t hw hg =>
    have ho := Pc.outcome_of_waiting hw
    exact ⟨l, h.resume hw hg, hR.goto (by simp [Pc.released, Pc.outcome, hw]) fun st hst => by grind -linarith⟩
  | giveUp t st fuel b q hp hst hg hq => exact ⟨_, h.giveUp hp hst hg hq, hR.giveUp h hp hst hg⟩
  | relock t st m hp hm =>
    exact ⟨l, h.relock hp hm, hR.goto (Pc.released_of_outcome hp).symm fun st' _ => by rw [hp]; rfl⟩
  | relocked t st m hp hm => exact ⟨l, h.relocked hp hm, hR.relocked h hp⟩
  | signal t w q hp hq =>
    obtain ⟨k, rfl, hr⟩ := h.pop_cons hq
    exact ⟨k, h.signal hp hr, hR.grant (w := [w]) h hp rfl fun u => by grind -linarith⟩
  | broadcast t fuel k pc r hp hpc hk =>
    obtain rfl := GtWait.walk_eq h.repr.chain hk
    have hpc' : pc = .idle ∨ pc = .unpark k := hpc.imp And.left And.left
    refine ⟨[], h.broadcast hp hpc', ?_⟩
    refine Record.grant (w := k) (l := []) (by simpa using hR) (by simpa using h) hp ?_ fun u => by grind -linarith
    rcases hpc' with rfl | rfl <;> rfl
  | unpark t k pc r hp hpc =>
    have hpc' : pc = .idle ∨ ∃ l, pc = .unpark l := hpc.imp And.left And.left
    have hf : pc.waiting = false ∧ pc.outcome = none ∧ ∀ st, pc ≠ .locking st := by
      rcases hpc' with rfl | ⟨k, rfl⟩ <;> exact ⟨rfl, rfl, by simp⟩
    exact ⟨l, h.goto (by rw [hf.1, hp]; rfl) (by rw [hf.2.1, hp]; rfl) hf.2.2 (by simp [hp]),
      hR.goto (by rw [Pc.released, hf.1, hf.2.1, hp]; rfl) fun st _ => by rw [hf.2.1, hp]; rfl⟩
  | mutex m r hi hn hp =>
    refine ⟨l, h.mutex_step hi hn hp, ?_⟩
    obtain ⟨hsorted, hissued, hdistinct, hgranted, hgaveUp, hpast, hapart, hserved, hreturned, hpending⟩ := hR
    exact ⟨hsorted, hissued, hdistinct, hgranted, hgaveUp, hpast, hapart, hserved, hreturned, hpending⟩

theorem inv_initial (p : Bool) : Inv (State.initial p) [] := by
  refine ⟨⟨[], GtMutex.inv_initial p⟩, rfl, ?_, ?_, ⟨rfl, rfl⟩, ?_, ?_⟩ <;>
    simp [State.initial, Pc.released, Pc.waiting, Pc.outcome]

theorem record_initial (p : Bool) : Record (State.initial p) [] := by
  constructor <;> simp [State.initial, Pc.released, Pc.waiting, Pc.outcome]

theorem inv_of_reach (h : machine.Reach s) : ∃ l, Inv s l ∧ Record s l := by
  refine h.invariant (I := fun s => ∃ l, Inv s l ∧ Record s l) ?_ ?_
  · rintro s ⟨p, rfl⟩
    exact ⟨[], inv_initial p, record_initial p⟩
  · rintro s s' a - ⟨l, hi, hR⟩ he
    obtain ⟨⟨s', r⟩, he₁, rfl⟩ := Option.map_eq_some_iff.mp he
    exact hi.move hR (exec_move hi he₁)

/-! ## What users of the condition may rely on -/

/-- The node of `t` is in the queue of the condition. -/
def Queued (s : State) (t : Nat) : Prop := ∃ l, s.queue.Repr l ∧ t ∈ l

theorem Inv.queued_iff (h : Inv s l) : Queued s t ↔ t ∈ l := by
  constructor
  · rintro ⟨l', hr, hm⟩
    rwa [h.repr.unique hr]
  · exact fun hm => ⟨l, h.repr, hm⟩

/-- What holds in every state of the condition and its mutex. -/
structure Safe (s : State) : Prop where
  /-- The nodes queued are those of the waiters that were not granted and did
  not give up. -/
  queued : ∀ t, Queued s t ↔ (s.pc t).waiting = true ∧ s.granted t = false
  /-- A task inside a wait that released the mutex is queued, or was granted,
  or gave up. -/
  found : ∀ t, (s.pc t).released = true → Queued s t ∨ s.granted t = true ∨ s.ticket t ∈ s.gaveUp
  /-- The queue is in the order in which the waits began. -/
  order : ∀ l, s.queue.Repr l → l.Pairwise fun t u => s.ticket t < s.ticket u
  /-- The same for the waits by their tickets, over the whole run: each is
  queued, was granted or gave up, and only one of these. -/
  served : ∀ n < s.tickets, n ∈ s.grants ∨ n ∈ s.gaveUp ∨ ∃ t, Queued s t ∧ s.ticket t = n
  apart : ∀ n ∈ s.grants, n ∉ s.gaveUp ∧ ∀ t, Queued s t → s.ticket t ≠ n
  /-- No grant is dropped: a wait that was granted has returned `OK`, or is
  about to. -/
  granted : ∀ n ∈ s.grants, (n, .ok) ∈ s.returned ∨
    ∃ t, (s.pc t).released = true ∧ s.ticket t = n ∧ s.granted t = true
  /-- A wait returned `OK` exactly if it was granted, and another status only
  if it gave up. -/
  returned : ∀ n st, (n, st) ∈ s.returned → (st = .ok ↔ n ∈ s.grants) ∧ (st ≠ .ok ↔ n ∈ s.gaveUp)
  /-- The loops over the queue end. -/
  ends : ∃ f, ∀ fuel ≥ f, (∀ t, outside s t = true → (exec s (.wait (some t) fuel)).isSome) ∧
    (∀ t d, outside s t = true → (exec s (.timedwait (some t) d fuel)).isSome) ∧
    (∀ t st, s.pc t = .timedCheck st → (exec s (.recheck t fuel)).isSome) ∧
    ∀ t malloc, outside s t = true → (exec s (.broadcast t malloc fuel)).isSome

/-- What a step from `s` to `s'` does whose call returns `r`, or does not return
if `r` is `none`. -/
structure StepSafe (s : State) (a : Act) (s' : State) (r : Option Status) : Prop where
  /-- A wait begins by its caller, the owner of the mutex, entering the queue
  at its end; the mutex is released in the same section. -/
  enters : ∀ t, (s.pc t).released = false → (s'.pc t).released = true →
    s.mutex.owner = some t ∧ s'.mutex.owner ≠ some t ∧ s'.ticket t = s.tickets ∧ s'.granted t = false ∧
      ∃ l, s.queue.Repr l ∧ s'.queue.Repr (l ++ [t])
  /-- A waiter stays in the queue until it is granted or gives up. -/
  stays : ∀ t, Queued s t → s'.ticket t = s.ticket t ∧
    (Queued s' t ∨ s'.granted t = true ∧ s.ticket t ∈ s'.grants ∨
      ∃ st, st ≠ .ok ∧ s.pc t = .timedCheck st ∧ s'.pc t = .relock st ∧ s.ticket t ∈ s'.gaveUp)
  /-- A signal grants the waiter that has been queued for the longest time, and
  no other. -/
  signals : ∀ t, a = .signal t → ∀ w l, s.queue.Repr (w :: l) →
    s'.queue.Repr l ∧ s'.granted = Function.update s.granted w true ∧ s'.grants = s.grants ++ [s.ticket w] ∧
      ∀ u ∈ l, s.ticket w < s.ticket u
  unheard : ∀ t, a = .signal t → s.queue.Repr [] → s' = s ∧ r = some .ok
  /-- A broadcast grants all waiters. -/
  broadcasts : ∀ t malloc fuel, a = .broadcast t malloc fuel → ∀ l, s.queue.Repr l →
    s'.queue.Repr [] ∧ (∀ u, s'.granted u = true ↔ u ∈ l ∨ s.granted u = true) ∧
      s'.grants = s.grants ++ l.map s.ticket
  /-- A grant stays with the waiter until its wait returns `OK`. -/
  keeps : ∀ t, (s.pc t).released = true → s.granted t = true →
    (s'.pc t).released = true ∧ s'.granted t = true ∧ s'.ticket t = s.ticket t ∨ s'.pc t = .idle ∧ r = some .ok
  /-- A wait that released the mutex returns owning it, with `OK` if it was
  granted, and with the status of `park_until` if it never was, and its node is
  then not queued. -/
  returns : ∀ t, (s.pc t).released = true → (s'.pc t).released = false →
    s'.mutex.locked = true ∧ s'.mutex.owner = some t ∧ s'.mutex.pc t = .holds ∧
    ∃ st, r = some st ∧ s'.returned = s.returned ++ [(s.ticket t, st)] ∧
      (st = .ok ∧ s.granted t = true ∨
        st ≠ .ok ∧ s.ticket t ∉ s'.grants ∧ s.ticket t ∈ s'.gaveUp ∧ ¬ Queued s' t)
  /-- A wait by a task that does not own the mutex returns the status of
  `unlock`, leaves the queue as it was and its node out of it. -/
  refuses : ∀ t, s.mutex.owner ≠ some t →
    (∃ fuel, a = .wait (some t) fuel) ∨ (∃ d fuel, a = .timedwait (some t) d fuel ∧ d ≠ 0 ∧ s.parkUntil = true) →
    r = some .state ∧ s'.pc = s.pc ∧ s'.mutex = s.mutex ∧ s'.tickets = s.tickets ∧ ¬ Queued s' t ∧
      ∀ l, s.queue.Repr l → s'.queue.Repr l

theorem Inv.safe (h : Inv s l) (hR : Record s l) : Safe s where
  queued t := h.queued_iff.trans (h.mem t)
  found t ht := by
    rw [h.queued_iff, h.mem, hR.gaveUp t ht]
    by_cases hg : s.granted t = true
    · exact .inr (.inl hg)
    · cases ho : (s.pc t).outcome with
      | none =>
        have hw : (s.pc t).waiting = true := by simpa [Pc.released, ho] using ht
        exact .inl ⟨hw, by simpa using hg⟩
      | some st => exact .inr (.inr ⟨st, rfl, fun e => hg ((h.outcome t st ho).mpr e)⟩)
  order k hk := h.repr.unique hk ▸ hR.sorted
  served n hn := by
    simp only [h.queued_iff]
    exact hR.served n hn
  apart n hn := by
    refine ⟨hR.apart n hn, fun t ht e => ?_⟩
    have hm := (h.mem t).mp (h.queued_iff.mp ht)
    have hr : (s.pc t).released = true := by simp [Pc.released, hm.1]
    have := (hR.granted t hr).mp (e ▸ hn)
    simp [hm.2] at this
  granted n hn := by
    rcases hR.pending n (hR.past n (.inl hn)) with ⟨st, hst⟩ | ⟨t, ht, rfl⟩
    · obtain rfl := ((hR.returned n st hst).2.1).mp hn
      exact .inl hst
    · exact .inr ⟨t, ht, rfl, (hR.granted t ht).mp hn⟩
  returned n st hn := ⟨(hR.returned n st hn).2.1.symm, (hR.returned n st hn).2.2.1.symm⟩
  ends := by
    refine ⟨l.length + 2, fun fuel hf => ?_⟩
    have hen : ∀ t pc, outside s t = true → (Condition.enter s t pc fuel).isSome := by
      intro t pc ho
      simp only [outside, Bool.and_eq_true, beq_iff_eq] at ho
      have ht : t ∉ l := fun hm => by
        have := ((h.mem t).mp hm).1
        rw [ho.1] at this
        cases this
      have hr : (s.queue.push t).remove t fuel ≠ none := (h.repr.push ht).remove_of_lt (by simp; omega)
      obtain ⟨x, hx⟩ := Option.ne_none_iff_exists'.mp hr
      simp only [Condition.enter, hx, Option.map_some]
      split <;> rfl
    refine ⟨fun t ho => ?_, fun t d ho => ?_, fun t st hp => ?_, fun t malloc ho => ?_⟩
    · simp only [exec, call, ho, if_true]
      exact hen t _ ho
    · simp only [exec, call, ho, if_true]
      split
      · rfl
      · exact hen t _ ho
    · have hr : s.queue.remove t fuel ≠ none := h.repr.remove_of_lt (by omega)
      obtain ⟨x, hx⟩ := Option.ne_none_iff_exists'.mp hr
      simp only [exec, hp, Condition.recheck, hx, Option.map_some]
      split_ifs <;> rfl
    · simp only [exec, ho, if_true, Condition.broadcast, GtWait.walk_total h.repr.chain (show l.length < fuel by omega)]
      rfl

theorem Inv.signals (h : Inv s (w :: l)) (hR : Record s (w :: l)) (he : exec s (.signal t) = some (s', r)) :
    s'.queue.Repr l ∧ s'.granted = Function.update s.granted w true ∧ s'.grants = s.grants ++ [s.ticket w] ∧
      ∀ u ∈ l, s.ticket w < s.ticket u := by
  simp only [exec, Option.ite_none_right_eq_some] at he
  obtain ⟨-, he⟩ := he
  obtain ⟨q, hq, hr, -⟩ := h.repr.pop_cons
  simp only [Condition.signal, hq] at he
  obtain ⟨rfl, rfl⟩ := Prod.mk.inj (Option.some.inj he)
  exact ⟨hr, rfl, rfl, (List.pairwise_cons.mp hR.sorted).1⟩

theorem Inv.unheard (h : Inv s []) (he : exec s (.signal t) = some (s', r)) : s' = s ∧ r = some .ok := by
  simp only [exec, Option.ite_none_right_eq_some] at he
  obtain ⟨-, he⟩ := he
  simp only [Condition.signal, h.repr.pop_nil] at he
  obtain ⟨rfl, rfl⟩ := Prod.mk.inj (Option.some.inj he)
  exact ⟨rfl, rfl⟩

theorem Inv.broadcasts (h : Inv s l) {malloc : Bool} {fuel : Nat}
    (he : exec s (.broadcast t malloc fuel) = some (s', r)) :
    s'.queue.Repr [] ∧ (∀ u, s'.granted u = true ↔ u ∈ l ∨ s.granted u = true) ∧
      s'.grants = s.grants ++ l.map s.ticket := by
  simp only [exec, Option.ite_none_right_eq_some] at he
  obtain ⟨-, he⟩ := he
  obtain ⟨k, hk, he⟩ := Option.map_eq_some_iff.mp he
  obtain rfl := GtWait.walk_eq h.repr.chain hk
  dsimp only at he
  split_ifs at he
  all_goals
    obtain ⟨rfl, rfl⟩ := Prod.mk.inj he
    exact ⟨⟨rfl, rfl⟩, fun u => by grind -linarith, rfl⟩

theorem Inv.refuses (h : Inv s l) {pc : Pc} {fuel : Nat} (ho : s.mutex.owner ≠ some t)
    (he : call s (some t) (Condition.enter s · pc fuel) = some (s', r)) :
    r = some .state ∧ s'.pc = s.pc ∧ s'.mutex = s.mutex ∧ s'.tickets = s.tickets ∧ ¬ Queued s' t ∧
      ∀ l, s.queue.Repr l → s'.queue.Repr l := by
  obtain ⟨k, hk⟩ := h.mutex
  simp only [call, Option.ite_none_right_eq_some, outside, Bool.and_eq_true, beq_iff_eq] at he
  obtain ⟨⟨hp, hout⟩, he⟩ := he
  rcases mutexUnlock_spec hk h.initialized hout with ⟨hown, -⟩ | ⟨-, hst⟩
  · exact absurd hown ho
  · simp only [Condition.enter, hst] at he
    rw [if_pos (by simp)] at he
    obtain ⟨⟨b, q⟩, hq, he⟩ := Option.map_eq_some_iff.mp he
    obtain ⟨rfl, rfl⟩ := Prod.mk.inj he
    have hI := h.unlockFailed hp hq
    refine ⟨rfl, rfl, rfl, rfl, ?_, fun k hk => h.repr.unique hk ▸ hI.repr⟩
    rw [hI.queued_iff, h.mem, hp]
    simp [Pc.waiting]

theorem Moved.owner_ne (h : Moved m m' t .idle) : m'.owner ≠ some t := by
  obtain ⟨k, hk⟩ := h.inv
  intro ho
  have := (hk.owner t).mp ho
  simp [h.pc, GtMutex.Pc.waiting] at this

theorem Moved.owner_eq (h : Moved m m' t .holds) : m'.locked = true ∧ m'.owner = some t ∧ m'.pc t = .holds := by
  obtain ⟨k, hk⟩ := h.inv
  have hp : m'.pc t = .holds := by simp [h.pc]
  have ho := (hk.owner t).mpr (.inl hp)
  refine ⟨?_, ho, hp⟩
  rw [← Bool.not_eq_false, hk.locked]
  simp [ho]

theorem Inv.enters (h : Inv s l) (hm : Move s s' r) (hr : (s.pc t).released = false) (hr' : (s'.pc t).released = true) :
    s.mutex.owner = some t ∧ s'.mutex.owner ≠ some t ∧ s'.ticket t = s.tickets ∧ s'.granted t = false ∧
      ∃ l, s.queue.Repr l ∧ s'.queue.Repr (l ++ [t]) := by
  -- only the step that enters moves a thread into a wait
  have hno {u : Nat} {pc : Pc} (hpc : pc.released = true → (s.pc u).released = true)
      (h' : (Function.update s.pc u pc t).released = true) : False := by grind -linarith
  cases hm with
  | refuse | unlockFailed | stay | unheard | mutex => simp [hr] at hr'
  | enter u pc m hp hw ho hm =>
    by_cases e : t = u
    · subst e
      have hI := h.enter hp hw hm
      exact ⟨ho, hm.owner_ne, by simp, by simp, l, h.repr, hI.repr⟩
    · simp [Function.update_of_ne e, hr] at hr'
  | rewait u pc hw hp => exact (hno (fun _ => by simp [Pc.released, hw]) hr').elim
  | resume u hw hg => exact (hno (fun _ => by simp [Pc.released, hw]) hr').elim
  | giveUp u st fuel b q hp => exact (hno (fun _ => by rw [hp]; rfl) hr').elim
  | relock u st m hp => exact (hno (fun _ => Pc.released_of_outcome hp) hr').elim
  | relocked u st m hp => exact (hno (fun _ => Pc.released_of_outcome hp) hr').elim
  | signal u w q hp => exact (hno (fun e => by cases e) hr').elim
  | broadcast u fuel k pc r hp hpc =>
    refine (hno (fun e => ?_) hr').elim
    rcases hpc with ⟨rfl, -⟩ | ⟨rfl, -⟩ <;> cases e
  | unpark u k pc r hp hpc =>
    refine (hno (fun e => ?_) hr').elim
    rcases hpc with ⟨rfl, -⟩ | ⟨⟨k, rfl⟩, -⟩ <;> cases e

theorem Inv.stays (h : Inv s l) (hm : Move s s' r) (ht : t ∈ l) :
    s'.ticket t = s.ticket t ∧
    (Queued s' t ∨ s'.granted t = true ∧ s.ticket t ∈ s'.grants ∨
      ∃ st, st ≠ .ok ∧ s.pc t = .timedCheck st ∧ s'.pc t = .relock st ∧ s.ticket t ∈ s'.gaveUp) := by
  have hw := (h.mem t).mp ht
  have hq : Queued s t := h.queued_iff.mpr ht
  cases hm with
  | refuse | stay | unheard | mutex | rewait | resume | relock | relocked | unpark => exact ⟨rfl, .inl hq⟩
  | unlockFailed u fuel b q hp ho hrm => exact ⟨rfl, .inl ((h.unlockFailed hp hrm).queued_iff.mpr ht)⟩
  | enter u pc m hp hpc ho hm =>
    have hut : t ≠ u := fun e => by simp [e, hp, Pc.waiting] at hw
    exact ⟨Function.update_of_ne hut _ _, .inl ((h.enter hp hpc hm).queued_iff.mpr (List.mem_append_left _ ht))⟩
  | giveUp u st fuel b q hp hst hg hrm =>
    refine ⟨rfl, ?_⟩
    by_cases e : t = u
    · subst e
      exact .inr (.inr ⟨st, hst, hp, by simp, by simp⟩)
    · exact .inl ((h.giveUp hp hst hg hrm).queued_iff.mpr ((List.mem_erase_of_ne e).mpr ht))
  | signal u w q hp hpop =>
    refine ⟨rfl, ?_⟩
    obtain ⟨k, rfl, hr⟩ := h.pop_cons hpop
    rcases List.mem_cons.mp ht with rfl | ht
    · exact .inr (.inl ⟨by simp, by simp⟩)
    · exact .inl ⟨k, hr, ht⟩
  | broadcast u fuel k pc r hp hpc hk =>
    obtain rfl := GtWait.walk_eq h.repr.chain hk
    exact ⟨rfl, .inr (.inl ⟨if_pos ht, List.mem_append_right _ (List.mem_map_of_mem ht)⟩)⟩

theorem Inv.keeps (h : Inv s l) (hm : Move s s' r) (ht : (s.pc t).released = true) (hg : s.granted t = true) :
    (s'.pc t).released = true ∧ s'.granted t = true ∧ s'.ticket t = s.ticket t ∨ s'.pc t = .idle ∧ r = some .ok := by
  have hne {u : Nat} (hp : s.pc u = .idle) : t ≠ u := fun e => by rw [e, hp] at ht; cases ht
  have hpc {u : Nat} {pc : Pc} (hp : (s.pc u).released = true → pc.released = true) :
      (Function.update s.pc u pc t).released = true := by grind -linarith
  cases hm with
  | refuse | stay | unheard | mutex => exact .inl ⟨ht, hg, rfl⟩
  | unlockFailed u fuel b q hp ho hrm =>
    exact .inl ⟨ht, by simpa [Function.update_of_ne (hne hp)] using hg, rfl⟩
  | enter u pc m hp hw ho hm =>
    exact .inl ⟨by simpa [Function.update_of_ne (hne hp)] using ht,
      by simpa [Function.update_of_ne (hne hp)] using hg, Function.update_of_ne (hne hp) _ _⟩
  | rewait u pc hw hp => exact .inl ⟨hpc fun _ => by simp [Pc.released, hp], hg, rfl⟩
  | resume u hw hg' => exact .inl ⟨hpc fun _ => rfl, hg, rfl⟩
  | giveUp u st fuel b q hp hst hg' hrm => exact .inl ⟨hpc fun _ => rfl, hg, rfl⟩
  | relock u st m hp hm => exact .inl ⟨hpc fun _ => rfl, hg, rfl⟩
  | relocked u st m hp hm =>
    by_cases e : t = u
    · subst e
      exact .inr ⟨by simp, congrArg some ((h.outcome t st hp).mp hg)⟩
    · exact .inl ⟨by simpa [Function.update_of_ne e] using ht, hg, rfl⟩
  | signal u w q hp hq =>
    refine .inl ⟨by simpa [Function.update_of_ne (hne hp)] using ht, ?_, rfl⟩
    dsimp only
    grind -linarith
  | broadcast u fuel k pc r hp hpc' hk =>
    refine .inl ⟨by simpa [Function.update_of_ne (hne hp)] using ht, ?_, rfl⟩
    dsimp only
    grind -linarith
  | unpark u k pc r hp hpc' => exact .inl ⟨hpc (fun e => by rw [hp] at e; cases e), hg, rfl⟩

theorem Inv.returns (h : Inv s l) (hR : Record s l) (hm : Move s s' r) (ht : (s.pc t).released = true)
    (ht' : (s'.pc t).released = false) :
    s'.mutex.locked = true ∧ s'.mutex.owner = some t ∧ s'.mutex.pc t = .holds ∧
    ∃ st, r = some st ∧ s'.returned = s.returned ++ [(s.ticket t, st)] ∧
      (st = .ok ∧ s.granted t = true ∨
        st ≠ .ok ∧ s.ticket t ∉ s'.grants ∧ s.ticket t ∈ s'.gaveUp ∧ ¬ Queued s' t) := by
  -- only the step that has the mutex again moves a thread out of a wait
  have hno {u : Nat} {pc : Pc} (hpc : (s.pc u).released = true → pc.released = true)
      (h' : (Function.update s.pc u pc t).released = false) : False := by grind -linarith
  have hidle {u : Nat} (hp : s.pc u = .idle) : (s.pc u).released = false := by rw [hp]; rfl
  cases hm with
  | refuse | unlockFailed | stay | unheard | mutex => simp [ht] at ht'
  | enter u pc m hp hw ho hm => exact (hno (fun e => by simp [hidle hp] at e) ht').elim
  | rewait u pc hw hp => exact (hno (fun _ => by simp [Pc.released, hp]) ht').elim
  | resume u hw hg => exact (hno (fun _ => rfl) ht').elim
  | giveUp u st fuel b q hp => exact (hno (fun _ => rfl) ht').elim
  | relock u st m hp => exact (hno (fun _ => rfl) ht').elim
  | relocked u st m hp hm =>
    by_cases e : t = u
    · subst e
      have hI := @Inv.relocked m t st s l h (s.returned ++ [(s.ticket t, st)]) hp hm
      have hg := h.outcome t st hp
      refine ⟨hm.owner_eq.1, hm.owner_eq.2.1, hm.owner_eq.2.2, st, rfl, rfl, ?_⟩
      by_cases hst : st = .ok
      · exact .inl ⟨hst, hg.mpr hst⟩
      · refine .inr ⟨hst, fun hc => hst (hg.mp ((hR.granted t ht).mp hc)), (hR.gaveUp t ht).mpr ⟨st, hp, hst⟩, ?_⟩
        rw [hI.queued_iff, h.mem, Pc.waiting_of_outcome hp]
        simp
    · simp [Function.update_of_ne e, ht] at ht'
  | signal u w q hp => exact (hno (fun e => by simp [hidle hp] at e) ht').elim
  | broadcast u fuel k pc r hp => exact (hno (fun e => by simp [hidle hp] at e) ht').elim
  | unpark u k pc r hp => exact (hno (fun e => by rw [hp] at e; cases e) ht').elim

/-- Every state of every run of waits, timed waits, signals and broadcasts on a
condition, and of calls on its mutex, is safe, and so is every step. -/
theorem gt_condition_safe (s : State) (h : machine.Reach s) :
    Safe s ∧ ∀ a s' r, exec s a = some (s', r) → StepSafe s a s' r := by
  obtain ⟨l, hI, hR⟩ := inv_of_reach h
  refine ⟨hI.safe hR, fun a s' r he => ?_⟩
  have hm := exec_move hI he
  refine ⟨fun t => hI.enters hm, fun t ht => hI.stays hm (hI.queued_iff.mp ht), ?_, ?_, ?_, fun t => hI.keeps hm,
    fun t => hI.returns hR hm, ?_⟩
  · rintro t rfl w k hk
    obtain rfl := hI.repr.unique hk
    exact hI.signals hR he
  · rintro t rfl hk
    obtain rfl := hI.repr.unique hk
    exact hI.unheard he
  · rintro t malloc fuel rfl k hk
    obtain rfl := hI.repr.unique hk
    exact hI.broadcasts he
  · rintro t ho (⟨fuel, rfl⟩ | ⟨d, fuel, rfl, hd, hp⟩)
    · exact hI.refuses ho he
    · simp only [exec] at he
      rw [if_neg (by simp [hd, hp])] at he
      exact hI.refuses ho he

/-- Task 1 waits and task 2 waits with a deadline; task 3 takes the mutex and
signals; task 1 is granted, and task 2 times out; both get the mutex again. A
wait without the mutex is refused. -/
def signalRun : List Act :=
  [.wait (some 0) 3, .mutex (.lock (some 1)), .wait (some 1) 3, .mutex (.lock (some 2)), .timedwait (some 2) 5 3,
    .mutex (.lock (some 3)), .signal 3, .poll 1, .relock 1, .wake 2 .timeout, .recheck 2 3, .unpark 3, .unpark 3,
    .relock 2, .mutex (.unlock (some 3)), .mutex (.unpark 3), .relockPoll 1, .mutex (.unlock (some 1)),
    .mutex (.unpark 1), .relockPoll 2]

theorem gt_condition_safe_signal :
    ∃ s, machine.Reach s ∧ s.mutex.pc 2 = .holds ∧ s.returned = [(0, .ok), (1, .timeout)] ∧ Safe s ∧
      ∀ a s' r, exec s a = some (s', r) → StepSafe s a s' r := by
  obtain ⟨s, hs, hp⟩ := Machine.exists_reach_of_run (M := machine) (s := State.initial true) (l := signalRun)
    (p := fun s => s.mutex.pc 2 == .holds && s.returned == [(0, .ok), (1, .timeout)]) ⟨true, rfl⟩ (by decide +kernel)
  simp only [Bool.and_eq_true, beq_iff_eq] at hp
  exact ⟨s, hs, hp.1, hp.2, gt_condition_safe s hs⟩

end Dlsmc.Condition
