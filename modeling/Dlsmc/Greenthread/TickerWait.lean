import Dlsmc.Greenthread.Tokens

/-!
# When `dlsm_gt_ticker_wait` reports a cancellation

`dlsm_gt_ticker_wait` reads the deadline and the generation of its ticker,
registers a timer and looks whether the generation is still the same. A reset
between the read and the look leaves a token: that of the cancelled timer, for
which the task does not park. The token ends the next round of the loop, whose
generation is then the current one, with `DLSM_GT_E_CANCELLED`.

Without such resets (`ResetInTime`) the task has no token until the timer of
its round has ended, and one at most then, and a timer ends cancelled only when
the generation has changed (`Ticking`).
-/

namespace Dlsmc.Timer

/-- The ticker and the generation that a task has read. -/
def Wait.gen : Wait → Option (Nat × Nat)
  | .tick k _ g => some (k, g)
  | .sleep _ _ => none

def Pc.gen : Pc → Option (Nat × Nat)
  | .register w | .finish _ w | .park (.timer _ w) | .parked (.timer _ w) => w.gen
  | .tickStale _ k _ g | .tickEnd k _ g _ => some (k, g)
  | _ => none

/-- A task has read the generation and not yet looked whether it is the same. -/
def Pc.reads : Pc → Bool
  | .register (.tick _ _ _) | .tickStale _ _ _ _ => true
  | _ => false

/-- `ticker->generation++`, and 1 for 0. -/
def nextGeneration (g : Nat) : Nat := if (g + 1) % 2 ^ 64 = 0 then 1 else (g + 1) % 2 ^ 64

/-- The calls of a task that do not put it into a queue. -/
def Call.stays : Call → Bool
  | .lock _ | .timedlock _ _ | .semaphoreWait _ | .eventWait _ | .blockingCall | .taskWait _ => false
  | _ => true

/-- Nobody cancels or unparks task `t`, stops the ticker it waits at or the
runtime, and it waits only at tickers and in `dlsm_gt_sleep_until`. -/
def Undisturbed (t : Nat) (s : State) : Act → Prop
  | .call a c => c.Spares s t ∧ (a = .task t → c.stays = true)
  | .requestStop => False
  | _ => True

/-- A reset of the ticker that task `t` waits at does not come between the read
of the generation by the task and its look at it, and does not bring back the
generation that the task has read. -/
def ResetInTime (t : Nat) (s : State) : Act → Prop
  | .next a _ => ∀ k interval now, s.pc a = .reset k interval now → (s.ticker k).waiter = some t →
    (s.pc (.task t)).reads = false ∧ ∀ g, (s.pc (.task t)).gen = some (k, g) →
      nextGeneration (s.ticker k).generation ≠ g
  | _ => True

/-- The timer of the wait `w` may have been cancelled: the ticker has a new generation. -/
def Renewed (s : State) : Wait → Prop
  | .tick k _ g => (s.ticker k).generation ≠ g
  | .sleep _ _ => True

/-- Task `t` has a token only when the timer of its wait has ended. -/
def Timed (s : State) (t n : Nat) : Prop := tokens s t ≤ if s.nodeState n = .waiting then 0 else 1

/-- What holds of the wait of task `t`, where it stands. -/
def TickPc (s : State) (t : Nat) : Pc → Prop
  | .register (.tick k _ g) => tokens s t = 0 ∧ (s.ticker k).generation = g
  | .tickStale n k _ g => Timed s t n ∧ s.nodeState n ≠ .cancelled ∧ (s.ticker k).generation = g
  | .park (.timer n w) | .parked (.timer n w) => Timed s t n ∧ (s.nodeState n = .cancelled → Renewed s w)
  | .finish n w => tokens s t = 0 ∧ s.nodeState n ≠ .waiting ∧ (s.nodeState n = .cancelled → Renewed s w)
  | .tickEnd k _ g st => tokens s t = 0 ∧ (st = .cancelled → (s.ticker k).generation ≠ g)
  | .tickFail _ st => tokens s t = 0 ∧ st ≠ .cancelled
  | .cancelTimer _ (.finish _ _) | .unparks _ (.finish _ _) => False
  | _ => tokens s t = 0

structure Ticking (t : Nat) (s : State) : Prop where
  ok : TickPc s t (s.pc (.task t))
  sync : ∀ o, (s.pc (.task t)).place ≠ .sync o
  wait : ∀ u, (s.pc (.task t)).place ≠ .wait u
  running : s.timerStop = false
  stopped : ∀ k, (s.pc (.task t)).place = .tick k → (s.ticker k).stopped = false
  cancels : ∀ a k, s.pc a = .cancelTimer t k → (∃ k', k = .unlock k') ∧
    ∀ k' g, (s.pc (.task t)).gen = some (k', g) → (s.ticker k').generation ≠ g
  log : ∀ k st count, .tick t k st count ∈ s.log → st ≠ .cancelled

section Ticking

variable {s s' s₁ : State} {a : Actor} {t n u : Nat} {c : Pc}

theorem ticking_initial (t : Nat) : Ticking t State.initial := by
  constructor <;> simp [State.initial, TickPc, tokens, Pc.place]
  intro a k
  split <;> simp

theorem Pc.place_of_gen {p : Pc} {k g : Nat} (h : p.gen = some (k, g)) : p.place = .tick k := by
  unfold Pc.gen at h
  split at h <;> (try unfold Wait.gen at h; split at h) <;> simp_all [Pc.place, Wait.place, Block.place]

/-- What `TickPc` depends on. -/
theorem TickPc.congr {p : Pc} (h : TickPc s t p) (ht : tokens s' t ≤ tokens s t)
    (hn : ∀ n, p.node = some n → s'.nodeState n = s.nodeState n)
    (hg : ∀ k g, p.gen = some (k, g) → (s'.ticker k).generation = (s.ticker k).generation) : TickPc s' t p := by
  have hren : ∀ w, p.gen = w.gen → Renewed s w → Renewed s' w := by
    intro w he hr
    cases w with
    | sleep d c => trivial
    | tick k d g =>
      show (s'.ticker k).generation ≠ g
      rw [hg k g he]
      exact hr
  have htimed : ∀ n, p.node = some n → Timed s t n → Timed s' t n := by
    intro n hn' h
    unfold Timed at h ⊢
    rw [hn n hn']
    exact Nat.le_trans ht h
  have hzero : tokens s t = 0 → tokens s' t = 0 := by omega
  unfold TickPc at h ⊢
  split at h
  · exact ⟨hzero h.1, (hg _ _ rfl).trans h.2⟩
  · exact ⟨htimed _ rfl h.1, by rw [hn _ rfl]; exact h.2.1, (hg _ _ rfl).trans h.2.2⟩
  · exact ⟨htimed _ rfl h.1, by rw [hn _ rfl]; exact fun hc => hren _ rfl (h.2 hc)⟩
  · exact ⟨htimed _ rfl h.1, by rw [hn _ rfl]; exact fun hc => hren _ rfl (h.2 hc)⟩
  · exact ⟨hzero h.1, by rw [hn _ rfl]; exact h.2.1, by rw [hn _ rfl]; exact fun hc => hren _ rfl (h.2.2 hc)⟩
  · exact ⟨hzero h.1, by rw [hg _ _ rfl]; exact h.2⟩
  · exact ⟨hzero h.1, h.2⟩
  · exact h
  · exact h
  · exact hzero h

/-- A step that does not concern task `t`. -/
theorem Ticking.frame (h : Ticking t s) (hf : Frame t s s') : Ticking t s' := by
  have hg : ∀ k g, (s.pc (.task t)).gen = some (k, g) → (s'.ticker k).generation = (s.ticker k).generation :=
    fun k g he => (hf.ticker k (Pc.place_of_gen he)).1
  refine ⟨?_, ?_, ?_, hf.timerStop.trans h.running, ?_, ?_, ?_⟩
  · rw [hf.pc]
    exact h.ok.congr (Nat.le_of_eq hf.tokens) (fun n hn => (hf.node n hn).1) hg
  · rw [hf.pc]
    exact h.sync
  · rw [hf.pc]
    exact h.wait
  · intro k hk
    rw [hf.pc] at hk
    exact (hf.ticker k hk).2.trans (h.stopped k hk)
  · intro a k hk
    obtain ⟨h₁, h₂⟩ := h.cancels a k (hf.cancels a k hk)
    refine ⟨h₁, fun k' g he => ?_⟩
    rw [hf.pc] at he
    rw [hg k' g he]
    exact h₂ k' g he
  · intro k st count hm
    rcases hf.log _ hm with hm | hm
    · exact h.log k st count hm
    · exact absurd rfl hm

/-- Task `t` goes on, perhaps to a ticker that is not stopped. -/
theorem Ticking.enter (h : Ticking t s) (hok : TickPc s t c) (hsync : ∀ o, c.place ≠ .sync o)
    (hwait : ∀ u, c.place ≠ .wait u) (hstop : ∀ k, c.place = .tick k → (s.ticker k).stopped = false)
    (hc : ∀ k, c ≠ .cancelTimer t k)
    (hgen : ∀ k g, c.gen = some (k, g) → (s.pc (.task t)).gen = some (k, g) ∨ ∀ a k, s.pc a ≠ .cancelTimer t k) :
    Ticking t (setPc s (.task t) c) := by
  have hpc : (setPc s (.task t) c).pc (.task t) = c := Function.update_self _ _ _
  refine ⟨by rw [hpc]; exact hok, by rw [hpc]; exact hsync, by rw [hpc]; exact hwait, h.running,
    by rw [hpc]; exact hstop, fun b k hb => ?_, h.log⟩
  have hbt : b ≠ .task t := by
    rintro rfl
    exact hc k (hpc ▸ hb)
  rw [show (setPc s (.task t) c).pc b = s.pc b from Function.update_of_ne hbt _ _] at hb
  obtain ⟨h₁, h₂⟩ := h.cancels b k hb
  refine ⟨h₁, fun k' g he => ?_⟩
  rw [hpc] at he
  rcases hgen k' g he with he | hn
  · exact h₂ k' g he
  · exact absurd hb (hn b k)

/-- Task `t` goes on in the same place, or out of its call. -/
theorem Ticking.goto (h : Ticking t s) (hok : TickPc s t c) (hp : c.place = .none ∨ c.place = (s.pc (.task t)).place)
    (hc : ∀ k, c ≠ .cancelTimer t k)
    (hgen : ∀ k g, c.gen = some (k, g) → (s.pc (.task t)).gen = some (k, g) ∨ ∀ a k, s.pc a ≠ .cancelTimer t k) :
    Ticking t (setPc s (.task t) c) := by
  have hplace : ∀ p, c.place = p → p = .none ∨ (s.pc (.task t)).place = p := by
    rintro p rfl
    exact hp.imp_right Eq.symm
  refine h.enter hok (fun o ho => ?_) (fun u hu => ?_) (fun k hk => ?_) hc hgen
  · exact (hplace _ ho).elim (by simp) (h.sync o)
  · exact (hplace _ hu).elim (by simp) (h.wait u)
  · exact h.stopped k ((hplace _ hk).elim (by simp) id)

/-- It goes on out of a call. -/
theorem Ticking.goto_plain (h : Ticking t s) (hok : TickPc s t c) (hp : c.place = .none)
    (hc : ∀ k, c ≠ .cancelTimer t k) :
    Ticking t (setPc s (.task t) c) :=
  h.goto hok (.inl hp) hc fun k g he => by simp [Pc.place_of_gen he] at hp

/-- A call of task `t` has returned, not from `dlsm_gt_ticker_wait` with a cancellation. -/
theorem Ticking.log_append (h : Ticking t s) {r : Ret} (hr : ∀ k st count, r = .tick t k st count → st ≠ .cancelled) :
    Ticking t { s with log := s.log ++ [r] } := by
  refine ⟨h.ok, h.sync, h.wait, h.running, h.stopped, h.cancels, fun k st count hm => ?_⟩
  rcases List.mem_append.mp hm with hm | hm
  · exact h.log k st count hm
  · exact hr k st count (List.mem_singleton.mp hm).symm

/-! ## Steps of other threads -/

/-- A task with a token parks with a timer that has ended, or is about to. -/
theorem Ticking.of_token (h : Ticking t s) (htok : 0 < tokens s t) :
    tokens s t = 1 ∧ ∃ n, (s.pc (.task t)).node = some n ∧ s.nodeState n ≠ .waiting ∧
      ∀ b, s.pc (.task t) = .parked b → TickPc s t (.parked b) ∧ ∃ w, b = .timer n w := by
  have hok := h.ok
  have htimed : ∀ n, Timed s t n → tokens s t = 1 ∧ s.nodeState n ≠ .waiting := by
    intro n hn
    unfold Timed at hn
    split_ifs at hn with hw
    · omega
    · exact ⟨by omega, hw⟩
  unfold TickPc at hok
  split at hok
  · omega
  · rename_i n k d g hpc
    obtain ⟨h₁, hw⟩ := htimed n hok.1
    exact ⟨h₁, n, by rw [hpc]; rfl, hw, fun b hb => by simp [hpc] at hb⟩
  · rename_i n w hpc
    obtain ⟨h₁, hw⟩ := htimed n hok.1
    exact ⟨h₁, n, by rw [hpc]; rfl, hw, fun b hb => by simp [hpc] at hb⟩
  · rename_i n w hpc
    obtain ⟨h₁, hw⟩ := htimed n hok.1
    refine ⟨h₁, n, by rw [hpc]; rfl, hw, fun b hb => ?_⟩
    obtain rfl : Block.timer n w = b := by simpa [hpc] using hb
    exact ⟨hok, w, rfl⟩
  all_goals first | omega | exact absurd hok id

/-- Only tokens have changed, and task `t` has no more than before. -/
theorem Ticking.of_tokens (h : Ticking t s)
    (hc : s₁.core = { s.core with owed := s₁.owed, pending := s₁.unparkPending }) (ht : tokens s₁ t ≤ tokens s t) :
    Ticking t s₁ := by
  simp only [State.core, Core.mk.injEq, true_and] at hc
  obtain ⟨h₁, h₂, -, -, -, h₅, h₆, -, -, h₉⟩ := hc
  refine ⟨?_, by rw [h₁]; exact h.sync, by rw [h₁]; exact h.wait, h₆.trans h.running, by rw [h₁, h₅]; exact h.stopped,
    by rw [h₁, h₅]; exact h.cancels, by rw [h₉]; exact h.log⟩
  rw [h₁]
  exact h.ok.congr ht (fun n _ => by rw [h₂]) fun k g _ => by rw [h₅]

/-- The owed unpark of task `t` is executed: its park ends, or the next one will. -/
theorem Ticking.unparked (h : Ticking t s) (ho : Owes s) {l : List Nat} {k : After} (ha : a ≠ .task t)
    (hpc : s.pc a = .unparks (t :: l) k) : Ticking t (unparkStep s a (t :: l) k) := by
  obtain ⟨hpos, herase⟩ := ho.erase_owed hpc
  obtain ⟨htok, n, hn, hw, hparked⟩ := h.of_token (show 0 < tokens s t by unfold tokens; omega)
  have hpend : s.unparkPending t = false ∧ s.owed.countP (·.2 = t) = 1 := by
    unfold tokens at htok
    cases hp : s.unparkPending t with
    | false => simpa [hp] using htok
    | true =>
      simp only [hp, Bool.toNat_true] at htok
      omega
  have hgo : Ticking t (unpark { s with owed := s.owed.erase (a, t) } t) := by
    have h₁ : tokens { s with owed := s.owed.erase (a, t) } t = 0 := by
      simp only [tokens, herase, hpend.2, hpend.1]
      rfl
    unfold unpark
    split
    · exact h.of_tokens rfl (by omega)
    · split
      · rename_i b hb
        obtain ⟨hok, w, rfl⟩ := hparked b hb
        have h₂ : Ticking t { s with owed := s.owed.erase (a, t) } := h.of_tokens rfl (by omega)
        refine h₂.goto ⟨h₁, hw, hok.2⟩ (.inr ?_) (by simp [Block.resume]) fun k' g he => .inl ?_
        · dsimp only
          rw [hb]
          rfl
        · dsimp only
          rw [hb]
          exact he
      · refine h.of_tokens rfl ?_
        simp [tokens, herase, hpend.2, hpend.1]
  unfold unparkStep
  refine hgo.frame (.goto ha (fun k' => ?_) (.refl t _))
  split
  · exact After.pc_ne_cancelTimer k k'
  · simp

/-- Where a task is whose timer waits. -/
theorem Ticking.of_waiting (h : Ticking t s) (hn : (s.pc (.task t)).node = some n) (hw : s.nodeState n = .waiting) :
    Timed s t n ∧ ((∃ k d g, s.pc (.task t) = .tickStale n k d g ∧ (s.ticker k).generation = g) ∨
      ∃ w, s.pc (.task t) = .park (.timer n w) ∨ s.pc (.task t) = .parked (.timer n w)) := by
  have hok := h.ok
  cases hp : s.pc (.task t) with rw [hp] at hok
  | tickStale m k d g =>
    obtain rfl : m = n := by simpa [hp, Pc.node] using hn
    exact ⟨hok.1, .inl ⟨k, d, g, rfl, hok.2.2⟩⟩
  | park b =>
    cases b with
    | timer m w =>
      obtain rfl : m = n := by simpa [hp, Pc.node] using hn
      exact ⟨hok.1, .inr ⟨w, .inl rfl⟩⟩
    | _ => simp [hp, Pc.node] at hn
  | parked b =>
    cases b with
    | timer m w =>
      obtain rfl : m = n := by simpa [hp, Pc.node] using hn
      exact ⟨hok.1, .inr ⟨w, .inr rfl⟩⟩
    | _ => simp [hp, Pc.node] at hn
  | finish m w =>
    obtain rfl : m = n := by simpa [hp, Pc.node] using hn
    exact absurd hw hok.2.1
  | cancelTimer u k =>
    cases k with
    | finish m w => exact hok.elim
    | _ => simp [hp, Pc.node, After.node] at hn
  | unparks l k =>
    cases k with
    | finish m w => exact hok.elim
    | _ => simp [hp, Pc.node, After.node] at hn
  | _ => simp [hp, Pc.node] at hn

theorem core_cancelNode (s : State) (n : Nat) :
    (cancelNode s n).core = { s.core with nodeState := Function.update s.nodeState n .cancelled } := by
  unfold cancelNode leave signal
  dsimp only
  split_ifs <;> (try split) <;> rfl

/-- The timer of task `t` ends, and thread `a` is to unpark the task. -/
theorem Ticking.ended (h : Ticking t s) (ha : a ≠ .task t) (hn : (s.pc (.task t)).node = some n)
    (hw : s.nodeState n = .waiting) {st : TimerState} (hst : st ≠ .waiting)
    (h₁ : s₁.core = { s.core with nodeState := Function.update s.nodeState n st })
    (hc : st = .cancelled → ∀ k g, (s.pc (.task t)).gen = some (k, g) → (s.ticker k).generation ≠ g) {k : After} :
    Ticking t (willUnpark s₁ a [t] k) := by
  simp only [State.core, Core.mk.injEq] at h₁
  obtain ⟨hpc, howed, hpend, hnode, -, -, -, htk, hstop, -, -, hlog⟩ := h₁
  have hst' : s₁.nodeState n = st := by rw [hnode, Function.update_self]
  have hren : ∀ w, (s.pc (.task t)).gen = w.gen → st = .cancelled → Renewed s w := by
    intro w he hcan
    cases w with
    | sleep d c => trivial
    | tick k d g => exact hc hcan k g he
  have htimed : Timed s t n → Timed { s₁ with owed := s₁.owed ++ [(a, t)] } t n := by
    intro htimed
    unfold Timed tokens at htimed ⊢
    simp only [hw, if_true, Nat.le_zero, Nat.add_eq_zero_iff] at htimed
    simp only [hst', hst, if_false, howed, hpend, List.countP_append, htimed.1, htimed.2]
    simp
  have h₂ : Ticking t { s₁ with owed := s₁.owed ++ [(a, t)] } := by
    refine ⟨?_, by rw [hpc]; exact h.sync, by rw [hpc]; exact h.wait, hstop.trans h.running,
      by rw [hpc, htk]; exact h.stopped, by rw [hpc, htk]; exact h.cancels, by rw [hlog]; exact h.log⟩
    have hren' : ∀ w, (s.pc (.task t)).gen = w.gen → s₁.nodeState n = .cancelled → Renewed s₁ w := by
      intro w he hcan
      have := hren w he (hst' ▸ hcan)
      cases w with
      | sleep d c => trivial
      | tick k d g =>
        show (s₁.ticker k).generation ≠ g
        rw [htk]
        exact this
    rw [hpc]
    obtain ⟨ht, ⟨k', d, g, hp, hg⟩ | ⟨w, hp | hp⟩⟩ := h.of_waiting hn hw
    · rw [hp]
      refine ⟨htimed ht, fun hcan => ?_, by rw [htk]; exact hg⟩
      exact hc (hst' ▸ hcan) k' g (by rw [hp]; rfl) hg
    · rw [hp]
      exact ⟨htimed ht, hren' w (by rw [hp]; rfl)⟩
    · rw [hp]
      exact ⟨htimed ht, hren' w (by rw [hp]; rfl)⟩
  unfold willUnpark
  simp only [List.cons_ne_nil, if_false, List.map_cons, List.map_nil]
  exact h₂.frame (.goto ha (by simp) (.refl t _))

/-- A reset looks for the timer of task `t`. -/
theorem Ticking.cancelled (h : Ticking t s) (hi : Inv s.view) (ha : a ≠ .task t) {k : After}
    (hpc : s.pc a = .cancelTimer t k) : Ticking t (timerCancelTaskWait s a t k) := by
  have hgo : Ticking t (setPc s a k.pc) := h.frame (.goto ha (After.pc_ne_cancelTimer k) (.refl t s))
  unfold timerCancelTaskWait
  split
  · rename_i n hn
    split
    · rename_i hw
      exact h.ended ha ((hi.timerNode t).symm.trans hn) hw (by simp) (core_cancelNode s n)
        fun _ => (h.cancels a k hpc).2
    · exact hgo
  · exact hgo

/-- The timer thread ends the timer of task `t`. -/
theorem Ticking.timerLoop (h : Ticking t s) (hi : Inv s.view) {e : Env} (hc : 0 < s.heap.count)
    (ht : s.nodeTask (s.heap.arr 0) = t) : Ticking t (timerLoop s e) := by
  have hn := (hi.mem (s.heap.arr 0)).mp ⟨0, hc, rfl⟩
  have hnode : (s.pc (.task t)).node = some (s.heap.arr 0) := by
    have := hi.points (s.heap.arr 0) hn.1
    rw [show s.view.nodeTask (s.heap.arr 0) = t from ht] at this
    exact (hi.timerNode t).symm.trans this
  unfold Timer.timerLoop
  dsimp only
  rw [if_neg (by simp [h.running]), if_neg (by omega), ht]
  split_ifs
  · exact h.ended (by simp) hnode hn.2 (show TimerState.expired ≠ .waiting by simp) rfl (by simp)
  · exact h.frame (.goto (by simp) (by simp) (.refl t s))

/-- A new generation suits a task that has not just read the old one. -/
theorem TickPc.renew {p : Pc} (h : TickPc s t p) (hr : p.reads = false) (ht : tokens s' t = tokens s t)
    (hn : s'.nodeState = s.nodeState) (hg : ∀ k g, p.gen = some (k, g) → (s'.ticker k).generation ≠ g) :
    TickPc s' t p := by
  have hren : ∀ w, p.gen = w.gen → Renewed s' w := by
    intro w he
    cases w with
    | sleep d c => trivial
    | tick k d g => exact hg k g he
  have htimed : ∀ n, Timed s t n → Timed s' t n := by
    intro n h
    unfold Timed at h ⊢
    rwa [ht, hn]
  unfold TickPc at h ⊢
  split at h
  · simp [Pc.reads] at hr
  · simp [Pc.reads] at hr
  · exact ⟨htimed _ h.1, fun _ => hren _ rfl⟩
  · exact ⟨htimed _ h.1, fun _ => hren _ rfl⟩
  · exact ⟨ht.trans h.1, hn ▸ h.2.1, fun _ => hren _ rfl⟩
  · exact ⟨ht.trans h.1, fun _ => hg _ _ rfl⟩
  · exact ⟨ht.trans h.1, h.2⟩
  · exact h
  · exact h
  · exact ht.trans h

/-- The ticker that task `t` waits at gets a new generation, and thread `a` is to cancel the timer of the task. -/
theorem Ticking.renewed (h : Ticking t s) (hp : Places s.places) {k : Nat} {tk : Ticker} (ha : a ≠ .task t)
    (hw : (s.ticker k).waiter = some t) (hr : (s.pc (.task t)).reads = false)
    (hg : ∀ g, (s.pc (.task t)).gen = some (k, g) → tk.generation ≠ g) (hst : tk.stopped = (s.ticker k).stopped)
    (hwt : tk.waiter = some t) : Ticking t (cancelWaiter (setTicker s k tk) a k) := by
  have htk : (setTicker s k tk).ticker k = tk := Function.update_self _ _ _
  have hgen : ∀ k' g, (s.pc (.task t)).gen = some (k', g) → ((setTicker s k tk).ticker k').generation ≠ g := by
    intro k' g he
    obtain rfl : k' = k := by
      have h₁ := Pc.place_of_gen he
      rw [show (s.pc (.task t)).place = .tick k from (hp.waiter k t).mp hw] at h₁
      exact (Place.tick.inj h₁).symm
    rw [htk]
    exact hg g he
  unfold cancelWaiter
  rw [htk, hwt]
  have hpc : (setPc (setTicker s k tk) a (.cancelTimer t (.unlock k))).pc (.task t) = s.pc (.task t) :=
    Function.update_of_ne (Ne.symm ha) _ _
  refine ⟨?_, by rw [hpc]; exact h.sync, by rw [hpc]; exact h.wait, h.running, fun k' hk' => ?_, fun b k' hb => ?_,
    h.log⟩
  · rw [hpc]
    exact h.ok.renew hr rfl rfl hgen
  · rw [hpc] at hk'
    have := h.stopped k' hk'
    by_cases hkk : k' = k
    · subst hkk
      show ((setTicker s k' tk).ticker k').stopped = false
      rw [htk, hst]
      exact this
    · simpa [setPc, setTicker, hkk] using this
  · rw [hpc]
    refine ⟨?_, hgen⟩
    by_cases hba : b = a
    · subst hba
      simp only [setPc, Function.update_self, Pc.cancelTimer.injEq, true_and] at hb
      exact ⟨k, hb.symm⟩
    · simp only [setPc, Function.update_of_ne hba] at hb
      exact (h.cancels b k' hb).1

/-- The ticker that task `t` waits at is reset. -/
theorem Ticking.reset (h : Ticking t s) (hp : Places s.places) {k interval now : Nat} (ha : a ≠ .task t)
    (hw : (s.ticker k).waiter = some t) (hr : (s.pc (.task t)).reads = false)
    (hg : ∀ g, (s.pc (.task t)).gen = some (k, g) → nextGeneration (s.ticker k).generation ≠ g)
    (hs : tickerReset s a k interval now = some s') : Ticking t s' := by
  unfold nextGeneration at hg
  unfold tickerReset at hs
  dsimp only at hs
  split_ifs at hs with hl hst hz
  · exact Option.some.inj hs ▸ h.frame (.goto ha (by simp) (.refl t s))
  · refine Option.some.inj hs ▸ h.renewed hp ha hw hr (fun g he => ?_) rfl hw
    have := hg g he
    rwa [if_pos hz] at this
  · refine Option.some.inj hs ▸ h.renewed hp ha hw hr (fun g he => ?_) rfl hw
    have := hg g he
    rwa [if_neg hz] at this

/-- The steps of other threads. -/
theorem Ticking.next_other {e : Env} (h : Ticking t s) (hi : Inv s.view) (hp : Places s.places) (ho : Owes s)
    (hc : ResetInTime t s (.next a e)) (ha : a ≠ .task t) (hs : next s a e = some s') : Ticking t s' := by
  by_cases h₁ : ∃ l k, s.pc a = .unparks (t :: l) k
  · obtain ⟨l, k, hpc⟩ := h₁
    have hs' : some (unparkStep s a (t :: l) k) = some s' := by
      cases a <;> simpa only [next, hpc] using hs
    exact Option.some.inj hs' ▸ h.unparked ho ha hpc
  by_cases h₂ : ∃ k, s.pc a = .cancelTimer t k
  · obtain ⟨k, hpc⟩ := h₂
    have hs' : some (timerCancelTaskWait s a t k) = some s' := by
      cases a <;> simpa only [next, hpc] using hs
    exact Option.some.inj hs' ▸ h.cancelled hi ha hpc
  by_cases h₃ : ∃ k interval now, s.pc a = .reset k interval now ∧ (s.ticker k).waiter = some t
  · obtain ⟨k, interval, now, hpc, hw⟩ := h₃
    have hs' : tickerReset s a k interval now = some s' := by
      cases a <;> simpa only [next, hpc] using hs
    obtain ⟨hr, hg⟩ := hc k interval now hpc hw
    exact h.reset hp ha hw hr hg hs'
  by_cases h₄ : a = .timer ∧ s.pc a = .timerLoop ∧ 0 < s.heap.count ∧ s.nodeTask (s.heap.arr 0) = t
  · obtain ⟨rfl, hpc, hcount, ht⟩ := h₄
    have hs' : some (Timer.timerLoop s e) = some s' := by
      simpa only [next, hpc] using hs
    exact Option.some.inj hs' ▸ h.timerLoop hi hcount ht
  refine h.frame (frame_next hi hp ⟨ha, fun l k hpc he => ?_, fun k hpc => h₂ ⟨k, hpc⟩, fun hpc => ?_,
    fun u _ hpc hm => ?_, fun ht hpc hcount he => h₄ ⟨ht, hpc, hcount, he⟩,
      fun k interval now hpc hw => h₃ ⟨k, interval, now, hpc, hw⟩⟩ hs)
  · cases l with
    | nil => cases he
    | cons u l =>
      obtain rfl : u = t := by simpa using he
      exact h₁ ⟨l, k, hpc⟩
  · exact h.sync _ (hp.work a t (by rw [show s.places.deed a = (s.pc a).deed from rfl, hpc]; rfl)).1
  · exact h.wait u (hp.waits u t hm)

/-! ## Steps of the task -/

theorem Ticking.sleepRet (h : Ticking t s) {d : Nat} {st : Status} (htok : tokens s t = 0) :
    Ticking t (sleepRet s t d .user st) :=
  (h.log_append (by simp)).goto_plain htok rfl (by simp)

/-- A task that waits at no object sleeps only for itself. -/
theorem Ticking.user (h : Ticking t s) {c : Caller} (hp : (s.pc (.task t)).place = c.place) : c = .user := by
  cases c with
  | user => rfl
  | timedlock i => exact absurd hp (h.sync (.mutex i))

theorem Ticking.registerFail (h : Ticking t s) {w : Wait} {st : Status} (hpc : s.pc (.task t) = .register w)
    (htok : tokens s t = 0) (hst : st ≠ .cancelled) : Ticking t (registerFail s t w st) := by
  unfold Timer.registerFail
  split
  · rename_i d c
    obtain rfl := h.user (c := c) (by rw [hpc]; rfl)
    exact h.sleepRet htok
  · exact h.goto ⟨htok, hst⟩ (.inr (by rw [hpc]; rfl)) (by simp) fun _ _ he => by simp [Pc.gen] at he

theorem TickPc.register_tokens {w : Wait} (h : TickPc s t (.register w)) : tokens s t = 0 := by
  cases w with
  | sleep d c => exact h
  | tick k d g => exact h.1

/-- The registration of the timer. -/
theorem Ticking.registered (h : Ticking t s) {w : Wait} (hpc : s.pc (.task t) = .register w)
    (h₁ : s₁.core = { s.core with
      nodeState := Function.update s.nodeState n .waiting
      deadline := Function.update s.deadline n w.deadline })
    (hc : (∃ d c', w = .sleep d c' ∧ c = .park (.timer n w)) ∨ ∃ k d g, w = .tick k d g ∧ c = .tickStale n k d g) :
    Ticking t (setPc s₁ (.task t) c) := by
  have hok := h.ok
  have hf : Frame t s s₁ := .of_node h₁ fun m hm => by simp [hpc, Pc.node] at hm
  have ht := h.frame hf
  have hpc₁ : s₁.pc (.task t) = .register w := hf.pc.trans hpc
  simp only [State.core, Core.mk.injEq] at h₁
  have hnode : s₁.nodeState n = .waiting := by rw [h₁.2.2.2.1, Function.update_self]
  have hok₁ := ht.ok
  rw [hpc₁] at hok₁
  have htimed : Timed s₁ t n := by
    unfold Timed
    rw [hok₁.register_tokens]
    exact Nat.zero_le _
  obtain ⟨d, c', rfl, rfl⟩ | ⟨k, d, g, rfl, rfl⟩ := hc
  · exact ht.goto ⟨htimed, by simp [hnode]⟩ (.inr (by rw [hpc₁]; rfl)) (by simp) fun _ _ he => by cases he
  · exact ht.goto ⟨htimed, by simp [hnode], hok₁.2⟩ (.inr (by rw [hpc₁]; rfl)) (by simp) fun _ _ he =>
      .inl (by rw [hpc₁]; exact he)

theorem Ticking.timerWaitRegister (h : Ticking t s) {w : Wait} {e : Env} (hpc : s.pc (.task t) = .register w)
    (hs : timerWaitRegister s t w e = some s') : Ticking t s' := by
  have hok := h.ok
  rw [hpc] at hok
  have htok := hok.register_tokens
  unfold Timer.timerWaitRegister at hs
  split at hs
  · exact Option.some.inj hs ▸ h.registerFail hpc htok (by simp)
  · split_ifs at hs
    · exact Option.some.inj hs ▸ h.registerFail hpc htok (by simp)
    · split at hs
      · have h₁ : Ticking t { s with timerSequence := (s.timerSequence + 1) % 2 ^ 64 } := h.frame (.of_eq rfl)
        exact Option.some.inj hs ▸ h₁.registerFail hpc htok (by simp)
      · rename_i n _ _ _ _ capacity _
        refine Option.some.inj hs ▸ ?_
        unfold registerNode
        refine h.registered (n := n) hpc ?_ ?_
        · unfold signal
          dsimp only
          split_ifs
          · split <;> rfl
          · rfl
        · cases w with
          | sleep d c => exact .inl ⟨d, c, rfl, rfl⟩
          | tick k d g => exact .inr ⟨k, d, g, rfl, rfl⟩

theorem Ticking.rtPark (h : Ticking t s) {b : Block} (hpc : s.pc (.task t) = .park b) : Ticking t (rtPark s t b) := by
  have hok := h.ok
  rw [hpc] at hok
  obtain ⟨n, w, rfl⟩ : ∃ n w, b = .timer n w := by
    cases b with
    | timer n w => exact ⟨n, w, rfl⟩
    | sync o => exact absurd (by rw [hpc]; rfl) (h.sync o)
    | done u => exact absurd (by rw [hpc]; rfl) (h.wait u)
  unfold Timer.rtPark
  split
  · rename_i hp
    have htok : 0 < tokens s t := by
      unfold tokens
      rw [hp]
      simp
    obtain ⟨h₁, m, hm, hw, -⟩ := h.of_token htok
    obtain rfl : n = m := by simpa [hpc, Pc.node] using hm
    have h₂ : tokens { s with unparkPending := Function.update s.unparkPending t false } t = 0 := by
      simp only [tokens, hp, Bool.toNat_true] at h₁
      simp only [tokens, Function.update_self, Bool.toNat_false]
      omega
    have h₃ : Ticking t { s with unparkPending := Function.update s.unparkPending t false } :=
      h.of_tokens rfl (by omega)
    exact h₃.goto ⟨h₂, hw, hok.2⟩ (.inr (by dsimp only; rw [hpc]; rfl)) (by simp [Block.resume]) fun _ _ he =>
      .inl (by dsimp only; rw [hpc]; exact he)
  · exact h.goto hok (.inr (by rw [hpc]; rfl)) (by simp) fun _ _ he => .inl (by rw [hpc]; exact he)

theorem Ticking.timerWaitFinish (h : Ticking t s) {w : Wait} (hpc : s.pc (.task t) = .finish n w) :
    Ticking t (timerWaitFinish s t n w) := by
  have hok := h.ok
  rw [hpc] at hok
  obtain ⟨htok, hw, hren⟩ := hok
  have hf : finishNode s n = s := if_neg hw
  have h₁ : Ticking t { s with
      timerNode := Function.update s.timerNode t none, allocated := Function.update s.allocated n false } :=
    h.frame (.of_eq rfl)
  unfold Timer.timerWaitFinish waitRet
  simp only [hf]
  split
  · rename_i d c
    obtain rfl := h.user (c := c) (by rw [hpc]; rfl)
    exact h₁.sleepRet htok
  · rename_i k d g
    refine h₁.goto ⟨htok, fun hc => hren ?_⟩ (.inr (by dsimp only; rw [hpc]; rfl)) (by simp) fun _ _ he =>
      .inl (by dsimp only; rw [hpc]; exact he)
    simp only [finishStatus, hf] at hc
    split_ifs at hc with he
    cases hn : s.nodeState n <;> simp_all

/-- `dlsm_gt_ticker_wait` returns. -/
theorem Ticking.tickRet (h : Ticking t s) {k count : Nat} {st : Status} (htok : tokens s t = 0)
    (hst : st ≠ .cancelled) :
    Ticking t (tickRet s t k st count) := by
  have h₁ : Ticking t (setTicker s k { s.ticker k with waiter := none }) :=
    h.frame (.setTicker (fun _ => ⟨rfl, rfl⟩) (.refl t s))
  refine (h₁.log_append ?_).goto_plain htok rfl (by simp)
  rintro k' st' count' he
  simp only [Ret.tick.injEq] at he
  exact he.2.2.1 ▸ hst

/-- Nobody is about to cancel the timer of a task whose ticker is not locked. -/
theorem Ticking.no_cancel (h : Ticking t s) (hp : Places s.places) {k : Nat} (hk : (s.pc (.task t)).place = .tick k)
    (hl : (s.ticker k).locked = false) (a : Actor) (κ : After) : s.pc a ≠ .cancelTimer t κ := by
  intro hpc
  obtain ⟨⟨k', rfl⟩, -⟩ := h.cancels a κ hpc
  have hd : s.places.deed a = .cancel t k' := by rw [show s.places.deed a = (s.pc a).deed from rfl, hpc]; rfl
  have hw := (hp.waiter k' t).mp (hp.cancel a t k' hd)
  obtain rfl : k = k' := Place.tick.inj (hk.symm.trans hw)
  have := hp.locked a k (by rw [hd]; rfl)
  rw [show s.places.locked k = false from hl] at this
  cases this

/-- Task `t` goes on after its unparks. -/
theorem Ticking.goto_after (h : Ticking t s) {k : After} (htok : tokens s t = 0) (hk : ∀ n w, k ≠ .finish n w) :
    Ticking t (setPc s (.task t) k.pc) := by
  cases k with
  | finish n w => exact absurd rfl (hk n w)
  | _ => exact h.goto_plain htok rfl (by simp [After.pc])

/-- Task `t` is to unpark others, of which it is none. -/
theorem Ticking.willUnpark (h : Ticking t s) {l : List Nat} {k : After} (htok : tokens s t = 0) (hl : t ∉ l)
    (hk : ∀ n w, k ≠ .finish n w) : Ticking t (willUnpark s (.task t) l k) := by
  unfold Timer.willUnpark
  split
  · exact h.goto_after htok hk
  · have h0 : (l.map (Prod.mk (Actor.task t))).countP (·.2 = t) = 0 := by
      refine List.countP_eq_zero.mpr fun p hp => ?_
      obtain ⟨u, hu, rfl⟩ := List.mem_map.mp hp
      simp only [decide_eq_true_eq]
      rintro rfl
      exact hl hu
    have ht : tokens { s with owed := s.owed ++ l.map (Prod.mk (.task t)) } t = 0 := by
      simp only [tokens, List.countP_append, h0]
      exact htok
    have h₁ : Ticking t { s with owed := s.owed ++ l.map (Prod.mk (.task t)) } := h.of_tokens rfl (by omega)
    cases k with
    | finish n w => exact absurd rfl (hk n w)
    | _ => exact h₁.goto_plain ht rfl (by simp)

/-- Task `t` executes an unpark, of another task. -/
theorem Ticking.unparkStep (h : Ticking t s) (ho : Owes s) {l : List Nat} {k : After}
    (hpc : s.pc (.task t) = .unparks l k) : Ticking t (unparkStep s (.task t) l k) := by
  have hok := h.ok
  rw [hpc] at hok
  have htok : tokens s t = 0 ∧ (∀ n w, k ≠ .finish n w) := by
    cases k with
    | finish n w => exact hok.elim
    | _ => exact ⟨hok, by simp⟩
  unfold Timer.unparkStep
  split
  · exact h.goto_after htok.1 htok.2
  · rename_i u l
    have hu : u ≠ t := by
      rintro rfl
      have hpos := (ho.erase_owed hpc).1
      have := htok.1
      unfold tokens at this
      omega
    have hf : Frame t s (unpark { s with owed := s.owed.erase (.task t, u) } u) :=
      .unpark hu (.erase_owed hu (.refl t s))
    have ht := hf.tokens.trans htok.1
    split
    · exact (h.frame hf).goto_after ht htok.2
    · refine (h.frame hf).goto_plain ?_ ?_ (by simp)
      · cases k with
        | finish n w => exact absurd rfl (htok.2 n w)
        | _ => exact ht
      · cases k with
        | finish n w => exact absurd rfl (htok.2 n w)
        | _ => rfl

/-- Task `t` looks for the timer of another task. -/
theorem Ticking.cancelOther (h : Ticking t s) (hi : Inv s.view) {k : After} (hpc : s.pc (.task t) = .cancelTimer u k) :
    Ticking t (timerCancelTaskWait s (.task t) u k) := by
  have hok := h.ok
  rw [hpc] at hok
  have hk : tokens s t = 0 ∧ ∀ n w, k ≠ .finish n w := by
    cases k with
    | finish n w => exact hok.elim
    | _ => exact ⟨hok, by simp⟩
  have hnode : (s.pc (.task t)).node = none := by
    rw [hpc]
    cases k with
    | finish n w => exact hok.elim
    | _ => rfl
  unfold timerCancelTaskWait
  split
  · rename_i n hn
    split
    · have hu : u ≠ t := by
        rintro rfl
        rw [show s.timerNode u = (s.pc (.task u)).node from hi.timerNode u, hnode] at hn
        cases hn
      have hf : Frame t s (cancelNode s n) := .cancelNode (by simp [hnode]) (.refl t s)
      exact (h.frame hf).willUnpark (hf.tokens.trans hk.1) (by simp [Ne.symm hu]) hk.2
    · exact h.goto_after hk.1 hk.2
  · exact h.goto_after hk.1 hk.2

theorem Ticking.tickEnd (h : Ticking t s) {k d g : Nat} {st : Status} {e : Env}
    (hpc : s.pc (.task t) = .tickEnd k d g st) (hs : tickEnd s t k d g st e = some s') : Ticking t s' := by
  have hok := h.ok
  rw [hpc] at hok
  obtain ⟨htok, hst⟩ := hok
  have hstop := h.stopped k (by rw [hpc]; rfl)
  have h₁ (x : Nat) : Ticking t (setTicker s k { s.ticker k with nextDeadline := x }) :=
    h.frame (.setTicker (fun _ => ⟨rfl, rfl⟩) (.refl t s))
  have h₂ (x : Nat) : tokens (setTicker s k { s.ticker k with nextDeadline := x }) t = 0 := htok
  unfold Timer.tickEnd at hs
  dsimp only at hs
  split_ifs at hs with hl hst' hg
  · rw [hstop] at hst'
    cases hst'
  · exact Option.some.inj hs ▸ h.goto htok (.inr (by rw [hpc]; rfl)) (by simp) fun _ _ he => by cases he
  · exact Option.some.inj hs ▸ h.tickRet htok fun hc => hst hc (not_not.mp hg)
  · exact Option.some.inj hs ▸ h.tickRet htok (by simp)
  all_goals exact Option.some.inj hs ▸ (h₁ _).tickRet (h₂ _) (by simp)

/-- Task `t` locks the mutex of a ticker that it does not wait at, and is to cancel the timer of its waiter. -/
theorem Ticking.cancelWaiter (h : Ticking t s) (hp : Places s.places) (htok : tokens s t = 0)
    (hplace : (s.pc (.task t)).place = .none) {k : Nat} {tk : Ticker} (hw : tk.waiter = (s.ticker k).waiter) :
    Ticking t (cancelWaiter (setTicker s k tk) (.task t) k) := by
  have hne : (s.ticker k).waiter ≠ some t := by
    intro he
    have := (hp.waiter k t).mp he
    rw [show s.places.place t = .none from hplace] at this
    cases this
  have h₁ : Ticking t (setTicker s k tk) :=
    h.frame (.setTicker (fun hk => by simp [hplace] at hk) (.refl t s))
  unfold Timer.cancelWaiter
  split
  · exact h₁.goto_plain htok rfl (by simp)
  · rename_i u hu
    refine h₁.goto_plain htok rfl fun k' => ?_
    simp only [ne_eq, Pc.cancelTimer.injEq, not_and]
    rintro rfl
    rw [show ((setTicker s k tk).ticker k).waiter = tk.waiter by simp [setTicker], hw] at hu
    exact absurd hu hne

theorem Ticking.resetOther (h : Ticking t s) (hp : Places s.places) {k interval now : Nat}
    (hpc : s.pc (.task t) = .reset k interval now) (hs : tickerReset s (.task t) k interval now = some s') :
    Ticking t s' := by
  have hok := h.ok
  rw [hpc] at hok
  unfold tickerReset at hs
  dsimp only at hs
  split_ifs at hs
  · exact Option.some.inj hs ▸ h.goto_plain hok rfl (by simp)
  all_goals exact Option.some.inj hs ▸ h.cancelWaiter hp hok (by rw [hpc]; rfl) rfl

/-- The steps of task `t`. -/
theorem Ticking.next_self {e : Env} (h : Ticking t s) (hi : Inv s.view) (hp : Places s.places) (ho : Owes s)
    (hs : next s (.task t) e = some s') : Ticking t s' := by
  have hok := h.ok
  cases hpc : s.pc (.task t) with
      (rw [hpc] at hok; simp only [next, hpc, reduceCtorEq] at hs)
  | sleepCheck d c =>
    obtain rfl := h.user (c := c) (by rw [hpc]; rfl)
    refine Option.some.inj hs ▸ ?_
    unfold sleepCheck
    split_ifs
    · exact h.sleepRet hok
    · exact h.sleepRet hok
    · exact h.goto_plain hok rfl (by simp)
  | sleepClock d c =>
    obtain rfl := h.user (c := c) (by rw [hpc]; rfl)
    refine Option.some.inj hs ▸ ?_
    unfold sleepClock
    split_ifs
    · exact h.sleepRet hok
    · exact h.sleepRet hok
    · exact h.goto_plain hok rfl (by simp)
  | register w => exact h.timerWaitRegister hpc hs
  | park b => exact Option.some.inj hs ▸ h.rtPark hpc
  | finish n w => exact Option.some.inj hs ▸ h.timerWaitFinish hpc
  | parkUntil i d => exact absurd (by rw [hpc]; rfl) (h.sync (.mutex i))
  | recheck i d st => exact absurd (by rw [hpc]; rfl) (h.sync (.mutex i))
  | check o => exact absurd (by rw [hpc]; rfl) (h.sync o)
  | tickLoop k =>
    have hk : (s.pc (.task t)).place = .tick k := by rw [hpc]; rfl
    unfold tickLoop at hs
    simp only [h.stopped k hk, Bool.false_eq_true, if_false] at hs
    split_ifs at hs with hl
    exact Option.some.inj hs ▸ h.goto ⟨hok, rfl⟩ (.inr hk.symm) (by simp)
      fun _ _ _ => .inr (h.no_cancel hp hk (by simpa using hl))
  | tickStale n k d g =>
    obtain ⟨htimed, hcan, hg⟩ := hok
    unfold tickStale at hs
    simp only [h.stopped k (by rw [hpc]; rfl), Bool.false_eq_true, hg, ne_eq, not_true_eq_false, or_self,
      if_false] at hs
    split_ifs at hs
    exact Option.some.inj hs ▸ h.goto ⟨htimed, fun hc => absurd hc hcan⟩ (.inr (by rw [hpc]; rfl)) (by simp)
      fun _ _ he => .inl (by rw [hpc]; exact he)
  | tickEnd k d g st => exact h.tickEnd hpc hs
  | tickFail k st =>
    split_ifs at hs
    exact Option.some.inj hs ▸ h.tickRet hok.1 hok.2
  | waitEnd u => exact absurd (by rw [hpc]; rfl) (h.wait u)
  | complete =>
    have hw : t ∉ s.completionWaiters t := fun hm => h.wait t (hp.waits t t hm)
    refine Option.some.inj hs ▸ Ticking.willUnpark ?_ hok hw (by simp)
    exact ⟨h.ok, h.sync, h.wait, h.running, h.stopped, h.cancels, h.log⟩
  | resetClock k interval =>
    refine Option.some.inj hs ▸ h.goto_plain ?_ (by split <;> rfl) (by intro k; split <;> simp)
    split <;> exact hok
  | reset k interval now => exact h.resetOther hp hpc hs
  | unlockTicker k =>
    have h₁ : Ticking t (setTicker s k { s.ticker k with locked := false }) :=
      h.frame (.setTicker (fun _ => ⟨rfl, rfl⟩) (.refl t s))
    exact Option.some.inj hs ▸ h₁.goto_plain hok rfl (by simp)
  | cancelTimer u k => exact Option.some.inj hs ▸ h.cancelOther hi hpc
  | unparks l k => exact Option.some.inj hs ▸ h.unparkStep ho hpc
  | work u =>
    have hu : u ≠ t := by
      rintro rfl
      exact h.sync _ (hp.work _ u (by rw [show s.places.deed (.task u) = (s.pc (.task u)).deed from rfl, hpc]; rfl)).1
    have h₁ : Ticking t { s with granted := Function.update s.granted u true } := h.frame (.of_eq rfl)
    exact Option.some.inj hs ▸ h₁.willUnpark hok (by simp [Ne.symm hu]) (by simp)

/-! ## Calls of the task -/

/-- Task `t` is in no queue. -/
theorem Ticking.not_queued (h : Ticking t s) (hp : Places s.places) (o : Obj) : t ∉ s.queue o := fun hm =>
  h.sync o (hp.queued o t hm).1

/-- Task `t` grants something to the first task of a queue. -/
theorem Ticking.grant (h : Ticking t s) (hp : Places s.places) {o : Obj} {l : List Nat} (hq : s.queue o = u :: l)
    (h₁ : s₁.core = s.core) (htok : tokens s t = 0) : Ticking t (Timer.willUnpark s₁ (.task t) [u] .ret) := by
  have hf : Frame t s s₁ := .of_eq h₁
  refine (h.frame hf).willUnpark (hf.tokens.trans htok) (fun hm => h.not_queued hp o ?_) (by simp)
  rw [hq, List.mem_singleton.mp hm]
  exact List.mem_cons_self

theorem Ticking.taskCall (h : Ticking t s) (hp : Places s.places) {c : Call} (hpc : s.pc (.task t) = .idle)
    (hc : c.stays = true) (hs : taskCall s t c = some s') : Ticking t s' := by
  have hok := h.ok
  rw [hpc] at hok
  replace hok : tokens s t = 0 := hok
  cases c with simp only [Timer.taskCall, reduceCtorEq] at hs
  | sleepUntil d => exact Option.some.inj hs ▸ h.goto_plain hok rfl (by simp)
  | tickerWait k =>
    split_ifs at hs with hl hk
    · exact Option.some.inj hs ▸ h.log_append (by simp)
    · simp only [not_or, Bool.not_eq_true] at hk
      have h₁ : Ticking t (setTicker s k { s.ticker k with waiter := some t }) :=
        h.frame (.setTicker (fun _ => ⟨rfl, rfl⟩) (.refl t s))
      refine Option.some.inj hs ▸ h₁.enter hok (by simp [Pc.place]) (by simp [Pc.place]) (fun k' hk' => ?_) (by simp)
        fun _ _ he => by cases he
      obtain rfl : k = k' := Place.tick.inj hk'
      simpa [setTicker] using hk.1
  | unlock i =>
    refine Option.some.inj hs ▸ ?_
    unfold mutexUnlock
    split_ifs
    · exact h
    · split
      · exact h.frame (.of_eq rfl)
      · rename_i u l hq
        exact h.grant hp hq rfl hok
  | exit =>
    have h₁ : Ticking t { s with finished := Function.update s.finished t true, live := s.live.erase t } :=
      ⟨h.ok, h.sync, h.wait, h.running, h.stopped, h.cancels, h.log⟩
    exact Option.some.inj hs ▸ h₁.goto_plain hok rfl (by simp)
  | _ => cases hc

theorem Ticking.anyCall (h : Ticking t s) (hp : Places s.places) {c : Call} (hpc : s.pc (.task t) = .idle)
    (hc : c.Spares s t) (hs : anyCall s (.task t) c = some s') : Ticking t s' := by
  have hok := h.ok
  rw [hpc] at hok
  replace hok : tokens s t = 0 := hok
  cases c with simp only [Timer.anyCall, reduceCtorEq] at hs
  | tickerReset k interval =>
    split_ifs at hs
    · exact Option.some.inj hs ▸ h
    · exact Option.some.inj hs ▸ h.goto_plain hok rfl (by simp)
  | tickerStop k =>
    split_ifs at hs
    exact Option.some.inj hs ▸ h.cancelWaiter hp hok (by rw [hpc]; rfl) rfl
  | taskCancel u =>
    have hu : u ≠ t := fun he => hc.1 (he ▸ rfl)
    split_ifs at hs
    · exact Option.some.inj hs ▸ h
    · have h₁ : Ticking t { s with cancelRequested := Function.update s.cancelRequested u true } :=
        ⟨h.ok, h.sync, h.wait, h.running, h.stopped, h.cancels, h.log⟩
      exact Option.some.inj hs ▸ h₁.goto_plain hok rfl (by simp [hu])
  | unpark u =>
    have hu : t ≠ u := fun he => hc.2.1 (he ▸ rfl)
    exact Option.some.inj hs ▸ h.willUnpark hok (by simp [hu]) (by simp)
  | semaphorePost i =>
    refine Option.some.inj hs ▸ ?_
    unfold semaphorePost
    split
    · rename_i u l hq
      exact h.grant hp hq rfl hok
    · split_ifs <;> exact h.frame (.of_eq rfl)
  | eventSet i =>
    have h₁ : Ticking t { setQueue s (.event i) [] with
        eventSet := Function.update s.eventSet i true
        granted := fun u => if u ∈ s.queue (.event i) then true else s.granted u } := h.frame (.of_eq rfl)
    exact Option.some.inj hs ▸ h₁.willUnpark hok (h.not_queued hp _) (by simp)
  | eventReset i => exact Option.some.inj hs ▸ h.frame (.of_eq rfl)

theorem Ticking.call {c : Call} (h : Ticking t s) (hp : Places s.places) (hc : Undisturbed t s (.call a c))
    (hs : call s a c = some s') : Ticking t s' := by
  by_cases ha : a = .task t
  · subst ha
    unfold Timer.call at hs
    split_ifs at hs with hpc
    replace hpc := not_not.mp hpc
    dsimp only at hs
    split_ifs at hs
    rcases Option.or_eq_some_iff.mp hs with hs | ⟨-, hs⟩
    · exact h.taskCall hp hpc (hc.2 rfl) hs
    · exact h.anyCall hp hpc hc.1 hs
  · exact h.frame (frame_call hp ha (fun o _ => h.not_queued hp o) hc.1 hs)

theorem Ticking.step {x : Act} (h : Ticking t s) (hi : Inv s.view) (hp : Places s.places) (ho : Owes s)
    (hu : Undisturbed t s x) (hc : ResetInTime t s x) (hs : step s x = some s') : Ticking t s' := by
  cases x with
  | call a c => exact h.call hp hu hs
  | next a e =>
    by_cases ha : a = .task t
    · subst ha
      exact h.next_self hi hp ho hs
    · exact h.next_other hi hp ho hc ha hs
  | requestStop => exact hu.elim
  | spawn u =>
    by_cases hu : u = t
    · simp only [Timer.step] at hs
      split_ifs at hs
      exact Option.some.inj hs ▸ ⟨h.ok, h.sync, h.wait, h.running, h.stopped, h.cancels, h.log⟩
    · exact h.frame (frame_env hp (fun a => by simp) (by simp) (by simp [hu]) hs)
  | _ => exact h.frame (frame_env hp (fun a => by simp) (by simp) (by simp) hs)

end Ticking

/-- In every run in which task `t` is not disturbed and resets are in time,
`dlsm_gt_ticker_wait` of task `t` never returns `DLSM_GT_E_CANCELLED`. -/
theorem ticker_wait_not_cancelled {s : State} {t : Nat}
    (h : machine.ReachBy (fun s x => Undisturbed t s x ∧ ResetInTime t s x) s) :
    ∀ k st count, .tick t k st count ∈ s.log → st ≠ .cancelled := by
  have hi : Ticking t s := h.invariant (I := Ticking t) (fun s (h : s = State.initial) => h ▸ ticking_initial t)
    fun _ _ _ hr h hc hs =>
      h.step (inv_of_reach hr.reach) (places_of_reach hr.reach) (owes_of_reach hr.reach) hc.1 hc.2 hs
  exact hi.log

/-- `Undisturbed`, of runs with few calls. -/
def undisturbed : Act → Bool
  | .call _ (.tickerWait _) | .call _ (.tickerReset _ _) => true
  | .call _ _ | .requestStop => false
  | _ => true

theorem undisturbed_of (t : Nat) (s : State) {x : Act} (h : undisturbed x = true) : Undisturbed t s x := by
  unfold undisturbed at h
  split at h <;> simp_all [Undisturbed, Call.Spares, Call.stays]

/-- `ResetInTime`, as a test. -/
def resetInTime (t : Nat) (s : State) : Act → Bool
  | .next a _ =>
    match s.pc a, (s.pc (.task t)).gen with
    | .reset k _ _, some (k', g) =>
      !(s.pc (.task t)).reads && !(decide (k' = k ∧ nextGeneration (s.ticker k).generation = g))
    | .reset _ _ _, none => !(s.pc (.task t)).reads
    | _, _ => true
  | _ => true

theorem resetInTime_of {t : Nat} {s : State} {x : Act} (h : resetInTime t s x = true) : ResetInTime t s x := by
  cases x with
  | next a e =>
    intro k interval now hpc _
    simp only [resetInTime, hpc] at h
    cases hg : (s.pc (.task t)).gen with
    | none => simpa [hg] using h
    | some p =>
      obtain ⟨k', g⟩ := p
      simp only [hg, Bool.and_eq_true, Bool.not_eq_true', decide_eq_false_iff_not, not_and] at h
      refine ⟨h.1, fun g' he => ?_⟩
      obtain ⟨rfl, rfl⟩ : k' = k ∧ g = g' := by simpa using he
      exact h.2 rfl
  | _ => trivial

/-- Task 1 waits at ticker 0, which is reset while the task is parked, and again until its new deadline. -/
def resetRun : List Act :=
  [.spawn 1, .tickerNew 0 5 ⟨true, none, true⟩, .call (.task 1) (.tickerWait 0), .next (.task 1) ⟨true, none, true⟩,
    .next (.task 1) ⟨true, some 10, true⟩, .next (.task 1) ⟨true, none, true⟩, .next (.task 1) ⟨true, none, true⟩,
    .call (.ext 0) (.tickerReset 0 3), .next (.ext 0) ⟨true, none, true⟩, .next (.ext 0) ⟨true, none, true⟩,
    .next (.ext 0) ⟨true, none, true⟩, .next (.ext 0) ⟨true, none, true⟩, .next (.ext 0) ⟨true, none, true⟩,
    .next (.task 1) ⟨true, none, true⟩, .next (.task 1) ⟨true, none, true⟩, .next (.task 1) ⟨true, none, true⟩,
    .next (.task 1) ⟨true, some 11, true⟩, .next (.task 1) ⟨true, none, true⟩, .next (.task 1) ⟨true, none, true⟩,
    .clock 4, .next .timer ⟨true, none, true⟩, .next .timer ⟨true, none, true⟩,
    .next (.task 1) ⟨true, none, true⟩, .next (.task 1) ⟨true, none, true⟩]

theorem ticker_wait_not_cancelled_run : ∃ s, machine.ReachBy (fun s x => Undisturbed 1 s x ∧ ResetInTime 1 s x) s ∧
    s.log = [.tick 1 0 .ok 1] ∧ ∀ k st count, .tick 1 k st count ∈ s.log → st ≠ .cancelled := by
  obtain ⟨s, hr, hp⟩ := Machine.exists_reachBy_of_run (M := machine)
    (C := fun s x => Undisturbed 1 s x ∧ ResetInTime 1 s x) (c := fun s x => undisturbed x && resetInTime 1 s x)
    (fun s x hx => by
      rw [Bool.and_eq_true] at hx
      exact ⟨undisturbed_of 1 s hx.1, resetInTime_of hx.2⟩)
    (s := State.initial) (l := resetRun) (p := fun s => decide (s.log = [.tick 1 0 .ok 1])) rfl (by decide +kernel)
  exact ⟨s, hr, of_decide_eq_true hp, ticker_wait_not_cancelled hr⟩

/-- Ticker 0 is reset after task 1 has read its generation and before the task
registers its timer. The task finds the generation stale, cancels its timer and
with that unparks itself; the token ends the park of its second round. -/
def resetLostRun : List Act :=
  [.spawn 1, .tickerNew 0 5 ⟨true, none, true⟩, .call (.task 1) (.tickerWait 0), .next (.task 1) ⟨true, none, true⟩,
    .call (.ext 0) (.tickerReset 0 3), .next (.ext 0) ⟨true, none, true⟩, .next (.ext 0) ⟨true, none, true⟩,
    .next (.ext 0) ⟨true, none, true⟩, .next (.ext 0) ⟨true, none, true⟩,
    .next (.task 1) ⟨true, some 10, true⟩, .next (.task 1) ⟨true, none, true⟩, .next (.task 1) ⟨true, none, true⟩,
    .next (.task 1) ⟨true, none, true⟩, .next (.task 1) ⟨true, none, true⟩, .next (.task 1) ⟨true, none, true⟩,
    .next (.task 1) ⟨true, none, true⟩, .next (.task 1) ⟨true, some 11, true⟩, .next (.task 1) ⟨true, none, true⟩,
    .next (.task 1) ⟨true, none, true⟩, .next (.task 1) ⟨true, none, true⟩, .next (.task 1) ⟨true, none, true⟩]

theorem ticker_wait_cancelled_by_reset : ∃ s, machine.ReachBy (Undisturbed 1) s ∧ .tick 1 0 .cancelled 0 ∈ s.log := by
  obtain ⟨s, hr, hp⟩ := Machine.exists_reachBy_of_run (M := machine) (C := Undisturbed 1)
    (c := fun _ x => undisturbed x)
    (fun s x hx => undisturbed_of 1 s hx) (s := State.initial) (l := resetLostRun)
    (p := fun s => decide (.tick 1 0 .cancelled 0 ∈ s.log)) rfl (by decide +kernel)
  exact ⟨s, hr, of_decide_eq_true hp⟩

end Dlsmc.Timer
