import Mathlib.Algebra.BigOperators.Group.List.Basic
import Mathlib.Algebra.GroupWithZero.Nat
import Dlsmc.Greenthread.Places
import Dlsmc.Greenthread.TickerWait

/-!
# Tickers do not drift

A successful `dlsm_gt_ticker_wait` reports how many deadlines of its ticker
have passed and moves the next one on by as many intervals. Unless a reset
brings back the generation that the wait has read (`Unrepeated`), the deadline
it has read is then still that of the ticker (`Scheduled`), so no period is
skipped or counted twice between two resets. A generation comes back after
`2^64 - 1` resets (`exists_early`).
-/

namespace Dlsmc.Timer

/-! ## The arithmetic of `dlsm_gt_ticker_wait` -/

/-- The count and the next deadline, in 64-bit words. -/
def tickWords (max deadline now interval : UInt64) : UInt64 × UInt64 :=
  let count := if deadline < now then 1 + (now - deadline) / interval else 1
  let advance := if max / interval < count then max else count * interval
  (count, if max - deadline < advance then max else deadline + advance)

/-- The count and the next deadline that `tickEnd` computes. -/
def tickCount (d now interval : Nat) : Nat := if d < now then 1 + (now - d) / interval else 1

def tickNext (d now interval : Nat) : Nat :=
  saturatingAdd d (if UINT64_MAX / interval < tickCount d now interval then UINT64_MAX
    else tickCount d now interval * interval)

theorem tickCount_eq {d now interval : Nat} (h : d ≤ now) : tickCount d now interval = 1 + (now - d) / interval := by
  unfold tickCount
  split
  · rfl
  · have hz : now - d = 0 := by omega
    rw [hz, Nat.zero_div]

/-- The next deadline is `d + count * interval`, unless that is above the maximum. -/
theorem tickNext_eq {d interval : Nat} (now : Nat) (hi : 0 < interval) (hd : d ≤ UINT64_MAX) :
    tickNext d now interval = min UINT64_MAX (d + tickCount d now interval * interval) := by
  unfold tickNext saturatingAdd
  generalize tickCount d now interval = count
  split
  · next h =>
    have hlt := (Nat.div_lt_iff_lt_mul hi).mp h
    split <;> omega
  · split <;> omega

theorem lt_tickNext {d now interval : Nat} (hi : 0 < interval) (h : d ≤ now) :
    now < d + tickCount d now interval * interval := by
  rw [tickCount_eq h]
  have hm := Nat.div_add_mod (now - d) interval
  have hlt := Nat.mod_lt (now - d) hi
  rw [Nat.add_mul, Nat.one_mul, Nat.mul_comm ((now - d) / interval)]
  omega

/-- Nothing wraps. -/
theorem tickWords_spec {max deadline now interval : UInt64} (hmax : max.toNat = UINT64_MAX) (hd : 0 < deadline.toNat)
    (hi : 0 < interval.toNat) (h : deadline.toNat ≤ now.toNat) :
    (tickWords max deadline now interval).1.toNat = tickCount deadline.toNat now.toNat interval.toNat ∧
    (tickWords max deadline now interval).2.toNat = tickNext deadline.toNat now.toNat interval.toNat := by
  have hnow := now.toNat_lt
  have hcount : (if deadline < now then 1 + (now - deadline) / interval else 1).toNat =
      tickCount deadline.toNat now.toNat interval.toNat := by
    have hle := Nat.div_le_self (now.toNat - deadline.toNat) interval.toNat
    simp only [UInt64.lt_iff_toNat_lt, tickCount]
    split
    · rw [UInt64.toNat_add, UInt64.toNat_div, UInt64.toNat_sub_of_le _ _ (UInt64.le_iff_toNat_le.mpr h),
        UInt64.toNat_one, Nat.mod_eq_of_lt (by omega)]
    · rfl
  refine ⟨hcount, ?_⟩
  unfold tickWords tickNext saturatingAdd
  dsimp only
  rw [← hcount]
  generalize (if deadline < now then 1 + (now - deadline) / interval else 1) = count
  have hadvance : (if max / interval < count then max else count * interval).toNat =
      if UINT64_MAX / interval.toNat < count.toNat then UINT64_MAX else count.toNat * interval.toNat := by
    simp only [UInt64.lt_iff_toNat_lt, UInt64.toNat_div, hmax]
    split
    · exact hmax
    · next hle =>
      have hm := (Nat.le_div_iff_mul_le hi).mp (Nat.not_lt.mp hle)
      rw [UInt64.toNat_mul, Nat.mod_eq_of_lt]
      unfold UINT64_MAX at hm
      omega
  rw [← hadvance]
  generalize (if max / interval < count then max else count * interval) = advance
  have hsub : (max - deadline).toNat = UINT64_MAX - deadline.toNat := by
    rw [UInt64.toNat_sub_of_le _ _ (UInt64.le_iff_toNat_le.mpr (by rw [hmax]; unfold UINT64_MAX; omega)), hmax]
  simp only [UInt64.lt_iff_toNat_lt, hsub]
  split
  · exact hmax
  · rw [UInt64.toNat_add, Nat.mod_eq_of_lt]
    unfold UINT64_MAX at *
    omega

/-! ## The deadlines that tasks wait for -/

/-- What a ticker is due. -/
structure Period where
  made : Bool
  interval : Nat
  nextDeadline : Nat
  generation : Nat

def Ticker.period (tk : Ticker) : Period := ⟨tk.made, tk.interval, tk.nextDeadline, tk.generation⟩

/-- A call of `dlsm_gt_ticker_wait` that was successful. -/
def Ret.ticked : Ret → Bool
  | .tick _ _ .ok _ => true
  | _ => false

def State.ticked (s : State) : List Ret := s.log.filter Ret.ticked

/-- What a task waits for, and its node once it is registered. -/
def After.round : After → Option (Option Nat × Wait)
  | .finish n w => some (some n, w)
  | _ => none

def Pc.round : Pc → Option (Option Nat × Wait)
  | .register w => some (none, w)
  | .park (.timer n w) | .parked (.timer n w) | .finish n w => some (some n, w)
  | .tickStale n k d g => some (some n, .tick k d g)
  | .tickEnd k d g _ => some (none, .tick k d g)
  | .cancelTimer _ k | .unparks _ k => k.round
  | _ => none

/-- The deadline of a timer that has expired. -/
def Pc.ended : Pc → Option Nat
  | .tickEnd _ d _ .ok => some d
  | _ => none

/-- A ticker is reset to an interval that is not 0, and a failure has a status. -/
def Pc.sound : Pc → Prop
  | .resetClock _ interval | .reset _ interval _ => 0 < interval
  | .tickFail _ st => st ≠ .ok
  | _ => True

/-- The part of the state the argument is about. -/
structure Sched where
  clock : Nat
  deadline : Nat → Nat
  period : Nat → Period
  ticked : List Ret
  pc : Actor → Pc

def State.sched (s : State) : Sched where
  clock := s.clock
  deadline := s.deadline
  period := fun k => (s.ticker k).period
  ticked := s.ticked
  pc := s.pc

/-- The node of a wait has its deadline, which is that of the ticker unless the ticker was reset. -/
def Right (v : Sched) (o : Option Nat) (w : Wait) : Prop :=
  (∀ n, o = some n → v.deadline n = w.deadline) ∧
  ∀ k d g, w = .tick k d g → (v.period k).generation = g → (v.period k).nextDeadline = d

structure Scheduled (v : Sched) : Prop where
  round : ∀ t o w, (v.pc (.task t)).round = some (o, w) → Right v o w
  ended : ∀ t d, (v.pc (.task t)).ended = some d → d ≤ v.clock
  sound : ∀ a, (v.pc a).sound
  ticker : ∀ k, (v.period k).made = true →
    0 < (v.period k).interval ∧ 0 < (v.period k).nextDeadline ∧ (v.period k).nextDeadline ≤ UINT64_MAX
  clock : 0 < v.clock ∧ v.clock ≤ UINT64_MAX

/-- No ticker moved, and no tick was reported. -/
structure Kept (s s' : State) : Prop where
  scheduled : Scheduled s'.sched
  period : s'.sched.period = s.sched.period
  ticked : s'.ticked = s.ticked

variable {s s' s₁ : State} {a : Actor} {t n : Nat} {c : Pc}

theorem scheduled_initial : Scheduled State.initial.sched where
  round t o w h := by simp [State.initial, State.sched, Pc.round] at h
  ended t d h := by simp [State.initial, State.sched, Pc.ended] at h
  sound a := by
    simp only [State.initial, State.sched]
    split <;> trivial
  ticker k h := by cases h
  clock := by decide

theorem Scheduled.kept (h : Scheduled s.sched) : Kept s s := ⟨h, rfl, rfl⟩

theorem node_of_round {p : Pc} {w : Wait} (h : p.round = some (some n, w)) : p.node = some n := by
  unfold Pc.round at h
  split at h <;> simp_all [Pc.node] <;> unfold After.round at h <;> split at h <;> simp_all [After.node]

theorem place_of_round {p : Pc} {o : Option Nat} {k d g : Nat} (h : p.round = some (o, .tick k d g)) :
    p.place = .tick k := by
  unfold Pc.round at h
  split at h <;> simp_all [Pc.place, Wait.place, Block.place] <;> unfold After.round at h <;> split at h <;>
    simp_all [After.place, Wait.place]

theorem sched_log {r : Ret} (hr : r.ticked = false) : State.sched { s with log := s.log ++ [r] } = s.sched := by
  have ht : State.ticked { s with log := s.log ++ [r] } = s.ticked := by
    simp [State.ticked, List.filter_append, hr]
  simp only [State.sched, ht]

theorem sched_setTicker {k : Nat} {tk : Ticker} (h : tk.period = (s.ticker k).period) :
    (setTicker s k tk).sched = s.sched := by
  have hp : (fun j => (Function.update s.ticker k tk j).period) = fun j => (s.ticker j).period := by
    funext j
    by_cases hj : j = k
    · subst hj
      rw [Function.update_self, h]
    · rw [Function.update_of_ne hj]
  simp only [State.sched, setTicker, hp]
  rfl

theorem period_setTicker (s : State) (k j : Nat) (tk : Ticker) :
    ((setTicker s k tk).ticker j).period = if j = k then tk.period else (s.ticker j).period := by
  show (Function.update s.ticker k tk j).period = _
  rw [Function.update_apply]
  split <;> rfl

/-- A call of `dlsm_gt_ticker_wait` returns. -/
theorem sched_tickRet (s : State) (t k : Nat) (st : Status) (count : Nat) : (tickRet s t k st count).sched =
    { (setPc s (.task t) .idle).sched with ticked := (tickRet s t k st count).ticked } := by
  have hs : (setTicker s k { s.ticker k with waiter := none }).sched = s.sched := sched_setTicker rfl
  have hw := congrArg Sched.period hs
  have hp : (tickRet s t k st count).sched.period = s.sched.period := hw
  show Sched.mk _ _ _ _ _ = Sched.mk _ _ _ _ _
  exact congrArg (fun f => Sched.mk _ _ f _ _) hp

theorem sched_signal (s : State) : (signal s).sched = s.sched := by
  unfold signal
  split <;> rfl

theorem sched_cancelNode (s : State) (n : Nat) : (cancelNode s n).sched = s.sched := by
  unfold cancelNode
  dsimp only
  split
  · exact sched_signal _
  · rfl

/-! ## Steps -/

/-- A thread goes on. -/
theorem Scheduled.setPc (h : Scheduled s.sched) (hr : ∀ t o w, a = .task t → c.round = some (o, w) → Right s.sched o w)
    (he : ∀ d, c.ended = some d → d ≤ s.clock) (hn : c.sound) :
    Scheduled (setPc s a c).sched := by
  have hpc : ∀ b, (Timer.setPc s a c).pc b = if b = a then c else s.pc b := fun b => Function.update_apply ..
  refine ⟨fun t o w hw => ?_, fun t d hd => ?_, fun b => ?_, h.ticker, h.clock⟩
  · rw [show (Timer.setPc s a c).sched.pc (.task t) = _ from hpc _] at hw
    split at hw
    · next ht => exact hr t o w ht.symm hw
    · exact h.round t o w hw
  · rw [show (Timer.setPc s a c).sched.pc (.task t) = _ from hpc _] at hd
    split at hd
    · exact he d hd
    · exact h.ended t d hd
  · rw [show (Timer.setPc s a c).sched.pc b = _ from hpc _]
    split
    · exact hn
    · exact h.sound b

theorem Kept.setPc (h : Kept s s₁) (hr : ∀ t o w, a = .task t → c.round = some (o, w) → Right s₁.sched o w)
    (he : ∀ d, c.ended = some d → d ≤ s₁.clock) (hn : c.sound) :
    Kept s (Timer.setPc s₁ a c) := ⟨h.scheduled.setPc hr he hn, h.period, h.ticked⟩

/-- It waits for no deadline, or for what it has waited for. -/
theorem Kept.goto (h : Kept s s₁) (hr : c.round = none ∨ c.round = (s₁.pc a).round) (he : c.ended = none)
    (hn : c.sound) : Kept s (Timer.setPc s₁ a c) := by
  refine h.setPc (fun t o w ha hw => ?_) (fun d hd => ?_) hn
  · rcases hr with hr | hr
    · rw [hr] at hw
      cases hw
    · subst ha
      exact h.scheduled.round t o w (hr ▸ hw)
  · rw [he] at hd
    cases hd

theorem Kept.congr (h : Kept s s₁) (he : s'.sched = s₁.sched) : Kept s s' :=
  ⟨he ▸ h.scheduled, (congrArg Sched.period he).trans h.period, (congrArg Sched.ticked he).trans h.ticked⟩

theorem Kept.log (h : Kept s s₁) {r : Ret} (hr : r.ticked = false) : Kept s { s₁ with log := s₁.log ++ [r] } :=
  h.congr (sched_log hr)

theorem After.pc_round (k : After) : k.pc.round = k.round := by cases k <;> rfl

theorem After.pc_ended (k : After) : k.pc.ended = none := by cases k <;> rfl

theorem After.pc_sound (k : After) : k.pc.sound := by cases k <;> trivial

theorem Block.resume_round (b : Block) : b.resume.round = (Pc.parked b).round := by cases b <;> rfl

theorem Kept.unpark (h : Kept s s₁) (u : Nat) : Kept s (unpark s₁ u) := by
  unfold Timer.unpark
  split
  · exact h
  · split
    · next b hb => exact h.goto (.inr (by rw [hb, b.resume_round])) (by cases b <;> rfl) (by cases b <;> trivial)
    · exact h.congr rfl

theorem Kept.after {k : After} (h : Kept s s₁) (hr : k.round = none ∨ k.round = (s₁.pc a).round) :
    Kept s (Timer.setPc s₁ a k.pc) :=
  h.goto (by rwa [k.pc_round]) k.pc_ended k.pc_sound

theorem Kept.willUnpark {l : List Nat} {k : After} (h : Kept s s₁) (hr : k.round = none ∨ k.round = (s₁.pc a).round) :
    Kept s (willUnpark s₁ a l k) := by
  unfold Timer.willUnpark
  split
  · exact h.after hr
  · have h' : Kept s { s₁ with owed := s₁.owed ++ l.map (Prod.mk a) } := h.congr rfl
    exact h'.goto hr rfl trivial

theorem Kept.unparkStep {l : List Nat} {k : After} (h : Kept s s₁) (ha : s₁.pc a = .unparks l k) :
    Kept s (unparkStep s₁ a l k) := by
  unfold Timer.unparkStep
  split
  · exact h.after (.inr (by rw [ha]; rfl))
  · rename_i t l
    have h₂ : Kept s { s₁ with owed := s₁.owed.erase (a, t) } := h.congr rfl
    have hpc : (Timer.unpark { s₁ with owed := s₁.owed.erase (a, t) } t).pc a = .unparks (t :: l) k := by
      rw [pc_unpark_of_ne (s := { s₁ with owed := s₁.owed.erase (a, t) }) (by simp [ha])]
      exact ha
    dsimp only
    split
    · exact (h₂.unpark t).after (.inr (by rw [hpc]; rfl))
    · exact (h₂.unpark t).goto (.inr (by rw [hpc]; rfl)) rfl trivial

theorem Kept.sleepRet {d : Nat} {w : Caller} {st : Status} (h : Kept s s₁) : Kept s (sleepRet s₁ t d w st) := by
  unfold Timer.sleepRet
  split
  · exact (h.log rfl).goto (.inl rfl) rfl trivial
  · split <;> exact h.goto (.inl rfl) rfl trivial

theorem Kept.registerFail {w : Wait} {st : Status} (h : Kept s s₁) (hst : st ≠ .ok) :
    Kept s (registerFail s₁ t w st) := by
  unfold Timer.registerFail
  split
  · exact h.sleepRet
  · exact h.goto (.inl rfl) rfl hst

/-- `dlsm_gt_ticker_wait` returns without a tick. -/
theorem Kept.tickRet {k : Nat} {st : Status} (h : Kept s s₁) (hst : st ≠ .ok) : Kept s (tickRet s₁ t k st 0) := by
  have h' : Kept s (setTicker s₁ k { s₁.ticker k with waiter := none }) := h.congr (sched_setTicker rfl)
  have hr : (Ret.tick t k st 0).ticked = false := by
    unfold Ret.ticked
    split
    · next he => exact absurd (Ret.tick.inj he).2.2.1 hst
    · rfl
  exact (h'.log hr).goto (.inl rfl) rfl trivial

/-- The node of a task that registers is not that of another one. -/
theorem Kept.registerNode {w : Wait} {capacity : Nat} (h : Kept s s₁) (hi : Inv s₁.view) (ha : s₁.allocated n = false)
    (hpc : s₁.pc (.task t) = .register w) : Kept s (registerNode s₁ t n w capacity) := by
  have hright := h.scheduled.round t none w (by rw [show s₁.sched.pc = s₁.pc from rfl, hpc]; rfl)
  unfold Timer.registerNode
  extract_lets s₂ first s₃
  have hother : ∀ u m v, (s₁.pc (.task u)).round = some (some m, v) → m ≠ n := by
    rintro u m v hu rfl
    have hm : s₁.timerNode u = some m := by
      rw [show s₁.timerNode u = (s₁.pc (.task u)).node from hi.timerNode u, node_of_round hu]
    have hal : s₁.allocated m = true := (hi.owner u m hm).1
    rw [ha] at hal
    cases hal
  have h₃ : Kept s s₃ := by
    refine ⟨⟨fun u o v hu => ⟨fun m hm => ?_, (h.scheduled.round u o v hu).2⟩, h.scheduled.ended, h.scheduled.sound,
      h.scheduled.ticker, h.scheduled.clock⟩, h.period, h.ticked⟩
    subst hm
    show Function.update s₁.deadline n w.deadline m = v.deadline
    rw [Function.update_of_ne (hother u m v hu)]
    exact (h.scheduled.round u _ v hu).1 m rfl
  have h₄ : Kept s (if first then signal s₃ else s₃) := by
    split
    · exact h₃.congr (sched_signal s₃)
    · exact h₃
  have hsched : (if first then signal s₃ else s₃).sched = s₃.sched := by
    split
    · exact sched_signal s₃
    · rfl
  have hnew : Right s₃.sched (some n) w := by
    refine ⟨fun m hm => ?_, hright.2⟩
    cases hm
    exact Function.update_self ..
  cases w with
  | sleep d c =>
    refine h₄.setPc (fun u o v _ hu => ?_) (fun d hd => by cases hd) trivial
    cases hu
    rw [hsched]
    exact hnew
  | tick k d g =>
    refine h₄.setPc (fun u o v _ hu => ?_) (fun d hd => by cases hd) trivial
    cases hu
    rw [hsched]
    exact hnew

theorem Kept.timerWaitRegister {w : Wait} {e : Env} (h : Kept s s) (hi : Inv s.view)
    (hpc : s.pc (.task t) = .register w) (hs : timerWaitRegister s t w e = some s') : Kept s s' := by
  unfold Timer.timerWaitRegister at hs
  split at hs
  · exact Option.some.inj hs ▸ h.registerFail (by simp)
  · rename_i n _
    split_ifs at hs with ha hf
    · exact Option.some.inj hs ▸ h.registerFail (by simp)
    · split at hs
      · refine Option.some.inj hs ▸ Kept.registerFail ?_ (by simp)
        exact h.congr rfl
      · exact Option.some.inj hs ▸ h.registerNode hi (by simpa using ha) hpc

/-- A timer that has expired has reached its deadline. -/
theorem Kept.timerWaitFinish {w : Wait} (h : Kept s s) (hi : Inv s.view) (hpc : s.pc (.task t) = .finish n w) :
    Kept s (timerWaitFinish s t n w) := by
  have hright := h.scheduled.round t (some n) w (by rw [show s.sched.pc = s.pc from rfl, hpc]; rfl)
  have hf : (finishNode s n).sched = s.sched := by
    unfold finishNode
    split
    · exact sched_cancelNode s n
    · rfl
  have h₁ : Kept s { finishNode s n with
      timerNode := Function.update (finishNode s n).timerNode t none
      allocated := Function.update (finishNode s n).allocated n false } := h.congr hf
  unfold Timer.timerWaitFinish waitRet
  cases w with
  | sleep d c => exact h₁.sleepRet
  | tick k d g =>
    refine h₁.setPc (fun u o v _ hu => ?_) (fun x hx => ?_) trivial
    · cases hu
      exact ⟨fun _ hm => absurd hm (Option.some_ne_none _).symm, hf ▸ hright.2⟩
    · have hclock : (finishNode s n).clock = s.clock := congrArg Sched.clock hf
      show x ≤ (finishNode s n).clock
      rw [hclock]
      by_cases hok : finishStatus s n = .ok
      · rw [hok] at hx
        cases hx
        have hn : s.timerNode t = some n := by
          rw [show s.timerNode t = (s.pc (.task t)).node from hi.timerNode t, hpc]
          rfl
        have hexp := hi.expired n (hi.owner t n hn).1 (finishStatus_eq_ok.mp hok)
        rwa [show s.view.deadline n = d from hright.1 n rfl] at hexp
      · unfold Pc.ended at hx
        split at hx
        · next he => exact absurd (Pc.tickEnd.inj he).2.2.2 hok
        · cases hx

theorem Kept.timerCancelTaskWait {k : After} {u : Nat} (h : Kept s s₁) (ha : s₁.pc a = .cancelTimer u k) :
    Kept s (timerCancelTaskWait s₁ a u k) := by
  have hr : k.round = (s₁.pc a).round := by rw [ha]; rfl
  unfold Timer.timerCancelTaskWait
  split
  · rename_i n _
    split
    · exact (h.congr (sched_cancelNode s₁ n)).willUnpark (.inr (by rw [pc_cancelNode, hr]))
    · exact h.after (.inr hr)
  · exact h.after (.inr hr)

theorem Kept.timerLoop {e : Env} (h : Kept s s₁) : Kept s (timerLoop s₁ e) := by
  have hl : ∀ st, Kept s (leave s₁ 0 (s₁.heap.arr 0) st) := fun st => h.congr rfl
  unfold Timer.timerLoop
  dsimp only
  split_ifs
  · exact (hl _).willUnpark (.inl rfl)
  · exact h.goto (.inl rfl) rfl trivial
  · exact h.goto (.inl rfl) rfl trivial
  · exact (hl _).willUnpark (.inl rfl)
  · exact h.goto (.inl rfl) rfl trivial

theorem Kept.cancelWaiter {k : Nat} (h : Kept s s₁) : Kept s (cancelWaiter s₁ a k) := by
  unfold Timer.cancelWaiter
  split <;> exact h.goto (.inl rfl) rfl trivial

/-- What a step may do to tickers: nothing, a tick, or a reset. -/
inductive Moves (s : State) : Actor → State → Prop where
  | kept {a : Actor} {s' : State} (h : Kept s s') : Moves s a s'
  | tick {t k d : Nat} {e : Env} {s' : State} (hpc : s.pc (.task t) = .tickEnd k d (s.ticker k).generation .ok)
      (hclock : gtNow s e ≠ 0)
      (hs : s' = tickRet (setTicker s k { s.ticker k with
        nextDeadline := tickNext d (gtNow s e) (s.ticker k).interval }) t k .ok
        (tickCount d (gtNow s e) (s.ticker k).interval)) : Moves s (.task t) s'
  | reset {a : Actor} {k interval now : Nat} {s' : State} (hpc : s.pc a = .reset k interval now)
      (hstop : (s.ticker k).stopped = false)
      (hs : s' = cancelWaiter (setTicker s k { s.ticker k with
        interval := interval
        nextDeadline := saturatingAdd now interval
        generation := nextGeneration (s.ticker k).generation
        locked := true }) a k) : Moves s a s'

theorem moves_tickEnd {k d g : Nat} {st : Status} {e : Env} (h : Scheduled s.sched)
    (hpc : s.pc (.task t) = .tickEnd k d g st) (hs : tickEnd s t k d g st e = some s') : Moves s (.task t) s' := by
  unfold tickEnd at hs
  dsimp only at hs
  split at hs
  · cases hs
  split at hs
  · exact .kept (Option.some.inj hs ▸ h.kept.tickRet (by simp))
  split at hs
  · exact .kept (Option.some.inj hs ▸ h.kept.goto (.inl rfl) rfl trivial)
  rename_i hg
  split at hs
  · next hst => exact .kept (Option.some.inj hs ▸ h.kept.tickRet hst)
  rename_i hst
  split at hs
  · exact .kept (Option.some.inj hs ▸ h.kept.tickRet (by simp))
  rename_i hclock
  obtain rfl : (s.ticker k).generation = g := not_not.mp hg
  obtain rfl : st = .ok := not_not.mp hst
  exact .tick hpc hclock (Option.some.inj hs).symm

theorem moves_next {e : Env} (h : Scheduled s.sched) (hi : Inv s.view) (hs : next s a e = some s') : Moves s a s' := by
  have hk := h.kept
  unfold next at hs
  split at hs
  · refine .kept (Option.some.inj hs ▸ ?_)
    unfold sleepCheck
    split_ifs
    · exact hk.sleepRet
    · exact hk.sleepRet
    · exact hk.goto (.inl rfl) rfl trivial
  · refine .kept (Option.some.inj hs ▸ ?_)
    unfold sleepClock
    split_ifs
    · exact hk.sleepRet
    · exact hk.sleepRet
    · refine hk.setPc (fun u o w _ hu => ?_) (fun x hx => by cases hx) trivial
      cases hu
      exact ⟨fun _ hm => absurd hm (Option.some_ne_none _).symm, fun k d g he => by cases he⟩
  · rename_i t w hpc
    exact .kept (hk.timerWaitRegister hi hpc hs)
  · rename_i t b hpc
    refine .kept (Option.some.inj hs ▸ ?_)
    unfold rtPark
    split_ifs
    · have h' : Kept s { s with unparkPending := Function.update s.unparkPending t false } := hk.congr rfl
      refine h'.goto (.inr ?_) (by cases b <;> rfl) (by cases b <;> trivial)
      rw [b.resume_round]
      dsimp only
      rw [hpc]
      cases b <;> rfl
    · exact hk.goto (.inr (by rw [hpc]; cases b <;> rfl)) rfl trivial
  · rename_i t n w hpc
    exact .kept (Option.some.inj hs ▸ hk.timerWaitFinish hi hpc)
  · exact .kept (Option.some.inj hs ▸ hk.goto (.inl rfl) rfl trivial)
  · rename_i t i d st hpc
    refine .kept (Option.some.inj hs ▸ ?_)
    unfold timedRecheck
    split_ifs
    · exact hk.goto (.inl rfl) rfl trivial
    · have h' : Kept s (setQueue s (.mutex i) ((s.queue (.mutex i)).erase t)) := hk.congr rfl
      exact h'.goto (.inl rfl) rfl trivial
    · exact hk.goto (.inl rfl) rfl trivial
  · refine .kept (Option.some.inj hs ▸ hk.goto (.inl ?_) ?_ ?_)
    · split <;> rfl
    · split <;> rfl
    · split <;> trivial
  · rename_i t k hpc
    unfold tickLoop at hs
    dsimp only at hs
    split_ifs at hs
    · exact .kept (Option.some.inj hs ▸ hk.tickRet (by simp))
    · refine .kept (Option.some.inj hs ▸ hk.setPc (fun u o w _ hu => ?_) (fun x hx => by cases hx) trivial)
      -- the task has just read the deadline of the ticker
      cases hu
      refine ⟨fun _ hm => absurd hm (Option.some_ne_none _).symm, fun j d g he _ => ?_⟩
      cases he
      rfl
  · rename_i t n k d g hpc
    unfold tickStale at hs
    dsimp only at hs
    split_ifs at hs
    · exact .kept (Option.some.inj hs ▸ hk.goto (.inr (by rw [hpc]; rfl)) rfl trivial)
    · exact .kept (Option.some.inj hs ▸ hk.goto (.inr (by rw [hpc]; rfl)) rfl trivial)
  · rename_i t k d g st hpc
    exact moves_tickEnd h hpc hs
  · rename_i t k st hpc
    have hst := h.sound (.task t)
    rw [show s.sched.pc = s.pc from rfl, hpc] at hst
    split_ifs at hs
    exact .kept (Option.some.inj hs ▸ hk.tickRet hst)
  · rename_i t u hpc
    split_ifs at hs
    · have h' : Kept s { s with log := s.log ++ [.taskWait t u .ok] } := hk.log rfl
      exact .kept (Option.some.inj hs ▸ h'.goto (.inl rfl) rfl trivial)
    · have h' : Kept s { s with
          completionWaiters := Function.update s.completionWaiters u ((s.completionWaiters u).erase t)
          log := s.log ++ [.taskWait t u .cancelled] } := (hk.log rfl).congr rfl
      exact .kept (Option.some.inj hs ▸ h'.goto (.inl rfl) rfl trivial)
  · refine .kept (Option.some.inj hs ▸ Kept.willUnpark ?_ (.inl rfl))
    exact hk.congr rfl
  · rename_i b _ _ k interval hpc
    have hb := h.sound b
    rw [show s.sched.pc = s.pc from rfl, hpc] at hb
    refine .kept (Option.some.inj hs ▸ hk.goto (.inl ?_) ?_ ?_)
    all_goals split
    · rfl
    · rfl
    · rfl
    · rfl
    · trivial
    · exact hb
  · rename_i k interval now hpc
    unfold tickerReset at hs
    dsimp only at hs
    split_ifs at hs with h₁ h₂ h₃
    · exact .kept (Option.some.inj hs ▸ hk.goto (.inl rfl) rfl trivial)
    all_goals
      refine .reset hpc (by simpa using h₂) ((Option.some.inj hs).symm.trans ?_)
      simp only [nextGeneration, h₃, if_true, if_false]
  · rename_i k hpc
    have h' : Kept s (setTicker s k { s.ticker k with locked := false }) := hk.congr (sched_setTicker rfl)
    exact .kept (Option.some.inj hs ▸ h'.goto (.inl rfl) rfl trivial)
  · rename_i t k hpc
    exact .kept (Option.some.inj hs ▸ hk.timerCancelTaskWait hpc)
  · rename_i l k hpc
    exact .kept (Option.some.inj hs ▸ hk.unparkStep hpc)
  · refine .kept (Option.some.inj hs ▸ Kept.willUnpark ?_ (.inl rfl))
    exact hk.congr rfl
  · exact .kept (Option.some.inj hs ▸ hk.timerLoop)
  · have h' : Kept s { s with signalled := false } := hk.congr rfl
    exact .kept (Option.some.inj hs ▸ h'.goto (.inl rfl) rfl trivial)
  · cases hs

theorem Kept.enqueue {o : Obj} (h : Kept s s₁) (hr : c.round = none) (he : c.ended = none) (hn : c.sound) :
    Kept s (enqueue s₁ t o c) := by
  have h' : Kept s (setQueue { s₁ with granted := Function.update s₁.granted t false } o (s₁.queue o ++ [t])) :=
    h.congr rfl
  exact h'.goto (.inl hr) he hn

theorem Kept.mutexLock {i : Nat} (h : Kept s s₁) (hr : c.round = none) (he : c.ended = none) (hn : c.sound) :
    Kept s (mutexLock s₁ t i c) := by
  unfold Timer.mutexLock
  split
  · exact h.congr rfl
  · split_ifs
    · exact h
    · exact h.enqueue hr he hn

theorem kept_taskCall {x : Call} (h : Kept s s) (hs : taskCall s t x = some s') : Kept s s' := by
  cases x with simp only [taskCall, reduceCtorEq] at hs
  | sleepUntil d => exact Option.some.inj hs ▸ h.goto (.inl rfl) rfl trivial
  | tickerWait k =>
    split_ifs at hs
    · exact Option.some.inj hs ▸ h.log rfl
    · have h' : Kept s (setTicker s k { s.ticker k with waiter := some t }) := h.congr (sched_setTicker rfl)
      exact Option.some.inj hs ▸ h'.goto (.inl rfl) rfl trivial
  | taskWait u =>
    split_ifs at hs
    · exact Option.some.inj hs ▸ h.log rfl
    · exact Option.some.inj hs ▸ h.log rfl
    · have h' : Kept s { s with
          completionWaiters := Function.update s.completionWaiters u (t :: s.completionWaiters u) } :=
        h.congr rfl
      exact Option.some.inj hs ▸ h'.goto (.inl rfl) rfl trivial
  | lock i => exact Option.some.inj hs ▸ h.mutexLock rfl rfl trivial
  | timedlock i d =>
    split_ifs at hs
    · exact Option.some.inj hs ▸ h
    · exact Option.some.inj hs ▸ h.mutexLock rfl rfl trivial
  | unlock i =>
    refine Option.some.inj hs ▸ ?_
    unfold mutexUnlock
    split_ifs
    · exact h
    · split
      · exact h.congr rfl
      · refine Kept.willUnpark ?_ (.inl rfl)
        exact h.congr rfl
  | semaphoreWait i =>
    refine Option.some.inj hs ▸ ?_
    unfold semaphoreWait
    split_ifs
    · exact h.congr rfl
    · exact h.enqueue rfl rfl trivial
  | eventWait i =>
    refine Option.some.inj hs ▸ ?_
    unfold eventWait
    split_ifs
    · exact h
    · exact h.enqueue rfl rfl trivial
  | blockingCall => exact Option.some.inj hs ▸ h.enqueue rfl rfl trivial
  | exit =>
    have h' : Kept s { s with finished := Function.update s.finished t true, live := s.live.erase t } := h.congr rfl
    exact Option.some.inj hs ▸ h'.goto (.inl rfl) rfl trivial

theorem kept_anyCall {x : Call} (h : Kept s s) (hs : anyCall s a x = some s') : Kept s s' := by
  cases x with simp only [anyCall, reduceCtorEq] at hs
  | tickerReset k interval =>
    split_ifs at hs with hm hz
    · exact Option.some.inj hs ▸ h
    · exact Option.some.inj hs ▸ h.goto (.inl rfl) rfl (Nat.pos_of_ne_zero hz)
  | tickerStop k =>
    split_ifs at hs
    refine Option.some.inj hs ▸ Kept.cancelWaiter ?_
    exact h.congr (sched_setTicker rfl)
  | taskCancel u =>
    split_ifs at hs
    · exact Option.some.inj hs ▸ h
    · have h' : Kept s { s with cancelRequested := Function.update s.cancelRequested u true } := h.congr rfl
      exact Option.some.inj hs ▸ h'.goto (.inl rfl) rfl trivial
  | unpark u => exact Option.some.inj hs ▸ h.willUnpark (.inl rfl)
  | semaphorePost i =>
    refine Option.some.inj hs ▸ ?_
    unfold semaphorePost
    split
    · refine Kept.willUnpark ?_ (.inl rfl)
      exact h.congr rfl
    · split_ifs
      · exact h
      · exact h.congr rfl
  | eventSet i =>
    refine Option.some.inj hs ▸ Kept.willUnpark ?_ (.inl rfl)
    exact h.congr rfl
  | eventReset i => exact Option.some.inj hs ▸ h.congr rfl

theorem kept_call {x : Call} (h : Kept s s) (hs : call s a x = some s') : Kept s s' := by
  unfold call at hs
  split_ifs at hs
  split at hs
  · cases hs
  · split_ifs at hs
    rcases Option.or_eq_some_iff.mp hs with hs | ⟨-, hs⟩
    · exact kept_taskCall h hs
    · exact kept_anyCall h hs
  · split at hs
    · rename_i l _
      have h' : Kept s (setQueue s .jobs l) := h.congr rfl
      exact Option.some.inj hs ▸ h'.goto (.inl rfl) rfl trivial
    · exact kept_anyCall h hs

/-! ## Runs -/

/-- A reset does not give the ticker the generation that its waiter has read. -/
def Unrepeated (s : State) : Act → Prop
  | .next a _ => ∀ k interval now, s.pc a = .reset k interval now → ∀ t, (s.ticker k).waiter = some t →
    ∀ o d g, (s.pc (.task t)).round = some (o, .tick k d g) → nextGeneration (s.ticker k).generation ≠ g
  | _ => True

/-- The ticker `k` gets a new interval, a new deadline and a new generation, and
those that wait for it have read an older one. -/
theorem Scheduled.setTicker {k : Nat} (tk : Ticker) (h : Scheduled s.sched)
    (hn : ∀ t o d g, (s.pc (.task t)).round = some (o, .tick k d g) → tk.generation ≠ g ∨ tk.nextDeadline = d)
    (ht : 0 < tk.interval ∧ 0 < tk.nextDeadline ∧ tk.nextDeadline ≤ UINT64_MAX) :
    Scheduled (setTicker s k tk).sched := by
  have hp : ∀ j, (Timer.setTicker s k tk).sched.period j = if j = k then tk.period else (s.ticker j).period :=
    fun j => period_setTicker s k j tk
  refine ⟨fun t o w hw => ⟨(h.round t o w hw).1, fun j d g he hg => ?_⟩, h.ended, h.sound, fun j hm => ?_, h.clock⟩
  · rw [hp] at hg ⊢
    by_cases hj : j = k
    · subst hj he
      rw [if_pos rfl] at hg ⊢
      exact (hn t o d g hw).resolve_left (not_not.mpr hg)
    · rw [if_neg hj] at hg ⊢
      exact (h.round t o w hw).2 j d g he hg
  · rw [hp] at hm ⊢
    by_cases hj : j = k
    · rw [if_pos hj]
      exact ht
    · rw [if_neg hj] at hm ⊢
      exact h.ticker j hm

theorem saturatingAdd_pos {x y : Nat} (hy : 0 < y) : 0 < saturatingAdd x y ∧ saturatingAdd x y ≤ UINT64_MAX := by
  unfold saturatingAdd UINT64_MAX
  split <;> omega

/-- A ticker moves when nobody waits for it. -/
theorem Scheduled.tick {k x : Nat} (rs : List Ret) (tk : Ticker) (h : Scheduled s.sched)
    (hn : ∀ t o d g, (s.pc (.task t)).round ≠ some (o, .tick k d g)) (hm : (s.ticker k).made = true) (hx : 0 < x)
    (hle : x ≤ UINT64_MAX) (htk : tk.period = { (s.ticker k).period with nextDeadline := x }) :
    Scheduled { (Timer.setTicker s k tk).sched with ticked := rs } := by
  have hint : 0 < tk.interval ∧ 0 < tk.nextDeadline ∧ tk.nextDeadline ≤ UINT64_MAX := by
    have h₁ := congrArg Period.interval htk
    have h₂ := congrArg Period.nextDeadline htk
    simp only [Ticker.period] at h₁ h₂
    rw [h₁, h₂]
    exact ⟨(h.ticker k hm).1, hx, hle⟩
  have hs := h.setTicker tk (fun t o d g hw => absurd hw (hn t o d g)) hint
  exact ⟨hs.round, hs.ended, hs.sound, hs.ticker, hs.clock⟩

/-- What is known of a wait when it returns a count. -/
structure Ticked (s s' : State) (t k count : Nat) : Prop where
  /-- Its timer was that of the current generation, with the deadline of the ticker, and has expired. -/
  pc : s.pc (.task t) = .tickEnd k (s.ticker k).nextDeadline (s.ticker k).generation .ok
  reached : (s.ticker k).nextDeadline ≤ s.clock
  interval : 0 < (s.ticker k).interval
  value : count = 1 + (s.clock - (s.ticker k).nextDeadline) / (s.ticker k).interval
  next : (s'.ticker k).nextDeadline = min UINT64_MAX ((s.ticker k).nextDeadline + count * (s.ticker k).interval)
  later : s.clock < (s.ticker k).nextDeadline + count * (s.ticker k).interval
  /-- The 64-bit words of the computation have these values. -/
  words : ∀ max deadline now interval : UInt64, max.toNat = UINT64_MAX →
    deadline.toNat = (s.ticker k).nextDeadline → now.toNat = s.clock → interval.toNat = (s.ticker k).interval →
    (tickWords max deadline now interval).1.toNat = count ∧
    (tickWords max deadline now interval).2.toNat = (s'.ticker k).nextDeadline

/-- The ticker `k` is reset. -/
def Resets (k : Nat) (s : State) (x : Act) : Prop :=
  ∃ a e interval now, x = .next a e ∧ s.pc a = .reset k interval now ∧ (s.ticker k).stopped = false

/-- How a step of a run changes the tickers: none at all, one by a tick, one by
a reset, or one is made. -/
inductive Change (s s' : State) (x : Act) : Prop where
  | kept (period : s'.sched.period = s.sched.period) (ticked : s'.ticked = s.ticked)
  | tick (t k count : Nat) (h : Ticked s s' t k count)
      (period : ∀ j, (s'.ticker j).period =
        if j = k then { (s.ticker k).period with nextDeadline := (s'.ticker k).nextDeadline } else (s.ticker j).period)
      (log : s'.log = s.log ++ [.tick t k .ok count])
  | moved (k : Nat) (h : Resets k s x ∨ (s.ticker k).made = false)
      (period : ∀ j ≠ k, (s'.ticker j).period = (s.ticker j).period) (ticked : s'.ticked = s.ticked)

theorem waiter_of_round (hp : Places s.places) {o : Option Nat} {k d g : Nat}
    (h : (s.pc (.task t)).round = some (o, .tick k d g)) : (s.ticker k).waiter = some t :=
  (hp.waiter k t).mpr (place_of_round h)

theorem made_of_round (hp : Places s.places) {o : Option Nat} {k d g : Nat}
    (h : (s.pc (.task t)).round = some (o, .tick k d g)) : (s.ticker k).made = true :=
  hp.made k t (waiter_of_round hp h)

theorem change_tick {k d : Nat} {e : Env} (h : Scheduled s.sched) (hp : Places s.places)
    (hpc : s.pc (.task t) = .tickEnd k d (s.ticker k).generation .ok) (hclock : gtNow s e ≠ 0)
    (hs : s' = tickRet (setTicker s k { s.ticker k with nextDeadline := tickNext d (gtNow s e) (s.ticker k).interval })
      t k .ok (tickCount d (gtNow s e) (s.ticker k).interval)) (x : Act) : Scheduled s'.sched ∧ Change s s' x := by
  have hround : (s.pc (.task t)).round = some (none, .tick k d (s.ticker k).generation) := by rw [hpc]; rfl
  have hm := made_of_round hp hround
  obtain ⟨hint, hpos, hmax⟩ : 0 < (s.ticker k).interval ∧ 0 < (s.ticker k).nextDeadline ∧
    (s.ticker k).nextDeadline ≤ UINT64_MAX := h.ticker k hm
  have hd : (s.ticker k).nextDeadline = d := (h.round t none _ hround).2 k d _ rfl rfl
  subst hd
  have hle : (s.ticker k).nextDeadline ≤ s.clock := h.ended t _ (by rw [show s.sched.pc = s.pc from rfl, hpc]; rfl)
  have hnow : gtNow s e = s.clock := by
    unfold gtNow at hclock ⊢
    split
    · rfl
    · next he => exact absurd (if_neg he) hclock
  rw [hnow] at hs
  have hnext := tickNext_eq s.clock hint hmax
  have htk : (s'.ticker k).nextDeadline = tickNext (s.ticker k).nextDeadline s.clock (s.ticker k).interval := by
    subst hs
    simp [tickRet, setTicker, Timer.setPc]
  have hlog : s'.log =
      s.log ++ [.tick t k .ok (tickCount (s.ticker k).nextDeadline s.clock (s.ticker k).interval)] := by
    subst hs
    rfl
  refine ⟨?_, .tick t k _ ⟨hpc, hle, hint, tickCount_eq hle, by rw [htk, hnext], lt_tickNext hint hle, ?_⟩ (fun j => ?_)
    hlog⟩
  · -- once the task is idle, nobody waits for the ticker
    have hidle : Scheduled (Timer.setPc s (.task t) .idle).sched :=
      h.setPc (fun _ _ _ _ hw => by cases hw) (fun _ hx => by cases hx) trivial
    have hn : ∀ u o d g, ((Timer.setPc s (.task t) .idle).pc (.task u)).round ≠ some (o, .tick k d g) := by
      intro u o d g hw
      by_cases hu : u = t
      · subst hu
        simp [Timer.setPc, Pc.round] at hw
      · simp only [Timer.setPc, Function.update_of_ne
          (show Actor.task u ≠ .task t from fun he => hu (Actor.task.inj he))] at hw
        exact hu (Option.some.inj ((waiter_of_round hp hw).symm.trans (waiter_of_round hp hround)))
    have hpos' : 0 < tickNext (s.ticker k).nextDeadline s.clock (s.ticker k).interval := by
      have := lt_tickNext hint hle
      rw [hnext]
      unfold UINT64_MAX
      omega
    have := Scheduled.tick s'.ticked { s.ticker k with
      nextDeadline := tickNext (s.ticker k).nextDeadline s.clock (s.ticker k).interval } hidle hn hm hpos'
      (by rw [hnext]; exact Nat.min_le_left ..) rfl
    rw [hs, sched_tickRet, ← hs]
    exact this
  · intro max deadline now interval hmax hdl hnw hin
    have := @tickWords_spec max deadline now interval hmax (by rw [hdl]; exact hpos) (by rw [hin]; exact hint)
      (by rw [hdl, hnw]; exact hle)
    rwa [hdl, hnw, hin, ← htk] at this
  · have hp := congrFun (congrArg Sched.period (congrArg State.sched hs)) j
    rw [sched_tickRet] at hp
    rw [htk]
    exact hp.trans (period_setTicker s k j _)

theorem change_reset {k interval now : Nat} {e : Env} (h : Scheduled s.sched) (hp : Places s.places)
    (hu : Unrepeated s (.next a e)) (hpc : s.pc a = .reset k interval now) (hstop : (s.ticker k).stopped = false)
    (hs : s' = cancelWaiter (setTicker s k { s.ticker k with
      interval := interval
      nextDeadline := saturatingAdd now interval
      generation := nextGeneration (s.ticker k).generation
      locked := true }) a k) : Scheduled s'.sched ∧ Change s s' (.next a e) := by
  have hint := h.sound a
  rw [show s.sched.pc = s.pc from rfl, hpc] at hint
  have hset := h.setTicker (k := k) { s.ticker k with
      interval := interval
      nextDeadline := saturatingAdd now interval
      generation := nextGeneration (s.ticker k).generation
      locked := true }
    (fun t o d g hw => .inl (hu k interval now hpc t (waiter_of_round hp hw) o d g hw))
    ⟨hint, saturatingAdd_pos hint⟩
  have hkept := hset.kept.cancelWaiter (a := a) (k := k)
  rw [← hs] at hkept
  refine ⟨hkept.scheduled, .moved k (.inl ⟨a, e, interval, now, rfl, hpc, hstop⟩) (fun j hj => ?_) hkept.ticked⟩
  have := congrFun hkept.period j
  exact this.trans ((period_setTicker s k j _).trans (if_neg hj))

theorem change_step {x : Act} (h : Scheduled s.sched) (hi : Inv s.view) (hp : Places s.places) (hu : Unrepeated s x)
    (hs : step s x = some s') : Scheduled s'.sched ∧ Change s s' x := by
  have hkept : Kept s s' → Scheduled s'.sched ∧ Change s s' x := fun hk => ⟨hk.scheduled, .kept hk.period hk.ticked⟩
  cases x with simp only [step] at hs
  | clock c =>
    split_ifs at hs with hc
    refine hkept (Option.some.inj hs ▸ ⟨?_, rfl, rfl⟩)
    have hle : s.clock ≤ c := hc.1
    have hpos : 0 < s.clock := h.clock.1
    exact ⟨h.round, fun t d hd => Nat.le_trans (h.ended t d hd) hle, h.sound, h.ticker, Nat.lt_of_lt_of_le hpos hle,
      hc.2⟩
  | spawn t =>
    split_ifs at hs
    exact hkept (Option.some.inj hs ▸ h.kept.congr rfl)
  | tickerNew k interval e =>
    split_ifs at hs with hn
    simp only [not_or, Bool.not_eq_true] at hn
    have hint := Nat.pos_of_ne_zero hn.2.1
    obtain rfl := Option.some.inj hs
    refine ⟨h.setTicker _ (fun t o d g hw => ?_) ⟨hint, saturatingAdd_pos hint⟩, .moved k (.inr hn.1)
      (fun j hj => ?_) rfl⟩
    · have hm := made_of_round hp hw
      rw [hn.1] at hm
      cases hm
    · exact (period_setTicker s k j _).trans (if_neg hj)
  | call a c => exact hkept (kept_call h.kept hs)
  | next a e =>
    cases moves_next h hi hs with
    | kept hk => exact hkept hk
    | tick hpc hclock hs => exact change_tick h hp hpc hclock hs _
    | reset hpc hstop hs => exact change_reset h hp hu hpc hstop hs
  | requestStop => exact hkept (Option.some.inj hs ▸ (h.kept.congr rfl).congr (sched_signal _))

theorem scheduled_of_reachBy (h : machine.ReachBy Unrepeated s) : Scheduled s.sched :=
  h.invariant (I := fun s => Scheduled s.sched) (fun _ h => h ▸ scheduled_initial) fun _ _ _ hr h hc hs =>
    (change_step h (inv_of_reach hr.reach) (places_of_reach hr.reach) hc hs).1

/-- The ticks of ticker `k` that a call has reported. -/
def Ret.ticks (k : Nat) : Ret → Nat
  | .tick _ k' .ok count => if k' = k then count else 0
  | _ => 0

/-- All the ticks of ticker `k` that were reported. -/
def ticks (s : State) (k : Nat) : Nat := (s.log.map (Ret.ticks k)).sum

theorem ticks_eq (s : State) (k : Nat) : ticks s k = (s.ticked.map (Ret.ticks k)).sum := by
  unfold ticks State.ticked
  induction s.log with
  | nil => rfl
  | cons r l ih =>
    rw [List.map_cons, List.sum_cons, ih]
    by_cases hr : r.ticked = true
    · rw [List.filter_cons_of_pos hr, List.map_cons, List.sum_cons]
    · have hz : r.ticks k = 0 := by
        unfold Ret.ticks
        split
        · exact absurd rfl hr
        · rfl
      rw [List.filter_cons_of_neg hr, hz, Nat.zero_add]

/-- Ticker `k` has the same interval and generation, and its deadline has moved
by an interval for each of `n` ticks reported. -/
structure Advanced (k n : Nat) (s s' : State) : Prop where
  made : (s'.ticker k).made = (s.ticker k).made
  interval : (s'.ticker k).interval = (s.ticker k).interval
  generation : (s'.ticker k).generation = (s.ticker k).generation
  next : (s'.ticker k).nextDeadline = min UINT64_MAX ((s.ticker k).nextDeadline + n * (s.ticker k).interval)
  reported : ticks s' k = ticks s k + n

theorem Advanced.trans {k n m : Nat} (h : Advanced k n s s₁) (h' : Advanced k m s₁ s') : Advanced k (n + m) s s' where
  made := h'.made.trans h.made
  interval := h'.interval.trans h.interval
  generation := h'.generation.trans h.generation
  next := by
    rw [h'.next, h.next, h.interval, Nat.add_mul]
    omega
  reported := by rw [h'.reported, h.reported, Nat.add_assoc]

theorem Advanced.refl (h : Scheduled s.sched) {k : Nat} (hm : (s.ticker k).made = true) : Advanced k 0 s s := by
  have hle : (s.ticker k).nextDeadline ≤ UINT64_MAX := (h.ticker k hm).2.2
  exact ⟨rfl, rfl, rfl, by omega, rfl⟩

/-- A step that does not change what the ticker is due. -/
theorem Advanced.of_period (h : Scheduled s.sched) {k : Nat} (hm : (s.ticker k).made = true)
    (hp : (s'.ticker k).period = (s.ticker k).period) (ht : ticks s' k = ticks s k) : Advanced k 0 s s' := by
  obtain ⟨h₁, h₂, h₃, h₄⟩ := Period.mk.inj hp
  have hle : (s.ticker k).nextDeadline ≤ UINT64_MAX := (h.ticker k hm).2.2
  exact ⟨h₁, h₂, h₄, by omega, ht⟩

theorem Change.advanced {x : Act} (hc : Change s s' x) (h : Scheduled s.sched) {k : Nat} (hm : (s.ticker k).made = true)
    (hr : ¬ Resets k s x) : ∃ n, Advanced k n s s' := by
  cases hc with
  | kept period ticked =>
    exact ⟨0, .of_period h hm (congrFun period k) (by rw [ticks_eq, ticked, ← ticks_eq])⟩
  | tick t j count ht period log =>
    have hlog : ticks s' k = ticks s k + if j = k then count else 0 := by
      simp [ticks, log, Ret.ticks]
    by_cases hj : k = j
    · subst hj
      have hp := period k
      rw [if_pos rfl] at hp
      rw [if_pos rfl] at hlog
      obtain ⟨h₁, h₂, -, h₄⟩ := Period.mk.inj hp
      exact ⟨count, h₁, h₂, h₄, ht.next, hlog⟩
    · have hp := period k
      rw [if_neg hj] at hp
      rw [if_neg (Ne.symm hj)] at hlog
      exact ⟨0, .of_period h hm hp hlog⟩
  | moved j hj period ticked =>
    have hne : k ≠ j := by
      rintro rfl
      rcases hj with hj | hj
      · exact hr hj
      · rw [hm] at hj
        cases hj
    exact ⟨0, .of_period h hm (period k hne) (by rw [ticks_eq, ticked, ← ticks_eq])⟩

/-- Every wait that returns a count has seen the clock reach the deadline of
its ticker and has moved that deadline on by the count; and in any steps
without a reset the deadline moves by an interval for each tick reported, up to
the maximum. -/
structure NoDrift (s : State) : Prop where
  tick : ∀ x s' t k count, Unrepeated s x → step s x = some s' → s'.log = s.log ++ [.tick t k .ok count] →
    Ticked s s' t k count
  sum : ∀ k s', (s.ticker k).made = true → machine.StepsBy (fun s x => Unrepeated s x ∧ ¬ Resets k s x) s s' →
    ∃ n, Advanced k n s s'

theorem noDrift_of_reachBy (h : machine.ReachBy Unrepeated s) : NoDrift s := by
  constructor
  case tick =>
    intro x s' t k count hu hs hlog
    have hne : s'.ticked ≠ s.ticked := by
      simp [State.ticked, hlog, Ret.ticked]
    obtain ⟨-, hc⟩ := change_step (scheduled_of_reachBy h) (inv_of_reach h.reach) (places_of_reach h.reach) hu hs
    cases hc with
    | kept _ ticked => exact absurd ticked hne
    | tick t' k' count' ht _ log =>
      have he := List.append_cancel_left (hlog.symm.trans log)
      cases he
      exact ht
    | moved _ _ _ ticked => exact absurd ticked hne
  case sum =>
    intro k s' hm hr
    have hrun : machine.ReachBy Unrepeated s' ∧ ∃ n, Advanced k n s s' := by
      induction hr with
      | refl => exact ⟨h, 0, .refl (scheduled_of_reachBy h) hm⟩
      | step _ hc hs ih =>
        obtain ⟨hr, n, hn⟩ := ih
        have hsched := scheduled_of_reachBy hr
        obtain ⟨-, hch⟩ := change_step hsched (inv_of_reach hr.reach) (places_of_reach hr.reach) hc.1 hs
        obtain ⟨m, hm'⟩ := hch.advanced hsched (hn.made.trans hm) hc.2
        exact ⟨hr.step hc.1 hs, n + m, hn.trans hm'⟩
    exact hrun.2

/-- `Unrepeated`, as a test. -/
def unrepeated (s : State) : Act → Bool
  | .next a _ =>
    match s.pc a with
    | .reset k _ _ =>
      match (s.ticker k).waiter with
      | none => true
      | some t =>
        match (s.pc (.task t)).round with
        | some (_, .tick _ _ g) => decide (nextGeneration (s.ticker k).generation ≠ g)
        | _ => true
    | _ => true
  | _ => true

theorem unrepeated_of {x : Act} (h : unrepeated s x = true) : Unrepeated s x := by
  cases x with
  | next a e =>
    intro k interval now hpc t hw o d g hr
    simpa [unrepeated, hpc, hw, hr] using h
  | _ => trivial

theorem noDrift_of_reachBy_reset : ∃ s, machine.ReachBy Unrepeated s ∧ NoDrift s ∧ s.log = [.tick 1 0 .ok 1] ∧
    (s.ticker 0).generation = 2 := by
  obtain ⟨s, hr, hp⟩ := Machine.exists_reachBy_of_run (M := machine) (C := Unrepeated) (c := unrepeated)
    (fun _ _ => unrepeated_of) (s := State.initial) (l := resetRun)
    (p := fun s => decide (s.log = [.tick 1 0 .ok 1] ∧ (s.ticker 0).generation = 2)) rfl (by decide +kernel)
  exact ⟨s, hr, noDrift_of_reachBy hr, of_decide_eq_true hp⟩

/-! ## A generation that comes back -/

theorem nextGeneration_eq {g : Nat} (hg : 0 < g) (hlt : g < 2 ^ 64) : nextGeneration g = g % (2 ^ 64 - 1) + 1 := by
  unfold nextGeneration
  rcases Nat.lt_or_ge (g + 1) (2 ^ 64) with h | h
  · rw [Nat.mod_eq_of_lt h, Nat.mod_eq_of_lt (by omega), if_neg (Nat.succ_ne_zero g)]
  · obtain rfl : g = 2 ^ 64 - 1 := by omega
    decide

/-- It takes `2^64 - 1` resets to come back to a generation. -/
theorem nextGeneration_iterate {g : Nat} (hg : 0 < g) (hlt : g < 2 ^ 64) (n : Nat) :
    nextGeneration^[n] g = (g - 1 + n) % (2 ^ 64 - 1) + 1 := by
  induction n with
  | zero =>
    rw [Function.iterate_zero_apply, Nat.add_zero, Nat.mod_eq_of_lt (by omega)]
    omega
  | succ n ih =>
    rw [Function.iterate_succ_apply', ih, nextGeneration_eq (by omega) (by omega)]
    omega

/-- The timer of task 1 at ticker 0 has expired; the task is about to look at
the generation, while thread 0 resets the ticker. -/
structure Expired (c : Pc) (locked : Bool) (s : State) : Prop where
  reach : machine.Reach s
  ext : s.pc (.ext 0) = c
  task : s.pc (.task 1) = .tickEnd 0 6 1 .ok
  node : s.timerNode 1 = none
  clock : s.clock = 6
  made : (s.ticker 0).made = true
  locked : (s.ticker 0).locked = locked
  stopped : (s.ticker 0).stopped = false
  waiter : (s.ticker 0).waiter = some 1

theorem exists_expired : ∃ s, Expired .idle false s ∧ (s.ticker 0).generation = 1 := by
  obtain ⟨s, hr, hp⟩ := Machine.exists_reach_of_run (M := machine) (s := State.initial)
    (l := [.spawn 1, .tickerNew 0 5 ⟨true, none, true⟩, .call (.task 1) (.tickerWait 0),
      .next (.task 1) ⟨true, none, true⟩,
      .next (.task 1) ⟨true, some 10, true⟩, .next (.task 1) ⟨true, none, true⟩, .next (.task 1) ⟨true, none, true⟩,
      .clock 6, .next .timer ⟨true, none, true⟩, .next .timer ⟨true, none, true⟩, .next (.task 1) ⟨true, none, true⟩])
    (p := fun s => decide (s.pc (.ext 0) = .idle ∧ s.pc (.task 1) = .tickEnd 0 6 1 .ok ∧ s.timerNode 1 = none ∧
      s.clock = 6 ∧ (s.ticker 0).made = true ∧ (s.ticker 0).locked = false ∧ (s.ticker 0).stopped = false ∧
      (s.ticker 0).waiter = some 1 ∧ (s.ticker 0).generation = 1)) rfl (by decide +kernel)
  obtain ⟨h₁, h₂, h₃, h₄, h₅, h₆, h₇, h₈, h₉⟩ := of_decide_eq_true hp
  exact ⟨s, ⟨hr, h₁, h₂, h₃, h₄, h₅, h₆, h₇, h₈⟩, h₉⟩

/-- Thread 0 goes on, and may lock or unlock the mutex. -/
theorem Expired.move {c : Pc} {l : Bool} (h : Expired c l s) {x : Act} (c' : Pc) (l' : Bool)
    (interval next generation : Nat) (hs : machine.step s x =
      some (setPc (setTicker s 0 ⟨true, interval, next, generation, false, some 1, l'⟩) (.ext 0) c')) :
    ∃ s', Expired c' l' s' ∧ (s'.ticker 0).nextDeadline = next ∧ (s'.ticker 0).generation = generation := by
  have htk : (setPc (setTicker s 0 ⟨true, interval, next, generation, false, some 1, l'⟩) (.ext 0) c').ticker 0 =
      ⟨true, interval, next, generation, false, some 1, l'⟩ := by simp [setPc, setTicker]
  refine ⟨_, ⟨h.reach.step hs, by simp [setPc], ?_, h.node, h.clock, ?_, ?_, ?_, ?_⟩, ?_, ?_⟩
  · rw [← h.task]
    simp [setPc, setTicker]
  all_goals rw [htk]

/-- The ticker stays as it is. -/
theorem Expired.goto {c : Pc} {l : Bool} (h : Expired c l s) {x : Act} (c' : Pc)
    (hs : machine.step s x = some (setPc s (.ext 0) c')) : ∃ s', Expired c' l s' ∧
      (s'.ticker 0).nextDeadline = (s.ticker 0).nextDeadline ∧
      (s'.ticker 0).generation = (s.ticker 0).generation := by
  refine ⟨_, ⟨h.reach.step hs, by simp [setPc], ?_, h.node, h.clock, h.made, h.locked, h.stopped, h.waiter⟩, rfl, rfl⟩
  rw [← h.task]
  simp [setPc]

/-- A whole call of `dlsm_gt_ticker_reset` by thread 0. -/
theorem Expired.reset (h : Expired .idle false s) : ∃ s', Expired .idle false s' ∧
    (s'.ticker 0).generation = nextGeneration (s.ticker 0).generation ∧ (s'.ticker 0).nextDeadline = 11 := by
  obtain ⟨s₁, h₁, -, hg₁⟩ := h.goto (x := .call (.ext 0) (.tickerReset 0 5)) (.resetClock 0 5)
    (by simp [machine, step, call, h.ext, anyCall, h.made])
  obtain ⟨s₂, h₂, -, hg₂⟩ := h₁.goto (x := .next (.ext 0) ⟨true, none, true⟩) (.reset 0 5 6)
    (by simp [machine, step, next, h₁.ext, gtNow, h₁.clock])
  obtain ⟨s₃, h₃, hd₃, hg₃⟩ := h₂.move (x := .next (.ext 0) ⟨true, none, true⟩) (.cancelTimer 1 (.unlock 0)) true 5 11
    (nextGeneration (s₂.ticker 0).generation) (by
      have hsat : saturatingAdd 6 5 = 11 := by decide
      simp only [machine, step, next, h₂.ext, tickerReset, h₂.locked, h₂.stopped, hsat, nextGeneration,
        Bool.false_eq_true, if_false]
      simp [cancelWaiter, setTicker, h₂.waiter, h₂.made])
  obtain ⟨s₄, h₄, hd₄, hg₄⟩ := h₃.goto (x := .next (.ext 0) ⟨true, none, true⟩) (.unlockTicker 0)
    (by simp [machine, step, next, h₃.ext, timerCancelTaskWait, h₃.node, After.pc])
  obtain ⟨s₅, h₅, hd₅, hg₅⟩ := h₄.move (x := .next (.ext 0) ⟨true, none, true⟩) .idle false (s₄.ticker 0).interval
    (s₄.ticker 0).nextDeadline (s₄.ticker 0).generation
    (by simp [machine, step, next, h₄.ext, h₄.stopped, h₄.waiter, h₄.made])
  exact ⟨s₅, h₅, by rw [hg₅, hg₄, hg₃, hg₂, hg₁], by rw [hd₅, hd₄, hd₃]⟩

theorem Expired.resets (h : Expired .idle false s) (n : Nat) : ∃ s', Expired .idle false s' ∧
    (s'.ticker 0).generation = nextGeneration^[n + 1] (s.ticker 0).generation ∧ (s'.ticker 0).nextDeadline = 11 := by
  induction n with
  | zero => exact h.reset
  | succ n ih =>
    obtain ⟨s₁, h₁, hg, -⟩ := ih
    obtain ⟨s₂, h₂, hg', hd⟩ := h₁.reset
    exact ⟨s₂, h₂, by rw [hg', hg, Function.iterate_succ_apply' nextGeneration (n + 1)], hd⟩

/-- After `2^64 - 1` resets the expiry of the first generation completes a wait,
before the clock has reached the deadline of the ticker. -/
theorem exists_early : ∃ s s' x t k count, machine.Reach s ∧ step s x = some s' ∧
    s'.log = s.log ++ [.tick t k .ok count] ∧ s.clock < (s.ticker k).nextDeadline := by
  obtain ⟨s₀, h₀, hg₀⟩ := exists_expired
  obtain ⟨n, hn⟩ : ∃ n, n + 1 = 2 ^ 64 - 1 := ⟨2 ^ 64 - 2, by decide⟩
  obtain ⟨s, h, hg, hd⟩ := h₀.resets n
  have hgen : (s.ticker 0).generation = 1 := by
    rw [hg, hg₀, nextGeneration_iterate (by omega) (by omega), hn]
    decide
  have hs : ∃ s', step s (.next (.task 1) ⟨true, none, true⟩) = some s' ∧ s'.log = s.log ++ [.tick 1 0 .ok 1] := by
    simp [step, next, h.task, tickEnd, h.locked, h.stopped, hgen, gtNow, h.clock, tickRet, setPc, setTicker]
  obtain ⟨s', hs, hlog⟩ := hs
  exact ⟨s, s', _, 1, 0, 1, h.reach, hs, hlog, by rw [h.clock, hd]; decide⟩

end Dlsmc.Timer
