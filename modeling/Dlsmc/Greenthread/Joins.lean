import Mathlib.Tactic.SplitIfs
import Dlsmc.Greenthread.Threads

/-!
# Every thread is joined once

The joins of a runtime are made by one caller, which knows from where it
stands which threads have been joined (`Stage`). This holds as long as no VP
fails to sleep while a caller of `dlsm_gt_wait` is joining, and nobody calls
`dlsm_gt_wait` while a `dlsm_gt_start` that failed is joining what it created:
both make a second caller join the same threads.
-/

namespace Dlsmc.Threads

open Dlsmc.Runtime (RtState)

/-- The order of the states of a runtime. -/
def rank : RtState → Nat
  | .created => 0
  | .running => 1
  | .stopping => 2
  | .joining => 3
  | .stopped => 4

def Op.join? : Op → Option (Join × Bool)
  | .join j _ check => some (j, check)
  | _ => none

/-- Where the joins stand that are left of a call, and whether they look at
`timer_started`. -/
def joinOf (l : List Op) : Option (Join × Bool) := l.findSome? Op.join?

/-- `dlsm_gt_vp_idle_sleep` does not fail while a caller of `dlsm_gt_wait` is
joining, and `dlsm_gt_wait` is not called while a `dlsm_gt_start` that failed is. -/
def undisturbed (s : State) : Act → Bool
  | .sleepFail _ => s.rtState != .joining
  | .op a _ =>
    match s.ops a with
    | .wait :: _ => !s.failing
    | _ => true
  | _ => true

/-- The part of the state the argument is about. -/
structure View where
  rtState : RtState
  failing : Bool
  nvp : Nat
  startedVps : Nat
  blockingStarted : Nat
  timerStarted : Bool
  created : Thread → Bool
  exited : Thread → Bool
  joined : Thread → Nat
  join : Actor → Option (Join × Bool)

def State.view (s : State) : View where
  rtState := s.rtState
  failing := s.failing
  nvp := s.nvp
  startedVps := s.startedVps
  blockingStarted := s.blockingStarted
  timerStarted := s.timerStarted
  created := s.created
  exited := s.exited
  joined := s.joined
  join := fun a => joinOf (s.ops a)

/-- How often a thread that was created has been joined, for joins at `j`. -/
def Join.past : Join → Thread → Nat
  | .vp _ i, .vp k | .blocking i, .blocking k => if k < i then 1 else 0
  | .blocking _, .vp _ | .timer, .vp _ | .timer, .blocking _ | .ended, _ => 1
  | _, _ => 0

/-- The joins stand at `j`. -/
structure Stage (v : View) (j : Join) (check : Bool) : Prop where
  joined : ∀ th, v.joined th = if v.created th = true then j.past th else 0
  blocking : ∀ i, j.past (.blocking i) = 0 → v.created (.blocking i) = true → i < v.blockingStarted
  blockingStarted : ∀ i, i < v.blockingStarted → v.created (.blocking i) = true
  timer : j ≠ .ended → v.created .timer = v.timerStarted
  vp : ∀ n i, j = .vp n i → n = v.startedVps
  check : check = false → v.created .timer = true

structure Inv (v : View) : Prop where
  vps : ∀ i, v.created (.vp i) = true ↔ i < v.startedVps
  running : v.rtState = .running → v.startedVps = v.nvp
  fresh : v.rtState = .created → ∀ th, v.created th = false
  exited : ∀ th, v.joined th ≠ 0 → v.exited th = true
  stage : ∀ a j c, v.join a = some (j, c) →
    Stage v j c ∧ (v.rtState = .joining ∨ v.rtState = .stopping ∧ v.failing = true)
  one : ∀ a b, v.join a ≠ none → v.join b ≠ none → a = b
  before : v.rtState = .created ∨ v.rtState = .running ∨ v.rtState = .stopping ∧ v.failing = false → Stage v .load true
  after : v.rtState = .stopped → Stage v .ended true
  atMost : ∀ th, v.joined th ≤ 1

theorem inv_initial (nvp n : Nat) : Inv (State.initial nvp n).view := by
  constructor <;> simp [State.initial, State.view, joinOf]
  constructor <;> simp

section Steps

variable {v v' : View} {a : Actor} {j : Join} {c : Bool} {th : Thread}

attribute [local grind =] Function.update_apply
attribute [local grind] Join.past

theorem Stage.congr (h : Stage v j c)
    (he : v'.joined = v.joined ∧ v'.created = v.created ∧ v'.blockingStarted = v.blockingStarted ∧
      v'.timerStarted = v.timerStarted ∧ v'.startedVps = v.startedVps) : Stage v' j c := by
  obtain ⟨hj, hc, hb, ht, hv⟩ := he
  exact {
    joined := by simpa only [hj, hc] using h.joined
    blocking := by simpa only [hc, hb] using h.blocking
    blockingStarted := by simpa only [hc, hb] using h.blockingStarted
    timer := by simpa only [hc, ht] using h.timer
    vp := by simpa only [hv] using h.vp
    check := by simpa only [hc] using h.check }

theorem Stage.joined_le (h : Stage v j c) (th : Thread) : v.joined th ≤ 1 := by
  rw [h.joined th]
  cases j <;> cases th <;> simp only [Join.past] <;> split_ifs <;> decide

/-- Where nobody joins. -/
theorem Inv.join_none (h : Inv v) (hj : v.rtState ≠ .joining) (hf : v.rtState = .stopping → v.failing = false)
    (a : Actor) : v.join a = none := by
  cases ha : v.join a with
  | none => rfl
  | some x =>
    rcases (h.stage a x.1 x.2 ha).2 with h' | ⟨h', hx⟩
    · exact absurd h' hj
    · simp [hf h'] at hx

/-- A thread exits. -/
theorem Inv.exits (h : Inv v) (th : Thread) : Inv { v with exited := Function.update v.exited th true } := by
  exact { h with
    exited := fun th' hj => by
      have := h.exited th' hj
      grind -linarith
    stage := fun a j c hj => by
      obtain ⟨hs, hr⟩ := h.stage a j c hj
      exact ⟨hs.congr ⟨rfl, rfl, rfl, rfl, rfl⟩, hr⟩
    before := fun hb => (h.before hb).congr ⟨rfl, rfl, rfl, rfl, rfl⟩
    after := fun hb => (h.after hb).congr ⟨rfl, rfl, rfl, rfl, rfl⟩ }

/-- Where no thread was created, the joins are over. -/
theorem Stage.ended_of_fresh (h : Stage v j c) (hc : ∀ th, v.created th = false) : Stage v .ended true where
  joined th := by simpa [hc th] using h.joined th
  blocking i _ hi := by simp [hc] at hi
  blockingStarted := h.blockingStarted
  timer := by simp
  vp := by simp
  check := by simp

/-- The runtime stops before its start, or is asked to stop. -/
theorem Inv.advance (h : Inv v) {r : RtState}
    (hr : v.rtState = .created ∧ r = .stopped ∨ (v.rtState = .created ∨ v.rtState = .running) ∧ r = .stopping) :
    Inv { v with rtState := r } := by
  have hold : v.rtState = .created ∨ v.rtState = .running := by
    rcases hr with ⟨hr, -⟩ | ⟨hr, -⟩
    · exact .inl hr
    · exact hr
  have hnew : r = .stopped ∧ v.rtState = .created ∨ r = .stopping := by
    rcases hr with ⟨hr, hr'⟩ | ⟨-, hr'⟩
    · exact .inl ⟨hr', hr⟩
    · exact .inr hr'
  have hnone := h.join_none (by rcases hold with e | e <;> simp [e]) (by rcases hold with e | e <;> simp [e])
  have hload : Stage v .load true := h.before (hold.imp id .inl)
  exact { h with
    running := fun e => by rcases hnew with ⟨e', -⟩ | e' <;> simp [e'] at e
    fresh := fun e => by rcases hnew with ⟨e', -⟩ | e' <;> simp [e'] at e
    stage := fun a j c hj => by simp [hnone a] at hj
    before := fun _ => hload.congr ⟨rfl, rfl, rfl, rfl, rfl⟩
    after := fun e => by
      have hc : v.rtState = .created := by
        rcases hnew with ⟨-, hc⟩ | e'
        · exact hc
        · simp [e'] at e
      exact (hload.ended_of_fresh (h.fresh hc)).congr ⟨rfl, rfl, rfl, rfl, rfl⟩ }

/-- `dlsm_gt_wait` begins to join. -/
theorem Inv.wait (h : Inv v) (hr : v.rtState = .running ∨ v.rtState = .stopping ∧ v.failing = false) :
    Inv { v with rtState := .joining, join := Function.update v.join a (some (.load, true)) } := by
  have hnone : ∀ b, v.join b = none := h.join_none (by rcases hr with e | ⟨e, -⟩ <;> simp [e]) (by
    rcases hr with e | ⟨-, hf⟩
    · simp [e]
    · exact fun _ => hf)
  have hload : Stage v .load true := h.before (.inr hr)
  -- the joins of `a` are the only ones
  have honly : ∀ b, Function.update v.join a (some (.load, true)) b ≠ none → b = a := fun b hb => by
    by_contra e
    simp [e, hnone b] at hb
  exact { h with
    running := by simp
    fresh := by simp
    stage := fun b j c hj => by
      obtain rfl : b = a := honly b (by simpa using fun e => Option.some_ne_none _ (hj.symm.trans e))
      obtain ⟨rfl, rfl⟩ : j = .load ∧ c = true := by
        simpa [Eq.comm] using hj
      exact ⟨hload.congr ⟨rfl, rfl, rfl, rfl, rfl⟩, .inl rfl⟩
    one := fun b b' hb hb' => (honly b hb).trans (honly b' hb').symm
    before := by simp
    after := by simp }

/-- The joins of `a` go on; `hx` says that only threads that exited were joined. -/
theorem Inv.joining (h : Inv v) (ha : v.join a = some (j, c)) {j' : Join} {n : Nat} {b : Bool} {f : Thread → Nat}
    (hv' : v' = { v with
      blockingStarted := n
      timerStarted := b
      joined := f
      join := Function.update v.join a (some (j', c)) })
    (hx : ∀ th, f th ≠ 0 → v.exited th = true) (hs : Stage v' j' c) : Inv v' := by
  obtain ⟨-, hst⟩ := h.stage a j c ha
  have hle : ∀ th, v'.joined th ≤ 1 := hs.joined_le
  have honly : ∀ b, v'.join b ≠ none → b = a := fun b hb => by
    by_contra e
    refine e (h.one b a ?_ (by simp [ha]))
    simpa [hv', e] using hb
  -- the runtime is joining, or a start has failed
  have hnb : ¬ (v.rtState = .created ∨ v.rtState = .running ∨ v.rtState = .stopping ∧ v.failing = false) := by
    rcases hst with e | ⟨e, hf⟩
    · simp [e]
    · simp [e, hf]
  have hna : v.rtState ≠ .stopped := by
    rcases hst with e | ⟨e, -⟩ <;> simp [e]
  have hstage : ∀ b j'' c'', v'.join b = some (j'', c'') → Stage v' j'' c'' := by
    intro b j'' c'' hb
    obtain rfl := honly b (by simp [hb])
    obtain ⟨rfl, rfl⟩ : j' = j'' ∧ c = c'' := by simpa [hv'] using hb
    exact hs
  have hst' : v'.rtState = .joining ∨ v'.rtState = .stopping ∧ v'.failing = true := by
    rw [hv']
    exact hst
  subst hv'
  exact { h with
    exited := hx
    stage := fun b j'' c'' hb => ⟨hstage b j'' c'' hb, hst'⟩
    one := fun b b' hb hb' => (honly b hb).trans (honly b' hb').symm
    before := fun hb => absurd hb hnb
    after := fun hb => absurd hb hna
    atMost := hle }

/-- The joins go on without a join. -/
theorem Inv.next (h : Inv v) (ha : v.join a = some (j, c)) {j' : Join} {n : Nat}
    (hv' : v' = { v with blockingStarted := n, join := Function.update v.join a (some (j', c)) })
    (hs : Stage v' j' c) : Inv v' :=
  h.joining ha hv' h.exited hs

/-- A thread that has exited is joined. -/
theorem Inv.joins (h : Inv v) (ha : v.join a = some (j, c)) {j' : Join} {b : Bool} (hx : v.exited th = true)
    (hv' : v' = { v with
      timerStarted := b
      joined := Function.update v.joined th (v.joined th + 1)
      join := Function.update v.join a (some (j', c)) })
    (hs : Stage v' j' c) : Inv v' := by
  refine h.joining ha hv' (fun th' hth => ?_) hs
  rcases eq_or_ne th' th with rfl | e
  · exact hx
  · exact h.exited th' (by simpa [e] using hth)

/-- The joins end. -/
theorem Inv.ends (h : Inv v) (ha : v.join a = some (.ended, c)) :
    Inv { v with rtState := .stopped, failing := false, join := Function.update v.join a none } := by
  obtain ⟨hs, -⟩ := h.stage a _ c ha
  have hnone : ∀ b, Function.update v.join a none b = none := fun b => by
    rcases eq_or_ne b a with rfl | e
    · simp
    · by_contra hb
      exact e (h.one b a (by simpa [e] using hb) (by simp [ha]))
  exact { h with
    running := by simp
    fresh := by simp
    stage := fun b j c hb => by simp [hnone b] at hb
    one := fun b b' hb => absurd (hnone b) hb
    before := by simp
    after := fun _ => { hs with
      joined := hs.joined
      timer := by simp
      vp := by simp
      check := by simp } }

/-! ## From one place of the joins to the next -/

theorem Stage.load (h : Stage v .load c) {f : Actor → Option (Join × Bool)} :
    Stage { v with join := f } (.vp v.startedVps 0) c :=
  { h with
    joined := fun th => by
      rw [h.joined th]
      cases th <;> rfl
    timer := fun _ => h.timer (by simp)
    vp := by simp }

theorem Stage.vp_next {n i : Nat} (h : Stage v (.vp n i) c) (hi : v.created (.vp i) = true)
    {f : Actor → Option (Join × Bool)} :
    Stage { v with
      joined := Function.update v.joined (.vp i) (v.joined (.vp i) + 1)
      join := f } (.vp n (i + 1)) c :=
  { h with
    joined := fun th => by
      have := h.joined th
      cases th <;> grind -linarith
    timer := fun _ => h.timer (by simp)
    vp := fun m k hk => by
      cases hk
      exact h.vp n i rfl }

theorem Stage.vp_last {n i : Nat} (h : Stage v (.vp n i) c) (hv : ∀ i, v.created (.vp i) = true → i < v.startedVps)
    (hi : ¬ i < n) {f : Actor → Option (Join × Bool)} : Stage { v with join := f } (.blocking 0) c := by
  have hn : n = v.startedVps := h.vp n i rfl
  exact { h with
    joined := fun th => by
      have := h.joined th
      cases th with
      | vp k =>
        have := hv k
        grind -linarith
      | timer | blocking => exact this
    blocking := fun i _ => h.blocking i rfl
    timer := fun _ => h.timer (by simp)
    vp := by simp }

theorem Stage.blocking_next {i : Nat} (h : Stage v (.blocking i) c) (hi : i < v.blockingStarted)
    {f : Actor → Option (Join × Bool)} :
    Stage { v with joined := Function.update v.joined (.blocking i) (v.joined (.blocking i) + 1), join := f }
      (.blocking (i + 1)) c :=
  { h with
    joined := fun th => by
      have := h.joined th
      have := h.blockingStarted i hi
      cases th <;> grind -linarith
    blocking := fun k hk => h.blocking k (by grind -linarith)
    timer := fun _ => h.timer (by simp)
    vp := by simp }

theorem Stage.blocking_last {i : Nat} (h : Stage v (.blocking i) c) (hi : ¬ i < v.blockingStarted)
    {f : Actor → Option (Join × Bool)} : Stage { v with blockingStarted := 0, join := f } .timer c :=
  { h with
    joined := fun th => by
      have := h.joined th
      cases th with
      | blocking k =>
        have := h.blocking k
        grind -linarith
      | timer | vp => exact this
    blocking := fun k hk => by simp [Join.past] at hk
    blockingStarted := by simp
    timer := fun _ => h.timer (by simp)
    vp := by simp }

theorem Stage.timer_next (h : Stage v .timer c) (hc : v.created .timer = true) {f : Actor → Option (Join × Bool)} :
    Stage { v with
      timerStarted := false
      joined := Function.update v.joined .timer (v.joined .timer + 1)
      join := f } .ended c :=
  { h with
    joined := fun th => by
      have := h.joined th
      cases th <;> grind -linarith
    blocking := fun k hk => by simp [Join.past] at hk
    timer := by simp
    vp := by simp }

theorem Stage.timer_none (h : Stage v .timer c) (hc : v.timerStarted = false) {f : Actor → Option (Join × Bool)} :
    Stage { v with join := f } .ended c :=
  { h with
    joined := fun th => by
      have := h.joined th
      have := h.timer (by simp)
      cases th <;> grind -linarith
    blocking := fun k hk => by simp [Join.past] at hk
    timer := by simp
    vp := by simp }

/-! ## The threads of `dlsm_gt_start` and `dlsm_gt_runtime_add_vp` -/

/-- The view after `dlsm_gt_start` has created the timer, `n` threads of the
blocking pool and `m` VPs. -/
def View.spawned (v : View) (n m : Nat) (r : RtState) (failing : Bool) (f : Actor → Option (Join × Bool)) : View :=
  { v with
    rtState := r
    failing := failing
    timerStarted := true
    blockingStarted := n
    startedVps := m
    created := fun
      | .timer => true
      | .blocking i => decide (i < n)
      | .vp i => decide (i < m)
    join := f }

theorem Inv.joined_eq_zero (h : Inv v) (hr : v.rtState = .created) (th : Thread) : v.joined th = 0 := by
  simpa [h.fresh hr th] using (h.before (.inl hr)).joined th

theorem Inv.spawned_load (h : Inv v) (hr : v.rtState = .created) (n m : Nat) (r : RtState) (b : Bool)
    (f : Actor → Option (Join × Bool)) : Stage (v.spawned n m r b f) .load c := by
  have h0 := h.joined_eq_zero hr
  refine ⟨fun th => ?_, fun i _ hi => ?_, fun i hi => ?_, fun _ => rfl, by simp, fun _ => rfl⟩
  · rw [show (v.spawned n m r b f).joined th = 0 from h0 th]
    cases th <;> simp [Join.past]
  · simpa [View.spawned] using hi
  · simpa [View.spawned] using hi

theorem Inv.spawned_blocking (h : Inv v) (hr : v.rtState = .created) (n : Nat) (r : RtState) (b : Bool)
    (f : Actor → Option (Join × Bool)) : Stage (v.spawned n 0 r b f) (.blocking 0) c := by
  have h0 := h.joined_eq_zero hr
  refine ⟨fun th => ?_, fun i _ hi => ?_, fun i hi => ?_, fun _ => rfl, by simp, fun _ => rfl⟩
  · rw [show (v.spawned n 0 r b f).joined th = 0 from h0 th]
    cases th <;> simp [View.spawned, Join.past]
  · simpa [View.spawned] using hi
  · simpa [View.spawned] using hi

/-- `dlsm_gt_start` succeeds. -/
theorem Inv.start (h : Inv v) (hr : v.rtState = .created) (n : Nat) :
    Inv (v.spawned n v.nvp .running v.failing v.join) := by
  have hnone := h.join_none (by simp [hr]) (by simp [hr])
  exact {
    vps := by simp [View.spawned]
    running := fun _ => rfl
    fresh := by simp [View.spawned]
    exited := h.exited
    stage := fun a j c hj => by simp [View.spawned, hnone a] at hj
    one := h.one
    before := fun _ => h.spawned_load hr n v.nvp _ _ _
    after := by simp [View.spawned]
    atMost := h.atMost }

/-- `dlsm_gt_start` fails and begins to join what it has created. -/
theorem Inv.startFails (h : Inv v) (hr : v.rtState = .created) {n m : Nat} {c : Bool}
    (hs : Stage (v.spawned n m .stopping true (Function.update v.join a (some (j, c)))) j c) :
    Inv (v.spawned n m .stopping true (Function.update v.join a (some (j, c)))) := by
  have hnone : ∀ b, v.join b = none := h.join_none (by simp [hr]) (by simp [hr])
  have honly : ∀ b x, Function.update v.join a (some (j, c)) b = some x → b = a ∧ x = (j, c) := by
    intro b x hb
    rcases eq_or_ne b a with rfl | e
    · exact ⟨rfl, by simpa using hb.symm⟩
    · simp [e, hnone b] at hb
  exact {
    vps := by simp [View.spawned]
    running := by simp [View.spawned]
    fresh := by simp [View.spawned]
    exited := h.exited
    stage := fun b j' c' hj => by
      obtain ⟨-, hx⟩ := honly b _ hj
      cases hx
      exact ⟨hs, .inr ⟨rfl, rfl⟩⟩
    one := fun b b' hb hb' => by
      obtain ⟨x, hx⟩ := Option.ne_none_iff_exists'.mp hb
      obtain ⟨x', hx'⟩ := Option.ne_none_iff_exists'.mp hb'
      exact (honly b x hx).1.trans (honly b' x' hx').1.symm
    before := by simp [View.spawned]
    after := by simp [View.spawned]
    atMost := h.atMost }

/-- `dlsm_gt_runtime_add_vp` before the start. -/
theorem Inv.addNew (h : Inv v) (hr : v.rtState = .created) : Inv { v with nvp := v.nvp + 1 } :=
  { h with
    running := by simp [hr]
    stage := fun a j c hj => by
      obtain ⟨hs, hst⟩ := h.stage a j c hj
      exact ⟨hs.congr ⟨rfl, rfl, rfl, rfl, rfl⟩, hst⟩
    before := fun hb => (h.before hb).congr ⟨rfl, rfl, rfl, rfl, rfl⟩
    after := by simp [hr] }

/-- `dlsm_gt_runtime_add_vp` in a running runtime. -/
theorem Inv.addStarted (h : Inv v) (hr : v.rtState = .running) :
    Inv { v with
      nvp := v.nvp + 1
      startedVps := v.startedVps + 1
      created := Function.update v.created (.vp v.nvp) true } := by
  have hnone := h.join_none (by simp [hr]) (by simp [hr])
  have hn := h.running hr
  have hload : Stage v .load true := h.before (.inr (.inl hr))
  have h0 : ∀ th, v.joined th = 0 := fun th => by simpa [Join.past] using hload.joined th
  exact { h with
    vps := fun i => by
      have := h.vps i
      grind -linarith
    running := fun _ => by simp [hn]
    fresh := by simp [hr]
    stage := fun a j c hj => by simp [hnone a] at hj
    before := fun _ => {
      joined := fun th => by simp [h0 th, Join.past]
      blocking := fun i _ hi => hload.blocking i rfl (by simpa using hi)
      blockingStarted := fun i hi => by simpa using hload.blockingStarted i hi
      timer := fun _ => by simpa using hload.timer (by simp)
      vp := by simp
      check := by simp }
    after := by simp [hr] }

end Steps

/-! ## Every step keeps the invariant -/

section Run

variable {s s' : State} {a : Actor} {o : Op} {l : List Op}

theorem joinOf_cons (h : o.join? = none) (l : List Op) : joinOf (o :: l) = joinOf l := by
  simp [joinOf, h]

/-- Nothing is joined after the joins of a call. -/
def JoinLast : List Op → Prop
  | [] => True
  | o :: l => (o.join? ≠ none → joinOf l = none) ∧ JoinLast l

theorem joinOf_append {k : List Op} (hk : joinOf k = none) (l : List Op) : joinOf (k ++ l) = joinOf l := by
  simp only [joinOf, List.findSome?_append] at hk ⊢
  rw [hk]
  rfl

theorem JoinLast.append {k : List Op} (hk : joinOf k = none) (hl : JoinLast l) : JoinLast (k ++ l) := by
  induction k with
  | nil => exact hl
  | cons o k ih =>
    cases ho : o.join? with
    | none => exact ⟨fun hn => absurd ho hn, ih (joinOf_cons ho k ▸ hk)⟩
    | some x => simp [joinOf, ho] at hk

structure Sound (s : State) : Prop where
  inv : Inv s.view
  ops : ∀ a, JoinLast (s.ops a)

theorem view_continues (a : Actor) (l : List Op) (r : State × List Op × Option Status) :
    (continues a l r).view = { r.1.view with join := Function.update r.1.view.join a (joinOf (r.2.1 ++ l)) } := by
  simp only [State.view, continues, View.mk.injEq, true_and]
  funext b
  by_cases hb : b = a
  · subst hb
    simp
  · simp [hb]

/-- Thread `a` goes on with `k`, before `l`. -/
theorem Sound.continues {r : State × List Op × Option Status} (h : Sound s) (hops : r.1.ops = s.ops)
    (hi : Inv { r.1.view with join := Function.update s.view.join a (joinOf (r.2.1 ++ l)) })
    (hl : JoinLast (r.2.1 ++ l)) : Sound (continues a l r) := by
  refine ⟨?_, fun b => ?_⟩
  · rw [view_continues]
    have : r.1.view.join = s.view.join := by simp only [State.view, hops]
    rwa [this]
  · by_cases hb : b = a
    · subst hb
      simpa [Threads.continues] using hl
    · simpa [Threads.continues, hb, hops] using h.ops b

/-- As `Sound.continues`, where `k` has no joins and those left stay where they are. -/
theorem Sound.goes_on {r : State × List Op × Option Status} (h : Sound s) (hops : r.1.ops = s.ops) (hi : Inv r.1.view)
    (hk : joinOf r.2.1 = none) (hj : joinOf l = joinOf (s.ops a)) (hl : JoinLast l) :
    Sound (Threads.continues a l r) := by
  refine h.continues hops ?_ (JoinLast.append hk hl)
  rw [joinOf_append hk, hj, show joinOf (s.ops a) = s.view.join a from rfl, Function.update_eq_self]
  have : r.1.view.join = s.view.join := by simp only [State.view, hops]
  rwa [← this]

theorem Sound.call {r : State × List Op × Option Status} (h : Sound s) (hc : call s a r = some s')
    (hops : r.1.ops = s.ops) (hi : Inv r.1.view) (hk : joinOf r.2.1 = none) : Sound s' := by
  simp only [Threads.call, Option.ite_none_right_eq_some, Option.some.injEq] at hc
  obtain ⟨hc, rfl⟩ := hc
  simp only [canCall, Bool.and_eq_true, beq_iff_eq] at hc
  exact h.goes_on hops hi hk (by rw [hc.1]) trivial

/-- A VP that runs is not joined. -/
theorem Sound.not_stopped {v : Nat} (h : Sound s) (ha : alive s v = true) :
    s.rtState ≠ .created ∧ s.rtState ≠ .stopped := by
  simp only [alive, Bool.and_eq_true, Bool.not_eq_true'] at ha
  refine ⟨fun hr => ?_, fun hr => ?_⟩
  · simpa [State.view, ha.1] using h.inv.fresh hr (.vp v)
  · have hj := (h.inv.after hr).joined (.vp v)
    rw [show s.view.created (.vp v) = true from ha.1] at hj
    have := h.inv.exited (.vp v) (by simp [hj, Join.past])
    simp [State.view, ha.2] at this

/-- The view of a state in which `dlsm_gt_start` has created threads. -/
theorem view_created {k : Nat} {s₁ : State} (hk : k ≠ 0) (hv : s₁.view = { s.view with
      rtState := s₁.rtState
      failing := s₁.failing
      timerStarted := true
      blockingStarted := min (k - 1) s.blockingThreadCount
      startedVps := min (k - 1 - s.blockingThreadCount) s.nvp
      created := creates s k }) (f : Actor → Option (Join × Bool)) :
    { s₁.view with join := f } = s.view.spawned (min (k - 1) s.blockingThreadCount)
      (min (k - 1 - s.blockingThreadCount) s.nvp) s₁.rtState s₁.failing f := by
  rw [hv]
  simp only [View.spawned, View.mk.injEq, true_and, and_true]
  funext th
  cases th with
  | timer => simpa [creates] using Nat.pos_of_ne_zero hk
  | blocking i =>
    simp only [creates, decide_eq_decide]
    omega
  | vp i =>
    simp only [creates, decide_eq_decide]
    omega

theorem gtStart_sound {b : Bool} {k : Nat} (h : Sound s) (ho : s.ops a = .start b :: l) :
    Sound (continues a l (gtStart s b k)) := by
  have hl : JoinLast l := by
    have := h.ops a
    rw [ho] at this
    exact this.2
  have hj : joinOf l = joinOf (s.ops a) := by rw [ho, joinOf_cons rfl]
  by_cases hr : s.rtState = .created
  · have hl0 : joinOf l = none := hj.trans (h.inv.join_none (by simp [State.view, hr]) (by simp [State.view, hr]) a)
    unfold gtStart
    rw [if_neg (by simp [hr])]
    split
    · have hi : Inv { s.view with rtState := .stopping } := h.inv.advance (.inr ⟨.inl hr, rfl⟩)
      refine h.goes_on rfl hi ?_ hj hl
      dsimp only
      split <;> rfl
    · split
      · exact h.goes_on rfl (h.inv.advance (.inl ⟨hr, rfl⟩)) rfl hj hl
      · rename_i hk
        dsimp only
        split
        · rename_i hb
          have hm : min (k - 1 - s.blockingThreadCount) s.nvp = 0 := by omega
          refine h.continues rfl ?_ ⟨by simp [Op.join?], by simp [Op.join?], fun _ => hl0, hl⟩
          rw [view_created hk rfl, hm]
          exact h.inv.startFails hr (h.inv.spawned_blocking hr _ _ _ _)
        · split
          · refine h.continues rfl ?_ ⟨by simp [Op.join?], by simp [Op.join?], fun _ => hl0, hl⟩
            rw [view_created hk rfl]
            exact h.inv.startFails hr (h.inv.spawned_load hr _ _ _ _ _)
          · rename_i hn
            have hm : min (k - 1 - s.blockingThreadCount) s.nvp = s.nvp := by omega
            have hk' : joinOf (if b then ([Op.wait], none) else ([], some Status.ok)).1 = none := by split <;> rfl
            refine h.continues rfl ?_ (JoinLast.append hk' hl)
            rw [view_created hk rfl, hm, joinOf_append hk', hj, show joinOf (s.ops a) = s.view.join a from rfl,
              Function.update_eq_self]
            exact h.inv.start hr _
  · unfold gtStart
    rw [if_pos hr]
    exact h.goes_on rfl h.inv rfl hj hl

theorem gtWait_sound (h : Sound s) (ho : s.ops a = .wait :: l) (hf : s.failing = false) :
    Sound (continues a l (gtWait s)) := by
  have hl : JoinLast l := by
    have := h.ops a
    rw [ho] at this
    exact this.2
  have hj : joinOf l = joinOf (s.ops a) := by rw [ho, joinOf_cons rfl]
  unfold gtWait
  split
  · rename_i hr
    have hr' : s.rtState = .running ∨ s.rtState = .stopping ∧ s.failing = false := by
      rcases hr with hr | ⟨hr, -⟩
      · exact .inr ⟨hr, hf⟩
      · exact .inl hr
    have hl0 : joinOf l = none :=
      hj.trans (h.inv.join_none (by rcases hr' with hr | ⟨hr, -⟩ <;> simp [State.view, hr]) (fun _ => hf) a)
    exact h.continues rfl (h.inv.wait hr') ⟨fun _ => hl0, hl⟩
  · exact h.goes_on rfl h.inv rfl hj hl

theorem pthreadJoin_eq_some {th : Thread} (h : pthreadJoin s th = some s') :
    s.exited th = true ∧ s' = { s with joined := Function.update s.joined th (s.joined th + 1) } := by
  simp only [pthreadJoin, Option.ite_none_right_eq_some, Option.some.injEq] at h
  exact ⟨h.1, h.2.symm⟩

theorem joinStep_sound {j : Join} {res : Status} {c : Bool} {r : State × List Op × Option Status} (h : Sound s)
    (ho : s.ops a = .join j res c :: l) (hr : joinStep s res c j = some r) : Sound (continues a l r) := by
  have hlast := h.ops a
  rw [ho] at hlast
  have hl0 : joinOf l = none := hlast.1 (by simp [Op.join?])
  have ha : s.view.join a = some (j, c) := by simp only [State.view, ho]; rfl
  obtain ⟨hst, -⟩ := h.inv.stage a j c ha
  have hlast' : ∀ j' res', JoinLast (.join j' res' c :: l) := fun _ _ => ⟨fun _ => hl0, hlast.2⟩
  cases j with simp only [joinStep] at hr
  | load =>
    cases hr
    exact h.continues rfl (h.inv.next ha rfl hst.load) (hlast' _ _)
  | vp n i =>
    split at hr
    · rename_i hi
      obtain ⟨s₁, h₁, rfl⟩ := Option.map_eq_some_iff.mp hr
      obtain ⟨hx, rfl⟩ := pthreadJoin_eq_some h₁
      have hc := (h.inv.vps i).mpr (hst.vp n i rfl ▸ hi)
      exact h.continues rfl (h.inv.joins ha hx rfl (hst.vp_next hc)) (hlast' _ _)
    · rename_i hi
      cases hr
      exact h.continues rfl (h.inv.next ha rfl (hst.vp_last (fun i => (h.inv.vps i).mp) hi)) (hlast' _ _)
  | blocking i =>
    split at hr
    · rename_i hi
      obtain ⟨s₁, h₁, rfl⟩ := Option.map_eq_some_iff.mp hr
      obtain ⟨hx, rfl⟩ := pthreadJoin_eq_some h₁
      exact h.continues rfl (h.inv.joins ha hx rfl (hst.blocking_next hi)) (hlast' _ _)
    · rename_i hi
      cases hr
      exact h.continues rfl (h.inv.next ha rfl (hst.blocking_last hi)) (hlast' _ _)
  | timer =>
    split at hr
    · rename_i hi
      cases hr
      exact h.continues rfl (h.inv.next ha rfl (hst.timer_none hi.2)) (hlast' _ _)
    · rename_i hi
      obtain ⟨s₁, h₁, rfl⟩ := Option.map_eq_some_iff.mp hr
      obtain ⟨hx, rfl⟩ := pthreadJoin_eq_some h₁
      have hc : s.created .timer = true := by
        cases c with
        | false => exact hst.check rfl
        | true =>
          have := hst.timer (by simp)
          simp only [State.view] at this
          simpa [this] using hi
      exact h.continues rfl (h.inv.joins ha hx rfl (hst.timer_next hc)) (hlast' _ _)
  | ended =>
    cases hr
    refine h.continues rfl ?_ (by simpa using hlast.2)
    rw [List.nil_append, hl0]
    exact h.inv.ends ha

theorem execOp_sound {k : Nat} {r : State × List Op × Option Status} (h : Sound s) (ho : s.ops a = o :: l)
    (hf : o = .wait → s.failing = false) (hr : execOp s a k o = some r) : Sound (continues a l r) := by
  have hlast := h.ops a
  rw [ho] at hlast
  cases o with simp only [execOp] at hr
  | start b =>
    cases hr
    exact gtStart_sound h ho
  | wait =>
    cases hr
    exact gtWait_sound h ho (hf rfl)
  | timerStop =>
    cases hr
    exact h.goes_on rfl h.inv rfl (by rw [ho, joinOf_cons rfl]) hlast.2
  | blockingStop =>
    cases hr
    refine h.goes_on ?_ ?_ rfl (by rw [ho, joinOf_cons rfl]) hlast.2
    · dsimp only
      split <;> rfl
    · dsimp only
      split <;> exact h.inv
  | join j res c => exact joinStep_sound h ho hr
  | exit =>
    split at hr
    · cases hr
      exact h.goes_on rfl (h.inv.exits _) rfl (by rw [ho, joinOf_cons rfl]) hlast.2
    · cases hr

/-- Every action keeps the invariant, unless it makes a second caller join. -/
theorem sound_step {x : Act} (h : Sound s) (hx : undisturbed s x = true) (hs : step s x = some s') : Sound s' := by
  cases x with simp only [step] at hs
  | start b => exact h.call hs rfl h.inv rfl
  | wait b => exact h.call hs rfl h.inv rfl
  | run b =>
    refine h.call hs ?_ ?_ ?_ <;> unfold gtRun <;> split <;> first | rfl | exact h.inv
  | stop b =>
    refine h.call hs ?_ ?_ ?_ <;> unfold gtStop
    · split_ifs <;> rfl
    · split_ifs with h₁ h₂
      · exact h.inv.advance (.inl ⟨h₁, rfl⟩)
      · exact h.inv
      · exact h.inv.advance (.inr ⟨.inr (not_not.mp h₂), rfl⟩)
      · exact h.inv.advance (.inr ⟨.inr (not_not.mp h₂), rfl⟩)
    · split_ifs <;> rfl
  | spawn b => refine h.call hs ?_ ?_ ?_ <;> split <;> first | rfl | exact h.inv
  | addVp b ok =>
    refine h.call hs ?_ ?_ ?_ <;> unfold addVp
    · split_ifs <;> rfl
    · split_ifs with h₁ h₂ h₃
      · exact h.inv.addNew h₁
      · exact h.inv
      · exact h.inv
      · exact h.inv.addStarted (not_not.mp h₂)
    · split_ifs <;> rfl
  | op b k =>
    split at hs
    · cases hs
    · rename_i o l ho
      obtain ⟨r, hr, rfl⟩ := Option.map_eq_some_iff.mp hs
      refine execOp_sound h ho (fun he => ?_) hr
      subst he
      simpa [undisturbed, ho] using hx
  | done v =>
    simp only [Option.ite_none_right_eq_some, Option.some.injEq] at hs
    obtain ⟨⟨ho, ha, -⟩, rfl⟩ := hs
    refine h.goes_on rfl ?_ ?_ (by rw [ho]) trivial
    · simp only [rtTaskDone, State.view]
      split_ifs with hr
      · exact h.inv.advance (.inr ⟨.inr hr.2, rfl⟩)
      · exact h.inv
    · simp only [rtTaskDone]
      split <;> rfl
  | sleepFail v =>
    simp only [Option.ite_none_right_eq_some, Option.some.injEq] at hs
    obtain ⟨⟨ho, ha⟩, rfl⟩ := hs
    refine h.goes_on rfl ?_ rfl (by rw [ho]) trivial
    obtain ⟨hc, hst⟩ := h.not_stopped ha
    have hj : s.rtState ≠ .joining := by simpa [undisturbed] using hx
    cases hr : s.rtState with
    | running => exact h.inv.advance (.inr ⟨.inr hr, rfl⟩)
    | stopping => exact hr ▸ h.inv
    | created => exact absurd hr hc
    | joining => exact absurd hr hj
    | stopped => exact absurd hr hst
  | vpExit v =>
    simp only [Option.ite_none_right_eq_some, Option.some.injEq] at hs
    obtain ⟨-, rfl⟩ := hs
    exact ⟨h.inv.exits _, h.ops⟩
  | timerExit =>
    simp only [Option.ite_none_right_eq_some, Option.some.injEq] at hs
    obtain ⟨-, rfl⟩ := hs
    exact ⟨h.inv.exits _, h.ops⟩
  | blockingExit i =>
    simp only [Option.ite_none_right_eq_some, Option.some.injEq] at hs
    obtain ⟨-, rfl⟩ := hs
    exact ⟨h.inv.exits _, h.ops⟩

end Run

end Dlsmc.Threads
