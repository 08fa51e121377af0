import Mathlib.Data.List.Range
import Dlsmc.Greenthread.Blocking

/-!
# What the blocking pool does with its jobs

From the call that leaves it until that call returns, a job has one place: the
queue, one thread of the pool, or none any more when it is done (`Place`). The
queue is served in the order in which the calls were accepted, every job is run
once, and what its function returned is what its call returns (`Core`).

A task that is parked in the call is unparked after its job is done (`Awake`),
and while a thread of the pool sleeps there is a thread that is awake for every
job in the queue (`Staffed`).
-/

namespace Dlsmc.Blocking

/-- Where the job of a task is. -/
inductive Place where
  /-- The task is in no call. -/
  | none
  | queued
  | taken (w : Nat)
  | done

/-- The task waits for its job. -/
def Caller.waits : Caller → Prop
  | poll _ | park _ | parked _ => True
  | _ => False

def calledOf (s : State) : List Call := s.executed.map Prod.fst

def returnedOf (s : State) : List Call := s.log.filterMap Return.call

/-- The job of `t` is the one of its call, which did not return yet. -/
structure Made (s : State) (t : Nat) : Prop where
  accepted : s.call t ∈ s.accepted
  call : s.call t = ⟨(s.call t).number, (s.job t).task, (s.job t).function, (s.job t).arg⟩
  task : (s.job t).task = t
  pending : s.call t ∉ returnedOf s

/-- How far a thread is with the job of `t`. -/
def Stage (s : State) (t : Nat) : Worker → Prop
  | .run j => j = t ∧ s.call t ∉ calledOf s
  | .saveErrno j e => j = t ∧ (s.call t, (s.job t).result, e) ∈ s.executed
  | .setDone j => j = t ∧ (s.call t, (s.job t).result, (s.job t).savedErrno) ∈ s.executed
  | _ => False

/-- The job of `t` is in its place. -/
def At (s : State) (t : Nat) : Place → Prop
  | .none => s.caller t = .idle
  | .queued => Made s t ∧ (s.caller t).waits ∧ (s.job t).done = false
  | .taken w => Made s t ∧ (s.caller t).waits ∧ (s.job t).done = false ∧ s.call t ∈ s.started ∧ Stage s t (s.worker w)
  | .done =>
    Made s t ∧ s.caller t ≠ .idle ∧ (s.job t).done = true ∧
      (s.call t, (s.job t).result, (s.job t).savedErrno) ∈ s.executed

/-- The jobs `l` are in the queue, and every job is in its place. -/
structure Core (s : State) (l : List Nat) (place : Nat → Place) : Prop where
  repr : s.queue.Repr l
  accepted : s.accepted = s.started ++ l.map s.call
  numbers : s.accepted.map Call.number = List.range s.calls
  queued : ∀ t, t ∈ l ↔ place t = .queued
  busy : ∀ w t, (s.worker w).job = some t → place t = .taken w
  places : ∀ t, At s t (place t)
  executed : ∀ x ∈ s.executed, x.1 ∈ s.started
  once : (calledOf s).Nodup
  ran : ∀ c ∈ s.started, c ∈ calledOf s ∨ ∃ w t, s.worker w = .run t ∧ s.call t = c
  returned : ∀ c r e, Return.done c r e ∈ s.log → ∃ x, (c, x, e) ∈ s.executed ∧ (r = Option.none ∨ r = some x)
  returns : (returnedOf s).Nodup

variable {s s' : State} {l : List Nat} {place : Nat → Place} {p : Place} {t u w j : Nat} {out : Bool}

/-! ## Places -/

theorem At.made (h : At s t p) (hp : p ≠ .none) : Made s t := by
  cases p with
  | none => exact absurd rfl hp
  | queued => exact h.1
  | taken w => exact h.1
  | done => exact h.1

theorem At.not_idle (h : At s t p) (hp : p ≠ .none) : s.caller t ≠ .idle := by
  cases p with
  | none => exact absurd rfl hp
  | queued =>
    intro he
    have := h.2.1
    rwa [he] at this
  | taken w =>
    intro he
    have := h.2.1
    rwa [he] at this
  | done => exact h.2.1

/-- A job that is marked done is. -/
theorem At.of_done (h : At s t p) (hp : p ≠ .none) (hd : (s.job t).done = true) : p = .done := by
  cases p with
  | none => exact absurd rfl hp
  | queued => cases hd.symm.trans h.2.2
  | taken w => cases hd.symm.trans h.2.2.1
  | done => rfl

/-- What a step of others leaves as it is. -/
structure Others (s s' : State) (t : Nat) : Prop where
  job : s'.job t = s.job t
  call : s'.call t = s.call t
  caller : s'.caller t = s.caller t
  accepted : s.call t ∈ s.accepted → s.call t ∈ s'.accepted
  started : s.call t ∈ s.started → s.call t ∈ s'.started
  executed : ∀ x ∈ s.executed, x ∈ s'.executed
  called : s.call t ∉ calledOf s → s.call t ∉ calledOf s'
  returned : s.call t ∉ returnedOf s → s.call t ∉ returnedOf s'

theorem Made.others (h : Made s t) (ho : Others s s' t) : Made s' t where
  accepted := ho.call ▸ ho.accepted h.accepted
  call := by
    rw [ho.call, ho.job]
    exact h.call
  task := by
    rw [ho.job]
    exact h.task
  pending := ho.call ▸ ho.returned h.pending

theorem Stage.others {c : Worker} (h : Stage s t c) (ho : Others s s' t) : Stage s' t c := by
  cases c with
  | run j => exact ⟨h.1, ho.call ▸ ho.called h.2⟩
  | saveErrno j e =>
    refine ⟨h.1, ?_⟩
    rw [ho.call, ho.job]
    exact ho.executed _ h.2
  | setDone j =>
    refine ⟨h.1, ?_⟩
    rw [ho.call, ho.job]
    exact ho.executed _ h.2
  | _ => exact h

theorem At.others (h : At s t p) (ho : Others s s' t) (hw : ∀ w, p = .taken w → s'.worker w = s.worker w) :
    At s' t p := by
  cases p with
  | none => exact ho.caller.trans h
  | queued =>
    refine ⟨h.1.others ho, ?_, ?_⟩
    · rw [ho.caller]
      exact h.2.1
    · rw [ho.job]
      exact h.2.2
  | taken w =>
    refine ⟨h.1.others ho, ?_, ?_, ho.call ▸ ho.started h.2.2.2.1, hw w rfl ▸ h.2.2.2.2.others ho⟩
    · rw [ho.caller]
      exact h.2.1
    · rw [ho.job]
      exact h.2.2.1
  | done =>
    refine ⟨h.1.others ho, ?_, ?_, ?_⟩
    · rw [ho.caller]
      exact h.2.1
    · rw [ho.job]
      exact h.2.2.1
    · rw [ho.call, ho.job]
      exact ho.executed _ h.2.2.2

/-! ## The invariant of the jobs -/

namespace Core

theorem nodup_accepted (h : Core s l place) : s.accepted.Nodup :=
  .of_map Call.number (h.numbers ▸ List.nodup_range)

theorem number_lt (h : Core s l place) {c : Call} (hc : c ∈ s.accepted) : c.number < s.calls :=
  List.mem_range.mp (h.numbers ▸ List.mem_map_of_mem hc)

/-- Calls that are under way at the same time are different. -/
theorem call_ne (h : Core s l place) (ht : place t ≠ .none) (hu : place u ≠ .none) (hne : t ≠ u) :
    s.call t ≠ s.call u := fun he => by
  have hmt := (h.places t).made ht
  have hmu := (h.places u).made hu
  refine hne ?_
  rw [← hmt.task, ← hmu.task]
  exact congrArg Call.task (hmt.call.symm.trans (he.trans hmu.call))

theorem place_of_idle (h : Core s l place) (ht : s.caller t = .idle) : place t = .none := by
  by_contra hp
  exact (h.places t).not_idle hp ht

theorem place_of_not_idle (h : Core s l place) (ht : s.caller t ≠ .idle) : place t ≠ .none := fun hp => by
  have := h.places t
  rw [hp] at this
  exact ht this

/-- The place of a job that a thread has, and how far the thread is with it. -/
theorem stage (h : Core s l place) (hw : (s.worker w).job = some t) : At s t (.taken w) := h.busy w t hw ▸ h.places t

/-- No job is with a thread that has none, or another one. -/
theorem not_taken (h : Core s l place) (hw : (s.worker w).job ≠ some t) : place t ≠ .taken w := fun hp => by
  have hat := h.places t
  rw [hp] at hat
  obtain ⟨-, -, -, -, hstage⟩ := hat
  cases hc : s.worker w with
  | run j =>
    rw [hc] at hstage hw
    exact hw (congrArg some hstage.1)
  | saveErrno j e =>
    rw [hc] at hstage hw
    exact hw (congrArg some hstage.1)
  | setDone j =>
    rw [hc] at hstage hw
    exact hw (congrArg some hstage.1)
  | _ =>
    rw [hc] at hstage
    exact hstage

/-- The call of a job in the queue has not been started. -/
theorem not_started (h : Core s l place) (hl : t ∈ l) : s.call t ∉ s.started := by
  have hnodup := h.nodup_accepted
  rw [h.accepted, List.nodup_append] at hnodup
  exact fun hs => hnodup.2.2 _ hs _ (List.mem_map_of_mem hl) rfl

theorem started_accepted (h : Core s l place) {c : Call} (hc : c ∈ s.started) : c ∈ s.accepted := by
  rw [h.accepted]
  exact List.mem_append_left _ hc

theorem called_started (h : Core s l place) {c : Call} (hc : c ∈ calledOf s) : c ∈ s.started := by
  obtain ⟨x, hx, rfl⟩ := List.mem_map.mp hc
  exact h.executed x hx

theorem returned_started (h : Core s l place) {c : Call} (hc : c ∈ returnedOf s) : c ∈ s.started := by
  obtain ⟨r, hr, he⟩ := List.mem_filterMap.mp hc
  cases r with
  | refused st => cases he
  | done c' r e =>
    cases he
    obtain ⟨x, hx, -⟩ := h.returned c r e hr
    exact h.executed _ hx

/-- A step that leaves jobs, calls and results as they are. -/
structure Same (s s' : State) (place : Nat → Place) : Prop where
  queue : s'.queue = s.queue
  job : s'.job = s.job
  call : s'.call = s.call
  calls : s'.calls = s.calls
  accepted : s'.accepted = s.accepted
  started : s'.started = s.started
  executed : s'.executed = s.executed
  returns : returnedOf s' = returnedOf s
  returned : ∀ c r e, Return.done c r e ∈ s'.log → Return.done c r e ∈ s.log
  worker : ∀ w, s'.worker w = s.worker w ∨ (s'.worker w).job = Option.none ∧ (s.worker w).job = Option.none
  caller : ∀ t, s'.caller t = s.caller t ∨ (s.caller t).waits ∧ (s'.caller t).waits ∨
    place t = .done ∧ s'.caller t ≠ .idle

theorem Same.at (h : Core s l place) (hs : Same s s' place) : At s' t (place t) := by
  -- as if the task had stayed where it was
  have hat : At { s' with caller := s.caller } t (place t) := by
    refine (h.places t).others ⟨congrFun hs.job t, congrFun hs.call t, rfl, ?_, ?_, ?_, ?_, ?_⟩ fun w hp => ?_
    · exact fun hc => hs.accepted ▸ hc
    · exact fun hc => hs.started ▸ hc
    · exact fun x hx => hs.executed ▸ hx
    · exact fun hc => by rwa [calledOf, hs.executed]
    · exact fun hc => hs.returns ▸ hc
    · rcases hs.worker w with he | ⟨-, he⟩
      · exact he
      · exact absurd hp (h.not_taken (by rw [he]; nofun))
  have hcaller := hs.caller t
  cases hp : place t with
  | none =>
    rw [hp] at hat hcaller
    change s.caller t = .idle at hat
    rcases hcaller with he | ⟨hw, -⟩ | ⟨hd, -⟩
    · exact he.trans hat
    · rw [hat] at hw
      exact hw.elim
    · cases hd
  | queued =>
    rw [hp] at hat hcaller
    obtain ⟨hmade, hwaits, hdone⟩ := hat
    refine ⟨⟨hmade.accepted, hmade.call, hmade.task, hmade.pending⟩, ?_, hdone⟩
    rcases hcaller with he | ⟨-, hw⟩ | ⟨hd, -⟩
    · exact he ▸ hwaits
    · exact hw
    · cases hd
  | taken w =>
    rw [hp] at hat hcaller
    obtain ⟨hmade, hwaits, hdone, hstarted, hstage⟩ := hat
    refine ⟨⟨hmade.accepted, hmade.call, hmade.task, hmade.pending⟩, ?_, hdone, hstarted, hstage⟩
    rcases hcaller with he | ⟨-, hw⟩ | ⟨hd, -⟩
    · exact he ▸ hwaits
    · exact hw
    · cases hd
  | done =>
    rw [hp] at hat hcaller
    obtain ⟨hmade, hidle, hdone, hexec⟩ := hat
    refine ⟨⟨hmade.accepted, hmade.call, hmade.task, hmade.pending⟩, ?_, hdone, hexec⟩
    rcases hcaller with he | ⟨-, hw⟩ | ⟨-, hn⟩
    · exact he ▸ hidle
    · intro he
      rwa [he] at hw
    · exact hn

theorem frame (h : Core s l place) (hs : Same s s' place) : Core s' l place where
  repr := hs.queue ▸ h.repr
  accepted := by
    rw [hs.accepted, hs.started, hs.call]
    exact h.accepted
  numbers := by
    rw [hs.accepted, hs.calls]
    exact h.numbers
  queued := h.queued
  busy w t hw := by
    rcases hs.worker w with he | ⟨he, -⟩
    · exact h.busy w t (he ▸ hw)
    · cases he.symm.trans hw
  places t := Same.at h hs
  executed := by
    rw [hs.executed, hs.started]
    exact h.executed
  once := by
    rw [calledOf, hs.executed]
    exact h.once
  ran := by
    rw [calledOf, hs.executed, hs.started, hs.call]
    refine fun c hc => (h.ran c hc).imp_right fun ⟨w, t, hw, he⟩ => ⟨w, t, ?_, he⟩
    rcases hs.worker w with hsame | ⟨-, hnone⟩
    · exact hsame.trans hw
    · rw [hw] at hnone
      cases hnone
  returned := by
    rw [hs.executed]
    exact fun c r e hr => h.returned c r e (hs.returned c r e hr)
  returns := hs.returns ▸ h.returns

/-- A job is put into the queue. -/
theorem enqueue (h : Core s l place) (f a : Nat) (out : Bool) (hidle : s.caller t = .idle) :
    Core (s.enqueue t f a out) (l ++ [t]) (Function.update place t .queued) := by
  have hplace := h.place_of_idle hidle
  have hl : t ∉ l := fun hm => by cases hplace.symm.trans ((h.queued t).mp hm)
  have hcalls : ∀ c ∈ s.accepted, c.number ≠ s.calls := fun c hc => Nat.ne_of_lt (h.number_lt hc)
  have hnew : ∀ c ∈ s.accepted, c ≠ ⟨s.calls, t, f, a⟩ := fun c hc he => hcalls c hc (congrArg Call.number he)
  have hstay : ∀ u, u ≠ t → (s.enqueue t f a out).call u = s.call u := fun u hu => Function.update_of_ne hu _ _
  constructor
  · exact h.repr.push hl
  · have hmap : l.map (s.enqueue t f a out).call = l.map s.call :=
      List.map_congr_left fun u hu => hstay u fun e => hl (by rwa [e] at hu)
    show s.accepted ++ _ = s.started ++ _
    rw [List.map_append, hmap, h.accepted, List.append_assoc]
    congr 2
    simp [State.enqueue]
  · show (s.accepted ++ _).map Call.number = List.range (s.calls + 1)
    rw [List.map_append, h.numbers, List.range_succ]
    rfl
  · intro u
    rw [List.mem_append, List.mem_singleton]
    by_cases hu : u = t
    · subst hu
      simp
    · rw [Function.update_of_ne hu, ← h.queued u]
      simp [hu]
  · intro w u hw
    have hp := h.busy w u hw
    rw [Function.update_of_ne, hp]
    rintro rfl
    cases hplace.symm.trans hp
  · intro u
    by_cases hu : u = t
    · subst hu
      rw [Function.update_self]
      refine ⟨⟨?_, ?_, ?_, ?_⟩, ?_, ?_⟩
      · simp [State.enqueue]
      · simp [State.enqueue]
      · simp [State.enqueue]
      · have hc : (s.enqueue u f a out).call u = ⟨s.calls, u, f, a⟩ := Function.update_self ..
        show (s.enqueue u f a out).call u ∉ returnedOf s
        rw [hc]
        exact fun hm => hnew _ (h.started_accepted (h.returned_started hm)) rfl
      · simp [State.enqueue, Caller.waits]
      · simp [State.enqueue]
    · rw [Function.update_of_ne hu]
      refine (h.places u).others ⟨Function.update_of_ne hu _ _, hstay u hu, Function.update_of_ne hu _ _, ?_, id,
        fun _ hx => hx, id, id⟩ fun _ _ => rfl
      exact List.mem_append_left _
  · exact h.executed
  · exact h.once
  · intro c hc
    refine (h.ran c hc).imp_right fun ⟨w, u, hw, he⟩ => ⟨w, u, hw, (hstay u ?_).trans he⟩
    rintro rfl
    cases hplace.symm.trans (h.busy w u (by rw [hw]; rfl))
  · exact h.returned
  · exact h.returns

/-- The job at the head of the queue is taken by a thread. -/
theorem take_head (h : Core s (j :: l) place) {q : Links Nat} (hw : (s.worker w).job = Option.none) (hq : q.Repr l) :
    Core { s.goto w (.run j) with queue := q, started := s.started ++ [s.call j] } l
      (Function.update place j (.taken w)) := by
  have hplace : place j = .queued := (h.queued j).mp List.mem_cons_self
  have hnot : s.call j ∉ s.started := h.not_started List.mem_cons_self
  have hjl : j ∉ l := (List.nodup_cons.mp h.repr.nodup).1
  have hworker : ∀ v, v ≠ w → Function.update s.worker w (.run j) v = s.worker v :=
    fun v hv => Function.update_of_ne hv ..
  have hself : Function.update s.worker w (.run j) w = .run j := Function.update_self ..
  have hat := h.places j
  rw [hplace] at hat
  obtain ⟨hmade, hwaits, hdone⟩ := hat
  constructor
  · exact hq
  · show s.accepted = (s.started ++ [s.call j]) ++ l.map s.call
    rw [h.accepted, List.map_cons, List.append_assoc]
    rfl
  · exact h.numbers
  · intro u
    by_cases hu : u = j
    · subst hu
      simp [hjl]
    · rw [Function.update_of_ne hu, ← h.queued u]
      simp [hu]
  · intro v u hv
    change (Function.update s.worker w (.run j) v).job = some u at hv
    by_cases hvw : v = w
    · rw [hvw, hself, Worker.job, Option.some.injEq] at hv
      rw [hv, hvw, Function.update_self]
    · rw [hworker v hvw] at hv
      have hp := h.busy v u hv
      rw [Function.update_of_ne, hp]
      rintro rfl
      cases hplace.symm.trans hp
  · intro u
    by_cases hu : u = j
    · subst hu
      rw [Function.update_self]
      refine ⟨⟨hmade.accepted, hmade.call, hmade.task, hmade.pending⟩, hwaits, hdone, ?_, ?_⟩
      · exact List.mem_append_right _ (List.mem_singleton.mpr rfl)
      · show Stage _ u (Function.update s.worker w (.run u) w)
        rw [hself]
        exact ⟨rfl, fun hc => hnot (h.called_started hc)⟩
    · rw [Function.update_of_ne hu]
      refine (h.places u).others ⟨rfl, rfl, rfl, id, List.mem_append_left _, fun _ hx => hx, id, id⟩ fun v hv => ?_
      refine hworker v ?_
      rintro rfl
      exact h.not_taken (by rw [hw]; nofun) hv
  · exact fun x hx => List.mem_append_left _ (h.executed x hx)
  · exact h.once
  · intro c hc
    rcases List.mem_append.mp hc with hc | hc
    · refine (h.ran c hc).imp_right fun ⟨v, u, hv, he⟩ => ⟨v, u, (hworker v ?_).trans hv, he⟩
      rintro rfl
      rw [hv] at hw
      cases hw
    · exact .inr ⟨w, j, hself, (List.mem_singleton.mp hc).symm⟩
  · exact h.returned
  · exact h.returns

/-- A step of a thread with its job, after which it still has it. -/
theorem work (h : Core s l place) {c : Worker} {b : Job} {x : List (Call × Nat × Int)} (hw : (s.worker w).job = some t)
    (hc : c.job = some t) (hb : b.function = (s.job t).function ∧ b.arg = (s.job t).arg ∧ b.task = (s.job t).task ∧
      b.done = (s.job t).done) (hx : s.executed <+: x) (hnodup : (x.map Prod.fst).Nodup)
    (hcall : ∀ y ∈ x, y ∈ s.executed ∨ y.1 = s.call t)
    (hran : ∀ j, s.worker w = .run j → s.call t ∈ x.map Prod.fst)
    (hstage : Stage { s.goto w c with job := Function.update s.job t b, executed := x } t c) :
    Core { s.goto w c with job := Function.update s.job t b, executed := x } l place := by
  have hplace : place t = .taken w := h.busy w t hw
  have hne : place t ≠ .none := by rw [hplace]; nofun
  have hworker : ∀ v, v ≠ w → Function.update s.worker w c v = s.worker v := fun v hv => Function.update_of_ne hv ..
  have hself : Function.update s.worker w c w = c := Function.update_self ..
  have hat := h.places t
  rw [hplace] at hat
  obtain ⟨hmade, hwaits, hdone, hstarted, -⟩ := hat
  have hmem : ∀ y ∈ s.executed, y ∈ x := fun y hy => hx.subset hy
  constructor
  · exact h.repr
  · exact h.accepted
  · exact h.numbers
  · exact h.queued
  · intro v u hv
    change (Function.update s.worker w c v).job = some u at hv
    by_cases hvw : v = w
    · rw [hvw, hself, hc, Option.some.injEq] at hv
      exact hv ▸ hvw ▸ hplace
    · rw [hworker v hvw] at hv
      exact h.busy v u hv
  · intro u
    by_cases hu : u = t
    · subst hu
      rw [hplace]
      refine ⟨⟨hmade.accepted, ?_, ?_, hmade.pending⟩, hwaits, ?_, hstarted, ?_⟩
      · show s.call u = ⟨(s.call u).number, (Function.update s.job u b u).task, (Function.update s.job u b u).function,
          (Function.update s.job u b u).arg⟩
        rw [Function.update_self, hb.1, hb.2.1, hb.2.2.1]
        exact hmade.call
      · show (Function.update s.job u b u).task = u
        rw [Function.update_self, hb.2.2.1]
        exact hmade.task
      · show (Function.update s.job u b u).done = false
        rw [Function.update_self, hb.2.2.2]
        exact hdone
      · show Stage _ u (Function.update s.worker w c w)
        rw [hself]
        exact hstage
    by_cases hidle : place u = .none
    · have := h.places u
      rwa [hidle] at this ⊢
    · refine (h.places u).others ⟨Function.update_of_ne hu _ _, rfl, rfl, id, id, hmem,
        fun hn hm => ?_, id⟩ fun v hv => ?_
      · obtain ⟨y, hy, he⟩ := List.mem_map.mp hm
        rcases hcall y hy with hy | hy
        · exact hn (he ▸ List.mem_map_of_mem hy)
        · exact h.call_ne hidle hne hu (he.symm.trans hy)
      · refine hworker v ?_
        rintro rfl
        exact h.not_taken (by rw [hw]; exact fun e => hu (Option.some.inj e).symm) hv
  · intro y hy
    rcases hcall y hy with hy | hy
    · exact h.executed y hy
    · exact hy ▸ hstarted
  · exact hnodup
  · intro c' hc'
    rcases h.ran c' hc' with hm | ⟨v, u, hv, he⟩
    · obtain ⟨y, hy, rfl⟩ := List.mem_map.mp hm
      exact .inl (List.mem_map_of_mem (hmem y hy))
    · by_cases hvw : v = w
      · subst hvw
        rw [hv, Worker.job, Option.some.injEq] at hw
        exact .inl (he ▸ hw ▸ hran u hv)
      · exact .inr ⟨v, u, (hworker v hvw).trans hv, he⟩
  · intro c' r e hr
    obtain ⟨y, hy, ho⟩ := h.returned c' r e hr
    exact ⟨y, hmem _ hy, ho⟩
  · exact h.returns

/-- A thread marks its job done. -/
theorem mark_done (h : Core s l place) (hw : s.worker w = .setDone t) :
    Core { s.goto w (.unpark (s.job t).task) with job := Function.update s.job t { s.job t with done := true } } l
      (Function.update place t .done) := by
  have hjob : (s.worker w).job = some t := by rw [hw]; rfl
  have hplace : place t = .taken w := h.busy w t hjob
  have hworker : ∀ v, v ≠ w → Function.update s.worker w (.unpark (s.job t).task) v = s.worker v := fun v hv =>
    Function.update_of_ne hv ..
  have hat := h.places t
  rw [hplace, At, hw] at hat
  obtain ⟨hmade, hwaits, -, -, -, hexec⟩ := hat
  constructor
  · exact h.repr
  · exact h.accepted
  · exact h.numbers
  · intro u
    rw [h.queued u]
    by_cases hu : u = t
    · rw [hu, hplace, Function.update_self]
      exact ⟨nofun, nofun⟩
    · rw [Function.update_of_ne hu]
  · intro v u hv
    change (Function.update s.worker w (.unpark (s.job t).task) v).job = some u at hv
    by_cases hvw : v = w
    · rw [hvw, Function.update_self] at hv
      cases hv
    · rw [hworker v hvw] at hv
      have hp := h.busy v u hv
      rw [Function.update_of_ne, hp]
      rintro rfl
      exact hvw (Place.taken.inj (hp.symm.trans hplace))
  · intro u
    by_cases hu : u = t
    · subst hu
      rw [Function.update_self]
      refine ⟨⟨hmade.accepted, ?_, ?_, hmade.pending⟩, fun he => ?_, ?_, ?_⟩
      · show s.call u = ⟨(s.call u).number, (Function.update s.job u _ u).task, (Function.update s.job u _ u).function,
          (Function.update s.job u _ u).arg⟩
        rw [Function.update_self]
        exact hmade.call
      · show (Function.update s.job u _ u).task = u
        rw [Function.update_self]
        exact hmade.task
      · change s.caller u = .idle at he
        rwa [he] at hwaits
      · show (Function.update s.job u _ u).done = true
        rw [Function.update_self]
      · show (s.call u, (Function.update s.job u _ u).result, (Function.update s.job u _ u).savedErrno) ∈ s.executed
        rw [Function.update_self]
        exact hexec
    · rw [Function.update_of_ne hu]
      refine (h.places u).others ⟨Function.update_of_ne hu _ _, rfl, rfl, id, id, fun _ hx => hx, id, id⟩ fun v hv => ?_
      refine hworker v ?_
      rintro rfl
      exact h.not_taken (by rw [hjob]; exact fun e => hu (Option.some.inj e).symm) hv
  · exact h.executed
  · exact h.once
  · intro c hc
    refine (h.ran c hc).imp_right fun ⟨v, u, hv, he⟩ => ⟨v, u, (hworker v ?_).trans hv, he⟩
    rintro rfl
    cases hw.symm.trans hv
  · exact h.returned
  · exact h.returns

/-- A task whose job is done returns from the call. -/
theorem leave (h : Core s l place) (hc : s.caller t = .finish out) :
    Core { s.resume t .idle with log := s.log ++ [.done (s.call t) (if out then some (s.job t).result else none)
      (s.job t).savedErrno] } l (Function.update place t .none) := by
  have hne : place t ≠ .none := h.place_of_not_idle (by rw [hc]; nofun)
  have hplace : place t = .done := by
    have hat := h.places t
    cases hp : place t with
    | none => exact absurd hp hne
    | queued =>
      rw [hp, At, hc] at hat
      exact hat.2.1.elim
    | taken w =>
      rw [hp, At, hc] at hat
      exact hat.2.1.elim
    | done => rfl
  have hat := h.places t
  rw [hplace] at hat
  obtain ⟨hmade, -, -, hexec⟩ := hat
  have hlog : ∀ r,
      returnedOf { s.resume t .idle with log := s.log ++ [Return.done (s.call t) r (s.job t).savedErrno] } =
      returnedOf s ++ [s.call t] := fun r => by
    rw [returnedOf, List.filterMap_append]
    rfl
  constructor
  · exact h.repr
  · exact h.accepted
  · exact h.numbers
  · intro u
    rw [h.queued u]
    by_cases hu : u = t
    · rw [hu, hplace, Function.update_self]
      exact ⟨nofun, nofun⟩
    · rw [Function.update_of_ne hu]
  · intro v u hv
    have hp := h.busy v u hv
    rw [Function.update_of_ne, hp]
    rintro rfl
    cases hplace.symm.trans hp
  · intro u
    by_cases hu : u = t
    · rw [hu, Function.update_self]
      exact Function.update_self ..
    · rw [Function.update_of_ne hu]
      by_cases hidle : place u = .none
      · have := h.places u
        rw [hidle] at this ⊢
        exact (Function.update_of_ne hu ..).trans this
      · refine (h.places u).others ⟨rfl, rfl, Function.update_of_ne hu _ _, id, id, fun _ hx => hx, id, fun hn hm => ?_⟩
          fun v hv => rfl
        rw [hlog, List.mem_append, List.mem_singleton] at hm
        exact hm.elim hn (h.call_ne hidle hne hu)
  · exact h.executed
  · exact h.once
  · exact h.ran
  · intro c r e hr
    rcases List.mem_append.mp hr with hr | hr
    · exact h.returned c r e hr
    · cases List.mem_singleton.mp hr
      refine ⟨_, hexec, ?_⟩
      cases out with
      | false => exact .inl rfl
      | true => exact .inr rfl
  · rw [hlog, List.nodup_append]
    refine ⟨h.returns, List.nodup_singleton _, fun a ha b hb => ?_⟩
    rintro rfl
    exact hmade.pending (List.mem_singleton.mp hb ▸ ha)

end Core

/-! ## Parked tasks and sleeping threads -/

/-- Where a task could park for good, it is about to be unparked when its job is
done, or it has been. -/
structure Awake (s : State) : Prop where
  park : ∀ t out, s.caller t = .park out → (s.job t).done = true →
    (∃ w, s.worker w = .unpark t) ∨ s.pending t = true
  parked : ∀ t out, s.caller t = .parked out → (s.job t).done = true → ∃ w, s.worker w = .unpark t

theorem Awake.frame (h : Awake s) (hw : ∀ w t, s.worker w = .unpark t → s'.worker w = .unpark t)
    (hd : ∀ t, (s'.job t).done = true → (s.job t).done = true)
    (hpark : ∀ t out, s'.caller t = .park out → s.caller t = .park out ∧ (s.pending t = true → s'.pending t = true))
    (hparked : ∀ t out, s'.caller t = .parked out → s.caller t = .parked out) : Awake s' where
  park t out hc hdone := by
    obtain ⟨hc, hp⟩ := hpark t out hc
    exact (h.park t out hc (hd t hdone)).imp (fun ⟨w, hu⟩ => ⟨w, hw w t hu⟩) hp
  parked t out hc hdone := by
    obtain ⟨w, hu⟩ := h.parked t out (hparked t out hc) (hd t hdone)
    exact ⟨w, hw w t hu⟩

/-- A thread that has no task to unpark takes a step. -/
theorem Awake.goto (h : Awake s) {c : Worker} (hw : ∀ t, s.worker w ≠ .unpark t) : Awake (s.goto w c) :=
  h.frame (fun v t hv => by
    rw [s.goto_of_ne, hv]
    rintro rfl
    exact hw t hv) (fun _ hd => hd) (fun _ _ hc => ⟨hc, id⟩) fun _ _ hc => hc

theorem Awake.enqueue (h : Awake s) {f a : Nat} : Awake (s.enqueue t f a out) := by
  have hcaller : ∀ u c, Function.update s.caller t (.poll out) u = c → c ≠ .poll out →
      s.caller u = c := fun u c hu hc => by
    by_cases hut : u = t
    · subst hut
      exact absurd (hu.symm.trans (Function.update_self ..)) hc
    · rwa [Function.update_of_ne hut] at hu
  refine h.frame (fun _ _ hv => hv) (fun u hd => ?_) (fun u o hu => ⟨hcaller u _ hu nofun, id⟩)
    fun u o hu => hcaller u _ hu nofun
  change (Function.update s.job t _ u).done = true at hd
  by_cases hu : u = t
  · subst hu
    rw [Function.update_self] at hd
    cases hd
  · rwa [Function.update_of_ne hu] at hd

/-- A task goes on without parking. -/
theorem Awake.resume (h : Awake s) {c : Caller} (hc : ∀ out, c ≠ .park out ∧ c ≠ .parked out) :
    Awake (s.resume t c) := by
  refine h.frame (fun _ _ hv => hv) (fun _ hd => hd) (fun u o hu => ⟨?_, id⟩) fun u o hu => ?_
  · by_cases hut : u = t
    · rw [hut, s.resume_self] at hu
      exact absurd hu (hc o).1
    · rwa [s.resume_of_ne c hut] at hu
  · by_cases hut : u = t
    · rw [hut, s.resume_self] at hu
      exact absurd hu (hc o).2
    · rwa [s.resume_of_ne c hut] at hu

/-- The task of an unpark does not stay parked, nor does it park. -/
theorem Awake.unpark (h : Awake s) (t : Nat) : Awake (s.unpark t) ∧
    ∀ out, (s.unpark t).caller t ≠ .parked out ∧
      ((s.unpark t).caller t = .park out → (s.unpark t).pending t = true) := by
  unfold State.unpark
  split
  · rename_i out hc
    refine ⟨h.resume fun o => ⟨nofun, nofun⟩, fun o => ?_⟩
    rw [s.resume_self]
    exact ⟨nofun, nofun⟩
  · rename_i hc
    refine ⟨h.frame (fun _ _ hv => hv) (fun _ hd => hd) (fun u o hu => ⟨hu, fun hp => ?_⟩) fun _ _ hu => hu,
      fun o => ⟨hc o, fun _ => Function.update_self ..⟩⟩
    show Function.update s.pending t true u = true
    rw [Function.update_apply, hp]
    exact ite_self true

/-- How many threads are about to look at the queue. -/
def staff (s : State) : Nat := (List.range s.threads).countP fun w => decide (s.worker w = .check)

/-- The jobs in the queue are those that were accepted and not started. -/
structure Staffed (s : State) : Prop where
  asleep : ∀ w, s.worker w = .asleep → s.accepted.length ≤ s.started.length + staff s
  exited : ∀ w < s.threads, s.worker w = .exited → s.stop = true ∧ s.accepted.length = s.started.length
  stop : s.stop = true → ∀ w, s.worker w ≠ .asleep
  threads : ∀ w, s.threads ≤ w → s.worker w = .exited

theorem countP_range_update {α : Type} (p : α → Bool) (f : Nat → α) (c : α) : ∀ {n : Nat}, w < n →
    (List.range n).countP (fun v => p (Function.update f w c v)) + (p (f w)).toNat =
      (List.range n).countP (fun v => p (f v)) + (p c).toNat
  | n + 1, hw => by
    rw [List.range_succ, List.countP_append, List.countP_append, List.countP_singleton, List.countP_singleton]
    by_cases hn : w = n
    · subst hn
      have hcongr : (List.range w).countP (fun v => p (Function.update f w c v)) =
          (List.range w).countP fun v => p (f v) :=
        List.countP_congr fun v hv => by rw [Function.update_of_ne (Nat.ne_of_lt (List.mem_range.mp hv))]
      rw [hcongr, Function.update_self]
      cases p (f w) <;> cases p c <;> simp
    · have := countP_range_update p f c (n := n) (by omega)
      rw [Function.update_of_ne (Ne.symm hn)]
      omega

theorem staff_goto {c : Worker} (hw : w < s.threads) :
    staff (s.goto w c) + (decide (s.worker w = .check)).toNat = staff s + (decide (c = .check)).toNat :=
  countP_range_update (fun c => decide (c = Worker.check)) s.worker c hw

/-- A step after which no thread sleeps, or has ended, that did not before, and
all that were about to look at the queue are. -/
theorem Staffed.frame (h : Staffed s) (hthreads : s'.threads = s.threads) (hacc : s'.accepted = s.accepted)
    (hstarted : s'.started = s.started) (hstop : s.stop = true → s'.stop = true)
    (hstopped : s'.stop = true → ∀ w, s'.worker w ≠ .asleep)
    (hw : ∀ w, s'.worker w = s.worker w ∨ s.worker w ≠ .check ∧ s.worker w ≠ .exited ∧ s'.worker w ≠ .asleep ∧
      s'.worker w ≠ .exited) : Staffed s' where
  asleep w hs := by
    have hstaff : staff s ≤ staff s' := by
      rw [staff, staff, hthreads]
      refine List.countP_mono_left fun v _ hv => ?_
      rw [decide_eq_true_eq] at hv ⊢
      exact (hw v).elim (fun he => he.trans hv) fun he => absurd hv he.1
    have := h.asleep w ((hw w).elim (fun he => he ▸ hs) fun he => absurd hs he.2.2.1)
    rw [hacc, hstarted]
    omega
  exited w hlt hs := by
    rw [hthreads] at hlt
    obtain ⟨hst, hlen⟩ := h.exited w hlt ((hw w).elim (fun he => he ▸ hs) fun he => absurd hs he.2.2.2)
    rw [hacc, hstarted]
    exact ⟨hstop hst, hlen⟩
  stop := hstopped
  threads w hle := by
    have := h.threads w (hthreads ▸ hle)
    exact (hw w).elim (fun he => he.trans this) fun he => absurd this he.2.1

/-- A step of thread `w`, from a place where it neither looks at the queue nor
has ended. -/
theorem Staffed.goto (h : Staffed s) {c : Worker} (hw : s.worker w ≠ .check ∧ s.worker w ≠ .exited)
    (hc : c ≠ .asleep ∧ c ≠ .exited) : Staffed (s.goto w c) := by
  have hcases : ∀ v, (s.goto w c).worker v = s.worker v ∨ s.worker v ≠ .check ∧ s.worker v ≠ .exited ∧
      (s.goto w c).worker v ≠ .asleep ∧ (s.goto w c).worker v ≠ .exited := fun v => by
    by_cases hv : v = w
    · subst hv
      rw [s.goto_self]
      exact .inr ⟨hw.1, hw.2, hc.1, hc.2⟩
    · exact .inl (s.goto_of_ne c hv)
  refine h.frame rfl rfl rfl id (fun hs v => ?_) hcases
  rcases hcases v with he | ⟨-, -, hn, -⟩
  · exact he ▸ h.stop hs v
  · exact hn

/-! ## The steps -/

structure Inv (s : State) : Prop where
  core : ∃ l place, Core s l place
  awake : Awake s
  staffed : Staffed s

namespace Core

theorem Same.goto {c : Worker} (hw : (s.worker w).job = Option.none) (hc : c.job = Option.none)
    (place : Nat → Place) : Same s (s.goto w c) place :=
  ⟨rfl, rfl, rfl, rfl, rfl, rfl, rfl, rfl, fun _ _ _ hr => hr, fun v => by
    by_cases hv : v = w
    · rw [hv, s.goto_self]
      exact .inr ⟨hc, hw⟩
    · exact .inl (s.goto_of_ne c hv), fun _ => .inl rfl⟩

theorem Same.resume {c : Caller}
    (hc : (s.caller t).waits ∧ c.waits ∨ place t = .done ∧ c ≠ .idle) : Same s (s.resume t c) place :=
  ⟨rfl, rfl, rfl, rfl, rfl, rfl, rfl, rfl, fun _ _ _ hr => hr, fun _ => .inl rfl, fun u => by
    by_cases hu : u = t
    · rw [hu, s.resume_self]
      exact .inr hc
    · exact .inl (s.resume_of_ne c hu)⟩

theorem Same.pending (place : Nat → Place) (b : Nat → Bool) : Same s { s with pending := b } place :=
  ⟨rfl, rfl, rfl, rfl, rfl, rfl, rfl, rfl, fun _ _ _ hr => hr, fun _ => .inl rfl, fun _ => .inl rfl⟩

theorem Same.refuse (place : Nat → Place) (st : Status) : Same s (s.refuse st) place :=
  ⟨rfl, rfl, rfl, rfl, rfl, rfl, rfl, by simp [returnedOf, State.refuse, Return.call], fun c r e hr => by
    simpa [State.refuse] using hr, fun _ => .inl rfl, fun _ => .inl rfl⟩

theorem Same.unpark (t : Nat) (place : Nat → Place) : Same s (s.unpark t) place := by
  unfold State.unpark
  split
  · rename_i out hc
    exact .resume (.inl ⟨by rw [hc]; trivial, trivial⟩)
  · exact .pending place _

end Core

theorem signal_cases {wake : Option Nat} (h : s.signal wake = some s') :
    (∃ w, s.worker w = .asleep ∧ s' = s.goto w .check) ∨ s' = s ∧ ∀ w < s.threads, s.worker w ≠ .asleep := by
  cases wake with
  | none =>
    simp only [State.signal] at h
    split at h
    · rename_i hall
      exact .inr ⟨(Option.some.inj h).symm, hall⟩
    · cases h
  | some w =>
    simp only [State.signal] at h
    split at h
    · rename_i hw
      exact .inl ⟨w, hw, (Option.some.inj h).symm⟩
    · cases h

theorem Staffed.lt_threads (h : Staffed s) (hw : s.worker w ≠ .exited) : w < s.threads := by
  by_contra hle
  exact hw (h.threads w (Nat.le_of_not_lt hle))

/-- One more job is in the queue, and a thread is woken for it if one sleeps. -/
theorem Staffed.signal {s₁ : State} {wake : Option Nat} (h : Staffed s) (hs : s₁.signal wake = some s')
    (hstop : s.stop = false) (hthreads : s₁.threads = s.threads) (hworker : s₁.worker = s.worker)
    (hstop₁ : s₁.stop = s.stop) (hacc : s₁.accepted.length = s.accepted.length + 1)
    (hstarted : s₁.started = s.started) :
    Staffed s' := by
  have hnot : ∀ w, s.worker w = .exited → s.threads ≤ w := fun w hw => by
    by_contra hlt
    exact absurd ((h.exited w (Nat.lt_of_not_le hlt) hw).1) (by rw [hstop]; nofun)
  rcases signal_cases hs with ⟨w, hw, rfl⟩ | ⟨rfl, hall⟩
  · have hlt : w < s.threads := h.lt_threads (by rw [← hworker, hw]; nofun)
    have hstaff := staff_goto (s := s₁) (c := .check) (w := w) (hthreads ▸ hlt)
    have hsame : staff s₁ = staff s := by rw [staff, hthreads, hworker, staff]
    rw [hw] at hstaff
    simp only [reduceCtorEq, decide_false, decide_true, Bool.toNat_false, Bool.toNat_true] at hstaff
    refine ⟨fun v _ => ?_, fun v hv he => ?_, fun hs => ?_, fun v hv => ?_⟩
    · have := h.asleep w (hworker ▸ hw)
      show s₁.accepted.length ≤ s₁.started.length + _
      rw [hacc, hstarted]
      omega
    · by_cases hvw : v = w
      · rw [hvw, s₁.goto_self] at he
        cases he
      · rw [s₁.goto_of_ne _ hvw, hworker] at he
        exact absurd (hnot v he) (Nat.not_le_of_lt (hthreads ▸ hv))
    · change s₁.stop = true at hs
      rw [hstop₁, hstop] at hs
      cases hs
    · have hle : s.threads ≤ v := hthreads ▸ hv
      rw [s₁.goto_of_ne _ (Nat.ne_of_gt (Nat.lt_of_lt_of_le hlt hle)), hworker]
      exact h.threads v hle
  · refine ⟨fun v hv => ?_, fun v hv he => ?_, fun hs => ?_, fun v hv => ?_⟩
    · refine absurd hv (hall v ?_)
      rw [hthreads]
      exact h.lt_threads (by rw [← hworker, hv]; nofun)
    · rw [hworker] at he
      exact absurd (hnot v he) (Nat.not_le_of_lt (hthreads ▸ hv))
    · rw [hstop₁, hstop] at hs
      cases hs
    · rw [hworker]
      exact h.threads v (hthreads ▸ hv)

theorem Inv.call (h : Inv s) {task function wake : Option Nat} {a : Nat}
    (hs : s.blockingCall task function a out wake = some s') : Inv s' := by
  obtain ⟨⟨l, place, hcore⟩, hawake, hstaffed⟩ := h
  have hrefuse : ∀ st, Inv (s.refuse st) := fun st =>
    ⟨⟨l, place, hcore.frame (.refuse place st)⟩, ⟨hawake.park, hawake.parked⟩,
      ⟨hstaffed.asleep, hstaffed.exited, hstaffed.stop, hstaffed.threads⟩⟩
  unfold State.blockingCall at hs
  split at hs
  · exact Option.some.inj hs ▸ hrefuse _
  · exact Option.some.inj hs ▸ hrefuse _
  · rename_i f t
    split at hs
    · rename_i hidle
      split at hs
      · exact Option.some.inj hs ▸ hrefuse _
      · split at hs
        · exact Option.some.inj hs ▸ hrefuse _
        · rename_i hstop
          have hcore' := hcore.enqueue f a out hidle
          have hawake' : Awake (s.enqueue t f a out) := hawake.enqueue
          have hstaffed' := hstaffed.signal hs (Bool.eq_false_iff.mpr hstop) rfl rfl rfl (by simp [State.enqueue]) rfl
          rcases signal_cases hs with ⟨w, hw, rfl⟩ | ⟨rfl, -⟩
          · exact ⟨⟨_, _, hcore'.frame (.goto (by rw [hw]; rfl) rfl _)⟩, hawake'.goto (by rw [hw]; nofun), hstaffed'⟩
          · exact ⟨⟨_, _, hcore'⟩, hawake', hstaffed'⟩
    · cases hs

/-- A step of the task in the call. -/
theorem Inv.caller (h : Inv s) (hs : s.callerStep t = some s') : Inv s' := by
  obtain ⟨⟨l, place, hcore⟩, hawake, hstaffed⟩ := h
  have hstaff : ∀ c, Staffed (s.resume t c) := fun c =>
    ⟨hstaffed.asleep, hstaffed.exited, hstaffed.stop, hstaffed.threads⟩
  unfold State.callerStep at hs
  split at hs
  · cases hs
  · cases hs
  · rename_i o hc
    rw [Option.some.injEq] at hs
    subst hs
    have hwaits : (s.caller t).waits := by rw [hc]; trivial
    split
    · rename_i hdone
      have hplace := (hcore.places t).of_done (hcore.place_of_not_idle (by rw [hc]; nofun)) hdone
      exact ⟨⟨l, place, hcore.frame (.resume (.inr ⟨hplace, nofun⟩))⟩, hawake.resume fun _ => ⟨nofun, nofun⟩, hstaff _⟩
    · -- the job was not done when the task looked
      rename_i hdone
      refine ⟨⟨l, place, hcore.frame (.resume (.inl ⟨hwaits, trivial⟩))⟩, ⟨fun u o' hu hd => ?_, fun u o' hu hd => ?_⟩,
        hstaff _⟩
      · by_cases hut : u = t
        · exact absurd (hut ▸ hd) hdone
        · exact hawake.park u o' (by rwa [s.resume_of_ne _ hut] at hu) hd
      · by_cases hut : u = t
        · rw [hut, s.resume_self] at hu
          cases hu
        · exact hawake.parked u o' (by rwa [s.resume_of_ne _ hut] at hu) hd
  · rename_i o hc
    rw [Option.some.injEq] at hs
    subst hs
    have hwaits : (s.caller t).waits := by rw [hc]; trivial
    unfold State.park
    split
    · have hcore' := hcore.frame (.pending place (Function.update s.pending t false))
      refine ⟨⟨l, place, hcore'.frame (.resume (.inl ⟨hwaits, trivial⟩))⟩, ⟨fun u o' hu hd => ?_, fun u o' hu hd => ?_⟩,
        ⟨hstaffed.asleep, hstaffed.exited, hstaffed.stop, hstaffed.threads⟩⟩
      · by_cases hut : u = t
        · rw [hut, State.resume_self] at hu
          cases hu
        · rw [State.resume_of_ne _ _ hut] at hu
          refine (hawake.park u o' hu hd).imp_right fun hp => ?_
          exact (Function.update_of_ne hut ..).trans hp
      · by_cases hut : u = t
        · rw [hut, State.resume_self] at hu
          cases hu
        · rw [State.resume_of_ne _ _ hut] at hu
          exact hawake.parked u o' hu hd
    · rename_i hpending
      refine ⟨⟨l, place, hcore.frame (.resume (.inl ⟨hwaits, trivial⟩))⟩, ⟨fun u o' hu hd => ?_, fun u o' hu hd => ?_⟩,
        hstaff _⟩
      · by_cases hut : u = t
        · rw [hut, s.resume_self] at hu
          cases hu
        · exact hawake.park u o' (by rwa [s.resume_of_ne _ hut] at hu) hd
      · by_cases hut : u = t
        · subst hut
          exact (hawake.park u o hc hd).resolve_right hpending
        · exact hawake.parked u o' (by rwa [s.resume_of_ne _ hut] at hu) hd
  · rename_i o hc
    rw [Option.some.injEq] at hs
    subst hs
    have hawake' := hawake.resume (t := t) (c := .idle) fun _ => ⟨nofun, nofun⟩
    exact ⟨⟨l, _, hcore.leave hc⟩, ⟨hawake'.park, hawake'.parked⟩,
      ⟨hstaffed.asleep, hstaffed.exited, hstaffed.stop, hstaffed.threads⟩⟩

theorem take_nil {q : Links Nat} (h : q.Repr []) : take q = none := by
  rw [take, h.head]
  rfl

theorem take_cons {q : Links Nat} (h : q.Repr (j :: l)) : ∃ q', take q = some (j, q') ∧ q'.Repr l := by
  refine ⟨_, by rw [take, h.head]; rfl, h.chain.2, h.tail_of_cons⟩

/-- A thread looks at the queue. -/
theorem Inv.check (h : Inv s) (hs : s.checkStep w = some s') : Inv s' := by
  obtain ⟨⟨l, place, hcore⟩, hawake, hstaffed⟩ := h
  unfold State.checkStep at hs
  split at hs
  · rename_i hw
    have hnone : (s.worker w).job = none := by rw [hw]; rfl
    have hlt : w < s.threads := hstaffed.lt_threads (by rw [hw]; nofun)
    have hlen : s.accepted.length = s.started.length + l.length := by
      rw [hcore.accepted, List.length_append, List.length_map]
    cases l with
    | nil =>
      rw [take_nil hcore.repr] at hs
      dsimp only at hs
      rw [Option.some.injEq] at hs
      subst hs
      split
      · rename_i hstop
        refine ⟨⟨[], place, hcore.frame (.goto hnone rfl place)⟩, hawake.goto (by rw [hw]; nofun),
          ⟨fun v hv => ?_, fun v _ _ => ⟨hstop, hlen⟩, fun _ v hv => ?_, fun v hv => ?_⟩⟩
        · by_cases hvw : v = w
          · rw [hvw, s.goto_self] at hv
            cases hv
          · rw [s.goto_of_ne _ hvw] at hv
            exact absurd hv (hstaffed.stop hstop v)
        · by_cases hvw : v = w
          · rw [hvw, s.goto_self] at hv
            cases hv
          · rw [s.goto_of_ne _ hvw] at hv
            exact hstaffed.stop hstop v hv
        · by_cases hvw : v = w
          · rw [hvw, s.goto_self]
          · rw [s.goto_of_ne _ hvw]
            exact hstaffed.threads v hv
      · rename_i hstop
        refine ⟨⟨[], place, hcore.frame (.goto hnone rfl place)⟩, hawake.goto (by rw [hw]; nofun),
          ⟨fun v _ => ?_, fun v hv he => ?_, fun hs => absurd hs hstop, fun v hv => ?_⟩⟩
        · show s.accepted.length ≤ s.started.length + _
          rw [hlen]
          exact Nat.add_le_add_left (Nat.zero_le _) _
        · by_cases hvw : v = w
          · rw [hvw, s.goto_self] at he
            cases he
          · rw [s.goto_of_ne _ hvw] at he
            exact hstaffed.exited v hv he
        · rw [s.goto_of_ne _ (Nat.ne_of_gt (Nat.lt_of_lt_of_le hlt hv))]
          exact hstaffed.threads v hv
    | cons j l =>
      obtain ⟨q, hq, hrepr⟩ := take_cons hcore.repr
      rw [hq] at hs
      dsimp only at hs
      rw [Option.some.injEq] at hs
      subst hs
      have hawake' := hawake.goto (c := .run j) (w := w) (by rw [hw]; nofun)
      have hstaff := staff_goto (s := s) (c := .run j) hlt
      rw [hw] at hstaff
      simp only [reduceCtorEq, decide_false, decide_true, Bool.toNat_false, Bool.toNat_true, Nat.add_zero] at hstaff
      refine ⟨⟨l, _, hcore.take_head hnone hrepr⟩, ⟨hawake'.park, hawake'.parked⟩,
        ⟨fun v hv => ?_, fun v hv he => ?_, fun hs v hv => ?_, fun v hv => ?_⟩⟩
      · have hvw : v ≠ w := fun e => by
          change (s.goto w (.run j)).worker v = .asleep at hv
          rw [e, s.goto_self] at hv
          cases hv
        change (s.goto w (.run j)).worker v = .asleep at hv
        rw [s.goto_of_ne _ hvw] at hv
        have hle := hstaffed.asleep v hv
        show s.accepted.length ≤ (s.started ++ [s.call j]).length + staff (s.goto w (.run j))
        rw [List.length_append, List.length_singleton]
        omega
      · change (s.goto w (.run j)).worker v = .exited at he
        by_cases hvw : v = w
        · rw [hvw, s.goto_self] at he
          cases he
        · rw [s.goto_of_ne _ hvw] at he
          have := (hstaffed.exited v hv he).2
          rw [List.length_cons] at hlen
          omega
      · change (s.goto w (.run j)).worker v = .asleep at hv
        by_cases hvw : v = w
        · rw [hvw, s.goto_self] at hv
          cases hv
        · rw [s.goto_of_ne _ hvw] at hv
          exact hstaffed.stop hs v hv
      · show (s.goto w (.run j)).worker v = .exited
        rw [s.goto_of_ne _ (Nat.ne_of_gt (Nat.lt_of_lt_of_le hlt hv))]
        exact hstaffed.threads v hv
  · cases hs

/-- A store to another field of a job does not mark it done. -/
theorem done_of_update {b : Job} (h : (Function.update s.job j b u).done = true) (hb : b.done = (s.job j).done) :
    (s.job u).done = true := by
  by_cases hu : u = j
  · rwa [hu, Function.update_self, hb, ← hu] at h
  · rwa [Function.update_of_ne hu] at h

theorem worker_unpark (s : State) (t : Nat) : (s.unpark t).worker = s.worker := by
  unfold State.unpark
  split
  · rfl
  · rfl

theorem Staffed.unpark (h : Staffed s) (t : Nat) : Staffed (s.unpark t) := by
  unfold State.unpark
  split
  · exact ⟨h.asleep, h.exited, h.stop, h.threads⟩
  · exact ⟨h.asleep, h.exited, h.stop, h.threads⟩

/-- The function of a job returns. -/
theorem Inv.run (h : Inv s) {r : Nat} {e : Int} (hs : s.runStep w r e = some s') : Inv s' := by
  obtain ⟨⟨l, place, hcore⟩, hawake, hstaffed⟩ := h
  unfold State.runStep at hs
  split at hs
  · rename_i j hw
    rw [Option.some.injEq] at hs
    subst hs
    have hjob : (s.worker w).job = some j := by rw [hw]; rfl
    have hat := hcore.stage hjob
    rw [At, hw] at hat
    obtain ⟨hmade, -, -, -, -, hfresh⟩ := hat
    rw [← hmade.call]
    have hmap : (s.executed ++ [(s.call j, r, e)]).map Prod.fst = calledOf s ++ [s.call j] := by
      rw [List.map_append]
      rfl
    have hmem : (s.call j, r, e) ∈ s.executed ++ [(s.call j, r, e)] :=
      List.mem_append_right _ (List.mem_singleton.mpr rfl)
    refine ⟨⟨l, place, hcore.work hjob rfl ⟨rfl, rfl, rfl, rfl⟩ (List.prefix_append _ _) ?_ ?_ ?_ ⟨rfl, ?_⟩⟩, ?_, ?_⟩
    · rw [hmap, List.nodup_append]
      refine ⟨hcore.once, List.nodup_singleton _, fun a ha b hb => ?_⟩
      rintro rfl
      exact hfresh (List.mem_singleton.mp hb ▸ ha)
    · intro y hy
      exact (List.mem_append.mp hy).imp_right fun hy => congrArg Prod.fst (List.mem_singleton.mp hy)
    · intro _ _
      rw [hmap]
      exact List.mem_append_right _ (List.mem_singleton.mpr rfl)
    · show (s.call j, (Function.update s.job j _ j).result, e) ∈ _
      rw [Function.update_self]
      exact hmem
    · refine (hawake.goto (c := .saveErrno j e) (w := w) (by rw [hw]; nofun)).frame (fun _ _ hv => hv) (fun u hd => ?_)
        (fun _ _ hc => ⟨hc, id⟩) fun _ _ hc => hc
      exact (done_of_update hd rfl : (s.job u).done = true)
    · have := hstaffed.goto (w := w) (c := .saveErrno j e) (by rw [hw]; exact ⟨nofun, nofun⟩) ⟨nofun, nofun⟩
      exact ⟨this.asleep, this.exited, this.stop, this.threads⟩
  · cases hs

/-- A thread takes a step after the function of its job has returned. -/
theorem Inv.worker (h : Inv s) (hs : s.workerStep w = some s') : Inv s' := by
  obtain ⟨⟨l, place, hcore⟩, hawake, hstaffed⟩ := h
  unfold State.workerStep at hs
  split at hs
  · rename_i j e hw
    rw [Option.some.injEq] at hs
    subst hs
    have hjob : (s.worker w).job = some j := by rw [hw]; rfl
    have hat := hcore.stage hjob
    rw [At, hw] at hat
    obtain ⟨-, -, -, -, -, hexec⟩ := hat
    refine ⟨⟨l, place, hcore.work hjob rfl ⟨rfl, rfl, rfl, rfl⟩ (List.prefix_refl _) hcore.once (fun y hy => .inl hy) ?_
      ⟨rfl, ?_⟩⟩, ?_, ?_⟩
    · intro i hi
      cases hw.symm.trans hi
    · show (s.call j, (Function.update s.job j _ j).result, (Function.update s.job j _ j).savedErrno) ∈ s.executed
      rw [Function.update_self]
      exact hexec
    · refine (hawake.goto (c := .setDone j) (w := w) (by rw [hw]; nofun)).frame (fun _ _ hv => hv) (fun u hd => ?_)
        (fun _ _ hc => ⟨hc, id⟩) fun _ _ hc => hc
      exact (done_of_update hd rfl : (s.job u).done = true)
    · have := hstaffed.goto (w := w) (c := .setDone j) (by rw [hw]; exact ⟨nofun, nofun⟩) ⟨nofun, nofun⟩
      exact ⟨this.asleep, this.exited, this.stop, this.threads⟩
  · rename_i j hw
    rw [Option.some.injEq] at hs
    subst hs
    have hjob : (s.worker w).job = some j := by rw [hw]; rfl
    have htask := (hcore.stage hjob).1.task
    have hself : (s.goto w (.unpark (s.job j).task)).worker w = .unpark j := by rw [s.goto_self, htask]
    have hkeep := hawake.goto (c := .unpark (s.job j).task) (w := w) (by rw [hw]; nofun)
    have hold : ∀ u, u ≠ j → (Function.update s.job j { s.job j with done := true } u).done = true →
        (s.job u).done = true := fun u hu hd => by rwa [Function.update_of_ne hu] at hd
    refine ⟨⟨l, _, hcore.mark_done hw⟩, ⟨fun u o hu hd => ?_, fun u o hu hd => ?_⟩, ?_⟩
    · by_cases huj : u = j
      · exact .inl ⟨w, huj ▸ hself⟩
      · exact hkeep.park u o hu (hold u huj hd)
    · by_cases huj : u = j
      · exact ⟨w, huj ▸ hself⟩
      · exact hkeep.parked u o hu (hold u huj hd)
    · have := hstaffed.goto (w := w) (c := .unpark (s.job j).task) (by rw [hw]; exact ⟨nofun, nofun⟩) ⟨nofun, nofun⟩
      exact ⟨this.asleep, this.exited, this.stop, this.threads⟩
  · rename_i t hw
    rw [Option.some.injEq] at hs
    subst hs
    obtain ⟨hup, htask⟩ := hawake.unpark t
    have hworker : (s.unpark t).worker = s.worker := worker_unpark s t
    have hstaffed' : Staffed (s.unpark t) := hstaffed.unpark t
    refine ⟨⟨l, place, (hcore.frame (.unpark t place)).frame (.goto (by rw [hworker, hw]; rfl) rfl place)⟩,
      ⟨fun u o hu hd => ?_, fun u o hu hd => ?_⟩,
      hstaffed'.goto (by rw [hworker, hw]; exact ⟨nofun, nofun⟩) ⟨nofun, nofun⟩⟩
    · by_cases hut : u = t
      · subst hut
        exact .inr ((htask o).2 hu)
      · exact (hup.park u o hu hd).imp_left fun ⟨v, hv⟩ => ⟨v, by
          rw [State.goto_of_ne, hv]
          rintro rfl
          rw [hworker, hw] at hv
          exact hut (Worker.unpark.inj hv).symm⟩
    · by_cases hut : u = t
      · subst hut
        exact absurd hu (htask o).1
      · obtain ⟨v, hv⟩ := hup.parked u o hu hd
        refine ⟨v, ?_⟩
        rw [State.goto_of_ne, hv]
        rintro rfl
        rw [hworker, hw] at hv
        exact hut (Worker.unpark.inj hv).symm
  · cases hs

theorem Inv.step {a : Act} (h : Inv s) (hs : machine.step s a = some s') : Inv s' := by
  cases a with
  | call task function arg out wake => exact h.call hs
  | caller t => exact h.caller hs
  | check w => exact h.check hs
  | run w r e => exact h.run hs
  | worker w => exact h.worker hs
  | wake w =>
    obtain ⟨⟨l, place, hcore⟩, hawake, hstaffed⟩ := h
    simp only [machine, Blocking.step] at hs
    split at hs
    · rename_i hw
      rw [Option.some.injEq] at hs
      subst hs
      exact ⟨⟨l, place, hcore.frame (.goto (by rw [hw]; rfl) rfl place)⟩, hawake.goto (by rw [hw]; nofun),
        hstaffed.goto (by rw [hw]; exact ⟨nofun, nofun⟩) ⟨nofun, nofun⟩⟩
    · cases hs
  | unpark t =>
    obtain ⟨⟨l, place, hcore⟩, hawake, hstaffed⟩ := h
    exact Option.some.inj hs ▸ ⟨⟨l, place, hcore.frame (.unpark t place)⟩, (hawake.unpark t).1, hstaffed.unpark t⟩
  | outside t b =>
    obtain ⟨⟨l, place, hcore⟩, hawake, hstaffed⟩ := h
    simp only [machine, Blocking.step] at hs
    split at hs
    · rename_i hidle
      rw [Option.some.injEq] at hs
      subst hs
      refine ⟨⟨l, place, hcore.frame (.pending place _)⟩, ?_,
        ⟨hstaffed.asleep, hstaffed.exited, hstaffed.stop, hstaffed.threads⟩⟩
      refine hawake.frame (fun _ _ hv => hv) (fun _ hd => hd) (fun u o hu => ⟨hu, fun hp => ?_⟩) fun _ _ hu => hu
      refine (Function.update_of_ne ?_ ..).trans hp
      rintro rfl
      cases hidle.symm.trans hu
    · cases hs
  | stop =>
    obtain ⟨⟨l, place, hcore⟩, hawake, hstaffed⟩ := h
    have hcases : ∀ v, (if s.worker v = .asleep then Worker.check else s.worker v) = s.worker v ∨
        s.worker v = .asleep ∧ (if s.worker v = .asleep then Worker.check else s.worker v) = .check := fun v => by
      by_cases hv : s.worker v = .asleep
      · exact .inr ⟨hv, if_pos hv⟩
      · exact .inl (if_neg hv)
    have hnot : ∀ v, (if s.worker v = .asleep then Worker.check else s.worker v) ≠ .asleep := fun v he => by
      rcases hcases v with hv | ⟨hv, hv'⟩
      · rw [if_pos (hv.symm.trans he)] at he
        cases he
      · cases hv'.symm.trans he
    refine Option.some.inj hs ▸ ⟨⟨l, place, hcore.frame ⟨rfl, rfl, rfl, rfl, rfl, rfl, rfl, rfl, fun _ _ _ hr => hr,
      fun v => ?_, fun _ => .inl rfl⟩⟩, ?_, ?_⟩
    · exact (hcases v).imp_right fun ⟨hv, hv'⟩ => ⟨congrArg Worker.job hv', congrArg Worker.job hv⟩
    · refine hawake.frame (fun v u hv => ?_) (fun _ hd => hd) (fun _ _ hc => ⟨hc, id⟩) fun _ _ hc => hc
      refine (if_neg ?_).trans hv
      rw [hv]
      nofun
    · refine hstaffed.frame rfl rfl rfl (fun _ => rfl) (fun _ v => hnot v) fun v => ?_
      exact (hcases v).imp_right fun ⟨hv, hv'⟩ => ⟨by rw [hv]; nofun, by rw [hv]; nofun, hnot v, fun he => by
        cases hv'.symm.trans he⟩

theorem Inv.initial (n : Nat) : Inv (State.initial n) := by
  have hworker : ∀ w, (State.initial n).worker w = .check ∨ (State.initial n).worker w = .exited := fun w => by
    show (if w < n then Worker.check else .exited) = .check ∨ (if w < n then Worker.check else .exited) = .exited
    split
    · exact .inl rfl
    · exact .inr rfl
  refine ⟨⟨[], fun _ => .none, ⟨rfl, rfl⟩, rfl, rfl, fun _ => ⟨nofun, nofun⟩, fun w t hw => ?_, fun _ => rfl, nofun,
    List.nodup_nil, nofun, nofun, List.nodup_nil⟩, ⟨nofun, nofun⟩, fun w hw => ?_, fun w hw he => ?_, nofun,
    fun w hw => if_neg (Nat.not_lt_of_le hw)⟩
  · rcases hworker w with he | he
    · rw [he] at hw
      cases hw
    · rw [he] at hw
      cases hw
  · rcases hworker w with he | he
    · cases he.symm.trans hw
    · cases he.symm.trans hw
  · cases (if_pos hw).symm.trans he

theorem inv_of_reach (h : machine.Reach s) : Inv s :=
  h.invariant (fun _ ⟨n, hn⟩ => hn ▸ .initial n) fun _ _ _ _ hi hs => hi.step hs

/-! ## What callers can rely on -/

/-- What the calls get from the pool. -/
structure Served (s : State) : Prop where
  /-- The jobs are started in the order in which the calls were accepted. -/
  fifo : s.started <+: s.accepted ∧ s.accepted.Nodup
  /-- The function of a call is called once at most, with the argument of the call, and a job that was started is one
  whose function was called or is about to be. -/
  once : (calledOf s).Nodup ∧ (∀ c ∈ calledOf s, c ∈ s.started) ∧
    ∀ c ∈ s.started, c ∈ calledOf s ∨ ∃ w t, s.worker w = .run t ∧ s.call t = c
  /-- A call returns once, what its function returned and left in `errno`. -/
  returned : (returnedOf s).Nodup ∧ ∀ c r e, Return.done c r e ∈ s.log →
    ∃ x, (c, x, e) ∈ s.executed ∧ (r = none ∨ r = some x)
  /-- What a thread has, and what is in the queue, is the job of a task that waits in the call. -/
  frames : (∀ w t, (s.worker w).job = some t → (s.caller t).waits ∧ (s.job t).done = false) ∧
    ∃ l, s.queue.Repr l ∧ ∀ t ∈ l, (s.caller t).waits ∧ (s.job t).done = false

/-- The calls of the pool: started in order, run once, each with its own result,
and none of them used after it has returned. -/
theorem blocking_served (h : machine.Reach s) : Served s := by
  obtain ⟨⟨l, place, hcore⟩, -, -⟩ := inv_of_reach h
  refine ⟨⟨hcore.accepted ▸ List.prefix_append _ _, hcore.nodup_accepted⟩,
    ⟨hcore.once, fun c hc => hcore.called_started hc, hcore.ran⟩, ⟨hcore.returns, hcore.returned⟩,
    fun w t hw => ?_, l, hcore.repr, fun t ht => ?_⟩
  · obtain ⟨-, hwaits, hdone, -⟩ := hcore.stage hw
    exact ⟨hwaits, hdone⟩
  · have hat := hcore.places t
    rw [(hcore.queued t).mp ht] at hat
    exact hat.2

/-- Two threads sleep when task 5 makes a call, and parks. -/
def callActs : List Act := [.check 0, .check 1, .call (some 5) (some 7) 9 true (some 0), .caller 5, .caller 5]

/-- Its job is run, and it returns, while the job of task 6 is in the queue. -/
def returnActs : List Act :=
  [.check 0, .run 0 11 4, .worker 0, .call (some 6) (some 8) 1 false (some 1), .worker 0, .worker 0,
    .caller 5, .caller 5]

theorem blocking_served_return :
    ∃ s, machine.Reach s ∧ s.log = [.done ⟨0, 5, 7, 9⟩ (some 11) 4] ∧ s.queue.head = some 6 ∧ Served s := by
  obtain ⟨s, hr, hs⟩ := machine.exists_reach_of_run (s := State.initial 2) (l := callActs ++ returnActs)
    (p := fun s => decide (s.log = [.done ⟨0, 5, 7, 9⟩ (some 11) 4]) && decide (s.queue.head = some 6)) ⟨2, rfl⟩
    (by decide +kernel)
  simp only [Bool.and_eq_true, decide_eq_true_eq] at hs
  exact ⟨s, hr, hs.1, hs.2, blocking_served hr⟩

/-- Nobody waits for what does not come. -/
structure Unstuck (s : State) : Prop where
  /-- While a thread sleeps, other threads are about to look at the queue for all jobs in it. -/
  staffed : ∀ w, s.worker w = .asleep → ∀ l, s.queue.Repr l →
    l.length ≤ (List.range s.threads).countP fun w => decide (s.worker w = .check)
  /-- A task that is parked in the call waits for a job in the queue, or one that a thread has, or a thread is about
  to unpark it. -/
  parked : ∀ t out, s.caller t = .parked out → (∃ l, s.queue.Repr l ∧ t ∈ l) ∨ (∃ w, (s.worker w).job = some t) ∨
    ∃ w, s.worker w = .unpark t
  /-- A thread ends only after the stop, with nothing in the queue. -/
  exited : ∀ w < s.threads, s.worker w = .exited → s.stop = true ∧ s.queue.Repr []
  /-- When all threads have ended, the jobs of the tasks that are still in the call are done, and none of them is
  parked. -/
  drained : 0 < s.threads → (∀ w < s.threads, s.worker w = .exited) → ∀ t, s.caller t ≠ .idle →
    (s.job t).done = true ∧ ∀ out, s.caller t ≠ .parked out

theorem blocking_unstuck (h : machine.Reach s) : Unstuck s := by
  obtain ⟨⟨l, place, hcore⟩, hawake, hstaffed⟩ := inv_of_reach h
  have hlen : s.accepted.length = s.started.length + l.length := by
    rw [hcore.accepted, List.length_append, List.length_map]
  have hparked : ∀ t out, s.caller t = .parked out →
      (∃ l, s.queue.Repr l ∧ t ∈ l) ∨ (∃ w, (s.worker w).job = some t) ∨ ∃ w, s.worker w = .unpark t := by
    intro t out hc
    have hne := hcore.place_of_not_idle (t := t) (by rw [hc]; nofun)
    have hat := hcore.places t
    cases hp : place t with
    | none => exact absurd hp hne
    | queued => exact .inl ⟨l, hcore.repr, (hcore.queued t).mpr hp⟩
    | taken w =>
      refine .inr (.inl ⟨w, ?_⟩)
      by_contra hw
      exact hcore.not_taken hw hp
    | done =>
      rw [hp] at hat
      exact .inr (.inr (hawake.parked t out hc hat.2.2.1))
  have hexited : ∀ w < s.threads, s.worker w = .exited → s.stop = true ∧ s.queue.Repr [] := fun w hw he => by
    obtain ⟨hstop, heq⟩ := hstaffed.exited w hw he
    have hnil : l = [] := List.length_eq_zero_iff.mp (by omega)
    exact ⟨hstop, hnil ▸ hcore.repr⟩
  refine ⟨fun w hw l' hl' => ?_, hparked, hexited, fun hpos hall t ht => ?_⟩
  · obtain rfl := hl'.unique hcore.repr
    have := hstaffed.asleep w hw
    rw [staff] at this
    omega
  · have hworker : ∀ w, s.worker w = .exited := fun w => by
      by_cases hw : w < s.threads
      · exact hall w hw
      · exact hstaffed.threads w (Nat.le_of_not_lt hw)
    obtain rfl : l = [] := hcore.repr.unique (hexited 0 hpos (hall 0 hpos)).2
    have hnotPark : ∀ out, s.caller t ≠ .parked out := fun out hc => by
      rcases hparked t out hc with ⟨l, hl, hm⟩ | ⟨w, hw⟩ | ⟨w, hw⟩
      · obtain rfl := hl.unique hcore.repr
        cases hm
      · rw [hworker w] at hw
        cases hw
      · cases (hworker w).symm.trans hw
    have hat := hcore.places t
    cases hp : place t with
    | none => exact absurd hp (hcore.place_of_not_idle ht)
    | queued => cases (hcore.queued t).mpr hp
    | taken w => exact absurd hp (hcore.not_taken (by rw [hworker w]; nofun))
    | done =>
      rw [hp] at hat
      exact ⟨hat.2.2.1, hnotPark⟩

theorem blocking_unstuck_parked :
    ∃ s, machine.Reach s ∧ s.worker 1 = .asleep ∧ s.caller 5 = .parked true ∧ s.queue.head = some 5 ∧ Unstuck s := by
  obtain ⟨s, hr, hs⟩ := machine.exists_reach_of_run (s := State.initial 2) (l := callActs)
    (p := fun s => decide (s.worker 1 = .asleep) && decide (s.caller 5 = .parked true) &&
      decide (s.queue.head = some 5)) ⟨2, rfl⟩ (by decide +kernel)
  simp only [Bool.and_eq_true, decide_eq_true_eq] at hs
  exact ⟨s, hr, hs.1.1, hs.1.2, hs.2, blocking_unstuck hr⟩

end Dlsmc.Blocking
