import Mathlib.Tactic.SplitIfs
import Dlsmc.Greenthread.TaskControl

/-!
# Task control blocks are reclaimed once

The decision to reclaim a task depends on little of the state: who is doing what
with which control block, the references, and whether execution has ended. This
part is kept as a value of its own (`Ledger`), with one lemma for each thing
that can happen to it (`Life`). The model's steps are then shown to be such
events (`life_step`); mutual exclusion on `t->lock` (`Locked`), the stages of
the VP (`Stages`) and the list `rt->all_tasks` (`Listed`) are invariants of
their own.
-/

namespace Dlsmc.TaskControl

open Dlsmc.Runtime (TaskState uint32Max)

/-! ## The ledger -/

/-- What the reclamation of tasks depends on. -/
structure Ledger where
  role : Nat → Role
  state : Nat → TaskState
  refs : Nat → Nat
  holders : Nat → List Nat
  released : Nat → Bool
  accepted : List Nat
  unlinked : List Nat
  freed : List Nat

def Ledger.setRole (v : Ledger) (c : Nat) (r : Role) : Ledger := { v with role := Function.update v.role c r }

def Ledger.setState (v : Ledger) (t : Nat) (st : TaskState) : Ledger := { v with state := Function.update v.state t st }

/-- A task that is being reclaimed; `b` tells whether it is unlinked. -/
structure ReclaimOk (v : Ledger) (b : Bool) (t : Nat) : Prop where
  accepted : t ∈ v.accepted
  refs : v.refs t = 0
  released : v.released t = true
  unfreed : t ∉ v.freed
  unlinked : b = true ↔ t ∈ v.unlinked

/-- What must hold of the control block a thread works on. -/
def RoleOk (v : Ledger) (c : Nat) : Role → Prop
  | .none => True
  | .fresh t => v.state t = .new ∧ t ∉ v.accepted ∧ t ∉ v.freed
  | .starting t => c ∈ v.holders t ∧ v.state t = .new
  | .user t => c ∈ v.holders t
  | .vp t => t ∈ v.accepted ∧ v.released t = false ∧ (v.state t = .running ∨ v.state t = .finished)
  | .reclaim b t => ReclaimOk v b t
  | .leaving t => t ∈ v.accepted ∧ t ∉ v.unlinked
  | .runtimeFree => False

/-- What must hold of a task, whoever works on it. -/
structure TaskOk (v : Ledger) (t : Nat) : Prop where
  none : v.state t = .none → t ∉ v.accepted ∧ t ∉ v.freed
  refs : v.refs t = (v.holders t).length ∧ v.refs t ≤ uint32Max
  held : v.holders t ≠ [] → t ∈ v.accepted
  ready : v.state t = .ready ∨ v.state t = .parked → t ∈ v.accepted
  released : v.released t = true → v.state t = .finished
  unlinked : t ∈ v.unlinked → t ∈ v.accepted ∧ v.refs t = 0 ∧ v.released t = true
  freed : t ∈ v.freed → t ∈ v.accepted → t ∈ v.unlinked

/-- The task a thread has for itself alone: no other makes, starts, runs or reclaims it. -/
def Role.owns : Role → Option Nat
  | .fresh t | .starting t | .vp t | .reclaim _ t => some t
  | _ => Option.none

/-- The invariant of the ledger. -/
structure Life (v : Ledger) : Prop where
  roles : ∀ c, RoleOk v c (v.role c)
  tasks : ∀ t, TaskOk v t
  one : ∀ c d t, (v.role c).owns = some t → (v.role d).owns = some t → c = d
  unlinkedOnce : v.unlinked.Nodup
  freedOnce : v.freed.Nodup
  last : ∀ t ∈ v.accepted, v.refs t = 0 → v.released t = true → t ∈ v.freed ∨ ∃ c b, v.role c = .reclaim b t

/-- Two ledgers agree on a task. -/
structure Same (v v' : Ledger) (t : Nat) : Prop where
  state : v'.state t = v.state t
  refs : v'.refs t = v.refs t
  holders : v'.holders t = v.holders t
  released : v'.released t = v.released t
  accepted : t ∈ v'.accepted ↔ t ∈ v.accepted
  unlinked : t ∈ v'.unlinked ↔ t ∈ v.unlinked
  freed : t ∈ v'.freed ↔ t ∈ v.freed

variable {v v' : Ledger} {c d t : Nat} {r : Role}

theorem Same.roleOk (hr : ∀ t, r.task = some t → Same v v' t) (h : RoleOk v d r) : RoleOk v' d r := by
  cases r with
  | none => trivial
  | runtimeFree => exact h
  | fresh t =>
    obtain ⟨e1, -, -, -, e5, -, e7⟩ := hr t rfl
    simpa only [RoleOk, e1, e5, e7] using h
  | starting t => simpa only [RoleOk, (hr t rfl).holders, (hr t rfl).state] using h
  | user t => simpa only [RoleOk, (hr t rfl).holders] using h
  | vp t =>
    obtain ⟨e1, -, -, e4, e5, -, -⟩ := hr t rfl
    simpa only [RoleOk, e1, e4, e5] using h
  | reclaim b t =>
    obtain ⟨-, e2, -, e4, e5, e6, e7⟩ := hr t rfl
    exact ⟨e5.mpr h.accepted, e2.trans h.refs, e4.trans h.released, fun hf => h.unfreed (e7.mp hf),
      h.unlinked.trans e6.symm⟩
  | leaving t =>
    obtain ⟨-, -, -, -, e5, e6, -⟩ := hr t rfl
    simpa only [RoleOk, e5, e6] using h

theorem Same.taskOk (hs : Same v v' t) (h : TaskOk v t) : TaskOk v' t := by
  obtain ⟨e1, e2, e3, e4, e5, e6, e7⟩ := hs
  obtain ⟨hnone, hrefs, hheld, hready, hreleased, hunlinked, hfreed⟩ := h
  constructor <;> simp only [e1, e2, e3, e4, e5, e6, e7] <;> assumption

/-- What happens to one task `t` by one thread `c`: the rest is unchanged, so that
only the new role of `c`, the task itself and the other threads working on it
have to be looked at. -/
theorem Life.event (h : Life v) (hrole : v'.role = Function.update v.role c r) (hsame : ∀ x, x ≠ t → Same v v' x)
    (hc : ∀ b x, v.role c = .reclaim b x → x = t) (hr : RoleOk v' c r) (ht : TaskOk v' t)
    (hothers : ∀ d, d ≠ c → (v.role d).task = some t → RoleOk v' d (v.role d))
    (hone : ∀ x, r.owns = some x → (v.role c).owns = some x ∨ ∀ d, d ≠ c → (v.role d).owns ≠ some x)
    (hu : v'.unlinked.Nodup) (hf : v'.freed.Nodup)
    (hlast : t ∈ v'.accepted → v'.refs t = 0 → v'.released t = true → t ∈ v'.freed ∨ ∃ d b, v'.role d = .reclaim b t) :
    Life v' := by
  refine ⟨fun d => ?_, fun x => ?_, fun d e x hd he => ?_, hu, hf, fun x hx hz hrel => ?_⟩
  · rw [hrole]
    by_cases e : d = c
    · subst e
      rwa [Function.update_self]
    · rw [Function.update_of_ne e]
      by_cases hdt : (v.role d).task = some t
      · exact hothers d e hdt
      · exact Same.roleOk (fun x hx => hsame x fun e => hdt (e ▸ hx)) (h.roles d)
  · by_cases e : x = t
    · exact e ▸ ht
    · exact (hsame x e).taskOk (h.tasks x)
  · rw [hrole, Function.update_apply] at hd he
    split_ifs at hd he with h₁ h₂ h₂
    · rw [h₁, h₂]
    · rcases hone x hd with ho | ho
      · exact h₁ ▸ h.one c e x ho he
      · exact absurd he (ho e h₂)
    · rcases hone x he with ho | ho
      · exact h₂ ▸ h.one d c x hd ho
      · exact absurd hd (ho d h₁)
    · exact h.one d e x hd he
  · by_cases e : x = t
    · subst e
      exact hlast hx hz hrel
    · have hs := hsame x e
      rw [hs.accepted] at hx
      rw [hs.refs] at hz
      rw [hs.released] at hrel
      refine (h.last x hx hz hrel).imp hs.freed.mpr ?_
      rintro ⟨d, b, hd⟩
      have hne : d ≠ c := fun e' => e (hc b x (e' ▸ hd))
      exact ⟨d, b, by rw [hrole, Function.update_of_ne hne, hd]⟩

theorem TaskOk.refs_eq_zero (h : TaskOk v t) : v.refs t = 0 ↔ v.holders t = [] := by
  rw [h.refs.1, List.length_eq_zero_iff]

/-- A task on which a reference is held. -/
theorem TaskOk.of_mem_holders (h : TaskOk v t) (hm : c ∈ v.holders t) :
    v.refs t ≠ 0 ∧ t ∈ v.accepted ∧ t ∉ v.unlinked ∧ t ∉ v.freed := by
  have hne := List.ne_nil_of_mem hm
  have hz : v.refs t ≠ 0 := mt h.refs_eq_zero.mp hne
  have hu : t ∉ v.unlinked := fun hu => hz (h.unlinked hu).2.1
  exact ⟨hz, h.held hne, hu, fun hf => hu (h.freed hf (h.held hne))⟩

theorem same_setRole : Same v (v.setRole c r) t := ⟨rfl, rfl, rfl, rfl, .rfl, .rfl, .rfl⟩

/-- A thread that reclaims nothing begins a call, goes on in it or returns. -/
theorem Life.setRole (h : Life v) (hr : RoleOk v c r) (hc : ∀ b t, v.role c ≠ .reclaim b t)
    (ho : r.owns = none ∨ r.owns = (v.role c).owns) : Life (v.setRole c r) := by
  refine h.event (t := 0) rfl (fun _ _ => same_setRole) (fun b x e => absurd e (hc b x))
    (Same.roleOk (fun _ _ => same_setRole) hr) (same_setRole.taskOk (h.tasks 0))
    (fun d _ _ => Same.roleOk (fun _ _ => same_setRole) (h.roles d)) (fun x hx => ?_) h.unlinkedOnce h.freedOnce
    fun ht hz hrel => ?_
  · rcases ho with ho | ho
    · rw [ho] at hx; cases hx
    · exact .inl (ho ▸ hx)
  · refine (h.last 0 ht hz hrel).imp_right ?_
    rintro ⟨d, b, hd⟩
    have hne : d ≠ c := fun e => hc b 0 (e ▸ hd)
    exact ⟨d, b, by simpa only [Ledger.setRole, Function.update_of_ne hne] using hd⟩

theorem Role.task_of_owns (h : r.owns = some t) : r.task = some t := by
  cases r <;> first | exact h | cases h

theorem Role.task_cases (h : r.task = some t) : r = .fresh t ∨ r = .starting t ∨ r = .user t ∨ r = .vp t ∨
    (∃ b, r = .reclaim b t) ∨ r = .leaving t := by
  cases r <;> simp_all [Role.task]

/-- A task that is not accepted is known to the thread that made it only. -/
theorem Life.of_not_accepted (h : Life v) (ht : t ∉ v.accepted) (hd : (v.role d).task = some t) :
    v.role d = .fresh t := by
  have hd' := h.roles d
  rcases Role.task_cases hd with e | e | e | e | ⟨b, e⟩ | e <;> rw [e] at hd'
  · exact e
  · exact absurd ((h.tasks t).of_mem_holders hd'.1).2.1 ht
  · exact absurd ((h.tasks t).of_mem_holders hd').2.1 ht
  · exact absurd hd'.1 ht
  · exact absurd hd'.1 ht
  · exact absurd hd'.1 ht

/-- `task_new` -/
theorem Life.make (h : Life v) (ht : v.state t = .none) (hc : v.role c = .none) :
    Life ((v.setState t .new).setRole c (.fresh t)) := by
  have hk := h.tasks t
  have hn := hk.none ht
  have hd : ∀ d, (v.role d).task ≠ some t := fun d e => by
    have := h.roles d
    rw [h.of_not_accepted hn.1 e] at this
    simp [RoleOk, ht] at this
  refine h.event rfl (fun x hx => ⟨Function.update_of_ne hx _ _, rfl, rfl, rfl, .rfl, .rfl, .rfl⟩) (by simp [hc])
    ⟨by simp [Ledger.setRole, Ledger.setState], hn⟩ ⟨?_, hk.refs, hk.held, ?_, ?_, hk.unlinked, hk.freed⟩
    (fun d _ e => absurd e (hd d)) (fun x hx => .inr fun d _ e => hd d ?_) h.unlinkedOnce h.freedOnce
    fun ha _ _ => absurd ha hn.1
  · simp [Ledger.setRole, Ledger.setState]
  · simp [Ledger.setRole, Ledger.setState]
  · exact fun e => by simp [hk.released e] at ht
  · rw [← Option.some.inj hx] at e
    exact Role.task_of_owns e

/-- `dlsm_gt_spawn_ex` accepts the task, with one reference. -/
theorem Life.accept (h : Life v) (hc : v.role c = .fresh t) :
    Life { v.setRole c (.starting t) with
      refs := Function.update v.refs t 1
      holders := Function.update v.holders t [c]
      accepted := t :: v.accepted } := by
  have hk := h.tasks t
  have hf : RoleOk v c (.fresh t) := hc ▸ h.roles c
  refine h.event (t := t) rfl (fun x hx => ?_) (by simp [hc]) ⟨by simp, hf.1⟩
    ⟨?_, ?_, ?_, ?_, hk.released, ?_, ?_⟩ (fun d hd e => ?_) (fun x hx => .inl (by rw [hc]; exact hx))
    h.unlinkedOnce h.freedOnce ?_
  · exact ⟨rfl, Function.update_of_ne hx _ _, Function.update_of_ne hx _ _, rfl, by simp [hx], .rfl, .rfl⟩
  all_goals simp only [Ledger.setRole, Function.update_self, List.mem_cons, true_or]
  · exact fun e => by simp [hf.1] at e
  · simp [uint32Max]
  · simp
  · simp
  · exact fun hu => absurd (hk.unlinked hu).1 hf.2.1
  · exact fun e => absurd e hf.2.2
  · have hd' := h.of_not_accepted hf.2.1 e
    exact absurd (h.one d c t (by rw [hd']; rfl) (by rw [hc]; rfl)) hd
  · simp

/-- The state of a task changes, by the thread `c` that may change its role. -/
theorem Life.setState (h : Life v) {st : TaskState} (ht : t ∈ v.accepted) (hst : st ≠ .none)
    (hrel : v.released t = false)
    (hc : ∀ b x, v.role c ≠ .reclaim b x) (hr : RoleOk (v.setState t st) c r)
    (ho : ∀ x, r.owns = some x → (v.role c).owns = some x ∨ ∀ d, d ≠ c → (v.role d).owns ≠ some x)
    (hst₀ : ∀ d, d ≠ c → v.role d ≠ .starting t)
    (hvp : st = .running ∨ st = .finished ∨ ∀ d, d ≠ c → v.role d ≠ .vp t) :
    Life ((v.setState t st).setRole c r) := by
  have hk := h.tasks t
  refine h.event (t := t) rfl (fun x hx => ⟨Function.update_of_ne hx _ _, rfl, rfl, rfl, .rfl, .rfl, .rfl⟩)
    (fun b x e => absurd e (hc b x)) (Same.roleOk (fun _ _ => same_setRole) hr)
    ⟨?_, hk.refs, hk.held, fun _ => ht, fun e => ?_, hk.unlinked, hk.freed⟩
    (fun d hd e => ?_) ho h.unlinkedOnce h.freedOnce
    fun _ _ e => ?_
  · simp [Ledger.setRole, Ledger.setState, hst]
  · exact absurd e (by simp [Ledger.setRole, Ledger.setState, hrel])
  · have hd' := h.roles d
    rcases Role.task_cases e with hrd | hrd | hrd | hrd | ⟨b, hrd⟩ | hrd <;> rw [hrd] at hd' ⊢
    · exact absurd ht hd'.2.1
    · exact absurd hrd (hst₀ d hd)
    · exact hd'
    · refine ⟨ht, hrel, ?_⟩
      simp only [Ledger.setRole, Ledger.setState, Function.update_self]
      rcases hvp with e | e | e
      · exact .inl e
      · exact .inr e
      · exact absurd hrd (e d hd)
    · exact { hd' with }
    · exact hd'
  · exact absurd e (by simp [Ledger.setRole, Ledger.setState, hrel])

/-- The ledger after `c` changed the references on `t` to those of `l`. -/
def Ledger.setHolders (v : Ledger) (c t : Nat) (r : Role) (l : List Nat) : Ledger :=
  { v.setRole c r with refs := Function.update v.refs t l.length, holders := Function.update v.holders t l }

/-- References on a task come and go. With the last of them, `c` goes on to
reclaim the task if its execution resources are released. -/
theorem Life.setHolders (h : Life v) {l : List Nat} (hm : v.holders t ≠ []) (hl : l.length ≤ uint32Max)
    (hu : ∀ d, d ≠ c → v.role d = .user t ∨ v.role d = .starting t → d ∈ l) (hc : ∀ b x, v.role c ≠ .reclaim b x)
    (hr : RoleOk (v.setHolders c t r l) c r)
    (ho : ∀ x, r.owns = some x → (v.role c).owns = some x ∨ ∀ d, d ≠ c → (v.role d).owns ≠ some x)
    (hlast : l = [] → v.released t = true → ∃ b, r = .reclaim b t) : Life (v.setHolders c t r l) := by
  have hk := h.tasks t
  obtain ⟨c', hc'⟩ := List.exists_mem_of_ne_nil _ hm
  have ht := hk.of_mem_holders hc'
  refine h.event (t := t) rfl (fun x hx => ?_) (fun b x e => absurd e (hc b x)) hr
    ⟨hk.none, ?_, fun _ => ht.2.1, hk.ready, hk.released, fun hu => absurd hu ht.2.2.1, hk.freed⟩ (fun d hd e => ?_) ho
    h.unlinkedOnce h.freedOnce fun _ hz hrel => ?_
  · exact ⟨rfl, Function.update_of_ne hx _ _, Function.update_of_ne hx _ _, rfl, .rfl, .rfl, .rfl⟩
  · simpa [Ledger.setHolders] using hl
  · have hd' := h.roles d
    rcases Role.task_cases e with hrd | hrd | hrd | hrd | ⟨b, hrd⟩ | hrd <;> rw [hrd] at hd' ⊢
    · exact hd'
    · exact ⟨by simpa [Ledger.setHolders] using hu d hd (.inr hrd), hd'.2⟩
    · simpa [RoleOk, Ledger.setHolders] using hu d hd (.inl hrd)
    · exact hd'
    · exact absurd hd'.refs ht.1
    · exact hd'
  · obtain ⟨b, hb⟩ := hlast (by simpa [Ledger.setHolders] using hz) hrel
    exact .inr ⟨c, b, by simp [Ledger.setHolders, Ledger.setRole, hb]⟩

theorem Life.mem_holders (h : Life v) (hr : v.role d = .user t ∨ v.role d = .starting t) : d ∈ v.holders t := by
  have hd := h.roles d
  rcases hr with e | e <;> rw [e] at hd
  · exact hd
  · exact hd.1

/-- `task_execution_released`: the VP goes on to reclaim the task if no reference
is held, and leaves it to the last release otherwise. -/
theorem Life.execute (h : Life v) (hc : v.role c = .vp t) (hf : v.state t = .finished) :
    Life { v.setRole c (if v.refs t = 0 then .reclaim false t else .leaving t) with
      released := Function.update v.released t true } := by
  have hk := h.tasks t
  have hv : RoleOk v c (.vp t) := hc ▸ h.roles c
  have hu : t ∉ v.unlinked := fun hu => by simpa [hv.2.1] using (hk.unlinked hu).2.2
  refine h.event (t := t) rfl (fun x hx => ?_) (by simp [hc]) ?_
    ⟨hk.none, hk.refs, hk.held, hk.ready, fun _ => hf, fun e => absurd e hu, hk.freed⟩
      (fun d hd e => ?_) (fun x hx => ?_)
    h.unlinkedOnce h.freedOnce fun _ hz _ => ?_
  · exact ⟨rfl, rfl, rfl, Function.update_of_ne hx _ _, .rfl, .rfl, .rfl⟩
  · split_ifs with hz
    · exact ⟨hv.1, hz, by simp, fun e => hu (hk.freed e hv.1), by simp [hu, Ledger.setRole]⟩
    · exact ⟨hv.1, hu⟩
  · have hd' := h.roles d
    rcases Role.task_cases e with hrd | hrd | hrd | hrd | ⟨b, hrd⟩ | hrd <;> rw [hrd] at hd' ⊢
    · exact hd'
    · exact hd'
    · exact hd'
    · exact absurd (h.one d c t (by rw [hrd]; rfl) (by rw [hc]; rfl)) hd
    · exact absurd (h.one d c t (by rw [hrd]; rfl) (by rw [hc]; rfl)) hd
    · exact hd'
  · left
    rw [hc]
    split_ifs at hx
    · exact hx
    · cases hx
  · exact .inr ⟨c, false, by simp [Ledger.setRole, show v.refs t = 0 from hz]⟩

/-- `task_unlink`, while no other thread holds `t->lock`. -/
theorem Life.unlink (h : Life v) (hc : v.role c = .reclaim false t) (hl : ∀ d, d ≠ c → v.role d ≠ .leaving t) :
    Life { v.setRole c (.reclaim true t) with unlinked := t :: v.unlinked } := by
  have hk := h.tasks t
  have hv : ReclaimOk v false t := show RoleOk v c (.reclaim false t) from hc ▸ h.roles c
  have hu : t ∉ v.unlinked := fun hu => by simpa using hv.unlinked.mpr hu
  refine h.event (t := t) rfl (fun x hx => ?_) (fun b x e => (Role.reclaim.inj (e.symm.trans hc)).2)
    ⟨hv.accepted, hv.refs, hv.released, hv.unfreed, by simp⟩
    ⟨hk.none, hk.refs, hk.held, hk.ready, hk.released, fun _ => ⟨hv.accepted, hv.refs, hv.released⟩, fun _ _ => by simp⟩
    (fun d hd e => ?_) (fun x hx => ?_) (List.nodup_cons.mpr ⟨hu, h.unlinkedOnce⟩) h.freedOnce fun _ _ _ => ?_
  · exact ⟨rfl, rfl, rfl, rfl, .rfl, by simp [hx], .rfl⟩
  · have hd' := h.roles d
    rcases Role.task_cases e with hrd | hrd | hrd | hrd | ⟨b, hrd⟩ | hrd <;> rw [hrd] at hd' ⊢
    · exact hd'
    · exact hd'
    · exact hd'
    · exact hd'
    · exact absurd (h.one d c t (by rw [hrd]; rfl) (by rw [hc]; rfl)) hd
    · exact absurd hrd (hl d hd)
  · exact .inl (by rw [hc]; exact hx)
  · exact .inr ⟨c, true, by simp [Ledger.setRole]⟩

/-- The control block is freed: one that is unlinked, or one that was refused. -/
theorem Life.free (h : Life v) (hc : v.role c = .reclaim true t ∨ v.role c = .fresh t) :
    Life { v.setRole c .none with freed := t :: v.freed } := by
  have hk := h.tasks t
  have ht : v.state t ≠ .none ∧ t ∉ v.freed ∧ (t ∈ v.accepted → t ∈ v.unlinked) := by
    have hv := h.roles c
    rcases hc with hc | hc <;> rw [hc] at hv
    · exact ⟨fun e => (hk.none e).1 hv.accepted, hv.unfreed, fun _ => hv.unlinked.mp rfl⟩
    · exact ⟨by simp [hv.1], hv.2.2, fun ha => absurd ha hv.2.1⟩
  have how : (v.role c).owns = some t := by rcases hc with hc | hc <;> rw [hc] <;> rfl
  refine h.event (t := t) rfl (fun x hx => ?_) (fun b x e => ?_) trivial
    ⟨fun e => absurd e ht.1, hk.refs, hk.held, hk.ready, hk.released, hk.unlinked, fun _ => ht.2.2⟩ (fun d hd e => ?_)
    (fun x hx => by cases hx) h.unlinkedOnce (List.nodup_cons.mpr ⟨ht.2.1, h.freedOnce⟩) fun _ _ _ => .inl (by simp)
  · exact ⟨rfl, rfl, rfl, rfl, .rfl, .rfl, by simp [hx]⟩
  · rw [e] at how
    exact Option.some.inj how
  · have hd' := h.roles d
    rcases Role.task_cases e with hrd | hrd | hrd | hrd | ⟨b, hrd⟩ | hrd <;> rw [hrd] at hd' ⊢
    · exact absurd (h.one d c t (by rw [hrd]; rfl) how) hd
    · exact hd'
    · exact hd'
    · exact hd'
    · exact absurd (h.one d c t (by rw [hrd]; rfl) how) hd
    · exact hd'

/-! ## The model's steps are such events -/

/-- The ledger of a state. -/
def ledger (s : State) : Ledger where
  role := fun c => (s.pc c).role
  state := s.state
  refs := s.externalRefs
  holders := s.holders
  released := s.executionReleased
  accepted := s.accepted
  unlinked := s.unlinked
  freed := freed s

variable {s s' : State}

theorem ledger_goto (pc : Pc) : ledger (s.goto c pc) = (ledger s).setRole c pc.role := by
  have : (fun d => (Function.update s.pc c pc d).role) = Function.update (fun d => (s.pc d).role) c pc.role :=
    funext (Function.apply_update (fun _ => Pc.role) s.pc c pc)
  simp only [ledger, State.goto, Ledger.setRole, this]
  rfl

theorem ledger_ret : ledger (s.ret c) = (ledger s).setRole c .none := ledger_goto (s := s) .idle

theorem ledger_taskFree {p : Path} : ledger (taskFree s p t) = { ledger s with freed := t :: freed s } := by
  unfold taskFree
  dsimp only
  split <;> rfl

theorem ledger_reclaim {p : Path} : ledger (reclaim s p t) = { ledger s with freed := t :: freed s } := by
  cases p <;> first | rfl | exact ledger_taskFree

/-- A step within one role. -/
theorem Life.stay (h : Life (ledger s)) {pc : Pc} (hl : ledger s' = (ledger s).setRole c pc.role)
    (hr : pc.role = (s.pc c).role) : Life (ledger s') := by
  have : (ledger s).setRole c pc.role = ledger s := by
    rw [hr, Ledger.setRole, show Function.update (ledger s).role c (s.pc c).role = (ledger s).role from
      Function.update_eq_self c _]
  rw [hl, this]
  exact h

theorem Life.acquire (h : Life (ledger s)) {pc : Pc} (ha : s.acquire c t pc = some s') (hr : pc.role = (s.pc c).role) :
    Life (ledger s') := by
  simp only [State.acquire] at ha
  split_ifs at ha
  obtain rfl := Option.some.inj ha
  exact h.stay (ledger_goto pc) hr

theorem Life.acquireMutex (h : Life (ledger s)) {pc : Pc} (ha : s.acquireMutex c t pc = some s')
    (hr : pc.role = (s.pc c).role) : Life (ledger s') := by
  simp only [State.acquireMutex] at ha
  split_ifs at ha
  obtain rfl := Option.some.inj ha
  exact h.stay (ledger_goto pc) hr

/-- `t->lock` is held by one thread at a time. -/
def Pc.locked : Pc → Option Nat
  | .retainLocked t | .releaseLocked t | .doneLocked t | .doneUnlock t | .execLocked t | .unlink _ t | .unlock _ t =>
    some t
  | _ => none

theorem Pc.locked_of_leaving {pc : Pc} (h : pc.role = .leaving t) : pc.locked = some t := by
  cases pc with
  | unlock p =>
    cases p with
    | none => exact congrArg some (Role.leaving.inj h)
    | some p => cases h
  | _ => cases h

def Locked (s : State) : Prop := ∀ c t, (s.pc c).locked = some t → s.lock t = some c

/-- How far the VP has come with its task. -/
def StageOk (s : State) : Pc → Prop
  | .doneUnlock t | .doneMutex t | .doneMutexLocked t => s.state t = .finished
  | .doneMutexUnlock t | .stack t => s.state t = .finished ∧ s.completionDone t = true
  | .exec t | .execLocked t =>
    s.state t = .finished ∧ s.completionDone t = true ∧ s.stackMap t = false ∧ s.fiber t = false
  | _ => True

/-- What `execution_released` stands for. -/
def Ended (s : State) (t : Nat) : Prop :=
  s.executionReleased t = true → s.completionDone t = true ∧ s.stackMap t = false ∧ s.fiber t = false

/-- `all_tasks` holds the accepted tasks that are not unlinked. -/
def Listed (s : State) (l : List Nat) : Prop :=
  IsChain s.allNext s.allTasks l ∧ ∀ t, t ∈ l ↔ t ∈ s.accepted ∧ t ∉ s.unlinked

theorem life_spawnAccept (h : Life (ledger s)) (hp : s.pc c = .spawn t) : Life (ledger (spawnAccept s c t)) := by
  unfold spawnAccept
  split
  · rw [ledger_goto]
    exact h.accept (show (s.pc c).role = .fresh t by rw [hp]; rfl)
  · exact h.stay (ledger_goto _) (by rw [hp]; rfl)

theorem life_ready (h : Life (ledger s)) (hp : s.pc c = .accepted t) :
    Life (ledger ({ s with state := Function.update s.state t .ready }.goto c .idle)) := by
  have hrole : (ledger s).role c = .starting t := by simp only [ledger, hp]; rfl
  have hok : RoleOk (ledger s) c (.starting t) := hrole ▸ h.roles c
  have hk := h.tasks t
  have hrel : (ledger s).released t = false := Bool.eq_false_iff.mpr fun e => by
    have := hk.released e
    rw [hok.2] at this
    cases this
  have hone : ∀ d, d ≠ c → ((ledger s).role d).owns ≠ some t := fun d hd e =>
    hd (h.one d c t e (by rw [hrole]; rfl))
  rw [ledger_goto]
  exact h.setState (c := c) (r := .none) (hk.of_mem_holders hok.1).2.1 (by simp) hrel (by simp [hrole]) trivial
    (fun x hx => by cases hx) (fun d hd e => hone d hd (by rw [e]; rfl))
    (.inr (.inr fun d hd e => hone d hd (by rw [e]; rfl)))

theorem life_retain (h : Life (ledger s)) (hp : s.pc c = .retainLocked t) : Life (ledger (taskRetain s c t)) := by
  have hrole : (ledger s).role c = .user t := by simp only [ledger, hp]; rfl
  have hm : c ∈ s.holders t := (hrole ▸ h.roles c : RoleOk (ledger s) c (.user t))
  have hk := h.tasks t
  have ht := hk.of_mem_holders hm
  unfold taskRetain
  split
  · rw [ledger_goto]
    exact h.setRole ⟨ht.2.1, ht.2.2.1⟩ (by simp [hrole]) (.inl rfl)
  · rename_i hlt
    have hlen : s.externalRefs t + 1 = (c :: s.holders t).length := by
      rw [show s.externalRefs t = (s.holders t).length from hk.refs.1, List.length_cons]
    have hmax : (c :: s.holders t).length ≤ uint32Max := by
      have := hk.refs.2
      simp only [ledger] at this
      omega
    rw [ledger_goto, hlen]
    exact h.setHolders (l := c :: s.holders t) (List.ne_nil_of_mem hm) hmax
      (fun d _ e => List.mem_cons_of_mem c (h.mem_holders e)) (by simp [hrole]) ⟨ht.2.1, ht.2.2.1⟩
      (fun x hx => by cases hx) (fun e => by cases e)

/-- A finished task that is released, with a reference, has no owner. -/
theorem Life.no_owner (h : Life v) (hm : c ∈ v.holders t) (hrel : v.released t = true) : (v.role d).owns ≠ some t := by
  intro e
  have ht := (h.tasks t).of_mem_holders hm
  have hf := (h.tasks t).released hrel
  have hd := h.roles d
  rcases Role.task_cases (Role.task_of_owns e) with hr | hr | hr | hr | ⟨b, hr⟩ | hr <;> rw [hr] at hd e
  · exact hd.2.1 ht.2.1
  · simp [hd.2] at hf
  · cases e
  · simp [hd.2.1] at hrel
  · exact ht.1 hd.refs
  · cases e

theorem life_release (h : Life (ledger s)) (hp : s.pc c = .releaseLocked t) : Life (ledger (taskRelease s c t)) := by
  have hrole : (ledger s).role c = .user t := by simp only [ledger, hp]; rfl
  have hm : c ∈ s.holders t := (hrole ▸ h.roles c : RoleOk (ledger s) c (.user t))
  have hk := h.tasks t
  have ht := hk.of_mem_holders hm
  have hlen : s.externalRefs t - 1 = ((s.holders t).erase c).length := by
    rw [show s.externalRefs t = (s.holders t).length from hk.refs.1, List.length_erase_of_mem hm]
  have hmax : ((s.holders t).erase c).length ≤ uint32Max := by
    have := hk.refs.2
    simp only [ledger] at this
    omega
  have hothers : ∀ d, d ≠ c → (ledger s).role d = .user t ∨ (ledger s).role d = .starting t →
    d ∈ (s.holders t).erase c :=
    fun d hd e => (List.mem_erase_of_ne hd).mpr (h.mem_holders e)
  simp only [taskRelease, Function.update_self, hlen, List.length_eq_zero_iff]
  rw [if_neg (show s.externalRefs t ≠ 0 from ht.1)]
  split
  · rename_i hz
    rw [ledger_goto]
    refine h.setHolders (l := (s.holders t).erase c) (List.ne_nil_of_mem hm) hmax hothers (by simp [hrole]) ?_ ?_
      fun _ _ => ⟨false, rfl⟩
    · refine ⟨ht.2.1, ?_, hz.2.2, ht.2.2.2, iff_of_false (by simp) ht.2.2.1⟩
      simp [Ledger.setHolders, hz.1]
    · intro x hx
      obtain rfl : t = x := Option.some.inj hx
      exact .inr fun d _ => h.no_owner hm hz.2.2
  · rename_i hz
    rw [ledger_goto]
    exact h.setHolders (l := (s.holders t).erase c) (List.ne_nil_of_mem hm) hmax hothers (by simp [hrole])
      ⟨ht.2.1, ht.2.2.1⟩ (fun x hx => by cases hx)
      fun e hrel => absurd ⟨e, hk.released hrel, hrel⟩ hz

theorem life_done (h : Life (ledger s)) (hp : s.pc c = .doneLocked t) : Life (ledger (rtTaskDone s c t)) := by
  have hrole : (ledger s).role c = .vp t := by simp only [ledger, hp]; rfl
  have hok : RoleOk (ledger s) c (.vp t) := hrole ▸ h.roles c
  have hone : ∀ d, d ≠ c → ((ledger s).role d).owns ≠ some t := fun d hd e =>
    hd (h.one d c t e (by rw [hrole]; rfl))
  rw [rtTaskDone, ledger_goto]
  exact h.setState (c := c) (r := .vp t) hok.1 (by simp) hok.2.1 (by simp [hrole])
    ⟨hok.1, hok.2.1, .inr (by simp [Ledger.setState])⟩ (fun x hx => .inl (by rw [hrole]; exact hx))
    (fun d hd e => hone d hd (by rw [e]; rfl)) (.inr (.inl rfl))

theorem life_exec (h : Life (ledger s)) (hp : s.pc c = .execLocked t) (hf : s.state t = .finished) :
    Life (ledger (taskExecutionReleased s c t)) := by
  have hrole : (ledger s).role c = .vp t := by simp only [ledger, hp]; rfl
  have he := h.execute hrole hf
  unfold taskExecutionReleased
  dsimp only
  split <;> rename_i hz <;> rw [ledger_goto]
  · rw [if_pos (show (ledger s).refs t = 0 from hz)] at he
    exact he
  · rw [if_neg (show (ledger s).refs t ≠ 0 from hz)] at he
    exact he

/-- `task_unlink` finds a task of the list, and deletes it. -/
theorem taskUnlink_eq {l : List Nat} {fuel : Nat} {r : Bool × State} (hl : Listed s l) (ht : t ∈ l)
    (hu : taskUnlink s t fuel = some r) : r.1 = true ∧ ∃ tasks links, IsChain links tasks (l.erase t) ∧
      r.2 = { s with allTasks := tasks, allNext := links, unlinked := t :: s.unlinked } := by
  obtain ⟨link, hf, rfl⟩ := Option.map_eq_some_iff.mp hu
  obtain ⟨l₁, l₂, rfl⟩ := List.append_of_mem ht
  have hnd := hl.1.nodup
  have hm := Links.findLink_of_mem (q := ⟨s.allNext, s.allTasks, none⟩) (k := .head) hl.1 (fun _ _ e => by cases e) hf
  have hn := List.nodup_middle.mp hnd
  rw [if_neg (by rw [hm.1]; simp)]
  refine ⟨rfl, _, _, ?_, rfl⟩
  have ht₁ : t ∉ l₁ := fun e => (List.nodup_cons.mp hn).1 (List.mem_append_left _ e)
  rw [List.erase_append_right _ ht₁, List.erase_cons_head]
  exact hm.2.2.congr fun x hx => Function.update_of_ne (fun e : x = t => (List.nodup_cons.mp hn).1 (e ▸ hx)) _ _

theorem life_unlink {l : List Nat} {fuel : Nat} {p : Path} {r : Bool × State} (h : Life (ledger s)) (hlk : Locked s)
    (hl : Listed s l) (hp : s.pc c = .unlink p t) (hu : taskUnlink s t fuel = some r) :
    Life (ledger (r.2.goto c (.unlock (if r.1 then some p else none) t))) := by
  have hrole : (ledger s).role c = .reclaim false t := by simp only [ledger, hp]; rfl
  have hok : RoleOk (ledger s) c (.reclaim false t) := hrole ▸ h.roles c
  have htl : t ∈ l := (hl.2 t).mpr ⟨hok.accepted, fun e => by simpa using hok.unlinked.mpr e⟩
  obtain ⟨hr, tasks, links, -, hs⟩ := taskUnlink_eq hl htl hu
  have hlock : s.lock t = some c := hlk c t (by rw [hp]; rfl)
  rw [hr, hs, ledger_goto]
  refine h.unlink hrole fun d hd e => hd ?_
  exact Option.some.inj ((hlk d t (Pc.locked_of_leaving e)).symm.trans hlock)

theorem life_next {l : List Nat} {fuel : Nat} (h : Life (ledger s)) (hlk : Locked s) (hst : ∀ c, StageOk s (s.pc c))
    (hl : Listed s l) (hn : next s c fuel = some s') : Life (ledger s') := by
  have hok : RoleOk (ledger s) c (s.pc c).role := h.roles c
  have hsc := hst c
  cases hp : s.pc c with (simp only [next, hp] at hn; rw [hp] at hok hsc)
  | idle => cases hn
  | spawn t => exact Option.some.inj hn ▸ life_spawnAccept h hp
  | accepted t =>
    split_ifs at hn
    exact Option.some.inj hn ▸ life_ready h hp
  | refused t =>
    obtain rfl := Option.some.inj hn
    rw [ledger_goto, ledger_taskFree]
    exact h.free (.inr (show (s.pc c).role = .fresh t by rw [hp]; rfl))
  | retain t => exact h.acquire hn (by rw [hp]; rfl)
  | retainLocked t => exact Option.some.inj hn ▸ life_retain h hp
  | release t => exact h.acquire hn (by rw [hp]; rfl)
  | releaseLocked t => exact Option.some.inj hn ▸ life_release h hp
  | wait t => exact h.acquireMutex hn (by rw [hp]; rfl)
  | waitLocked t =>
    obtain rfl := Option.some.inj hn
    split
    · rw [ledger_goto]
      exact h.setRole trivial (fun b x => by simp [ledger, hp, Pc.role]) (.inl rfl)
    · exact h.stay (ledger_goto _) (by rw [hp]; rfl)
  | waitBlocked t => exact Option.some.inj hn ▸ h.stay (ledger_goto _) (by rw [hp]; rfl)
  | run t => cases hn
  | done t => exact h.acquire hn (by rw [hp]; rfl)
  | doneLocked t => exact Option.some.inj hn ▸ life_done h hp
  | doneUnlock t => exact Option.some.inj hn ▸ h.stay (ledger_goto _) (by rw [hp]; rfl)
  | doneMutex t => exact h.acquireMutex hn (by rw [hp]; rfl)
  | doneMutexLocked t => exact Option.some.inj hn ▸ h.stay (ledger_goto _) (by rw [hp]; rfl)
  | doneMutexUnlock t => exact Option.some.inj hn ▸ h.stay (ledger_goto _) (by rw [hp]; rfl)
  | stack t => exact Option.some.inj hn ▸ h.stay (ledger_goto _) (by rw [hp]; rfl)
  | exec t => exact h.acquire hn (by rw [hp]; rfl)
  | execLocked t => exact Option.some.inj hn ▸ life_exec h hp hsc.1
  | unlink p t =>
    obtain ⟨r, hr, rfl⟩ := Option.map_eq_some_iff.mp hn
    exact life_unlink h hlk hl hp hr
  | unlock p t =>
    cases p with
    | none =>
      obtain rfl := Option.some.inj hn
      rw [ledger_ret]
      exact h.setRole trivial (fun b x => by simp [ledger, hp, Pc.role]) (.inl rfl)
    | some p => exact Option.some.inj hn ▸ h.stay (ledger_goto _) (by rw [hp]; rfl)
  | free p t =>
    obtain rfl := Option.some.inj hn
    rw [ledger_ret, ledger_reclaim]
    exact h.free (.inl (show (s.pc c).role = .reclaim true t by rw [hp]; rfl))
  | runtimeFree l => exact hok.elim

/-- A task that waits to run has no owner. -/
theorem Life.no_owner_of_waiting (h : Life v) (ht : v.state t = .ready ∨ v.state t = .parked) :
    (v.role d).owns ≠ some t := by
  intro e
  have hacc := (h.tasks t).ready ht
  have hd := h.roles d
  rcases Role.task_cases (Role.task_of_owns e) with hr | hr | hr | hr | ⟨b, hr⟩ | hr <;> rw [hr] at hd e
  · exact hd.2.1 hacc
  · rcases ht with ht | ht <;> simp [hd.2] at ht
  · cases e
  · rcases ht with ht | ht <;> simpa [ht] using hd.2.2
  · rcases ht with ht | ht <;> simp [(h.tasks t).released hd.released] at ht
  · cases e

theorem Life.not_released (h : Life v) (ht : v.state t ≠ .finished) : v.released t = false :=
  Bool.eq_false_iff.mpr fun e => ht ((h.tasks t).released e)

theorem life_transfer (h : Life (ledger s)) (hp : s.pc c = .idle) (hm : c ∈ s.holders t) :
    Life (ledger { s with holders := Function.update s.holders t (d :: (s.holders t).erase c) }) := by
  have hk := h.tasks t
  have hrefs : s.externalRefs t = (s.holders t).length := hk.refs.1
  have hlen : (d :: (s.holders t).erase c).length = s.externalRefs t := by
    have := List.length_pos_of_mem hm
    rw [List.length_cons, List.length_erase_of_mem hm, hrefs]
    omega
  have hrole : (ledger s).role c = .none := by simp only [ledger, hp]; rfl
  have e : ledger { s with holders := Function.update s.holders t (d :: (s.holders t).erase c) } =
      (ledger s).setHolders c t .none (d :: (s.holders t).erase c) := by
    simp only [Ledger.setHolders, Ledger.setRole, hlen]
    rw [← hrole, Function.update_eq_self,
        show Function.update (ledger s).refs t (s.externalRefs t) = (ledger s).refs from
      Function.update_eq_self t _]
    rfl
  rw [e]
  exact h.setHolders (List.ne_nil_of_mem hm) (hlen ▸ hk.refs.2)
    (fun x hx hu => List.mem_cons_of_mem d ((List.mem_erase_of_ne hx).mpr (h.mem_holders hu))) (by simp [hrole]) trivial
    (fun x hx => by cases hx) fun e => by cases e

theorem life_dispatch (h : Life (ledger s)) (hp : s.pc c = .idle) (ht : s.state t = .ready) :
    Life (ledger ({ s with state := Function.update s.state t .running, busy := c :: s.busy }.goto c (.run t))) := by
  have hacc : t ∈ (ledger s).accepted := (h.tasks t).ready (.inl ht)
  have hrel := h.not_released (t := t) (fun e => by simp [show s.state t = .finished from e] at ht)
  have hone : ∀ d, ((ledger s).role d).owns ≠ some t := fun d => h.no_owner_of_waiting (.inl ht)
  rw [ledger_goto]
  refine h.setState (c := c) (r := .vp t) hacc (by simp) hrel (by simp [ledger, hp, Pc.role])
    ⟨hacc, hrel, .inl (by simp [Ledger.setState])⟩ (fun x hx => .inr fun d _ => ?_)
    (fun d _ e => hone d (by rw [e]; rfl)) (.inl rfl)
  obtain rfl : t = x := Option.some.inj hx
  exact hone d

theorem life_unpark (h : Life (ledger s)) (hp : s.pc c = .idle) (ht : s.state t = .parked) :
    Life (ledger { s with state := Function.update s.state t .ready }) := by
  have hrole : (ledger s).role c = .none := by simp only [ledger, hp]; rfl
  have hrel := h.not_released (t := t) (fun e => by simp [show s.state t = .finished from e] at ht)
  have hone : ∀ d, ((ledger s).role d).owns ≠ some t := fun d => h.no_owner_of_waiting (.inr ht)
  have hs : Life (((ledger s).setState t .ready).setRole c .none) :=
    h.setState ((h.tasks t).ready (.inr ht)) (by simp) hrel (by simp [hrole]) trivial (fun x hx => by cases hx)
      (fun d _ e => hone d (by rw [e]; rfl)) (.inr (.inr fun d _ e => hone d (by rw [e]; rfl)))
  rwa [Ledger.setRole, ← hrole, show Function.update ((ledger s).setState t .ready).role c ((ledger s).role c) =
    (ledger s).role from Function.update_eq_self c _] at hs

theorem life_switch (h : Life (ledger s)) (hp : s.pc c = .run t) {st : TaskState} (hst : st = .ready ∨ st = .parked) :
    Life (ledger ({ s with state := Function.update s.state t st }.ret c)) := by
  have hrole : (ledger s).role c = .vp t := by simp only [ledger, hp]; rfl
  have hok : RoleOk (ledger s) c (.vp t) := hrole ▸ h.roles c
  have hone : ∀ d, d ≠ c → ((ledger s).role d).owns ≠ some t := fun d hd e =>
    hd (h.one d c t e (by rw [hrole]; rfl))
  rw [ledger_ret]
  exact h.setState (c := c) (r := .none) hok.1 (by rcases hst with rfl | rfl <;> simp) hok.2.1 (by simp [hrole]) trivial
    (fun x hx => by cases hx) (fun d hd e => hone d hd (by rw [e]; rfl))
    (.inr (.inr fun d hd e => hone d hd (by rw [e]; rfl)))

theorem Life.one_vp (h : Life (ledger s)) (hd : (s.pc d).role = .vp t) (hc : (s.pc c).role = .vp t) : d = c :=
  h.one d c t (by rw [show (ledger s).role d = .vp t from hd]; rfl)
    (by rw [show (ledger s).role c = .vp t from hc]; rfl)

theorem life_step {l : List Nat} {a : Act} (h : Life (ledger s)) (hlk : Locked s) (hst : ∀ c, StageOk s (s.pc c))
    (hl : Listed s l) (ha : inUse a = true) (hs : step s a = some s') : Life (ledger s') := by
  cases a with simp only [step] at hs
  | spawn c t fiber =>
    split_ifs at hs with hp
    obtain rfl := Option.some.inj hs
    rw [ledger_goto]
    exact h.make hp.2.1 (show (s.pc c).role = .none by rw [hp.1]; rfl)
  | retain c t =>
    split_ifs at hs with hp
    obtain rfl := Option.some.inj hs
    rw [ledger_goto]
    exact h.setRole hp.2 (fun b x => by simp [ledger, hp.1, Pc.role]) (.inl rfl)
  | release c t =>
    split_ifs at hs with hp
    obtain rfl := Option.some.inj hs
    rw [ledger_goto]
    exact h.setRole hp.2 (fun b x => by simp [ledger, hp.1, Pc.role]) (.inl rfl)
  | wait c t =>
    split_ifs at hs with hp
    obtain rfl := Option.some.inj hs
    rw [ledger_goto]
    exact h.setRole hp.2 (fun b x => by simp [ledger, hp.1, Pc.role]) (.inl rfl)
  | transfer c d t =>
    split_ifs at hs with hp
    exact Option.some.inj hs ▸ life_transfer h hp.1 hp.2
  | dispatch c t =>
    split_ifs at hs with hp
    exact Option.some.inj hs ▸ life_dispatch h hp.1 hp.2.1
  | yield c =>
    split at hs <;> [skip; cases hs]
    rename_i t hp
    split_ifs at hs
    exact Option.some.inj hs ▸ life_switch h hp (.inl rfl)
  | park c =>
    split at hs <;> [skip; cases hs]
    rename_i t hp
    split_ifs at hs
    exact Option.some.inj hs ▸ life_switch h hp (.inr rfl)
  | unpark c t =>
    split_ifs at hs with hp
    exact Option.some.inj hs ▸ life_unpark h hp.1 hp.2.1
  | setspecific c ok =>
    split at hs <;> [skip; cases hs]
    exact Option.some.inj hs ▸ h
  | finish c =>
    split at hs <;> [skip; cases hs]
    rename_i t hp
    exact Option.some.inj hs ▸ h.stay (ledger_goto _) (by rw [hp]; rfl)
  | setState st stop =>
    split_ifs at hs
    exact Option.some.inj hs ▸ h
  | runtimeFree c => cases ha
  | next c fuel => exact life_next h hlk hst hl hs

/-! ## Locks and stages -/

/-- Nothing the stages rely on is undone. -/
structure Keeps (s s' : State) (t : Nat) : Prop where
  state : s.state t = .finished → s'.state t = .finished
  done : s.completionDone t = true → s'.completionDone t = true
  stack : s.stackMap t = false → s'.stackMap t = false
  fiber : s.fiber t = false → s'.fiber t = false

/-- What a step of thread `c` does to its own place and to what the others rely on. -/
structure Moves (s s' : State) (c : Nat) : Prop where
  pc : ∀ d, d ≠ c → s'.pc d = s.pc d
  lock : ∀ d t, d ≠ c → s.lock t = some d → s'.lock t = some d
  locked : ∀ t, (s'.pc c).locked = some t → s'.lock t = some c
  stage : StageOk s' (s'.pc c)
  keeps : ∀ t, Keeps s s' t ∨ ∀ d, d ≠ c → (s.pc d).role ≠ .vp t
  ended : ∀ t, Ended s t → Ended s' t

theorem StageOk.role {pc : Pc} (h : ¬ StageOk s' pc) : ∃ t, pc.role = .vp t ∧ (Keeps s s' t → ¬ StageOk s pc) := by
  cases pc <;> simp only [StageOk, not_true_eq_false] at h ⊢
  all_goals exact ⟨_, rfl, fun hk hs => h (by
    obtain ⟨hstate, hdone, hstack, hfiber⟩ := hk
    simp_all)⟩

theorem Moves.locks (h : Moves s s' c) (hl : Locked s) : Locked s' := by
  intro d t hd
  by_cases e : d = c
  · subst e
    exact h.locked t hd
  · rw [h.pc d e] at hd
    exact h.lock d t e (hl d t hd)

theorem Moves.stages (h : Moves s s' c) (hst : ∀ d, StageOk s (s.pc d)) (d : Nat) : StageOk s' (s'.pc d) := by
  by_cases e : d = c
  · exact e ▸ h.stage
  · rw [h.pc d e]
    by_contra hn
    obtain ⟨t, hr, hk⟩ := StageOk.role (s := s) hn
    rcases h.keeps t with hkeep | hne
    · exact hk hkeep (hst d)
    · exact hne d e hr

theorem ret_eq : s.ret c = { s with busy := s.busy.erase c }.goto c .idle := rfl

theorem goto_pc_self (pc : Pc) : (s.goto c pc).pc c = pc := by simp [State.goto]

theorem goto_pc_of_ne (hd : d ≠ c) (pc : Pc) : (s.goto c pc).pc d = s.pc d := by simp [State.goto, hd]

/-- A step that changes the place of `c` and neither `t->lock` nor what the stages rely on. -/
theorem Moves.quiet {s₁ : State} {pc : Pc} (hl : Locked s) (hpc : s₁.pc = s.pc) (hlk : s₁.lock = s.lock)
    (hlocked : pc.locked = none ∨ pc.locked = (s.pc c).locked) (hst : StageOk s₁ pc)
    (hk : ∀ t, Keeps s s₁ t ∨ ∀ d, d ≠ c → (s.pc d).role ≠ .vp t) (he : ∀ t, Ended s t → Ended s₁ t) :
    Moves s (s₁.goto c pc) c where
  pc d hd := (goto_pc_of_ne hd pc).trans (congrFun hpc d)
  lock d t _ h := (congrFun hlk t).trans h
  locked t ht := by
    rw [goto_pc_self] at ht
    rcases hlocked with e | e
    · rw [e] at ht; cases ht
    · exact (congrFun hlk t).trans (hl c t (e ▸ ht))
  stage := by
    rw [goto_pc_self]
    cases pc <;> exact hst
  keeps t := (hk t).imp_left fun k => ⟨k.state, k.done, k.stack, k.fiber⟩
  ended := he

theorem Moves.goto {pc : Pc} (hl : Locked s) (hlocked : pc.locked = none ∨ pc.locked = (s.pc c).locked)
    (hst : StageOk s pc) : Moves s (s.goto c pc) c :=
      .quiet hl rfl rfl hlocked hst (fun _ => .inl ⟨id, id, id, id⟩) fun _ h => h

theorem Moves.acquire {pc : Pc} (ha : s.acquire c t pc = some s') (hlocked : pc.locked = some t) (hst : StageOk s pc) :
    Moves s s' c := by
  simp only [State.acquire] at ha
  split_ifs at ha with hn
  obtain rfl := Option.some.inj ha
  refine ⟨fun d hd => goto_pc_of_ne hd _, fun d x hd hx => ?_, fun x hx => ?_, ?_, fun x => .inl ⟨id, id, id, id⟩,
    fun _ h => h⟩
  · have : x ≠ t := fun e => by rw [e, hn] at hx; cases hx
    simpa [State.goto, Function.update_of_ne this] using hx
  · rw [goto_pc_self, hlocked] at hx
    obtain rfl := Option.some.inj hx
    simp [State.goto]
  · rw [goto_pc_self]
    cases pc <;> exact hst

theorem Moves.acquireMutex {pc : Pc} (hl : Locked s) (ha : s.acquireMutex c t pc = some s') (hlocked : pc.locked = none)
    (hst : StageOk s pc) : Moves s s' c := by
  simp only [State.acquireMutex] at ha
  split_ifs at ha
  obtain rfl := Option.some.inj ha
  refine .quiet hl rfl rfl (.inl hlocked) ?_ (fun _ => .inl ⟨id, id, id, id⟩) fun _ h => h
  cases pc <;> exact hst

/-- `c` releases `t->lock`. -/
theorem Moves.release {pc : Pc} {b : List Nat} (hl : Locked s) (hc : (s.pc c).locked = some t)
    (hlocked : pc.locked = none)
    (hst : StageOk s pc) : Moves s ({ s with lock := Function.update s.lock t none, busy := b }.goto c pc) c := by
  refine ⟨fun d hd => goto_pc_of_ne hd _, fun d x hd hx => ?_, fun x hx => ?_, ?_, fun x => .inl ⟨id, id, id, id⟩,
    fun _ h => h⟩
  · have : x ≠ t := fun e => hd (Option.some.inj ((e ▸ hx).symm.trans (hl c t hc)))
    simpa [State.goto, Function.update_of_ne this] using hx
  · rw [goto_pc_self, hlocked] at hx
    cases hx
  · rw [goto_pc_self]
    cases pc <;> exact hst

/-- The state of a task changes. -/
theorem Moves.setState {st : TaskState} {b : List Nat} {pc : Pc} (hl : Locked s) (hlocked : pc.locked = none)
    (hst : ∀ s, StageOk s pc) (ht : s.state t ≠ .finished ∨ ∀ d, d ≠ c → (s.pc d).role ≠ .vp t) :
    Moves s ({ s with state := Function.update s.state t st, busy := b }.goto c pc) c := by
  refine .quiet hl rfl rfl (.inl hlocked) (hst _) (fun x => ?_) fun _ h => h
  by_cases e : x = t
  · subst e
    exact ht.imp_left fun hne => ⟨fun hf => absurd hf hne, id, id, id⟩
  · exact .inl ⟨fun hf => (Function.update_of_ne e _ _).trans hf, id, id, id⟩

theorem update_false {f : Nat → Bool} {x : Nat} (h : f x = false) : Function.update f t false x = false := by
  rw [Function.update_apply]
  split
  · rfl
  · exact h

theorem update_true {f : Nat → Bool} {x : Nat} (h : f x = true) : Function.update f t true x = true := by
  rw [Function.update_apply]
  split
  · rfl
  · exact h

/-- What a reclaimed task still owns is released at most. -/
theorem reclaim_eq (p : Path) : ∃ sm fb m k lv f, reclaim s p t =
      { s with
        stackMap := sm, fiber := fb, completionMutex := m, completionCondition := k, localValues := lv, frees := f } ∧
    ∀ x, (s.stackMap x = false → sm x = false) ∧ (s.fiber x = false → fb x = false) := by
  have hfree : ∃ sm fb m k lv f, taskFree s p t =
        { s with
          stackMap := sm, fiber := fb, completionMutex := m, completionCondition := k, localValues := lv, frees := f } ∧
      ∀ x, (s.stackMap x = false → sm x = false) ∧ (s.fiber x = false → fb x = false) := by
    unfold taskFree
    dsimp only
    split
    · exact ⟨_, _, _, _, _, _, rfl, fun x => ⟨update_false, update_false⟩⟩
    · exact ⟨_, _, _, _, _, _, rfl, fun x => ⟨update_false, update_false⟩⟩
  cases p with
  | vp => exact ⟨_, _, _, _, _, _, rfl, fun x => ⟨id, id⟩⟩
  | release => exact hfree
  | refused => exact hfree
  | runtimeFree => exact hfree

/-- The control block is freed and `c` returns. -/
theorem Moves.free {b : List Nat} {p : Path} (hl : Locked s) :
    Moves s ({ reclaim s p t with busy := b }.goto c .idle) c := by
  obtain ⟨sm, fb, m, k, lv, f, e, hx⟩ := reclaim_eq (s := s) (t := t) p
  rw [e]
  exact .quiet hl rfl rfl (.inl rfl) trivial (fun x => .inl ⟨id, id, (hx x).1, (hx x).2⟩)
    fun x h hr => ⟨(h hr).1, (hx x).1 (h hr).2.1, (hx x).2 (h hr).2.2⟩

theorem taskUnlink_frame {fuel : Nat} {r : Bool × State} (h : taskUnlink s t fuel = some r) :
    ∃ tasks links u, r.2 = { s with allTasks := tasks, allNext := links, unlinked := u } := by
  obtain ⟨link, -, rfl⟩ := Option.map_eq_some_iff.mp h
  split
  · exact ⟨_, _, _, rfl⟩
  · exact ⟨_, _, _, rfl⟩

theorem moves_next {fuel : Nat} (h : Life (ledger s)) (hl : Locked s) (hst : ∀ c, StageOk s (s.pc c))
    (hn : next s c fuel = some s') : Moves s s' c := by
  have hok : RoleOk (ledger s) c (s.pc c).role := h.roles c
  have hsc := hst c
  cases hp : s.pc c with (simp only [next, hp] at hn; rw [hp] at hok hsc)
  | idle => cases hn
  | spawn t =>
    obtain rfl := Option.some.inj hn
    unfold spawnAccept
    split
    · exact .quiet hl rfl rfl (.inl rfl) trivial (fun _ => .inl ⟨id, id, id, id⟩) fun _ h => h
    · exact .goto hl (.inl rfl) trivial
  | accepted t =>
    split_ifs at hn
    obtain rfl := Option.some.inj hn
    exact .setState hl rfl (fun _ => trivial) (.inl (by rw [show s.state t = .new from hok.2]; simp))
  | refused t => exact Option.some.inj hn ▸ .free (p := .refused) hl
  | retain t => exact .acquire hn rfl trivial
  | retainLocked t =>
    obtain rfl := Option.some.inj hn
    unfold taskRetain
    split
    · exact .goto hl (.inr (by rw [hp]; rfl)) trivial
    · exact .quiet hl rfl rfl (.inr (by rw [hp]; rfl)) trivial (fun _ => .inl ⟨id, id, id, id⟩) fun _ h => h
  | release t => exact .acquire hn rfl trivial
  | releaseLocked t =>
    obtain rfl := Option.some.inj hn
    unfold taskRelease
    split
    · exact .goto hl (.inr (by rw [hp]; rfl)) trivial
    · dsimp only
      split
      · exact .quiet hl rfl rfl (.inr (by rw [hp]; rfl)) trivial (fun _ => .inl ⟨id, id, id, id⟩) fun _ h => h
      · exact .quiet hl rfl rfl (.inr (by rw [hp]; rfl)) trivial (fun _ => .inl ⟨id, id, id, id⟩) fun _ h => h
  | wait t => exact .acquireMutex hl hn rfl trivial
  | waitLocked t =>
    obtain rfl := Option.some.inj hn
    split
    · exact .quiet hl rfl rfl (.inl rfl) trivial (fun _ => .inl ⟨id, id, id, id⟩) fun _ h => h
    · exact .quiet hl rfl rfl (.inl rfl) trivial (fun _ => .inl ⟨id, id, id, id⟩) fun _ h => h
  | waitBlocked t => exact Option.some.inj hn ▸ .goto hl (.inl rfl) trivial
  | run t => cases hn
  | done t => exact .acquire hn rfl trivial
  | doneLocked t =>
    obtain rfl := Option.some.inj hn
    refine .quiet hl rfl rfl (.inr (by rw [hp]; rfl)) (Function.update_self _ _ _)
      (fun x => .inl ⟨fun hf => ?_, id, id, id⟩)
      fun _ h => h
    simp only [Function.update_apply]
    split
    · rfl
    · exact hf
  | doneUnlock t => exact Option.some.inj hn ▸ .release hl (by rw [hp]; rfl) rfl hsc
  | doneMutex t => exact .acquireMutex hl hn rfl hsc
  | doneMutexLocked t =>
    obtain rfl := Option.some.inj hn
    refine .quiet hl rfl rfl (.inl rfl) ⟨hsc, Function.update_self _ _ _⟩
      (fun x => .inl ⟨id, fun h => update_true h, id, id⟩) fun x h hr => ⟨update_true (h hr).1, (h hr).2⟩
  | doneMutexUnlock t =>
    exact Option.some.inj hn ▸ .quiet hl rfl rfl (.inl rfl) hsc (fun _ => .inl ⟨id, id, id, id⟩) fun _ h => h
  | stack t =>
    obtain rfl := Option.some.inj hn
    exact .quiet hl rfl rfl (.inl rfl) ⟨hsc.1, hsc.2, Function.update_self _ _ _, Function.update_self _ _ _⟩
      (fun x => .inl ⟨id, id, update_false, update_false⟩)
      fun x h hr => ⟨(h hr).1, update_false (h hr).2.1, update_false (h hr).2.2⟩
  | exec t => exact .acquire hn rfl hsc
  | execLocked t =>
    obtain rfl := Option.some.inj hn
    have he : ∀ x, Ended s x → Ended { s with executionReleased := Function.update s.executionReleased t true } x := by
      intro x h hr
      by_cases e : x = t
      · exact e ▸ hsc.2
      · exact h ((Function.update_of_ne e _ _).symm.trans hr)
    unfold taskExecutionReleased
    dsimp only
    split
    · exact .quiet hl rfl rfl (.inr (by rw [hp]; rfl)) trivial (fun _ => .inl ⟨id, id, id, id⟩) he
    · exact .quiet hl rfl rfl (.inr (by rw [hp]; rfl)) trivial (fun _ => .inl ⟨id, id, id, id⟩) he
  | unlink p t =>
    obtain ⟨r, hr, rfl⟩ := Option.map_eq_some_iff.mp hn
    obtain ⟨tasks, links, u, e⟩ := taskUnlink_frame hr
    rw [e]
    exact .quiet hl rfl rfl (.inr (by rw [hp]; rfl)) trivial (fun _ => .inl ⟨id, id, id, id⟩) fun _ h => h
  | unlock p t =>
    cases p with
    | none =>
      obtain rfl := Option.some.inj hn
      rw [ret_eq]
      exact .release hl (by rw [hp]; rfl) rfl trivial
    | some p => exact Option.some.inj hn ▸ .release hl (by rw [hp]; rfl) rfl trivial
  | free p t =>
    obtain rfl := Option.some.inj hn
    rw [ret_eq]
    exact .free hl
  | runtimeFree l => exact hok.elim

/-- A step that moves no thread. -/
theorem Moves.still (hl : Locked s) (hst : ∀ c, StageOk s (s.pc c)) (hpc : s'.pc = s.pc) (hlk : s'.lock = s.lock)
    (hk : ∀ t, Keeps s s' t) (he : ∀ t, Ended s t → Ended s' t) (c : Nat) : Moves s s' c where
  pc d _ := congrFun hpc d
  lock d t _ h := (congrFun hlk t).trans h
  locked t ht := (congrFun hlk t).trans (hl c t (congrFun hpc c ▸ ht))
  stage := by
    rw [hpc]
    by_contra hn
    obtain ⟨t, -, h⟩ := StageOk.role (s := s) hn
    exact h (hk t) (hst c)
  keeps t := .inl (hk t)
  ended := he

theorem moves_step {a : Act} (h : Life (ledger s)) (hl : Locked s) (hst : ∀ c, StageOk s (s.pc c)) (ha : inUse a = true)
    (hs : step s a = some s') : ∃ c, Moves s s' c := by
  cases a with simp only [step] at hs
  | spawn c t fiber =>
    split_ifs at hs with hp
    obtain rfl := Option.some.inj hs
    have hn := (h.tasks t).none hp.2.1
    refine ⟨c, .quiet hl rfl rfl (.inl rfl) trivial (fun x => ?_) fun x hx hr => ?_⟩
    · by_cases e : x = t
      · refine .inr fun d _ hd => hn.1 ?_
        have := h.roles d
        rw [show (ledger s).role d = .vp t from e ▸ hd] at this
        exact this.1
      · refine .inl ⟨fun h => ?_, id, fun h => ?_, fun h => ?_⟩ <;> simpa [taskNew, Function.update_of_ne e] using h
    · have e : x ≠ t := fun e => by
        have := (h.tasks t).released (e ▸ hr)
        simp [show s.state t = .none from hp.2.1, ledger] at this
      simpa [taskNew, Function.update_of_ne e] using hx hr
  | retain c t =>
    split_ifs at hs
    exact ⟨c, Option.some.inj hs ▸ .goto hl (.inl rfl) trivial⟩
  | release c t =>
    split_ifs at hs
    exact ⟨c, Option.some.inj hs ▸ .goto hl (.inl rfl) trivial⟩
  | wait c t =>
    split_ifs at hs
    exact ⟨c, Option.some.inj hs ▸ .goto hl (.inl rfl) trivial⟩
  | transfer c d t =>
    split_ifs at hs
    obtain rfl := Option.some.inj hs
    refine ⟨c, ?_⟩
    apply Moves.still hl hst
    · rfl
    · rfl
    · exact fun _ => ⟨id, id, id, id⟩
    · exact fun _ h => h
  | dispatch c t =>
    split_ifs at hs with hp
    exact ⟨c, Option.some.inj hs ▸ .setState hl rfl (fun _ => trivial) (.inl (by rw [hp.2.1]; simp))⟩
  | yield c =>
    split at hs <;> [skip; cases hs]
    rename_i t hp
    split_ifs at hs
    obtain rfl := Option.some.inj hs
    refine ⟨c, ?_⟩
    rw [ret_eq]
    exact .setState hl rfl (fun _ => trivial) (.inr fun d hd e => hd (h.one_vp e (by rw [hp]; rfl)))
  | park c =>
    split at hs <;> [skip; cases hs]
    rename_i t hp
    split_ifs at hs
    obtain rfl := Option.some.inj hs
    refine ⟨c, ?_⟩
    rw [ret_eq]
    exact .setState hl rfl (fun _ => trivial) (.inr fun d hd e => hd (h.one_vp e (by rw [hp]; rfl)))
  | unpark c t =>
    split_ifs at hs with hp
    obtain rfl := Option.some.inj hs
    refine ⟨c, ?_⟩
    apply Moves.still hl hst
    · rfl
    · rfl
    · refine fun x => ⟨fun hf => ?_, id, id, id⟩
      have e : x ≠ t := fun e => by rw [e, hp.2.1] at hf; cases hf
      exact (Function.update_of_ne e _ _).trans hf
    · exact fun _ h => h
  | setspecific c ok =>
    split at hs <;> [skip; cases hs]
    obtain rfl := Option.some.inj hs
    refine ⟨c, ?_⟩
    apply Moves.still hl hst
    · rfl
    · rfl
    · exact fun _ => ⟨id, id, id, id⟩
    · exact fun _ h => h
  | finish c =>
    split at hs <;> [skip; cases hs]
    exact ⟨c, Option.some.inj hs ▸ .goto hl (.inl rfl) trivial⟩
  | setState st stop =>
    split_ifs at hs
    obtain rfl := Option.some.inj hs
    refine ⟨0, ?_⟩
    apply Moves.still hl hst
    · rfl
    · rfl
    · exact fun _ => ⟨id, id, id, id⟩
    · exact fun _ h => h
  | runtimeFree c => cases ha
  | next c fuel => exact ⟨c, moves_next h hl hst hs⟩

/-! ## The list of all tasks -/

variable {l : List Nat}

theorem Listed.accept (hl : Listed s l) (h : Life (ledger s)) (hp : s.pc c = .spawn t) :
    ∃ l', Listed (spawnAccept s c t) l' := by
  have hok : RoleOk (ledger s) c (.fresh t) := by
    have := h.roles c
    rwa [show (ledger s).role c = .fresh t by simp only [ledger, hp]; rfl] at this
  have htl : t ∉ l := fun e => hok.2.1 ((hl.2 t).mp e).1
  have htu : t ∉ s.unlinked := fun e => hok.2.1 ((h.tasks t).unlinked e).1
  unfold spawnAccept
  split
  · refine ⟨t :: l, ⟨rfl, ?_⟩, fun x => ?_⟩
    · have hc : IsChain (Function.update s.allNext t s.allTasks) s.allTasks l := hl.1.congr fun x hx =>
        Function.update_of_ne (fun e : x = t => htl (e ▸ hx)) _ _
      simpa [State.goto] using hc
    · simp only [State.goto, List.mem_cons, hl.2 x]
      constructor
      · rintro (rfl | ⟨ha, hu⟩)
        · exact ⟨.inl rfl, htu⟩
        · exact ⟨.inr ha, hu⟩
      · rintro ⟨rfl | ha, hu⟩
        · exact .inl rfl
        · exact .inr ⟨ha, hu⟩
  · exact ⟨l, hl⟩

theorem Listed.unlink {fuel : Nat} {pc : Pc} {r : Bool × State} (hl : Listed s l) (ht : t ∈ l)
    (hu : taskUnlink s t fuel = some r) : Listed (r.2.goto c pc) (l.erase t) := by
  obtain ⟨-, tasks, links, hc, hs⟩ := taskUnlink_eq hl ht hu
  rw [hs]
  refine ⟨hc, fun x => ?_⟩
  simp only [State.goto, hl.1.nodup.mem_erase_iff, hl.2 x, List.mem_cons, not_or]
  exact ⟨fun h => ⟨h.2.1, h.1, h.2.2⟩, fun h => ⟨h.2.1, h.1, h.2.2⟩⟩

theorem Listed.reclaim {p : Path} (hl : Listed s l) : Listed (reclaim s p t) l := by
  obtain ⟨sm, fb, m, k, lv, f, e, -⟩ := reclaim_eq (s := s) (t := t) p
  rw [e]
  exact hl

theorem listed_next {fuel : Nat} (h : Life (ledger s)) (hl : Listed s l) (hn : next s c fuel = some s') :
    ∃ l', Listed s' l' := by
  have hok : RoleOk (ledger s) c (s.pc c).role := h.roles c
  have hacq : ∀ {t pc}, s.acquire c t pc = some s' → Listed s' l := fun ha => by
    simp only [State.acquire] at ha
    split_ifs at ha
    exact Option.some.inj ha ▸ hl
  have hmut : ∀ {t pc}, s.acquireMutex c t pc = some s' → Listed s' l := fun ha => by
    simp only [State.acquireMutex] at ha
    split_ifs at ha
    exact Option.some.inj ha ▸ hl
  cases hp : s.pc c with (simp only [next, hp] at hn; rw [hp] at hok)
  | idle => cases hn
  | spawn t => exact Option.some.inj hn ▸ hl.accept h hp
  | accepted t =>
    split_ifs at hn
    exact ⟨l, Option.some.inj hn ▸ hl⟩
  | refused t => exact ⟨l, Option.some.inj hn ▸ hl.reclaim (p := .refused)⟩
  | retain t => exact ⟨l, hacq hn⟩
  | retainLocked t =>
    obtain rfl := Option.some.inj hn
    unfold taskRetain
    split <;> exact ⟨l, hl⟩
  | release t => exact ⟨l, hacq hn⟩
  | releaseLocked t =>
    obtain rfl := Option.some.inj hn
    unfold taskRelease
    split
    · exact ⟨l, hl⟩
    · dsimp only
      split <;> exact ⟨l, hl⟩
  | wait t => exact ⟨l, hmut hn⟩
  | run t => cases hn
  | done t => exact ⟨l, hacq hn⟩
  | doneMutex t => exact ⟨l, hmut hn⟩
  | exec t => exact ⟨l, hacq hn⟩
  | execLocked t =>
    obtain rfl := Option.some.inj hn
    unfold taskExecutionReleased
    dsimp only
    split <;> exact ⟨l, hl⟩
  | unlink p t =>
    obtain ⟨r, hr, rfl⟩ := Option.map_eq_some_iff.mp hn
    have htl : t ∈ l := (hl.2 t).mpr ⟨hok.accepted, fun e => by simpa using hok.unlinked.mpr e⟩
    exact ⟨_, hl.unlink htl hr⟩
  | unlock p t => cases p <;> exact ⟨l, Option.some.inj hn ▸ hl⟩
  | free p t => exact ⟨l, Option.some.inj hn ▸ hl.reclaim (p := p)⟩
  | runtimeFree l => exact hok.elim
  | _ => exact ⟨l, Option.some.inj hn ▸ hl⟩

theorem listed_step {a : Act} (h : Life (ledger s)) (hl : Listed s l) (ha : inUse a = true) (hs : step s a = some s') :
    ∃ l', Listed s' l' := by
  cases a with simp only [step] at hs
  | setspecific c ok =>
    split at hs <;> [skip; cases hs]
    exact ⟨l, Option.some.inj hs ▸ hl⟩
  | finish c =>
    split at hs <;> [skip; cases hs]
    exact ⟨l, Option.some.inj hs ▸ hl⟩
  | yield c =>
    split at hs <;> [skip; cases hs]
    split_ifs at hs
    exact ⟨l, Option.some.inj hs ▸ hl⟩
  | park c =>
    split at hs <;> [skip; cases hs]
    split_ifs at hs
    exact ⟨l, Option.some.inj hs ▸ hl⟩
  | runtimeFree c => cases ha
  | next c fuel => exact listed_next h hl hs
  | _ =>
    split_ifs at hs
    exact ⟨l, Option.some.inj hs ▸ hl⟩

/-! ## Every run -/

/-- The invariant of the runs without `dlsm_gt_runtime_free`. -/
structure Inv (s : State) : Prop where
  life : Life (ledger s)
  locked : Locked s
  stages : ∀ c, StageOk s (s.pc c)
  ended : ∀ t, Ended s t
  listed : ∃ l, Listed s l

theorem inv_initial (b : Bool) : Inv (State.initial b) where
  life := by
    refine ⟨fun c => trivial, fun t => ⟨?_, ?_, ?_, ?_, ?_, ?_, ?_⟩, fun c d t hc => ?_, ?_, ?_, ?_⟩ <;>
      simp [ledger, State.initial, freed, Pc.role, Role.owns] at *
  locked := fun c t h => by cases h
  stages := fun c => trivial
  ended := fun t h => by cases h
  listed := ⟨[], rfl, fun t => by simp [State.initial]⟩

/-- The step lemma. -/
theorem Inv.step {a : Act} (h : Inv s) (ha : inUse a = true) (hs : step s a = some s') : Inv s' := by
  obtain ⟨l, hl⟩ := h.listed
  obtain ⟨c, hm⟩ := moves_step h.life h.locked h.stages ha hs
  exact ⟨life_step h.life h.locked h.stages hl ha hs, hm.locks h.locked, hm.stages h.stages,
    fun t => hm.ended t (h.ended t), listed_step h.life hl ha hs⟩

/-- The run lemma. -/
theorem inv_of_reach (h : machine.ReachBy (fun _ a => inUse a = true) s) : Inv s := by
  refine h.invariant (I := Inv) ?_ ?_
  · rintro _ ⟨b, rfl⟩
    exact inv_initial b
  · exact fun s s' a _ hi ha hs => hi.step ha hs

theorem Inv.not_freed (h : Inv s) (hr : (s.pc c).role.task = some t) : t ∉ freed s := by
  have hok := h.life.roles c
  have hk := h.life.tasks t
  rcases Role.task_cases hr with e | e | e | e | ⟨b, e⟩ | e <;>
    rw [show (ledger s).role c = (s.pc c).role from rfl, e] at hok
  · exact hok.2.2
  · exact (hk.of_mem_holders hok.1).2.2.2
  · exact (hk.of_mem_holders hok).2.2.2
  · intro hf
    have hu := (hk.unlinked (hk.freed hf hok.1)).2.2
    rw [hok.2.1] at hu
    cases hu
  · exact hok.unfreed
  · exact fun hf => hok.2 (hk.freed hf hok.1)

/-- The walk of `task_unlink` ends and finds the task. -/
theorem Inv.unlinks {p : Path} (h : Inv s) (hp : s.pc c = .unlink p t) :
    ∃ fuel s', TaskControl.step s (.next c fuel) = some s' ∧ s'.pc c = .unlock (some p) t := by
  obtain ⟨l, hl⟩ := h.listed
  have hok := h.life.roles c
  rw [show (ledger s).role c = .reclaim false t by simp only [ledger, hp]; rfl] at hok
  have htl : t ∈ l := (hl.2 t).mpr ⟨hok.accepted, fun e => by simpa using hok.unlinked.mpr e⟩
  have hf := Links.findLink_total (q := ⟨s.allNext, s.allTasks, none⟩) (n := t) (k := .head) hl.1
    (Nat.lt_succ_self l.length)
  obtain ⟨link, hf⟩ := Option.ne_none_iff_exists'.mp hf
  obtain ⟨r, hr⟩ : ∃ r, taskUnlink s t (l.length + 1) = some r :=
    ⟨_, by simp only [taskUnlink, hf, Option.map_some]; rfl⟩
  obtain ⟨hr₁, -⟩ := taskUnlink_eq hl htl hr
  refine ⟨l.length + 1, r.2.goto c (.unlock (some p) t), ?_, goto_pc_self _⟩
  simp [TaskControl.step, next, hp, hr, hr₁]

/-- Task control blocks are reclaimed exactly once. Whatever threads retain,
release, wait for, run and finish the tasks of a runtime, and in whatever order
their steps come: a task is unlinked from `all_tasks` and freed once, when no
reference is held on it and its VP has released its execution resources and not
before, by the thread that does the last of the two; `all_tasks` holds the
accepted tasks that are not reclaimed, no call touches a freed control block and
`external_refs` counts the references. -/
theorem tasks_reclaimed_exactly_once (h : machine.ReachBy (fun _ a => inUse a = true) s) : ∃ l, ReclaimedOnce s l := by
  have hi := inv_of_reach h
  obtain ⟨l, hl⟩ := hi.listed
  have hk := hi.life.tasks
  refine ⟨l, hl.1, hl.2, hi.life.unlinkedOnce, hi.life.freedOnce, fun t ha hf => (hk t).freed hf ha,
    fun t ht => (hk t).unlinked ht, fun t ht => ?_, hi.life.last, fun c d b b' t hc hd => ?_, fun c p t hp =>
      hi.unlinks hp,
    fun c t hr => hi.not_freed hr, fun t hne => ?_, fun t => (hk t).refs⟩
  · refine ⟨(hk t).released ht, (hi.ended t ht).1, (hi.ended t ht).2.1, (hi.ended t ht).2.2, fun c hc => ?_⟩
    have hok := hi.life.roles c
    rw [show (ledger s).role c = .vp t from hc] at hok
    exact Bool.false_ne_true (hok.2.1.symm.trans ht)
  · exact hi.life.one c d t (by rw [show (ledger s).role c = _ from hc]; rfl)
      (by rw [show (ledger s).role d = _ from hd]; rfl)
  · obtain ⟨c, hc⟩ := List.exists_mem_of_ne_nil _ hne
    have ht := (hk t).of_mem_holders hc
    exact ⟨(hl.2 t).mpr ⟨ht.2.1, ht.2.2.1⟩, ht.2.2.2⟩

/-- A detached task is executed and reclaimed by its VP. -/
def detachedRun : List Act :=
  ([.spawn 0 0 false, .next 0 0, .next 0 0, .release 0 0, .next 0 0, .next 0 0, .next 0 0, .setState .running false,
    .dispatch 7 0, .finish 7] : List Act) ++ (List.replicate 12 (.next 7 1) : List Act)

theorem tasks_reclaimed_exactly_once_detached : ∃ s l, ReclaimedOnce s l ∧ freed s = [0] ∧ s.unlinked = [0] := by
  obtain ⟨s, hr, hs⟩ := machine.exists_reachBy_of_run (C := fun _ a => inUse a = true) (c := fun _ a => inUse a)
    (fun _ _ h => h) (s := State.initial false) (l := detachedRun)
    (p := fun s => freed s = [0] && s.unlinked = [0]) ⟨false, rfl⟩ (by decide +kernel)
  obtain ⟨l, hl⟩ := tasks_reclaimed_exactly_once hr
  simp only [Bool.and_eq_true, decide_eq_true_eq] at hs
  exact ⟨s, l, hl, hs⟩

end Dlsmc.TaskControl
