import Dlsmc.Greenthread.Scheduling

/-!
# Wakeups in flight

A VP that has published `SPINNING` and looked at a queue for the last time
(`VPc.past`) relies on the producers that push to it from then on. A producer
that has not finished its wakeup is of use to VP `v` in one of two ways: it
will wake `v`, or another VP of the queue, whatever the state of `v`
(`Op.early`), or it will if `v` is asleep by now (`Op.late`). The operations
of wakeups pass from one to the other (`execOp_early`, `execOp_late`).
-/

namespace Dlsmc.Runtime

variable {s s' : State} {a : Actor} {v t : Nat} {loc : Nat → Loc}

attribute [local grind =] Function.update_apply

/-! ## The second scan -/

/-- The order of the accesses of `vp_try_priority`. -/
def Probe.rank : Probe → Nat
  | .boundUnless => 0
  | .localUnless => 1
  | .ready => 2
  | .localAgain => 3
  | .bound => 4
  | .loc => 5
  | .nvp => 6
  | .steal _ _ => 7

/-- The last access to a queue of its VP or its group. -/
def Queue.rank : Queue → Nat
  | .bound _ _ => 4
  | .loc _ _ => 5
  | .ready _ _ => 2

/-- After it published `SPINNING` the VP has looked at the queue for the last time. -/
def VPc.past (q : Queue) : VPc → Bool
  | .scan true _ (.main p) pr => decide (q.priority < p ∨ q.priority = p ∧ q.rank < pr.rank)
  | .check true | .sleepLock | .sleepLoad | .sleepStore | .sleepLoop | .blocked => true
  | _ => false

/-- The VP has seen that `rt->shutdown` is not set, for the last time. -/
def VPc.committed : VPc → Bool
  | .sleepLock | .sleepLoad | .sleepStore | .sleepLoop | .blocked => true
  | _ => false

/-- The VP relies on a wakeup for what it looked at before `past`. -/
def Dozing (s : State) (v : Nat) (past : VPc → Bool) : Prop := s.idle v ≠ .running ∧ past (s.pc v) = true

/-! ## Wakeups -/

/-- What VPs are woken for. -/
inductive Req where
  /-- The push of a task, with its count. -/
  | push (q : Queue) (t k : Nat)
  | shutdown

def Queue.ofGroup (g : Nat) : Queue → Bool
  | .ready g' _ => g' == g
  | _ => false

/-- A pass of `wake_group_vp` for the request. -/
def Req.isGroup (r : Req) (g : Nat) (exclude : Option Nat) (tag : Tag) : Bool :=
  match r with
  | .push q t k => q.ofGroup g && exclude == none && tag == some (t, k)
  | .shutdown => false

/-- A `dlsm_gt_vp_idle_wake` after the push to a queue of a VP. -/
def Req.isPush (r : Req) (tag : Tag) : Bool :=
  match r with
  | .push (.ready _ _) _ _ => false
  | .push _ t k => tag == some (t, k)
  | .shutdown => false

def Req.isShutdown : Req → Bool
  | .push _ _ _ => false
  | .shutdown => true

/-- The operation will wake `v`, or another VP in its place. -/
def Op.early (r : Req) (v : Nat) : Op → Bool
  | .wake w tag => w == v && r.isPush tag
  | .groupLoad second g ex tag => !second && r.isGroup g ex tag
  | .groupScan second n i g ex tag | .groupWake second n i g ex tag =>
    !second && decide (i ≤ v ∧ v < n) && r.isGroup g ex tag
  | .groupSection second n i g ex tag => !second && decide (i < v ∧ v < n) && r.isGroup g ex tag
  | .wakeAll => r.isShutdown
  | .allWake n i => decide (i ≤ v ∧ v < n) && r.isShutdown
  | .allSection n i => decide (i < v ∧ v < n) && r.isShutdown
  | _ => false

/-- The operation will wake `v`, or another VP in its place, if `v` is asleep. -/
def Op.late (r : Req) (v : Nat) : Op → Bool
  | .wakeSection w tag => w == v && r.isPush tag
  | .groupLoad second g ex tag => second && r.isGroup g ex tag
  | .groupScan second n i g ex tag | .groupWake second n i g ex tag =>
    decide (if second then i ≤ v ∧ v < n else v < i) && r.isGroup g ex tag
  | .groupSection second n i g ex tag => decide (if second then i ≤ v ∧ v < n else v ≤ i) && r.isGroup g ex tag
  | .allSection _ i => i == v && r.isShutdown
  | _ => false

/-- The VPs that may be woken for a request that concerns `v`. -/
def Req.mayWake (s : State) (r : Req) (v w : Nat) : Prop :=
  w = v ∨ ∃ g p t k, r = .push (.ready g p) t k ∧ w < s.nvp ∧ s.group w = g

/-- A pass of `wake_group_vp` visits published VPs of its group. -/
def Op.groupOk (s : State) : Op → Prop
  | .groupScan _ n _ _ _ _ => n ≤ s.nvp
  | .groupWake _ n i g _ _ | .groupSection _ n i g _ _ => n ≤ s.nvp ∧ i < n ∧ s.group i = g
  | _ => True

theorem Req.isGroup_iff {r : Req} {g : Nat} {ex : Option Nat} {tag : Tag} :
    r.isGroup g ex tag = true ↔ ex = none ∧ ∃ p t k, r = .push (.ready g p) t k ∧ tag = some (t, k) := by
  cases r with
  | shutdown => simp [Req.isGroup]
  | push q t k => cases q <;> simp [Req.isGroup, Queue.ofGroup]; grind -linarith

/-- Operation `o` of a wakeup for `r`, which concerns VP `v`, continues as `l`. -/
def Carries (s' : State) (r : Req) (v : Nat) (l : List Op) : Prop :=
  (∃ o ∈ l, o.early r v = true) ∨ (s'.idle v = .sleeping ∧ ∃ o ∈ l, o.late r v = true) ∨
    ∃ w, r.mayWake s' v w ∧ s'.idle w = .running

/-- VP `v` is one that the request concerns. -/
def Req.concerns (s : State) (v : Nat) : Req → Prop
  | .push (.ready g _) _ _ => v < s.nvp ∧ s.group v = g
  | .push _ _ _ => True
  | .shutdown => v < s.nvp

theorem Carries.early {r : Req} {l : List Op} {o : Op} (ho : o ∈ l) (h : o.early r v = true) : Carries s' r v l :=
  .inl ⟨o, ho, h⟩

theorem Carries.late {r : Req} {l : List Op} {o : Op} (hi : s'.idle v = .sleeping) (ho : o ∈ l)
    (h : o.late r v = true) : Carries s' r v l :=
  .inr (.inl ⟨hi, o, ho, h⟩)

theorem Carries.woken {r : Req} {l : List Op} {w : Nat} (hw : r.mayWake s' v w) (hi : s'.idle w = .running) :
    Carries s' r v l :=
  .inr (.inr ⟨w, hw, hi⟩)

theorem Req.mayWake_group {r : Req} {g w : Nat} {ex : Option Nat} {tag : Tag} (h : r.isGroup g ex tag = true)
    (hw : w < s.nvp) (hg : s.group w = g) : r.mayWake s v w := by
  obtain ⟨-, p, t, k, rfl, -⟩ := Req.isGroup_iff.mp h
  exact .inr ⟨g, p, t, k, rfl, hw, hg⟩

theorem execOp_early {o : Op} {r : Req} {res : State × List Op} (h : execOp s a o = some res)
    (he : o.early r v = true) (hr : r.concerns s v) (hok : o.groupOk s) : Carries res.1 r v res.2 := by
  cases o with
  | wake w tag =>
    simp only [Op.early, Bool.and_eq_true, beq_iff_eq] at he
    obtain ⟨rfl, he⟩ := he
    simp only [execOp, idleWake, Option.some.injEq] at h
    split at h <;> subst h
    · exact .woken (.inl rfl) (Function.update_self ..)
    case _ hi => exact .woken (.inl rfl) hi
    case _ hi => exact .late hi (List.mem_singleton_self _) (by simp [Op.late, he])
  | groupLoad second g ex tag =>
    simp only [Op.early, Bool.and_eq_true, Bool.not_eq_true'] at he
    obtain ⟨-, p, t, k, rfl, -⟩ := Req.isGroup_iff.mp he.2
    simp only [execOp, Option.some.injEq] at h
    subst h
    exact .early (List.mem_singleton_self _) (by simp [Op.early, he, hr.1])
  | groupScan second n i g ex tag =>
    simp only [Op.early, Bool.and_eq_true, Bool.not_eq_true', decide_eq_true_eq] at he
    obtain ⟨⟨rfl, hi, hn⟩, hgp⟩ := he
    obtain ⟨rfl, p, t, k, rfl, rfl⟩ := Req.isGroup_iff.mp hgp
    have hgv : s.group v = g := hr.2
    simp only [execOp, groupScan, desired, Option.some.injEq, Nat.not_le.mpr (Nat.lt_of_le_of_lt hi hn), if_false,
      reduceCtorEq, false_or, Bool.false_eq_true] at h
    subst h
    by_cases e : i = v
    · subst e
      simp only [hgv, ne_eq, not_true, if_false]
      cases hid : s.idle i with
      | running => exact .woken (.inl rfl) hid
      | spinning =>
        simp only [if_true]
        exact .early (List.mem_singleton_self _) (by simp [Op.early, hgp, hn])
      | sleeping =>
        simp only [reduceCtorEq, if_false]
        exact .late hid (List.mem_singleton_self _) (by simp [Op.late, hgp])
    · have hlt : i + 1 ≤ v := by omega
      split
      · exact .early (List.mem_singleton_self _) (by simp [Op.early, hgp, hn, hlt])
      · split
        · exact .early (List.mem_singleton_self _) (by simp [Op.early, hgp, hn, hi])
        · exact .early (List.mem_singleton_self _) (by simp [Op.early, hgp, hn, hlt])
  | groupWake second n i g ex tag =>
    simp only [Op.early, Bool.and_eq_true, Bool.not_eq_true', decide_eq_true_eq] at he
    obtain ⟨⟨rfl, hi, hn⟩, hgp⟩ := he
    obtain ⟨hnv, hin, hgi⟩ := hok
    simp only [execOp, idleWake, Option.some.injEq] at h
    have hw : r.mayWake s v i := Req.mayWake_group hgp (by omega) hgi
    split at h <;> subst h
    · exact .woken hw (Function.update_self ..)
    case _ hid => exact .woken hw hid
    case _ hid =>
      by_cases e : i = v
      · subst e
        exact .late hid (List.mem_singleton_self _) (by simp [Op.late, hgp])
      · exact .early (List.mem_singleton_self _) (by simp [Op.early, hgp, hn]; omega)
  | groupSection second n i g ex tag =>
    simp only [Op.early, Bool.and_eq_true, Bool.not_eq_true', decide_eq_true_eq] at he
    obtain ⟨⟨rfl, hi, hn⟩, hgp⟩ := he
    obtain ⟨hnv, hin, hgi⟩ := hok
    simp only [execOp, idleWakeSection, Option.ite_none_left_eq_some] at h
    obtain ⟨-, h⟩ := h
    have hw : r.mayWake s v i := Req.mayWake_group hgp (by omega) hgi
    split at h <;> cases h
    · exact .woken hw (Function.update_self ..)
    · exact .early (List.mem_singleton_self _) (by simp [Op.early, hgp, hn]; omega)
  | wakeAll =>
    simp only [execOp, Option.some.injEq] at h
    subst h
    cases r with
    | push => cases he
    | shutdown =>
      have hv : v < s.nvp := hr
      exact .early (List.mem_singleton_self _) (by simp [Op.early, Req.isShutdown, hv])
  | allWake n i =>
    simp only [Op.early, Bool.and_eq_true, decide_eq_true_eq] at he
    obtain ⟨⟨hi, hn⟩, hs⟩ := he
    simp only [execOp, Nat.not_le.mpr (Nat.lt_of_le_of_lt hi hn), if_false, idleWake, Option.some.injEq] at h
    by_cases e : i = v
    · subst e
      split at h <;> subst h
      · exact .woken (.inl rfl) (Function.update_self ..)
      case _ hid => exact .woken (.inl rfl) hid
      case _ hid => exact .late hid (List.mem_singleton_self _) (by simp [Op.late, hs])
    · split at h <;> subst h
      all_goals exact .early (List.mem_singleton_self _) (by simp [Op.early, hs, hn]; omega)
  | allSection n i =>
    simp only [Op.early, Bool.and_eq_true, decide_eq_true_eq] at he
    obtain ⟨⟨hi, hn⟩, hs⟩ := he
    simp only [execOp, idleWakeSection, Option.ite_none_left_eq_some] at h
    obtain ⟨-, h⟩ := h
    split at h <;> cases h
    all_goals exact .early (List.mem_singleton_self _) (by simp [Op.early, hs, hn]; omega)
  | _ => cases he

theorem execOp_late {o : Op} {r : Req} {res : State × List Op} (h : execOp s a o = some res)
    (he : o.late r v = true) (hsl : s.idle v = .sleeping) (hr : r.concerns s v) (hok : o.groupOk s) :
    Carries res.1 r v res.2 := by
  cases o with
  | wakeSection w tag =>
    simp only [Op.late, Bool.and_eq_true, beq_iff_eq] at he
    obtain ⟨rfl, he⟩ := he
    simp only [execOp, idleWakeSection, Option.ite_none_left_eq_some, hsl, if_true] at h
    obtain ⟨-, h⟩ := h
    cases h
    exact .woken (.inl rfl) (Function.update_self ..)
  | groupLoad second g ex tag =>
    simp only [Op.late, Bool.and_eq_true] at he
    obtain ⟨-, p, t, k, rfl, -⟩ := Req.isGroup_iff.mp he.2
    simp only [execOp, Option.some.injEq] at h
    subst h
    exact .late hsl (List.mem_singleton_self _) (by simp [Op.late, he, hr.1])
  | groupScan second n i g ex tag =>
    simp only [Op.late, Bool.and_eq_true, decide_eq_true_eq] at he
    obtain ⟨hi, hgp⟩ := he
    obtain ⟨rfl, p, t, k, rfl, rfl⟩ := Req.isGroup_iff.mp hgp
    have hgv : s.group v = g := hr.2
    simp only [execOp, groupScan, Option.some.injEq] at h
    subst h
    cases second with
    | false =>
      simp only [Bool.false_eq_true, if_false] at hi ⊢
      repeat' split
      all_goals refine .late hsl (List.mem_singleton_self _) ?_
      all_goals simp [Op.late, hgp]
      all_goals omega
    | true =>
      simp only [if_true] at hi
      -- `v` itself is neither skipped nor passed over
      have hne : some i = none ∨ s.group i ≠ g → i ≠ v := by
        rintro (hx | hx) rfl
        · cases hx
        · exact hx hgv
      have hne' : s.idle i ≠ desired true → i ≠ v := by
        rintro hx rfl
        exact hx hsl
      simp only [Nat.not_le.mpr (Nat.lt_of_le_of_lt hi.1 hi.2), if_false]
      repeat' split
      all_goals refine .late hsl (List.mem_singleton_self _) ?_
      all_goals simp [Op.late, hgp]
      all_goals grind -linarith
  | groupWake second n i g ex tag =>
    simp only [Op.late, Bool.and_eq_true, decide_eq_true_eq] at he
    obtain ⟨hi, hgp⟩ := he
    obtain ⟨hnv, hin, hgi⟩ := hok
    have hw : r.mayWake s v i := Req.mayWake_group hgp (by omega) hgi
    simp only [execOp, idleWake, Option.some.injEq] at h
    split at h <;> subst h
    · exact .woken hw (Function.update_self ..)
    case _ hid => exact .woken hw hid
    case _ hid =>
      refine .late hsl (List.mem_singleton_self _) ?_
      cases second <;> simp [Op.late, hgp] at hi ⊢ <;> omega
  | groupSection second n i g ex tag =>
    simp only [Op.late, Bool.and_eq_true, decide_eq_true_eq] at he
    obtain ⟨hi, hgp⟩ := he
    obtain ⟨hnv, hin, hgi⟩ := hok
    have hw : r.mayWake s v i := Req.mayWake_group hgp (by omega) hgi
    simp only [execOp, idleWakeSection, Option.ite_none_left_eq_some] at h
    obtain ⟨-, h⟩ := h
    split at h <;> cases h
    · exact .woken hw (Function.update_self ..)
    case _ hid =>
      refine .late hsl (List.mem_singleton_self _) ?_
      have : i ≠ v := fun e => hid (e ▸ hsl)
      cases second <;> simp [Op.late, hgp] at hi ⊢ <;> omega
  | allSection n i =>
    simp only [Op.late, Bool.and_eq_true, beq_iff_eq] at he
    obtain ⟨rfl, he⟩ := he
    simp only [execOp, idleWakeSection, Option.ite_none_left_eq_some, hsl, if_true] at h
    obtain ⟨-, h⟩ := h
    cases h
    exact .woken (.inl rfl) (Function.update_self ..)
  | _ => cases he

end Dlsmc.Runtime
