import Dlsmc.Io.Completion

/-!
# Entries the kernel was not told of

`submit` advances the tail of the submission ring and then ignores the result
of `io_uring_enter`. Each failure leaves one entry behind for good: a later
success takes the oldest entry, not its own (`Backlog`), so between two
submissions as many entries are left as calls failed.
-/

namespace Dlsmc.Io

/-- At `io_uring_enter`, after the store of the tail. -/
def Pc.entering : Pc → Bool
  | .enter _ _ => true
  | _ => false

/-- Entries placed for which `io_uring_enter` is still to come. -/
def entering (s : State) : Nat :=
  match s.mtx with
  | none => 0
  | some t => if (s.pc t).entering then 1 else 0

/-- What is left in the submission ring. -/
def Backlog (s : State) : Prop := s.sqTail = s.sqHead + s.failed + entering s

section Steps

variable {s w : State} {t : Nat} {c : Pc}

theorem Backlog.move (h : Backlog s) (hm : w.mtx = s.mtx) (hp : w.pc = s.pc) (hh : w.sqHead = s.sqHead)
    (ht : w.sqTail = s.sqTail) (hf : w.failed = s.failed) (hc : c.entering = (s.pc t).entering) :
    Backlog (setPc w t c) := by
  have he : entering (setPc w t c) = entering s := by
    show (match w.mtx with | none => 0 | some u => if (Function.update w.pc t c u).entering then 1 else 0) = _
    rw [hm, hp]
    unfold entering
    split
    · rfl
    · rw [same_update hc]
  show w.sqTail = w.sqHead + w.failed + entering (setPc w t c)
  rw [he, hh, ht, hf]
  exact h

theorem Backlog.lock (h : Backlog s) (hs : Io.lock s t c = some w) (hc : c.entering = false) : Backlog w := by
  unfold Io.lock at hs
  split at hs
  · cases hs
  · rename_i hm
    obtain rfl := Option.some.inj hs
    have h : s.sqTail = s.sqHead + s.failed + entering s := h
    have he : entering (setPc { s with mtx := some t } t c) = 0 := by simp [entering, setPc, hc]
    show s.sqTail = s.sqHead + s.failed + entering _
    rw [he, h]
    simp [entering, hm]

/-- The call that holds the mutex is the one that may be entering. -/
theorem entering_eq (hm : Mutex s) (ht : (s.pc t).holds = true) :
    s.mtx = some t ∧ entering s = if (s.pc t).entering then 1 else 0 := by
  have hmtx : s.mtx = some t := (hm t).mp ht
  exact ⟨hmtx, by simp only [entering, hmtx]⟩

theorem Backlog.unlock (h : Backlog s) (hm : Mutex s) (ht : (s.pc t).holds = true)
    (hc : (s.pc t).entering = false) : Backlog (setPc (Io.unlock s) t c) := by
  have h : s.sqTail = s.sqHead + s.failed + entering s := h
  rw [(entering_eq hm ht).2, hc] at h
  exact h

theorem Backlog.next (h : Backlog s) (hm : Mutex s) {ok : Bool} (hs : Io.next s t ok = some w) : Backlog w := by
  cases hpc : s.pc t with
  | idle => simp [Io.next, hpc] at hs
  | allocLock | submitLock tok | freeLock tok k res =>
    simp only [Io.next, hpc] at hs
    exact h.lock hs rfl
  | allocPop =>
    simp only [Io.next, hpc] at hs
    split at hs <;> exact Option.some.inj hs ▸ h.move rfl rfl rfl rfl rfl (by rw [hpc]; rfl)
  | allocUnlock tok =>
    cases tok <;> simp only [Io.next, hpc] at hs <;>
      exact Option.some.inj hs ▸ h.unlock hm (by rw [hpc]; rfl) (by rw [hpc]; rfl)
  | submitUnlock tok k =>
    simp only [Io.next, hpc] at hs
    exact Option.some.inj hs ▸ h.unlock hm (by rw [hpc]; rfl) (by rw [hpc]; rfl)
  | freeUnlock k res =>
    simp only [Io.next, hpc] at hs
    have h' : Backlog (setPc (Io.unlock s) t .idle) := h.unlock hm (by rw [hpc]; rfl) (by rw [hpc]; rfl)
    exact Option.some.inj hs ▸ h'
  | place tok =>
    obtain ⟨hmtx, he⟩ := entering_eq hm (show (s.pc t).holds = true by rw [hpc]; rfl)
    simp only [Io.next, hpc] at hs
    obtain rfl := Option.some.inj hs
    have h : s.sqTail = s.sqHead + s.failed + entering s := h
    rw [he, hpc] at h
    show s.sqTail + 1 = s.sqHead + s.failed + entering _
    rw [entering]
    simp only [setPc, hmtx, Function.update_self]
    exact congrArg (· + 1) h
  | enter tok k =>
    obtain ⟨hmtx, he⟩ := entering_eq hm (show (s.pc t).holds = true by rw [hpc]; rfl)
    simp only [Io.next, hpc] at hs
    have h : s.sqTail = s.sqHead + s.failed + entering s := h
    rw [he, hpc] at h
    split at hs
    · obtain rfl := Option.some.inj hs
      have hlt : s.sqHead < s.sqTail := by rw [h]; exact Nat.lt_succ_of_le (Nat.le_add_right ..)
      rw [consume, if_pos hlt]
      show s.sqTail = s.sqHead + 1 + s.failed + entering _
      rw [entering]
      simp only [setPc, hmtx, Function.update_self]
      rw [h, Nat.add_right_comm]
      rfl
    · obtain rfl := Option.some.inj hs
      show s.sqTail = s.sqHead + (s.failed + 1) + entering _
      rw [entering]
      simp only [setPc, hmtx, Function.update_self]
      rw [h]
      rfl
  | setTask tok | clearWake tok | readRes tok k | freePush tok k res =>
    simp only [Io.next, hpc] at hs
    exact Option.some.inj hs ▸ h.move rfl rfl rfl rfl rfl (by rw [hpc]; rfl)
  | park tok k =>
    simp only [Io.next, hpc] at hs
    split at hs
    · exact Option.some.inj hs ▸ h.move rfl rfl rfl rfl rfl (by rw [hpc]; rfl)
    · cases hs
  | wait tok k =>
    simp only [Io.next, hpc] at hs
    split at hs
    · exact Option.some.inj hs ▸ h.move rfl rfl rfl rfl rfl (by rw [hpc]; rfl)
    · exact Option.some.inj hs ▸ h

theorem Backlog.step (h : Backlog s) (hm : Mutex s) {a : Act} (hs : Io.step s a = some w) : Backlog w := by
  cases a with
  | call t r =>
    simp only [Io.step] at hs
    split at hs
    · cases hs
    · rename_i hpc
      exact Option.some.inj hs ▸ h.move rfl rfl rfl rfl rfl (by rw [not_not.mp hpc]; rfl)
  | callOutside t r | unpark t => exact Option.some.inj hs ▸ h
  | next t ok => exact h.next hm hs
  | reap =>
    replace hs : Io.reap s = some w := hs
    unfold Io.reap at hs
    split at hs
    case h_3 =>
      split at hs
      · exact Option.some.inj hs ▸ h
      · split at hs
        · cases hs
        · exact Option.some.inj hs ▸ h
    all_goals exact Option.some.inj hs ▸ h
  | complete j res =>
    simp only [Io.step] at hs
    split at hs
    · cases hs
    · exact Option.some.inj hs ▸ h

end Steps

theorem backlog_of_reach {s : State} (hs : machine.Reach s) : Backlog s :=
  hs.invariant (I := Backlog) (fun s hs => by obtain ⟨n, -, rfl⟩ := hs; rfl)
    fun _ _ _ hr h hstep => h.step (inv_of_reach hr).mutex hstep

/-- Every entry of a call that went on to park was taken by the kernel. -/
def Handed (s : State) : Prop :=
  s.sqHead = s.sqTail ∧ ∀ t k, (s.pc t).entry = some k → k < s.sqHead

/-- Between two submissions every entry was handed over if and only if no call
of `io_uring_enter` has failed; else some call waits for an entry that was not. -/
theorem handed_iff {s : State} (hs : machine.Reach s) (hm : s.mtx = none) :
    (Handed s ↔ s.failed = 0) ∧
      (0 < s.failed → ∃ t p, (s.pc t).sent = some p ∧ s.sqHead ≤ p.1) := by
  have hinv := inv_of_reach hs
  have hback : s.sqTail = s.sqHead + s.failed := by
    have h : s.sqTail = s.sqHead + s.failed + entering s := backlog_of_reach hs
    simpa [entering, hm] using h
  refine ⟨⟨fun h => ?_, fun h => ⟨?_, fun t k hk => ?_⟩⟩, fun h => ?_⟩
  · have := h.1
    omega
  · omega
  · have := hinv.entries.lt t k hk
    omega
  · have hp : (s.sqHead, (s.sqes (s.sqHead % s.nslots)).userData) ∈ pending s :=
      List.mem_map_of_mem (f := fun k => (k, (s.sqes (k % s.nslots)).userData)) (List.mem_range'_1.mpr (by omega))
    obtain ⟨t, ht, -⟩ := hinv.flow.owner (List.mem_append_left _ (List.mem_append_left _ hp))
    exact ⟨t, _, ht, Nat.le_refl _⟩

/-- One submission fails and its call goes on to park. -/
theorem exists_stranded : ¬ ∀ s, machine.Reach s → s.mtx = none → Handed s := by
  intro h
  obtain ⟨s, hs, hp⟩ := Machine.exists_reach_of_run (M := machine) (s := State.new 2)
    (l := (.call 0 ⟨22, 3, 4096, 512, 0, 0⟩ :: List.replicate 7 (.next 0 true) : List Act) ++
      ([.next 0 false, .next 0 true] : List Act))
    (p := fun s => decide (s.mtx = none ∧ s.sqHead ≠ s.sqTail)) ⟨2, by decide, rfl⟩ (by decide +kernel)
  obtain ⟨hm, hne⟩ := of_decide_eq_true hp
  exact hne (h s hs hm).1

/-- A failure, and another call after it: its success hands over the first entry. -/
theorem handed_iff_later : ∃ s, machine.Reach s ∧ s.mtx = none ∧ s.failed = 1 ∧ s.inflight = [(0, 0)] ∧
    ¬ Handed s := by
  let r : Request := ⟨22, 3, 4096, 512, 0, 0⟩
  obtain ⟨s, hs, hp⟩ := Machine.exists_reach_of_run (M := machine) (s := State.new 2)
    (l := ([.call 0 r, .call 1 r] : List Act) ++ (List.replicate 7 (.next 0 true) : List Act) ++
      ([.next 0 false, .next 0 true] : List Act) ++ (List.replicate 9 (.next 1 true) : List Act))
    (p := fun s => decide (s.mtx = none ∧ s.failed = 1 ∧ s.inflight = [(0, 0)])) ⟨2, by decide, rfl⟩ (by decide +kernel)
  obtain ⟨hm, hf, hin⟩ := of_decide_eq_true hp
  exact ⟨s, hs, hm, hf, hin, fun h => by have := (handed_iff hs hm).1.mp h; omega⟩

end Dlsmc.Io
