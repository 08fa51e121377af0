import Dlsmc.Index.DescentSafety
import Dlsmc.Index.Flags
import Dlsmc.Index.Oracle

/-!
# When nobody works on the index

Between calls the concurrent index is one that the sequential functions work
on. In every reachable state in which no thread is in a call, all calls that were
made have taken effect in the order of a linearization, no flag is set and no
split is half done: the memory holds a tree with the values that the
linearization leaves, so that a call made alone returns what is documented for
them, and `dlsm_index_stats_get` counts the keys that have a value
(`index_quiescent`).
-/

namespace Dlsmc.Index.Concurrent

open BLink

/-- Whoever works alone on the memory finds the values `m`. -/
structure Serves (M : Memory) (m : Key → Option DeltaPointer) : Prop where
  flags : ∀ f, M.flag f = false
  call : ∀ c : Call, c.HasRoom M.view →
    ∃ r t, Executes never c M.view r t ∧ c.Documented never M.view t m r ∧ Intact never t (c.apply r.1 m)
  reports : ∃ keys : List Key, keys.Nodup ∧ (∀ k, k ∈ keys ↔ m k ≠ none) ∧
    (keys.length < 2 ^ 64 → Reports M.view keys.length)

variable {s s' : State} {M : Memory} {nd : Pid → Node Key Pid} {row : Nat → List Pid} {top : Nat}
  {pend : Option (Pending Key Pid)} {m : Key → Option DeltaPointer} {t : Nat}

/-- A tree in which no split is under way, and no flag set. -/
theorem Tree.serves (h : Tree M nd row top none m) (hflags : ∀ f, M.flag f = false) : Serves M m where
  flags := hflags
  call c hroom := by
    have hintact : Intact never M.view m := ⟨⟨nd, row, top, h⟩, hflags .smoBusy⟩
    exact hintact.call tolerable_never (hintact.fits hroom)
  reports := by
    have h := h.mono not_lossy_never
    obtain ⟨hnodup, hmem⟩ := h.liveKeys_spec
    exact ⟨liveKeys M.view row, hnodup, hmem, h.reports⟩

theorem Limited.flags_clear (h : Limited s) (hidle : ∀ t, s.pc t = .idle) (f : Flag) : s.mem.flag f = false := by
  refine Bool.eq_false_iff.mpr fun hset => ?_
  obtain ⟨t, ht⟩ := (h.flags.set f).mp hset
  rw [hidle t] at ht
  cases ht

/-- In every reachable state in which no call is under way, the index holds what
the calls left in the order of a linearization. -/
theorem index_quiescent (h : machine.ReachBy (fun s a => hasRoom s a = true) s) (hidle : ∀ t, s.pc t = .idle) :
    ∃ es, Linearization spec (fun _ => none) s.hist es ∧
      (∀ n o, Event.call n o ∈ s.hist → ∃ e ∈ es, e.number = n ∧ e.op = o) ∧
      Serves s.mem (outcomeOf spec (fun _ => none) es) := by
  obtain ⟨nd, row, top, pend, m, hg⟩ := sound_of_reach h
  obtain rfl : pend = none := hg.quiet fun t => by
    rw [hidle t]
    trivial
  obtain ⟨es, hlin, hall, rfl⟩ := hg.atomic.complete fun t => by rw [hidle t]; rfl
  exact ⟨es, hlin, hall, Tree.serves hg.tree ((limited_of_reach h).flags_clear hidle)⟩

/-! ## A run that comes to rest -/

/-- Threads that take no step stay where they are. -/
theorem pc_of_runBy : ∀ {acts : List Act} {s : State}, machine.runBy hasRoom s acts = some s' →
    (∀ a ∈ acts, a.thread ≠ t) → s'.pc t = s.pc t
  | [], s, hrun, _ => by
    rw [Machine.runBy, Option.some.injEq] at hrun
    rw [hrun]
  | a :: acts, s, hrun, hacts => by
    unfold Machine.runBy at hrun
    split at hrun
    · obtain ⟨s₁, hstep, hrun⟩ := Option.bind_eq_some_iff.mp hrun
      exact (pc_of_runBy hrun fun b hb => hacts b (List.mem_cons_of_mem a hb)).trans
        (step_pc_of_ne hstep (hacts a List.mem_cons_self))
    · cases hrun

/-- Thread 1 ends its read, and thread 0 its split. -/
def restingActs : List Act := halfSplitActs ++ (List.replicate 4 (.next 1) ++ List.replicate 5 (.next 0))

def Pc.isIdle : Pc → Bool
  | idle => true
  | _ => false

theorem index_quiescent_split :
    ∃ s, machine.ReachBy (fun s a => hasRoom s a = true) s ∧ (∀ t, s.pc t = .idle) ∧ s.mem.root = 2 ∧ s.calls = 42 ∧
      ∃ es, Linearization spec (fun _ => none) s.hist es ∧
        (∀ n o, Event.call n o ∈ s.hist → ∃ e ∈ es, e.number = n ∧ e.op = o) ∧
        Serves s.mem (outcomeOf spec (fun _ => none) es) := by
  have hrun : (machine.runBy hasRoom State.initial restingActs).map
      (fun s => (s.pc 0).isIdle && (s.pc 1).isIdle && s.mem.root == 2 && s.calls == 42) = some true := by
    decide +kernel
  obtain ⟨s, hrun, hs⟩ := Option.map_eq_some_iff.mp hrun
  simp only [Bool.and_eq_true, beq_iff_eq] at hs
  obtain ⟨⟨⟨h₀, h₁⟩, hroot⟩, hcalls⟩ := hs
  have hr := Machine.ReachBy.of_runBy (C := fun s a => hasRoom s a = true) (fun _ _ h => h) (.init rfl) hrun
  have hof : ∀ {pc : Pc}, pc.isIdle = true → pc = .idle := fun {pc} hpc => by
    cases pc with
    | idle => rfl
    | _ => cases hpc
  have hthreads : ∀ a ∈ restingActs, a.thread = 0 ∨ a.thread = 1 := by decide +kernel
  have hidle : ∀ t, s.pc t = .idle := fun t => by
    by_cases ht : t = 0 ∨ t = 1
    · rcases ht with rfl | rfl
      · exact hof h₀
      · exact hof h₁
    · exact pc_of_runBy hrun fun a ha hat => ht (hat ▸ hthreads a ha)
  exact ⟨s, hr, hidle, hroot, hcalls, index_quiescent hr hidle⟩

end Dlsmc.Index.Concurrent
