import Dlsmc.Framework.TestAndSet
import Dlsmc.Index.Linearizable
import Dlsmc.Index.Sizes

/-!
# What bounds concurrent writes

One thread consolidates a node at a time, and one thread splits: a flag
`consolidating`, and `smo_busy`, is set exactly while one thread is between the
exchange that sets it and the store that clears it (`index_flags_held`). Writers
that find a chain at its cap do not append to it, so that no chain has more than
`CHAIN_CAP` deltas, however many threads write (`index_chains_short`).
-/

namespace Dlsmc.Index.Concurrent

/-- The flags that are set by a compare-exchange. -/
inductive Flag where
  | consolidating (pid : Pid)
  | smoBusy
  deriving DecidableEq

def Memory.flag (M : Memory) : Flag → Bool
  | .consolidating pid => M.consolidating pid
  | .smoBusy => M.smoBusy

/-- The flag that a thread has set and is to clear. -/
def Pc.flag : Pc → Option Flag
  | consHead _ pid _ _ | consCas _ pid _ _ _ | consEnd _ pid _ => some (.consolidating pid)
  | smo _ _ => some .smoBusy
  | _ => none

variable {s s' : State} {M M' : Memory} {pc pc' : Pc} {q : SmoPc} {k : Key} {t : Nat} {p pid : Pid} {c : Chain}
  {h l : Link}

/-! ## Memory -/

theorem Memory.flag_setConsolidating (b : Bool) :
    ({ M with consolidating := Function.update M.consolidating pid b } : Memory).flag =
      Function.update M.flag (.consolidating pid) b := by
  funext f
  cases f with
  | smoBusy => simp [flag]
  | consolidating x =>
    by_cases hx : x = pid
    · simp [flag, hx]
    · simp [flag, hx, Function.update_of_ne]

theorem Memory.flag_setSmoBusy (b : Bool) :
    ({ M with smoBusy := b } : Memory).flag = Function.update M.flag .smoBusy b := by
  funext f
  cases f with
  | smoBusy => simp [flag]
  | consolidating x => simp [flag]

theorem Memory.casHead_eq (hcas : M.casHead p h c = some M') : M' = M.publish p c := by
  unfold casHead at hcas
  split at hcas
  · split at hcas
    · exact (Option.some.inj hcas).symm
    · cases hcas
  · cases hcas

/-- `M'` has the flags of `M`, and its chains but for new ones without deltas. -/
structure Plain (M M' : Memory) : Prop where
  flag : M'.flag = M.flag
  head : ∀ p l, M'.head p = some l → M.head p = some l ∨ l.chain.deltas = []

theorem Plain.refl (M : Memory) : Plain M M := ⟨rfl, fun _ _ hl => .inl hl⟩

theorem Memory.head_publish (hl : (M.publish p c).head pid = some l) : M.head pid = some l ∨ l.chain = c := by
  by_cases hp : pid = p
  · subst hp
    rw [publish_self, Option.some.injEq] at hl
    exact .inr (hl ▸ rfl)
  · rw [publish_of_ne hp] at hl
    exact .inl hl

theorem Plain.publish (M : Memory) (p : Pid) (b : Base) : Plain M (M.publish p ⟨[], b⟩) :=
  ⟨rfl, fun _ _ hl => (Memory.head_publish hl).imp_right fun he => congrArg Chain.deltas he⟩

theorem Plain.allocPid (M : Memory) (b : Base) : Plain M (M.allocPid ⟨[], b⟩).2 := by
  unfold Memory.allocPid
  dsimp only
  split
  · exact ⟨rfl, fun _ _ hl => .inl hl⟩
  · exact ⟨rfl, (Plain.publish M M.nextPid b).head⟩

/-! ## A step of `split_leaf` -/

/-- A load that goes on. -/
theorem bind_eq_ok {ε α β : Type} {x : Except ε α} {f : α → Except ε β} {b : β} (h : (x >>= f) = .ok b) :
    ∃ a, x = .ok a ∧ f a = .ok b := by
  cases x with
  | error e => cases h
  | ok a => exact ⟨a, rfl, h⟩

/-- Every step of `split_leaf` but the last leaves the flags as they are. -/
theorem SmoPc.next_plain {r : Option SmoPc} (hn : q.next M k = .ok (M', r)) :
    q = .unlock ∧ r = none ∧ M' = { M with smoBusy := false } ∨ (∃ q', r = some q') ∧ Plain M M' := by
  have hok : ∀ {x : Memory × Option SmoPc}, (Except.ok x : Except Fault _) = .ok (M', r) → x = (M', r) := fun he =>
    Except.ok.inj he
  cases q with
  | pathRoot =>
    cases hok hn
    exact .inr ⟨⟨_, rfl⟩, .refl M⟩
  | pathHead pid path =>
    obtain ⟨l, -, hn⟩ := bind_eq_ok hn
    obtain ⟨q', -, hn⟩ := bind_eq_ok hn
    cases hok hn
    exact .inr ⟨⟨_, rfl⟩, .refl M⟩
  | splitHead pid path n =>
    obtain ⟨h, -, hn⟩ := bind_eq_ok hn
    split at hn
    · cases hok hn
      exact .inr ⟨⟨_, rfl⟩, .refl M⟩
    · split at hn
      · cases hn
      · cases hok hn
        exact .inr ⟨⟨_, rfl⟩, .refl M⟩
  | splitPid pid path n h sep =>
    cases hok hn
    exact .inr ⟨⟨_, rfl⟩, .allocPid M _⟩
  | splitCas pid path n h sep rp =>
    simp only [SmoPc.next] at hn
    split at hn
    · rename_i hcas
      cases hok hn
      exact .inr ⟨⟨_, rfl⟩, Memory.casHead_eq hcas ▸ .publish M _ _⟩
    · cases hok hn
      exact .inr ⟨⟨_, rfl⟩, .refl M⟩
  | splitUndo pid path n rp =>
    simp only [SmoPc.next] at hn
    split at hn
    · cases hok hn
      refine .inr ⟨⟨_, rfl⟩, rfl, fun x l hl => .inl ?_⟩
      by_cases hx : x = rp
      · subst hx
        simp at hl
      · simpa [Function.update_of_ne hx] using hl
    · cases hn
  | sepHead child path sep right =>
    cases path with
    | nil =>
      obtain ⟨l, -, hn⟩ := bind_eq_ok hn
      cases hok hn
      exact .inr ⟨⟨_, rfl⟩, .refl M⟩
    | cons parent path =>
      obtain ⟨P, -, hn⟩ := bind_eq_ok hn
      cases hok hn
      exact .inr ⟨⟨_, rfl⟩, .refl M⟩
  | sepStore child parent path sep right P =>
    simp only [SmoPc.next] at hn
    split at hn
    · cases hn
    · cases hok hn
      exact .inr ⟨⟨_, rfl⟩, .publish M _ _⟩
  | rootPid child sep right level =>
    cases hok hn
    exact .inr ⟨⟨_, rfl⟩, .allocPid M _⟩
  | rootStore rp =>
    cases hok hn
    exact .inr ⟨⟨_, rfl⟩, rfl, fun _ _ hl => .inl hl⟩
  | innerHead pid path =>
    obtain ⟨N, -, hn⟩ := bind_eq_ok hn
    split at hn
    · cases hn
    · obtain ⟨s, -, hn⟩ := bind_eq_ok hn
      cases hok hn
      exact .inr ⟨⟨_, rfl⟩, .refl M⟩
  | innerPid pid path N promoted =>
    cases hok hn
    exact .inr ⟨⟨_, rfl⟩, .allocPid M _⟩
  | innerStore pid path N promoted nrp =>
    cases hok hn
    exact .inr ⟨⟨_, rfl⟩, .publish M _ _⟩
  | unlock =>
    cases hok hn
    exact .inl ⟨rfl, rfl, rfl⟩

/-! ## A step of a call -/

/-- A chain that is not too long, whose deltas know their depth. -/
def Short (c : Chain) : Prop := Depths c.deltas ∧ c.deltas.length ≤ CHAIN_CAP

/-- A chain that has room for a delta. -/
def Roomy (c : Chain) : Prop := Depths c.deltas ∧ c.deltas.length < CHAIN_CAP

/-- What a thread is to append to has room. -/
def Pc.Room : Pc → Prop
  | installCas _ _ h => Roomy h.chain
  | _ => True

theorem short_base (hc : c.deltas = []) : Short c := by
  rw [Short, hc]
  exact ⟨trivial, Nat.zero_le _⟩

theorem Roomy.appended {op : DeltaOp} {v : DeltaPointer} (hc : Roomy c) : Short (c.appended op k v) :=
  ⟨⟨congrArg (· + 1) hc.1.depth, hc.1⟩, hc.2⟩

/-- What a step of a call does: to the flags, and to the chains, if they were
short. -/
structure Bounded (M M' : Memory) (pc pc' : Pc) : Prop where
  flags : FlagStep M.flag M'.flag pc.flag pc'.flag
  short : ∀ p l, M'.head p = some l → Short l.chain
  room : pc'.Room

theorem Memory.head_of_loadHead (hl : M.loadHead p = .ok l) : M.head p = some l := by
  unfold loadHead at hl
  split at hl
  · split at hl
    · rename_i he
      cases hl
      exact he
    · cases hl
  · cases hl

theorem Get.visit_spec {g : Get} (hv : g.visit c = .ok pc) : pc.flag = none ∧ pc.Room := by
  unfold Get.visit at hv
  split at hv
  · cases hv
    exact ⟨rfl, trivial⟩
  · split at hv
    · cases hv
      exact ⟨rfl, trivial⟩
    · split at hv
      · obtain ⟨x, -, hv⟩ := bind_eq_ok hv
        cases hv
        exact ⟨rfl, trivial⟩
      · cases hv
        exact ⟨rfl, trivial⟩

theorem Write.visit_spec {w : Write} (hv : w.visit pid c = .ok pc) : pc.flag = none ∧ pc.Room := by
  unfold Write.visit at hv
  split at hv
  · cases hv
    exact ⟨rfl, trivial⟩
  · split at hv
    · obtain ⟨x, -, hv⟩ := bind_eq_ok hv
      cases hv
      exact ⟨rfl, trivial⟩
    · cases hv
      exact ⟨rfl, trivial⟩

theorem Write.consolidated_free (w : Write) (pid : Pid) (why : Purpose) :
    (w.consolidated pid why).flag = none ∧ (w.consolidated pid why).Room := by
  cases why with
  | drain => exact ⟨rfl, trivial⟩
  | collapse => exact ⟨rfl, trivial⟩

theorem Pc.next_bounded (hM : ∀ p l, M.head p = some l → Short l.chain) (hr : pc.Room)
    (hn : pc.next M = .ok (M', pc')) : Bounded M M' pc pc' := by
  have hok : ∀ {x : Memory × Pc}, (Except.ok x : Except Fault _) = .ok (M', pc') → x = (M', pc') := fun he =>
    Except.ok.inj he
  have hpublish : ∀ {p c}, Short c → ∀ x l, (M.publish p c).head x = some l → Short l.chain := fun hc x l hl =>
    (Memory.head_publish hl).elim (hM x l) fun he => he ▸ hc
  cases pc with
  | idle =>
    cases hok hn
    exact ⟨.keep rfl rfl, hM, trivial⟩
  | ret n o r =>
    cases hok hn
    exact ⟨.keep rfl rfl, hM, trivial⟩
  | fault f =>
    cases hok hn
    exact ⟨.keep rfl rfl, hM, trivial⟩
  | getRoot g =>
    cases hok hn
    exact ⟨.keep rfl rfl, hM, trivial⟩
  | getHead g pid =>
    obtain ⟨l, -, hn⟩ := bind_eq_ok hn
    obtain ⟨pc', hv, hn⟩ := bind_eq_ok hn
    cases hok hn
    exact ⟨.keep rfl (Get.visit_spec hv).1, hM, (Get.visit_spec hv).2⟩
  | findRoot w =>
    cases hok hn
    exact ⟨.keep rfl rfl, hM, trivial⟩
  | findHead w pid =>
    obtain ⟨l, -, hn⟩ := bind_eq_ok hn
    obtain ⟨pc', hv, hn⟩ := bind_eq_ok hn
    cases hok hn
    exact ⟨.keep rfl (Write.visit_spec hv).1, hM, (Write.visit_spec hv).2⟩
  | installHead w pid =>
    obtain ⟨h, hl, hn⟩ := bind_eq_ok hn
    split at hn
    · cases hok hn
      exact ⟨.keep rfl rfl, hM, trivial⟩
    · split at hn
      · cases hok hn
        exact ⟨.keep rfl rfl, hM, trivial⟩
      · -- the chain that was loaded has room
        rename_i hcap
        cases hok hn
        have hshort := hM pid h (Memory.head_of_loadHead hl)
        exact ⟨.keep rfl rfl, hM, hshort.1, hshort.1.depth ▸ Nat.lt_of_not_le hcap⟩
  | installCas w pid h =>
    simp only [Pc.next] at hn
    split at hn
    · rename_i hcas
      cases hok hn
      rw [Memory.casHead_eq hcas]
      split
      · exact ⟨.keep rfl rfl, hpublish (Roomy.appended hr), trivial⟩
      · exact ⟨.keep rfl rfl, hpublish (Roomy.appended hr), trivial⟩
    · cases hok hn
      exact ⟨.keep rfl rfl, hM, trivial⟩
  | checkHead w pid =>
    obtain ⟨l, -, hn⟩ := bind_eq_ok hn
    cases hok hn
    split
    · exact ⟨.keep rfl rfl, hM, trivial⟩
    · exact ⟨.keep rfl rfl, hM, trivial⟩
  | consFlag w pid why =>
    simp only [Pc.next] at hn
    split at hn
    · cases hok hn
      obtain ⟨hf, hroom⟩ := w.consolidated_free pid why
      exact ⟨.keep rfl hf, hM, hroom⟩
    · rename_i hclear
      cases hok hn
      exact ⟨.take (.consolidating pid) (Bool.not_eq_true _ ▸ hclear) rfl (Memory.flag_setConsolidating true) rfl, hM,
        trivial⟩
  | consHead w pid why n =>
    obtain ⟨h, -, hn⟩ := bind_eq_ok hn
    split at hn
    · cases hok hn
      exact ⟨.keep rfl rfl, hM, trivial⟩
    · split at hn
      · cases hok hn
        exact ⟨.keep rfl rfl, hM, trivial⟩
      · cases hok hn
        exact ⟨.keep rfl rfl, hM, trivial⟩
  | consCas w pid why n h =>
    simp only [Pc.next] at hn
    split at hn
    · rename_i hcas
      cases hok hn
      rw [Memory.casHead_eq hcas]
      exact ⟨.keep rfl rfl, hpublish (short_base rfl), trivial⟩
    · cases hok hn
      split
      · exact ⟨.keep rfl rfl, hM, trivial⟩
      · exact ⟨.keep rfl rfl, hM, trivial⟩
  | consEnd w pid why =>
    cases hok hn
    obtain ⟨hf, hroom⟩ := w.consolidated_free pid why
    exact ⟨.release (.consolidating pid) rfl (Memory.flag_setConsolidating false) hf, hM, hroom⟩
  | smoFlag w =>
    simp only [Pc.next] at hn
    split at hn
    · cases hok hn
      exact ⟨.keep rfl rfl, hM, trivial⟩
    · rename_i hclear
      cases hok hn
      exact ⟨.take .smoBusy (Bool.not_eq_true _ ▸ hclear) rfl (Memory.flag_setSmoBusy true) rfl, hM, trivial⟩
  | smo w q =>
    obtain ⟨⟨M₁, r⟩, hq, hn⟩ := bind_eq_ok hn
    cases hok hn
    rcases SmoPc.next_plain hq with ⟨-, rfl, rfl⟩ | ⟨⟨q', rfl⟩, hplain⟩
    · exact ⟨.release .smoBusy rfl (Memory.flag_setSmoBusy false) rfl, hM, trivial⟩
    · exact ⟨.keep hplain.flag rfl, fun x l hl => (hplain.head x l hl).elim (hM x l) short_base, trivial⟩

/-! ## Runs -/

/-- The flags that are set are those of the threads, and all chains are short. -/
structure Limited (s : State) : Prop where
  flags : Held s.mem.flag fun t => (s.pc t).flag
  short : ∀ p l, s.mem.head p = some l → Short l.chain
  room : ∀ t, (s.pc t).Room

theorem Op.start_free (n : Nat) (o : Op) : (o.start n).flag = none ∧ (o.start n).Room := by
  cases o with
  | get key =>
    cases hk : key.arg with
    | none => exact start_get_none hk ▸ ⟨rfl, trivial⟩
    | some k => exact start_get hk ▸ ⟨rfl, trivial⟩
  | write op key v =>
    cases hk : key.arg with
    | none => exact start_write_none hk ▸ ⟨rfl, trivial⟩
    | some k => exact start_write hk ▸ ⟨rfl, trivial⟩

/-- A step of thread `t`, to `pc`, with the memory `M`. -/
theorem Limited.goto (h : Limited s) (hb : Bounded s.mem M (s.pc t) pc) {hist : List (Event Op Result)} {calls : Nat} :
    Limited ⟨M, Function.update s.pc t pc, hist, calls⟩ where
  flags := by
    have hupdate : (fun u => (Function.update s.pc t pc u).flag) =
        Function.update (fun u => (s.pc u).flag) t pc.flag := by
      funext u
      rw [Function.update_apply, Function.update_apply]
      split <;> rfl
    show Held M.flag fun u => (Function.update s.pc t pc u).flag
    rw [hupdate]
    exact h.flags.step hb.flags
  short := hb.short
  room u := by
    show (Function.update s.pc t pc u).Room
    rw [Function.update_apply]
    split
    · exact hb.room
    · exact h.room u

theorem Limited.step {a : Act} (h : Limited s) (hs : Sound s) (hroom : hasRoom s a = true)
    (hstep : step s a = some s') :
    Limited s' := by
  obtain ⟨_, _, _, _, _, hg⟩ := hs
  cases a with
  | call t o =>
    cases hpc : s.pc t with
    | idle =>
      obtain ⟨hf, hr⟩ := Op.start_free s.calls o
      simp only [Concurrent.step, hpc, Option.some.injEq] at hstep
      exact hstep ▸ h.goto ⟨.keep rfl (hpc ▸ hf), h.short, hr⟩
    | _ => simp [Concurrent.step, hpc] at hstep
  | next t =>
    by_cases hw : (s.pc t).Working
    · obtain ⟨M, pc, hn, -⟩ := hg.moves hw hroom
      rw [step_next hw hn, Option.some.injEq] at hstep
      exact hstep ▸ h.goto (Pc.next_bounded h.short (h.room t) hn)
    · cases hpc : s.pc t with
      | idle => simp [Concurrent.step, hpc] at hstep
      | fault f => simp [Concurrent.step, hpc] at hstep
      | ret n o r =>
        simp only [Concurrent.step, hpc, Option.some.injEq] at hstep
        have hb : Bounded s.mem s.mem (s.pc t) .idle := ⟨.keep rfl (by rw [hpc]; rfl), h.short, trivial⟩
        exact hstep ▸ h.goto hb
      | _ => exact absurd (by rw [hpc]; trivial) hw

theorem limited_of_reach (h : machine.ReachBy (fun s a => hasRoom s a = true) s) : Limited s := by
  refine h.invariant (fun s hi => ?_) fun s s' a hr hl hc hstep => hl.step (sound_of_reach hr) hc hstep
  obtain rfl : s = State.initial := hi
  have hflag : Memory.new.flag = fun _ => false := by
    funext f
    cases f <;> rfl
  refine ⟨?_, fun p l hl => Memory.head_new hl ▸ short_base rfl, fun t => trivial⟩
  show Held Memory.new.flag fun t => Pc.idle.flag
  rw [hflag]
  exact .none

/-- In every reachable state a flag `consolidating`, and `smo_busy`, is set
exactly while one thread has set it and not cleared it yet. -/
theorem index_flags_held (h : machine.ReachBy (fun s a => hasRoom s a = true) s) (f : Flag) :
    (s.mem.flag f = true ↔ ∃ t, (s.pc t).flag = some f) ∧
      ∀ t u, (s.pc t).flag = some f → (s.pc u).flag = some f → t = u :=
  ⟨(limited_of_reach h).flags.set f, fun t u => (limited_of_reach h).flags.one t u f⟩

/-- Thread 0 inserts eight keys, and has taken the flag of the leaf when thread 1
inserts two more, which both find it set. -/
def consolidatingActs : List Act :=
  ((List.range 7).flatMap (insertActs 0) : List Act) ++
    ((Act.call 0 (.write .insert (.copy [49]) value) :: List.replicate 5 (.next 0) : List Act) ++
      ((List.range 2).flatMap fun i =>
        Act.call 1 (.write .insert (.copy [UInt8.ofNat (100 + i)]) value) :: List.replicate 7 (.next 1) : List Act))

theorem exists_consolidating :
    ∃ s, machine.ReachBy (fun s a => hasRoom s a = true) s ∧ s.mem.consolidating 0 = true ∧
      (s.pc 0).flag = some (.consolidating 0) ∧ ∃ l, s.mem.head 0 = some l ∧ l.chain.deltas.length = 10 := by
  obtain ⟨s, hr, hs⟩ := machine.exists_reachBy_of_run (C := fun s a => hasRoom s a = true) (c := hasRoom)
    (fun _ _ h => h) (s := State.initial) (l := consolidatingActs)
    (p := fun s => s.mem.consolidating 0 && decide ((s.pc 0).flag = some (.consolidating 0)) &&
      decide ((s.mem.head 0).map (fun l => l.chain.deltas.length) = some 10)) rfl (by decide +kernel)
  simp only [Bool.and_eq_true, decide_eq_true_eq, Option.map_eq_some_iff] at hs
  obtain ⟨⟨h₁, h₂⟩, h₃⟩ := hs
  exact ⟨s, hr, h₁, h₂, h₃⟩

theorem index_flags_held_consolidating :
    ∃ s, machine.ReachBy (fun s a => hasRoom s a = true) s ∧ s.mem.consolidating 0 = true ∧
      ∀ t, (s.pc t).flag = some (.consolidating 0) ↔ t = 0 := by
  obtain ⟨s, hr, hset, h0, -⟩ := exists_consolidating
  obtain ⟨-, hone⟩ := index_flags_held hr (.consolidating 0)
  exact ⟨s, hr, hset, fun t => ⟨fun ht => hone t 0 ht h0, fun ht => ht ▸ h0⟩⟩

/-- In every reachable state every chain has at most `CHAIN_CAP` deltas, each of
which knows its depth. -/
theorem index_chains_short (h : machine.ReachBy (fun s a => hasRoom s a = true) s) {l : Link}
    (hl : s.mem.head p = some l) : Depths l.chain.deltas ∧ l.chain.deltas.length ≤ CHAIN_CAP :=
  (limited_of_reach h).short p l hl

theorem index_chains_short_consolidating :
    ∃ s, machine.ReachBy (fun s a => hasRoom s a = true) s ∧ s.mem.consolidating 0 = true ∧
      ∃ l, s.mem.head 0 = some l ∧ l.chain.deltas.length = 10 ∧
        Depths l.chain.deltas ∧ l.chain.deltas.length ≤ CHAIN_CAP := by
  obtain ⟨s, hr, hset, -, l, hl, hlen⟩ := exists_consolidating
  exact ⟨s, hr, hset, l, hl, hlen, index_chains_short hr hl⟩

end Dlsmc.Index.Concurrent
