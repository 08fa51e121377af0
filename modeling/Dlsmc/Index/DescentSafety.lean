import Dlsmc.Framework.Progress
import Dlsmc.Index.Linearizable

/-!
# What splits write stays within bounds

`descend_with_path` writes to `path` without a check, `clone_internal_insert`
takes the child of its caller for granted, and levels are eight bits wide. With
any number of threads the descent goes down one level in each of its steps,
within the height of the tree; as all splits before are complete it finds every
node in its parent (`DescentSafe`).
-/

namespace Dlsmc.Index.Concurrent

open BLink

/-- The height of the tree, as `dlsm_index_stats_get` reports it. -/
def Memory.height (M : Memory) : Nat :=
  match M.chainOf M.root with
  | some c => c.base.level + 1
  | none => 0

/-- What is in use of `path`, the nearest node first, with the node that
`descend_with_path` is about to record. -/
def SmoPc.path : SmoPc → List Pid
  | pathHead pid path | splitHead pid path _ | splitPid pid path _ _ _ | splitCas pid path _ _ _ _
  | splitUndo pid path _ _ | innerHead pid path | innerPid pid path _ _ | innerStore pid path _ _ _ => pid :: path
  | sepHead child path _ _ => child :: path
  | sepStore child parent path _ _ _ => child :: parent :: path
  | rootPid child _ _ _ => [child]
  | pathRoot | rootStore _ | unlock => []

/-- `es` has the child `c` once, between `l` and `r`. -/
structure Between (es : List IdxEnt) (c : Pid) (l : List IdxEnt) (e : IdxEnt) (r : List IdxEnt) : Prop where
  ients : es = l ++ e :: r
  child : e.child = c
  left : ∀ f ∈ l, f.child ≠ c
  right : ∀ f ∈ r, f.child ≠ c

/-- `p` is an internal node, one level above `c`, which it has as a child
once. -/
def Links (M : Memory) (c p : Pid) : Prop :=
  ∃ b n, M.chainOf p = some ⟨[], b⟩ ∧ b.ents = .internal b.ients ∧ (∃ l e r, Between b.ients c l e r) ∧
    M.chainOf c = some n ∧ b.level = n.base.level + 1

/-- Descents and splits do what the code takes for granted. -/
structure DescentSafe (s : State) : Prop where
  /-- Nothing is written outside of `path` or of an array of entries. -/
  faultless : ∀ t f, s.pc t ≠ .fault f
  height : s.mem.height ≤ MAX_DEPTH
  /-- The path is no longer than the tree is high. -/
  short : ∀ t w q, s.pc t = .smo w q → q.path.length ≤ s.mem.height
  linked : ∀ t w q, s.pc t = .smo w q → q.path.IsChain (Links s.mem)
  /-- A step of the descent records the node, and ends the descent or goes down. -/
  descends : ∀ t w pid path, s.pc t = .smo w (.pathHead pid path) →
    ∃ s', step s (.next t) = some s' ∧
      (s'.pc t = .smo w (.splitHead pid path 0) ∨ ∃ c, s'.pc t = .smo w (.pathHead c (pid :: path)))
  /-- `install_sep` finds the child, and adds one entry after it. -/
  adds : ∀ t w child parent path sep right P, s.pc t = .smo w (.sepStore child parent path sep right P) →
    ∃ l e r s', Between P.ients child l e r ∧ step s (.next t) = some s' ∧
      ∃ b, s'.mem.chainOf parent = some ⟨[], b⟩ ∧ b.ents = .internal (l ++ e :: ⟨.copy sep, right⟩ :: r)
  /-- The level of a node and that of a parent of it have eight bits. -/
  levels : ∀ p c, s.mem.chainOf p = some c → c.base.level + 1 < 2 ^ 8
  root : ∀ t w child sep right level, s.pc t = .smo w (.rootPid child sep right level) → level + 1 = s.mem.height

variable {s s' : State} {M : Memory} {nd : Pid → Node Key Pid} {row : Nat → List Pid} {top ℓ : Nat}
  {pend : Option (Pending Key Pid)} {m : Key → Option DeltaPointer} {k : Key} {t : Nat} {w : Write} {q : SmoPc}

namespace Tree

theorem height_eq (h : Tree M nd row top pend m) : M.height = top + 1 := by
  obtain ⟨l, -, hl, -⟩ := h.load le_rfl h.shape.root_mem
  have hc : M.chainOf M.root = some l.chain := Memory.chainOf_of hl
  rw [Memory.height, hc]
  exact congrArg (· + 1) (h.level_of le_rfl h.shape.root_mem hc)

theorem between {parent child : Pid} {b : Base} (h : Tree M nd row top pend m) (hℓ : ℓ < top)
    (hp : parent ∈ row (ℓ + 1)) (hc : child ∈ (nd parent).kids) (hb : M.chainOf parent = some ⟨[], b⟩) :
    b.ents = .internal b.ients ∧ ∃ l e r, Between b.ients child l e r := by
  obtain ⟨b', l, e, r, hload, -, hents, hes, he, hl, hr, -⟩ := Inv.parent_entry h hℓ hp hc
  obtain ⟨b'', hload', hm⟩ := h.load_base hℓ hp
  obtain rfl : b'' = b := (Chain.mk.inj (Option.some.inj (hm.symm.trans hb))).2
  obtain rfl : b' = b'' := Except.ok.inj ((Memory.loadBase_of_view hload).symm.trans hload')
  exact ⟨hents, l, e, r, hes, he, hl, hr⟩

/-- Every node of the way up has the node before it as a child. -/
theorem links (h : Tree M nd row top pend m) {ps : List Pid} (hpath : Path nd M.root top ℓ ps) :
    ps.IsChain (Links M) := by
  induction hpath with
  | root => exact .singleton _
  | @step ℓ c p ps hc hup ih =>
    refine .cons_cons ?_ ih
    have hp := hup.head_mem h.shape
    have hcmem := (Path.step hc hup).head_mem h.shape
    obtain ⟨b, -, hb⟩ := h.load_base hup.le hp
    obtain ⟨l, -, hl, -⟩ := h.load (Nat.le_of_lt hup.le) hcmem
    obtain ⟨hents, hbetween⟩ := h.between hup.le hp hc hb
    refine ⟨b, l.chain, hb, hents, hbetween, Memory.chainOf_of hl, ?_⟩
    rw [h.level_of (Nat.le_of_lt hup.le) hcmem (Memory.chainOf_of hl)]
    exact h.level_of hup.le hp hb

end Tree

/-- What is in use of `path` is a way up to the root. -/
theorem SmoPc.Phase.path (hq : q.Phase M nd row top pend k) : q.path = [] ∨ ∃ ℓ, Path nd M.root top ℓ q.path := by
  cases q with
  | pathRoot => exact .inl rfl
  | pathHead pid path =>
    obtain ⟨-, ℓ, hpath, -⟩ := hq
    exact .inr ⟨ℓ, hpath⟩
  | splitHead pid path n => exact .inr ⟨0, hq.2⟩
  | splitPid pid path n hd sep => exact .inr ⟨0, hq.2.1⟩
  | splitCas pid path n hd sep rp => exact .inr ⟨0, hq.2.1⟩
  | splitUndo pid path n rp => exact .inr ⟨0, hq.2.1⟩
  | sepHead child path sep right =>
    obtain ⟨ℓ, -, hpath⟩ := hq
    exact .inr ⟨ℓ, hpath⟩
  | sepStore child parent path sep right P =>
    obtain ⟨⟨ℓ, -, hpath⟩, -⟩ := hq
    exact .inr ⟨ℓ, hpath⟩
  | rootPid child sep right level =>
    obtain ⟨⟨ℓ, -, hpath⟩, -⟩ := hq
    exact .inr ⟨ℓ, hpath⟩
  | rootStore rp => exact .inl rfl
  | innerHead pid path =>
    obtain ⟨-, N, ⟨ℓ, hpath⟩, -⟩ := hq
    exact .inr ⟨ℓ + 1, hpath⟩
  | innerPid pid path N promoted =>
    obtain ⟨-, ⟨⟨ℓ, hpath⟩, -⟩, -⟩ := hq
    exact .inr ⟨ℓ + 1, hpath⟩
  | innerStore pid path N promoted nrp =>
    obtain ⟨-, ⟨⟨ℓ, hpath⟩, -⟩, -⟩ := hq
    exact .inr ⟨ℓ + 1, hpath⟩
  | unlock => exact .inl rfl

theorem step_smo (hpc : s.pc t = .smo w q) {q' : SmoPc} (hn : q.next s.mem w.arg.key = .ok (M, some q')) :
    step s (.next t) = some { s.goto t (.smo w q') with mem := M } :=
  step_next (by rw [hpc]; trivial) (by simp [hpc, Pc.next, hn, bind, Except.bind])

theorem SmoPc.next_sepStore {child parent right : Pid} {path : List Pid} {sep : Key} {P : Base}
    (hnum : (P.withEnt (.copy sep) child right P.lowFence P.highFence).num = P.ients.length + 1) :
    (sepStore child parent path sep right P).next M k =
      .ok (M.publish parent ⟨[], P.withEnt (.copy sep) child right P.lowFence P.highFence⟩,
        some (if INTERNAL_MAX < (P.withEnt (.copy sep) child right P.lowFence P.highFence).num
          then .innerHead parent path else .unlock)) := by
  simp only [next, hnum, Nat.lt_irrefl, if_false]

theorem Good.descentSafe (h : Good s nd row top pend m) : DescentSafe s where
  faultless t f hpc := h.at_of hpc
  height := by
    have := Inv.top_le h.tree
    rw [h.tree.height_eq]
    simp only [MAX_DEPTH]
    omega
  short t w q hpc := by
    rw [h.tree.height_eq]
    rcases (h.owner t w q hpc).2.path with hnil | ⟨ℓ, hpath⟩
    · simp [hnil]
    · have := hpath.length
      omega
  linked t w q hpc := by
    rcases (h.owner t w q hpc).2.path with hnil | ⟨ℓ, hpath⟩
    · rw [hnil]
      exact .nil
    · exact h.tree.links hpath
  descends t w pid path hpc := by
    obtain ⟨rfl, ℓ, hpath, hk⟩ := (h.owner t w _ hpc).2
    rcases pathHead_cases h.tree hpath hk with ⟨-, hn⟩ | ⟨ℓ', c, -, hn, -⟩
    · exact ⟨_, step_smo hpc hn, .inl (Function.update_self ..)⟩
    · exact ⟨_, step_smo hpc hn, .inr ⟨c, Function.update_self ..⟩⟩
  adds t w child parent path sep right P hpc := by
    obtain ⟨hI, hP⟩ := (h.owner t w _ hpc).2
    obtain ⟨hnum, -⟩ := hI.clones h.tree hP
    obtain ⟨ℓ, rfl, hpath⟩ := hI
    obtain ⟨hc, hup⟩ := hpath.uncons
    obtain ⟨-, l, e, r, hb⟩ := h.tree.between hup.le (hup.head_mem h.tree.shape) hc hP
    refine ⟨l, e, r, _, hb, step_smo hpc (SmoPc.next_sepStore hnum),
      P.withEnt (.copy sep) child right P.lowFence P.highFence, ?_, ?_⟩
    · exact Memory.chainOf_publish.trans (if_pos rfl)
    · rw [Base.withEnt, hb.ients, insertEnt_append hb.child hb.left hb.right]
  levels p c hc := by
    have := h.level p c hc
    have := Inv.top_le h.tree
    omega
  root t w child sep right level hpc := by
    obtain ⟨-, rfl⟩ := (h.owner t w _ hpc).2
    exact h.tree.height_eq.symm

/-! ## The end of a descent -/

/-- The thread that takes the step. -/
def Act.thread : Act → Nat
  | .call t _ | .next t => t

/-- A thread stays where it is while the others take their steps. -/
theorem step_pc_of_ne {a : Act} (hstep : step s a = some s') (ht : a.thread ≠ t) : s'.pc t = s.pc t := by
  have hgoto : ∀ u pc, u ≠ t → (s.goto u pc).pc t = s.pc t := fun u pc hu => Function.update_of_ne (Ne.symm hu) _ _
  cases a with
  | call u o =>
    cases hpc : s.pc u with
    | idle =>
      simp only [step, hpc, Option.some.injEq] at hstep
      exact hstep ▸ hgoto u _ ht
    | _ => simp [step, hpc] at hstep
  | next u =>
    unfold step at hstep
    dsimp only at hstep
    split at hstep
    · cases hstep
    · cases hstep
    · exact Option.some.inj hstep ▸ hgoto u _ ht
    · split at hstep
      · exact Option.some.inj hstep ▸ hgoto u _ ht
      · exact Option.some.inj hstep ▸ hgoto u _ ht

/-- A thread in a call stays where it is until its next step. -/
theorem step_pc_frame {a : Act} (hpc : s.pc t ≠ .idle) (hstep : step s a = some s') (ha : a ≠ .next t) :
    s'.pc t = s.pc t := by
  cases a with
  | next u => exact step_pc_of_ne hstep fun e => ha (congrArg Act.next e)
  | call u o =>
    refine step_pc_of_ne hstep ?_
    rintro rfl
    rw [Act.thread] at hpc
    cases hu : s.pc u with
    | idle => exact hpc hu
    | _ => simp [step, hu] at hstep

/-- The thread is in `descend_with_path`, and has room for `n` steps more. -/
def Descending (s : State) (t : Nat) (w : Write) (n : Nat) : Prop :=
  s.pc t = .smo w .pathRoot ∧ n = MAX_DEPTH + 1 ∨
    ∃ pid path, s.pc t = .smo w (.pathHead pid path) ∧ path.length + n = MAX_DEPTH

theorem Good.descending_pos {n : Nat} (h : Good s nd row top pend m) (hd : Descending s t w n) : n ≠ 0 := by
  rcases hd with ⟨-, rfl⟩ | ⟨pid, path, hpc, hn⟩
  · exact Nat.succ_ne_zero _
  · have hshort := h.descentSafe.short t w _ hpc
    have hheight := h.descentSafe.height
    simp only [SmoPc.path, List.length_cons] at hshort
    omega

/-- The thread is where it was after a step that is not its own. -/
theorem Descending.frame {n : Nat} {a : Act} (hd : Descending s t w n) (hstep : step s a = some s')
    (ha : a ≠ .next t) : Descending s' t w n := by
  have hpc : s'.pc t = s.pc t := by
    refine step_pc_frame (fun hidle => ?_) hstep ha
    rcases hd with ⟨hpc, -⟩ | ⟨pid, path, hpc, -⟩
    · cases hidle.symm.trans hpc
    · cases hidle.symm.trans hpc
  unfold Descending
  rw [hpc]
  exact hd

/-- A step of the thread itself ends the descent, or leaves room for one less. -/
theorem Good.descending {n : Nat} (h : Good s nd row top pend m) (hd : Descending s t w n)
    (hstep : step s (.next t) = some s') :
    ∃ n', n = n' + 1 ∧ ((∃ pid path, s'.pc t = .smo w (.splitHead pid path 0)) ∨ Descending s' t w n') := by
  rcases hd with ⟨hpc, rfl⟩ | ⟨pid, path, hpc, hn⟩
  · rw [step_smo hpc rfl, Option.some.injEq] at hstep
    exact ⟨MAX_DEPTH, rfl, .inr (.inr ⟨s.mem.root, [], hstep ▸ Function.update_self .., Nat.zero_add _⟩)⟩
  · obtain ⟨n', rfl⟩ := Nat.exists_eq_add_one_of_ne_zero (h.descending_pos (.inr ⟨pid, path, hpc, hn⟩))
    obtain ⟨s₁, hs₁, hend⟩ := h.descentSafe.descends t w pid path hpc
    obtain rfl : s₁ = s' := Option.some.inj (hs₁.symm.trans hstep)
    refine ⟨n', rfl, hend.imp (fun he => ⟨pid, path, he⟩) fun ⟨c, hc⟩ => .inr ⟨c, pid :: path, hc, ?_⟩⟩
    rw [List.length_cons, ← hn]
    omega

/-- Whatever the other threads do meanwhile, `descend_with_path` ends within so
many steps of its thread. -/
def DescentEnds (s : State) : Prop :=
  ∀ t w n acts s', Descending s t w n → machine.runBy hasRoom s acts = some s' → n ≤ acts.count (.next t) →
    ∃ pre s₁ pid path, pre <+: acts ∧ machine.runBy hasRoom s pre = some s₁ ∧ s₁.pc t = .smo w (.splitHead pid path 0)

theorem Sound.descentEnds (h : Sound s) : DescentEnds s := by
  intro t w n acts s' hd hrun hn
  have hpos : ∀ s, ¬(Sound s ∧ Descending s t w 0) := by
    rintro s ⟨⟨_, _, _, _, _, hg⟩, hd⟩
    exact hg.descending_pos hd rfl
  have hown : ∀ s₁ s₂ n, Sound s₁ ∧ Descending s₁ t w (n + 1) → hasRoom s₁ (.next t) = true →
      machine.step s₁ (.next t) = some s₂ →
      (∃ pid path, s₂.pc t = .smo w (.splitHead pid path 0)) ∨ Sound s₂ ∧ Descending s₂ t w n := by
    rintro s₁ s₂ n ⟨hs, hd⟩ hroom hstep
    have hs₂ := hs.step hroom hstep
    obtain ⟨_, _, _, _, _, hg⟩ := hs
    obtain ⟨n', hn', hend⟩ := hg.descending hd hstep
    obtain rfl := Nat.succ.inj hn'
    exact hend.imp_right fun hd' => ⟨hs₂, hd'⟩
  rcases Machine.runBy_within (R := fun s n => Sound s ∧ Descending s t w n) hpos hown
    (fun s₁ s₂ a n ha ⟨hs, hd⟩ hroom hstep => ⟨hs.step hroom hstep, hd.frame hstep ha⟩) ⟨h, hd⟩ hrun with
    ⟨pre, s₁, hpre, hrun₁, ⟨pid, path, hend⟩, -⟩ | ⟨n', ⟨hs', hd'⟩, hcount⟩
  · exact ⟨pre, s₁, pid, path, hpre, hrun₁, hend⟩
  · obtain rfl : n' = 0 := by omega
    exact absurd ⟨hs', hd'⟩ (hpos s')

/-- In every reachable state descents and splits are safe, and descents end. -/
theorem index_descent_safe (h : machine.ReachBy (fun s a => hasRoom s a = true) s) : DescentSafe s ∧ DescentEnds s := by
  have hs := sound_of_reach h
  refine ⟨?_, hs.descentEnds⟩
  obtain ⟨_, _, _, _, _, hg⟩ := hs
  exact hg.descentSafe

/-- Thread 0 has taken `smo_busy` for the leaf that is too large, and thread 1
has inserted a key meanwhile. -/
def descentActs : List Act :=
  ((List.range 39).flatMap (insertActs 0) : List Act) ++
    ((Act.call 0 (.write .insert (.copy [17]) value) :: List.replicate 11 (.next 0) : List Act) ++
      (Act.call 1 (.write .insert (.copy [240]) value) :: List.replicate 6 (.next 1) : List Act))

/-- The descent of thread 0 is at the root, which has the PID 0. -/
def State.descends (s : State) : Bool :=
  match s.pc 0 with
  | .smo _ (.pathHead 0 []) => true
  | _ => false

theorem index_descent_safe_smo :
    ∃ s w, machine.ReachBy (fun s a => hasRoom s a = true) s ∧ s.pc 0 = .smo w (.pathHead 0 []) ∧
      DescentSafe s ∧ DescentEnds s := by
  obtain ⟨s, hr, hs⟩ := machine.exists_reachBy_of_run (C := fun s a => hasRoom s a = true) (c := hasRoom)
    (fun _ _ h => h) (s := State.initial) (l := descentActs)
    (p := State.descends) rfl (by decide +kernel)
  unfold State.descends at hs
  split at hs
  · rename_i w hpc
    exact ⟨s, w, hr, hpc, index_descent_safe hr⟩
  · cases hs

end Dlsmc.Index.Concurrent
