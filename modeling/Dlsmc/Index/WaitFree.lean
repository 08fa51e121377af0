import Dlsmc.Index.DescentSafety

/-!
# Searches do not wait

`dlsm_index_get`, and the search of `write_op` for the leaf of its key, take no
flag and retry nothing: each of their steps goes to a node that they have not
visited, in the tree as it is then. As there are at most `MAP_CAP` nodes, a
search ends within `MAP_CAP + 1` steps of its own thread, whatever the other
threads do, and if they stop in the middle of a split or of a consolidation
(`index_search_wait_free`).
-/

namespace Dlsmc.Index.Concurrent

open BLink

/-- A search: of a read, or of a write for its leaf. -/
inductive Search where
  | get (g : Get)
  | write (w : Write)

namespace Search

/-- The search is about to load the root. -/
def root : Search → Pc
  | get g => .getRoot g
  | write w => .findRoot w

/-- The search is about to load the head of `p`. -/
def head : Search → Pid → Pc
  | get g, p => .getHead g p
  | write w, p => .findHead w p

/-- The search has found what it is for: the result, or the leaf. -/
def Ended : Search → Pc → Prop
  | get g, pc => ∃ r, pc = .ret g.number g.arg.get r
  | write w, pc => ∃ pid, pc = .installHead w pid

end Search

variable {s s' : State} {nd : Pid → Node Key Pid} {row : Nat → List Pid} {top n : Nat} {pend : Option (Pending Key Pid)}
  {m : Key → Option DeltaPointer} {t : Nat} {x : Search} {p : Pid}

theorem Search.root_working (x : Search) : x.root.Working := by
  cases x with
  | get g => trivial
  | write w => trivial

theorem Search.head_working (x : Search) (p : Pid) : (x.head p).Working := by
  cases x with
  | get g => trivial
  | write w => trivial

theorem Search.next_root (x : Search) : x.root.next s.mem = .ok (s.mem, x.head s.mem.root) := by
  cases x with
  | get g => rfl
  | write w => rfl

/-- A step of a search ends it, or leads to a node that is ahead. -/
theorem Good.next_head (h : Good s nd row top pend m) (hpc : s.pc t = x.head p) :
    ∃ pc, (x.head p).next s.mem = .ok (s.mem, pc) ∧
      (x.Ended pc ∨ ∃ q, pc = x.head q ∧ Ahead nd row top q p) := by
  cases x with
  | get g =>
    have hspot : Spot nd row top g.arg.key p := h.at_of hpc
    obtain ⟨l, hload, -, hturn⟩ := h.tree.turn hspot
    cases hturn with
    | hop hf hd hs ha =>
      exact ⟨.getHead g l.chain.base.rightSibling,
        by simp [Search.head, Pc.next, Get.visit, hload, hd, hf, bind, Except.bind], .inr ⟨_, rfl, ha⟩⟩
    | down q hf hd he hr hs ha =>
      exact ⟨.getHead g q, by simp [Search.head, Pc.next, Get.visit, hload, hd, findDelta, hf, he, hr, bind,
        Except.bind],
        .inr ⟨q, rfl, ha⟩⟩
    | leaf hf he hp hv =>
      have hvisit : ∃ r, g.visit l.chain = .ok (.ret g.number g.arg.get r) := by
        unfold Get.visit
        cases findDelta l.chain.deltas g.arg.key with
        | some d => exact ⟨_, rfl⟩
        | none =>
          simp only [hf, he, Bool.false_eq_true, if_false]
          exact ⟨_, rfl⟩
      obtain ⟨r, hr⟩ := hvisit
      exact ⟨.ret g.number g.arg.get r, by simp [Search.head, Pc.next, hload, hr, bind, Except.bind], .inl ⟨r, rfl⟩⟩
  | write w =>
    have hspot : Spot nd row top w.arg.key p := h.at_of hpc
    obtain ⟨l, hload, -, hturn⟩ := h.tree.turn hspot
    cases hturn with
    | hop hf hd hs ha =>
      exact ⟨.findHead w l.chain.base.rightSibling,
        by simp [Search.head, Pc.next, Write.visit, hload, hf, bind, Except.bind], .inr ⟨_, rfl, ha⟩⟩
    | down q hf hd he hr hs ha =>
      exact ⟨.findHead w q, by simp [Search.head, Pc.next, Write.visit, hload, hf, he, hr, bind, Except.bind],
        .inr ⟨q, rfl, ha⟩⟩
    | leaf hf he hp hv =>
      exact ⟨.installHead w p, by simp [Search.head, Pc.next, Write.visit, hload, hf, he, bind, Except.bind],
        .inl ⟨p, rfl⟩⟩

/-! ## The nodes that are left -/

/-- The thread is in the search, and has at most `n` steps left: it has visited
the nodes of a walk. -/
def Seeks (s : State) (t : Nat) (x : Search) (nd : Pid → Node Key Pid) (row : Nat → List Pid) (top n : Nat) : Prop :=
  s.pc t = x.root ∧ n = MAP_CAP + 1 ∨ ∃ p vs, s.pc t = x.head p ∧ Walk nd row top (p :: vs) ∧ vs.length + n = MAP_CAP

/-- A walk is no longer than the map. -/
theorem Tree.length_walk_le {M : Memory} (h : Tree M nd row top pend m) {ps : List Pid} (hw : Walk nd row top ps)
    (hmem : ∀ p ∈ ps, ∃ ℓ ≤ top, p ∈ row ℓ) : ps.length ≤ MAP_CAP := by
  have hsub : ps ⊆ List.range MAP_CAP := fun p hp => by
    obtain ⟨ℓ, hℓ, hpℓ⟩ := hmem p hp
    exact List.mem_range.mpr ((h.bound ℓ hℓ p hpℓ).trans_le h.cap)
  have := ((h.shape.nodup_of_walk hw).subperm hsub).length_le
  rwa [List.length_range] at this

theorem Good.mem_of_head (h : Good s nd row top pend m) (hpc : s.pc t = x.head p) : ∃ ℓ ≤ top, p ∈ row ℓ := by
  obtain ⟨k, hspot⟩ : ∃ k, Spot nd row top k p := by
    cases x with
    | get g => exact ⟨g.arg.key, h.at_of hpc⟩
    | write w => exact ⟨w.arg.key, h.at_of hpc⟩
  obtain ⟨ℓ, hℓ, hp, -⟩ := hspot
  exact ⟨ℓ, hℓ, hp⟩

theorem Good.seeks_pos (h : Good s nd row top pend m) (hx : Seeks s t x nd row top n) : n ≠ 0 := by
  rcases hx with ⟨-, rfl⟩ | ⟨p, vs, hpc, hw, hn⟩
  · exact Nat.succ_ne_zero _
  · have hlen := h.tree.length_walk_le hw (hw.mem (h.mem_of_head hpc))
    rw [List.length_cons] at hlen
    omega

/-- The thread is in the search. -/
def InSearch (s : State) (t : Nat) (x : Search) : Prop := s.pc t = x.root ∨ ∃ p, s.pc t = x.head p

theorem Seeks.inSearch (h : Seeks s t x nd row top n) : InSearch s t x :=
  h.imp And.left fun ⟨p, _, hpc, _⟩ => ⟨p, hpc⟩

theorem InSearch.working (h : InSearch s t x) : (s.pc t).Working := by
  rcases h with hpc | ⟨p, hpc⟩
  · exact hpc ▸ x.root_working
  · exact hpc ▸ x.head_working p

/-- A search that is under way, with what it visited before not counted. -/
theorem InSearch.seeks (h : InSearch s t x) (nd : Pid → Node Key Pid) (row : Nat → List Pid) (top : Nat) :
    ∃ n ≤ MAP_CAP + 1, Seeks s t x nd row top n := by
  rcases h with hpc | ⟨p, hpc⟩
  · exact ⟨MAP_CAP + 1, le_rfl, .inl ⟨hpc, rfl⟩⟩
  · exact ⟨MAP_CAP, Nat.le_succ _, .inr ⟨p, [], hpc, .singleton p, Nat.zero_add _⟩⟩

/-- A step of the thread itself ends the search, or leaves one step less. -/
theorem Good.seeks_own (h : Good s nd row top pend m) (hx : Seeks s t x nd row top (n + 1))
    (hstep : step s (.next t) = some s') : x.Ended (s'.pc t) ∨ Seeks s' t x nd row top n := by
  rcases hx with ⟨hpc, hn⟩ | ⟨p, vs, hpc, hw, hn⟩
  · rw [step_next (hpc ▸ x.root_working) (by rw [hpc, x.next_root]), Option.some.injEq] at hstep
    refine .inr (.inr ⟨s.mem.root, [], hstep ▸ Function.update_self .., .singleton _, ?_⟩)
    rw [Nat.succ.inj hn]
    exact Nat.zero_add _
  · obtain ⟨pc, hnext, hend⟩ := h.next_head hpc
    rw [step_next (hpc ▸ x.head_working p) (by rw [hpc, hnext]), Option.some.injEq] at hstep
    have hpc' : s'.pc t = pc := hstep ▸ Function.update_self ..
    rw [hpc']
    refine hend.imp_right fun ⟨q, hq, ha⟩ => .inr ⟨q, p :: vs, hpc'.trans hq, hw.cons_cons ha, ?_⟩
    rw [List.length_cons, ← hn]
    omega

theorem Seeks.grows {nd' : Pid → Node Key Pid} {row' : Nat → List Pid} {top' : Nat} (hx : Seeks s t x nd row top n)
    (hg : Grows nd nd' row row' top top') : Seeks s t x nd' row' top' n :=
  hx.imp_right fun ⟨p, vs, hp, hw, hn⟩ => ⟨p, vs, hp, hw.grows hg, hn⟩

/-- A step of another thread leaves the search where it is. -/
theorem Seeks.frame {a : Act} (hx : Seeks s t x nd row top n) (hstep : step s a = some s') (ha : a ≠ .next t) :
    Seeks s' t x nd row top n := by
  have hpc : s'.pc t = s.pc t := by
    refine step_pc_frame (fun hidle => ?_) hstep ha
    have := hx.inSearch.working
    rwa [hidle] at this
  unfold Seeks
  rw [hpc]
  exact hx

/-- The thread is in the search, in a tree, and has at most `n` steps left. -/
def Searching (t : Nat) (x : Search) (s : State) (n : Nat) : Prop :=
  ∃ nd row top pend m, Good s nd row top pend m ∧ Seeks s t x nd row top n

theorem Searching.pos (h : Searching t x s n) : n ≠ 0 := by
  obtain ⟨nd, row, top, pend, m, hg, hx⟩ := h
  exact hg.seeks_pos hx

theorem Searching.own (h : Searching t x s (n + 1)) (hroom : hasRoom s (.next t) = true)
    (hstep : machine.step s (.next t) = some s') : x.Ended (s'.pc t) ∨ Searching t x s' n := by
  obtain ⟨nd, row, top, pend, m, hg, hx⟩ := h
  obtain ⟨nd', row', top', pend', m', hg', hgrow⟩ := hg.evolve hroom hstep
  exact (hg.seeks_own hx hstep).imp_right fun hx' => ⟨nd', row', top', pend', m', hg', hx'.grows hgrow⟩

theorem Searching.other {a : Act} (h : Searching t x s n) (ha : a ≠ .next t) (hroom : hasRoom s a = true)
    (hstep : machine.step s a = some s') : Searching t x s' n := by
  obtain ⟨nd, row, top, pend, m, hg, hx⟩ := h
  obtain ⟨nd', row', top', pend', m', hg', hgrow⟩ := hg.evolve hroom hstep
  exact ⟨nd', row', top', pend', m', hg', (hx.frame hstep ha).grows hgrow⟩

/-- A thread in a search can take its next step. -/
theorem InSearch.step (hx : InSearch s t x) (h : Good s nd row top pend m) :
    ∃ s', machine.step s (.next t) = some s' := by
  rcases hx with hpc | ⟨p, hpc⟩
  · exact ⟨_, step_next (hpc ▸ x.root_working) (by rw [hpc, x.next_root])⟩
  · obtain ⟨pc, hnext, -⟩ := h.next_head hpc
    exact ⟨_, step_next (hpc ▸ x.head_working p) (by rw [hpc, hnext])⟩

/-- A search is over within `MAP_CAP + 1` steps of its thread, or else it is
under way and the thread can take its next step, whatever the other threads do
in between. -/
theorem index_search_wait_free (h : machine.ReachBy (fun s a => hasRoom s a = true) s) (hx : InSearch s t x)
    {acts : List Act} (hrun : machine.runBy hasRoom s acts = some s') :
    (∃ pre s₁, pre <+: acts ∧ machine.runBy hasRoom s pre = some s₁ ∧ x.Ended (s₁.pc t) ∧
      pre.count (.next t) ≤ MAP_CAP + 1) ∨
      InSearch s' t x ∧ acts.count (.next t) ≤ MAP_CAP ∧ ∃ s₂, machine.step s' (.next t) = some s₂ := by
  obtain ⟨nd, row, top, pend, m, hg⟩ := sound_of_reach h
  obtain ⟨n, hn, hseeks⟩ := hx.seeks nd row top
  rcases Machine.runBy_within (R := Searching t x) (Q := fun s => x.Ended (s.pc t)) (fun _ h => h.pos rfl)
    (fun _ _ _ h hroom hstep => h.own hroom hstep) (fun _ _ _ _ ha h hroom hstep => h.other ha hroom hstep)
    ⟨nd, row, top, pend, m, hg, hseeks⟩ hrun with ⟨pre, s₁, hpre, hrun₁, hend, hcount⟩ | ⟨n', hs', hcount⟩
  · exact .inl ⟨pre, s₁, hpre, hrun₁, hend, hcount.trans hn⟩
  · have hpos := hs'.pos
    obtain ⟨_, _, _, _, _, hg', hx'⟩ := hs'
    exact .inr ⟨hx'.inSearch, by omega, hx'.inSearch.step hg'⟩

/-- Thread 1 reads a key of the right half while thread 0 has swapped the left
half in and nothing else: it goes along the sibling. -/
theorem index_search_wait_free_half_split :
    ∃ s g s' acts, machine.ReachBy (fun s a => hasRoom s a = true) s ∧ s.pc 1 = .getRoot g ∧
      machine.runBy hasRoom s acts = some s' ∧ acts.count (.next 1) = 2 ∧
      ((∃ pre s₁, pre <+: acts ∧ machine.runBy hasRoom s pre = some s₁ ∧ (Search.get g).Ended (s₁.pc 1) ∧
        pre.count (.next 1) ≤ MAP_CAP + 1) ∨
        InSearch s' 1 (.get g) ∧ acts.count (.next 1) ≤ MAP_CAP ∧ ∃ s₂, machine.step s' (.next 1) = some s₂) := by
  let acts : List Act := [.next 1, .next 0, .next 1, .next 0]
  obtain ⟨s, hr, hs⟩ := machine.exists_reachBy_of_run (C := fun s a => hasRoom s a = true) (c := hasRoom)
    (fun _ _ h => h) (s := State.initial) (l := halfSplitActs)
    (p := fun s =>
      match s.pc 1 with
      | .getRoot _ => (machine.runBy hasRoom s acts).isSome
      | _ => false) rfl (by decide +kernel)
  split at hs
  · rename_i g hpc
    obtain ⟨s', hrun⟩ := Option.isSome_iff_exists.mp hs
    exact ⟨s, g, s', acts, hr, hpc, hrun, rfl, index_search_wait_free hr (x := .get g) (.inl hpc) hrun⟩
  · cases hs

end Dlsmc.Index.Concurrent
