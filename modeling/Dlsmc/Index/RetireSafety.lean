import Dlsmc.Index.RetireSteps

/-!
# No node of the index is used after it is freed, and every node is freed once

In every run in which the EBR keeps what it promises, a thread can follow what it
has loaded down to the base (`index_no_use_after_free`), and the nodes that
`dlsm_index_free` finds in the map, those that the EBR was handed and those of undone
splits are each node once (`index_freed_once`).
-/

namespace Dlsmc.Index.Concurrent

open BLink

variable {s' : State} {M : Memory} {hand hand' : Hand} {pc : Pc} {row : Nat → List Pid} {top : Nat}
  {nd : Pid → Node Key Pid} {pend : Option (Pending Key Pid)} {m : Key → Option DeltaPointer} {t u a n : Nat}
  {x : Tracked}

/-! ## Runs -/

/-- The invariant of the operations and of the nodes. -/
def Kempt (x : Tracked) : Prop := ∃ nd row top pend m, Good x.op nd row top pend m ∧ Tidy x row top

/-- What a step of an operation by thread `t` leaves to the others and to the EBR. -/
structure Passive (t : Nat) (H H' : Heap) : Prop where
  reclaimed : H'.reclaimed = H.reclaimed
  retired : H'.retired = H.retired
  unlinked : ∀ u, u ≠ t → H'.unlinked u = H.unlinked u

theorem Passive.refl (t : Nat) (H : Heap) : Passive t H H := ⟨rfl, rfl, fun _ _ => rfl⟩

theorem Passive.swap (t a : Nat) (H : Heap) : Passive t H (H.swap t a) :=
  ⟨rfl, rfl, fun _ hu => Function.update_of_ne hu ..⟩

theorem SmoPc.heap_passive (H : Heap) (M : Memory) (t : Nat) (hand : Hand) (q : SmoPc) :
    Passive t H (q.heap H M t hand) := by
  cases q with
  | splitCas pid path n h sep rp =>
    simp only [heap]
    split
    · exact .swap ..
    · exact .refl ..
  | sepStore child parent path sep right P =>
    simp only [heap]
    split
    · exact .swap ..
    · exact .refl ..
  | innerStore pid path N promoted nrp =>
    simp only [heap]
    split
    · exact .swap ..
    · exact .refl ..
  | _ => exact ⟨rfl, rfl, fun _ _ => rfl⟩

theorem Pc.heap_passive (H : Heap) (M : Memory) (t : Nat) (hand : Hand) (pc : Pc) :
    Passive t H (pc.heap H M t hand) := by
  cases pc with
  | installCas w pid h =>
    simp only [heap]
    split
    · exact ⟨rfl, rfl, fun _ _ => rfl⟩
    · exact .refl ..
  | consCas w pid why n h =>
    simp only [heap]
    split
    · exact .swap ..
    · exact .refl ..
  | smo w q => exact q.heap_passive H M t hand
  | _ => exact .refl ..

theorem Tidy.work (h : Good x.op nd row top pend m) (hx : Tidy x row top) (hu : x.heap.unlinked t = none)
    (hw : (x.op.pc t).Working) (hroom : hasRoom x.op (.next t) = true)
    (hstep : step x.op (.next t) = some s') :
    Kempt ⟨s', (x.op.pc t).heap x.heap x.op.mem t (x.hand t),
      Function.update x.hand t ((x.op.pc t).hand (x.hand t) x.op.mem x.heap)⟩ := by
  obtain ⟨hrec, hlen, -⟩ := (x.op.pc t).heap_passive x.heap x.op.mem t (x.hand t)
  obtain ⟨M, pc, hn, hmoves⟩ := h.moves hw hroom
  obtain rfl : s' = { x.op.goto t pc with mem := M } :=
    Option.some.inj (hstep.symm.trans (step_next hw hn))
  obtain ⟨nd', row', top', pend', m', hgood, hg⟩ := hmoves
  refine ⟨nd', row', top', pend', m', hgood, ?_⟩
  by_cases hout : (x.op.pc t).Outside
  · obtain ⟨hturns, hframe, hgrip⟩ := hx.walks h hu hw hout hn
    refine hx.next hg hturns (fun _ => False.elim) hrec hlen (fun u _ w q hq => ?_) (hlen.symm ▸ hgrip)
    exact (hx.stores u w q hq).frame h.tree (h.owner u w q hq).2 hframe
  · cases hpc : x.op.pc t with
    | smo w q =>
      have hothers : ∀ u, u ≠ t → ∀ w' q', x.op.pc u ≠ .smo w' q' := fun u hu' w' q' hq =>
        hu' (h.alone u t w' w q' q hq hpc)
      have hroom' : q.allocates = true → x.op.mem.nextPid < MAP_CAP := fun hq => by
        have hall : (Pc.smo w q).allocates = true := by
          cases q <;> first | rfl | cases hq
        simpa [hasRoom, hpc, hall] using hroom
      rw [hpc] at hn hrec hlen
      obtain ⟨⟨M', r⟩, hq, hn⟩ := bind_eq_ok hn
      cases hn
      cases r with
      | some q' =>
        obtain ⟨gone, hturns, hgone, hgrip⟩ := hx.divides h hu hpc hroom' hq
        have hgrip : Grip M (q.heap x.heap x.op.mem t (x.hand t)).retired.length row top (x.op.pc t).Inside (x.hand t)
            (q.hand (x.hand t) x.op.mem) (.smo w q') := by
          rw [hpc]
          exact hlen.symm ▸ hgrip
        exact hx.next hg hturns hgone hrec hlen (fun u hu' w' q' hq' => absurd hq' (hothers u hu' w' q')) hgrip
      | none =>
        -- `smo_busy` is given back
        have hunlock : q = .unlock ∧ M = { x.op.mem with smoBusy := false } := by
          rcases SmoPc.next_plain hq with ⟨hq, -, hM⟩ | ⟨⟨q', hq'⟩, -⟩
          · exact ⟨hq, hM⟩
          · cases hq'
        obtain ⟨rfl, rfl⟩ := hunlock
        have hgrip : Grip { x.op.mem with smoBusy := false } x.heap.retired.length row top (x.op.pc t).Inside (x.hand t)
            (x.hand t) w.done := by
          rw [hpc]
          exact .light trivial w.done_light
        exact hx.next hg (hx.stocked.same rfl rfl rfl) (fun _ => False.elim) rfl rfl
          (fun u hu' w' q' hq' => absurd hq' (hothers u hu' w' q')) hgrip
    | _ => exact absurd (by rw [hpc]; trivial) hout

/-- No epoch is entered in the call, or at all if it is refused. -/
theorem Op.start_not_inside (n : Nat) (o : Op) : ¬(o.start n).Inside := by
  cases o with
  | get key =>
    cases hk : key.arg with
    | none =>
      rw [start_get_none hk]
      exact fun h => h rfl
    | some k =>
      rw [start_get hk]
      exact id
  | write op key v =>
    cases hk : key.arg with
    | none =>
      rw [start_write_none hk]
      exact fun h => h rfl
    | some k =>
      rw [start_write hk]
      exact id

theorem Grip.out {inside : Prop} (hchain : hand'.chain = none) (hsince : hand'.since = hand.since) (hin : ¬pc.Inside)
    (hheld : pc.held = none) (hout : pc.Outside) : Grip M n row top inside hand hand' pc where
  chain p a ha := by cases hchain.symm.trans ha
  since := .inl ⟨hsince, fun h => absurd h hin⟩
  empty _ := hchain
  held p h hp := by cases hheld.symm.trans hp
  stores w q hq := absurd hq (hout.ne w q)

theorem Tidy.call (nd : Pid → Node Key Pid) (hx : Tidy x row top) (hpc : x.op.pc t = .idle) (o : Op)
    (hist : List (Event Op Result)) (calls : Nat) :
    Tidy { x with op := ⟨x.op.mem, Function.update x.op.pc t (o.start x.op.calls), hist, calls⟩ } row top := by
  obtain ⟨hout, -, hheld, -⟩ := o.start_spec x.op.calls nd row top
  have hchain : (x.hand t).chain = none := hx.empty t (by rw [hpc]; exact id)
  have hgrip : Grip x.op.mem x.heap.retired.length row top (x.op.pc t).Inside (x.hand t) (x.hand t)
      (o.start x.op.calls) := .out hchain rfl (o.start_not_inside x.op.calls) hheld hout
  have hgrows : Grows nd nd row row top top := .refl
  have hnext : Tidy ⟨⟨x.op.mem, Function.update x.op.pc t (o.start x.op.calls), hist, calls⟩, x.heap,
      Function.update x.hand t (x.hand t)⟩ row top :=
    hx.next hgrows (hx.stocked.same rfl rfl rfl) (fun _ => False.elim) rfl rfl (fun u _ => hx.stores u) hgrip
  rwa [Function.update_eq_self] at hnext

theorem Tidy.ret {n : Nat} {o : Op} {r : Result} (nd : Pid → Node Key Pid) (hx : Tidy x row top)
    (hpc : x.op.pc t = .ret n o r) (hist : List (Event Op Result)) (calls : Nat) :
    Tidy ⟨⟨x.op.mem, Function.update x.op.pc t .idle, hist, calls⟩, x.heap,
      Function.update x.hand t ((x.op.pc t).hand (x.hand t) x.op.mem x.heap)⟩ row top := by
  rw [hpc]
  have hgrows : Grows nd nd row row top top := .refl
  exact hx.next hgrows (hx.stocked.same rfl rfl rfl) (fun _ => False.elim) rfl rfl (fun u _ => hx.stores u)
    (.out rfl rfl id rfl trivial)

/-- The chain that the thread has exchanged is retired. -/
theorem Tidy.retire (hx : Tidy x row top) (ha : x.heap.unlinked t = some a) :
    Tidy { x with
      heap :=
        { x.heap with
          unlinked := Function.update x.heap.unlinked t none, retired := x.heap.retired ++ [a] } } row top := by
  have hturn := hx.stocked.retire ha
  refine ⟨hturn.stocked, fun i hi => (hx.reclaimed i hi).trans_le hturn.retired, fun u =>
    (hx.since u).trans hturn.retired, hx.late, fun u p b hb => ?_, hx.empty, hx.held, hx.stores⟩
  obtain ⟨hp, hk⟩ := hx.chain u p b hb
  exact ⟨hp, hturn.kept _ p b False.elim (hx.since u) hk⟩

/-- The EBR frees a chain, of which no thread has anything. -/
theorem Tidy.reclaim {i : Nat} (hx : Tidy x row top) (hi : i < x.heap.retired.length)
    (hall : ∀ t, (x.op.pc t).Inside → i < (x.hand t).since) :
    Tidy { x with heap := { x.heap with reclaimed := Function.update x.heap.reclaimed i true } } row top := by
  have hrec : ∀ j, Function.update x.heap.reclaimed i true j = true → j = i ∨ x.heap.reclaimed j = true :=
    fun j hj => by
      by_cases hji : j = i
      · exact .inl hji
      · exact .inr (by rwa [Function.update_of_ne hji] at hj)
  exact ⟨⟨hx.stocked.size, hx.stocked.owned, hx.stocked.length, hx.stocked.beyond⟩,
    fun j hj => (hrec j hj).elim (fun e => e ▸ hi) (hx.reclaimed j), hx.since,
    fun t ht j hj => (hrec j hj).elim (fun e => e ▸ hall t ht) (hx.late t ht j), hx.chain, hx.empty, hx.held, hx.stores⟩

theorem Kempt.step {x' : Tracked} {b : TrackedAct} (hx : Kempt x) (hc : Allowed x b) (hstep : x.step b = some x') :
    Kempt x' := by
  obtain ⟨nd, row, top, pend, m, hgood, hx⟩ := hx
  cases b with
  | op b =>
    cases b with
    | call t o =>
      simp only [Tracked.step] at hstep
      obtain ⟨s, hs, rfl⟩ := Option.map_eq_some_iff.mp hstep
      cases hpc : x.op.pc t with
      | idle =>
        simp only [Concurrent.step, hpc, Option.some.injEq] at hs
        subst hs
        exact ⟨nd, row, top, pend, m, hgood.call hpc o, hx.call nd hpc o _ _⟩
      | _ => simp [Concurrent.step, hpc] at hs
    | next t =>
      simp only [Tracked.step] at hstep
      split at hstep
      · rename_i hu
        obtain ⟨s, hs, rfl⟩ := Option.map_eq_some_iff.mp hstep
        by_cases hw : (x.op.pc t).Working
        · exact hx.work hgood hu hw hc hs
        · cases hpc : x.op.pc t with
          | idle => simp [Concurrent.step, hpc] at hs
          | fault f => simp [Concurrent.step, hpc] at hs
          | ret n o r =>
            have hret := hx.ret nd hpc (x.op.hist ++ [.ret n r]) x.op.calls
            simp only [Concurrent.step, hpc, Option.some.injEq] at hs
            subst hs
            rw [hpc] at hret
            exact ⟨nd, row, top, pend, m, hgood.ret hpc, hret⟩
          | _ => exact absurd (by rw [hpc]; trivial) hw
      · cases hstep
  | retire t =>
    simp only [Tracked.step] at hstep
    obtain ⟨a, ha, rfl⟩ := Option.map_eq_some_iff.mp hstep
    exact ⟨nd, row, top, pend, m, hgood, hx.retire ha⟩
  | reclaim i =>
    simp only [Tracked.step] at hstep
    split at hstep
    · rename_i hi
      cases hstep
      exact ⟨nd, row, top, pend, m, hgood, hx.reclaim hi.1 hc⟩
    · cases hstep

theorem Stocked.new : Stocked .new .new := by
  have hroot : ∀ o a, Heap.new.root .new o = some a → o = .entry 0 ∧ a = 0 := fun o a ho => by
    cases o with
    | entry p =>
      obtain ⟨l, hl, rfl⟩ := Option.map_eq_some_iff.mp ho
      have hp : p = 0 := by
        by_contra hp
        simp [Memory.new, hp] at hl
      rw [Memory.head_new hl, hp]
      exact ⟨rfl, rfl⟩
    | _ => cases ho
  have hcells : Heap.new.nodes.cells 0 = [0] := NodeStore.cells_last rfl
  have hmem : ∀ o x, x ∈ Heap.new.nodes.chain (Heap.new.root .new o) → o = .entry 0 ∧ x = 0 := fun o x hx => by
    cases ho : Heap.new.root .new o with
    | none =>
      rw [ho] at hx
      cases hx
    | some a =>
      obtain ⟨rfl, rfl⟩ := hroot o a ho
      rw [ho, NodeStore.chain, hcells, List.mem_singleton] at hx
      exact ⟨rfl, hx⟩
  refine ⟨rfl, ⟨fun o o' x hx hx' => (hmem o x hx).1.trans (hmem o' x hx').1.symm, fun x => ?_⟩, fun p l hl => ?_,
    fun p hp => if_neg (Nat.ne_of_gt hp)⟩
  · constructor
    · intro hx
      obtain rfl : x = 0 := Nat.lt_one_iff.mp hx
      exact ⟨.entry 0, NodeStore.mem_cells_self⟩
    · rintro ⟨o, hx⟩
      exact (hmem o x hx).2 ▸ Nat.zero_lt_one
  · rw [Memory.head_new hl, hcells]
    rfl

theorem Kempt.initial : Kempt .initial := by
  obtain ⟨nd, row, top, pend, m, hgood⟩ := Sound.initial
  refine ⟨nd, row, top, pend, m, hgood, .new, fun i hi => ?_, fun _ => le_rfl, fun t ht => ht.elim, fun t p a ha => ?_,
    fun _ _ => rfl, fun t p h hp => ?_, fun t w q hq => ?_⟩
  · cases hi
  · cases ha
  · cases hp
  · cases hq

theorem kempt_of_reach (h : Tracked.machine.ReachBy Allowed x) : Kempt x :=
  h.invariant (fun _ hi => hi ▸ .initial) fun _ _ _ _ hx hc hstep => hx.step hc hstep

/-! ## Nodes in use -/

/-- No node that can be followed to has been freed. -/
structure NoUseAfterFree (x : Tracked) : Prop where
  /-- From the head that a thread has loaded last. -/
  hand : ∀ t p a, (x.hand t).chain = some (p, a) → ∀ n ∈ x.heap.nodes.cells a, ¬x.heap.Freed n
  /-- That head is the one the thread compares. -/
  held : ∀ t p h, (x.op.pc t).held = some (p, h) → (x.hand t).chain = some (p, h.addr)
  /-- From an entry of the map, along the nodes of its chain. -/
  head : ∀ p l, x.op.mem.head p = some l →
    (x.heap.nodes.cells l.addr).length = l.chain.deltas.length + 1 ∧ ∀ n ∈ x.heap.nodes.cells l.addr, ¬x.heap.Freed n

theorem Tidy.not_freed (hx : Tidy x row top) {ok : Owner → Prop}
    (hk : Kept x.heap.nodes (x.heap.root x.op.mem) ok a) (hretired : ∀ i, x.heap.reclaimed i = true → ¬ok (.retired i))
    (hundone : ∀ i, ¬ok (.undone i)) (hn : n ∈ x.heap.nodes.cells a) : ¬x.heap.Freed n := by
  rintro (⟨i, hi, hmem⟩ | ⟨i, hmem⟩)
  · exact hk.notMem hx.stocked.owned hn (hretired i hi) hmem
  · exact hk.notMem hx.stocked.owned hn (hundone i) hmem

theorem index_no_use_after_free (h : Tracked.machine.ReachBy Allowed x) : NoUseAfterFree x := by
  obtain ⟨_, row, top, _, _, -, hx⟩ := kempt_of_reach h
  refine ⟨fun t p a ha n hn => ?_, hx.held, fun p l hl => ⟨hx.stocked.length p l hl, fun n hn => ?_⟩⟩
  · -- the thread is in its epoch, so that what was freed was retired before it entered
    have hin : (x.op.pc t).Inside := by
      by_contra hout
      cases (hx.empty t hout).symm.trans ha
    exact hx.not_freed (hx.chain t p a ha).2 (fun i hi => Nat.not_le_of_lt (hx.late t hin i hi)) (fun _ => id) hn
  · have hroot : x.heap.root x.op.mem (.entry p) = some l.addr := Memory.address_of hl
    have hk : Kept x.heap.nodes (x.heap.root x.op.mem) (· = .entry p) l.addr := .of_root rfl hroot
    refine hx.not_freed hk (fun i _ he => ?_) (fun i he => ?_) hn
    · cases he
    · cases he

/-- The EBR has freed no chain in the runs below. -/
def Tracked.allowed (x : Tracked) : TrackedAct → Bool
  | .op a => hasRoom x.op a
  | .retire _ => true
  | .reclaim _ => false

theorem allowed_of {b : TrackedAct} (h : x.allowed b = true) : Allowed x b := by
  cases b with
  | op a => exact h
  | retire t => trivial
  | reclaim i => cases h

/-- Thread 1 reads from a chain of four deltas, which thread 0 makes longer,
collapses and retires. -/
def retiringActs : List TrackedAct :=
  (((List.range 4).flatMap (insertActs 0) ++ [.call 1 (.get (.copy [240])), .next 1, .next 1] ++
    [4, 5, 6].flatMap (insertActs 0) ++ .call 0 (.write .insert (.copy [49]) value) :: List.replicate 7 (.next 0) :
      List Act).map .op : List TrackedAct) ++
    TrackedAct.retire 0 :: List.replicate 3 (.op (.next 0))

theorem exists_retiring :
    ∃ x, Tracked.machine.runBy Tracked.allowed .initial retiringActs = some x ∧ (x.hand 1).chain = some (0, 4) ∧
      x.heap.retired = [8] ∧ x.heap.unlinked 0 = none ∧ x.heap.unlinked 1 = none ∧ x.op.mem.published = 10 := by
  have hrun : (Tracked.machine.runBy Tracked.allowed .initial retiringActs).map (fun x =>
      decide ((x.hand 1).chain = some (0, 4)) && decide (x.heap.retired = [8]) &&
        decide (x.heap.unlinked 0 = none) && decide (x.heap.unlinked 1 = none) && x.op.mem.published == 10) =
      some true := by
    decide +kernel
  obtain ⟨x, hrun, hx⟩ := Option.map_eq_some_iff.mp hrun
  simp only [Bool.and_eq_true, beq_iff_eq, decide_eq_true_eq] at hx
  obtain ⟨⟨⟨⟨h₁, h₂⟩, h₃⟩, h₄⟩, h₅⟩ := hx
  exact ⟨x, hrun, h₁, h₂, h₃, h₄, h₅⟩

theorem index_no_use_after_free_retired :
    ∃ x, Tracked.machine.ReachBy Allowed x ∧ (x.hand 1).chain = some (0, 4) ∧ x.heap.retired = [8] ∧
      NoUseAfterFree x := by
  obtain ⟨x, hrun, hchain, hretired, -⟩ := exists_retiring
  have hr : Tracked.machine.ReachBy Allowed x := .of_runBy (fun _ _ => allowed_of) (.init rfl) hrun
  exact ⟨x, hr, hchain, hretired, index_no_use_after_free hr⟩

/-! ## Every node once -/

/-- The nodes of the chains that the EBR was handed. -/
def Tracked.retiredNodes (x : Tracked) : List Nat := x.heap.retired.flatMap x.heap.nodes.cells

/-- The nodes that `split_leaf` has freed. -/
def Tracked.undoneNodes (x : Tracked) : List Nat := x.heap.undone.flatMap x.heap.nodes.cells

/-- The owners that may have a chain when no thread has one to retire. -/
def Tracked.owners (x : Tracked) : List Owner :=
  (List.range x.op.mem.nextPid).map .entry ++ (List.range x.heap.retired.length).map .retired ++
    (List.range x.heap.undone.length).map .undone

theorem Tracked.nodup_owners (x : Tracked) : x.owners.Nodup := by
  have hinj : ∀ {f : Nat → Owner} (m : Nat), Function.Injective f → ((List.range m).map f).Nodup := fun m hf =>
    List.nodup_range.map hf
  refine List.nodup_append'.mpr ⟨List.nodup_append'.mpr ⟨hinj _ fun _ _ => Owner.entry.inj,
    hinj _ fun _ _ => Owner.retired.inj, ?_⟩, hinj _ fun _ _ => Owner.undone.inj, ?_⟩
  · intro o ho ho'
    simp only [List.mem_map] at ho ho'
    obtain ⟨p, -, rfl⟩ := ho
    obtain ⟨i, -, hi⟩ := ho'
    cases hi
  · intro o ho ho'
    simp only [List.mem_append, List.mem_map] at ho ho'
    obtain ⟨i, -, rfl⟩ := ho'
    rcases ho with ⟨p, -, hp⟩ | ⟨j, -, hj⟩
    · cases hp
    · cases hj

/-- A thread has no chain to retire: then every node is, once, in the map, in a
chain that the EBR was handed, or freed by `split_leaf`. -/
theorem index_freed_once (h : Tracked.machine.ReachBy Allowed x) (hu : ∀ t, x.heap.unlinked t = none) :
    (x.mapNodes ++ x.retiredNodes ++ x.undoneNodes).Perm (List.range x.op.mem.published) := by
  obtain ⟨_, row, top, _, _, -, hx⟩ := kempt_of_reach h
  have hall : ∀ o, x.heap.root x.op.mem o ≠ none → o ∈ x.owners := fun o ho => by
    simp only [Tracked.owners, List.mem_append, List.mem_map, List.mem_range]
    cases o with
    | entry p =>
      refine .inl (.inl ⟨p, ?_, rfl⟩)
      by_contra hp
      refine ho ?_
      show (x.op.mem.head p).map _ = none
      rw [hx.stocked.beyond p (Nat.le_of_not_lt hp)]
      rfl
    | unlinked t => exact absurd (hu t) ho
    | retired i =>
      refine .inl (.inr ⟨i, ?_, rfl⟩)
      by_contra hi
      exact ho (List.getElem?_eq_none (Nat.le_of_not_lt hi))
    | undone i =>
      refine .inr ⟨i, ?_, rfl⟩
      by_contra hi
      exact ho (List.getElem?_eq_none (Nat.le_of_not_lt hi))
  have hperm := hx.stocked.owned.perm_range x.nodup_owners hall
  rw [hx.stocked.size, Tracked.owners, List.flatMap_append, List.flatMap_append, List.flatMap_map, List.flatMap_map,
    List.flatMap_map] at hperm
  rw [Tracked.retiredNodes, Tracked.undoneNodes, ← NodeStore.flatMap_chain, ← NodeStore.flatMap_chain]
  exact hperm

/-- The thread that may exchange or retire a chain. -/
def TrackedAct.thread : TrackedAct → Option Nat
  | .op (.next t) | .retire t => some t
  | _ => none

/-- The others leave a thread what it has to retire. -/
theorem Tracked.step_unlinked {x' : Tracked} {b : TrackedAct} (hstep : x.step b = some x') (hb : b.thread ≠ some u) :
    x'.heap.unlinked u = x.heap.unlinked u := by
  cases b with
  | op b =>
    cases b with
    | call t o =>
      obtain ⟨s, -, rfl⟩ := Option.map_eq_some_iff.mp hstep
      rfl
    | next t =>
      simp only [Tracked.step] at hstep
      split at hstep
      · obtain ⟨s, -, rfl⟩ := Option.map_eq_some_iff.mp hstep
        exact ((x.op.pc t).heap_passive ..).unlinked u fun h => hb (congrArg some h.symm)
      · cases hstep
  | retire t =>
    obtain ⟨a, -, rfl⟩ := Option.map_eq_some_iff.mp hstep
    exact Function.update_of_ne (fun h => hb (congrArg some h.symm)) ..
  | reclaim i =>
    simp only [Tracked.step] at hstep
    split at hstep
    · cases hstep
      rfl
    · cases hstep

theorem Tracked.unlinked_of_runBy {acts : List TrackedAct} {y : Tracked}
    (hrun : Tracked.machine.runBy Tracked.allowed x acts = some y) (hacts : ∀ b ∈ acts, b.thread ≠ some u) :
    y.heap.unlinked u = x.heap.unlinked u := by
  induction acts generalizing x with
  | nil =>
    rw [Machine.runBy, Option.some.injEq] at hrun
    rw [hrun]
  | cons b acts ih =>
    rw [Machine.runBy] at hrun
    split at hrun
    · obtain ⟨x₁, hstep, hrun⟩ := Option.bind_eq_some_iff.mp hrun
      exact (ih hrun fun b' hb' => hacts b' (List.mem_cons_of_mem b hb')).trans
        (step_unlinked hstep (hacts b List.mem_cons_self))
    · cases hrun

theorem index_freed_once_retired :
    ∃ x, Tracked.machine.ReachBy Allowed x ∧ x.heap.retired = [8] ∧
      (x.mapNodes ++ x.retiredNodes ++ x.undoneNodes).Perm (List.range 10) := by
  obtain ⟨x, hrun, -, hretired, h₀, h₁, hpub⟩ := exists_retiring
  have hr : Tracked.machine.ReachBy Allowed x := .of_runBy (fun _ _ => allowed_of) (.init rfl) hrun
  have hthreads : ∀ b ∈ retiringActs, b.thread ∈ [none, some 0, some 1] := by decide +kernel
  have hu : ∀ t, x.heap.unlinked t = none := fun t => by
    by_cases ht : t = 0 ∨ t = 1
    · rcases ht with rfl | rfl
      · exact h₀
      · exact h₁
    · refine Tracked.unlinked_of_runBy hrun fun b hb hbt => ht ?_
      have hmem := hbt ▸ hthreads b hb
      simpa using hmem
  exact ⟨x, hr, hretired, hpub ▸ index_freed_once hr hu⟩

end Dlsmc.Index.Concurrent
