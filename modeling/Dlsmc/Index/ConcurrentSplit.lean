import Dlsmc.Index.ConcurrentTree

/-!
# Splits among concurrent operations

Every step of the owner of `smo_busy` leads from one phase of a split to the
next, with a tree that has the same values and whose rows have grown at most
(`SmoPc.next_leads`). What the other threads do meanwhile, to chains of leaves,
leaves the phase as it is (`SmoPc.Phase.frame`).
-/

namespace Dlsmc.Index.Concurrent

open BLink

variable {M M' : Memory} {nd nd' : Pid → Node Key Pid} {row row' : Nat → List Pid} {top top' ℓ n : Nat}
  {pend pend' : Option (Pending Key Pid)} {m : Key → Option DeltaPointer} {k sep : Key} {p rp child right parent : Pid}
  {path : List Pid} {c R : Chain} {hd : Link} {N P : Base}

/-- `M'` is `M` but for the heads of the nodes `ps` and the flags
`consolidating`. -/
structure Beside (ps : List Pid) (M M' : Memory) : Prop where
  head : ∀ x, x ∉ ps → M'.head x = M.head x
  nextPid : M'.nextPid = M.nextPid
  root : M'.root = M.root
  smoBusy : M'.smoBusy = M.smoBusy
  fresh : M.Fresh M'

theorem Beside.chainOf {ps : List Pid} {x : Pid} (h : Beside ps M M') (hx : x ∉ ps) : M'.chainOf x = M.chainOf x := by
  rw [Memory.chainOf, h.head x hx, Memory.chainOf]

/-- An internal node is no leaf. -/
theorem Tree.notMem_leaves (h : Tree M nd row top pend m) (hp : Path nd M.root top (ℓ + 1) (p :: path)) : p ∉ row 0 :=
  fun hm => Nat.succ_ne_zero ℓ (h.shape.level_unique hp.le (Nat.zero_le _) (hp.head_mem h.shape) hm)

theorem Overfull.frame (h : Tree M nd row top pend m) (hN : Overfull M nd top p path N) (hM : Beside (row 0) M M') :
    Overfull M' nd top p path N := by
  obtain ⟨⟨ℓ, hpath⟩, hc, hnum⟩ := hN
  exact ⟨⟨ℓ, hM.root ▸ hpath⟩, (hM.chainOf (h.notMem_leaves hpath)).trans hc, hnum⟩

theorem Installs.frame (hI : Installs M nd top pend child path sep right) (hroot : M'.root = M.root) :
    Installs M' nd top pend child path sep right := by
  obtain ⟨ℓ, hpend, hpath⟩ := hI
  exact ⟨ℓ, hpend, hroot ▸ hpath⟩

theorem Spare.frame (hs : Spare M row top rp) (hnext : M'.nextPid = M.nextPid) : Spare M' row top rp :=
  ⟨hs.last.trans hnext.symm, hs.notMem⟩

/-- What the other threads do leaves a split where it is. -/
theorem SmoPc.Phase.frame {q : SmoPc} (h : Tree M nd row top pend m) (hq : q.Phase M nd row top pend k)
    (hM : Beside (row 0) M M') : q.Phase M' nd row top pend k := by
  have hspare : ∀ {rp c}, Spare M row top rp → M.chainOf rp = some c → M'.chainOf rp = some c := fun hs hc =>
    (hM.chainOf (hs.notMem 0 (Nat.zero_le _))).trans hc
  cases q with
  | pathRoot => exact hq
  | pathHead p path => exact ⟨hq.1, hM.root ▸ hq.2⟩
  | splitHead p path n => exact ⟨hq.1, hM.root ▸ hq.2⟩
  | splitPid p path n hd sep => exact ⟨hq.1, hM.root ▸ hq.2.1, hq.2.2⟩
  | splitCas p path n hd sep rp =>
    obtain ⟨hpend, hpath, hsplit, hs, hc⟩ := hq
    exact ⟨hpend, hM.root ▸ hpath, hsplit, hs.frame hM.nextPid, hspare hs hc⟩
  | splitUndo p path n rp => exact ⟨hq.1, hM.root ▸ hq.2.1, hq.2.2.frame hM.nextPid⟩
  | sepHead child path sep right => exact Installs.frame hq hM.root
  | sepStore child parent path sep right P =>
    obtain ⟨⟨ℓ, hpend, hpath⟩, hP⟩ := hq
    exact ⟨⟨ℓ, hpend, hM.root ▸ hpath⟩, (hM.chainOf (h.notMem_leaves hpath.uncons.2)).trans hP⟩
  | rootPid child sep right level => exact ⟨hq.1.frame hM.root, hq.2⟩
  | rootStore rp =>
    obtain ⟨hs, child, sep, right, hI, hc⟩ := hq
    exact ⟨hs.frame hM.nextPid, child, sep, right, hI.frame hM.root, hspare hs hc⟩
  | innerHead p path => exact ⟨hq.1, hq.2.imp fun N hN => hN.frame h hM⟩
  | innerPid p path N promoted => exact ⟨hq.1, hq.2.1.frame h hM, hq.2.2⟩
  | innerStore p path N promoted nrp =>
    obtain ⟨hpend, hN, hprom, hs, hc⟩ := hq
    exact ⟨hpend, hN.frame h hM, hprom, hs.frame hM.nextPid, hspare hs hc⟩
  | unlock => exact hq

/-! ## A PID that is not in the tree -/

/-- After `alloc_pid` of `c`, if the map has room. -/
def Memory.taken (M : Memory) (c : Chain) : Memory := { M.publish M.nextPid c with nextPid := M.nextPid + 1 }

theorem Memory.allocPid_eq (hroom : M.nextPid < MAP_CAP) : M.allocPid c = (M.nextPid, M.taken c) := by
  have hmod : (M.nextPid + 1) % 2 ^ 32 = M.nextPid + 1 := Nat.mod_eq_of_lt (by simp only [MAP_CAP] at hroom; omega)
  unfold Memory.allocPid
  dsimp only
  rw [if_neg (Nat.not_le.mpr hroom), hmod]
  rfl

theorem Memory.chainOf_taken (x : Pid) : (M.taken c).chainOf x = if x = M.nextPid then some c else M.chainOf x :=
  Memory.chainOf_publish

theorem Memory.Fresh.taken (M : Memory) (c : Chain) : M.Fresh (M.taken c) :=
  ⟨(Memory.Fresh.publish M M.nextPid c).le, (Memory.Fresh.publish M M.nextPid c).head⟩

namespace Tree

theorem ne_nextPid (h : Tree M nd row top pend m) (hℓ : ℓ ≤ top) (hp : p ∈ row ℓ) : p ≠ M.nextPid :=
  Nat.ne_of_lt (h.bound ℓ hℓ p hp)

/-- A PID that is taken is not in the tree yet. -/
theorem taken (h : Tree M nd row top pend m) (hroom : M.nextPid < MAP_CAP) (c : Chain) :
    Tree (M.taken c) nd row top pend m ∧ Spare (M.taken c) row top M.nextPid := by
  refine ⟨Inv.transport h (fun ℓ hℓ p hp => ?_) rfl (fun ℓ hℓ p hp => Nat.lt_succ_of_lt (h.bound ℓ hℓ p hp)) hroom
    fun _ => rfl, rfl, fun ℓ hℓ hm => h.ne_nextPid hℓ hm rfl⟩
  show (M.taken c).chainOf p = M.chainOf p
  rw [Memory.chainOf_taken, if_neg (h.ne_nextPid hℓ hp)]

/-- The tree before the spare PID was taken. -/
theorem before (h : Tree M nd row top pend m) (hs : Spare M row top rp) :
    Inv (Lossy never) { M.view with nextPid := rp } nd row top pend m := by
  refine Inv.transport h (fun _ _ _ _ => rfl) rfl (fun ℓ hℓ p hp => ?_) ?_ fun _ => rfl
  · have hlt : p < M.nextPid := h.bound ℓ hℓ p hp
    have hne : p ≠ rp := fun e => hs.notMem ℓ hℓ (e ▸ hp)
    rw [← hs.last] at hlt
    exact lt_of_le_of_ne (Nat.le_of_lt_succ hlt) hne
  · have hcap : M.nextPid ≤ MAP_CAP := h.cap
    rw [← hs.last] at hcap
    exact Nat.le_of_succ_le hcap

theorem spare_lt (h : Tree M nd row top pend m) (hs : Spare M row top rp) : rp < MAP_CAP := by
  have hcap : M.nextPid ≤ MAP_CAP := h.cap
  rw [← hs.last] at hcap
  exact Nat.lt_of_succ_le hcap

/-- The memory is the one before the spare PID was taken, with its chain. -/
theorem same_taken (h : Tree M nd row top pend m) (hs : Spare M row top rp) (hR : M.chainOf rp = some R) :
    Same (({ M.view with nextPid := rp } : Index.State).bindPid R) M.view := by
  have hcap := h.spare_lt hs
  refine ⟨?_, ?_, (State.bindPid_root (t := { M.view with nextPid := rp }) (c := R)).symm,
    (State.bindPid_smoBusy (t := { M.view with nextPid := rp }) (c := R)).symm⟩
  · funext x
    by_cases hx : x = rp
    · subst hx
      have h₁ := State.bindPid_self (t := { M.view with nextPid := x }) (c := R) hcap
      have h₂ := State.bindPid_consolidating (t := { M.view with nextPid := x }) (c := R) (x := x)
      calc M.view.map x = ⟨some R, false⟩ := by simp only [Memory.view, hR]
        _ = _ := by rw [← h₁, ← show _ = false from h₂]
    · rw [State.bindPid_of_ne hx]
  · rw [State.bindPid_nextPid (t := { M.view with nextPid := rp }) ((Nat.le_of_lt hcap).trans (Nat.le_add_right _ _))]
    exact hs.last.symm

end Tree

/-! ## The steps -/

/-- What a step of the owner leads to: the next phase, with a tree that has
grown. -/
structure Leads (M : Memory) (nd : Pid → Node Key Pid) (row : Nat → List Pid) (top : Nat)
    (m : Key → Option DeltaPointer) (k : Key) (M' : Memory) (q : SmoPc) (nd' : Pid → Node Key Pid)
    (row' : Nat → List Pid) (top' : Nat) (pend' : Option (Pending Key Pid)) : Prop where
  tree : Tree M' nd' row' top' pend' m
  grows : Grows nd nd' row row' top top'
  fresh : M.Fresh M'
  level : ∀ x c, M'.chainOf x = some c → M.chainOf x = some c ∨ c.base.level ≤ top + 1
  smoBusy : M'.smoBusy = M.smoBusy
  phase : q.Phase M' nd' row' top' pend' k
  held : ∀ x h, q.held = some (x, h) → M'.Knows x h

/-- The step of `q` goes on with the split. -/
def Goes (M : Memory) (nd : Pid → Node Key Pid) (row : Nat → List Pid) (top : Nat) (m : Key → Option DeltaPointer)
    (k : Key) (q : SmoPc) : Prop :=
  ∃ M' q' nd' row' top' pend', q.next M k = .ok (M', some q') ∧ Leads M nd row top m k M' q' nd' row' top' pend'

/-- A step that changes nothing in the memory. -/
theorem Goes.stay {q : SmoPc} (q' : SmoPc) (h : Tree M nd row top pend m) (hn : q.next M k = .ok (M, some q'))
    (hphase : q'.Phase M nd row top pend k) (hheld : ∀ x h, q'.held = some (x, h) → M.Knows x h) :
    Goes M nd row top m k q :=
  ⟨M, q', nd, row, top, pend, hn, h, .refl, .refl M, fun _ _ hx => .inl hx, rfl, hphase, hheld⟩

theorem Memory.level_publish (hlevel : c.base.level ≤ top + 1) (x : Pid) (c' : Chain)
    (hx : (M.publish p c).chainOf x = some c') : M.chainOf x = some c' ∨ c'.base.level ≤ top + 1 := by
  rw [Memory.chainOf_publish] at hx
  split at hx
  · exact .inr (Option.some.inj hx ▸ hlevel)
  · exact .inl hx

/-- The base of a node has the level of its row. -/
theorem Tree.level_of (h : Tree M nd row top pend m) (hℓ : ℓ ≤ top) (hp : p ∈ row ℓ) (hc : M.chainOf p = some c) :
    c.base.level = ℓ := by
  obtain ⟨l, -, hl, hh⟩ := h.load hℓ hp
  obtain rfl := Option.some.inj ((Memory.chainOf_of hl).symm.trans hc)
  rw [hh.level, Inv.level h hℓ hp]

theorem Overfull.level_le (h : Tree M nd row top pend m) (hN : Overfull M nd top p path N) : N.level ≤ top + 1 := by
  obtain ⟨⟨ℓ, hpath⟩, hc, -⟩ := hN
  have hlev : N.level = ℓ + 1 := h.level_of hpath.le (hpath.head_mem h.shape) hc
  rw [hlev]
  exact hpath.le.trans (Nat.le_succ top)

/-- A step that takes a PID. -/
theorem Goes.take {q : SmoPc} (q' : SmoPc) (h : Tree M nd row top pend m) (hroom : M.nextPid < MAP_CAP)
    (hlevel : c.base.level ≤ top + 1) (hn : q.next M k = .ok (M.taken c, some q'))
    (hphase : Spare (M.taken c) row top M.nextPid → (M.taken c).chainOf M.nextPid = some c →
      q'.Phase (M.taken c) nd row top pend k)
    (hheld : ∀ x h, q'.held = some (x, h) → M.Knows x h) : Goes M nd row top m k q := by
  obtain ⟨htree, hspare⟩ := h.taken hroom c
  exact ⟨M.taken c, q', nd, row, top, pend, hn, htree, .refl, .taken M c, Memory.level_publish hlevel, rfl,
    hphase hspare (by rw [Memory.chainOf_taken, if_pos rfl]), fun x h hx => (hheld x h hx).of_fresh (.taken M c)⟩

theorem pathRoot_goes (h : Tree M nd row top none m) : Goes M nd row top m k .pathRoot :=
  .stay _ h rfl ⟨rfl, top, .root, (Inv.root_covers h).2⟩ Memory.knows_none

/-- The path has no more nodes than the tree has levels. -/
theorem Tree.path_lt (h : Tree M nd row top pend m) (hpath : Path nd M.root top ℓ (p :: path)) :
    path.length < MAX_DEPTH := by
  have hlen := hpath.length
  have htop := Inv.top_le h
  simp only [List.length_cons, MAX_DEPTH] at hlen ⊢
  omega

/-- `descend_with_path` goes down one level, without a hop, and records the
node. -/
theorem pathHead_cases (h : Tree M nd row top none m) (hpath : Path nd M.root top ℓ (p :: path))
    (hk : (nd p).Covers k) :
    (ℓ = 0 ∧ SmoPc.next M k (.pathHead p path) = .ok (M, some (.splitHead p path 0))) ∨
      ∃ ℓ' c, ℓ = ℓ' + 1 ∧ SmoPc.next M k (.pathHead p path) = .ok (M, some (.pathHead c (p :: path))) ∧
        Path nd M.root top ℓ' (c :: p :: path) ∧ (nd c).Covers k := by
  have hp := hpath.head_mem h.shape
  have hlen : ¬MAX_DEPTH ≤ path.length := Nat.not_le.mpr (h.path_lt hpath)
  obtain ⟨l, hload, hl, hh⟩ := h.load hpath.le hp
  have hf := hh.pastFence hk
  cases ℓ with
  | zero =>
    have hents := hh.leaf_ents (Inv.level h hpath.le hp)
    exact .inl ⟨rfl, by simp [SmoPc.next, visitPath, hload, hf, hents, hlen, bind, Except.bind]⟩
  | succ ℓ =>
    obtain ⟨b, c, -, hm, -, hents, hroute, hkid, hroutes⟩ := Inv.routes h hpath.le hp k
    have hb : l.chain = ⟨[], b⟩ := Option.some.inj ((Memory.chainOf_of hl).symm.trans hm)
    rw [hb] at hf
    obtain ⟨-, hck⟩ := h.shape.route_covers hpath.le hp hk hroutes
    refine .inr ⟨ℓ, c, rfl, ?_, .step hkid hpath, hck⟩
    simp [SmoPc.next, visitPath, hload, hb, hf, hents, hlen, hroute, bind, Except.bind]

theorem pathHead_goes (h : Tree M nd row top none m) (hpath : Path nd M.root top ℓ (p :: path))
    (hk : (nd p).Covers k) : Goes M nd row top m k (.pathHead p path) := by
  rcases pathHead_cases h hpath hk with ⟨rfl, hn⟩ | ⟨ℓ', c, rfl, hn, hpath', hck⟩
  · exact .stay _ h hn ⟨rfl, hpath⟩ Memory.knows_none
  · exact .stay _ h hn ⟨rfl, ℓ', hpath', hck⟩ Memory.knows_none

theorem splitHead_goes (h : Tree M nd row top none m) (hM : ∀ p l, M.head p = some l → l.addr < M.published)
    (hpath : Path nd M.root top 0 (p :: path)) : Goes M nd row top m k (.splitHead p path n) := by
  obtain ⟨l, hload, hl, -⟩ := h.load (Nat.zero_le _) (hpath.head_mem h.shape)
  by_cases hle : l.chain.live.length ≤ LEAF_MAX
  · exact .stay .unlock h (by simp [SmoPc.next, hload, hle, bind, Except.bind]) rfl Memory.knows_none
  · have hi : l.chain.live.length / 2 < l.chain.live.length := by
      simp only [LEAF_MAX] at hle
      omega
    have he := List.getElem?_eq_getElem hi
    refine .stay (.splitPid p path n l l.chain.live[l.chain.live.length / 2].key) h
      (by simp only [SmoPc.next, hload, bind, Except.bind, if_neg hle, he])
      ⟨rfl, hpath, Nat.not_le.mp hle, _, he, rfl⟩ ?_
    rintro x hd hx
    obtain ⟨rfl, rfl⟩ := Prod.mk.inj (Option.some.inj hx)
    exact Memory.Knows.of_head hM hl

theorem splitPid_goes (h : Tree M nd row top none m) (hroom : M.nextPid < MAP_CAP)
    (hpath : Path nd M.root top 0 (p :: path)) (hs : Splits hd.chain sep) (hk : M.Knows p hd) :
    Goes M nd row top m k (.splitPid p path n hd sep) := by
  refine .take (.splitCas p path n hd sep M.nextPid) (c := ⟨[], upperLeaf hd.chain sep⟩) h hroom
    (Nat.zero_le _) ?_
    (fun hspare hc => ⟨rfl, hpath, hs, hspare, hc⟩) ?_
  · simp only [SmoPc.next, Memory.allocPid_eq hroom]
  · rintro x hd' hx
    obtain ⟨rfl, rfl⟩ := Prod.mk.inj (Option.some.inj hx)
    exact hk

/-- The nodes above a node that is split stay where they are. -/
theorem Tree.path_split (h : Tree M nd row top none m) (hpath : Path nd M.root top ℓ (p :: path))
    (hs : Spare M row top rp) (hnd : ∀ y, y ≠ p → y < rp → nd' y = nd y) : Path nd' M.root top ℓ (p :: path) := by
  refine hpath.congr fun y hy => ?_
  obtain ⟨ℓ', hℓ', hlt, hrow⟩ := hpath.tail_mem_row h.shape y hy
  have hyp : y ≠ p := fun e =>
    absurd (h.shape.level_unique hℓ' hpath.le (e ▸ hrow) (hpath.head_mem h.shape)) (Nat.ne_of_gt hlt)
  exact hnd y hyp ((h.before hs).bound ℓ' hℓ' y hrow)

theorem splitCas_goes (h : Tree M nd row top none m) (hpath : Path nd M.root top 0 (p :: path))
    (hs : Splits hd.chain sep) (hspare : Spare M row top rp) (hR : M.chainOf rp = some ⟨[], upperLeaf hd.chain sep⟩)
    (hk : M.Knows p hd) : Goes M nd row top m k (.splitCas p path n hd sep rp) := by
  rcases Memory.casHead_cases (c := ⟨[], lowerLeaf hd.chain sep rp⟩) hk with hcas | ⟨hhead, hcas⟩
  · exact .stay (.splitUndo p path n rp) h (by simp only [SmoPc.next, hcas]) ⟨rfl, hpath, hspare⟩ Memory.knows_none
  · obtain ⟨hfull, e, he, rfl⟩ := hs
    obtain ⟨hi, rfl⟩ := List.getElem?_eq_some_iff.mp he
    obtain ⟨nd', row', hinv, hnd', hg⟩ := (h.before hspare).splitLeaf (hpath.head_mem h.shape) (h.spare_lt hspare)
      (Memory.chainOf_of hhead) hfull hi (.inl rfl) (.inl rfl) (.inl rfl) (.inl rfl)
    have hsame := (h.same_taken hspare hR).setHead p
      (some ⟨[], lowerLeaf hd.chain hd.chain.live[hd.chain.live.length / 2].key rp⟩)
    rw [← Memory.view_publish] at hsame
    exact ⟨_, .sepHead p path _ rp, nd', row', top, _, by simp only [SmoPc.next, hcas], hinv.congr hsame, hg,
      .publish M p _, Memory.level_publish (Nat.zero_le _), rfl, ⟨0, rfl, h.path_split hpath hspare hnd'⟩,
      Memory.knows_none⟩

theorem splitUndo_goes (h : Tree M nd row top none m) (hpath : Path nd M.root top 0 (p :: path))
    (hspare : Spare M row top rp) : Goes M nd row top m k (.splitUndo p path n rp) := by
  have hlt := h.spare_lt hspare
  have hnext : (M.nextPid + (2 ^ 32 - 1)) % 2 ^ 32 = rp := by
    have hmod : ∀ n < MAP_CAP, (n + 1 + (2 ^ 32 - 1)) % 2 ^ 32 = n := fun n hn => by
      simp only [MAP_CAP] at hn
      omega
    rw [← hspare.last, hmod rp hlt]
  have htree : Tree { M with head := Function.update M.head rp none, nextPid := rp } nd row top none m := by
    refine (h.before hspare).transport (fun ℓ hℓ x hx => ?_) rfl (h.before hspare).bound hlt.le fun _ => rfl
    have hne : x ≠ rp := fun e => hspare.notMem ℓ hℓ (e ▸ hx)
    simp only [Memory.view, Memory.chainOf, Function.update_of_ne hne]
  have hfresh : M.Fresh { M with head := Function.update M.head rp none, nextPid := rp } := by
    refine ⟨Nat.le_refl _, fun x l hl => .inl ?_⟩
    by_cases hx : x = rp
    · subst hx
      simp at hl
    · simpa [Function.update_of_ne hx] using hl
  refine ⟨_, if n + 1 < 8 then .splitHead p path (n + 1) else .unlock, nd, row, top, none,
    by simp only [SmoPc.next, if_pos hlt, hnext], htree, .refl, hfresh, fun x c hx => ?_, rfl, ?_, ?_⟩
  · obtain ⟨l, hl, rfl⟩ := Option.map_eq_some_iff.mp hx
    exact .inl (Memory.chainOf_of ((hfresh.head x l hl).resolve_right fun h => Nat.lt_irrefl _ h.2))
  · split
    · exact ⟨rfl, hpath⟩
    · rfl
  · split <;> exact Memory.knows_none

/-- `install_sep` at the root has nothing above it. -/
theorem Installs.top_level (h : Tree M nd row top pend m) (hI : Installs M nd top pend child [] sep right) :
    pend = some ⟨top, child, sep, right⟩ ∧ child ∈ row top := by
  obtain ⟨ℓ, rfl, hpath⟩ := hI
  have hlen := hpath.length
  have hle := hpath.le
  simp only [List.length_singleton] at hlen
  obtain rfl : ℓ = top := by omega
  exact ⟨rfl, hpath.head_mem h.shape⟩

theorem Memory.view_loadHead : M.view.loadHead p = (M.loadHead p).map Link.chain := by
  unfold State.loadHead Memory.loadHead
  split
  · simp only [Memory.view, Memory.chainOf]
    cases M.head p <;> rfl
  · rfl

theorem Memory.loadBase_of_view (h : M.view.loadBase p = .ok N) : M.loadBase p = .ok N := by
  rw [State.loadBase, Memory.view_loadHead] at h
  rw [Memory.loadBase]
  cases hl : M.loadHead p with
  | error f => rw [hl] at h; cases h
  | ok l => rwa [hl] at h

/-- An internal node with its chain. -/
theorem Tree.load_base (h : Tree M nd row top pend m) (hℓ : ℓ < top) (hp : p ∈ row (ℓ + 1)) :
    ∃ b, M.loadBase p = .ok b ∧ M.chainOf p = some ⟨[], b⟩ := by
  obtain ⟨b, hl, hm, -⟩ := Inv.load_inner h hℓ hp
  exact ⟨b, Memory.loadBase_of_view (State.loadBase_of hl), hm⟩

theorem sepHead_goes (h : Tree M nd row top pend m) (hI : Installs M nd top pend child path sep right) :
    Goes M nd row top m k (.sepHead child path sep right) := by
  cases path with
  | nil =>
    obtain ⟨rfl, hmem⟩ := hI.top_level h
    obtain ⟨l, hload, -, hh⟩ := h.load le_rfl hmem
    refine .stay (.rootPid child sep right top) h ?_ ⟨hI, rfl⟩ Memory.knows_none
    simp [SmoPc.next, hload, hh.level, Inv.level h le_rfl hmem, bind, Except.bind]
  | cons parent path =>
    obtain ⟨ℓ, rfl, hpath⟩ := hI
    have hup := hpath.uncons.2
    obtain ⟨P, hload, hP⟩ := h.load_base hup.le (hup.head_mem h.shape)
    refine .stay (.sepStore child parent path sep right P) h ?_ ⟨⟨ℓ, rfl, hpath⟩, hP⟩ Memory.knows_none
    simp [SmoPc.next, hload, bind, Except.bind]

/-- `clone_internal_insert` finds the child once in its parent. -/
theorem Installs.clones (h : Tree M nd row top pend m) (hI : Installs M nd top pend child (parent :: path) sep right)
    (hP : M.chainOf parent = some ⟨[], P⟩) :
    (P.withEnt (.copy sep) child right P.lowFence P.highFence).num = P.ients.length + 1 ∧
      ∃ nd', Tree (M.publish parent ⟨[], P.withEnt (.copy sep) child right P.lowFence P.highFence⟩) nd' row top none m ∧
        Grows nd nd' row row top top ∧ ∃ ℓ, Path nd' M.root top (ℓ + 1) (parent :: path) ∧ P.level = ℓ + 1 := by
  obtain ⟨ℓ, rfl, hpath⟩ := hI
  obtain ⟨hc, hup⟩ := hpath.uncons
  have hp := hup.head_mem h.shape
  obtain ⟨b, hload, -, hwith⟩ := Inv.withEnt h (d := ⟨ℓ, child, sep, right⟩) hup.le hp hc
  obtain ⟨b', hload', hm⟩ := h.load_base hup.le hp
  obtain rfl : b = P := by
    rw [Memory.loadBase_of_view hload, Except.ok.injEq] at hload'
    exact hload'.trans (Chain.mk.inj (Option.some.inj (hm.symm.trans hP))).2
  obtain ⟨hnum, nd', hinv, hlow, hne⟩ := hwith b.lowFence b.highFence (.inl rfl) (.inl rfl)
  rw [← Memory.view_publish] at hinv
  refine ⟨hnum, nd', hinv, ⟨le_rfl, fun _ _ _ hx => hx, fun _ _ x _ => ?_⟩, ℓ, hup.congr fun y hy => hne y fun e => ?_,
    h.level_of hup.le hp hP⟩
  · by_cases hx : x = parent
    · rw [hx, hlow]
    · rw [hne x hx]
  · exact (List.nodup_cons.mp (hup.nodup h.shape)).1 (e ▸ hy)

theorem sepStore_goes (h : Tree M nd row top pend m) (hI : Installs M nd top pend child (parent :: path) sep right)
    (hP : M.chainOf parent = some ⟨[], P⟩) : Goes M nd row top m k (.sepStore child parent path sep right P) := by
  obtain ⟨hnum, nd', htree, hg, ℓ, hup, hlev⟩ := hI.clones h hP
  have hlev : P.level ≤ top + 1 := hlev ▸ hup.le.trans (Nat.le_succ top)
  refine ⟨_, if INTERNAL_MAX < (P.withEnt (.copy sep) child right P.lowFence P.highFence).num
    then .innerHead parent path else .unlock, nd', row, top, none, ?_, htree, hg, .publish M parent _,
    Memory.level_publish hlev, rfl, ?_, ?_⟩
  · simp only [SmoPc.next, hnum, lt_irrefl, if_false]
  · split
    · rename_i hfull
      exact ⟨rfl, _, ⟨ℓ, hup⟩, by rw [Memory.chainOf_publish, if_pos rfl], hfull⟩
    · rfl
  · split <;> exact Memory.knows_none

theorem rootPid_goes (h : Tree M nd row top pend m) (hroom : M.nextPid < MAP_CAP)
    (hI : Installs M nd top pend child [] sep right) : Goes M nd row top m k (.rootPid child sep right top) := by
  refine .take (.rootStore M.nextPid) (c := ⟨[], rootOver child sep right top⟩) h hroom
    (Nat.mod_le _ _) ?_
    (fun hspare hc => ⟨hspare, child, sep, right, hI, hc⟩) Memory.knows_none
  simp only [SmoPc.next, Memory.allocPid_eq hroom]

theorem rootStore_goes (h : Tree M nd row top pend m) (hspare : Spare M row top rp)
    (hI : Installs M nd top pend child [] sep right) (hR : M.chainOf rp = some ⟨[], rootOver child sep right top⟩) :
    Goes M nd row top m k (.rootStore rp) := by
  obtain ⟨rfl, -⟩ := hI.top_level h
  have hlev : (top + 1) % 2 ^ 8 = top + 1 := by
    have := Inv.top_le h
    omega
  obtain ⟨nd', row', hinv, hg⟩ := (h.before hspare).growRoot rfl (h.spare_lt hspare)
    (R := rootOver child sep right top) (.of_inner (Nat.succ_ne_zero top) hlev rfl (.inl rfl) (.inl rfl) rfl)
  have hsame := h.same_taken hspare hR
  have htree : Tree { M with root := rp } nd' row' (top + 1) none m :=
    hinv.congr ⟨hsame.map, hsame.nextPid, rfl, hsame.smoBusy⟩
  exact ⟨_, .unlock, nd', row', top + 1, none, rfl, htree, hg, ⟨Nat.le_refl _, fun _ _ hl => .inl hl⟩,
    fun _ _ hx => .inl hx, rfl, rfl, Memory.knows_none⟩

theorem Overfull.promotes (h : Tree M nd row top pend m) (hN : Overfull M nd top p path N) :
    ∃ ℓ e s, Path nd M.root top (ℓ + 1) (p :: path) ∧ M.loadBase p = .ok N ∧ N.ients[N.num / 2]? = some e ∧
      e.sep = .copy s := by
  obtain ⟨⟨ℓ, hpath⟩, hc, hnum⟩ := hN
  have hp := hpath.head_mem h.shape
  obtain ⟨b, hload, hm⟩ := h.load_base hpath.le hp
  obtain rfl : b = N := (Chain.mk.inj (Option.some.inj (hm.symm.trans hc))).2
  obtain ⟨e, s, he, hs⟩ := Inv.middle h hpath.le hp hc hnum
  exact ⟨ℓ, e, s, hpath, hload, he, hs⟩

theorem innerHead_goes (h : Tree M nd row top none m) (hN : Overfull M nd top p path N) :
    Goes M nd row top m k (.innerHead p path) := by
  obtain ⟨ℓ, e, s, -, hload, he, hs⟩ := hN.promotes h
  refine .stay (.innerPid p path N s) h ?_ ⟨rfl, hN, e, he, hs⟩ Memory.knows_none
  simp [SmoPc.next, hload, he, hs, dupKey, bind, Except.bind]

theorem innerPid_goes (h : Tree M nd row top none m) (hroom : M.nextPid < MAP_CAP) (hN : Overfull M nd top p path N)
    (hs : Promotes N sep) : Goes M nd row top m k (.innerPid p path N sep) := by
  obtain ⟨ℓ, -, -, hpath, -⟩ := hN.promotes h
  refine .take (.innerStore p path N sep M.nextPid) (c := ⟨[], N.upperHalf (.copy sep) N.highFence⟩) h hroom
    (show N.level ≤ top + 1 from hN.level_le h) ?_
    (fun hspare hc => ⟨rfl, ⟨⟨ℓ, hpath⟩, ?_, hN.2.2⟩, hs, hspare, hc⟩) Memory.knows_none
  · simp only [SmoPc.next, Memory.allocPid_eq hroom]
  · rw [Memory.chainOf_taken, if_neg (h.ne_nextPid hpath.le (hpath.head_mem h.shape))]
    exact hN.2.1

theorem innerStore_goes (h : Tree M nd row top none m) (hN : Overfull M nd top p path N) (hs : Promotes N sep)
    (hspare : Spare M row top rp) (hR : M.chainOf rp = some ⟨[], N.upperHalf (.copy sep) N.highFence⟩) :
    Goes M nd row top m k (.innerStore p path N sep rp) := by
  have hlev := hN.level_le h
  obtain ⟨⟨ℓ, hpath⟩, hc, hnum⟩ := hN
  obtain ⟨e, he, hes⟩ := hs
  obtain ⟨nd', row', hinv, hnd', hg⟩ := (h.before hspare).splitInner hpath.le (hpath.head_mem h.shape)
    (h.spare_lt hspare) hc hnum he hes (.inl rfl) (.inl rfl) (.inl rfl) (.inl rfl)
  have hsame := (h.same_taken hspare hR).setHead p (some ⟨[], N.lowerHalf N.lowFence (.copy sep) rp⟩)
  rw [← Memory.view_publish] at hsame
  exact ⟨_, .sepHead p path sep rp, nd', row', top, _, rfl, hinv.congr hsame, hg, .publish M p _,
    Memory.level_publish hlev, rfl,
    ⟨ℓ + 1, rfl, h.path_split hpath hspare hnd'⟩, Memory.knows_none⟩

/-- The step takes a PID. -/
def SmoPc.allocates : SmoPc → Bool
  | .splitPid .. | .rootPid .. | .innerPid .. => true
  | _ => false

/-- Every step of the owner but the last leads to the next phase. -/
theorem SmoPc.next_goes {q : SmoPc} (h : Tree M nd row top pend m)
    (hM : ∀ p l, M.head p = some l → l.addr < M.published) (hq : q.Phase M nd row top pend k)
    (hheld : ∀ x h, q.held = some (x, h) → M.Knows x h) (hroom : q.allocates = true → M.nextPid < MAP_CAP)
    (hne : q ≠ .unlock) : Goes M nd row top m k q := by
  cases q with
  | pathRoot =>
    obtain rfl : pend = none := hq
    exact pathRoot_goes h
  | pathHead p path =>
    obtain ⟨rfl, ℓ, hpath, hk⟩ := hq
    exact pathHead_goes h hpath hk
  | splitHead p path n =>
    obtain ⟨rfl, hpath⟩ := hq
    exact splitHead_goes h hM hpath
  | splitPid p path n hd sep =>
    obtain ⟨rfl, hpath, hs⟩ := hq
    exact splitPid_goes h (hroom rfl) hpath hs (hheld p hd rfl)
  | splitCas p path n hd sep rp =>
    obtain ⟨rfl, hpath, hs, hspare, hR⟩ := hq
    exact splitCas_goes h hpath hs hspare hR (hheld p hd rfl)
  | splitUndo p path n rp =>
    obtain ⟨rfl, hpath, hspare⟩ := hq
    exact splitUndo_goes h hpath hspare
  | sepHead child path sep right => exact sepHead_goes h hq
  | sepStore child parent path sep right P => exact sepStore_goes h hq.1 hq.2
  | rootPid child sep right level =>
    obtain ⟨hI, rfl⟩ := hq
    exact rootPid_goes h (hroom rfl) hI
  | rootStore rp =>
    obtain ⟨hspare, child, sep, right, hI, hR⟩ := hq
    exact rootStore_goes h hspare hI hR
  | innerHead p path =>
    obtain ⟨rfl, N, hN⟩ := hq
    exact innerHead_goes h hN
  | innerPid p path N promoted =>
    obtain ⟨rfl, hN, hs⟩ := hq
    exact innerPid_goes h (hroom rfl) hN hs
  | innerStore p path N promoted nrp =>
    obtain ⟨rfl, hN, hs, hspare, hR⟩ := hq
    exact innerStore_goes h hN hs hspare hR
  | unlock => exact absurd rfl hne

end Dlsmc.Index.Concurrent
