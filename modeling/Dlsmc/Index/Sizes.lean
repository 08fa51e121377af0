import Dlsmc.Index.Exhaustion
import Dlsmc.Index.OutOfMemory

/-!
# The sizes of the nodes

When no allocation fails and the map is not exhausted, a write leaves every node
within its bounds (`AllSized`): the chain of a leaf is short and its base is not
too large, and an internal node has between two entries and `INTERNAL_MAX`, half
of that at least if it is not the root. A leaf goes over its bound only when a
consolidation makes its base too large, and the same write splits it
(`writeOp_sized`); an internal node goes over its bound only inside
`install_sep`, by one entry (`installSep_sized`).

`standing_of_run`: after every call of a run that has room, the map holds a
tree, whose nodes have these sizes.
-/

namespace Dlsmc.Index

open BLink

/-- The depth of each delta is the number of the deltas from it down to the
base. -/
def Depths : List Delta → Prop
  | [] => True
  | d :: ds => d.depth = ds.length + 1 ∧ Depths ds

/-- The bounds of a node. -/
structure Sized (isRoot : Prop) (c : Chain) : Prop where
  depths : Depths c.deltas
  short : c.deltas.length < CONSOLIDATE_DEPTH
  leaf : c.base.lents.length ≤ LEAF_MAX
  inner : c.base.isLeaf = false → 2 ≤ c.base.ients.length ∧ c.base.ients.length ≤ INTERNAL_MAX
  half : c.base.isLeaf = false → ¬isRoot → INTERNAL_MAX / 2 ≤ c.base.ients.length

/-- Every node is within its bounds. -/
def AllSized (t : State) : Prop := ∀ p c, (t.map p).head = some c → Sized (p = t.root) c

variable {t t' : State} {nd : Pid → Node Key Pid} {row : Nat → List Pid} {top : Nat}
  {m : Key → Option DeltaPointer} {p : Pid} {c : Chain} {op : DeltaOp} {key : Bytes} {k : Key} {v : DeltaPointer}

theorem Depths.depth (h : Depths c.deltas) : c.depth = c.deltas.length := by
  unfold Chain.depth
  cases hc : c.deltas with
  | nil => rfl
  | cons d ds =>
    rw [hc] at h
    exact h.1

theorem Sized.mono {r r' : Prop} (h : Sized r c) (hr : r → r') : Sized r' c :=
  { h with half := fun hl hn => h.half hl fun hr' => hn (hr hr') }

theorem AllSized.congr (h : AllSized t) (hs : Same t t') : AllSized t' := by
  intro p c hc
  rw [hs.map] at hc
  rw [hs.root]
  exact h p c hc

theorem Base.Fanout.sized {b : Base} {n : Nat} {isRoot : Prop} (h : b.Fanout n) (htwo : 2 ≤ n) (hmax : n ≤ INTERNAL_MAX)
    (hhalf : ¬isRoot → INTERNAL_MAX / 2 ≤ n) : Sized isRoot ⟨[], b⟩ where
  depths := trivial
  short := Nat.succ_pos 7
  leaf := by
    rw [Base.lents, h.1]
    exact Nat.zero_le _
  inner _ := h.2.symm ▸ ⟨htwo, hmax⟩
  half _ hr := h.2.symm ▸ hhalf hr

/-- A base leaf that is not too large. -/
theorem sized_leaf {isRoot : Prop} {es : List LeafEnt} {low high : Bytes} {r : Pid} (h : es.length ≤ LEAF_MAX) :
    Sized isRoot ⟨[], ⟨0, .leaf es, low, high, r⟩⟩ where
  depths := trivial
  short := Nat.succ_pos 7
  leaf := h
  inner hl := by cases hl
  half hl := by cases hl

/-! ## `install_sep` -/

theorem Ladder.sized {parent child : Pid} {path : List Pid} (h : AllSized t)
    (hlad : Ladder t child (parent :: path)) :
    2 ≤ t.numOf parent ∧ t.numOf parent ≤ INTERNAL_MAX ∧ (parent ≠ t.root → INTERNAL_MAX / 2 ≤ t.numOf parent) := by
  obtain ⟨⟨b, -, -, -, hload, hents, -, -, -, -, -, hnum⟩, -⟩ := hlad
  have hleaf : b.isLeaf = false := by rw [Base.isLeaf, hents]
  have hhead : (t.map parent).head = some ⟨[], b⟩ := by
    unfold State.loadBase State.loadHead at hload
    split at hload
    · cases hh : (t.map parent).head with
      | none =>
        rw [hh] at hload
        cases hload
      | some c =>
        rw [hh] at hload
        obtain ⟨ds, b'⟩ := c
        by_cases hd : ds = []
        · subst hd
          cases hload
          rfl
        · simp [bind, Except.bind, hd] at hload
    · cases hload
  have hs := h parent _ hhead
  rw [hnum]
  exact ⟨(hs.inner hleaf).1, (hs.inner hleaf).2, hs.half hleaf⟩

/-- `install_sep` keeps the bounds, when the node that was split is within those
of a node that is not the root. The induction goes up the path. -/
theorem installSep_sized : ∀ {path : List Pid} {t : State} {child right : Pid} {sep : Key}, Ladder t child path →
    (∃ c, t.loadHead child = .ok c) → (child :: path).Nodup → (∀ y ∈ child :: path, y < MAP_CAP ∧ y < t.nextPid) →
    (child :: path).getLast? = some t.root → t.nextPid + t.cascade (child :: path) ≤ MAP_CAP → AllSized t →
    (∀ c, (t.map child).head = some c → Sized False c) →
    Ends (installSep never (child :: path) child (.copy sep) right) t fun _ t' => AllSized t'
  | [], t, child, right, sep, _, ⟨c, hl⟩, _, hlt, hroot, hroom, hall, hchild => by
    simp only [State.cascade] at hroom
    obtain rfl : child = t.root := Option.some.inj hroot
    refine Ends.bind (Ends.get (Ends.bind (Ends.lift hl ?_)))
    refine alloc_deref (tolerable_never _ rfl) (alloc_deref (tolerable_never _ rfl) ?_)
    refine Ends.bind (allocPid_ends (Ends.modify ?_))
    have hfresh : ((t.tick .newRoot).tick .newRootEnts).freshPid = t.nextPid :=
      State.freshPid_of_lt (t := (t.tick .newRoot).tick .newRootEnts) hroom
    intro p c hc
    show Sized (p = ((t.tick .newRoot).tick .newRootEnts).freshPid) c
    rw [hfresh]
    by_cases hp : p = t.nextPid
    · subst hp
      obtain rfl := Option.some.inj
        (hc.symm.trans (State.bindPid_self (t := (t.tick .newRoot).tick .newRootEnts) hroom))
      exact Base.Fanout.sized (n := 2) ⟨rfl, rfl⟩ (by decide) (by decide) fun hr => absurd rfl hr
    · have hc' : (t.map p).head = some c := by
        rw [← hc]
        exact congrArg MEntry.head (State.bindPid_of_ne (t := (t.tick .newRoot).tick .newRootEnts) hp).symm
      -- the old root is a node like the others now
      by_cases hpr : p = t.root
      · exact (hchild c (hpr ▸ hc')).mono False.elim
      · exact (hall p c hc').mono fun h => absurd h hpr
  | parent :: path, t, child, right, sep, hlad, _, hnd, hlt, hroot, hroom, hall, hchild => by
    obtain ⟨hpcap, hpnext⟩ := hlt parent (by simp)
    obtain ⟨htwo, hmax, hhalf⟩ := hlad.sized hall
    refine installSep_step hlad hpcap (fun P t' hfit hP hs => ?_) fun P L R s t₃ hfull hL hR h₃ => ?_
    · intro p c hc
      rw [hs.root]
      rw [hs.map] at hc
      by_cases hp : p = parent
      · subst hp
        rw [State.setHead_self, Option.some.injEq] at hc
        subst hc
        exact hP.sized (by omega) (by omega) fun hr => (hhalf hr).trans (Nat.le_succ _)
      · rw [State.setHead_of_ne hp] at hc
        exact hall p c hc
    · rw [State.cascade, if_pos hfull] at hroom
      have hnext₃ : t₃.nextPid = t.nextPid + 1 := by
        rw [h₃.nextPid, State.setHead_nextPid, State.bindPid_nextPid (by rw [State.setHead_nextPid]; omega),
          State.setHead_nextPid]
      have habove : ∀ y ∈ path, t₃.map y = t.map y := fun y hy =>
        State.split_of_ne h₃ (fun e' => (List.nodup_cons.mp (List.nodup_cons.mp hnd).2).1 (e' ▸ hy))
          (hlt y (by simp [hy])).2.ne
      have hcas : t₃.cascade (parent :: path) = t.cascade (parent :: path) := State.cascade_congr habove
      have hroot₃ : t₃.root = t.root := h₃.root.trans State.bindPid_root
      have hself : (t₃.map parent).head = some ⟨[], L⟩ := by rw [h₃.map, State.setHead_self]
      -- a node with one entry too many has sixteen and seventeen in its halves
      have hnum : t.numOf parent = 32 := by
        simp only [INTERNAL_MAX] at hfull hmax
        omega
      rw [hnum] at hL hR
      have hsL : Sized False ⟨[], L⟩ := hL.sized (by decide) (by decide) fun _ => by decide
      have hsR : Sized False ⟨[], R⟩ := hR.sized (by decide) (by decide) fun _ => by decide
      refine installSep_sized (hlad.2.congr habove) ⟨⟨[], _⟩, State.loadHead_of hpcap hself⟩ (List.nodup_cons.mp hnd).2
        (fun y hy => ?_) ?_ (by rw [hnext₃, hcas]; omega) (fun p c hc => ?_) fun c hc => ?_
      · have := hlt y (List.mem_cons_of_mem _ hy)
        exact ⟨this.1, hnext₃ ▸ Nat.lt_succ_of_lt this.2⟩
      · rw [hroot₃, ← hroot, List.getLast?_cons_cons]
      · by_cases hp : p = parent
        · subst hp
          rw [hself, Option.some.injEq] at hc
          exact hc ▸ hsL.mono False.elim
        · by_cases hn : p = t.nextPid
          · subst hn
            obtain rfl := Option.some.inj (hc.symm.trans (State.split_fresh h₃ hp (by omega)))
            exact hsR.mono False.elim
          · rw [State.split_of_ne h₃ hp hn] at hc
            exact hroot₃ ▸ hall p c hc
      · rw [hself, Option.some.injEq] at hc
        exact hc ▸ hsL

/-! ## Writes -/

theorem Path.getLast? {ps : List Pid} {ℓ : Nat} {root : Pid} (h : Path nd root top ℓ ps) : ps.getLast? = some root := by
  induction h with
  | root => rfl
  | step _ _ ih => rw [List.getLast?_cons_cons, ih]

theorem liveDeltas_length_le : ∀ (ds : List Delta) (seen : List Key) (res : List LeafEnt),
    (liveDeltas ds seen res).2.length ≤ res.length + ds.length
  | [], _, _ => Nat.le_refl _
  | d :: ds, seen, res => by
    simp only [liveDeltas]
    split
    · exact (liveDeltas_length_le ds seen res).trans (Nat.add_le_add_left (Nat.le_succ _) _)
    · split
      · exact (liveDeltas_length_le ds _ res).trans (Nat.add_le_add_left (Nat.le_succ _) _)
      · refine (liveDeltas_length_le ds _ _).trans (Nat.le_of_eq ?_)
        simp only [List.length_append, List.length_cons, List.length_nil]
        omega

/-- Each delta adds at most one live entry to those of the base. -/
theorem Chain.live_length_le (c : Chain) : c.live.length ≤ c.base.lents.length + c.deltas.length := by
  have hdeltas := liveDeltas_length_le c.deltas [] []
  have hbase : (liveBase (liveDeltas c.deltas [] []).1 c.base.lents).length ≤ c.base.lents.length :=
    List.length_filter_le _ _
  rw [Chain.live, qsort, List.length_insertionSort, Chain.entries, List.length_append]
  simp only [List.length_nil] at hdeltas
  omega

/-- The leaf after a write, before it is split: within its bounds, or a base
that is too large by eight entries at most. -/
theorem Sized.became (h : Sized (p = t.root) c) (hleaf : c.base.isLeaf = true) {c' : Chain}
    (hc : Became never c op k v c') :
    (¬LEAF_MAX < c'.base.lents.length → Sized (p = t.root) c') ∧
      (LEAF_MAX < c'.base.lents.length → c'.deltas = [] ∧ c'.base.lents.length ≤ LEAF_MAX + CONSOLIDATE_DEPTH) := by
  have hdepth := h.depths.depth
  have hshort := h.short
  have hmax := h.leaf
  simp only [CONSOLIDATE_DEPTH, LEAF_MAX] at hshort hmax ⊢
  obtain ⟨c₁, ⟨-, rfl⟩ | ⟨hcap, -⟩, hcol⟩ := hc
  · have happ : (c₁.appended op k v).depth = c₁.deltas.length + 1 := congrArg (· + 1) hdepth
    rcases hcol with ⟨rfl, hno⟩ | ⟨-, low, high, rfl⟩
    · rw [happ] at hno
      refine ⟨fun hle => ?_, fun hlt => absurd hlt (Nat.not_lt.mpr hmax)⟩
      exact
        { depths := ⟨happ, h.depths⟩
          short := Nat.not_le.mp fun hd => not_lossy_never (hno hd)
          leaf := hmax
          inner := fun hl => absurd hleaf (by rw [show c₁.base.isLeaf = false from hl]; exact Bool.false_ne_true)
          half := fun hl => absurd hleaf (by rw [show c₁.base.isLeaf = false from hl]; exact Bool.false_ne_true) }
    · -- the live entries are the base after a consolidation
      refine ⟨fun hle => sized_leaf (Nat.not_lt.mp hle), fun _ => ⟨rfl, ?_⟩⟩
      have hlive := Chain.live_length_le (c₁.appended op k v)
      change _ ≤ c₁.base.lents.length + (c₁.deltas.length + 1) at hlive
      change (c₁.appended op k v).live.length ≤ _
      omega
  · simp only [CHAIN_CAP] at hcap
    omega

/-- The split of a leaf that a consolidation made too large. -/
theorem splitLeaf_sized {ps : List Pid} (h : Inv (Lossy never) t nd row top none m) (hbusy : t.smoBusy = false)
    (hpath : Path nd t.root top 0 (p :: ps)) (hto : ∀ fuel > top, t.descendWithPath k fuel t.root [] = .ok (p :: ps))
    (hc : (t.map p).head = some c) (hroom : t.nextPid + (1 + t.cascade (p :: ps)) ≤ MAP_CAP)
    (hnil : c.deltas = []) (hfull : LEAF_MAX < c.base.lents.length)
    (hmax : c.base.lents.length ≤ LEAF_MAX + CONSOLIDATE_DEPTH)
    (hrest : ∀ y c, y ≠ p → (t.map y).head = some c → Sized (y = t.root) c) :
    Returns (fun fuel => splitLeaf never fuel k) t fun _ t' => AllSized t' := by
  obtain ⟨c', hl, hc', hh⟩ := h.load (Nat.zero_le _) (hpath.head_mem h.shape)
  obtain rfl : c' = c := Option.some.inj (hc'.symm.trans hc)
  have hlive : c'.live = c'.base.lents := by
    obtain ⟨ds, b⟩ := c'
    obtain rfl : ds = [] := hnil
    exact Chain.live_base hh.sorted
  have hmem : ∀ y ∈ p :: ps, y < MAP_CAP ∧ y < t.nextPid := fun y hy => by
    obtain ⟨ℓ, hℓ, -, hrow⟩ := hpath.mem_row h.shape y hy
    have := h.bound ℓ hℓ y hrow
    exact ⟨this.trans_le h.cap, this⟩
  have hnd : (p :: ps).Nodup := hpath.nodup h.shape
  have hround : Ends (splitRound never (p :: ps) p) { t with smoBusy := true } fun _ t' => AllSized t' := by
    refine splitRound_cases (t := { t with smoBusy := true }) (c := c') tolerable_never hl (fun t' h₁ hlossy => ?_)
      fun llow lhigh rlow rhigh t₁ hi hfull _ _ _ _ h₁ => ?_
    · rw [hlive] at hlossy
      exact absurd (hlossy hfull) not_lossy_never
    · generalize State.freshPid { t with smoBusy := true } = r at h₁ ⊢
      have hcap : t.nextPid < MAP_CAP := by omega
      have hne : t.nextPid ≠ p := (hmem p (by simp)).2.ne'
      have hnext : t₁.nextPid = t.nextPid + 1 := by
        rw [h₁.nextPid, State.setHead_nextPid, State.bindPid_nextPid (t := { t with smoBusy := true })
          (h.cap.trans (Nat.le_add_right _ _))]
      have hroot : t₁.root = t.root := h₁.root.trans State.bindPid_root
      have hself : (t₁.map p).head = some ⟨[], ⟨0, .leaf (c'.live.take (c'.live.length / 2)), llow, lhigh, r⟩⟩ := by
        rw [h₁.map, State.setHead_self]
      have hfresh : (t₁.map t.nextPid).head =
          some ⟨[], ⟨0, .leaf (c'.live.drop (c'.live.length / 2)), rlow, rhigh, c'.base.rightSibling⟩⟩ := by
        rw [h₁.map, State.setHead_of_ne hne]
        exact State.bindPid_self (t := { t with smoBusy := true }) hcap
      have hother : ∀ y, y ≠ p → y ≠ t.nextPid → t₁.map y = t.map y := fun y hyp hyn => by
        rw [h₁.map, State.setHead_of_ne hyp, State.bindPid_of_ne (t := { t with smoBusy := true }) hyn]
      have habove : ∀ y ∈ ps, t₁.map y = t.map y := fun y hy =>
        hother y (fun e' => (List.nodup_cons.mp hnd).1 (e' ▸ hy)) (hmem y (by simp [hy])).2.ne
      have hcas : t₁.cascade (p :: ps) = t.cascade (p :: ps) := State.cascade_congr habove
      have htake : (c'.live.take (c'.live.length / 2)).length ≤ LEAF_MAX := by
        rw [List.length_take, hlive]
        simp only [LEAF_MAX, CONSOLIDATE_DEPTH] at hmax ⊢
        omega
      have hdrop : (c'.live.drop (c'.live.length / 2)).length ≤ LEAF_MAX := by
        rw [List.length_drop, hlive]
        simp only [LEAF_MAX, CONSOLIDATE_DEPTH] at hmax ⊢
        omega
      refine installSep_sized ((h.ladder hpath).congr habove) ⟨_, State.loadHead_of (hmem p (by simp)).1 hself⟩ hnd
        (fun y hy => ?_) (by rw [hroot]; exact Path.getLast? hpath) (by rw [hnext, hcas]; omega) (fun y d hd => ?_)
        fun d hd => ?_
      · rw [hnext]
        exact ⟨(hmem y hy).1, Nat.lt_succ_of_lt (hmem y hy).2⟩
      · by_cases hyp : y = p
        · subst hyp
          obtain rfl := Option.some.inj (hd.symm.trans hself)
          exact sized_leaf htake
        · by_cases hyn : y = t.nextPid
          · subst hyn
            obtain rfl := Option.some.inj (hd.symm.trans hfresh)
            exact sized_leaf hdrop
          · rw [hother y hyp hyn] at hd
            exact hroot ▸ hrest y d hyp hd
      · obtain rfl := Option.some.inj (hd.symm.trans hself)
        exact sized_leaf htake
  refine (splitLeaf_returns hbusy hto hround).mono ?_
  rintro _ t' ⟨t₁, rfl, hall⟩
  exact hall

/-- A write that the map has room for keeps the bounds. -/
theorem writeOp_sized (h : Inv (Lossy never) t nd row top none m) (hbusy : t.smoBusy = false)
    (hkey : key.arg = some k) (hcap : t.nextPid + t.writeTakes op k v ≤ MAP_CAP) (hall : AllSized t) :
    Returns (fun fuel => writeOp never fuel op key v) t fun _ t' => AllSized t' := by
  obtain ⟨p, ps, hk, hpath, hto, -⟩ := h.exists_path k
  have hp := hpath.head_mem h.shape
  obtain ⟨c, -, hc, hh, -⟩ := h.at_leaf hp hk
  have hleaf : c.base.isLeaf = true := hh.kind.mpr (h.level (Nat.zero_le _) hp)
  have hrest : ∀ {t'}, Near p t t' → ∀ y c, y ≠ p → (t'.map y).head = some c → Sized (y = t'.root) c := by
    intro t' hnear y d hy hd
    rw [hnear.map y hy] at hd
    exact hnear.root ▸ hall y d hd
  refine writeOp_cases tolerable_never h hkey hpath hk hc (fun _ => drains_never _ _)
    (fun _ _ hlossy _ => absurd hlossy not_lossy_never) (fun t' c' hnear _ hc' hbec hle _ y d hd => ?_)
    fun t' c' hnear hinv hc' hbec hlt hover _ => ?_
  · by_cases hyp : y = p
    · subst hyp
      obtain rfl := Option.some.inj (hd.symm.trans hc')
      exact hnear.root ▸ ((hall y c hc).became hleaf hbec).1 hle
    · exact hrest hnear y d hyp hd
  · obtain ⟨hnil, hmax⟩ := ((hall p c hc).became hleaf hbec).2 hlt
    obtain ⟨hpath', hcas, hto'⟩ := h.path_near hpath hk hnear hinv
    have hlive : LEAF_MAX < c'.live.length := by
      obtain ⟨c'', -, hc'', hh'⟩ := hinv.load (Nat.zero_le _) hp
      obtain rfl : c'' = c' := Option.some.inj (hc''.symm.trans hc')
      obtain ⟨ds, b⟩ := c''
      obtain rfl : ds = [] := hnil
      rwa [Chain.live_base hh'.sorted]
    refine splitLeaf_sized hinv (hnear.smoBusy.trans hbusy) hpath' hto' hc' ?_ hnil hlt hmax (hrest hnear)
    rw [State.writeTakes, hto] at hcap
    simp only [hc, hover hlive, if_true] at hcap
    rw [hnear.nextPid, hcas]
    exact hcap

/-! ## Runs -/

/-- The map is not exhausted after the call. -/
def Call.HasRoom (t : State) (c : Call) : Prop := ∀ r t', Executes never c t r t' → t'.nextPid ≤ MAP_CAP

/-- The map holds a tree with the values `m`, whose nodes are within their
bounds, and nobody is working on it. -/
structure Standing (t : State) (m : Key → Option DeltaPointer) : Prop where
  intact : Intact never t m
  sized : AllSized t

section

variable {c : Call} {r : Status × Option DeltaPointer}

theorem Executes.of_write (hc : c.write = some (op, key, v)) {st : Status}
    (h : ∃ N, ∀ fuel ≥ N, writeOp never fuel op key v t = .ok (st, t')) : Executes never c t (st, none) t' := by
  obtain ⟨N, hN⟩ := h
  refine ⟨N, fun fuel hfuel => ?_⟩
  rw [Call.exec_write hc]
  show (writeOp never fuel op key v t >>= fun x => Except.ok ((x.1, none), x.2)) = _
  rw [hN fuel hfuel]
  rfl

/-- A call that leaves room in the map had room. -/
theorem Intact.fits (h : Intact never t m) (hroom : c.HasRoom t) : c.Fits never t := by
  obtain ⟨⟨nd, row, top, hinv⟩, hbusy⟩ := h
  refine fun op key v k hc hkey => ⟨fun _ _ _ _ _ _ => drains_never _ _, ?_⟩
  obtain ⟨st, t', hrun, -, hnext⟩ := writeOp_count (v := v) hinv hbusy hkey
  exact hnext ▸ hroom _ t' (.of_write hc hrun)

theorem Standing.call (h : Standing t m) (hroom : c.HasRoom t) :
    ∃ r t', Executes never c t r t' ∧ c.Documented never t t' m r ∧ Standing t' (c.apply r.1 m) := by
  have hfit := h.intact.fits hroom
  obtain ⟨r, t', he, hdoc, hintact⟩ := h.intact.call tolerable_never hfit
  refine ⟨r, t', he, hdoc, hintact, ?_⟩
  obtain ⟨⟨nd, row, top, hinv⟩, hbusy⟩ := h.intact
  cases hc : c.write with
  | some w =>
    obtain ⟨op, key, v⟩ := w
    cases hkey : key.arg with
    | none =>
      have he' : Executes never c t (.inval, none) t :=
        .of_write hc ⟨0, fun fuel _ => by simp only [writeOp, hkey]; rfl⟩
      exact (he.unique he').2 ▸ h.sized
    | some k =>
      obtain ⟨st, t₁, hrun, hall⟩ := writeOp_sized hinv hbusy hkey (hfit op key v k hc hkey).2 h.sized
      exact (he.unique (.of_write hc hrun)).2 ▸ hall
  | none =>
    cases c with
    | get key =>
      cases hkey : key.arg with
      | none =>
        have he' : Executes never (.get key) t (.inval, none) t := ⟨0, fun fuel _ => by
          simp only [Call.exec, indexGet, hkey]
          rfl⟩
        exact (he.unique he').2 ▸ h.sized
      | some k =>
        obtain ⟨r₁, t₁, hrun, hs, -⟩ := indexGet_spec tolerable_never hinv hkey
        exact (he.unique hrun).2 ▸ h.sized.congr hs
    | insert _ _ => cases hc
    | update _ _ => cases hc
    | delete _ => cases hc

/-- A new index is one leaf without entries. -/
theorem standing_new (h : indexNew never = some t) : Standing t fun _ => none := by
  obtain ⟨hinv, hbusy⟩ := indexNew_spec h
  refine ⟨⟨hinv, hbusy⟩, ?_⟩
  cases h
  intro p c hc
  by_cases hp : p = 0
  · subst hp
    cases hc
    exact sized_leaf (Nat.zero_le _)
  · dsimp only at hc
    rw [if_neg hp] at hc
    cases hc

/-- The index stands after every call of a run that has room. -/
theorem standing_of_run (h : Run never (fun t c => c.HasRoom t) t m) : Standing t m := by
  induction h with
  | new h => exact standing_new h
  | call _ hc he ih =>
    obtain ⟨r, t', he', -, hstand⟩ := ih.call hc
    obtain ⟨rfl, rfl⟩ := he.unique he'
    exact hstand

end

end Dlsmc.Index
