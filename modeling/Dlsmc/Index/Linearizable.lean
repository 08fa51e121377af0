import Dlsmc.Index.ConcurrentSplit

/-!
# The index is linearizable

Every step of every thread keeps `Good`: the memory holds a tree, every thread
is at or left of the leaf of its key, the owner of `smo_busy` alone is inside a
split, and the history is that of an object whose operations take effect at
once, with the values of the tree (`Atomic`). So the history of every run is
linearizable with respect to `spec`.
-/

namespace Dlsmc.Index.Concurrent

open BLink

/-- The thread is not inside a split. -/
def Pc.Outside : Pc → Prop
  | smo .. => False
  | _ => True

theorem Pc.Outside.ne {pc : Pc} (h : pc.Outside) (w : Write) (q : SmoPc) : pc ≠ .smo w q := by
  rintro rfl
  exact h

theorem Pc.outside_of {pc : Pc} (h : ∀ w q, pc ≠ .smo w q) : pc.Outside := by
  cases pc with
  | smo w q => exact h w q rfl
  | _ => trivial

/-- The invariant: the memory holds the tree `nd`, `row`, `top` with the values
`m`, and every thread knows what it needs of it. -/
structure Good (s : State) (nd : Pid → Node Key Pid) (row : Nat → List Pid) (top : Nat)
    (pend : Option (Pending Key Pid)) (m : Key → Option DeltaPointer) : Prop where
  tree : Tree s.mem nd row top pend m
  addr : ∀ p l, s.mem.head p = some l → l.addr < s.mem.published
  level : ∀ p c, s.mem.chainOf p = some c → c.base.level ≤ top + 1
  held : ∀ t p l, (s.pc t).held = some (p, l) → s.mem.Knows p l
  spot : ∀ t, (s.pc t).At nd row top
  owner : ∀ t w q, s.pc t = .smo w q → s.mem.smoBusy = true ∧ q.Phase s.mem nd row top pend w.arg.key
  alone : ∀ t u w w' q q', s.pc t = .smo w q → s.pc u = .smo w' q' → t = u
  quiet : (∀ t, (s.pc t).Outside) → pend = none
  atomic : Atomic spec (fun _ => none) s.hist s.calls (fun t => (s.pc t).slot) m

/-- The memory holds a tree, and the history is explained by its values. -/
def Sound (s : State) : Prop := ∃ nd row top pend m, Good s nd row top pend m

variable {s s' : State} {M M' : Memory} {nd nd' : Pid → Node Key Pid} {row row' : Nat → List Pid} {top top' : Nat}
  {pend pend' : Option (Pending Key Pid)} {m m' : Key → Option DeltaPointer} {t : Nat} {pc : Pc} {p pid : Pid}
  {w : Write} {g : Get}

theorem slots_update (pcs : Nat → Pc) (t : Nat) (pc : Pc) :
    (fun u => (Function.update pcs t pc u).slot) = Function.update (fun u => (pcs u).slot) t pc.slot := by
  funext u
  by_cases hu : u = t
  · rw [hu, Function.update_self, Function.update_self]
  · rw [Function.update_of_ne hu, Function.update_of_ne hu]

/-- A step that changes no more than the chains of leaves, outside of splits. -/
theorem Good.walk (h : Good s nd row top pend m) {hist : List (Event Op Result)} {calls : Nat}
    (ht : (s.pc t).Outside) (hpc : pc.Outside) (hM : Beside (row 0) s.mem M) (htree : Tree M nd row top pend m')
    (hlevel : ∀ p c, M.chainOf p = some c → s.mem.chainOf p = some c ∨ c.base.level ≤ top + 1)
    (hat : pc.At nd row top) (hheld : ∀ p l, pc.held = some (p, l) → M.Knows p l)
    (hatomic : Atomic spec (fun _ => none) hist calls (Function.update (fun u => (s.pc u).slot) t pc.slot) m') :
    Good ⟨M, Function.update s.pc t pc, hist, calls⟩ nd row top pend m' where
  tree := htree
  addr _ _ hl := hM.fresh.lt h.addr hl
  level p c hc := (hlevel p c hc).elim (h.level p c) id
  held u p l hu := by
    by_cases hut : u = t
    · subst hut
      exact hheld p l (by simpa using hu)
    · exact (h.held u p l (by simpa [Function.update_of_ne hut] using hu)).of_fresh hM.fresh
  spot u := by
    by_cases hut : u = t
    · subst hut
      simpa using hat
    · simpa [Function.update_of_ne hut] using h.spot u
  owner u w q hu := by
    by_cases hut : u = t
    · subst hut
      exact absurd (by simpa using hu) (hpc.ne w q)
    · obtain ⟨hbusy, hq⟩ := h.owner u w q (by simpa [Function.update_of_ne hut] using hu)
      exact ⟨hM.smoBusy.trans hbusy, hq.frame h.tree hM⟩
  alone u v w w' q q' hu hv := by
    have hne : ∀ v w q, Function.update s.pc t pc v = .smo w q → s.pc v = .smo w q := fun v w q hv => by
      by_cases hvt : v = t
      · subst hvt
        exact absurd (by simpa using hv) (hpc.ne w q)
      · simpa [Function.update_of_ne hvt] using hv
    exact h.alone u v w w' q q' (hne u w q hu) (hne v w' q' hv)
  quiet hout := h.quiet fun u => by
    by_cases hut : u = t
    · exact hut ▸ ht
    · have := hout u
      simpa [Function.update_of_ne hut] using this
  atomic := by rw [slots_update]; exact hatomic

/-- A step of the only thread that is inside a split, or goes inside. -/
theorem Good.own (h : Good s nd row top pend m) (hothers : ∀ u, u ≠ t → (s.pc u).Outside)
    (htree : Tree M nd' row' top' pend' m) (hg : Grows nd nd' row row' top top') (hfresh : s.mem.Fresh M)
    (hlevel : ∀ p c, M.chainOf p = some c → s.mem.chainOf p = some c ∨ c.base.level ≤ top + 1)
    (hat : pc.At nd' row' top') (hheld : ∀ p l, pc.held = some (p, l) → M.Knows p l) (hslot : pc.slot = (s.pc t).slot)
    (hin : ∀ w q, pc = .smo w q → M.smoBusy = true ∧ q.Phase M nd' row' top' pend' w.arg.key)
    (hout : pc.Outside → pend' = none) : Good { s.goto t pc with mem := M } nd' row' top' pend' m where
  tree := htree
  addr _ _ hl := hfresh.lt h.addr hl
  level p c hc := ((hlevel p c hc).elim (h.level p c) id).trans (Nat.succ_le_succ hg.top_le)
  held u p l hu := by
    by_cases hut : u = t
    · subst hut
      exact hheld p l (by simpa [State.goto] using hu)
    · exact (h.held u p l (by simpa [State.goto, Function.update_of_ne hut] using hu)).of_fresh hfresh
  spot u := by
    by_cases hut : u = t
    · subst hut
      simpa [State.goto] using hat
    · simpa [State.goto, Function.update_of_ne hut] using (h.spot u).grows hg
  owner u w q hu := by
    by_cases hut : u = t
    · subst hut
      exact hin w q (by simpa [State.goto] using hu)
    · exact absurd (by simpa [State.goto, Function.update_of_ne hut] using hu) ((hothers u hut).ne w q)
  alone u v w w' q q' hu hv := by
    have hself : ∀ v w q, (s.goto t pc).pc v = .smo w q → v = t := fun v w q hv => by
      by_contra hvt
      exact (hothers v hvt).ne w q (by simpa [State.goto, Function.update_of_ne hvt] using hv)
    rw [hself u w q hu, hself v w' q' hv]
  quiet hall := hout (by simpa [State.goto] using hall t)
  atomic := by
    show Atomic spec _ s.hist s.calls (fun u => (Function.update s.pc t pc u).slot) m
    rw [slots_update, hslot, Function.update_eq_self]
    exact h.atomic

/-! ## Memory -/

theorem Beside.refl (ps : List Pid) (M : Memory) : Beside ps M M := ⟨fun _ _ => rfl, rfl, rfl, rfl, .refl M⟩

theorem Beside.flag (ps : List Pid) (M : Memory) (f : Pid → Bool) : Beside ps M { M with consolidating := f } :=
  ⟨fun _ _ => rfl, rfl, rfl, rfl, Nat.le_refl _, fun _ _ hl => .inl hl⟩

theorem Beside.publish {ps : List Pid} (hp : p ∈ ps) (c : Chain) : Beside ps M (M.publish p c) :=
  ⟨fun _ hx => Memory.publish_of_ne fun e => hx (e ▸ hp), rfl, rfl, rfl, .publish M p c⟩

/-! ## The steps of the threads -/

/-- The memory of `s` holds a tree that the tree `nd`, `row`, `top` has grown
into. -/
def Evolves (nd : Pid → Node Key Pid) (row : Nat → List Pid) (top : Nat) (s : State) : Prop :=
  ∃ nd' row' top' pend m, Good s nd' row' top' pend m ∧ Grows nd nd' row row' top top'

theorem Evolves.sound (h : Evolves nd row top s) : Sound s := by
  obtain ⟨nd', row', top', pend, m, hg, -⟩ := h
  exact ⟨nd', row', top', pend, m, hg⟩

/-- The step of the thread is no fault, and keeps the invariant. -/
def Moves (s : State) (t : Nat) (nd : Pid → Node Key Pid) (row : Nat → List Pid) (top : Nat) : Prop :=
  ∃ M pc, (s.pc t).next s.mem = .ok (M, pc) ∧ Evolves nd row top { s.goto t pc with mem := M }

theorem Good.at_of (h : Good s nd row top pend m) {pc₀ : Pc} (hpc : s.pc t = pc₀) : pc₀.At nd row top := hpc ▸ h.spot t

/-- A step that leaves memory and call as they are, but for the flags
`consolidating`. -/
theorem Good.flag (h : Good s nd row top pend m) (f : Pid → Bool) (pc : Pc) {pc₀ : Pc} (hpc : s.pc t = pc₀)
    (h₀ : pc₀.Outside) (hn : pc₀.next s.mem = .ok ({ s.mem with consolidating := f }, pc)) (hout : pc.Outside)
    (hat : pc.At nd row top) (hheld : ∀ p l, pc.held = some (p, l) → s.mem.Knows p l) (hslot : pc.slot = pc₀.slot) :
    Moves s t nd row top := by
  subst hpc
  refine ⟨_, pc, hn, nd, row, top, pend, m, h.walk h₀ hout (.flag _ _ f) h.tree (fun _ _ hc => .inl hc) hat
    (fun p l hl => (hheld p l hl).of_fresh (Beside.flag [] s.mem f).fresh) ?_, .refl⟩
  rw [hslot, Function.update_eq_self]
  exact h.atomic

/-- A step that leaves memory and call as they are. -/
theorem Good.stay (h : Good s nd row top pend m) (pc : Pc) {pc₀ : Pc} (hpc : s.pc t = pc₀) (h₀ : pc₀.Outside)
    (hn : pc₀.next s.mem = .ok (s.mem, pc)) (hout : pc.Outside) (hat : pc.At nd row top)
    (hheld : ∀ p l, pc.held = some (p, l) → s.mem.Knows p l) (hslot : pc.slot = pc₀.slot) : Moves s t nd row top :=
  h.flag s.mem.consolidating pc hpc h₀ hn hout hat hheld hslot

/-- A call that takes effect. -/
theorem Good.perform (h : Good s nd row top pend m) {n : Nat} {o : Op} {r : Result}
    (hs : (s.pc t).slot = .called n o) (hspec : spec m o = (m', r)) (hslot : pc.slot = .done n o r) :
    Atomic spec (fun _ => none) s.hist s.calls (Function.update (fun u => (s.pc u).slot) t pc.slot) m' := by
  have := h.atomic.perform (t := t) hs
  rwa [hspec, ← hslot] at this

/-- What a thread finds at a leaf that is at or left of the one of its key. -/
theorem Good.leaf (h : Good s nd row top pend m) {k : Key} (hp : LeafSpot nd row k p) :
    ∃ l, s.mem.loadHead p = .ok l ∧ s.mem.head p = some l ∧ Holds (Lossy never) (nd p) l.chain ∧
      (l.chain.base.pastFence k = true → LeafSpot nd row k l.chain.base.rightSibling) := by
  obtain ⟨l, hload, hl, hh⟩ := h.tree.load (Nat.zero_le _) hp.1
  exact ⟨l, hload, hl, hh, fun hf => Inv.hop h.tree (Nat.zero_le _) hp.1 hh hf⟩

/-! ### `dlsm_index_get` -/

theorem getRoot_moves (h : Good s nd row top pend m) (hpc : s.pc t = .getRoot g) : Moves s t nd row top :=
  h.stay (.getHead g s.mem.root) hpc trivial rfl trivial (h.tree.spot_root _) Memory.knows_none rfl

theorem getHead_moves (h : Good s nd row top pend m) (hpc : s.pc t = .getHead g pid) : Moves s t nd row top := by
  have hspot : Spot nd row top g.arg.key pid := h.at_of hpc
  obtain ⟨l, hload, hl, hturn⟩ := h.tree.turn hspot
  cases hturn with
  | hop hf hd hs ha =>
    exact h.stay (.getHead g l.chain.base.rightSibling) hpc trivial
      (by simp [Pc.next, Get.visit, hload, hd, hf, bind, Except.bind]) trivial hs Memory.knows_none rfl
  | down q hf hd he hr hs ha =>
    exact h.stay (.getHead g q) hpc trivial
      (by simp [Pc.next, Get.visit, hload, hd, findDelta, hf, he, hr, bind, Except.bind]) trivial hs
      Memory.knows_none rfl
  | leaf hf he hp hv =>
    -- the read takes effect here
    have hvisit : g.visit l.chain = .ok (.ret g.number g.arg.get (readOf (m g.arg.key))) := by
      rw [← hv, Chain.value, Get.visit]
      cases findDelta l.chain.deltas g.arg.key with
      | some d => rfl
      | none => simp only [hf, he, Bool.false_eq_true, if_false]
    refine ⟨s.mem, .ret g.number g.arg.get (readOf (m g.arg.key)), ?_, nd, row, top, pend, m,
      h.walk (by rw [hpc]; trivial) trivial (.refl _ _) h.tree (fun _ _ hc => .inl hc) trivial
        Memory.knows_none
      (h.perform (by rw [hpc]; rfl) ?_ rfl), .refl⟩
    · simp [hpc, Pc.next, hload, hvisit, bind, Except.bind]
    · simp only [spec, mapSpec, Arg.get, g.arg.cast]

/-! ### `write_op` -/

theorem findRoot_moves (h : Good s nd row top pend m) (hpc : s.pc t = .findRoot w) : Moves s t nd row top :=
  h.stay (.findHead w s.mem.root) hpc trivial rfl trivial (h.tree.spot_root _) Memory.knows_none rfl

theorem findHead_moves (h : Good s nd row top pend m) (hpc : s.pc t = .findHead w pid) : Moves s t nd row top := by
  have hspot : Spot nd row top w.arg.key pid := h.at_of hpc
  obtain ⟨l, hload, hl, hturn⟩ := h.tree.turn hspot
  cases hturn with
  | hop hf hd hs ha =>
    exact h.stay (.findHead w l.chain.base.rightSibling) hpc trivial
      (by simp [Pc.next, Write.visit, hload, hf, bind, Except.bind]) trivial hs Memory.knows_none rfl
  | down q hf hd he hr hs ha =>
    exact h.stay (.findHead w q) hpc trivial
      (by simp [Pc.next, Write.visit, hload, hf, he, hr, bind, Except.bind]) trivial hs Memory.knows_none rfl
  | leaf hf he hp hv =>
    exact h.stay (.installHead w pid) hpc trivial
      (by simp [Pc.next, Write.visit, hload, hf, he, bind, Except.bind]) trivial hp Memory.knows_none rfl

theorem installHead_moves (h : Good s nd row top pend m) (hpc : s.pc t = .installHead w pid) :
    Moves s t nd row top := by
  have hspot : LeafSpot nd row w.arg.key pid := h.at_of hpc
  obtain ⟨l, hload, hl, -, hright⟩ := h.leaf hspot
  cases hf : l.chain.base.pastFence w.arg.key with
  | true =>
    exact h.stay (.installHead w l.chain.base.rightSibling) hpc trivial
      (by simp [Pc.next, hload, hf, bind, Except.bind]) trivial (hright hf) Memory.knows_none rfl
  | false =>
    by_cases hcap : CHAIN_CAP ≤ l.chain.depth
    · exact h.stay (.consFlag w pid .drain) hpc trivial (by simp [Pc.next, hload, hf, hcap, bind, Except.bind]) trivial
        hspot Memory.knows_none rfl
    · refine h.stay (.installCas w pid l) hpc trivial (by simp [Pc.next, hload, hf, hcap, bind, Except.bind]) trivial
        ⟨hspot, hf⟩ ?_ rfl
      rintro p l' hp
      obtain ⟨rfl, rfl⟩ := Prod.mk.inj (Option.some.inj hp)
      exact .of_head h.addr hl

/-- The write takes effect when its delta is installed: the leaf covers the key
as long as its head is the one in which the key was not past the fence. -/
theorem installCas_moves {hd : Link} (h : Good s nd row top pend m) (hpc : s.pc t = .installCas w pid hd) :
    Moves s t nd row top := by
  obtain ⟨hspot, hf⟩ : LeafSpot nd row w.arg.key pid ∧ hd.chain.base.pastFence w.arg.key = false :=
    h.at_of hpc
  have hk : s.mem.Knows pid hd := h.held t pid hd (by rw [hpc]; rfl)
  rcases Memory.casHead_cases (c := hd.chain.appended w.op w.arg.key w.v) hk with hcas | ⟨hhead, hcas⟩
  · exact h.stay (.installHead w pid) hpc trivial (by simp only [Pc.next, hcas]) trivial hspot Memory.knows_none rfl
  · obtain ⟨l, -, hl, hh⟩ := h.tree.load (Nat.zero_le _) hspot.1
    obtain rfl : l = hd := Option.some.inj (hl.symm.trans hhead)
    have hc := Memory.chainOf_of hhead
    have htree : Tree (s.mem.publish pid (l.chain.appended w.op w.arg.key w.v)) nd row top pend
        (written m w.op w.arg.key w.v) := by
      rw [Tree, Memory.view_publish]
      exact h.tree.setAppended hspot.1 hc hh (h.tree.covers (Nat.zero_le _) hspot.1 hspot.2 hc hf)
    have hlevel : l.chain.base.level ≤ top + 1 := h.level pid _ hc
    have hgood : ∀ pc : Pc, pc.Outside → pc.At nd row top → pc.held = none →
        pc.slot = .done w.number w.made (.ok, none) →
        Evolves nd row top { s.goto t pc with mem := s.mem.publish pid (l.chain.appended w.op w.arg.key w.v) } :=
      fun pc hout hat hheld hslot =>
        ⟨nd, row, top, pend, _, h.walk (by rw [hpc]; trivial) hout (.publish hspot.1 _) htree
          (Memory.level_publish hlevel) hat (hheld ▸ Memory.knows_none)
          (h.perform (by rw [hpc]; rfl) (by simp only [spec, mapSpec, Write.made, w.arg.cast]) hslot), .refl⟩
    refine ⟨s.mem.publish pid (l.chain.appended w.op w.arg.key w.v),
      if CONSOLIDATE_DEPTH ≤ l.chain.depth + 1 then .consFlag w pid .collapse else .checkHead w pid,
      by simp only [hpc, Pc.next, hcas], ?_⟩
    split
    · exact hgood _ trivial hspot rfl rfl
    · exact hgood _ trivial hspot rfl rfl

theorem checkHead_moves (h : Good s nd row top pend m) (hpc : s.pc t = .checkHead w pid) : Moves s t nd row top := by
  have hspot : LeafSpot nd row w.arg.key pid := h.at_of hpc
  obtain ⟨l, hload, -⟩ := h.leaf hspot
  cases hb : l.chain.base.isLeaf && decide (LEAF_MAX < l.chain.base.num) with
  | true =>
    exact h.stay (.smoFlag w) hpc trivial (by simp [Pc.next, hload, hb, bind, Except.bind]) trivial trivial
      Memory.knows_none rfl
  | false =>
    exact h.stay w.done hpc trivial (by simp [Pc.next, hload, hb, bind, Except.bind]) trivial trivial
      Memory.knows_none rfl

/-! ### `try_consolidate` -/

/-- What follows `try_consolidate` is where the call stood before it. -/
theorem Write.consolidated_spec (top : Nat) (why : Purpose) (hp : LeafSpot nd row w.arg.key pid) :
    (w.consolidated pid why).Outside ∧ (w.consolidated pid why).At nd row top ∧ (w.consolidated pid why).held = none ∧
      (w.consolidated pid why).slot = (Pc.consEnd w pid why).slot := by
  cases why with
  | drain => exact ⟨trivial, hp, rfl, rfl⟩
  | collapse => exact ⟨trivial, hp, rfl, rfl⟩

theorem consFlag_moves {why : Purpose} (h : Good s nd row top pend m) (hpc : s.pc t = .consFlag w pid why) :
    Moves s t nd row top := by
  have hspot : LeafSpot nd row w.arg.key pid := h.at_of hpc
  cases hflag : s.mem.consolidating pid with
  | true =>
    obtain ⟨hout, hat, hheld, hslot⟩ := Write.consolidated_spec top why hspot
    exact h.stay (w.consolidated pid why) hpc trivial (by simp [Pc.next, hflag]) hout hat
      (hheld ▸ Memory.knows_none) hslot
  | false =>
    exact h.flag (Function.update s.mem.consolidating pid true) (.consHead w pid why 0) hpc trivial
      (by simp only [Pc.next, hflag, Bool.false_eq_true, if_false]) trivial hspot Memory.knows_none rfl

theorem consHead_moves {why : Purpose} {n : Nat} (h : Good s nd row top pend m)
    (hpc : s.pc t = .consHead w pid why n) : Moves s t nd row top := by
  have hspot : LeafSpot nd row w.arg.key pid := h.at_of hpc
  obtain ⟨l, hload, hl, -⟩ := h.leaf hspot
  have hend : ∀ pc, pc = .consEnd w pid why →
      (Pc.consHead w pid why n).next s.mem = .ok (s.mem, pc) → Moves s t nd row top := by
    rintro _ rfl hn
    exact h.stay _ hpc trivial hn trivial hspot Memory.knows_none rfl
  by_cases hd : l.chain.deltas = []
  · exact hend _ rfl (by simp [Pc.next, hload, hd, bind, Except.bind])
  · cases hleaf : l.chain.base.isLeaf with
    | false => exact hend _ rfl (by simp [Pc.next, hload, hd, hleaf, bind, Except.bind])
    | true =>
      refine h.stay (.consCas w pid why n l) hpc trivial (by simp [Pc.next, hload, hd, hleaf, bind, Except.bind])
        trivial hspot ?_ rfl
      rintro p l' hp
      obtain ⟨rfl, rfl⟩ := Prod.mk.inj (Option.some.inj hp)
      exact .of_head h.addr hl

theorem consCas_moves {why : Purpose} {n : Nat} {hd : Link} (h : Good s nd row top pend m)
    (hpc : s.pc t = .consCas w pid why n hd) : Moves s t nd row top := by
  have hspot : LeafSpot nd row w.arg.key pid := h.at_of hpc
  have hk : s.mem.Knows pid hd := h.held t pid hd (by rw [hpc]; rfl)
  rcases Memory.casHead_cases
    (c := ⟨[], hd.chain.consolidated hd.chain.base.lowFence hd.chain.base.highFence⟩) hk with hcas | ⟨hhead, hcas⟩
  · have hn : (Pc.consCas w pid why n hd).next s.mem =
      .ok (s.mem, if n + 1 < 4 then .consHead w pid why (n + 1) else .consEnd w pid why) := by simp only [Pc.next, hcas]
    split at hn
    · exact h.stay _ hpc trivial hn trivial hspot Memory.knows_none rfl
    · exact h.stay _ hpc trivial hn trivial hspot Memory.knows_none rfl
  · obtain ⟨l, -, hl, hh⟩ := h.tree.load (Nat.zero_le _) hspot.1
    obtain rfl : l = hd := Option.some.inj (hl.symm.trans hhead)
    -- the values of the leaf are as they were
    have htree := Inv.setConsolidated h.tree hspot.1 (Memory.chainOf_of hhead) hh
      (.inl rfl : Lost never l.chain.base.lowFence l.chain.base.lowFence)
      (.inl rfl : Lost never l.chain.base.highFence l.chain.base.highFence)
    rw [← Memory.view_publish] at htree
    refine ⟨_, .consEnd w pid why, by simp only [hpc, Pc.next, hcas], nd, row, top, pend, m,
      h.walk (by rw [hpc]; trivial) trivial (.publish hspot.1 _) htree (Memory.level_publish (Nat.zero_le _)) hspot
        Memory.knows_none ?_, .refl⟩
    have hslot : (Pc.consEnd w pid why).slot = (s.pc t).slot := by rw [hpc]; rfl
    rw [hslot, Function.update_eq_self]
    exact h.atomic

theorem consEnd_moves {why : Purpose} (h : Good s nd row top pend m) (hpc : s.pc t = .consEnd w pid why) :
    Moves s t nd row top := by
  have hspot : LeafSpot nd row w.arg.key pid := h.at_of hpc
  obtain ⟨hout, hat, hheld, hslot⟩ := Write.consolidated_spec top why hspot
  exact h.flag _ (w.consolidated pid why) hpc trivial rfl hout hat (hheld ▸ Memory.knows_none) hslot

/-! ### `split_leaf` -/

theorem smoFlag_moves (h : Good s nd row top pend m) (hpc : s.pc t = .smoFlag w) : Moves s t nd row top := by
  cases hbusy : s.mem.smoBusy with
  | true => exact h.stay w.done hpc trivial (by simp [Pc.next, hbusy]) trivial trivial Memory.knows_none rfl
  | false =>
    have hall : ∀ u, (s.pc u).Outside := fun u => Pc.outside_of fun w q hu => by
      have := (h.owner u w q hu).1
      rw [hbusy] at this
      cases this
    obtain rfl := h.quiet hall
    refine ⟨{ s.mem with smoBusy := true }, .smo w .pathRoot,
      by simp only [hpc, Pc.next, hbusy, Bool.false_eq_true, if_false], nd, row, top, none, m,
      h.own (fun u _ => hall u) (h.tree.transport (fun _ _ _ _ => rfl) rfl h.tree.bound h.tree.cap fun _ => rfl) .refl
        ⟨Nat.le_refl _, fun _ _ hl => .inl hl⟩ (fun _ _ hc => .inl hc) trivial Memory.knows_none (by rw [hpc]; rfl) ?_
        fun _ => rfl, .refl⟩
    rintro w' q hq
    cases hq
    exact ⟨rfl, rfl⟩

theorem smo_moves {q : SmoPc} (h : Good s nd row top pend m) (hpc : s.pc t = .smo w q)
    (hroom : q.allocates = true → s.mem.nextPid < MAP_CAP) : Moves s t nd row top := by
  have hothers : ∀ u, u ≠ t → (s.pc u).Outside := fun u hu => Pc.outside_of fun w' q' hq =>
    hu (h.alone u t w' w q' q hq hpc)
  obtain ⟨hbusy, hphase⟩ := h.owner t w q hpc
  by_cases hq : q = .unlock
  · subst hq
    obtain rfl : pend = none := hphase
    exact ⟨{ s.mem with smoBusy := false }, w.done, by rw [hpc]; rfl, nd, row, top, none, m,
      h.own hothers (h.tree.transport (fun _ _ _ _ => rfl) rfl h.tree.bound h.tree.cap fun _ => rfl) .refl
        ⟨Nat.le_refl _, fun _ _ hl => .inl hl⟩ (fun _ _ hc => .inl hc) trivial
        Memory.knows_none (by rw [hpc]; rfl)
        (fun w' q' hq' => absurd hq' (Pc.Outside.ne (show w.done.Outside from trivial) w' q')) fun _ => rfl, .refl⟩
  · obtain ⟨M, q', nd', row', top', pend', hn, hl⟩ := SmoPc.next_goes h.tree h.addr hphase
      (fun x l hx => h.held t x l (by rw [hpc]; exact hx)) hroom hq
    refine ⟨M, .smo w q', by simp [hpc, Pc.next, hn, bind, Except.bind], nd', row', top', pend', m,
      h.own hothers hl.tree hl.grows hl.fresh hl.level trivial hl.held (by rw [hpc]; rfl) ?_ fun hout =>
        hout.elim, hl.grows⟩
    rintro w' q'' hq''
    cases hq''
    exact ⟨hl.smoBusy.trans hbusy, hl.phase⟩

/-! ## Runs -/

/-- The thread is in the middle of a call. -/
def Pc.Working : Pc → Prop
  | idle | ret .. | fault _ => False
  | _ => True

theorem step_next (hw : (s.pc t).Working) (hn : (s.pc t).next s.mem = .ok (M, pc)) :
    step s (.next t) = some { s.goto t pc with mem := M } := by
  cases hpc : s.pc t with
  | idle => exact (hpc ▸ hw : Pc.idle.Working).elim
  | ret n o r => exact (hpc ▸ hw : (Pc.ret n o r).Working).elim
  | fault f => exact (hpc ▸ hw : (Pc.fault f).Working).elim
  | _ => simp only [step, hpc, hpc ▸ hn]

theorem Moves.evolves (h : Moves s t nd row top) (hw : (s.pc t).Working) (hstep : step s (.next t) = some s') :
    Evolves nd row top s' := by
  obtain ⟨M, pc, hn, hs⟩ := h
  rw [step_next hw hn, Option.some.injEq] at hstep
  exact hstep ▸ hs

/-- A call that works takes its next step, without a fault. -/
theorem Good.moves (h : Good s nd row top pend m) (hw : (s.pc t).Working) (hroom : hasRoom s (.next t) = true) :
    Moves s t nd row top := by
  cases hpc : s.pc t with
  | idle => exact (hpc ▸ hw : Pc.idle.Working).elim
  | ret n o r => exact (hpc ▸ hw : (Pc.ret n o r).Working).elim
  | fault f => exact (hpc ▸ hw : (Pc.fault f).Working).elim
  | getRoot g => exact getRoot_moves h hpc
  | getHead g pid => exact getHead_moves h hpc
  | findRoot w => exact findRoot_moves h hpc
  | findHead w pid => exact findHead_moves h hpc
  | installHead w pid => exact installHead_moves h hpc
  | installCas w pid hd => exact installCas_moves h hpc
  | checkHead w pid => exact checkHead_moves h hpc
  | consFlag w pid why => exact consFlag_moves h hpc
  | consHead w pid why n => exact consHead_moves h hpc
  | consCas w pid why n hd => exact consCas_moves h hpc
  | consEnd w pid why => exact consEnd_moves h hpc
  | smoFlag w => exact smoFlag_moves h hpc
  | smo w q =>
    refine smo_moves h hpc fun hq => ?_
    have hall : (Pc.smo w q).allocates = true := by
      cases q <;> first | rfl | cases hq
    simpa [hasRoom, hpc, hall] using hroom

theorem Good.ret {n : Nat} {o : Op} {r : Result} (h : Good s nd row top pend m) (hpc : s.pc t = .ret n o r) :
    Good { s.goto t .idle with hist := s.hist ++ [.ret n r] } nd row top pend m :=
  h.walk (by rw [hpc]; trivial) trivial (.refl _ _) h.tree (fun _ _ hc => .inl hc) trivial
    Memory.knows_none
    (h.atomic.ret (t := t) (by rw [hpc]; rfl))

/-! ## Calls -/

namespace Op

variable {n : Nat} {key : Bytes} {k : Key} {op : DeltaOp} {v : DeltaPointer}

theorem start_get_none (h : key.arg = none) : (get key).start n = .ret n (.get key) (.inval, none) := by
  unfold start
  dsimp only
  split
  · rfl
  · rename_i hk
    cases h.symm.trans hk

theorem start_get (h : key.arg = some k) : (get key).start n = .getRoot ⟨n, ⟨key, k, h⟩⟩ := by
  unfold start
  dsimp only
  split
  · rename_i hk
    cases h.symm.trans hk
  · rename_i hk
    cases h.symm.trans hk
    rfl

theorem start_write_none (h : key.arg = none) :
    (write op key v).start n = .ret n (.write op key v) (.inval, none) := by
  unfold start
  dsimp only
  split
  · rfl
  · rename_i hk
    cases h.symm.trans hk

theorem start_write (h : key.arg = some k) : (write op key v).start n = .findRoot ⟨n, op, ⟨key, k, h⟩, v⟩ := by
  unfold start
  dsimp only
  split
  · rename_i hk
    cases h.symm.trans hk
  · rename_i hk
    cases h.symm.trans hk
    rfl

/-- A call begins with its search, or is refused. -/
theorem start_spec (n : Nat) (o : Op) (nd : Pid → Node Key Pid) (row : Nat → List Pid) (top : Nat) :
    (o.start n).Outside ∧ (o.start n).At nd row top ∧ (o.start n).held = none ∧
      ((o.start n).slot = .called n o ∨
        (o.start n).slot = .done n o (.inval, none) ∧ ∀ m, spec m o = (m, .inval, none)) := by
  cases o with
  | get key =>
    cases hk : key.arg with
    | none =>
      rw [start_get_none hk]
      exact ⟨trivial, trivial, rfl, .inr ⟨rfl, fun m => by simp only [spec, mapSpec, hk]⟩⟩
    | some k =>
      rw [start_get hk]
      exact ⟨trivial, trivial, rfl, .inl rfl⟩
  | write op key v =>
    cases hk : key.arg with
    | none =>
      rw [start_write_none hk]
      exact ⟨trivial, trivial, rfl, .inr ⟨rfl, fun m => by simp only [spec, mapSpec, hk]⟩⟩
    | some k =>
      rw [start_write hk]
      exact ⟨trivial, trivial, rfl, .inl rfl⟩

end Op

theorem Good.call (h : Good s nd row top pend m) (hpc : s.pc t = .idle) (o : Op) :
    Good { s.goto t (o.start s.calls) with hist := s.hist ++ [.call s.calls o], calls := s.calls + 1 } nd row top pend
      m := by
  obtain ⟨hout, hat, hheld, hslot⟩ := Op.start_spec s.calls o nd row top
  have hcall := h.atomic.call (t := t) (by rw [hpc]; rfl) o
  refine h.walk (by rw [hpc]; trivial) hout (.refl _ _) h.tree (fun _ _ hc => .inl hc) hat
    (hheld ▸ Memory.knows_none) ?_
  rcases hslot with hslot | ⟨hslot, hspec⟩
  · exact hslot ▸ hcall
  · -- a call that is refused takes effect at once
    have hdone := hcall.perform (Function.update_self ..)
    rwa [hspec m, Function.update_idem, ← hslot] at hdone

/-- Every step keeps the invariant, and the tree grows. -/
theorem Good.evolve {a : Act} (h : Good s nd row top pend m) (hroom : hasRoom s a = true) (hstep : step s a = some s') :
    Evolves nd row top s' := by
  cases a with
  | call t o =>
    cases hpc : s.pc t with
    | idle =>
      simp only [Concurrent.step, hpc, Option.some.injEq] at hstep
      exact ⟨nd, row, top, pend, m, hstep ▸ h.call hpc o, .refl⟩
    | _ => simp [Concurrent.step, hpc] at hstep
  | next t =>
    by_cases hw : (s.pc t).Working
    · exact (h.moves hw hroom).evolves hw hstep
    · cases hpc : s.pc t with
      | idle => simp [Concurrent.step, hpc] at hstep
      | fault f => simp [Concurrent.step, hpc] at hstep
      | ret n o r =>
        simp only [Concurrent.step, hpc, Option.some.injEq] at hstep
        exact ⟨nd, row, top, pend, m, hstep ▸ h.ret hpc, .refl⟩
      | _ => exact absurd (by rw [hpc]; trivial) hw

theorem Sound.step {a : Act} (h : Sound s) (hroom : hasRoom s a = true) (hstep : step s a = some s') : Sound s' := by
  obtain ⟨_, _, _, _, _, hg⟩ := h
  exact (hg.evolve hroom hstep).sound

theorem Memory.head_new {l : Link} (h : Memory.new.head p = some l) : l = ⟨0, ⟨[], Base.leafNew⟩⟩ := by
  unfold new at h
  dsimp only at h
  split at h
  · exact (Option.some.inj h).symm
  · cases h

theorem Tree.new : ∃ nd row, Tree .new nd row 0 none fun _ => none :=
  have hempty : Chain.value ⟨[], Base.leafNew⟩ = fun _ => none := rfl
  ⟨_, _, hempty ▸ Inv.single rfl rfl .nil Nat.zero_lt_one (by decide) fun _ => rfl⟩

theorem Sound.initial : Sound State.initial := by
  have hchain : ∀ p c, Memory.new.chainOf p = some c → c.base.level ≤ 0 + 1 := fun p c hc => by
    obtain ⟨l, hl, rfl⟩ := Option.map_eq_some_iff.mp hc
    rw [Memory.head_new hl]
    exact Nat.zero_le _
  have hidle : Pc.idle.Outside := trivial
  obtain ⟨nd, row, htree⟩ := Tree.new
  exact ⟨nd, row, 0, none, fun _ => none,
    { tree := htree
      addr := fun p l hl => Memory.head_new hl ▸ Nat.zero_lt_one
      level := hchain
      held := fun _ => Memory.knows_none
      spot := fun _ => trivial
      owner := fun _ w q hpc => absurd hpc (Pc.Outside.ne hidle w q)
      alone := fun _ _ w _ q _ hpc _ => absurd hpc (Pc.Outside.ne hidle w q)
      quiet := fun _ => rfl
      atomic := .init }⟩

/-- In every reachable state the memory holds a tree, and the history is
explained by its values. -/
theorem sound_of_reach (h : machine.ReachBy (fun s a => hasRoom s a = true) s) : Sound s :=
  h.invariant (fun _ hi => hi ▸ .initial) fun _ _ _ _ hs hc hstep => hs.step hc hstep

/-- The calls and results of every run are those of a map from keys, as the index
takes them, to values. -/
theorem index_linearizable (h : machine.ReachBy (fun s a => hasRoom s a = true) s) :
    Linearizable spec (fun _ => none) s.hist := by
  obtain ⟨_, _, _, _, _, hg⟩ := sound_of_reach h
  exact hg.atomic.linearizable

/-- The value that the runs below write. -/
def value : DeltaPointer := ⟨0, 0, 0⟩

/-- The insertion `i` of thread `t`, alone: every eighth collapses the chain. -/
def insertActs (t i : Nat) : List Act :=
  .call t (.write .insert (.copy [UInt8.ofNat (7 * i)]) value) ::
    List.replicate (if (i + 1) % 8 = 0 then 10 else 6) (.next t)

/-- Thread 0 inserts forty keys; in the last insertion it has swapped the left
half of the leaf in and nothing else, when thread 1 inserts the key 240, in the
right half, and begins to read it. -/
def halfSplitActs : List Act :=
  ((List.range 39).flatMap (insertActs 0) : List Act) ++
    ((Act.call 0 (.write .insert (.copy [17]) value) :: List.replicate 15 (.next 0) : List Act) ++
      ((Act.call 1 (.write .insert (.copy [240]) value) :: List.replicate 7 (.next 1) : List Act) ++
        ([Act.call 1 (.get (.copy [240]))] : List Act)))

theorem index_linearizable_half_split :
    ∃ s, machine.ReachBy (fun s a => hasRoom s a = true) s ∧ (s.pc 0).slot.number = some 39 ∧ s.mem.root = 0 ∧
      s.mem.nextPid = 2 ∧ s.hist.getLast? = some (.ret 41 (.ok, some value)) ∧
      Linearizable spec (fun _ => none) s.hist := by
  obtain ⟨s, hr, hs⟩ := machine.exists_reachBy_of_run (C := fun s a => hasRoom s a = true) (c := hasRoom)
    (fun _ _ h => h) (s := State.initial) (l := halfSplitActs ++ List.replicate 4 (.next 1))
    (p := fun s => decide ((s.pc 0).slot.number = some 39) && s.mem.root == 0 && s.mem.nextPid == 2 &&
      decide (s.hist.getLast? = some (.ret 41 (.ok, some value)))) rfl (by decide +kernel)
  simp only [Bool.and_eq_true, beq_iff_eq, decide_eq_true_eq] at hs
  obtain ⟨⟨⟨h₁, h₂⟩, h₃⟩, h₄⟩ := hs
  exact ⟨s, hr, h₁, h₂, h₃, h₄, index_linearizable hr⟩

/-! ## Long keys -/

/-- The key an operation is given, however long it is. -/
def Bytes.whole : Bytes → Option Key
  | .null 0 => some []
  | .null (_ + 1) => none
  | .copy k => some k

/-- The cast of the length leaves nothing of `2 ^ 32` bytes. -/
theorem arg_of_length {k : Key} (hk : List.length k = 2 ^ 32) : (Bytes.copy k).arg = some [] := by
  show some (List.take (List.length k % 2 ^ 32) k) = some []
  rw [hk, Nat.mod_self]
  rfl

/-- What is inserted under a key of `2 ^ 32` bytes is read under the empty one. -/
theorem exists_reads_long {k : Key} (hk : List.length k = 2 ^ 32) :
    ∃ s, machine.ReachBy (fun s a => hasRoom s a = true) s ∧
      s.hist = [.call 0 (.write .insert (.copy k) value), .ret 0 (.ok, none), .call 1 (.get (.copy [])),
        .ret 1 (.ok, some value)] := by
  have harg := arg_of_length hk
  have hcall : machine.step State.initial (.call 0 (.write .insert (.copy k) value)) =
      some { State.initial.goto 0 (.findRoot ⟨0, .insert, ⟨.copy k, [], harg⟩, value⟩) with
        hist := [.call 0 (.write .insert (.copy k) value)], calls := 1 } := by
    rw [← Op.start_write (n := 0) harg]
    rfl
  have hr := Machine.ReachBy.step (M := machine) (C := fun s a => hasRoom s a = true) (.init rfl)
    (hasRoom.eq_1 ..) hcall
  exact ⟨_, hr.of_runBy (c := hasRoom) (l := List.replicate 6 (.next 0) ++
    (Act.call 0 (.get (.copy [])) :: List.replicate 3 (.next 0) : List Act)) (fun _ _ h => h) rfl, rfl⟩

/-- Without a write of the empty key nothing is read under it. -/
theorem Legal.result_eq {k : Key} (hk : k ≠ []) : ∀ {es : List (Effect Op Result)} {m : Key → Option DeltaPointer},
    Legal (mapSpec Bytes.whole) m es → m [] = none →
    (∀ e ∈ es, e.op = .write .insert (.copy k) value ∨ e.op = .get (.copy [])) →
    ∀ e ∈ es, e.op = .get (.copy []) → e.result = (.notfound, none)
  | e :: es, m, h, hm, hes, f, hf, hop => by
    have hm' : (mapSpec Bytes.whole m e.op).1 [] = none := by
      rcases hes e List.mem_cons_self with he | he
      · rw [he]
        exact (Function.update_of_ne (Ne.symm hk) _ _).trans hm
      · rwa [he]
    rcases List.mem_cons.mp hf with rfl | hf
    · have hres := h.1
      rw [hop] at hres
      rw [← hres]
      show readOf (m []) = _
      rw [hm]
      rfl
    · exact Legal.result_eq hk h.2 hm' (fun e he => hes e (List.mem_cons_of_mem _ he)) f hf hop

/-- With keys that are not cut the index is not linearizable. -/
theorem index_not_linearizable_long :
    ∃ k : Key, List.length k = 2 ^ 32 ∧ ∃ s, machine.ReachBy (fun s a => hasRoom s a = true) s ∧
      s.hist = [.call 0 (.write .insert (.copy k) value), .ret 0 (.ok, none), .call 1 (.get (.copy [])),
        .ret 1 (.ok, some value)] ∧
      ¬Linearizable (mapSpec Bytes.whole) (fun _ => none) s.hist := by
  obtain ⟨k, hk⟩ : ∃ k : Key, List.length k = 2 ^ 32 := ⟨List.replicate (2 ^ 32) 0, List.length_replicate⟩
  obtain ⟨s, hr, hhist⟩ := exists_reads_long hk
  refine ⟨k, hk, s, hr, hhist, ?_⟩
  rintro ⟨es, hes⟩
  rw [hhist] at hes
  have hne : k ≠ [] := by
    rintro rfl
    exact absurd hk (Nat.ne_of_lt (Nat.pow_pos Nat.two_pos))
  have hops : ∀ e ∈ es, e.op = .write .insert (.copy k) value ∨ e.op = .get (.copy []) := fun e he => by
    have := hes.called e he
    simp only [List.mem_cons, Event.call.injEq, reduceCtorEq, List.not_mem_nil, false_or, or_false] at this
    exact this.imp And.right And.right
  obtain ⟨e, he, hnum, hres⟩ := hes.returned 1 (.ok, some value) (by simp)
  have hop : e.op = .get (.copy []) := by
    have := hes.called e he
    simp only [List.mem_cons, Event.call.injEq, reduceCtorEq, List.not_mem_nil, false_or, or_false, hnum,
      one_ne_zero, false_and, true_and] at this
    exact this
  have := Legal.result_eq hne hes.legal rfl hops e he hop
  rw [hres] at this
  cases this

end Dlsmc.Index.Concurrent
