import Dlsmc.Index.Restructure

/-!
# Splits

`install_sep` completes a split all the way up (`installSep_spec`), and
`split_leaf` splits a leaf, or leaves the index alone when it lacks memory for
what it checks (`splitLeaf_spec`). `State.cascade` is the number of PIDs that
`install_sep` takes: one for each node above that is full, and one for the root
if all are.
-/

namespace Dlsmc.Index

open BLink

/-- The number of entries of a node. -/
def State.numOf (t : State) (p : Pid) : Nat :=
  match (t.map p).head with
  | some c => c.base.num
  | none => 0

/-- The PIDs that `install_sep` takes for the node at the head of the path. -/
def State.cascade (t : State) : List Pid → Nat
  | _ :: parent :: path => if INTERNAL_MAX < t.numOf parent + 1 then 1 + t.cascade (parent :: path) else 0
  | _ => 1

theorem State.cascade_congr {t t' : State} : ∀ {p : Pid} {path : List Pid}, (∀ x ∈ path, t'.map x = t.map x) →
    t'.cascade (p :: path) = t.cascade (p :: path)
  | _, [], _ => rfl
  | _, q :: path, h => by
    have hq : t'.numOf q = t.numOf q := by
      unfold State.numOf
      rw [h q (by simp)]
    rw [State.cascade, State.cascade, hq, State.cascade_congr fun x hx => h x (List.mem_cons_of_mem _ hx)]

variable {ω : Pattern} {t : State} {n : Node Key Pid} {b : Base} {sep : Key} {child right : Pid}

/-! ## Entries -/

theorem insertEnt_of_notMem {s : Bytes} : ∀ {es : List IdxEnt}, (∀ e ∈ es, e.child ≠ child) →
    insertEnt s child right es = es
  | [], _ => rfl
  | e :: es, h => by
    rw [insertEnt, if_neg (h e (by simp)), insertEnt_of_notMem fun f hf => h f (List.mem_cons_of_mem _ hf)]

theorem insertEnt_append {s : Bytes} {e : IdxEnt} (he : e.child = child) : ∀ {l r : List IdxEnt},
    (∀ f ∈ l, f.child ≠ child) → (∀ f ∈ r, f.child ≠ child) →
    insertEnt s child right (l ++ e :: r) = l ++ e :: ⟨s, right⟩ :: r
  | [], r, _, hr => by rw [List.nil_append, insertEnt, if_pos he, insertEnt_of_notMem hr, List.nil_append]
  | f :: l, r, hl, hr => by
    rw [List.cons_append, insertEnt, if_neg (hl f (by simp)),
      insertEnt_append he (fun g hg => hl g (List.mem_cons_of_mem _ hg)) hr, List.cons_append]

theorem dropSep_entry {es : List IdxEnt} (h : ∀ e ∈ es.head?, e.sep.low = ⊥) :
    (dropSep es).map IdxEnt.entry = es.map IdxEnt.entry := by
  cases es with
  | nil => rfl
  | cons e es => simp [dropSep, IdxEnt.entry, h e rfl]

theorem dropSep_length (es : List IdxEnt) : (dropSep es).length = es.length := by
  cases es <;> rfl

theorem Base.num_internal {es : List IdxEnt} (h : b.ents = .internal es) : b.num = es.length := by
  simp [Base.num, Base.lents, Base.ients, h]

/-! ## Fences -/

theorem Lost.low {b b' : Bytes} {f : WithBot Key} (h : Lost ω b b') (hb : b.low = f ∨ Lossy ω ∧ b.low = ⊥) :
    b'.low = f ∨ Lossy ω ∧ b'.low = ⊥ := by
  rcases h with rfl | ⟨hω, _, rfl⟩
  · exact hb
  · exact .inr ⟨hω, rfl⟩

theorem Lost.high {b b' : Bytes} {f : WithTop Key} (h : Lost ω b b') (hb : b.high = f ∨ Lossy ω ∧ b.high = ⊤) :
    b'.high = f ∨ Lossy ω ∧ b'.high = ⊤ := by
  rcases h with rfl | ⟨hω, _, rfl⟩
  · exact hb
  · exact .inr ⟨hω, rfl⟩

/-! ## The nodes that a split makes -/

/-- An internal node without entries of a leaf. -/
theorem Holds.of_inner {lossy : Prop} {es : List IdxEnt} {low high : Bytes} {r : Pid} {lev : Nat} (hn : n.level ≠ 0)
    (hlev : lev = n.level) (hr : r = n.right) (hlow : low.low = n.low ∨ lossy ∧ low.low = ⊥)
    (hhigh : high.high = n.high ∨ lossy ∧ high.high = ⊤) (hes : es.map IdxEnt.entry = n.ents) :
    Holds lossy n ⟨[], ⟨lev, .internal es, low, high, r⟩⟩ where
  level := hlev
  right := hr
  low := hlow
  high := hhigh
  ents := hes
  kind := ⟨fun h => Bool.noConfusion h, fun h => absurd h hn⟩
  plain _ := rfl
  sorted := List.Pairwise.nil
  inside _ h := by cases h
  deltas _ h := by cases h

theorem Holds.withEnt (h : Holds (Lossy ω) n ⟨[], b⟩) (hn : n.level ≠ 0) {l r : List IdxEnt} {e : IdxEnt}
    (hes : b.ients = l ++ e :: r) (he : e.child = child) (hl : ∀ f ∈ l, f.child ≠ child) (hr : ∀ f ∈ r, f.child ≠ child)
    {low high : Bytes} (hlow : Lost ω b.lowFence low) (hhigh : Lost ω b.highFence high) :
    Holds (Lossy ω)
      { n with ents := l.map IdxEnt.entry ++ (e.sep.low, child) :: (↑sep, right) :: r.map IdxEnt.entry }
      ⟨[], b.withEnt (.copy sep) child right low high⟩ := by
  refine .of_inner hn h.level h.right (hlow.low h.low) (hhigh.high h.high) ?_
  rw [hes, insertEnt_append he hl hr]
  simp [IdxEnt.entry, he]

theorem Holds.lowerHalf (h : Holds (Lossy ω) n ⟨[], b⟩) (hn : n.level ≠ 0) (hfirst : ∀ e ∈ b.ients.head?, e.sep.low = ⊥)
    {llow lhigh : Bytes} (hlow : Lost ω b.lowFence llow) (hhigh : Lost ω (.copy sep) lhigh) :
    Holds (Lossy ω) (n.lower sep right ((b.ients.take (b.num / 2)).map IdxEnt.entry))
      ⟨[], b.lowerHalf llow lhigh right⟩ := by
  refine .of_inner hn h.level rfl (hlow.low h.low) (hhigh.high (.inl rfl)) (dropSep_entry fun e he => hfirst e ?_)
  rw [List.head?_take] at he
  split at he
  · cases he
  · exact he

theorem Holds.upperHalf (h : Holds (Lossy ω) n ⟨[], b⟩) (hn : n.level ≠ 0) {l r : List IdxEnt} {e : IdxEnt}
    (hes : b.ients = l ++ e :: r) (hl : l.length = b.num / 2) {rlow rhigh : Bytes} (hlow : Lost ω (.copy sep) rlow)
    (hhigh : Lost ω b.highFence rhigh) :
    Holds (Lossy ω) (n.upper sep ((⊥, e.child) :: r.map IdxEnt.entry)) ⟨[], b.upperHalf rlow rhigh⟩ := by
  refine .of_inner hn h.level h.right (hlow.low (.inl rfl)) (hhigh.high h.high) ?_
  rw [hes, ← hl, List.drop_left]
  simp [dropSep, IdxEnt.entry, Node.upper]

/-! ## Installing a separator -/

section

variable {nd : Pid → Node Key Pid} {row : Nat → List Pid} {top ℓ : Nat} {m : Key → Option DeltaPointer}
  {parent : Pid} {d : Pending Key Pid}

/-- The entry of a node in its parent. -/
theorem Inv.parent_entry {lossy : Prop} {pend : Option (Pending Key Pid)} (h : Inv lossy t nd row top pend m)
    (hℓ : ℓ < top) (hp : parent ∈ row (ℓ + 1)) (hc : child ∈ (nd parent).kids) :
    ∃ b l e r, t.loadBase parent = .ok b ∧ Holds lossy (nd parent) ⟨[], b⟩ ∧ b.ents = .internal b.ients ∧
      b.ients = l ++ e :: r ∧ e.child = child ∧ (∀ f ∈ l, f.child ≠ child) ∧ (∀ f ∈ r, f.child ≠ child) ∧
      (∀ f ∈ b.ients.tail, f.sep.low ≠ ⊥) ∧ t.numOf parent = b.ients.length := by
  obtain ⟨b, hl, hm, hh, hents, -, hsep, -⟩ := h.load_inner hℓ hp
  have hes : b.ients.map IdxEnt.entry = (nd parent).ents := hh.ents
  have hkids : (nd parent).kids = b.ients.map IdxEnt.child := by
    rw [Node.kids, ← hes, List.map_map]
    rfl
  rw [hkids] at hc
  obtain ⟨e, he, hec⟩ := List.mem_map.mp hc
  obtain ⟨l, r, hlr⟩ := List.append_of_mem he
  have hnd : (b.ients.map IdxEnt.child).Nodup := by
    rw [← hkids]
    exact (h.shape.rows ℓ hℓ.le).nodup.sublist (h.shape.kids_sublist hℓ hp)
  rw [hlr, List.map_append, List.map_cons, List.nodup_append, List.nodup_cons] at hnd
  refine ⟨b, l, e, r, State.loadBase_of hl, hh, hents, hlr, hec, fun f hf hfc => ?_, fun f hf hfc => ?_, hsep, ?_⟩
  · exact hnd.2.2 f.child (List.mem_map_of_mem hf) e.child (by simp) (hfc.trans hec.symm)
  · exact hnd.2.1.1 (hec.trans hfc.symm ▸ List.mem_map_of_mem hf)
  · rw [State.numOf, hm]
    exact Base.num_internal hents

/-- The parent of a node that was split, with the entry that it gets. -/
theorem Inv.withEnt (h : Inv (Lossy ω) t nd row top (some d) m) (hℓ : d.level < top) (hp : parent ∈ row (d.level + 1))
    (hc : d.child ∈ (nd parent).kids) :
    ∃ b, t.loadBase parent = .ok b ∧ t.numOf parent = b.ients.length ∧
      ∀ low high, Lost ω b.lowFence low → Lost ω b.highFence high →
        (b.withEnt (.copy d.sep) d.child d.right low high).num = b.ients.length + 1 ∧
        ∃ nd', Inv (Lossy ω) (t.setHead parent (some ⟨[], b.withEnt (.copy d.sep) d.child d.right low high⟩)) nd' row
            top none m ∧ (nd' parent).low = (nd parent).low ∧ ∀ y, y ≠ parent → nd' y = nd y := by
  have hlev : (nd parent).level ≠ 0 := by rw [h.level hℓ hp]; omega
  obtain ⟨b, l, e, r, hload, hh, hents, hes, hec, hl, hr, -, hnum⟩ := h.parent_entry hℓ hp hc
  have hPents : (nd parent).ents = l.map IdxEnt.entry ++ (e.sep.low, d.child) :: r.map IdxEnt.entry := by
    rw [← show b.ients.map IdxEnt.entry = (nd parent).ents from hh.ents, hes]
    simp [IdxEnt.entry, hec]
  refine ⟨b, hload, hnum, fun low high hlow hhigh => ⟨?_, ?_⟩⟩
  · rw [Base.num_internal rfl, hes, insertEnt_append hec hl hr]
    simp only [List.length_append, List.length_cons]
    omega
  · obtain ⟨nd', hinv, hself, hne⟩ := h.insertSep hℓ hp hPents (hh.withEnt hlev hes hec hl hr hlow hhigh)
    exact ⟨nd', hinv, by rw [hself], hne⟩

/-- The middle of a node with more than `INTERNAL_MAX` entries: an entry with a
separator. -/
theorem exists_middle {es : List IdxEnt} (hs : ∀ e ∈ es.tail, e.sep.low ≠ ⊥) (hlen : INTERNAL_MAX < es.length) :
    ∃ e s, es[es.length / 2]? = some e ∧ e.sep = .copy s := by
  simp only [INTERNAL_MAX] at hlen
  have hmid : es.length / 2 < es.length := by omega
  obtain ⟨s, hs⟩ := Bytes.exists_copy (hs es[es.length / 2] (by
    obtain ⟨f, fs, rfl⟩ := List.exists_cons_of_ne_nil (List.ne_nil_of_length_pos (by omega : 0 < es.length))
    obtain ⟨i, hi⟩ : ∃ i, (f :: fs).length / 2 = i + 1 := ⟨(f :: fs).length / 2 - 1, by omega⟩
    simp only [hi, List.getElem_cons_succ, List.tail_cons]
    exact List.getElem_mem _))
  exact ⟨_, s, List.getElem?_eq_getElem hmid, hs⟩

/-- A node that is too full has a separator in its middle. -/
theorem Inv.middle {lossy : Prop} {pend : Option (Pending Key Pid)} (h : Inv lossy t nd row top pend m) (hℓ : ℓ < top)
    (hp : parent ∈ row (ℓ + 1)) (hm : (t.map parent).head = some ⟨[], b⟩) (hnum : INTERNAL_MAX < b.num) :
    ∃ e s, b.ients[b.num / 2]? = some e ∧ e.sep = .copy s := by
  obtain ⟨b', -, hm', -, hents, -, hsep, -⟩ := h.load_inner hℓ hp
  obtain rfl : b' = b := (Chain.mk.inj (Option.some.inj (hm'.symm.trans hm))).2
  rw [Base.num_internal hents] at hnum ⊢
  exact exists_middle hsep hnum

/-- The halves of an internal node that is too full. -/
theorem Inv.splitInner (h : Inv (Lossy ω) t nd row top none m) (hℓ : ℓ < top) (hp : parent ∈ row (ℓ + 1))
    (hcap : t.nextPid < MAP_CAP) (hm : (t.map parent).head = some ⟨[], b⟩) (hnum : INTERNAL_MAX < b.num) {e : IdxEnt}
    {s : Key} (he : b.ients[b.num / 2]? = some e) (hs : e.sep = .copy s) {rlow rhigh llow lhigh : Bytes}
    (hrlow : Lost ω (.copy s) rlow) (hrhigh : Lost ω b.highFence rhigh) (hllow : Lost ω b.lowFence llow)
    (hlhigh : Lost ω (.copy s) lhigh) :
    ∃ nd' row', Inv (Lossy ω) ((t.bindPid ⟨[], b.upperHalf rlow rhigh⟩).setHead parent
        (some ⟨[], b.lowerHalf llow lhigh t.nextPid⟩)) nd' row' top (some ⟨ℓ + 1, parent, s, t.nextPid⟩) m ∧
      (∀ y, y ≠ parent → y < t.nextPid → nd' y = nd y) ∧ Grows nd nd' row row' top top := by
  obtain ⟨b', -, hm', hh, hents, -⟩ := h.load_inner hℓ hp
  obtain rfl : b' = b := (Chain.mk.inj (Option.some.inj (hm'.symm.trans hm))).2
  obtain ⟨hmid, rfl⟩ := List.getElem?_eq_some_iff.mp he
  have hlev : (nd parent).level ≠ 0 := by rw [h.level hℓ hp]; omega
  have hes : b'.ients.map IdxEnt.entry = (nd parent).ents := hh.ents
  have hlen : b'.num = b'.ients.length := Base.num_internal hents
  simp only [INTERNAL_MAX] at hnum
  -- the entry in the middle, whose separator goes up
  have hsplit : b'.ients = b'.ients.take (b'.num / 2) ++ b'.ients[b'.num / 2] :: b'.ients.drop (b'.num / 2 + 1) := by
    rw [List.getElem_cons_drop, List.take_append_drop]
  have hents' : (nd parent).ents =
      (b'.ients.take (b'.num / 2)).map IdxEnt.entry ++
        (↑s, b'.ients[b'.num / 2].child) :: (b'.ients.drop (b'.num / 2 + 1)).map IdxEnt.entry := by
    have hmap := congrArg (List.map IdxEnt.entry) hsplit
    rw [List.map_append, List.map_cons, hes] at hmap
    rw [hmap, IdxEnt.entry, hs]
    rfl
  have htake : 2 ≤ ((b'.ients.take (b'.num / 2)).map IdxEnt.entry).length := by
    rw [List.length_map, List.length_take]
    omega
  have hdrop : 1 ≤ ((b'.ients.drop (b'.num / 2 + 1)).map IdxEnt.entry).length := by
    rw [List.length_map, List.length_drop]
    omega
  obtain ⟨hlow, hhigh⟩ := h.shape.sep_lt_high hℓ hp hents' (List.ne_nil_of_length_pos (by omega))
  have hfirst : ∀ e ∈ b'.ients.head?, e.sep.low = ⊥ := fun e he => by
    refine ((h.shape.inner ℓ hℓ parent hp).low_first e.entry ?_).1
    rw [← hes, List.head?_map, he]
    rfl
  exact h.splitNode (ℓ := ℓ + 1) hℓ hp hcap hlow hhigh (.inner hents' htake hdrop)
    (hh.lowerHalf hlev hfirst hllow hlhigh)
    (hh.upperHalf hlev hsplit (by rw [List.length_take]; omega) hrlow hrhigh) (by simp) (by simp)

/-- `split_internal` splits a node that is too full; its upper half is left to
install. -/
theorem splitInternal_spec (hω : Tolerable ω) (h : Inv (Lossy ω) t nd row top none m) (hℓ : ℓ < top)
    (hp : parent ∈ row (ℓ + 1)) (hcap : t.nextPid < MAP_CAP) (hnum : INTERNAL_MAX < t.numOf parent) :
    Ends (splitInternal ω parent) t fun r t' => ∃ s nd' row', r = (.copy s, t.nextPid) ∧
      Inv (Lossy ω) t' nd' row' top (some ⟨ℓ + 1, parent, s, t.nextPid⟩) m ∧
      (∀ y, y ≠ parent → y < t.nextPid → nd' y = nd y ∧ t'.map y = t.map y) ∧
      t'.nextPid = t.nextPid + 1 ∧ t'.smoBusy = t.smoBusy ∧ t'.root = t.root := by
  obtain ⟨b, hl, hm, -⟩ := h.load_inner hℓ hp
  rw [State.numOf, hm] at hnum
  obtain ⟨e, s, he, hs⟩ := h.middle hℓ hp hm hnum
  refine splitInternal_ends hω (State.loadBase_of hl) he hs
    fun rlow rhigh llow lhigh t' hrlow hrhigh hllow hlhigh hsame => ?_
  rw [State.freshPid_of_lt hcap] at hsame ⊢
  obtain ⟨nd', row', hinv, hnd', -⟩ := h.splitInner hℓ hp hcap hm hnum he hs hrlow hrhigh hllow hlhigh
  refine ⟨s, nd', row', rfl, hinv.congr hsame, fun y hy hlt => ⟨hnd' y hy hlt, ?_⟩, ?_, ?_, ?_⟩
  · rw [hsame.map, State.setHead_of_ne hy, State.bindPid_of_ne hlt.ne]
  · rw [hsame.nextPid, State.setHead_nextPid, State.bindPid_nextPid (by omega)]
  · rw [hsame.smoBusy, State.setHead_smoBusy, State.bindPid_smoBusy]
  · rw [hsame.root, State.setHead_root, State.bindPid_root]

/-- `install_sep` for the root grows a new one. -/
theorem installSep_root (hω : Tolerable ω) (h : Inv (Lossy ω) t nd row top (some d) m) (hd : d.level = top)
    (hcap : t.nextPid < MAP_CAP) :
    Ends (installSep ω [d.child] d.child (.copy d.sep) d.right) t fun _ t' =>
      (∃ nd' row' top', Inv (Lossy ω) t' nd' row' top' none m) ∧ t'.nextPid = t.nextPid + 1 ∧
        t'.smoBusy = t.smoBusy := by
  obtain ⟨c, hl, -, hh⟩ := h.load (h.shape.sep d rfl).1 h.shape.pending_mem.1
  have hlev : (c.base.level + 1) % 2 ^ 8 = top + 1 := by
    have := h.top_le
    rw [hh.level, h.level (h.shape.sep d rfl).1 h.shape.pending_mem.1, hd]
    omega
  refine Ends.bind (Ends.get (Ends.bind (Ends.lift hl ?_)))
  refine alloc_deref (hω _ rfl) (alloc_deref (hω _ rfl) ?_)
  refine Ends.bind (allocPid_ends (Ends.modify ?_))
  have hs : Same t ((t.tick .newRoot).tick .newRootEnts) := (Same.tick t).trans (.tick _)
  rw [hlev, hs.freshPid, State.freshPid_of_lt hcap]
  obtain ⟨nd', row', hinv, -⟩ := h.growRoot hd hcap
    (R := { Base.internalNew (top + 1) with ents := .internal [⟨.null 0, d.child⟩, ⟨.copy d.sep, d.right⟩] })
    (.of_inner (Nat.succ_ne_zero top) rfl rfl (.inl rfl) (.inl rfl) rfl)
  have hb := hs.bindPid ⟨[], { Base.internalNew (top + 1) with
    ents := .internal [⟨.null 0, d.child⟩, ⟨.copy d.sep, d.right⟩] }⟩
  exact ⟨⟨nd', row', top + 1, hinv.congr ⟨hb.map, hb.nextPid, rfl, hb.smoBusy⟩⟩,
    hb.nextPid.trans (State.bindPid_nextPid (by omega)), hb.smoBusy.trans State.bindPid_smoBusy⟩

/-- `install_sep` completes a split, up to the root. The induction goes up the
path. -/
theorem installSep_spec (hω : Tolerable ω) : ∀ {path : List Pid} {t : State} {nd : Pid → Node Key Pid}
    {row : Nat → List Pid} {d : Pending Key Pid}, Inv (Lossy ω) t nd row top (some d) m →
    Path nd t.root top d.level (d.child :: path) → t.nextPid + t.cascade (d.child :: path) ≤ MAP_CAP →
    Ends (installSep ω (d.child :: path) d.child (.copy d.sep) d.right) t fun _ t' =>
      (∃ nd' row' top', Inv (Lossy ω) t' nd' row' top' none m) ∧
        t'.nextPid = t.nextPid + t.cascade (d.child :: path) ∧ t'.smoBusy = t.smoBusy
  | [], t, nd, row, d, h, hpath, hcap => by
    have hd : d.level = top := by
      have := hpath.length
      have := hpath.le
      simp only [List.length_singleton] at *
      omega
    exact installSep_root hω h hd hcap
  | parent :: path, t, nd, row, d, h, hpath, hcap => by
    obtain ⟨hc, hup⟩ := hpath.uncons
    have hℓ : d.level < top := hup.le
    have hp := hup.head_mem h.shape
    obtain ⟨b, hload, hnum, hwith⟩ := h.withEnt hℓ hp hc
    refine Ends.bind (Ends.get (Ends.bind (Ends.lift hload ?_)))
    refine Ends.bind (cloneInternalInsert_ends hω fun low high t₁ hlow hhigh h₁ => ?_)
    refine Ends.bind (Ends.modify (Ends.bind (retireChain_ends ?_)))
    obtain ⟨hPnum, nd₁, hinv, -, hnd₁⟩ := hwith low high hlow hhigh
    -- the state after the parent got its entry
    have hs : Same (t.setHead parent (some ⟨[], b.withEnt (.copy d.sep) d.child d.right low high⟩))
        ((t₁.setHead parent (some ⟨[], b.withEnt (.copy d.sep) d.child d.right low high⟩)).tick .ebrNode) :=
      (h₁.setHead parent _).trans (.tick _)
    have hinv₂ := hinv.congr hs
    rw [← hnum] at hPnum
    simp only [Option.map_some]
    rw [hPnum]
    rw [State.cascade] at hcap ⊢
    split
    · rename_i hfull
      rw [if_pos hfull] at hcap
      have hnum₂ : INTERNAL_MAX < State.numOf
          ((t₁.setHead parent (some ⟨[], b.withEnt (.copy d.sep) d.child d.right low high⟩)).tick .ebrNode) parent := by
        rw [State.numOf, hs.map, State.setHead_self]
        show INTERNAL_MAX < (b.withEnt (.copy d.sep) d.child d.right low high).num
        rwa [hPnum]
      have hnext : State.nextPid
          ((t₁.setHead parent (some ⟨[], b.withEnt (.copy d.sep) d.child d.right low high⟩)).tick .ebrNode) =
            t.nextPid := hs.nextPid
      refine Ends.seq (splitInternal_spec hω hinv₂ hℓ hp (by rw [hnext]; omega) hnum₂) ?_
      rintro _ t₃ ⟨s, nd₃, row₃, rfl, hinv₃, hframe, hnext₃, hbusy₃, hroot₃⟩
      -- the path above the parent is as it was
      have habove : ∀ y ∈ path, nd₃ y = nd y ∧ t₃.map y = t.map y := by
        intro y hy
        obtain ⟨ℓ', hℓ', hlt, hrow⟩ := hup.tail_mem_row h.shape y hy
        have hyp : y ≠ parent := fun e => absurd (h.shape.level_unique hℓ' hℓ (e ▸ hrow) hp) (by omega)
        obtain ⟨h₁', h₂'⟩ := hframe y hyp (hnext ▸ h.bound ℓ' hℓ' y hrow)
        rw [h₁', h₂', hnd₁ y hyp, hs.map, State.setHead_of_ne hyp]
        exact ⟨rfl, rfl⟩
      have hcas : t₃.cascade (parent :: path) = t.cascade (parent :: path) :=
        State.cascade_congr fun y hy => (habove y hy).2
      have hroot : t₃.root = t.root := hroot₃.trans hs.root
      have hpath₃ : Path nd₃ t₃.root top (d.level + 1) (parent :: path) := by
        rw [hroot]
        exact hup.congr fun y hy => (habove y hy).1
      refine (installSep_spec hω hinv₃ hpath₃ (by rw [hcas, hnext₃, hnext]; omega)).mono ?_
      rintro _ t' ⟨hex, hnext', hbusy'⟩
      refine ⟨hex, ?_, hbusy'.trans (hbusy₃.trans hs.smoBusy)⟩
      rw [hnext', hnext₃, hnext, hcas]
      omega
    · exact Ends.pure ⟨⟨nd₁, row, top, hinv₂⟩, hs.nextPid, hs.smoBusy⟩

end

end Dlsmc.Index
