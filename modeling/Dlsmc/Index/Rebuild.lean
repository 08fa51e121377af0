import Dlsmc.Index.Building

/-!
# Consolidation and the pieces of a split

What `try_consolidate` and the functions that rebuild nodes for a split leave,
as changes of the map (`State.setHead`, `State.bindPid`), for tolerable
patterns. `attempt` tells from the pattern alone whether a consolidation finds
its memory.
-/

namespace Dlsmc.Index

variable {ω : Pattern} {t : State} {p : Pid}

/-- The base that a consolidation makes of a leaf. -/
def Chain.consolidated (c : Chain) (low high : Bytes) : Base :=
  { Base.leafNew with
    ents := .leaf c.live
    lowFence := low
    highFence := high
    rightSibling := c.base.rightSibling }

/-- A consolidation of `c` from allocation number `n`: where it stops when an
allocation fails that it needs. -/
def attempt (ω : Pattern) (c : Chain) (n : Nat) : Option Nat :=
  match materializeFails ω c n with
  | some n' => some n'
  | none =>
    if ω .consolidated (resAt c n + c.live.length) then some (resAt c n + c.live.length + 1) else none

theorem lossy_of_attempt {c : Chain} {n n' : Nat} (h : attempt ω c n = some n') : Lossy ω := by
  unfold attempt at h
  split at h
  · exact lossy_of_materializeFails ‹_›
  · split at h
    · exact ⟨_, _, ‹_›⟩
    · cases h

/-! ## Consolidation -/

theorem consolidate_fails {c : Chain} {n : Nat} (hl : t.loadHead p = .ok c) (hd : c.deltas ≠ [])
    (hleaf : c.base.isLeaf = true) (h : attempt ω c t.clock = some n) :
    Ends (consolidate ω p) t fun _ t' => AtClock t n t' := by
  refine Ends.bind (Ends.get (Ends.bind (Ends.lift hl ?_)))
  rw [if_neg hd, if_pos hleaf]
  unfold attempt at h
  split at h
  · rename_i n' hf
    cases h
    obtain ⟨t₁, he, ht₁⟩ := materializeLeaf_fails hf
    exact Ends.bind ⟨none, t₁, he, Ends.pure ht₁⟩
  · rename_i hf
    obtain ⟨t₁, he, ht₁⟩ := materializeLeaf_made hf
    refine Ends.bind ⟨_, t₁, he, Ends.bind (alloc_ends ?_)⟩
    obtain ⟨_, _, hclock⟩ := id ht₁
    rw [hclock]
    split at h
    · rename_i hfail
      cases h
      rw [hfail]
      exact Ends.pure (ht₁.tick _)
    · cases h

theorem consolidate_made {c : Chain} (hl : t.loadHead p = .ok c) (hd : c.deltas ≠ []) (hleaf : c.base.isLeaf = true)
    (h : attempt ω c t.clock = none) :
    Ends (consolidate ω p) t fun _ t' => ∃ low high, Lost ω c.base.lowFence low ∧ Lost ω c.base.highFence high ∧
      Same (t.setHead p (some ⟨[], c.consolidated low high⟩)) t' := by
  refine Ends.bind (Ends.get (Ends.bind (Ends.lift hl ?_)))
  rw [if_neg hd, if_pos hleaf]
  unfold attempt at h
  split at h
  · cases h
  rename_i hf
  obtain ⟨t₁, he, ht₁⟩ := materializeLeaf_made hf
  refine Ends.bind ⟨_, t₁, he, Ends.bind (alloc_ends ?_)⟩
  obtain ⟨_, _, hclock⟩ := id ht₁
  rw [hclock]
  split at h
  · cases h
  rename_i hnode
  rw [Bool.not_eq_true] at hnode
  rw [hnode]
  have hs : Same t (t₁.tick .consolidated) := ht₁.same.trans (.tick t₁)
  refine Ends.seq (fdup_ends fun low t' hlow ht => show Lost ω c.base.lowFence low ∧ Same t t' from
    ⟨hlow, hs.trans ht⟩) fun low t₁ h₁ => ?_
  obtain ⟨hlow, ht₁⟩ := h₁
  refine Ends.seq (fdup_ends fun high t' hhigh ht => show Lost ω c.base.highFence high ∧ Same t t' from
    ⟨hhigh, ht₁.trans ht⟩) fun high t₂ h₂ => ?_
  obtain ⟨hhigh, ht₂⟩ := h₂
  refine Ends.bind (Ends.modify (Ends.bind (retireChain_ends (Ends.modify ⟨low, high, hlow, hhigh, ?_⟩))))
  exact (ht₂.setHead p _).trans ⟨rfl, rfl, rfl, rfl⟩

/-- The flag of a node, taken and given back around what leaves it alone. -/
theorem setConsolidating_setHead (hfree : (t.map p).consolidating = false) (c : Option Chain) :
    ((t.setConsolidating p true).setHead p c).setConsolidating p false = t.setHead p c := by
  simp only [State.setConsolidating, State.setHead, Function.update_idem, Function.update_self, hfree]

theorem setConsolidating_self (hfree : (t.map p).consolidating = false) :
    (t.setConsolidating p true).setConsolidating p false = t := by
  have : ({ t.map p with consolidating := false } : MEntry) = t.map p := by rw [← hfree]
  simp only [State.setConsolidating, Function.update_idem, Function.update_self, this, Function.update_eq_self]

theorem Same.setConsolidating {t t' : State} (h : Same t t') (p : Pid) (b : Bool) :
    Same (t.setConsolidating p b) (t'.setConsolidating p b) :=
  ⟨by simp only [State.setConsolidating, h.map], h.nextPid, h.root, h.smoBusy⟩

theorem loadHead_setConsolidating (q : Pid) (b : Bool) : (t.setConsolidating p b).loadHead q = t.loadHead q := by
  unfold State.loadHead State.setConsolidating
  dsimp only
  by_cases hq : q = p
  · subst hq
    rw [Function.update_self]
  · rw [Function.update_of_ne hq]

/-- `try_consolidate` is a consolidation, when the flag of the node is free. -/
theorem tryConsolidate_eq (hfree : (t.map p).consolidating = false) :
    tryConsolidate ω p t =
      (consolidate ω p (t.setConsolidating p true)).map fun x => ((), x.2.setConsolidating p false) := by
  unfold tryConsolidate
  show (if (t.map p).consolidating = true then _ else _ : IndexM Unit) t = _
  rw [hfree, if_neg (by simp)]
  show (consolidate ω p (t.setConsolidating p true) >>= fun x => _) = _
  cases consolidate ω p (t.setConsolidating p true) <;> rfl

theorem tryConsolidate_fails {c : Chain} {n : Nat} (hfree : (t.map p).consolidating = false)
    (hl : t.loadHead p = .ok c) (hd : c.deltas ≠ []) (hleaf : c.base.isLeaf = true)
    (h : attempt ω c t.clock = some n) : Ends (tryConsolidate ω p) t fun _ t' => AtClock t n t' := by
  obtain ⟨_, t', he, sites, rfl, hclock⟩ :=
    consolidate_fails ((loadHead_setConsolidating p true).trans hl) hd hleaf h
  refine ⟨(), t.after sites, ?_, sites, rfl, hclock⟩
  rw [tryConsolidate_eq hfree, he]
  exact congrArg (fun s : State => Except.ok ((), s.after sites)) (setConsolidating_self hfree)

theorem tryConsolidate_made {c : Chain} (hfree : (t.map p).consolidating = false) (hl : t.loadHead p = .ok c)
    (hd : c.deltas ≠ []) (hleaf : c.base.isLeaf = true) (h : attempt ω c t.clock = none) :
    Ends (tryConsolidate ω p) t fun _ t' => ∃ low high, Lost ω c.base.lowFence low ∧ Lost ω c.base.highFence high ∧
      Same (t.setHead p (some ⟨[], c.consolidated low high⟩)) t' := by
  obtain ⟨_, t', he, low, high, hlow, hhigh, hs⟩ :=
    consolidate_made ((loadHead_setConsolidating p true).trans hl) hd hleaf h
  refine ⟨(), t'.setConsolidating p false, by rw [tryConsolidate_eq hfree, he]; rfl, low, high, hlow, hhigh, ?_⟩
  rw [← setConsolidating_setHead hfree]
  exact hs.setConsolidating p false

/-! ## Nodes of a split -/

/-- The entries with (`sep`, `right`) after those of `child`. -/
def insertEnt (sep : Bytes) (child right : Pid) : List IdxEnt → List IdxEnt
  | [] => []
  | e :: es =>
    if e.child = child then e :: ⟨sep, right⟩ :: insertEnt sep child right es else e :: insertEnt sep child right es

/-- The entries of a half: the first separator is dropped. -/
def dropSep : List IdxEnt → List IdxEnt
  | [] => []
  | e :: es => ⟨.null 0, e.child⟩ :: es

theorem cloneEnts_ends (hω : Tolerable ω) {sep : Bytes} {child right : Pid} : ∀ {es : List IdxEnt} {t : State}
    {Q : List IdxEnt → State → Prop}, (∀ t', Same t t' → Q (insertEnt sep child right es) t') →
    Ends (cloneEnts ω sep child right es) t Q
  | [], t, Q, h => Ends.pure (h t (.refl t))
  | e :: es, t, Q, h => by
    refine Ends.bind (fdup_copy (hω _ rfl) fun t₁ h₁ => ?_)
    refine Ends.bind (cloneEnts_ends hω fun t₂ h₂ => Ends.pure ?_)
    simp only [insertEnt] at h
    split
    · rename_i hc
      rw [if_pos hc] at h
      exact h t₂ (h₁.trans h₂)
    · rename_i hc
      rw [if_neg hc] at h
      exact h t₂ (h₁.trans h₂)

/-- The clone of an internal node with an entry more. -/
def Base.withEnt (b : Base) (sep : Bytes) (child right : Pid) (low high : Bytes) : Base :=
  { b with ents := .internal (insertEnt sep child right b.ients), lowFence := low, highFence := high }

theorem cloneInternalInsert_ends (hω : Tolerable ω) {b : Base} {sep : Bytes} {child right : Pid}
    {Q : Option Base → State → Prop}
    (h : ∀ low high t', Lost ω b.lowFence low → Lost ω b.highFence high → Same t t' →
      Q (some (b.withEnt sep child right low high)) t') : Ends (cloneInternalInsert ω b sep child right) t Q := by
  refine Ends.bind (alloc_true (hω _ rfl) ?_)
  rw [if_pos rfl]
  refine Ends.bind (alloc_true (hω _ rfl) ?_)
  rw [if_pos rfl]
  refine Ends.bind (cloneEnts_ends hω fun t₁ h₁ => ?_)
  refine Ends.bind (fdup_ends fun low t₂ hlow h₂ => ?_)
  refine Ends.bind (fdup_ends fun high t₃ hhigh h₃ => ?_)
  exact Ends.pure (h low high t₃ hlow hhigh
    (((Same.tick t).trans (.tick _)).trans (h₁.trans (h₂.trans h₃))))

theorem dupEnts_ends (hω : Tolerable ω) : ∀ {es : List IdxEnt} {t : State} {Q : List IdxEnt → State → Prop},
    (∀ t', Same t t' → Q es t') → Ends (dupEnts ω es) t Q
  | [], t, Q, h => Ends.pure (h t (.refl t))
  | e :: es, t, Q, h => by
    refine Ends.bind (fdup_copy (hω _ rfl) fun t₁ h₁ => ?_)
    exact Ends.bind (dupEnts_ends hω fun t₂ h₂ => Ends.pure (h t₂ (h₁.trans h₂)))

theorem halfEnts_ends (hω : Tolerable ω) {es : List IdxEnt} {Q : List IdxEnt → State → Prop}
    (h : ∀ t', Same t t' → Q (dropSep es) t') : Ends (halfEnts ω es) t Q := by
  cases es with
  | nil => exact Ends.pure (h t (.refl t))
  | cons e es => exact Ends.bind (dupEnts_ends hω fun t₁ h₁ => Ends.pure (h t₁ h₁))

/-- The lower half of an internal node. -/
def Base.lowerHalf (b : Base) (low high : Bytes) (right : Pid) : Base :=
  { b with
    ents := .internal (dropSep (b.ients.take (b.num / 2)))
    lowFence := low
    highFence := high
    rightSibling := right }

/-- The upper half of an internal node. -/
def Base.upperHalf (b : Base) (low high : Bytes) : Base :=
  { b with ents := .internal (dropSep (b.ients.drop (b.num / 2))), lowFence := low, highFence := high }

/-- `split_internal` binds the upper half of the node to a new PID and makes the
node its lower half. -/
theorem splitInternal_ends (hω : Tolerable ω) {b : Base} {s : Key} {e : IdxEnt} (hl : t.loadBase p = .ok b)
    (he : b.ients[b.num / 2]? = some e) (hs : e.sep = .copy s) {Q : Bytes × Pid → State → Prop}
    (h : ∀ rlow rhigh llow lhigh t', Lost ω (.copy s) rlow → Lost ω b.highFence rhigh → Lost ω b.lowFence llow →
      Lost ω (.copy s) lhigh →
      Same ((t.bindPid ⟨[], b.upperHalf rlow rhigh⟩).setHead p (some ⟨[], b.lowerHalf llow lhigh t.freshPid⟩)) t' →
      Q (.copy s, t.freshPid) t') : Ends (splitInternal ω p) t Q := by
  refine Ends.bind (Ends.get (Ends.bind (Ends.lift hl ?_)))
  simp only [he, hs]
  refine Ends.bind (keydup_copy (hω _ rfl) ?_)
  refine alloc_deref (hω _ rfl) ?_
  refine alloc_deref (hω _ rfl) ?_
  refine Ends.bind (halfEnts_ends hω fun t₁ h₁ => ?_)
  refine Ends.bind (keydup_ends fun rlow hrlow => ?_)
  refine Ends.bind (fdup_ends fun rhigh t₂ hrhigh h₂ => ?_)
  refine Ends.bind (allocPid_ends ?_)
  refine alloc_deref (hω _ rfl) ?_
  refine alloc_deref (hω _ rfl) ?_
  refine Ends.bind (halfEnts_ends hω fun t₃ h₃ => ?_)
  refine Ends.bind (fdup_ends fun llow t₄ hllow h₄ => ?_)
  refine Ends.bind (keydup_ends fun lhigh hlhigh => ?_)
  refine Ends.bind (Ends.modify (Ends.bind (retireChain_ends (Ends.bind (Ends.modify (Ends.pure ?_))))))
  have h₀ : Same t t₂ := (((Same.tick t).trans (.tick _)).trans (.tick _)).trans (h₁.trans ((Same.tick _).trans h₂))
  rw [h₀.freshPid]
  refine h rlow rhigh llow lhigh _ hrlow hrhigh hllow hlhigh ?_
  have hR : Same (t.bindPid ⟨[], b.upperHalf rlow rhigh⟩) (t₄.tick .halfFence) :=
    (h₀.bindPid _).trans ((((Same.tick _).trans (.tick _)).trans (h₃.trans h₄)).trans (.tick _))
  exact (hR.setHead p _).trans ⟨rfl, rfl, rfl, rfl⟩

end Dlsmc.Index
