import Dlsmc.Index.Building

/-!
# The allocations that a call makes

A pattern has an answer for every allocation, of which a program makes some:
those between the state it began in and the one it ended in (`Allocates`). It
depends on no other answers: under a pattern that gives the same ones for the
allocations it made, it ends in the same way (`Follows`). This is proved of one
function after the other, in the order of the source; the functions that never
ask a pattern only need to make no allocation.

`DLSM_INDEX_E_NOMEM` is blamed on an allocation that the write made and that
failed (`writeOp_nomem`).
-/

namespace Dlsmc.Index

/-- Between the states, allocation number `n` was made, at site `s`. -/
def Allocates (t t' : State) (s : Site) (n : Nat) : Prop := t.clock ≤ n ∧ t'.allocs.reverse[n]? = some s

/-- One of the allocations made between the states failed. -/
def Denied (ω : Pattern) (t t' : State) : Prop := ∃ s n, Allocates t t' s n ∧ ω s n = true

/-- `t'` comes after `t`: no allocation was taken back. -/
def Later (t t' : State) : Prop := t.allocs <:+ t'.allocs

section

variable {ω : Pattern} {t t' t'' : State} {s : Site} {n : Nat}

theorem Later.of_eq (h : t'.allocs = t.allocs) : Later t t' := ⟨[], h.symm⟩

theorem Later.trans (h : Later t t') (h' : Later t' t'') : Later t t'' := List.IsSuffix.trans h h'

theorem Later.tick (t : State) (s : Site) : Later t (t.tick s) := ⟨[s], rfl⟩

theorem Later.clock (h : Later t t') : t.clock ≤ t'.clock := List.IsSuffix.length_le h

/-- Later allocations leave the earlier ones. -/
theorem Allocates.later (h : Allocates t t' s n) (hl : Later t' t'') : Allocates t t'' s n := by
  obtain ⟨l, hl⟩ := hl
  obtain ⟨hn, hs⟩ := h
  have hlt : n < t'.allocs.reverse.length := (List.getElem?_eq_some_iff.mp hs).1
  exact ⟨hn, by rw [← hl, List.reverse_append, List.getElem?_append_left hlt, hs]⟩

theorem Allocates.earlier (h : Allocates t' t'' s n) (hl : Later t t') : Allocates t t'' s n :=
  ⟨hl.clock.trans h.1, h.2⟩

theorem allocates_tick : Allocates t (t.tick s) s t.clock := by
  refine ⟨le_rfl, ?_⟩
  show (s :: t.allocs).reverse[t.clock]? = _
  rw [List.reverse_cons, State.clock, ← List.length_reverse, List.getElem?_concat_length]

theorem not_denied_never : ¬Denied never t t' := by
  rintro ⟨s, n, -, h⟩
  cases h

theorem Denied.earlier (h : Denied ω t' t'') (hl : Later t t') : Denied ω t t'' := by
  obtain ⟨s, n, ha, hω⟩ := h
  exact ⟨s, n, ha.earlier hl, hω⟩

end

/-! ## Programs under two patterns -/

/-- `x'` is `x` under the pattern `ω'` in the place of `ω`: when `x` ends, it has
only added allocations, and `x'` ends in the same way if the patterns agree on
them. -/
def Follows (ω ω' : Pattern) {α : Type} (x x' : IndexM α) : Prop :=
  ∀ t a t', x t = .ok (a, t') →
    Later t t' ∧ ((∀ s n, Allocates t t' s n → ω' s n = ω s n) → x' t = .ok (a, t'))

namespace Follows

variable {ω ω' : Pattern} {α β : Type} {x x' y y' : IndexM α} {f f' : α → IndexM β}

theorem later (h : Follows ω ω x x) {t t' : State} {a : α} (he : x t = .ok (a, t')) : Later t t' := (h t a t' he).1

/-- A program that makes no allocation. -/
theorem of_quiet (h : ∀ t a t', x t = .ok (a, t') → t'.allocs = t.allocs) : Follows ω ω' x x := fun t a t' he =>
  ⟨.of_eq (h t a t' he), fun _ => he⟩

theorem pure (a : α) : Follows ω ω' (Pure.pure a : IndexM α) (Pure.pure a) := of_quiet fun t b t' h => by
  cases h
  rfl

theorem get : Follows ω ω' (MonadState.get : IndexM State) MonadState.get := of_quiet fun t b t' h => by
  cases h
  rfl

theorem modify {g : State → State} (hg : ∀ t, (g t).allocs = t.allocs) :
    Follows ω ω' (modify g : IndexM PUnit) (modify g) := of_quiet fun t b t' h => by
  cases h
  exact hg t

theorem throw (e : Fault) : Follows ω ω' (MonadExcept.throw e : IndexM α) (MonadExcept.throw e) := fun _ _ _ h => by
  cases h

theorem lift (e : Except Fault α) : Follows ω ω' (liftM e : IndexM α) (liftM e) := of_quiet fun t b t' h => by
  cases e with
  | error e => cases h
  | ok a =>
    cases h
    rfl

theorem bind (h : Follows ω ω' x x') (hf : ∀ a, Follows ω ω' (f a) (f' a)) :
    Follows ω ω' (x >>= f) (x' >>= f') := by
  intro t b t'' he
  obtain ⟨a, t', hx, hfa⟩ := bind_eq_ok.mp he
  obtain ⟨hl, hx'⟩ := h t a t' hx
  obtain ⟨hl', hfa'⟩ := hf a t' b t'' hfa
  refine ⟨hl.trans hl', fun hagree => bind_eq_ok.mpr ⟨a, t', hx' fun s n ha => ?_, hfa' fun s n ha => ?_⟩⟩
  · exact hagree s n (ha.later hl')
  · exact hagree s n (ha.earlier hl)

theorem ite {c : Prop} [Decidable c] (h : Follows ω ω' x x') (h' : Follows ω ω' y y') :
    Follows ω ω' (if c then x else y) (if c then x' else y') := by
  split
  · exact h
  · exact h'

end Follows

/-! ## The functions of the index -/

section

variable {ω ω' : Pattern}

theorem alloc_follows (site : Site) : Follows ω ω' (alloc ω site) (alloc ω' site) := by
  rintro t _ _ ⟨⟩
  refine ⟨.tick t site, fun h => ?_⟩
  rw [alloc, h site t.clock allocates_tick]

theorem deref_follows (ptr : Bool) : Follows ω ω' (deref ptr) (deref ptr) := .ite (.pure _) (.throw _)

theorem keydup_follows (site : Site) (b : Bytes) : Follows ω ω' (keydup ω site b) (keydup ω' site b) := by
  refine .bind (alloc_follows site) fun _ => .ite ?_ (.pure _)
  split
  · exact .pure _
  · exact .pure _
  · exact .throw _

theorem fdup_follows (site : Site) (b : Bytes) : Follows ω ω' (fdup ω site b) (fdup ω' site b) := by
  cases b with
  | null n => exact .pure _
  | copy k => exact keydup_follows site _

theorem retireChain_follows : Follows ω ω' (retireChain ω) (retireChain ω') :=
  .bind (alloc_follows _) fun _ => .pure _

theorem allocPid_follows (c : Chain) : Follows ω ω' (allocPid c) (allocPid c) := .of_quiet fun t p t' h => by
  unfold allocPid at h
  dsimp only at h
  split at h <;> cases h <;> rfl

theorem ebrEnter_follows : Follows ω ω' (ebrEnter ω) (ebrEnter ω') :=
  .bind .get fun _ => .ite (.pure _) (.bind (alloc_follows _) fun _ => .ite (.modify fun _ => rfl) (.throw _))

theorem materializeDeltas_follows : ∀ (ds : List Delta) (seen : List Key) (res : List LeafEnt),
    Follows ω ω' (materializeDeltas ω ds seen res) (materializeDeltas ω' ds seen res)
  | [], _, _ => .pure _
  | _ :: ds, seen, res =>
    .ite (materializeDeltas_follows ds seen res) (.ite (materializeDeltas_follows ds _ res)
      (.bind (alloc_follows _) fun _ => .ite (materializeDeltas_follows ds _ _) (.pure _)))

theorem materializeBase_follows (seen : List Key) : ∀ es res : List LeafEnt,
    Follows ω ω' (materializeBase ω seen es res) (materializeBase ω' seen es res)
  | [], _ => .pure _
  | _ :: es, res =>
    .ite (materializeBase_follows seen es res)
      (.bind (alloc_follows _) fun _ => .ite (materializeBase_follows seen es _) (.pure _))

theorem materializeLoops_follows (c : Chain) : Follows ω ω' (materializeLoops ω c) (materializeLoops ω' c) := by
  refine .bind (materializeDeltas_follows _ _ _) fun r => ?_
  cases r with
  | none => exact .pure _
  | some r =>
    refine .bind (materializeBase_follows _ _ _) fun r => ?_
    cases r with
    | none => exact .pure _
    | some res => exact .pure _

theorem materializeLeaf_follows (c : Chain) : Follows ω ω' (materializeLeaf ω c) (materializeLeaf ω' c) := by
  have hrest : ∀ seen : Bool, Follows ω ω'
      (alloc ω .live >>= fun res => if (seen && res) = true then materializeLoops ω c else pure none)
      (alloc ω' .live >>= fun res => if (seen && res) = true then materializeLoops ω' c else pure none) := fun _ =>
    .bind (alloc_follows _) fun _ => .ite (materializeLoops_follows c) (.pure _)
  exact .ite (.bind (.pure _) hrest) (.bind (alloc_follows _) hrest)

theorem consolidate_follows (p : Pid) : Follows ω ω' (consolidate ω p) (consolidate ω' p) := by
  refine .bind .get fun t => .bind (.lift _) fun h => .ite (.pure _) (.ite ?_ (.pure _))
  refine .bind (materializeLeaf_follows h) fun r => ?_
  cases r with
  | none => exact .pure _
  | some arr =>
    refine .bind (alloc_follows _) fun _ => .ite ?_ (.pure _)
    refine .bind (fdup_follows _ _) fun _ => .bind (fdup_follows _ _) fun _ => ?_
    exact .bind (.modify fun _ => rfl) fun _ => .bind retireChain_follows fun _ => .modify fun _ => rfl

theorem tryConsolidate_follows (p : Pid) : Follows ω ω' (tryConsolidate ω p) (tryConsolidate ω' p) :=
  .bind .get fun _ => .ite (.pure _) (.bind (.modify fun _ => rfl) fun _ =>
    .bind (consolidate_follows p) fun _ => .modify fun _ => rfl)

theorem cloneEnts_follows (sep : Bytes) (child right : Pid) : ∀ es : List IdxEnt,
    Follows ω ω' (cloneEnts ω sep child right es) (cloneEnts ω' sep child right es)
  | [] => .pure _
  | _ :: es => .bind (fdup_follows _ _) fun _ => .bind (cloneEnts_follows sep child right es) fun _ => .pure _

theorem cloneInternalInsert_follows (P : Base) (sep : Bytes) (child right : Pid) :
    Follows ω ω' (cloneInternalInsert ω P sep child right) (cloneInternalInsert ω' P sep child right) :=
  .bind (alloc_follows _) fun _ => .ite (.bind (alloc_follows _) fun _ =>
    .ite (.bind (cloneEnts_follows sep child right _) fun _ => .bind (fdup_follows _ _) fun _ =>
      .bind (fdup_follows _ _) fun _ => .pure _) (.pure _)) (.pure _)

theorem dupEnts_follows : ∀ es : List IdxEnt, Follows ω ω' (dupEnts ω es) (dupEnts ω' es)
  | [] => .pure _
  | _ :: es => .bind (fdup_follows _ _) fun _ => .bind (dupEnts_follows es) fun _ => .pure _

theorem halfEnts_follows (es : List IdxEnt) : Follows ω ω' (halfEnts ω es) (halfEnts ω' es) := by
  cases es with
  | nil => exact .pure _
  | cons e es => exact .bind (dupEnts_follows es) fun _ => .pure _

/-- An allocation, and an access to what it returns. -/
theorem allocDeref_follows {α : Type} {x x' : IndexM α} (site : Site) (h : Follows ω ω' x x') :
    Follows ω ω' (do deref (← alloc ω site); x) (do deref (← alloc ω' site); x') :=
  .bind (alloc_follows site) fun ptr => .bind (deref_follows ptr) fun _ => h

theorem splitInternal_follows (p : Pid) : Follows ω ω' (splitInternal ω p) (splitInternal ω' p) := by
  refine .bind .get fun t => .bind (.lift _) fun N => ?_
  dsimp only
  split
  · exact .throw _
  refine .bind (keydup_follows _ _) fun promoted => allocDeref_follows _ (allocDeref_follows _ ?_)
  refine .bind (halfEnts_follows _) fun _ => .bind (keydup_follows _ _) fun _ => .bind (fdup_follows _ _) fun _ => ?_
  refine .bind (allocPid_follows _) fun nrp => allocDeref_follows _ (allocDeref_follows _ ?_)
  refine .bind (halfEnts_follows _) fun _ => .bind (fdup_follows _ _) fun _ => .bind (keydup_follows _ _) fun _ => ?_
  refine .bind (.modify fun _ => rfl) fun _ => .bind retireChain_follows fun _ => ?_
  exact .bind (.modify fun _ => rfl) fun _ => .pure _

theorem newRoot_follows (child : Pid) (sep : Bytes) (right : Pid) :
    Follows ω ω' (installSep ω [] child sep right) (installSep ω' [] child sep right) :=
  .bind .get fun _ => .bind (.lift _) fun _ => allocDeref_follows _ (allocDeref_follows _
    (.bind (allocPid_follows _) fun _ => .modify fun _ => rfl))

/-- The induction goes up the path. -/
theorem installSep_follows : ∀ (path : List Pid) (child : Pid) (sep : Bytes) (right : Pid),
    Follows ω ω' (installSep ω path child sep right) (installSep ω' path child sep right)
  | _ :: parent :: path, child, sep, right => by
    refine .bind .get fun t => .bind (.lift _) fun oldh => ?_
    refine .bind (cloneInternalInsert_follows _ _ _ _) fun Pnew => ?_
    refine .bind (.modify fun _ => rfl) fun _ => .bind retireChain_follows fun _ => ?_
    cases Pnew with
    | none => exact .throw _
    | some Pnew =>
      exact .ite (.bind (splitInternal_follows parent) fun r => installSep_follows (parent :: path) parent r.1 r.2)
        (.pure _)
  | [], child, sep, right => newRoot_follows child sep right
  | [_], child, sep, right => newRoot_follows child sep right

theorem leafHalves_follows (tail : Base) (arr : List LeafEnt) :
    Follows ω ω' (leafHalves ω tail arr) (leafHalves ω' tail arr) := by
  refine .bind (alloc_follows _) fun L => .bind (alloc_follows _) fun R => .bind (deref_follows L) fun _ => ?_
  refine .bind (alloc_follows _) fun _ => .bind (deref_follows R) fun _ => .bind (alloc_follows _) fun _ => ?_
  split
  · exact .throw _
  refine .bind (keydup_follows _ _) fun sep => .ite (.pure _) ?_
  exact .bind (fdup_follows _ _) fun _ => .bind (keydup_follows _ _) fun _ => .bind (keydup_follows _ _) fun _ =>
    .bind (fdup_follows _ _) fun _ => .pure _

theorem splitRound_follows (path : List Pid) (p : Pid) :
    Follows ω ω' (splitRound ω path p) (splitRound ω' path p) := by
  refine .bind .get fun t => .bind (.lift _) fun h => .bind (materializeLeaf_follows h) fun r => ?_
  cases r with
  | none => exact .pure _
  | some arr =>
    refine .ite (.pure _) (.bind (leafHalves_follows _ _) fun r => ?_)
    cases r with
    | none => exact .pure _
    | some r =>
      refine .bind (allocPid_follows _) fun rp => .bind (.modify fun _ => rfl) fun _ => ?_
      exact .bind retireChain_follows fun _ => .bind (.modify fun _ => rfl) fun _ => installSep_follows _ _ _ _

theorem splitLeaf_follows (fuel : Nat) (k : Key) : Follows ω ω' (splitLeaf ω fuel k) (splitLeaf ω' fuel k) := by
  refine .bind .get fun _ => .ite (.pure _) (.bind (.modify fun _ => rfl) fun _ => ?_)
  refine .bind .get fun t => .bind (.lift _) fun path => ?_
  cases path with
  | nil => exact .throw _
  | cons p path => exact .bind (splitRound_follows _ _) fun _ => .modify fun _ => rfl

theorem installDelta_follows (op : DeltaOp) (k : Key) (v : DeltaPointer) : ∀ (fuel : Nat) (p : Pid),
    Follows ω ω' (installDelta ω op k v fuel p) (installDelta ω' op k v fuel p)
  | 0, _ => .throw _
  | fuel + 1, p => by
    refine .bind .get fun t => .bind (.lift _) fun h => .ite (installDelta_follows op k v fuel _) (.ite ?_ ?_)
    · exact .bind (tryConsolidate_follows p) fun _ => installDelta_follows op k v fuel p
    · refine .bind (alloc_follows _) fun d => .bind (keydup_follows _ _) fun kc => ?_
      split
      · exact .bind (.modify fun _ => rfl) fun _ => .pure _
      · exact .pure _

theorem writeOp_follows (fuel : Nat) (op : DeltaOp) (key : Bytes) (v : DeltaPointer) :
    Follows ω ω' (writeOp ω fuel op key v) (writeOp ω' fuel op key v) := by
  unfold writeOp
  split
  · exact .pure _
  refine .bind ebrEnter_follows fun _ => .bind .get fun t => .bind (.lift _) fun p => ?_
  refine .bind (installDelta_follows op _ v fuel p) fun r => ?_
  cases r with
  | none => exact .pure _
  | some r =>
    refine .bind (.ite (tryConsolidate_follows _) (.pure _)) fun _ => .bind .get fun t => .bind (.lift _) fun h => ?_
    exact .bind (.ite (splitLeaf_follows _ _) (.pure _)) fun _ => .pure _

theorem indexGet_follows (fuel : Nat) (key : Bytes) : Follows ω ω' (indexGet ω fuel key) (indexGet ω' fuel key) := by
  unfold indexGet
  split
  · exact .pure _
  refine .bind ebrEnter_follows fun _ => .bind .get fun t => .bind (.lift _) fun r => ?_
  cases r with
  | none => exact .pure _
  | some v => exact .pure _

end

/-! ## Writes without memory -/

section

variable {ω : Pattern} {t t' : State} {op : DeltaOp} {k : Key} {v : DeltaPointer}

theorem keydup_null {site : Site} {n : Nat} (h : keydup ω site (.copy k) t = .ok (.null n, t')) :
    t' = t.tick site ∧ ω site t.clock = true := by
  obtain ⟨d, t₁, halloc, h⟩ := bind_eq_ok.mp h
  cases halloc
  cases hd : ω site t.clock with
  | true =>
    rw [hd] at h
    cases h
    exact ⟨rfl, rfl⟩
  | false =>
    rw [hd] at h
    cases h

/-- A delta that is not installed was denied its memory. The induction is on the
rounds of the loop. -/
theorem installDelta_none : ∀ {fuel : Nat} {p : Pid} {t : State},
    installDelta ω op k v fuel p t = .ok (none, t') → Denied ω t t'
  | 0, _, _, h => by cases h
  | fuel + 1, p, t, h => by
    rw [installDelta] at h
    obtain ⟨_, _, hget, h⟩ := bind_eq_ok.mp h
    cases hget
    obtain ⟨c, t₁, hload, h⟩ := bind_eq_ok.mp h
    have hl : Later t t₁ := (Follows.lift (t.loadHead p)).later (ω := ω) hload
    refine Denied.earlier ?_ hl
    by_cases hf : c.base.pastFence k = true
    · rw [if_pos hf] at h
      exact installDelta_none h
    rw [if_neg hf] at h
    by_cases hcap : CHAIN_CAP ≤ c.depth
    · rw [if_pos hcap] at h
      obtain ⟨_, t₂, htry, h⟩ := bind_eq_ok.mp h
      exact (installDelta_none h).earlier ((tryConsolidate_follows p).later htry)
    · rw [if_neg hcap] at h
      obtain ⟨d, t₂, halloc, h⟩ := bind_eq_ok.mp h
      cases halloc
      obtain ⟨kc, t₃, hdup, h⟩ := bind_eq_ok.mp h
      have hl : Later (t₁.tick .delta) t₃ := (keydup_follows .deltaKey (.copy k)).later hdup
      cases hd : ω .delta t₁.clock with
      | true =>
        rw [hd] at h
        cases kc <;> cases h <;> exact ⟨.delta, t₁.clock, allocates_tick.later hl, hd⟩
      | false =>
        rw [hd] at h
        cases kc with
        | null n =>
          cases h
          obtain ⟨rfl, hkey⟩ := keydup_null hdup
          exact ⟨.deltaKey, _, allocates_tick.earlier (.tick t₁ .delta), hkey⟩
        | copy kc =>
          obtain ⟨_, _, -, h⟩ := bind_eq_ok.mp h
          cases h

/-- A write returns `DLSM_INDEX_E_NOMEM` only when an allocation that it made
failed. -/
theorem writeOp_nomem {fuel : Nat} {key : Bytes} (h : writeOp ω fuel op key v t = .ok (.nomem, t')) :
    Denied ω t t' := by
  cases hkey : key.arg with
  | none =>
    simp only [writeOp, hkey] at h
    cases h
  | some k =>
    simp only [writeOp, hkey] at h
    obtain ⟨_, t₁, henter, h⟩ := bind_eq_ok.mp h
    obtain ⟨_, _, hget, h⟩ := bind_eq_ok.mp h
    cases hget
    obtain ⟨p, t₂, hfind, h⟩ := bind_eq_ok.mp h
    obtain ⟨r, t₃, hinstall, h⟩ := bind_eq_ok.mp h
    have hl : Later t t₂ := 
      (ebrEnter_follows.later henter).trans ((Follows.lift (t₁.findLeaf k fuel t₁.root)).later (ω := ω) hfind)
    cases r with
    | none =>
      cases h
      exact (installDelta_none hinstall).earlier hl
    | some r =>
      obtain ⟨_, _, -, h⟩ := bind_eq_ok.mp h
      obtain ⟨_, _, -, h⟩ := bind_eq_ok.mp h
      obtain ⟨_, _, -, h⟩ := bind_eq_ok.mp h
      obtain ⟨_, _, -, h⟩ := bind_eq_ok.mp h
      cases h

end

end Dlsmc.Index
