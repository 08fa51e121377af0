import Dlsmc.Framework.Program
import Dlsmc.Index.Leaf
import Dlsmc.Index.Tree

/-!
# Building nodes

What the functions that allocate end with, for any pattern of failures. A
failure at a site whose result the code uses unchecked (`Site.unchecked`) is
not considered: a pattern is `Tolerable` if it has none. What is left of the
others are copies of fences that were lost (`Lost`), and consolidations and
splits that are not made.
-/

namespace Dlsmc.Index

/-- The code uses the result of these allocations without a check. -/
def Site.unchecked : Site → Bool
  | ebrReg | leafHalf | newRoot | newRootEnts | clone | cloneEnts | cloneSep | promoted | half | halfEnts | halfSep =>
    true
  | _ => false

/-- No allocation fails whose result the code uses unchecked. -/
def Tolerable (ω : Pattern) : Prop := ∀ s : Site, s.unchecked = true → ∀ n, ω s n = false

/-- Some allocation fails. -/
def Lossy (ω : Pattern) : Prop := ∃ s n, ω s n = true

/-- No allocation fails. -/
def never : Pattern := fun _ _ => false

theorem tolerable_never : Tolerable never := fun _ _ _ => rfl

theorem not_lossy_never : ¬Lossy never := by
  rintro ⟨s, n, h⟩
  cases h

/-- A copy of `b`, or what is there when it could not be made. -/
def Lost (ω : Pattern) (b b' : Bytes) : Prop := b' = b ∨ Lossy ω ∧ ∃ n, b' = .null n

/-- The states are the same but for the allocations made, the registration and
the counters. -/
structure Same (t t' : State) : Prop where
  map : t'.map = t.map
  nextPid : t'.nextPid = t.nextPid
  root : t'.root = t.root
  smoBusy : t'.smoBusy = t.smoBusy

namespace State

/-- After allocations, the last first. -/
def after (t : State) (sites : List Site) : State := { t with allocs := sites ++ t.allocs }

/-- After an allocation. -/
def tick (t : State) (site : Site) : State := t.after [site]

/-- What `alloc_pid` returns. -/
def freshPid (t : State) : Pid := if MAP_CAP ≤ t.nextPid then PID_NULL else t.nextPid

/-- After `alloc_pid` of `c`. -/
def bindPid (t : State) (c : Chain) : State :=
  let t' := { t with nextPid := (t.nextPid + 1) % 2 ^ 32 }
  if MAP_CAP ≤ t.nextPid then t' else t'.setHead t.nextPid (some c)

end State

/-! ## States that differ in what is not read -/

namespace Same

variable {t t' t'' : State}

theorem refl (t : State) : Same t t := ⟨rfl, rfl, rfl, rfl⟩

theorem trans (h : Same t t') (h' : Same t' t'') : Same t t'' :=
  ⟨h'.map.trans h.map, h'.nextPid.trans h.nextPid, h'.root.trans h.root, h'.smoBusy.trans h.smoBusy⟩

theorem after (t : State) (sites : List Site) : Same t (t.after sites) := ⟨rfl, rfl, rfl, rfl⟩

theorem tick (t : State) {site : Site} : Same t (t.tick site) := .after t _

theorem setHead (h : Same t t') (p : Pid) (c : Option Chain) : Same (t.setHead p c) (t'.setHead p c) :=
  ⟨by simp only [State.setHead, h.map], h.nextPid, h.root, h.smoBusy⟩

theorem freshPid (h : Same t t') : t'.freshPid = t.freshPid := by
  unfold State.freshPid
  rw [h.nextPid]

theorem bindPid (h : Same t t') (c : Chain) : Same (t.bindPid c) (t'.bindPid c) := by
  unfold State.bindPid
  rw [h.nextPid]
  dsimp only
  split
  · exact ⟨h.map, rfl, h.root, h.smoBusy⟩
  · exact ⟨by simp only [State.setHead, h.map], rfl, h.root, h.smoBusy⟩

theorem loadHead (h : Same t t') (p : Pid) : t'.loadHead p = t.loadHead p := by
  unfold State.loadHead
  rw [h.map]

end Same

/-! ## Single allocations -/

section

variable {ω : Pattern} {t : State} {site : Site}

theorem alloc_ends {Q : Bool → State → Prop} (h : Q (!ω site t.clock) (t.tick site)) : Ends (alloc ω site) t Q :=
  ⟨_, _, rfl, h⟩

/-- An allocation that does not fail. -/
theorem alloc_true {Q : Bool → State → Prop} (hs : ∀ n, ω site n = false) (h : Q true (t.tick site)) :
    Ends (alloc ω site) t Q := alloc_ends (by rw [hs]; exact h)

theorem deref_ends {Q : Unit → State → Prop} (h : Q () t) : Ends (deref true) t Q := Ends.pure h

/-- An allocation that does not fail, and an access to what it returns. -/
theorem alloc_deref {α : Type} {f : IndexM α} {Q : α → State → Prop} (hs : ∀ n, ω site n = false)
    (h : Ends f (t.tick site) Q) : Ends (do deref (← alloc ω site); f) t Q :=
  Ends.bind (alloc_true hs (Ends.bind (deref_ends h)))

theorem allocPid_ends {Q : Pid → State → Prop} {c : Chain} (h : Q t.freshPid (t.bindPid c)) :
    Ends (allocPid c) t Q := by
  refine ⟨_, _, ?_, h⟩
  unfold allocPid State.freshPid State.bindPid
  dsimp only
  split <;> rfl

theorem retireChain_ends {Q : Unit → State → Prop} (h : Q () (t.tick .ebrNode)) : Ends (retireChain ω) t Q :=
  Ends.bind (alloc_ends (Ends.pure h))

theorem keydup_ends {k : Key} {Q : Bytes → State → Prop} (h : ∀ b, Lost ω (.copy k) b → Q b (t.tick site)) :
    Ends (keydup ω site (.copy k)) t Q := by
  refine Ends.bind (alloc_ends ?_)
  cases hf : ω site t.clock with
  | true => exact Ends.pure (h _ (.inr ⟨⟨_, _, hf⟩, _, rfl⟩))
  | false => exact Ends.pure (h _ (.inl rfl))

/-- A copy that is made. -/
theorem keydup_copy {k : Key} {Q : Bytes → State → Prop} (hs : ∀ n, ω site n = false) (h : Q (.copy k) (t.tick site)) :
    Ends (keydup ω site (.copy k)) t Q := Ends.bind (alloc_true hs (Ends.pure h))

theorem fdup_ends {b : Bytes} {Q : Bytes → State → Prop} (h : ∀ b' t', Lost ω b b' → Same t t' → Q b' t') :
    Ends (fdup ω site b) t Q := by
  cases b with
  | null n => exact Ends.pure (h _ _ (.inl rfl) (.refl t))
  | copy k => exact keydup_ends fun b hb => h b _ hb (.tick t)

/-- A copy that is made, if there is something to copy. -/
theorem fdup_copy {b : Bytes} {Q : Bytes → State → Prop} (hs : ∀ n, ω site n = false) (h : ∀ t', Same t t' → Q b t') :
    Ends (fdup ω site b) t Q := by
  cases b with
  | null n => exact Ends.pure (h _ (.refl t))
  | copy k => exact keydup_copy hs (h _ (.tick t))

end

/-! ## `materialize_leaf` -/

/-- Of `k` allocations at a site, from number `n`, the one after the first that
fails. -/
def failedAt (ω : Pattern) (site : Site) : Nat → Nat → Option Nat
  | 0, _ => none
  | k + 1, n => if ω site n then some (n + 1) else failedAt ω site k (n + 1)

section

variable {ω : Pattern} {site : Site}

theorem failedAt_add : ∀ (k l n : Nat), failedAt ω site (k + l) n = (failedAt ω site k n).or (failedAt ω site l (n + k))
  | 0, l, n => by simp [failedAt]
  | k + 1, l, n => by
    rw [Nat.add_right_comm, failedAt, failedAt]
    split
    · rfl
    · rw [failedAt_add k l (n + 1), Nat.add_assoc, Nat.add_comm 1 k]

theorem lossy_of_failedAt : ∀ {k n n' : Nat}, failedAt ω site k n = some n' → Lossy ω
  | 0, _, _, h => by cases h
  | k + 1, n, _, h => by
    rw [failedAt] at h
    split at h
    · exact ⟨site, n, ‹_›⟩
    · exact lossy_of_failedAt h

theorem lt_of_failedAt : ∀ {k n n' : Nat}, failedAt ω site k n = some n' → n < n'
  | 0, _, _, h => by cases h
  | k + 1, n, _, h => by
    rw [failedAt] at h
    split at h
    · cases h
      exact Nat.lt_succ_self n
    · exact Nat.lt_of_succ_lt (lt_of_failedAt h)

theorem State.clock_after (t : State) (sites : List Site) : (t.after sites).clock = t.clock + sites.length := by
  rw [State.after, State.clock, List.length_append, Nat.add_comm]
  rfl

theorem State.clock_replicate (t : State) (k : Nat) (site : Site) :
    (t.after (List.replicate k site)).clock = t.clock + k := by
  rw [State.clock_after, List.length_replicate]

/-- What a program ends with that makes `k` allocations for live keys and stops
at the first that fails. -/
def made {α : Type} (t : State) (k : Nat) (a : α) : Option Nat → Except Fault (Option α × State)
  | none => .ok (some a, t.after (List.replicate k .liveKey))
  | some n => .ok (none, t.after (List.replicate (n - t.clock) .liveKey))

theorem made_some {α : Type} (t : State) (k j : Nat) (a : α) :
    made t k a (some (t.clock + j)) = .ok (none, t.after (List.replicate j .liveKey)) := by
  rw [made, Nat.add_sub_cancel_left]

/-- The first `j` of the allocations were made. -/
theorem made_after {α : Type} (t : State) (j k : Nat) (a : α) {o : Option Nat}
    (ho : ∀ n, o = some n → t.clock + j ≤ n) :
    made (t.after (List.replicate j .liveKey)) k a o = made t (j + k) a o := by
  have hafter : ∀ i, (t.after (List.replicate j .liveKey)).after (List.replicate i .liveKey) =
      t.after (List.replicate (j + i) .liveKey) := fun i => by
    simp only [State.after, ← List.append_assoc, List.replicate_append_replicate, Nat.add_comm i j]
  cases o with
  | none => rw [made, made, hafter]
  | some n =>
    have := ho n rfl
    rw [made, made, hafter, State.clock_replicate]
    congr 4
    omega

theorem liveDeltas_length : ∀ (ds : List Delta) (seen : List Key) (res : List LeafEnt),
    res.length ≤ (liveDeltas ds seen res).2.length
  | [], _, _ => le_rfl
  | d :: ds, seen, res => by
    simp only [liveDeltas]
    split
    · exact liveDeltas_length ds seen res
    · split
      · exact liveDeltas_length ds _ res
      · have := liveDeltas_length ds (seen ++ [d.key]) (res ++ [⟨d.key, d.val⟩])
        simp only [List.length_append, List.length_singleton] at this
        omega

theorem materializeDeltas_eq : ∀ (ds : List Delta) (seen : List Key) (res : List LeafEnt) (t : State),
    materializeDeltas ω ds seen res t =
      made t ((liveDeltas ds seen res).2.length - res.length) (liveDeltas ds seen res)
        (failedAt ω .liveKey ((liveDeltas ds seen res).2.length - res.length) t.clock)
  | [], seen, res, t => by
    rw [show (liveDeltas [] seen res).2.length - res.length = 0 from Nat.sub_self _]
    rfl
  | d :: ds, seen, res, t => by
    simp only [liveDeltas, materializeDeltas]
    split
    · exact materializeDeltas_eq ds seen res t
    · split
      · exact materializeDeltas_eq ds _ res t
      · have hlen := liveDeltas_length ds (seen ++ [d.key]) (res ++ [⟨d.key, d.val⟩])
        rw [List.length_append, List.length_singleton] at hlen
        have hk : (liveDeltas ds (seen ++ [d.key]) (res ++ [⟨d.key, d.val⟩])).2.length - res.length =
            ((liveDeltas ds (seen ++ [d.key]) (res ++ [⟨d.key, d.val⟩])).2.length -
              (res ++ [(⟨d.key, d.val⟩ : LeafEnt)]).length) + 1 := by
          rw [List.length_append, List.length_singleton]
          omega
        rw [hk, failedAt]
        show (if (!ω .liveKey t.clock) = true then materializeDeltas ω ds (seen ++ [d.key]) (res ++ [⟨d.key, d.val⟩])
          else pure none) (t.after (List.replicate 1 .liveKey)) = _
        cases hf : ω .liveKey t.clock with
        | true => exact (made_some t _ 1 _).symm
        | false =>
          simp only [Bool.not_false, if_true, Bool.false_eq_true, if_false]
          rw [materializeDeltas_eq ds _ _ (t.after _), made_after, State.clock_after, Nat.add_comm 1]
          · rfl
          · exact fun n hn => (lt_of_failedAt hn).le.trans' (State.clock_replicate t 1 _).ge

theorem materializeBase_eq (seen : List Key) : ∀ (es res : List LeafEnt) (t : State),
    materializeBase ω seen es res t =
      made t (liveBase seen es).length (res ++ liveBase seen es)
        (failedAt ω .liveKey (liveBase seen es).length t.clock)
  | [], res, t => by simp [materializeBase, liveBase, failedAt, made, State.after]; rfl
  | e :: es, res, t => by
    simp only [liveBase, materializeBase, List.filter_cons]
    split
    · rename_i h
      rw [if_neg (by simp [h])]
      exact materializeBase_eq seen es res t
    · rename_i h
      rw [if_pos (by simp [h]), List.length_cons, failedAt]
      show (if (!ω .liveKey t.clock) = true then materializeBase ω seen es (res ++ [e]) else pure none)
        (t.after (List.replicate 1 .liveKey)) = _
      cases hf : ω .liveKey t.clock with
      | true => exact (made_some t _ 1 _).symm
      | false =>
        simp only [Bool.not_false, if_true, Bool.false_eq_true, if_false]
        rw [materializeBase_eq seen es _ (t.after _), made_after, State.clock_after, Nat.add_comm 1, List.append_assoc]
        · rfl
        · exact fun n hn => (lt_of_failedAt hn).le.trans' (State.clock_replicate t 1 _).ge

/-- The allocations of `seen` and `res`, the last first. -/
def resSites (c : Chain) : List Site := if c.deltas = [] then [.live] else [.live, .seen]

/-- The number of the allocation after the one of `res`. -/
def resAt (c : Chain) (n : Nat) : Nat := n + (if c.deltas = [] then 1 else 2)

/-- `materialize_leaf`, from allocation number `n`: where it stops when an
allocation fails. -/
def materializeFails (ω : Pattern) (c : Chain) (n : Nat) : Option Nat :=
  if (c.deltas ≠ [] ∧ ω .seen n = true) ∨ ω .live (resAt c n - 1) = true then some (resAt c n)
  else failedAt ω .liveKey c.live.length (resAt c n)

theorem lossy_of_materializeFails {c : Chain} {n n' : Nat} (h : materializeFails ω c n = some n') : Lossy ω := by
  unfold materializeFails at h
  split at h
  · rename_i hf
    rcases hf with ⟨-, hf⟩ | hf
    · exact ⟨_, _, hf⟩
    · exact ⟨_, _, hf⟩
  · exact lossy_of_failedAt h

theorem clock_resSites (c : Chain) (t : State) : (t.after (resSites c)).clock = resAt c t.clock := by
  rw [State.clock_after, resSites, resAt]
  split <;> rfl

theorem le_of_materializeFails {c : Chain} {n n' : Nat} (h : materializeFails ω c n = some n') : resAt c n ≤ n' := by
  unfold materializeFails at h
  split at h
  · cases h
    exact le_rfl
  · exact (lt_of_failedAt h).le

/-- The two loops of `materialize_leaf`, after the allocations of `seen` and
`res`. -/
def materializeLoops (ω : Pattern) (c : Chain) : IndexM (Option (List LeafEnt)) := do
  match ← materializeDeltas ω c.deltas [] [] with
  | none => pure none
  | some (seen, res) =>
    match ← materializeBase ω seen c.base.lents res with
    | none => pure none
    | some res => pure (some (qsort res))

theorem materializeLoops_eq (c : Chain) (s : State) :
    materializeLoops ω c s = made s c.live.length c.live (failedAt ω .liveKey c.live.length s.clock) := by
  have hlen : c.live.length = c.entries.length := List.length_insertionSort _ _
  have hents : c.entries.length =
      (liveDeltas c.deltas [] []).2.length + (liveBase (liveDeltas c.deltas [] []).1 c.base.lents).length := by
    rw [Chain.entries, List.length_append]
  show (materializeDeltas ω c.deltas [] [] s >>= fun x => _) = _
  rw [materializeDeltas_eq, List.length_nil, Nat.sub_zero, hlen, hents, failedAt_add]
  cases failedAt ω .liveKey (liveDeltas c.deltas [] []).2.length s.clock with
  | some n => rfl
  | none =>
    show (materializeBase ω (liveDeltas c.deltas [] []).1 c.base.lents (liveDeltas c.deltas [] []).2
      (s.after (List.replicate (liveDeltas c.deltas [] []).2.length .liveKey)) >>= fun x => _) = _
    rw [materializeBase_eq, Option.none_or, made_after, State.clock_replicate]
    · cases failedAt ω .liveKey (liveBase (liveDeltas c.deltas [] []).1 c.base.lents).length
        (s.clock + (liveDeltas c.deltas [] []).2.length) <;> rfl
    · exact fun n hn => (lt_of_failedAt hn).le.trans' (State.clock_replicate s _ _).ge

theorem materializeLeaf_eq (c : Chain) (t : State) :
    materializeLeaf ω c t = made (t.after (resSites c)) c.live.length c.live (materializeFails ω c t.clock) := by
  have hfails : (c.deltas ≠ [] ∧ ω .seen t.clock = true) ∨ ω .live (resAt c t.clock - 1) = true →
      made (t.after (resSites c)) c.live.length c.live (materializeFails ω c t.clock) =
        .ok (none, t.after (resSites c)) := fun h => by
    rw [materializeFails, if_pos h, ← clock_resSites]
    exact made_some _ _ 0 _
  have hmakes : ¬((c.deltas ≠ [] ∧ ω .seen t.clock = true) ∨ ω .live (resAt c t.clock - 1) = true) →
      materializeFails ω c t.clock = failedAt ω .liveKey c.live.length (t.after (resSites c)).clock := fun h => by
    rw [materializeFails, if_neg h, clock_resSites]
  by_cases hd : c.deltas = []
  · have hat : resAt c t.clock = t.clock + 1 := by rw [resAt, if_pos hd]
    rw [hat] at hfails hmakes
    rw [materializeLeaf, if_pos hd]
    have hsites : resSites c = [.live] := by rw [resSites, if_pos hd]
    rw [hsites] at hfails hmakes ⊢
    show (if (true && !ω .live t.clock) = true then _ else pure none : IndexM _) (t.after [.live]) = _
    cases hl : ω .live t.clock with
    | true => exact (hfails (.inr hl)).symm
    | false =>
      rw [hmakes (by simp [hd, hl])]
      exact materializeLoops_eq c _
  · have hat : resAt c t.clock = t.clock + 2 := by rw [resAt, if_neg hd]
    rw [hat] at hfails hmakes
    rw [materializeLeaf, if_neg hd]
    have hsites : resSites c = [.live, .seen] := by rw [resSites, if_neg hd]
    rw [hsites] at hfails hmakes ⊢
    show (if (!ω .seen t.clock && !ω .live (t.clock + 1)) = true then _ else pure none : IndexM _)
      (t.after [.live, .seen]) = _
    cases hs : ω .seen t.clock with
    | true => exact (hfails (.inl ⟨hd, hs⟩)).symm
    | false =>
      cases hl : ω .live (t.clock + 1) with
      | true => exact (hfails (.inr hl)).symm
      | false =>
        rw [hmakes (by simp [hl, hs])]
        exact materializeLoops_eq c _

/-- `t'` is `t` after the allocations before number `n`. -/
def AtClock (t : State) (n : Nat) (t' : State) : Prop := ∃ sites, t' = t.after sites ∧ t'.clock = n

namespace AtClock

variable {t t' : State} {n : Nat}

theorem same (h : AtClock t n t') : Same t t' := by
  obtain ⟨sites, rfl, -⟩ := h
  exact .after t sites

theorem tick (h : AtClock t n t') (site : Site) : AtClock t (n + 1) (t'.tick site) := by
  obtain ⟨sites, rfl, rfl⟩ := h
  exact ⟨site :: sites, rfl, rfl⟩

end AtClock

theorem materializeLeaf_made {c : Chain} {t : State} (h : materializeFails ω c t.clock = none) :
    ∃ t', materializeLeaf ω c t = .ok (some c.live, t') ∧ AtClock t (resAt c t.clock + c.live.length) t' := by
  refine ⟨_, by rw [materializeLeaf_eq, h]; rfl, List.replicate c.live.length .liveKey ++ resSites c, ?_, ?_⟩
  · simp only [State.after, List.append_assoc]
  · rw [State.clock_after, clock_resSites, List.length_replicate]

theorem materializeLeaf_fails {c : Chain} {t : State} {n : Nat} (h : materializeFails ω c t.clock = some n) :
    ∃ t', materializeLeaf ω c t = .ok (none, t') ∧ AtClock t n t' := by
  refine ⟨_, by rw [materializeLeaf_eq, h]; rfl,
    List.replicate (n - (t.after (resSites c)).clock) .liveKey ++ resSites c, ?_, ?_⟩
  · simp only [State.after, List.append_assoc]
  · rw [State.clock_after, clock_resSites, List.length_replicate]
    exact Nat.add_sub_cancel' (le_of_materializeFails h)

theorem materializeLeaf_ends {c : Chain} {t : State} {Q : Option (List LeafEnt) → State → Prop}
    (hmade : ∀ t', Same t t' → Q (some c.live) t') (hfail : ∀ t', Same t t' → Lossy ω → Q none t') :
    Ends (materializeLeaf ω c) t Q := by
  cases hf : materializeFails ω c t.clock with
  | none =>
    obtain ⟨t', he, ht⟩ := materializeLeaf_made hf
    exact ⟨_, t', he, hmade t' ht.same⟩
  | some n =>
    obtain ⟨t', he, ht⟩ := materializeLeaf_fails hf
    exact ⟨_, t', he, hfail t' ht.same (lossy_of_materializeFails hf)⟩

end

end Dlsmc.Index
