import Dlsmc.Index.Rounds
import Dlsmc.Index.Write

/-!
# Running out of PIDs

`alloc_pid` returns `PID_NULL` when the map is full, and its callers do not
check it. A write is safe (`SafeWrite`) when every key reads as it should after
it, no PID that the tree refers to is `PID_NULL`, and `next_pid` stays within
the map. It is safe exactly when the map has room for the PIDs it takes
(`writeOp_safe_iff_room`): they are counted whether there is room or not
(`writeOp_count`).
-/

namespace Dlsmc.Index

open BLink

/-- The structural invariant: the map holds a tree, and nobody is working on
it. -/
def Structured (t : State) : Prop :=
  (∃ nd row top m, Inv False t nd row top none m) ∧ t.smoBusy = false

/-- The PIDs that the tree refers to: the root, the children, and the right
siblings of nodes with a high fence. -/
inductive Refers (t : State) : Pid → Prop where
  | root : Refers t t.root
  | child {p : Pid} {c : Chain} {e : IdxEnt} (h : Refers t p) (hc : (t.map p).head = some c) (he : e ∈ c.base.ients) :
    Refers t e.child
  | sibling {p : Pid} {c : Chain} (h : Refers t p) (hc : (t.map p).head = some c) (hf : c.base.highFence.key ≠ none) :
    Refers t c.base.rightSibling

/-- `dlsm_index_get` of the key returns `r`. -/
def Reads (t : State) (key : Bytes) (r : Status × Option DeltaPointer) : Prop :=
  ∃ t', ∃ N, ∀ fuel ≥ N, indexGet never fuel key t = .ok (r, t')

/-- The write of `key` that led from `t` to `t'` was safe. A null key with a
length is not written. -/
structure SafeWrite (t : State) (op : DeltaOp) (key : Bytes) (v : DeltaPointer) (t' : State) : Prop where
  written : Bytes.arg key ≠ none → ∀ key', Bytes.arg key' = Bytes.arg key →
    Reads t' key' (readOf (if op = .delete then none else some v))
  others : ∀ key' r, Bytes.arg key' ≠ Bytes.arg key → Reads t key' r → Reads t' key' r
  pids : ∀ p, Refers t' p → p ≠ PID_NULL ∧ (t'.map p).head ≠ none
  nextPid : t'.nextPid ≤ MAP_CAP

variable {t t' : State} {nd : Pid → Node Key Pid} {row : Nat → List Pid} {top : Nat}
  {m : Key → Option DeltaPointer} {p : Pid} {op : DeltaOp} {k : Key} {v : DeltaPointer}

theorem Inv.mono {lossy lossy' : Prop} {pend : Option (Pending Key Pid)} (h : Inv lossy t nd row top pend m)
    (hl : lossy → lossy') : Inv lossy' t nd row top pend m where
  shape := h.shape
  bound := h.bound
  cap := h.cap
  holds ℓ hℓ p hp := by
    obtain ⟨c, hc, hh⟩ := h.holds ℓ hℓ p hp
    exact ⟨c, hc,
      { hh with
        low := hh.low.imp id fun ⟨h₁, h₂⟩ => ⟨hl h₁, h₂⟩
        high := hh.high.imp id fun ⟨h₁, h₂⟩ => ⟨hl h₁, h₂⟩ }⟩
  values := h.values
  free := h.free

theorem drains_never (c : Chain) (n : Nat) : Drains never c n := by
  refine .now ?_
  cases h : attempt never c n with
  | none => rfl
  | some n' => exact absurd (lossy_of_attempt h) not_lossy_never

/-! ## Reads and references in a tree -/

theorem Inv.reads (h : Inv False t nd row top none m) {key : Bytes} (hkey : key.arg = some k) :
    Reads t key (readOf (m k)) := by
  obtain ⟨r, t', ⟨N, hN⟩, -, rfl⟩ := indexGet_spec tolerable_never (h.mono False.elim) hkey
  exact ⟨t', N, hN⟩

theorem Reads.unique {key : Bytes} {r r' : Status × Option DeltaPointer} (h : Reads t key r) (h' : Reads t key r') :
    r = r' := by
  obtain ⟨t₁, N, h⟩ := h
  obtain ⟨t₂, N', h'⟩ := h'
  have := (h _ (Nat.le_max_left N N')).symm.trans (h' _ (Nat.le_max_right N N'))
  rw [Except.ok.injEq, Prod.mk.injEq] at this
  exact this.1

/-- What the tree refers to is in its rows. -/
theorem Inv.refers (h : Inv False t nd row top none m) (hr : Refers t p) : ∃ ℓ ≤ top, p ∈ row ℓ := by
  induction hr with
  | root => exact ⟨top, le_rfl, h.shape.root_mem⟩
  | @child p c e _ hc he ih =>
    obtain ⟨ℓ, hℓ, hp⟩ := ih
    obtain ⟨c', hc', hh⟩ := h.holds ℓ hℓ p hp
    obtain rfl := Option.some.inj (hc.symm.trans hc')
    have hkid : e.child ∈ (nd p).kids := by
      rw [Node.kids, ← hh.ents, List.map_map]
      exact List.mem_map.mpr ⟨e, he, rfl⟩
    cases ℓ with
    | zero =>
      rw [Node.kids, h.shape.leaf p hp] at hkid
      cases hkid
    | succ ℓ => exact ⟨ℓ, by omega, h.shape.kid_mem hℓ hp hkid⟩
  | @sibling p c _ hc hf ih =>
    obtain ⟨ℓ, hℓ, hp⟩ := ih
    obtain ⟨c', hc', hh⟩ := h.holds ℓ hℓ p hp
    obtain rfl := Option.some.inj (hc.symm.trans hc')
    obtain ⟨l, r, hrow⟩ := List.append_of_mem hp
    refine ⟨ℓ, hℓ, ?_⟩
    rw [hh.right]
    obtain ⟨-, htop, -⟩ | ⟨q, r', rfl, hn, -⟩ := (h.shape.rows ℓ hℓ).right_of hrow
    · -- the last node of a row has no high fence
      obtain hhigh | ⟨hf', -⟩ := hh.high
      · rw [htop] at hhigh
        cases hb : c.base.highFence with
        | null n => rw [hb] at hf; exact absurd rfl hf
        | copy s => rw [hb] at hhigh; exact absurd hhigh (WithTop.coe_ne_top)
      · exact hf'.elim
    · rw [hn, hrow]
      simp

theorem Inv.pids (h : Inv False t nd row top none m) (hr : Refers t p) : p ≠ PID_NULL ∧ (t.map p).head ≠ none := by
  obtain ⟨ℓ, hℓ, hp⟩ := h.refers hr
  obtain ⟨c, hc, -⟩ := h.holds ℓ hℓ p hp
  refine ⟨?_, by simp [hc]⟩
  have := (h.bound ℓ hℓ p hp).trans_le h.cap
  rintro rfl
  exact absurd this (by decide)

/-- Null keys with a length read the same in every state. -/
theorem Reads.inval {key : Bytes} {r : Status × Option DeltaPointer} (hkey : key.arg = none) (h : Reads t key r) :
    Reads t' key r := by
  obtain ⟨t₁, N, h⟩ := h
  have hN := h N le_rfl
  simp only [indexGet, hkey] at hN
  obtain ⟨rfl, rfl⟩ : (.inval, none) = r ∧ t = t₁ := Prod.mk.inj (Except.ok.inj hN)
  exact ⟨t', N, fun fuel _ => by simp only [indexGet, hkey]; rfl⟩

/-- A write that leaves a tree with the values it wrote is safe. -/
theorem Inv.safeWrite (h : Inv False t nd row top none m) {nd' : Pid → Node Key Pid}
    {row' : Nat → List Pid} {top' : Nat} {key : Bytes} (hkey : key.arg = some k)
    (h' : Inv False t' nd' row' top' none (written m op k v)) :
    SafeWrite t op key v t' where
  written _ key' hkey' := by
    have := h'.reads (hkey'.trans hkey)
    rwa [Index.written, Function.update_self] at this
  others key' r hne hr := by
    cases hkey' : key'.arg with
    | none => exact hr.inval hkey'
    | some k' =>
      obtain rfl := hr.unique (h.reads hkey')
      have hk : k' ≠ k := fun e => hne (hkey'.trans (e ▸ hkey.symm))
      have := h'.reads hkey'
      rwa [Index.written, Function.update_of_ne hk] at this
  pids _ hp := h'.pids hp
  nextPid := h'.cap

/-- A call with a null key changes nothing. -/
theorem Inv.safeWrite_inval (h : Inv False t nd row top none m) {key : Bytes} (hkey : key.arg = none) :
    SafeWrite t op key v t where
  written hne := absurd hkey hne
  others _ _ _ hr := hr
  pids _ hp := h.pids hp
  nextPid := h.cap

/-! ## Counting PIDs -/

/-- The nodes of a path are internal, and each is in the next one above it
once. -/
def Ladder (t : State) : Pid → List Pid → Prop
  | _, [] => True
  | child, parent :: path =>
    (∃ b l e r, t.loadBase parent = .ok b ∧ b.ents = .internal b.ients ∧ b.ients = l ++ e :: r ∧ e.child = child ∧
      (∀ f ∈ l, f.child ≠ child) ∧ (∀ f ∈ r, f.child ≠ child) ∧ (∀ f ∈ b.ients.tail, f.sep.low ≠ ⊥) ∧
      t.numOf parent = b.ients.length) ∧ Ladder t parent path

theorem Ladder.congr : ∀ {path : List Pid} {c : Pid}, Ladder t c path → (∀ y ∈ path, t'.map y = t.map y) →
    Ladder t' c path
  | [], _, _, _ => trivial
  | q :: path, c, ⟨⟨b, l, e, r, hl, hrest⟩, hup⟩, h => by
    have hq := h q (by simp)
    have hnum : t'.numOf q = t.numOf q := by rw [State.numOf, hq, State.numOf]
    have hload : t'.loadBase q = t.loadBase q := by
      rw [State.loadBase, State.loadBase, State.loadHead, State.loadHead, hq]
    exact ⟨⟨b, l, e, r, hload.trans hl, by rw [hnum]; exact hrest⟩,
      hup.congr fun y hy => h y (List.mem_cons_of_mem _ hy)⟩

theorem Inv.ladder {lossy : Prop} (h : Inv lossy t nd row top none m) : ∀ {ps : List Pid} {ℓ : Nat} {p : Pid},
    Path nd t.root top ℓ (p :: ps) → Ladder t p ps
  | [], _, _, _ => trivial
  | q :: ps, ℓ, p, hpath => by
    obtain ⟨hc, hup⟩ := hpath.uncons
    have hℓ : ℓ < top := hup.le
    have hq := hup.head_mem h.shape
    obtain ⟨b, l, e, r, hl, -, hrest⟩ := h.parent_entry hℓ hq hc
    exact ⟨⟨b, l, e, r, hl, hrest⟩, h.ladder hup⟩

/-- An internal node with `n` entries. -/
def Base.Fanout (b : Base) (n : Nat) : Prop := b.ents = .internal b.ients ∧ b.ients.length = n

/-- A round of `install_sep` below the root: the parent gets an entry, and is
split when it is too full then; what is left is up to the caller of this
lemma. -/
theorem installSep_step {path : List Pid} {child parent right : Pid} {sep : Key}
    (hlad : Ladder t child (parent :: path)) (hcap : parent < MAP_CAP) {Q : Unit → State → Prop}
    (hdone : ∀ P t', ¬INTERNAL_MAX < t.numOf parent + 1 → P.Fanout (t.numOf parent + 1) →
      Same (t.setHead parent (some ⟨[], P⟩)) t' → Q () t')
    (hmore : ∀ P L R s t', INTERNAL_MAX < t.numOf parent + 1 → L.Fanout ((t.numOf parent + 1) / 2) →
      R.Fanout (t.numOf parent + 1 - (t.numOf parent + 1) / 2) →
      Same (((t.setHead parent (some ⟨[], P⟩)).bindPid ⟨[], R⟩).setHead parent (some ⟨[], L⟩)) t' →
      Ends (installSep never (parent :: path) parent (.copy s) t.freshPid) t' Q) :
    Ends (installSep never (child :: parent :: path) child (.copy sep) right) t Q := by
  obtain ⟨⟨b, l, e, r, hload, hents, hes, hec, hl, hr, hsep, hnum⟩, -⟩ := hlad
  refine Ends.bind (Ends.get (Ends.bind (Ends.lift hload ?_)))
  refine Ends.bind (cloneInternalInsert_ends tolerable_never fun low high t₁ hlow hhigh h₁ => ?_)
  refine Ends.bind (Ends.modify (Ends.bind (retireChain_ends ?_)))
  simp only [Option.map_some]
  generalize hP : b.withEnt (.copy sep) child right low high = P
  have hs : Same (t.setHead parent (some ⟨[], P⟩)) ((t₁.setHead parent (some ⟨[], P⟩)).tick .ebrNode) :=
    (h₁.setHead parent _).trans (.tick _)
  generalize (t₁.setHead parent (some ⟨[], P⟩)).tick .ebrNode = t₂ at hs ⊢
  have hPents : P.ents = .internal (l ++ e :: ⟨.copy sep, right⟩ :: r) := by
    rw [← hP, Base.withEnt, hes, insertEnt_append hec hl hr]
  have hPients : P.ients = l ++ e :: ⟨.copy sep, right⟩ :: r := by rw [Base.ients, hPents]
  have hlen : P.ients.length = t.numOf parent + 1 := by
    rw [hPients, hnum, hes]
    simp only [List.length_append, List.length_cons]
    omega
  have hPnum : P.num = t.numOf parent + 1 := by rw [Base.num_internal hPents, ← hPients, hlen]
  rw [hPnum]
  split
  · rename_i hfull
    have hPsep : ∀ f ∈ P.ients.tail, f.sep.low ≠ ⊥ := by
      have hmem : ∀ f ∈ P.ients.tail, f = ⟨.copy sep, right⟩ ∨ f ∈ b.ients.tail := by
        intro f hf
        rw [hPients] at hf
        rw [hes]
        cases l with
        | nil => simpa using hf
        | cons g l =>
          simp only [List.cons_append, List.tail_cons, List.mem_append, List.mem_cons] at hf ⊢
          tauto
      intro f hf
      rcases hmem f hf with rfl | hf
      · exact WithBot.coe_ne_bot
      · exact hsep f hf
    obtain ⟨f, s, hf, hfs⟩ := exists_middle hPsep (by rw [hlen]; exact hfull)
    have hload₂ : t₂.loadBase parent = .ok P := by
      refine State.loadBase_of (State.loadHead_of hcap ?_)
      rw [hs.map, State.setHead_self]
    refine Ends.bind (splitInternal_ends tolerable_never hload₂ (by rw [hPnum, ← hlen]; exact hf) hfs
      fun rlow rhigh llow lhigh t₃ _ _ _ _ h₃ => ?_)
    rw [hs.freshPid] at h₃ ⊢
    refine hmore P _ _ s t₃ hfull ⟨rfl, ?_⟩ ⟨rfl, ?_⟩ (((hs.bindPid _).setHead parent _).trans h₃)
    · simp only [Base.lowerHalf, Base.ients, hPents, dropSep_length, List.length_take]
      rw [← hPients, hlen, hPnum]
      omega
    · simp only [Base.upperHalf, Base.ients, hPents, dropSep_length, List.length_drop]
      rw [← hPients, hlen, hPnum]
  · rename_i hfit
    exact Ends.pure (hdone P t₂ hfit ⟨hPents.trans (by rw [hPients]), hlen⟩ hs)

/-- The nodes above a parent that was split are as they were. -/
theorem State.split_of_ne {P L R : Chain} {parent : Pid}
    (h : Same (((t.setHead parent (some P)).bindPid R).setHead parent (some L)) t') {y : Pid} (hyp : y ≠ parent)
    (hyn : y ≠ t.nextPid) : t'.map y = t.map y := by
  rw [h.map, State.setHead_of_ne hyp, State.bindPid_of_ne (t := t.setHead parent (some P)) hyn, State.setHead_of_ne hyp]

theorem State.split_fresh {P L R : Chain} {parent : Pid}
    (h : Same (((t.setHead parent (some P)).bindPid R).setHead parent (some L)) t') (hne : t.nextPid ≠ parent)
    (hcap : t.nextPid < MAP_CAP) : (t'.map t.nextPid).head = some R := by
  rw [h.map, State.setHead_of_ne hne]
  exact State.bindPid_self (t := t.setHead parent (some P)) hcap

/-- `install_sep` takes the PIDs of `State.cascade`, also when there are none
left. -/
theorem installSep_count : ∀ {path : List Pid} {t : State} {child right : Pid} {sep : Key}, Ladder t child path →
    (∃ c, t.loadHead child = .ok c) → (child :: path).Nodup → (∀ y ∈ child :: path, y < MAP_CAP ∧ y < t.nextPid) →
    t.nextPid + t.cascade (child :: path) ≤ MAP_CAP + MAP_CAP →
    Ends (installSep never (child :: path) child (.copy sep) right) t fun _ t' =>
      t'.nextPid = t.nextPid + t.cascade (child :: path)
  | [], t, child, right, sep, _, ⟨c, hl⟩, _, _, hroom => by
    refine Ends.bind (Ends.get (Ends.bind (Ends.lift hl ?_)))
    refine alloc_deref (tolerable_never _ rfl) (alloc_deref (tolerable_never _ rfl) ?_)
    refine Ends.bind (allocPid_ends (Ends.modify ?_))
    simp only [State.cascade] at hroom
    exact State.bindPid_nextPid (t := (t.tick .newRoot).tick .newRootEnts) (Nat.le_of_succ_le hroom)
  | parent :: path, t, child, right, sep, hlad, _, hnd, hlt, hroom => by
    obtain ⟨hpcap, hpnext⟩ := hlt parent (by simp)
    refine installSep_step hlad hpcap (fun P t' hfit _ hs => ?_) fun P L R s t₃ hfull _ _ h₃ => ?_
    · rw [State.cascade, if_neg hfit]
      exact hs.nextPid
    · rw [State.cascade, if_pos hfull] at hroom ⊢
      have hnext₃ : t₃.nextPid = t.nextPid + 1 := by
        rw [h₃.nextPid, State.setHead_nextPid, State.bindPid_nextPid (by rw [State.setHead_nextPid]; omega),
          State.setHead_nextPid]
      -- the nodes above the parent are as they were
      have habove : ∀ y ∈ path, t₃.map y = t.map y := fun y hy =>
        State.split_of_ne h₃ (fun e' => (List.nodup_cons.mp (List.nodup_cons.mp hnd).2).1 (e' ▸ hy))
          (hlt y (by simp [hy])).2.ne
      have hcas : t₃.cascade (parent :: path) = t.cascade (parent :: path) := State.cascade_congr habove
      refine (installSep_count (hlad.2.congr habove)
        ⟨⟨[], _⟩, State.loadHead_of hpcap (by rw [h₃.map, State.setHead_self])⟩
        (List.nodup_cons.mp hnd).2 (fun y hy => ?_) (by rw [hnext₃, hcas]; omega)).mono ?_
      · have := hlt y (List.mem_cons_of_mem _ hy)
        exact ⟨this.1, hnext₃ ▸ Nat.lt_succ_of_lt this.2⟩
      · rintro _ t' hnext'
        rw [hnext', hnext₃, hcas]
        omega

/-- The split of a leaf takes one PID more. -/
theorem splitLeaf_count {ps : List Pid} {c : Chain} (h : Inv (Lossy never) t nd row top none m)
    (hbusy : t.smoBusy = false) (hpath : Path nd t.root top 0 (p :: ps))
    (hto : ∀ fuel > top, t.descendWithPath k fuel t.root [] = .ok (p :: ps))
    (hc : (t.map p).head = some c) (hroom : t.nextPid + (1 + t.cascade (p :: ps)) ≤ MAP_CAP + MAP_CAP) :
    Returns (fun fuel => splitLeaf never fuel k) t fun _ t' =>
      t'.nextPid = t.nextPid + if LEAF_MAX < c.live.length then 1 + t.cascade (p :: ps) else 0 := by
  have hp : p ∈ row 0 := hpath.head_mem h.shape
  obtain ⟨c', hl, hc', -⟩ := h.load (Nat.zero_le _) hp
  obtain rfl : c' = c := Option.some.inj (hc'.symm.trans hc)
  have hcap := h.cap
  have hmem : ∀ y ∈ p :: ps, y < MAP_CAP ∧ y < t.nextPid := fun y hy => by
    obtain ⟨ℓ, hℓ, -, hrow⟩ := hpath.mem_row h.shape y hy
    have := h.bound ℓ hℓ y hrow
    exact ⟨this.trans_le hcap, this⟩
  have hnd : (p :: ps).Nodup := hpath.nodup h.shape
  have hround : Ends (splitRound never (p :: ps) p) { t with smoBusy := true } fun _ t' =>
      t'.nextPid = t.nextPid + if LEAF_MAX < c'.live.length then 1 + t.cascade (p :: ps) else 0 := by
    refine splitRound_cases (t := { t with smoBusy := true }) (c := c') tolerable_never hl (fun t' h₁ hlossy => ?_)
      fun llow lhigh rlow rhigh t₁ hi hfull _ _ _ _ h₁ => ?_
    · rw [if_neg fun hlt => not_lossy_never (hlossy hlt)]
      exact h₁.nextPid
    · rw [if_pos hfull]
      rw [Nat.add_comm 1, ← Nat.add_assoc] at hroom
      have hnext : t₁.nextPid = t.nextPid + 1 := by
        rw [h₁.nextPid, State.setHead_nextPid,
          State.bindPid_nextPid (t := { t with smoBusy := true }) (hcap.trans (Nat.le_add_right _ _))]
      have habove : ∀ y ∈ ps, t₁.map y = t.map y := fun y hy => by
        have hyp : y ≠ p := fun e' => (List.nodup_cons.mp hnd).1 (e' ▸ hy)
        have hyn : y ≠ t.nextPid := (hmem y (by simp [hy])).2.ne
        rw [h₁.map, State.setHead_of_ne hyp, State.bindPid_of_ne (t := { t with smoBusy := true }) hyn]
      have hcas : t₁.cascade (p :: ps) = t.cascade (p :: ps) := State.cascade_congr habove
      have hload : t₁.loadHead p = .ok ⟨[], _⟩ :=
        State.loadHead_of (hmem p (by simp)).1 (by rw [h₁.map, State.setHead_self])
      refine (installSep_count ((h.ladder hpath).congr habove) ⟨_, hload⟩ hnd (fun y hy => ?_)
        (by rw [hnext, hcas]; omega)).mono fun _ t' hnext' => ?_
      · rw [hnext]
        exact ⟨(hmem y hy).1, Nat.lt_succ_of_lt (hmem y hy).2⟩
      · rw [hnext', hnext, hcas]
        omega
  refine (splitLeaf_returns hbusy hto hround).mono ?_
  rintro _ t' ⟨t₁, rfl, hnext⟩
  exact hnext

theorem State.cascade_le : ∀ path : List Pid, t.cascade path ≤ path.length + 1
  | [] => le_rfl
  | [_] => Nat.le_succ _
  | _ :: parent :: path => by
    have := State.cascade_le (parent :: path)
    rw [State.cascade]
    split
    · simp only [List.length_cons] at this ⊢
      omega
    · omega

/-- A write takes the PIDs of `State.writeTakes`, whether there is room for them
or not. -/
theorem writeOp_count (h : Inv (Lossy never) t nd row top none m) (hbusy : t.smoBusy = false) {key : Bytes}
    (hkey : key.arg = some k) :
    Returns (fun fuel => writeOp never fuel op key v) t fun st t' =>
      st = .ok ∧ t'.nextPid = t.nextPid + t.writeTakes op k v := by
  obtain ⟨p, ps, hk, hpath, hto, -⟩ := h.exists_path k
  obtain ⟨c, -, hc, -⟩ := h.at_leaf (hpath.head_mem h.shape) hk
  have htakes : t.writeTakes op k v = if c.overflows op k v then 1 + t.cascade (p :: ps) else 0 := by
    simp only [State.writeTakes, hto, hc]
  refine writeOp_cases tolerable_never h hkey hpath hk hc (fun _ => drains_never _ _)
    (fun _ _ hlossy _ => absurd hlossy not_lossy_never) (fun t' c' hnear _ _ _ _ hover => ?_)
    fun t' c' hnear hinv hc' _ _ hover hover' => ?_
  · rw [htakes, hover not_lossy_never]
    exact ⟨rfl, hnear.nextPid⟩
  · obtain ⟨hpath', hcas, hto'⟩ := h.path_near hpath hk hnear hinv
    have hlen := hpath.length
    have htop := h.top_le
    have hroom : t'.nextPid + (1 + t'.cascade (p :: ps)) ≤ MAP_CAP + MAP_CAP := by
      have := State.cascade_le (t := t') (p :: ps)
      have := hinv.cap
      simp only [MAP_CAP] at *
      omega
    refine (splitLeaf_count hinv (hnear.smoBusy.trans hbusy) hpath' hto' hc' hroom).mono fun _ t'' hnext => ⟨rfl, ?_⟩
    rw [hnext, htakes, hnear.nextPid, hcas]
    by_cases hlive : LEAF_MAX < c'.live.length
    · rw [if_pos hlive, if_pos (hover hlive)]
    · rw [if_neg hlive, hover' hlive]
      rfl

/-- A write is safe when the map has room for the PIDs it takes, and only
then. -/
theorem writeOp_safe_iff_room (h : Structured t) (op : DeltaOp) (key : Bytes) (v : DeltaPointer) :
    ∃ st t', (∃ N, ∀ fuel ≥ N, writeOp never fuel op key v t = .ok (st, t')) ∧
      (SafeWrite t op key v t' ↔ ∀ k, key.arg = some k → t.nextPid + t.writeTakes op k v ≤ MAP_CAP) := by
  obtain ⟨⟨nd, row, top, m, hinv⟩, hbusy⟩ := h
  cases hkey : key.arg with
  | none =>
    refine ⟨.inval, t, ⟨0, fun fuel _ => by simp only [writeOp, hkey]; rfl⟩, fun _ _ hk => (by cases hk), fun _ => ?_⟩
    exact hinv.safeWrite_inval hkey
  | some k =>
    have hinv' : Inv (Lossy never) t nd row top none m := hinv.mono False.elim
    obtain ⟨_, t', hrun, rfl, hnext⟩ := @writeOp_count _ _ _ _ _ op k v hinv' hbusy key hkey
    refine ⟨.ok, t', hrun, fun hsafe k' hk' => ?_, fun hroom => ?_⟩
    · obtain rfl := Option.some.inj hk'
      exact hnext ▸ hsafe.nextPid
    · have hspec := writeOp_spec (v := v) tolerable_never hinv' hbusy hkey (fun _ _ _ _ _ _ => drains_never _ _)
        (hroom k rfl)
      obtain ⟨-, ⟨-, nd', row', top', hinv₁⟩ | ⟨hst, -⟩⟩ := hspec.of_eq hrun
      · exact hinv.safeWrite hkey (hinv₁.mono not_lossy_never)
      · cases hst

/-- A full map, with a leaf that the next write of a new key splits. -/
def fullMap : State where
  map pid :=
    { head :=
        if pid = 0 then
          some
            { deltas := (List.range 7).reverse.map fun i => ⟨.insert, i + 1, [UInt8.ofNat (32 + i)], ⟨0, 0, 0⟩⟩
              base :=
                { Base.leafNew with ents := .leaf ((List.range 32).map fun i => ⟨[UInt8.ofNat i], ⟨0, 0, 0⟩⟩) } }
        else none
      consolidating := false }
  nextPid := MAP_CAP
  root := 0
  smoBusy := false
  consolidations := 0
  leafSplits := 0
  internalSplits := 0
  registered := true
  allocs := []

theorem structured_fullMap : Structured fullMap :=
  ⟨⟨_, _, _, _, .single rfl rfl (by unfold Sorted; decide +kernel) (by decide) (by decide) fun _ => rfl⟩, rfl⟩

/-- The same tree with two PIDs left: the split takes both, for the right half
and for the new root. -/
def nearlyFull : State := { fullMap with nextPid := MAP_CAP - 2 }

theorem structured_nearlyFull : Structured nearlyFull :=
  ⟨⟨_, _, _, _, .single rfl rfl (by unfold Sorted; decide +kernel) (by decide) (by decide) fun _ => rfl⟩, rfl⟩

theorem writeOp_safe_split : nearlyFull.writeTakes .insert [200] ⟨0, 0, 7⟩ = 2 ∧ ∃ st t',
    (∃ N, ∀ fuel ≥ N, writeOp never fuel .insert (.copy [200]) ⟨0, 0, 7⟩ nearlyFull = .ok (st, t')) ∧
      SafeWrite nearlyFull .insert (.copy [200]) ⟨0, 0, 7⟩ t' := by
  have htakes : nearlyFull.writeTakes .insert [200] ⟨0, 0, 7⟩ = 2 := by decide +kernel
  obtain ⟨st, t', hrun, hiff⟩ := writeOp_safe_iff_room structured_nearlyFull .insert (.copy [200]) ⟨0, 0, 7⟩
  refine ⟨htakes, st, t', hrun, hiff.mpr fun k hk => ?_⟩
  have hkey : [200] = k := Option.some.inj hk
  rw [← hkey, htakes]
  rfl

/-- The index is left without a root by a write that finds no PID for it. -/
theorem exists_unsafe_write : ¬∀ t, Structured t → ∀ op key v, ∃ st t',
    (∃ N, ∀ fuel ≥ N, writeOp never fuel op key v t = .ok (st, t')) ∧ SafeWrite t op key v t' := by
  intro h
  obtain ⟨st, t', ⟨N, hN⟩, hsafe⟩ := h fullMap structured_fullMap .insert (.copy [200]) ⟨0, 0, 0⟩
  have hrun : ((writeOp never 3 .insert (.copy [200]) ⟨0, 0, 0⟩ fullMap).toOption.map fun x => x.2.root) =
      some PID_NULL := by decide +kernel
  have hext := Extends.of_le (@writeOp_extends never .insert (.copy [200]) ⟨0, 0, 0⟩) (Nat.le_max_left 3 N) fullMap
  rw [hN _ (Nat.le_max_right 3 N)] at hext
  cases hw : writeOp never 3 .insert (.copy [200]) ⟨0, 0, 0⟩ fullMap with
  | error e =>
    rw [hw] at hrun
    cases hrun
  | ok x =>
    rw [hw] at hrun hext
    obtain rfl : (st, t') = x := Except.ok.inj (hext nofun)
    have hroot : t'.root = PID_NULL := Option.some.inj hrun
    exact (hsafe.pids PID_NULL (hroot ▸ .root)).1 rfl

end Dlsmc.Index
