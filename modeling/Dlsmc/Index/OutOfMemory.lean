import Dlsmc.Index.Allocations
import Dlsmc.Index.Rounds
import Dlsmc.Index.Write

/-!
# Running out of memory

A thread calls the functions of an index one after the other, while allocations
fail as a pattern says (`Run`). The calls are right in a state (`Sound`) when
each ends with a status that is documented for it, `DLSM_INDEX_E_NOMEM` only
after an allocation of its own failed, and a read returns what the writes left
that returned `DLSM_OK`.

They are right in every state of a run whose calls make no allocation that fails
and whose result the code uses unchecked (`Tolerated`), and are calls that the
index has room for (`Fits`): `sound_of_run`.
-/

namespace Dlsmc.Index

open BLink

/-- A call of a function of the index. -/
inductive Call where
  | get (key : Bytes)
  | insert (key : Bytes) (v : DeltaPointer)
  | update (key : Bytes) (v : DeltaPointer)
  | delete (key : Bytes)

namespace Call

/-- The call: the status, and what is in `*out`. -/
def exec (ω : Pattern) (fuel : Nat) : Call → IndexM (Status × Option DeltaPointer)
  | get key => indexGet ω fuel key
  | insert key v => do pure (← indexInsert ω fuel key v, none)
  | update key v => do pure (← indexUpdate ω fuel key v, none)
  | delete key => do pure (← indexDelete ω fuel key, none)

/-- What a call writes; a null key with a length is not written. -/
def write : Call → Option (DeltaOp × Bytes × DeltaPointer)
  | get _ => none
  | insert key v => some (.insert, key, v)
  | update key v => some (.update, key, v)
  | delete key => some (.delete, key, ⟨DP_TOMBSTONE, 0, 0⟩)

/-- The values after a call with a status: a write that returned `DLSM_OK` is
applied. -/
def apply (c : Call) (st : Status) (m : Key → Option DeltaPointer) : Key → Option DeltaPointer :=
  match c.write, st with
  | some (op, key, v), .ok =>
    match key.arg with
    | some k => written m op k v
    | none => m
  | _, _ => m

/-- The result is documented for the call, made in `t` with the values `m` and
ended in `t'`. -/
def Documented (ω : Pattern) (t t' : State) (m : Key → Option DeltaPointer) (r : Status × Option DeltaPointer) :
    Call → Prop
  | get key => r = (match key.arg with | some k => readOf (m k) | none => (.inval, none))
  | insert key _ | update key _ | delete key =>
    match key.arg with
    | some _ => r.1 = .ok ∨ r.1 = .nomem ∧ Denied ω t t'
    | none => r.1 = .inval

/-- The index has room for what the call writes: a chain at its cap can be
drained, and the map has room for the PIDs of the splits. -/
def Fits (ω : Pattern) (t : State) (c : Call) : Prop :=
  ∀ op key v k, c.write = some (op, key, v) → key.arg = some k →
    (∀ p ps h, t.pathTo k = p :: ps → (t.map p).head = some h → CHAIN_CAP ≤ h.depth → Drains ω h t.slotClock) ∧
      t.nextPid + t.writeTakes op k v ≤ MAP_CAP

end Call

/-- The call ends, without a fault, with the result `r`. -/
def Executes (ω : Pattern) (c : Call) (t : State) (r : Status × Option DeltaPointer) (t' : State) : Prop :=
  ∃ N, ∀ fuel ≥ N, c.exec ω fuel t = .ok (r, t')

/-- A run that leads from a new index to `t`, with calls that meet `C`; the
writes that returned `DLSM_OK` give the values `m`. -/
inductive Run (ω : Pattern) (C : State → Call → Prop) : State → (Key → Option DeltaPointer) → Prop where
  | new {t : State} (h : indexNew ω = some t) : Run ω C t fun _ => none
  | call {t t' : State} {m : Key → Option DeltaPointer} {c : Call} {r : Status × Option DeltaPointer} (h : Run ω C t m)
    (hc : C t c) (he : Executes ω c t r t') : Run ω C t' (c.apply r.1 m)

/-- The pattern without its failures at the sites whose result is used
unchecked. -/
def unfailing (ω : Pattern) : Pattern := fun s n => !s.unchecked && ω s n

/-- Of the allocations that the call makes as long as they do not fail at a site
whose result is used unchecked, none fails at such a site. -/
def Call.Tolerated (ω : Pattern) (t : State) (c : Call) : Prop :=
  ∀ r t', Executes (unfailing ω) c t r t' → ∀ s n, Allocates t t' s n → s.unchecked = true → ω s n = false

/-- In the state `t`, which should have the values `m`, the calls that meet `C`
end as documented. -/
def Sound (ω : Pattern) (C : State → Call → Prop) (t : State) (m : Key → Option DeltaPointer) : Prop :=
  ∀ c, C t c → ∃ r t', Executes ω c t r t' ∧ c.Documented ω t t' m r

/-! ## One call -/

section

variable {ω : Pattern} {t t' : State} {c : Call} {r r' : Status × Option DeltaPointer} {m : Key → Option DeltaPointer}

/-- The map holds a tree with the values `m`, and nobody is working on it. -/
def Intact (ω : Pattern) (t : State) (m : Key → Option DeltaPointer) : Prop :=
  (∃ nd row top, Inv (Lossy ω) t nd row top none m) ∧ t.smoBusy = false

theorem Executes.unique (h : Executes ω c t r t') {t'' : State} (h' : Executes ω c t r' t'') : r = r' ∧ t' = t'' := by
  obtain ⟨N, h⟩ := h
  obtain ⟨N', h'⟩ := h'
  have := (h _ (Nat.le_max_left N N')).symm.trans (h' _ (Nat.le_max_right N N'))
  rwa [Except.ok.injEq, Prod.mk.injEq] at this

theorem Call.exec_write {op : DeltaOp} {key : Bytes} {v : DeltaPointer} (hc : c.write = some (op, key, v))
    (fuel : Nat) :
    c.exec ω fuel = writeOp ω fuel op key v >>= fun st => pure (st, none) := by
  cases c <;> cases hc <;> rfl

theorem Call.documented_write {op : DeltaOp} {key : Bytes} {v : DeltaPointer} (hc : c.write = some (op, key, v)) :
    c.Documented ω t t' m r ↔
      (∀ k, key.arg = some k → r.1 = .ok ∨ r.1 = .nomem ∧ Denied ω t t') ∧ (key.arg = none → r.1 = .inval) := by
  cases c <;> cases hc <;> unfold Call.Documented <;> dsimp only <;> cases Bytes.arg _ <;> simp

/-- A write from a tree. -/
theorem Intact.write (hω : Tolerable ω) (h : Intact ω t m) {op : DeltaOp} {key : Bytes} {v : DeltaPointer}
    (hc : c.write = some (op, key, v)) (hfit : c.Fits ω t) :
    ∃ r t', Executes ω c t r t' ∧ c.Documented ω t t' m r ∧ Intact ω t' (c.apply r.1 m) := by
  obtain ⟨⟨nd, row, top, hinv⟩, hbusy⟩ := h
  cases hkey : key.arg with
  | none =>
    refine ⟨(.inval, none), t, ⟨0, fun fuel _ => ?_⟩, (Call.documented_write hc).mpr ?_, ?_⟩
    · rw [Call.exec_write hc]
      simp only [writeOp, hkey]
      rfl
    · exact ⟨fun k hk => absurd hk (by simp [hkey]), fun _ => rfl⟩
    · simp only [Call.apply, hc]
      exact ⟨⟨nd, row, top, hinv⟩, hbusy⟩
  | some k =>
    obtain ⟨hdrain, hroom⟩ := hfit op key v k hc hkey
    obtain ⟨st, t', ⟨N, hN⟩, hbusy', hst⟩ := writeOp_spec hω hinv hbusy hkey hdrain hroom
    refine ⟨(st, none), t', ⟨N, fun fuel hfuel => ?_⟩, (Call.documented_write hc).mpr ⟨fun _ _ => ?_, ?_⟩, ?_⟩
    · rw [Call.exec_write hc]
      show (writeOp ω fuel op key v t >>= fun x => Except.ok ((x.1, none), x.2)) = _
      rw [show writeOp ω fuel op key v t = _ from hN fuel hfuel]
      rfl
    · rcases hst with ⟨rfl, -⟩ | ⟨rfl, -, -⟩
      · exact .inl rfl
      · exact .inr ⟨rfl, writeOp_nomem (hN N le_rfl)⟩
    · exact fun hk => absurd hk (by simp [hkey])
    · rcases hst with ⟨rfl, hinv'⟩ | ⟨rfl, -, hinv'⟩
      · simp only [Call.apply, hc, hkey]
        exact ⟨hinv', hbusy'⟩
      · simp only [Call.apply, hc]
        exact ⟨hinv', hbusy'⟩

/-- A call from a tree ends as documented, in a tree with the values that the
call leaves. -/
theorem Intact.call (hω : Tolerable ω) (h : Intact ω t m) (hfit : c.Fits ω t) :
    ∃ r t', Executes ω c t r t' ∧ c.Documented ω t t' m r ∧ Intact ω t' (c.apply r.1 m) := by
  cases hc : c.write with
  | some w => exact h.write hω hc hfit
  | none =>
    obtain ⟨⟨nd, row, top, hinv⟩, hbusy⟩ := h
    cases c with
    | get key =>
      have happly : ∀ st, (Call.get key).apply st m = m := fun _ => rfl
      cases hkey : key.arg with
      | none =>
        refine ⟨(.inval, none), t, ⟨0, fun fuel _ => ?_⟩, by simp only [Call.Documented, hkey], ?_⟩
        · simp only [Call.exec, indexGet, hkey]
          rfl
        · exact ⟨⟨nd, row, top, hinv⟩, hbusy⟩
      | some k =>
        obtain ⟨r, t', hrun, hs, rfl⟩ := indexGet_spec hω hinv hkey
        refine ⟨_, t', hrun, by simp only [Call.Documented, hkey], ?_⟩
        rw [happly]
        exact ⟨⟨nd, row, top, hinv.congr hs⟩, hs.smoBusy.trans hbusy⟩
    | insert _ _ => cases hc
    | update _ _ => cases hc
    | delete _ => cases hc

theorem Call.exec_follows {ω' : Pattern} (c : Call) (fuel : Nat) : Follows ω ω' (c.exec ω fuel) (c.exec ω' fuel) := by
  cases c with
  | get key => exact indexGet_follows fuel key
  | insert key v => exact .bind (writeOp_follows fuel _ key v) fun _ => .pure _
  | update key v => exact .bind (writeOp_follows fuel _ key v) fun _ => .pure _
  | delete key => exact .bind (writeOp_follows fuel _ key _) fun _ => .pure _

theorem Executes.follows {ω' : Pattern} (h : Executes ω c t r t')
    (hagree : ∀ s n, Allocates t t' s n → ω' s n = ω s n) : Executes ω' c t r t' := by
  obtain ⟨N, hN⟩ := h
  exact ⟨N, fun fuel hfuel => (Call.exec_follows c fuel _ _ _ (hN fuel hfuel)).2 hagree⟩

/-! ## Patterns without the failures that the code does not check -/

theorem tolerable_unfailing (ω : Pattern) : Tolerable (unfailing ω) := fun s hs n => by
  rw [unfailing, hs, Bool.not_true, Bool.false_and]

theorem unfailing_of_checked {s : Site} (hs : s.unchecked = false) (n : Nat) : unfailing ω s n = ω s n := by
  rw [unfailing, hs, Bool.not_false, Bool.true_and]

theorem unfailing_le {s : Site} {n : Nat} (h : unfailing ω s n = true) : ω s n = true := (Bool.and_eq_true_iff.mp h).2

theorem Denied.of_unfailing (h : Denied (unfailing ω) t t') : Denied ω t t' := by
  obtain ⟨s, n, ha, hω⟩ := h
  exact ⟨s, n, ha, unfailing_le hω⟩

theorem Call.Documented.of_unfailing (h : c.Documented (unfailing ω) t t' m r) : c.Documented ω t t' m r := by
  cases hc : c.write with
  | some w =>
    rw [documented_write hc] at h ⊢
    exact ⟨fun k hk => (h.1 k hk).imp_right fun hd => ⟨hd.1, hd.2.of_unfailing⟩, h.2⟩
  | none =>
    cases c with
    | get key => exact h
    | insert _ _ => cases hc
    | update _ _ => cases hc
    | delete _ => cases hc

/-- The consolidations allocate at checked sites only. -/
theorem attempt_unfailing (ch : Chain) (n : Nat) : attempt (unfailing ω) ch n = attempt ω ch n := by
  have hkeys : ∀ k n, failedAt (unfailing ω) .liveKey k n = failedAt ω .liveKey k n := by
    intro k
    induction k with
    | zero => exact fun _ => rfl
    | succ k ih =>
      intro n
      rw [failedAt, failedAt, ih, unfailing_of_checked rfl]
  simp only [attempt, materializeFails, hkeys, unfailing_of_checked (s := .seen) rfl,
    unfailing_of_checked (s := .live) rfl, unfailing_of_checked (s := .consolidated) rfl]

theorem Drains.unfailing {ch : Chain} {n : Nat} (h : Drains ω ch n) : Drains (unfailing ω) ch n := by
  induction h with
  | now h => exact .now ((attempt_unfailing ch _).trans h)
  | again h _ ih => exact .again ((attempt_unfailing ch _).trans h) ih

theorem Call.Fits.unfailing (h : c.Fits ω t) : c.Fits (unfailing ω) t := fun op key v k hc hkey => by
  obtain ⟨hdrain, hroom⟩ := h op key v k hc hkey
  exact ⟨fun p ps ch hpath hhead hdepth => (hdrain p ps ch hpath hhead hdepth).unfailing, hroom⟩

/-- A call that makes no allocation that fails unchecked is the same without
those failures. -/
theorem Call.Tolerated.executes (h : c.Tolerated ω t) (he : Executes (unfailing ω) c t r t') :
    Executes ω c t r t' := by
  refine he.follows fun s n ha => ?_
  cases hs : s.unchecked with
  | true => rw [h r t' he s n ha hs, tolerable_unfailing ω s hs n]
  | false => exact (unfailing_of_checked hs n).symm

/-! ## Runs -/

/-- The call is one that the code can bear. -/
structure Call.Bearable (ω : Pattern) (t : State) (c : Call) : Prop where
  fits : c.Fits ω t
  tolerated : c.Tolerated ω t

theorem Intact.bearable (h : Intact (unfailing ω) t m) (hc : c.Bearable ω t) :
    ∃ r t', Executes ω c t r t' ∧ c.Documented ω t t' m r ∧ Intact (unfailing ω) t' (c.apply r.1 m) := by
  obtain ⟨r, t', he, hdoc, hintact⟩ := h.call (tolerable_unfailing ω) hc.fits.unfailing
  exact ⟨r, t', hc.tolerated.executes he, hdoc.of_unfailing, hintact⟩

theorem indexNew_unfailing (ω : Pattern) : indexNew (unfailing ω) = indexNew ω := by
  simp only [indexNew, unfailing_of_checked (s := .index) rfl, unfailing_of_checked (s := .map) rfl,
    unfailing_of_checked (s := .root) rfl]

/-- The tree is intact after every call of a run. -/
theorem Intact.run (h : Run ω (fun t c => c.Bearable ω t) t m) : Intact (unfailing ω) t m := by
  induction h with
  | new h =>
    obtain ⟨hinv, hbusy⟩ := indexNew_spec ((indexNew_unfailing ω).trans h)
    exact ⟨hinv, hbusy⟩
  | call _ hc he ih =>
    obtain ⟨r, t', he', -, hintact⟩ := ih.bearable hc
    obtain ⟨rfl, rfl⟩ := he.unique he'
    exact hintact

/-- In a run whose calls make no allocation that fails unchecked, and which the
index has room for, the calls are right in every state. -/
theorem sound_of_run (h : Run ω (fun t c => c.Bearable ω t) t m) : Sound ω (fun t c => c.Bearable ω t) t m :=
  fun _ hc => by
    obtain ⟨r, t', he, hdoc, -⟩ := (Intact.run h).bearable hc
    exact ⟨r, t', he, hdoc⟩

/-! ## Calls that were run -/

theorem Call.exec_extends (n : Nat) : Extends .fuel (c.exec ω n) (c.exec ω (n + 1)) := by
  cases c with
  | get key => exact indexGet_extends n
  | insert key v => exact .bind (writeOp_extends n) fun _ => .refl _
  | update key v => exact .bind (writeOp_extends n) fun _ => .refl _
  | delete key => exact .bind (writeOp_extends n) fun _ => .refl _

theorem Executes.of_eq {n : Nat} (h : c.exec ω n t = .ok (r, t')) : Executes ω c t r t' :=
  ⟨n, fun _ hn => by rw [Extends.of_le Call.exec_extends hn t (by rw [h]; nofun), h]⟩

/-- A call that faults with some number of rounds does not end. -/
theorem not_executes {n : Nat} {e : Fault} (h : c.exec ω n t = .error e) (he : e ≠ .fuel) : ¬Executes ω c t r t' := by
  rintro ⟨N, hN⟩
  have hext := Extends.of_le Call.exec_extends (Nat.le_max_left n N) t (by rw [h]; simpa using he)
  rw [hN _ (Nat.le_max_right n N), h] at hext
  cases hext

/-- The state after the calls, one after the other, if each of them passes a
check before it is made. -/
def calls (ω : Pattern) (n : Nat) (ok : State → Call → Bool) : List Call → State → Option State
  | [], t => some t
  | c :: cs, t =>
    match c.exec ω n t with
    | .ok x => if ok t c then calls ω n ok cs x.2 else none
    | .error _ => none

theorem calls_cons {n : Nat} {ok : State → Call → Bool} {cs : List Call} (h : calls ω n ok (c :: cs) t = some t') :
    ∃ r t₁, ok t c = true ∧ Executes ω c t r t₁ ∧ calls ω n ok cs t₁ = some t' := by
  rw [calls] at h
  cases he : c.exec ω n t with
  | error e =>
    rw [he] at h
    cases h
  | ok x =>
    rw [he] at h
    dsimp only at h
    split at h
    · exact ⟨x.1, x.2, ‹_›, .of_eq he, h⟩
    · cases h

theorem Run.calls {C : State → Call → Prop} {n : Nat} {ok : State → Call → Bool}
    (hok : ∀ t c, ok t c = true → C t c) : ∀ {cs : List Call} {t : State} {m : Key → Option DeltaPointer},
    Run ω C t m → calls ω n ok cs t = some t' → ∃ m', Run ω C t' m'
  | [], t, m, h, hcs => by
    cases hcs
    exact ⟨m, h⟩
  | c :: cs, t, m, h, hcs => by
    obtain ⟨r, t₁, hc, he, hcs⟩ := calls_cons hcs
    exact Run.calls hok (h.call (hok t c hc) he) hcs

end

/-- The insertion of a key of one byte. -/
def insertByte (i : Nat) : Call := .insert (.copy [UInt8.ofNat (7 * i)]) ⟨0, 0, 0⟩

/-- There is no memory for new leaves, so that the leaf is never consolidated;
a split would use a half of it that was not allocated. -/
def noLeaf : Pattern := fun s _ => decide (s = .consolidated ∨ s = .leafHalf)

/-- The call is an insertion on a chain below its cap, takes no PID beyond the
map, and does not come to a split. -/
def Call.smooth (t : State) : Call → Bool
  | insert (.copy key) v =>
    (match (t.pathTo key).head?.bind fun p => (t.map p).head with
      | some h => decide (h.depth < CHAIN_CAP)
      | none => true) &&
    decide (t.nextPid + t.writeTakes .insert key v ≤ MAP_CAP) && decide (key.length < 2 ^ 32) &&
    match (Call.insert (.copy key) v).exec (unfailing noLeaf) 3 t with
    | .ok x => x.2.allocs.all fun s => decide (s ≠ .leafHalf)
    | .error _ => false
  | _ => false

theorem Call.bearable_of_smooth (t : State) (c : Call) (h : c.smooth t = true) : c.Bearable noLeaf t := by
  obtain ⟨key, v, rfl⟩ : ∃ key v, c = insert (.copy key) v := by
    cases c with
    | insert key v =>
      cases key with
      | null n => cases h
      | copy key => exact ⟨key, v, rfl⟩
    | get _ => cases h
    | update _ _ => cases h
    | delete _ => cases h
  simp only [smooth, Bool.and_eq_true, decide_eq_true_eq] at h
  obtain ⟨⟨⟨hdepth, hroom⟩, hlen⟩, hrun⟩ := h
  have harg : (Bytes.copy key).arg = some key := by
    rw [Bytes.arg, Nat.mod_eq_of_lt hlen]
    exact congrArg some List.take_length
  constructor
  · rintro op _ _ k ⟨rfl, rfl, rfl⟩ hkey
    obtain rfl := Option.some.inj (harg.symm.trans hkey)
    refine ⟨fun p ps ch hpath hhead hcap => ?_, hroom⟩
    rw [hpath, List.head?_cons, Option.bind_some, hhead] at hdepth
    exact absurd hcap (Nat.not_le.mpr (of_decide_eq_true hdepth))
  · intro r t' he s n ha hs
    cases hex : (Call.insert (.copy key) v).exec (unfailing noLeaf) 3 t with
    | error e =>
      rw [hex] at hrun
      cases hrun
    | ok x =>
      rw [hex] at hrun
      obtain rfl := (he.unique (.of_eq hex)).2
      have hmem : s ∈ x.2.allocs := List.mem_reverse.mp (List.mem_of_getElem? ha.2)
      have hhalf : s ≠ .leafHalf := of_decide_eq_true (List.all_eq_true.mp hrun s hmem)
      have hleaf : s ≠ .consolidated := by
        rintro rfl
        cases hs
      exact decide_eq_false (not_or.mpr ⟨hleaf, hhalf⟩)

/-- Twenty insertions, all of which keep their deltas: no consolidation finds
memory. -/
theorem sound_of_run_unconsolidated : ∃ t m, Run noLeaf (fun t c => c.Bearable noLeaf t) t m ∧
    t.consolidations = 0 ∧ (t.map 0).head.map Chain.depth = some 20 ∧
      Sound noLeaf (fun t c => c.Bearable noLeaf t) t m := by
  obtain ⟨t₀, h₀⟩ : ∃ t, indexNew noLeaf = some t := ⟨_, rfl⟩
  have hrun : (calls noLeaf 3 (fun t c => c.smooth t) ((List.range 20).map insertByte) t₀).map
      (fun t => t.consolidations == 0 && (t.map 0).head.map Chain.depth == some 20) = some true := by
    cases h₀
    decide +kernel
  obtain ⟨t, hcs, ht⟩ := Option.map_eq_some_iff.mp hrun
  rw [Bool.and_eq_true, beq_iff_eq, beq_iff_eq] at ht
  obtain ⟨m, hm⟩ := Run.calls Call.bearable_of_smooth (.new h₀) hcs
  exact ⟨t, m, hm, ht.1, ht.2, sound_of_run hm⟩

/-- There is no memory for the halves of a leaf. -/
def scarce : Pattern := fun s _ => decide (s = .leafHalf)

/-- The fortieth insertion splits the leaf, and uses a half that was not
allocated. -/
theorem exists_unsound_run : ¬∀ ω t m, Run ω (fun _ _ => True) t m → Sound ω (fun _ _ => True) t m := by
  intro h
  obtain ⟨t, ht⟩ : ∃ t, indexNew scarce = some t := ⟨_, rfl⟩
  have hrun : (match calls scarce 3 (fun _ _ => true) ((List.range 39).map insertByte) t with
      | some t' => (match (insertByte 39).exec scarce 3 t' with | .error .nullPointer => true | _ => false)
      | none => false) = true := by
    cases ht
    decide +kernel
  cases hcs : calls scarce 3 (fun _ _ => true) ((List.range 39).map insertByte) t with
  | none =>
    rw [hcs] at hrun
    cases hrun
  | some t' =>
    rw [hcs] at hrun
    dsimp only at hrun
    obtain ⟨m, hm⟩ := Run.calls (C := fun _ _ => True) (fun _ _ _ => trivial) (.new ht) hcs
    obtain ⟨r, t'', he, -⟩ := h scarce t' m hm (insertByte 39) trivial
    cases hlast : (insertByte 39).exec scarce 3 t' with
    | ok x =>
      rw [hlast] at hrun
      cases hrun
    | error e =>
      rw [hlast] at hrun
      refine not_executes hlast ?_ he
      rintro rfl
      cases hrun

end Dlsmc.Index
