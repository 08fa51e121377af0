import Dlsmc.Greenthread.LocalStorage

/-!
# Task-local storage is isolated

As long as no slot is created `2^32 - 1` times the generation of a slot is the
number of times it was created (`Keys`), so a key says which creation of its
slot it came from: it is live exactly when the check of the key succeeds
(`Keys.live_iff`). A task's entry for a slot carries the generation it was last
set under, which is at most that number (`TaskInv`); an entry set under a key
that was deleted since is older than the live key and never returned.
-/

namespace Dlsmc.LocalStorage

/-- No slot was created `2^32 - 1` times. -/
def Small (s : State) : Prop := ∀ i < localKeysMax, made s i < 2 ^ 32 - 1

instance (s : State) : Decidable (Small s) := inferInstanceAs (Decidable (∀ i < localKeysMax, _))

/-! ## Keys -/

theorem decode_eq_some {key : UInt64} {i g : Nat} :
    decode key = some (i, g) ↔ key.toNat = g * 2 ^ 32 + (i + 1) ∧ i < localKeysMax ∧ 0 < g := by
  unfold decode localKeysMax
  generalize key.toNat = n
  split
  · simp only [false_iff, reduceCtorEq]
    omega
  · simp only [Option.some.injEq, Prod.mk.injEq]
    omega

theorem decode_inj {key key' : UInt64} {p : Nat × Nat} (h : decode key = some p) (h' : decode key' = some p) :
    key = key' :=
  UInt64.toNat_inj.mp ((decode_eq_some.mp h).1.trans (decode_eq_some.mp h').1.symm)

theorem decode_encode {i g : Nat} (hi : i < localKeysMax) (hg : 0 < g) (hg' : g < 2 ^ 32) :
    decode (encode i g) = some (i, g) := by
  refine decode_eq_some.mpr ⟨?_, hi, hg⟩
  have hi' : i < 64 := hi
  rw [encode, UInt64.toNat_ofNat', Nat.mod_eq_of_lt]
  omega

/-- What the slots say about the keys created and deleted so far. -/
structure Keys (s : State) : Prop where
  gen : ∀ i < localKeysMax, (s.slots i).generation = made s i
  created : ∀ key, key ∈ s.created ↔ ∃ i g, decode key = some (i, g) ∧ g ≤ made s i
  deleted : ∀ key, key ∈ s.deleted ↔
    ∃ i g, decode key = some (i, g) ∧ (g < made s i ∨ g = made s i ∧ (s.slots i).active = false)
  nodup : s.created.Nodup

theorem made_congr {s s' : State} (h : s'.created = s.created) (i : Nat) : made s' i = made s i := by
  rw [made, made, h]

theorem Keys.congr {s s' : State} (h : Keys s) (hs : s'.slots = s.slots) (hc : s'.created = s.created)
    (hd : s'.deleted = s.deleted) : Keys s' where
  gen i hi := by rw [hs, made_congr hc]; exact h.gen i hi
  created key := by
    simp only [hc, made_congr hc]
    exact h.created key
  deleted key := by
    simp only [hs, hd, made_congr hc]
    exact h.deleted key
  nodup := hc ▸ h.nodup

/-- A key is live exactly when the check of it succeeds. -/
theorem Keys.live_iff {s : State} (h : Keys s) {key : UInt64} {i g : Nat} (hk : decode key = some (i, g)) :
    Live s key ↔ valid s i g = true := by
  obtain ⟨-, hi, hg⟩ := decode_eq_some.mp hk
  simp only [Live, h.created, h.deleted, hk, Option.some.injEq, Prod.mk.injEq, valid, Bool.and_eq_true, beq_iff_eq,
    h.gen i hi]
  constructor
  · rintro ⟨⟨j, g', ⟨rfl, rfl⟩, hle⟩, hd⟩
    have hlt : ¬ g < made s i := fun hlt => hd ⟨i, g, ⟨rfl, rfl⟩, .inl hlt⟩
    have heq : made s i = g := by omega
    refine ⟨?_, heq⟩
    by_contra ha
    exact hd ⟨i, g, ⟨rfl, rfl⟩, .inr ⟨heq.symm, by simpa using ha⟩⟩
  · rintro ⟨ha, heq⟩
    refine ⟨⟨i, g, ⟨rfl, rfl⟩, Nat.le_of_eq heq.symm⟩, ?_⟩
    rintro ⟨j, g', ⟨rfl, rfl⟩, hlt | ⟨-, hf⟩⟩
    · omega
    · rw [ha] at hf
      cases hf

theorem Keys.not_live {s : State} (h : Keys s) {key : UInt64} (hk : decode key = none) : ¬ Live s key := by
  rintro ⟨hc, -⟩
  obtain ⟨i, g, hd, -⟩ := (h.created key).mp hc
  rw [hk] at hd
  cases hd

theorem freeSlot_spec {s : State} {i : Nat} (h : freeSlot s = some i) :
    i < localKeysMax ∧ (s.slots i).active = false := by
  refine ⟨List.mem_range.mp (List.mem_of_find?_eq_some h), ?_⟩
  simpa using List.find?_some h


theorem nextGeneration_eq {g : Nat} (h : g < 2 ^ 32 - 1) : nextGeneration g = g + 1 := by
  unfold nextGeneration
  rw [Nat.mod_eq_of_lt (by omega), if_neg (by omega)]

/-- The state after slot `i` is created in generation `g`. -/
def createAt (s : State) (i g : Nat) (destructor : Option Nat) : State :=
  { setSlot s i ⟨g, true, destructor⟩ with created := encode i g :: s.created }

/-- The state after the slot `i` of `key` is deleted. -/
def deleteAt (s : State) (key : UInt64) (i : Nat) : State :=
  { setSlot s i { s.slots i with active := false, destructor := none } with deleted := key :: s.deleted }

@[simp] theorem createAt_slots (s : State) (i g : Nat) (destructor : Option Nat) :
    (createAt s i g destructor).slots = Function.update s.slots i ⟨g, true, destructor⟩ := rfl

@[simp] theorem deleteAt_slots (s : State) (key : UInt64) (i : Nat) : (deleteAt s key i).slots =
    Function.update s.slots i { s.slots i with active := false, destructor := none } := rfl

theorem keyCreate_cases {s : State} (h : Keys s) (destructor : Option Nat) :
    keyCreate s destructor = none ∨ ∃ i < localKeysMax, (s.slots i).active = false ∧
      keyCreate s destructor =
        some (encode i (nextGeneration (made s i)), createAt s i (nextGeneration (made s i)) destructor) := by
  unfold keyCreate
  cases hf : freeSlot s with
  | none => exact .inl rfl
  | some i =>
    obtain ⟨hi, ha⟩ := freeSlot_spec hf
    exact .inr ⟨i, hi, ha, by simp only [h.gen i hi, createAt]⟩

/-- A new key counts for its slot alone. -/
theorem made_createAt {s : State} {i g : Nat} (hk : decode (encode i g) = some (i, g)) (destructor : Option Nat)
    (j : Nat) : made (createAt s i g destructor) j = if j = i then made s i + 1 else made s j := by
  simp only [made, createAt, List.countP_cons, hk, Option.map_some, beq_iff_eq, Option.some.injEq, eq_comm (a := i)]
  split
  · next h => rw [h]
  · rfl

theorem Keys.createAt {s : State} {i : Nat} (h : Keys s) (hi : i < localKeysMax) (ha : (s.slots i).active = false)
    (hm : made s i < 2 ^ 32 - 1) (destructor : Option Nat) : Keys (createAt s i (made s i + 1) destructor) := by
  have hk : decode (encode i (made s i + 1)) = some (i, made s i + 1) := decode_encode hi (by omega) (by omega)
  have hmade := made_createAt (s := s) hk destructor
  constructor
  case gen =>
    intro j hj
    rw [hmade]
    by_cases hji : j = i
    · subst hji
      simp
    · simp [hji, h.gen j hj]
  case created =>
    intro key
    show key ∈ encode i (made s i + 1) :: s.created ↔ _
    simp only [List.mem_cons, h.created, hmade]
    constructor
    · rintro (rfl | ⟨j, g, hd, hle⟩)
      · exact ⟨i, _, hk, by simp⟩
      · refine ⟨j, g, hd, ?_⟩
        split
        · next h => subst h; omega
        · exact hle
    · rintro ⟨j, g, hd, hle⟩
      by_cases hji : j = i
      · subst hji
        rw [if_pos rfl] at hle
        obtain hle | rfl := Nat.lt_or_eq_of_le hle
        · exact .inr ⟨j, g, hd, by omega⟩
        · exact .inl (decode_inj hd hk)
      · rw [if_neg hji] at hle
        exact .inr ⟨j, g, hd, hle⟩
  case deleted =>
    intro key
    show key ∈ s.deleted ↔ _
    rw [h.deleted]
    refine exists_congr fun j => exists_congr fun g => and_congr_right fun hd => ?_
    rw [hmade]
    by_cases hji : j = i
    · subst hji
      simp only [createAt_slots, Function.update_self, if_pos, ha]
      simp
      omega
    · simp [hji]
  case nodup =>
    refine List.nodup_cons.mpr ⟨fun hc => ?_, h.nodup⟩
    obtain ⟨j, g, hd, hle⟩ := (h.created _).mp hc
    rw [hk] at hd
    cases hd
    omega

theorem Keys.deleteAt {s : State} {key : UInt64} {i : Nat} (h : Keys s) (hd : decode key = some (i, made s i)) :
    Keys (deleteAt s key i) where
  gen j hj := by
    show (Function.update s.slots i _ j).generation = made s j
    by_cases hji : j = i
    · subst hji
      simpa using h.gen j hj
    · simpa [hji] using h.gen j hj
  created := h.created
  deleted key' := by
    show key' ∈ key :: s.deleted ↔
      ∃ j g, decode key' = some (j, g) ∧ (g < made s j ∨ g = made s j ∧ (Function.update s.slots i _ j).active = false)
    simp only [List.mem_cons, h.deleted]
    constructor
    · rintro (rfl | ⟨j, g, hd', hle⟩)
      · exact ⟨i, _, hd, by simp⟩
      · refine ⟨j, g, hd', ?_⟩
        by_cases hji : j = i
        · subst hji
          simp
          omega
        · simpa [hji] using hle
    · rintro ⟨j, g, hd', hle⟩
      by_cases hji : j = i
      · subst hji
        obtain hlt | ⟨rfl, -⟩ := hle
        · exact .inr ⟨j, g, hd', .inl hlt⟩
        · exact .inl (decode_inj hd' hd)
      · exact .inr ⟨j, g, hd', by simpa [hji] using hle⟩
  nodup := h.nodup

/-! ## Tasks -/

/-- The array `a` of task `t` holds the values of its last `setspecific` calls
until the exit of `t` begins. -/
structure Holds (s : State) (t : Nat) (a : Nat → LocalValue) : Prop where
  le : ∀ i < localKeysMax, (a i).generation ≤ made s i
  value : s.exiting t = false → ∀ key i g, decode key = some (i, g) → (a i).generation = g →
    (a i).value = s.last t key
  last : s.exiting t = false → ∀ key i g, decode key = some (i, g) → s.last t key ≠ none → g ≤ (a i).generation

/-- What task `t` has stored. -/
structure Stored (s : State) (t : Nat) : Prop where
  sweep : s.sweep t ≠ none → s.exiting t = true
  holds : Holds s t (array s t)

/-- Generation `g` of slot `i` was created, and task `t` has no newer value. -/
def Newest (s : State) (t i g : Nat) : Prop :=
  g ≤ made s i ∧ (array s t i).generation ≤ g

/-- What task `t` knows of the key it is called with. -/
def Fits (s : State) (t : Nat) : Pc → Prop
  | .idle => True
  | .setCheck key i g _ => decode key = some (i, g)
  | .setStore key i g _ live => decode key = some (i, g) ∧ live = true ∧ Newest s t i g
  | .getCheck key i g => decode key = some (i, g)
  | .getRead key i g valid live => decode key = some (i, g) ∧ valid = live ∧ (valid = true → Newest s t i g)

structure Inv (s : State) : Prop where
  keys : Keys s
  stored : ∀ t, Stored s t
  pcs : ∀ t, Fits s t (s.pc t)
  gets : ∀ r ∈ s.gets, r.exiting = false → r.value = if r.live then r.last else none
  sets : ∀ c ∈ s.sets, c.status = .ok → c.live = true
  deletes : ∀ c ∈ s.deletes, c.status = .ok ↔ c.live = true

theorem inv_initial : Inv State.initial where
  keys := by
    constructor
    · intro i _
      rfl
    · intro key
      simp only [State.initial, List.not_mem_nil, false_iff, not_exists, not_and]
      intro i g hd hle
      have hg := (decode_eq_some.mp hd).2.2
      simp [made] at hle
      omega
    · intro key
      simp only [State.initial, List.not_mem_nil, false_iff, not_exists, not_and]
      intro i g hd hle
      have hg := (decode_eq_some.mp hd).2.2
      simp [made] at hle
      omega
    · exact List.nodup_nil
  stored t := ⟨fun h => absurd rfl h, fun i _ => Nat.zero_le _, fun _ _ _ _ _ _ => rfl, fun _ _ _ _ _ h => absurd rfl h⟩
  pcs t := trivial
  gets := by simp [State.initial]
  sets := by simp [State.initial]
  deletes := by simp [State.initial]

/-- What `Stored` says of task `t` is about these fields, and the number of
times the slots were created. -/
def view (s : State) (t : Nat) : Option (Nat → LocalValue) × (UInt64 → Option Nat) × Bool × Option Sweep :=
  (s.values t, s.last t, s.exiting t, s.sweep t)

theorem Stored.congr {s s' : State} {t : Nat} (h : Stored s t) (hm : ∀ i, made s i ≤ made s' i)
    (hv : view s' t = view s t) : Stored s' t := by
  simp only [view, Prod.mk.injEq] at hv
  obtain ⟨ha, hl, he, hw⟩ := hv
  refine ⟨by rw [hw, he]; exact h.sweep, ?_⟩
  have harr : array s' t = array s t := by rw [array, array, ha]
  rw [harr]
  exact ⟨fun i hi => Nat.le_trans (h.holds.le i hi) (hm i), by rw [he, hl]; exact h.holds.value,
    by rw [he, hl]; exact h.holds.last⟩

theorem Fits.congr {s s' : State} {t : Nat} {pc : Pc} (h : Fits s t pc) (hm : ∀ i, made s i ≤ made s' i)
    (ha : ∀ i, (array s' t i).generation = (array s t i).generation) : Fits s' t pc := by
  have hn : ∀ i g, Newest s t i g → Newest s' t i g := fun i g hn =>
    ⟨Nat.le_trans hn.1 (hm i), by rw [ha]; exact hn.2⟩
  cases pc with
  | idle => trivial
  | setCheck key i g value => exact h
  | setStore key i g value live => exact ⟨h.1, h.2.1, hn i g h.2.2⟩
  | getCheck key i g => exact h
  | getRead key i g valid live => exact ⟨h.1, h.2.1, fun hv => hn i g (h.2.2 hv)⟩

/-! ## Steps -/

theorem Inv.createAt {s : State} {i : Nat} (h : Inv s) (hi : i < localKeysMax) (ha : (s.slots i).active = false)
    (hm : made s i < 2 ^ 32 - 1) (destructor : Option Nat) : Inv (createAt s i (made s i + 1) destructor) := by
  have hle : ∀ j, made s j ≤ made (LocalStorage.createAt s i (made s i + 1) destructor) j := fun j => by
    rw [made_createAt (decode_encode hi (by omega) (by omega))]
    split
    · next h => rw [h]; omega
    · exact Nat.le_refl _
  exact ⟨h.keys.createAt hi ha hm destructor, fun t => (h.stored t).congr hle rfl,
      fun t => (h.pcs t).congr hle fun _ => rfl,
    h.gets, h.sets, h.deletes⟩

theorem Inv.setPc {s : State} {t : Nat} {pc : Pc} (h : Inv s) (hp : Fits s t pc) : Inv (setPc s t pc) where
  keys := h.keys.congr rfl rfl rfl
  stored u := (h.stored u).congr (fun _ => Nat.le_refl _) rfl
  pcs u := by
    show Fits _ u (Function.update s.pc t pc u)
    by_cases hu : u = t
    · subst hu
      rw [Function.update_self]
      exact hp.congr (fun _ => Nat.le_refl _) fun _ => rfl
    · rw [Function.update_of_ne hu]
      exact (h.pcs u).congr (fun _ => Nat.le_refl _) fun _ => rfl
  gets := h.gets
  sets := h.sets
  deletes := h.deletes

theorem Inv.idle {s : State} (h : Inv s) (t : Nat) : Inv (LocalStorage.setPc s t .idle) := by
  refine h.setPc ?_
  trivial

/-- Recording a call that returned. -/
theorem Inv.recordSet {s : State} {c : Call} (h : Inv s) (hc : c.status = .ok → c.live = true) :
    Inv { s with sets := c :: s.sets } where
  keys := h.keys.congr rfl rfl rfl
  stored u := (h.stored u).congr (fun _ => Nat.le_refl _) rfl
  pcs u := (h.pcs u).congr (fun _ => Nat.le_refl _) fun _ => rfl
  gets := h.gets
  sets := List.forall_mem_cons.mpr ⟨hc, h.sets⟩
  deletes := h.deletes

theorem Inv.recordGet {s : State} {r : Get} (h : Inv s)
    (hr : r.exiting = false → r.value = if r.live then r.last else none) : Inv { s with gets := r :: s.gets } where
  keys := h.keys.congr rfl rfl rfl
  stored u := (h.stored u).congr (fun _ => Nat.le_refl _) rfl
  pcs u := (h.pcs u).congr (fun _ => Nat.le_refl _) fun _ => rfl
  gets := List.forall_mem_cons.mpr ⟨hr, h.gets⟩
  sets := h.sets
  deletes := h.deletes

theorem Inv.recordDelete {s : State} {c : Call} (h : Inv s) (hc : c.status = .ok ↔ c.live = true) :
    Inv (retDelete s c) where
  keys := h.keys.congr rfl rfl rfl
  stored u := (h.stored u).congr (fun _ => Nat.le_refl _) rfl
  pcs u := (h.pcs u).congr (fun _ => Nat.le_refl _) fun _ => rfl
  gets := h.gets
  sets := h.sets
  deletes := List.forall_mem_cons.mpr ⟨hc, h.deletes⟩

theorem Inv.keyDelete {s : State} (h : Inv s) (key : UInt64) :
    Inv (retDelete (keyDelete s key).2 ⟨key, decide (Live s key), (keyDelete s key).1⟩) := by
  cases hd : decode key with
  | none =>
    have hk : LocalStorage.keyDelete s key = (.inval, s) := by simp only [LocalStorage.keyDelete, hd]
    rw [hk]
    exact h.recordDelete (by simp [h.keys.not_live hd])
  | some p =>
    obtain ⟨i, g⟩ := p
    have hlive := h.keys.live_iff hd
    by_cases hv : valid s i g = true
    · have hg : made s i = g := by
        rw [← h.keys.gen i (decode_eq_some.mp hd).2.1]
        simp only [valid, Bool.and_eq_true, beq_iff_eq] at hv
        exact hv.2
      have hk : LocalStorage.keyDelete s key = (.ok, deleteAt s key i) := by
        simp only [LocalStorage.keyDelete, hd, hv, if_true, deleteAt]
      have hdel : Inv (deleteAt s key i) :=
        ⟨h.keys.deleteAt (hg ▸ hd), fun t => (h.stored t).congr (fun _ => Nat.le_refl _) rfl,
          fun t => (h.pcs t).congr (fun _ => Nat.le_refl _) fun _ => rfl, h.gets, h.sets, h.deletes⟩
      rw [hk]
      exact hdel.recordDelete (by simp [hlive.mpr hv])
    · have hk : LocalStorage.keyDelete s key = (.state, s) := by
        simp only [LocalStorage.keyDelete, hd, if_neg hv]
      rw [hk]
      exact h.recordDelete (by simp [mt hlive.mp hv])

/-- The key of a successful check is live, and no generation of its slot is newer. -/
theorem Inv.newest {s : State} {key : UInt64} {i g : Nat} (h : Inv s) (t : Nat) (hd : decode key = some (i, g))
    (hv : valid s i g = true) : Newest s t i g := by
  obtain ⟨-, hi, -⟩ := decode_eq_some.mp hd
  simp only [valid, Bool.and_eq_true, beq_iff_eq, h.keys.gen i hi] at hv
  refine ⟨Nat.le_of_eq hv.2.symm, ?_⟩
  have hle := (h.stored t).holds.le i hi
  omega

/-- `setspecific` stores the value, and is the last one with its key. -/
def storeLast (s : State) (t : Nat) (key : UInt64) (i g : Nat) (value : Option Nat) : State :=
  { store s t i ⟨g, value⟩ with last := Function.update s.last t (Function.update (s.last t) key value) }

theorem Holds.update {s s' : State} {t : Nat} {a : Nat → LocalValue} {key : UInt64} {i g : Nat} {value : Option Nat}
    (h : Holds s t a) (hd : decode key = some (i, g)) (hg : g ≤ made s i) (ha : (a i).generation ≤ g)
    (hc : s'.created = s.created) (he : s'.exiting t = s.exiting t)
    (hl : s'.last t = Function.update (s.last t) key value) : Holds s' t (Function.update a i ⟨g, value⟩) where
  le j hj := by
    rw [made_congr hc]
    by_cases hji : j = i
    · subst hji
      simpa using hg
    · simpa [hji] using h.le j hj
  value hx key' j g' hd' hg' := by
    rw [he] at hx
    rw [hl]
    by_cases hk : key' = key
    · subst hk
      rw [hd] at hd'
      cases hd'
      simp
    · have hj : j ≠ i := by
        rintro rfl
        simp only [Function.update_self] at hg'
        exact hk (decode_inj hd' (hg' ▸ hd))
      simp only [Function.update_of_ne hj, Function.update_of_ne hk] at hg' ⊢
      exact h.value hx key' j g' hd' hg'
  last hx key' j g' hd' hne := by
    rw [he] at hx
    rw [hl] at hne
    by_cases hk : key' = key
    · subst hk
      rw [hd] at hd'
      cases hd'
      simp
    · rw [Function.update_of_ne hk] at hne
      have hle := h.last hx key' j g' hd' hne
      by_cases hji : j = i
      · subst hji
        simpa using Nat.le_trans hle ha
      · simpa [hji] using hle

theorem Inv.store {s : State} {t i g : Nat} {key : UInt64} {value : Option Nat} (h : Inv s) (hpc : s.pc t = .idle)
    (hd : decode key = some (i, g)) (hn : Newest s t i g) : Inv (storeLast s t key i g value) where
  keys := h.keys.congr rfl rfl rfl
  stored u := by
    by_cases hu : u = t
    · subst hu
      refine ⟨(h.stored u).sweep, ?_⟩
      have ha : array (storeLast s u key i g value) u = Function.update (array s u) i ⟨g, value⟩ := by
        simp [array, storeLast, LocalStorage.store]
      rw [ha]
      exact (h.stored u).holds.update hd hn.1 hn.2 rfl rfl (Function.update_self ..)
    · refine (h.stored u).congr (fun _ => Nat.le_refl _) ?_
      simp [view, storeLast, LocalStorage.store, hu]
  pcs u := by
    show Fits _ u (s.pc u)
    by_cases hu : u = t
    · subst hu
      rw [hpc]
      trivial
    · refine (h.pcs u).congr (fun _ => Nat.le_refl _) fun _ => ?_
      simp [array, storeLast, LocalStorage.store, hu]
  gets := h.gets
  sets := h.sets
  deletes := h.deletes

theorem inv_next {s s' : State} {t : Nat} {ok : Bool} (h : Inv s) (hs : next s t ok = some s') : Inv s' := by
  have hfits := h.pcs t
  have hidle := h.idle t
  unfold next at hs
  cases hpc : s.pc t with
  | idle => simp [hpc] at hs
  | setCheck key i g value =>
    rw [hpc] at hfits
    have hlive := h.keys.live_iff hfits
    by_cases hv : valid s i g = true
    · simp only [hpc, hv, if_true, Option.some.injEq] at hs
      subst hs
      exact h.setPc ⟨hfits, decide_eq_true (hlive.mpr hv), h.newest t hfits hv⟩
    · simp only [hpc, if_neg hv, Option.some.injEq] at hs
      subst hs
      exact hidle.recordSet (by simp)
  | setStore key i g value live =>
    rw [hpc] at hfits
    obtain ⟨hd, hl, hn⟩ := hfits
    simp only [hpc, Option.some.injEq] at hs
    subst hs
    split
    · exact hidle.recordSet (by simp)
    · have hst : Inv (storeLast { s with pc := Function.update s.pc t .idle } t key i g value) :=
        hidle.store (Function.update_self ..) hd hn
      exact hst.recordSet (c := ⟨key, live, .ok⟩) fun _ => hl
  | getCheck key i g =>
    rw [hpc] at hfits
    simp only [hpc, Option.some.injEq] at hs
    subst hs
    refine h.setPc ⟨hfits, ?_, h.newest t hfits⟩
    rw [Bool.eq_iff_iff, decide_eq_true_iff]
    exact (h.keys.live_iff hfits).symm
  | getRead key i g valid live =>
    rw [hpc] at hfits
    obtain ⟨hd, rfl, hn⟩ := hfits
    cases ha : s.values t with
    | none => simp [hpc, ha] at hs
    | some a =>
      have harr := (h.stored t).holds
      simp only [Newest, array, ha, Option.getD_some] at hn harr
      simp only [hpc, ha, Option.some.injEq] at hs
      subst hs
      refine hidle.recordGet fun hx => ?_
      show (if valid && (a i).generation == g then (a i).value else none) = if valid then s.last t key else none
      cases valid with
      | false => rfl
      | true =>
        by_cases hg : (a i).generation = g
        · simpa [hg] using harr.value hx key i g hd hg
        · -- the entry is older than the live key, so nothing was set with that key
          have hnone : s.last t key = none := by
            by_contra hne
            have hle := harr.last hx key i g hd hne
            have hge := (hn rfl).2
            omega
          simp [hg, hnone]

theorem inv_setspecific {s s' : State} {self : Option Nat} {key : UInt64} {value : Option Nat} (h : Inv s)
    (hs : setspecific s self key value = some s') : Inv s' := by
  unfold setspecific at hs
  split at hs
  · cases hs
    exact h.recordSet (by simp)
  · split at hs
    · cases hs
      exact (h.idle _).recordSet (by simp)
    · next hd =>
      cases hs
      exact h.setPc hd
    · cases hs

theorem inv_getspecific {s s' : State} {self : Option Nat} {key : UInt64} (h : Inv s)
    (hs : getspecific s self key = some s') : Inv s' := by
  unfold getspecific at hs
  split at hs
  · cases hs
    exact h.recordGet (by simp)
  · rename_i t
    have harr := (h.stored t).holds
    split at hs
    · next ha =>
      cases hs
      refine (h.idle _).recordGet fun hx => ?_
      show none = if decide (Live s key) = true then s.last t key else none
      simp only [array, ha, Option.getD_none] at harr
      cases hd : decode key with
      | none => simp [h.keys.not_live hd]
      | some p =>
        have hnone : s.last t key = none := by
          by_contra hne
          have hle := harr.last hx key p.1 p.2 hd hne
          have hg := (decode_eq_some.mp hd).2.2
          simp only [emptyArray] at hle
          omega
        simp [hnone]
    · next hd =>
      cases hs
      refine (h.idle _).recordGet fun _ => ?_
      simp [h.keys.not_live hd]
    · next hd =>
      cases hs
      exact h.setPc hd
    · cases hs

/-! ## The exit of a task -/

/-- A step of the exit of task `t` keeps the generations of its array. -/
theorem Inv.sweep {s s' : State} {t : Nat} (h : Inv s) (he : s'.exiting t = true)
    (ha : ∀ i, (array s' t i).generation = (array s t i).generation) (hv : ∀ u ≠ t, view s' u = view s u)
    (hk : s'.slots = s.slots ∧ s'.created = s.created ∧ s'.deleted = s.deleted) (hp : s'.pc = s.pc)
    (hr : s'.gets = s.gets ∧ s'.sets = s.sets ∧ s'.deletes = s.deletes) : Inv s' := by
  have hm : ∀ i, made s i ≤ made s' i := fun i => Nat.le_of_eq (made_congr hk.2.1 i).symm
  refine ⟨h.keys.congr hk.1 hk.2.1 hk.2.2, fun u => ?_, fun u => ?_, hr.1 ▸ h.gets, hr.2.1 ▸ h.sets, hr.2.2 ▸ h.deletes⟩
  · by_cases hu : u = t
    · subst hu
      refine ⟨fun _ => he, fun i hi => ?_, fun hx => ?_, fun hx => ?_⟩
      · rw [ha]
        exact Nat.le_trans ((h.stored u).holds.le i hi) (hm i)
      · rw [he] at hx
        cases hx
      · rw [he] at hx
        cases hx
    · exact (h.stored u).congr hm (hv u hu)
  · rw [hp]
    by_cases hu : u = t
    · subst hu
      exact (h.pcs u).congr hm ha
    · have hvu := hv u hu
      simp only [view, Prod.mk.injEq] at hvu
      exact (h.pcs u).congr hm fun i => by rw [array, array, hvu.1]

theorem inv_exit {s : State} {t : Nat} (h : Inv s) :
    Inv { setSweep s t (some ⟨0, 0, false⟩) with exiting := Function.update s.exiting t true } := by
  refine h.sweep (t := t) (Function.update_self ..) (fun _ => rfl) (fun u hu => ?_) ⟨rfl, rfl, rfl⟩ rfl ⟨rfl, rfl, rfl⟩
  simp [view, setSweep, hu]

/-- Clearing the value of an entry keeps its generation. -/
theorem generation_store (s : State) (t i j : Nat) :
    (array (store s t i ⟨(array s t i).generation, none⟩) t j).generation = (array s t j).generation := by
  have ha : array (store s t i ⟨(array s t i).generation, none⟩) t =
      Function.update (array s t) i ⟨(array s t i).generation, none⟩ := by
    simp [array, store]
  rw [ha]
  by_cases hj : j = i
  · subst hj
    simp
  · simp [hj]

theorem inv_visit {s : State} {t : Nat} {w : Sweep} (h : Inv s) (hw : s.sweep t = some w) : Inv (visit s t w) := by
  have he : s.exiting t = true := (h.stored t).sweep (by simp [hw])
  have hkeep : ∀ x, Inv (setSweep s t x) := fun x =>
    h.sweep he (fun _ => rfl) (fun u hu => by simp [view, setSweep, hu]) ⟨rfl, rfl, rfl⟩ rfl ⟨rfl, rfl, rfl⟩
  have hclear : ∀ x, Inv (setSweep (store s t w.index ⟨(array s t w.index).generation, none⟩) t x) := fun x =>
    h.sweep he (generation_store s t w.index) (fun u hu => by simp [view, store, setSweep, hu]) ⟨rfl, rfl, rfl⟩ rfl
      ⟨rfl, rfl, rfl⟩
  unfold visit
  split_ifs
  · exact hkeep none
  · dsimp only
    split
    · exact hkeep _
    · split_ifs
      · exact hkeep _
      · split
        · exact hclear _
        · have hc := hclear (some ⟨w.pass, w.index + 1, true⟩)
          exact hc.sweep he (fun _ => rfl) (fun _ _ => rfl) ⟨rfl, rfl, rfl⟩ rfl ⟨rfl, rfl, rfl⟩
  · exact hkeep _
  · exact hkeep none

/-! ## Runs -/

theorem created_next {s s' : State} {t : Nat} {ok : Bool} (hs : next s t ok = some s') : s'.created = s.created := by
  unfold next at hs
  split at hs
  · cases hs
  · cases hs
    split <;> rfl
  · cases hs
    split <;> rfl
  · cases hs
    rfl
  · split at hs <;> cases hs
    rfl

theorem created_visit (s : State) (t : Nat) (w : Sweep) : (visit s t w).created = s.created := by
  unfold visit
  split_ifs
  · rfl
  · dsimp only
    split
    · rfl
    · split_ifs
      · rfl
      · split <;> rfl
  · rfl
  · rfl

/-- Keys that were created stay so. -/
theorem created_suffix {s s' : State} {a : Act} (hs : step s a = some s') : s.created <:+ s'.created := by
  cases a with
  | create destructor =>
    cases hs
    unfold keyCreate
    cases freeSlot s with
    | none => exact List.suffix_rfl
    | some i => exact List.suffix_cons ..
  | delete key =>
    have hc : (keyDelete s key).2.created = s.created := by
      unfold keyDelete
      split
      · rfl
      · split <;> rfl
    simp only [step, Option.some.injEq] at hs
    subst hs
    exact hc ▸ List.suffix_rfl
  | set self key value =>
    have hc : s'.created = s.created := by
      simp only [step, setspecific] at hs
      split at hs
      · cases hs
        rfl
      · split at hs <;> cases hs <;> rfl
    exact hc ▸ List.suffix_rfl
  | get self key =>
    have hc : s'.created = s.created := by
      simp only [step, getspecific] at hs
      split at hs
      · cases hs
        rfl
      · split at hs <;> cases hs <;> rfl
    exact hc ▸ List.suffix_rfl
  | next t ok => exact created_next hs ▸ List.suffix_rfl
  | exit t =>
    simp only [step] at hs
    split at hs <;> cases hs
    exact List.suffix_rfl
  | visit t =>
    simp only [step] at hs
    split at hs <;> cases hs
    exact created_visit s t _ ▸ List.suffix_rfl

theorem Small.of_step {s s' : State} {a : Act} (h : Small s') (hs : step s a = some s') : Small s := fun i hi =>
  Nat.lt_of_le_of_lt ((created_suffix hs).sublist.countP_le) (h i hi)

theorem inv_step {s s' : State} {a : Act} (h : Inv s) (hm : Small s') (hs : step s a = some s') : Inv s' := by
  have hsm := hm.of_step hs
  cases a with
  | create destructor =>
    cases hs
    obtain hc | ⟨i, hi, ha, hc⟩ := keyCreate_cases h.keys destructor
    · rw [hc]
      exact h
    · rw [hc, nextGeneration_eq (hsm i hi)]
      exact h.createAt hi ha (hsm i hi) destructor
  | delete key =>
    simp only [step, Option.some.injEq] at hs
    subst hs
    exact h.keyDelete key
  | set self key value => exact inv_setspecific h hs
  | get self key => exact inv_getspecific h hs
  | next t ok => exact inv_next h hs
  | exit t =>
    simp only [step] at hs
    split at hs <;> cases hs
    exact inv_exit h
  | visit t =>
    simp only [step] at hs
    split at hs <;> cases hs
    next hw => exact inv_visit h hw

theorem inv_of_reach {s : State} (h : machine.Reach s) : Small s → Inv s := by
  refine Machine.Reach.invariant (I := fun s => Small s → Inv s) ?_ ?_ h
  · rintro s rfl _
    exact inv_initial
  · intro s s' a _ ih hs hm
    exact inv_step (ih (hm.of_step hs)) hm hs

/-- The slots, the arrays and their history are the same. -/
structure Unchanged (s s' : State) : Prop where
  slots : s'.slots = s.slots
  values : s'.values = s.values
  created : s'.created = s.created
  deleted : s'.deleted = s.deleted
  last : s'.last = s.last

/-- What the calls that returned, and those about to, keep to. -/
structure Isolated (s : State) : Prop where
  /-- `getspecific`, until the exit of the task begins, returns the value of its own last successful `setspecific`
  with a key that is live, and `NULL` for any other. -/
  get : ∀ r ∈ s.gets, r.exiting = false → r.value = if r.live then r.last else none
  /-- No key is created twice. -/
  fresh : s.created.Nodup
  set : ∀ c ∈ s.sets, c.status = .ok → c.live = true
  delete : ∀ c ∈ s.deletes, c.status = .ok ↔ c.live = true
  /-- `key_delete` of what is not a live key changes nothing. -/
  deleteDead : ∀ key s', ¬ Live s key → step s (.delete key) = some s' → Unchanged s s'
  /-- `setspecific` changes nothing before its check, nor at it when the key is not live. -/
  setCall : ∀ self key value s', step s (.set self key value) = some s' → Unchanged s s'
  setDead : ∀ t key i g value ok s', s.pc t = .setCheck key i g value → ¬ Live s key →
    step s (.next t ok) = some s' → Unchanged s s' ∧ s'.sets = ⟨key, false, .state⟩ :: s.sets ∧ s'.pc t = .idle

theorem unchanged_keyDelete {s : State} {key : UInt64} (h : Inv s) (hd : ¬ Live s key) : (keyDelete s key).2 = s := by
  unfold keyDelete
  split
  · rfl
  · next i g hk => rw [if_neg (mt (h.keys.live_iff hk).mpr hd)]

/-- As long as no slot is created `2^32 - 1` times, the tasks' values are
isolated from each other and from keys deleted before. -/
theorem isolated_of_reach {s : State} (hr : machine.Reach s) (hm : Small s) : Isolated s := by
  have h := inv_of_reach hr hm
  refine ⟨h.gets, h.keys.nodup, h.sets, h.deletes, ?_, ?_, ?_⟩
  · intro key s' hd hs
    simp only [step, unchanged_keyDelete h hd, Option.some.injEq] at hs
    subst hs
    exact ⟨rfl, rfl, rfl, rfl, rfl⟩
  · intro self key value s' hs
    simp only [step, setspecific] at hs
    split at hs
    · cases hs
      exact ⟨rfl, rfl, rfl, rfl, rfl⟩
    · split at hs <;> cases hs <;> exact ⟨rfl, rfl, rfl, rfl, rfl⟩
  · intro t key i g value ok s' hpc hd hs
    have hfits := h.pcs t
    rw [hpc] at hfits
    simp only [step, next, hpc, if_neg (mt (h.keys.live_iff hfits).mpr hd), hd, decide_false, Option.some.injEq] at hs
    subst hs
    exact ⟨⟨rfl, rfl, rfl, rfl, rfl⟩, rfl, Function.update_self ..⟩

/-- Two tasks set a value with one key, which is then deleted; the key created
next has the same slot. -/
theorem isolated_of_reach_reused : ∃ s, machine.Reach s ∧ Isolated s ∧
    s.gets.map Get.value = [none, none, some 9, some 7] ∧ s.created = [encode 0 2, encode 0 1] := by
  obtain ⟨s, hr, hp⟩ := Machine.exists_reach_of_run (M := machine) (s := State.initial)
    (l := [.create none, .set (some 0) (encode 0 1) (some 7), .next 0 true, .next 0 true,
      .get (some 0) (encode 0 1), .next 0 true, .next 0 true, .set (some 1) (encode 0 1) (some 9), .next 1 true,
      .next 1 true, .get (some 1) (encode 0 1), .next 1 true, .next 1 true, .delete (encode 0 1), .create none,
      .get (some 0) (encode 0 2), .next 0 true, .next 0 true, .get (some 0) (encode 0 1), .next 0 true, .next 0 true])
    (p := fun s => decide (Small s) && (decide (s.gets.map Get.value = [none, none, some 9, some 7]) &&
      decide (s.created = [encode 0 2, encode 0 1])))
    rfl (by decide +kernel)
  simp only [Bool.and_eq_true, decide_eq_true_eq] at hp
  exact ⟨s, hr, isolated_of_reach hr hp.1, hp.2⟩

end Dlsmc.LocalStorage
