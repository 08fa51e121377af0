import Dlsmc.Greenthread.LocalIsolation

/-!
# The destructors of task-local storage

`task_run_local_destructors` of a task that exits, with its destructors setting
values, creating and deleting keys, and other tasks doing so at any time. The
storage is the one of `machine`; a `History` also numbers the values that
`dlsm_gt_setspecific` stored, and keeps which of them each entry holds and
which each destructor was called with. No step reads it.

Each round of the loop goes on to the next entry (`Sweep.pos`), so that it ends
after four passes; an entry is cleared before its destructor is called, so that
no value is destroyed twice (`Inv.unused`).
-/

namespace Dlsmc.LocalStorage

/-- A value that `setspecific` stored, by the task, under the key. -/
structure Store where
  task : Nat
  key : UInt64
  value : Option Nat
  deriving DecidableEq

/-- A call of a destructor in a pass, for the entry `index` that had a value
and a generation; `store` is the number of the store of the value. -/
structure Destroy where
  task : Nat
  pass : Nat
  index : Nat
  generation : Nat
  value : Nat
  destructor : Nat
  store : Nat
  deriving DecidableEq

/-- The storage, and what happened. -/
structure History where
  base : State
  /-- The values stored, the first one first. -/
  stores : List Store
  /-- The store of the value of an entry of a task. -/
  stamp : Nat → Nat → Nat
  /-- The destructor a key was last created with. -/
  destructors : UInt64 → Option Nat
  /-- The destructors called, the last one first. -/
  calls : List Destroy
  /-- The rounds of the loop in a task. -/
  rounds : Nat → Nat
  /-- The task has stored no value since its exit began. -/
  quiet : Nat → Bool
  /-- The store and the generation of an entry of a task whose exit began, if
  its key has been live since, with a destructor. -/
  kept : Nat → Nat → Option (Nat × Nat)

namespace History

def initial : History where
  base := State.initial
  stores := []
  stamp := fun _ _ => 0
  destructors := fun _ => none
  calls := []
  rounds := fun _ => 0
  quiet := fun _ => false
  kept := fun _ _ => none

/-- The key, the slot and the value that the next step of task `t` stores. -/
def storing (s : State) (t : Nat) (ok : Bool) : Option (UInt64 × Nat × Option Nat) :=
  match s.pc t with
  | .setStore key i _ value _ => if (s.values t).isNone && !ok then none else some (key, i, value)
  | _ => none

/-- The call of a destructor that the next round of the loop in `t` makes. -/
def destroying (h : History) (t : Nat) (w : Sweep) : Option Destroy :=
  let entry := array h.base t w.index
  if w.index < localKeysMax ∧ entry.generation ≠ 0 then
    match entry.value, destructorOf h.base w.index entry.generation with
    | some value, some d => some ⟨t, w.pass, w.index, entry.generation, value, d, h.stamp t w.index⟩
    | _, _ => none
  else none

/-- The history of an action, before the entries whose key is not live any more are left out. -/
def record (h : History) : Act → History
  | .create destructor =>
    match keyCreate h.base destructor with
    | none => h
    | some (key, _) => { h with destructors := Function.update h.destructors key destructor }
  | .next t ok =>
    match storing h.base t ok with
    | none => h
    | some (key, i, value) =>
      { h with
        stores := h.stores ++ [⟨t, key, value⟩]
        stamp := Function.update h.stamp t (Function.update (h.stamp t) i h.stores.length)
        quiet := Function.update h.quiet t false }
  | .exit t =>
    { h with
      quiet := Function.update h.quiet t true
      kept := Function.update h.kept t fun i =>
        if (array h.base t i).value = none then none else some (h.stamp t i, (array h.base t i).generation) }
  | .visit t =>
    match h.base.sweep t with
    | none => h
    | some w =>
      { h with
        rounds := Function.update h.rounds t (h.rounds t + 1)
        calls := (h.destroying t w).toList ++ h.calls }
  | _ => h

/-- The key of the slot, in the generation, is live and has a destructor. -/
def hasDestructor (s : State) (i g : Nat) : Bool := (destructorOf s i g).isSome

/-- `h` with the storage `b`. -/
def move (h : History) (b : State) : History :=
  { h with base := b, kept := fun t i => (h.kept t i).filter fun p => hasDestructor b i p.2 }

def step (h : History) (a : Act) : Option History := (LocalStorage.step h.base a).map (h.record a).move

/-- The tasks and their storage, with their history. -/
def machine : Machine History Act where
  init := fun h => h = initial
  step := step

end History

/-- How far the loop is. -/
def Sweep.pos (w : Sweep) : Nat := w.pass * (localKeysMax + 1) + w.index

/-- A round of the loop. -/
inductive Visits (s : State) (t : Nat) (w : Sweep) : State → Prop where
  | ended (h : s.values t = none ∨ localKeysMax ≤ w.index) : Visits s t w (setSweep s t none)
  | pass (h : localKeysMax ≤ w.index) (hp : w.pass + 1 < 4) : Visits s t w (setSweep s t (some ⟨w.pass + 1, 0, false⟩))
  | skip (h : w.index < localKeysMax) (he : (array s t w.index).value = none ∨ (array s t w.index).generation = 0) :
    Visits s t w (setSweep s t (some { w with index := w.index + 1 }))
  | clear (h : w.index < localKeysMax) (hg : (array s t w.index).generation ≠ 0)
      (hd : destructorOf s w.index (array s t w.index).generation = none) :
    Visits s t w (setSweep (store s t w.index ⟨(array s t w.index).generation, none⟩) t
      (some { w with index := w.index + 1 }))
  | destroy (v d : Nat) (h : w.index < localKeysMax) (hg : (array s t w.index).generation ≠ 0)
      (hv : (array s t w.index).value = some v)
      (hd : destructorOf s w.index (array s t w.index).generation = some d) :
    Visits s t w { setSweep (store s t w.index ⟨(array s t w.index).generation, none⟩) t
      (some ⟨w.pass, w.index + 1, true⟩) with destroyed := (t, d, v) :: s.destroyed }

theorem visits_visit (s : State) (t : Nat) (w : Sweep) : Visits s t w (visit s t w) := by
  unfold visit
  split
  · next h => exact .ended (.inl (by simpa using h))
  · split
    · next h =>
      dsimp only
      split
      · next hv => exact .skip h (.inl hv)
      · next v hv =>
        split
        · next hg => exact .skip h (.inr hg)
        · next hg =>
          split
          · next hd => exact .clear h hg hd
          · next d hd => exact .destroy v d h hg hv hd
    · next h =>
      split
      · next hp =>
        rw [Bool.and_eq_true, decide_eq_true_eq] at hp
        exact .pass (Nat.le_of_not_lt h) hp.2
      · exact .ended (.inr (Nat.le_of_not_lt h))

/-! ## The invariant -/

/-- A call of `setspecific` that has decoded its key. -/
def Decoded : Pc → Prop
  | .setCheck key i g _ | .setStore key i g _ _ => decode key = some (i, g)
  | _ => True

def Destroy.pos (c : Destroy) : Nat := c.pass * (localKeysMax + 1) + c.index

namespace History

/-- The loop in `t` has passed entry `i`. -/
def Passed (s : State) (t i : Nat) : Prop := ∀ w, s.sweep t = some w → w.pass ≠ 0 ∨ i < w.index

/-- Entry `i` of a task that has stored no value since its exit began. -/
structure Quiet (h : History) (t i : Nat) : Prop where
  passed : Passed h.base t i →
    (array h.base t i).value = none ∧ ∀ n g, h.kept t i = some (n, g) → n ∈ h.calls.map Destroy.store
  ahead : ¬Passed h.base t i → ∀ n g, h.kept t i = some (n, g) →
    (array h.base t i).value ≠ none ∧ h.stamp t i = n ∧ (array h.base t i).generation = g

structure Inv (h : History) : Prop where
  generation : ∀ i, (h.base.slots i).generation < 2 ^ 32
  active : ∀ i, (h.base.slots i).active = true → i < localKeysMax ∧ 0 < (h.base.slots i).generation ∧
    h.destructors (encode i (h.base.slots i).generation) = (h.base.slots i).destructor
  decoded : ∀ t, Decoded (h.base.pc t)
  /-- The value of an entry was stored by the task, under a key of the slot. -/
  entry : ∀ t i v, (array h.base t i).value = some v → ∃ key, h.stores[h.stamp t i]? = some ⟨t, key, some v⟩ ∧
    decode key = some (i, (array h.base t i).generation)
  /-- No destructor was called with it. -/
  unused : ∀ t i v, (array h.base t i).value = some v → h.stamp t i ∉ h.calls.map Destroy.store
  nodup : (h.calls.map Destroy.store).Nodup
  call : ∀ c ∈ h.calls, ∃ key, h.stores[c.store]? = some ⟨c.task, key, some c.value⟩ ∧
    decode key = some (c.index, c.generation)
  order : h.calls.Pairwise fun c c' => c.task = c'.task → c'.pos < c.pos
  destroyed : h.base.destroyed = h.calls.map fun c => (c.task, c.destructor, c.value)
  sweep : ∀ t w, h.base.sweep t = some w → w.pass < 4 ∧ w.index ≤ localKeysMax ∧ h.base.exiting t = true ∧
    h.rounds t = w.pos ∧ ∀ c ∈ h.calls, c.task = t → c.pos < w.pos
  rounds : ∀ t, h.base.sweep t = none → h.rounds t ≤ 4 * (localKeysMax + 1)
  before : ∀ t, h.base.exiting t = false → h.base.sweep t = none ∧ h.rounds t = 0 ∧ ∀ c ∈ h.calls, c.task ≠ t
  live : ∀ t i n g, h.kept t i = some (n, g) → hasDestructor h.base i g = true
  quiet : ∀ t, h.quiet t = true → ∀ i, Quiet h t i

theorem inv_initial : Inv initial where
  generation i := by simp [initial, State.initial]
  active i ha := by simp [initial, State.initial] at ha
  decoded t := trivial
  entry t i v hv := by simp [initial, State.initial, array, emptyArray] at hv
  unused t i v hv := by simp [initial, State.initial, array, emptyArray] at hv
  nodup := List.nodup_nil
  call c hc := by cases hc
  order := List.Pairwise.nil
  destroyed := rfl
  sweep t w hw := by cases hw
  rounds t _ := Nat.zero_le _
  before t _ := ⟨rfl, rfl, fun c hc => by cases hc⟩
  live t i n g hk := by cases hk
  quiet t hq := by cases hq

variable {h : History} {b : State} {t i : Nat}

theorem kept_move {n g : Nat} (hk : (h.move b).kept t i = some (n, g)) :
    h.kept t i = some (n, g) ∧ hasDestructor b i g = true := by
  simpa [move, Option.filter_eq_some_iff] using hk

/-- The arrays, the loops and the calls of the destructors are the same. -/
structure Same (s b : State) : Prop where
  values : b.values = s.values
  sweep : b.sweep = s.sweep
  exiting : b.exiting = s.exiting
  destroyed : b.destroyed = s.destroyed

theorem Same.array {s b : State} (hs : Same s b) (t : Nat) : array b t = array s t := by
  rw [LocalStorage.array, LocalStorage.array, hs.values]

/-- A step that only concerns the keys or where the tasks stand. -/
theorem Inv.still (hi : Inv h) (hs : Same h.base b) {d : UInt64 → Option Nat}
    (hg : ∀ i, (b.slots i).generation < 2 ^ 32)
    (ha : ∀ i, (b.slots i).active = true → i < localKeysMax ∧ 0 < (b.slots i).generation ∧
      d (encode i (b.slots i).generation) = (b.slots i).destructor)
    (hd : ∀ t, Decoded (b.pc t)) : Inv ({ h with destructors := d }.move b) where
  generation := hg
  active := ha
  decoded := hd
  entry t i v hv := by
    change (array b t i).value = _ at hv
    change ∃ key, _ ∧ decode key = some (i, (array b t i).generation)
    rw [hs.array] at hv ⊢
    exact hi.entry t i v hv
  unused t i v hv := by
    change (array b t i).value = _ at hv
    rw [hs.array] at hv
    exact hi.unused t i v hv
  nodup := hi.nodup
  call := hi.call
  order := hi.order
  destroyed := hs.destroyed.trans hi.destroyed
  sweep t w hw := by
    change b.sweep t = _ at hw
    rw [hs.sweep] at hw
    have := hi.sweep t w hw
    rwa [← hs.exiting] at this
  rounds t hw := by
    change b.sweep t = _ at hw
    rw [hs.sweep] at hw
    exact hi.rounds t hw
  before t he := by
    change b.exiting t = _ at he
    rw [hs.exiting] at he
    have := hi.before t he
    rwa [← hs.sweep] at this
  live t i n g hk := (kept_move hk).2
  quiet t hq i := by
    have hp : Passed b t i ↔ Passed h.base t i := by rw [Passed, Passed, hs.sweep]
    obtain ⟨h₁, h₂⟩ := hi.quiet t hq i
    refine ⟨fun hpass => ?_, fun hpass n g hk => ?_⟩
    · obtain ⟨hv, hc⟩ := h₁ (hp.mp hpass)
      change (array b t i).value = none ∧ _
      rw [hs.array]
      exact ⟨hv, fun n g hk => hc n g (kept_move hk).1⟩
    · change (array b t i).value ≠ none ∧ _ ∧ (array b t i).generation = g
      rw [hs.array]
      exact h₂ (mt hp.mpr hpass) n g (kept_move hk).1

theorem Same.refl (s : State) : Same s s := ⟨rfl, rfl, rfl, rfl⟩

/-- A step that only concerns where the tasks stand. -/
theorem Inv.rest (hi : Inv h) (hs : Same h.base b) (hk : b.slots = h.base.slots) (hd : ∀ t, Decoded (b.pc t)) :
    Inv (h.move b) :=
  hi.still hs (d := h.destructors) (hk ▸ hi.generation) (hk ▸ hi.active) hd

/-- The task that moves has decoded its key, if it is in `setspecific`. -/
theorem Inv.decoded_setPc (hi : Inv h) {p : Pc} (hp : Decoded p) (u : Nat) : Decoded ((setPc h.base t p).pc u) := by
  by_cases hu : u = t
  · subst hu
    simpa [setPc] using hp
  · simpa [setPc, hu] using hi.decoded u

/-! ## Keys -/

theorem nextGeneration_pos (g : Nat) : 0 < nextGeneration g ∧ nextGeneration g < 2 ^ 32 := by
  unfold nextGeneration
  split <;> omega

theorem keyCreate_eq (s : State) (destructor : Option Nat) :
    keyCreate s destructor = (freeSlot s).map fun i =>
      (encode i (nextGeneration (s.slots i).generation),
        createAt s i (nextGeneration (s.slots i).generation) destructor) := by
  unfold keyCreate
  cases freeSlot s <;> rfl

theorem inv_create (hi : Inv h) (destructor : Option Nat) :
    Inv ((h.record (.create destructor)).move (((keyCreate h.base destructor).map Prod.snd).getD h.base)) := by
  rw [record, keyCreate_eq]
  cases hf : freeSlot h.base with
  | none => exact hi.rest (Same.refl _) rfl hi.decoded
  | some i =>
    obtain ⟨hlt, hfree⟩ := freeSlot_spec hf
    obtain ⟨hpos, hmax⟩ := nextGeneration_pos (h.base.slots i).generation
    simp only [Option.map_some, Option.getD_some]
    generalize nextGeneration (h.base.slots i).generation = g at hpos hmax
    refine hi.still (b := createAt h.base i g destructor) ⟨rfl, rfl, rfl, rfl⟩ (fun j => ?_) (fun j hj => ?_) hi.decoded
    · by_cases hji : j = i
      · subst hji
        simpa [createAt, setSlot] using hmax
      · simpa [createAt, setSlot, hji] using hi.generation j
    · by_cases hji : j = i
      · subst hji
        simpa [createAt, setSlot] using ⟨hlt, hpos⟩
      · simp only [createAt, setSlot, Function.update_of_ne hji] at hj ⊢
        obtain ⟨hjlt, hjpos, hd⟩ := hi.active j hj
        refine ⟨hjlt, hjpos, ?_⟩
        -- another slot has other keys
        rw [Function.update_of_ne, hd]
        intro heq
        have hkey := decode_encode hjlt hjpos (hi.generation j)
        rw [heq, decode_encode hlt hpos hmax] at hkey
        cases hkey
        exact hji rfl

theorem inv_delete (hi : Inv h) (key : UInt64) (c : Call) :
    Inv (h.move (retDelete (keyDelete h.base key).2 c)) := by
  unfold keyDelete
  split
  · exact hi.rest ⟨rfl, rfl, rfl, rfl⟩ rfl hi.decoded
  · next i g hk =>
    split
    · refine hi.still (d := h.destructors) (b := retDelete { setSlot h.base i
        { h.base.slots i with active := false, destructor := none } with deleted := key :: h.base.deleted } c)
        ⟨rfl, rfl, rfl, rfl⟩ (fun j => ?_) (fun j hj => ?_) hi.decoded
      · by_cases hji : j = i
        · subst hji
          simpa [retDelete, setSlot] using hi.generation j
        · simpa [retDelete, setSlot, hji] using hi.generation j
      · by_cases hji : j = i
        · subst hji
          simp [retDelete, setSlot] at hj
        · simp only [retDelete, setSlot, Function.update_of_ne hji] at hj ⊢
          exact hi.active j hj
    · exact hi.rest ⟨rfl, rfl, rfl, rfl⟩ rfl hi.decoded

/-! ## Values -/

theorem inv_set {self : Option Nat} {key : UInt64} {value : Option Nat} (hi : Inv h)
    (hs : setspecific h.base self key value = some b) : Inv (h.move b) := by
  unfold setspecific at hs
  split at hs
  · cases hs
    exact hi.rest ⟨rfl, rfl, rfl, rfl⟩ rfl hi.decoded
  · split at hs
    · cases hs
      exact hi.rest ⟨rfl, rfl, rfl, rfl⟩ rfl (hi.decoded_setPc (p := .idle) trivial)
    · next i g _ hd =>
      cases hs
      exact hi.rest ⟨rfl, rfl, rfl, rfl⟩ rfl (hi.decoded_setPc (p := .setCheck key i g value) hd)
    · cases hs

theorem inv_get {self : Option Nat} {key : UInt64} (hi : Inv h) (hs : getspecific h.base self key = some b) :
    Inv (h.move b) := by
  unfold getspecific at hs
  split at hs
  · cases hs
    exact hi.rest ⟨rfl, rfl, rfl, rfl⟩ rfl hi.decoded
  · split at hs
    · cases hs
      exact hi.rest ⟨rfl, rfl, rfl, rfl⟩ rfl (hi.decoded_setPc (p := .idle) trivial)
    · cases hs
      exact hi.rest ⟨rfl, rfl, rfl, rfl⟩ rfl (hi.decoded_setPc (p := .idle) trivial)
    · next i g _ _ _ =>
      cases hs
      exact hi.rest ⟨rfl, rfl, rfl, rfl⟩ rfl (hi.decoded_setPc (p := .getCheck key i g) trivial)
    · cases hs

theorem array_store (s : State) (t i : Nat) (x : LocalValue) (u : Nat) :
    array (store s t i x) u = if u = t then Function.update (array s t) i x else array s u := by
  by_cases hu : u = t
  · subst hu
    simp [array, store]
  · simp [array, store, hu]

/-- `h` after task `t` stored `value` in entry `i`, under `key`. -/
def stored (h : History) (t : Nat) (key : UInt64) (i : Nat) (value : Option Nat) : History :=
  { h with
    stores := h.stores ++ [⟨t, key, value⟩]
    stamp := Function.update h.stamp t (Function.update (h.stamp t) i h.stores.length)
    quiet := Function.update h.quiet t false }

theorem getElem?_stored {n : Nat} {x : Store} (key : UInt64) (value : Option Nat) (hx : h.stores[n]? = some x) :
    (h.stored t key i value).stores[n]? = some x := by
  rw [stored, List.getElem?_append_left (List.getElem?_eq_some_iff.mp hx).1, hx]

/-- The number of a new store is new. -/
theorem Inv.length_notMem (hi : Inv h) : h.stores.length ∉ h.calls.map Destroy.store := by
  intro hm
  obtain ⟨c, hc, heq⟩ := List.mem_map.mp hm
  obtain ⟨key, hkey, -⟩ := hi.call c hc
  have hlt := (List.getElem?_eq_some_iff.mp hkey).1
  omega

/-- An entry is the one that was stored, or has not changed. -/
theorem entry_stored (h : History) (t : Nat) (key : UInt64) (i g : Nat) (value : Option Nat) (u j : Nat) :
    u = t ∧ array (storeLast h.base t key i g value) u j = ⟨g, value⟩ ∧ j = i ∧
        (h.stored t key i value).stamp u j = h.stores.length ∨
      array (storeLast h.base t key i g value) u j = array h.base u j ∧
        (h.stored t key i value).stamp u j = h.stamp u j := by
  have harray : array (storeLast h.base t key i g value) u =
      if u = t then Function.update (array h.base t) i ⟨g, value⟩ else array h.base u :=
    array_store h.base t i ⟨g, value⟩ u
  rw [harray]
  by_cases hu : u = t
  · subst hu
    by_cases hj : j = i
    · subst hj
      exact .inl ⟨rfl, by simp, rfl, by simp [stored]⟩
    · exact .inr ⟨by simp [hj], by simp [stored, hj]⟩
  · exact .inr ⟨by rw [if_neg hu], by simp [stored, hu]⟩

theorem inv_stored {key : UInt64} {g : Nat} {value : Option Nat} {c : Call} (hi : Inv h)
    (hd : decode key = some (i, g)) :
    Inv ((h.stored t key i value).move (retSet (storeLast h.base t key i g value) t c)) := by
  refine ⟨hi.generation, hi.active, hi.decoded_setPc (p := .idle) trivial, fun u j v hv => ?_, fun u j v hv => ?_,
    hi.nodup, fun c hc => ?_, hi.order, hi.destroyed, hi.sweep, hi.rounds, hi.before,
    fun u j n g hk => (kept_move hk).2, fun u hu j => ?_⟩
  · change (array (storeLast h.base t key i g value) u j).value = some v at hv
    change ∃ key', _ ∧ decode key' = some (j, (array (storeLast h.base t key i g value) u j).generation)
    change ∃ key', (h.stored t key i value).stores[(h.stored t key i value).stamp u j]? = _ ∧ _
    obtain ⟨rfl, ha, rfl, hn⟩ | ⟨ha, hn⟩ := entry_stored h t key i g value u j
    · rw [ha] at hv ⊢
      rw [hn]
      subst hv
      exact ⟨key, by simp [stored], hd⟩
    · rw [ha] at hv ⊢
      rw [hn]
      obtain ⟨key', hx, hd'⟩ := hi.entry u j v hv
      exact ⟨key', getElem?_stored key value hx, hd'⟩
  · change (array (storeLast h.base t key i g value) u j).value = some v at hv
    change (h.stored t key i value).stamp u j ∉ _
    obtain ⟨rfl, ha, rfl, hn⟩ | ⟨ha, hn⟩ := entry_stored h t key i g value u j
    · rw [hn]
      exact hi.length_notMem
    · rw [ha] at hv
      rw [hn]
      exact hi.unused u j v hv
  · obtain ⟨key', hx, hd'⟩ := hi.call c hc
    exact ⟨key', getElem?_stored (i := i) key value hx, hd'⟩
  · have hut : u ≠ t := by
      rintro rfl
      simp [move, stored] at hu
    have hq : h.quiet u = true := by simpa [move, stored, hut] using hu
    obtain ⟨rfl, -⟩ | ⟨ha, hn⟩ := entry_stored h t key i g value u j
    · exact absurd rfl hut
    · obtain ⟨h₁, h₂⟩ := hi.quiet u hq j
      refine ⟨fun hp => ?_, fun hp n g' hk => ?_⟩
      · obtain ⟨hv, hc⟩ := h₁ hp
        exact ⟨(congrArg _ ha).trans hv, fun n g' hk => hc n g' (kept_move hk).1⟩
      · obtain ⟨hv, hs, hg⟩ := h₂ hp n g' (kept_move hk).1
        exact ⟨fun hv' => hv ((congrArg _ ha).symm.trans hv'), hn.trans hs, (congrArg _ ha).trans hg⟩

theorem record_next_none {ok : Bool} (hn : storing h.base t ok = none) : h.record (.next t ok) = h := by
  simp only [record, hn]

theorem record_next_some {ok : Bool} {key : UInt64} {value : Option Nat}
    (hn : storing h.base t ok = some (key, i, value)) : h.record (.next t ok) = h.stored t key i value := by
  simp only [record, hn, stored]

theorem inv_next {ok : Bool} (hi : Inv h) (hs : next h.base t ok = some b) :
    Inv ((h.record (.next t ok)).move b) := by
  have hpc := hi.decoded t
  unfold next at hs
  cases hp : h.base.pc t with
  | idle => simp [hp] at hs
  | setCheck key i g value =>
    rw [hp] at hpc
    simp only [hp, Option.some.injEq] at hs
    subst hs
    rw [record_next_none (by simp [storing, hp])]
    split
    · exact hi.rest ⟨rfl, rfl, rfl, rfl⟩ rfl
        (hi.decoded_setPc (p := .setStore key i g value (decide (Live h.base key))) hpc)
    · exact hi.rest ⟨rfl, rfl, rfl, rfl⟩ rfl (hi.decoded_setPc (p := .idle) trivial)
  | setStore key i g value live =>
    rw [hp] at hpc
    simp only [hp, Option.some.injEq] at hs
    subst hs
    split
    · next hm =>
      rw [record_next_none (by simp only [storing, hp, if_pos hm])]
      exact hi.rest ⟨rfl, rfl, rfl, rfl⟩ rfl (hi.decoded_setPc (p := .idle) trivial)
    · next hm =>
      have hst : storing h.base t ok = some (key, i, value) := by simp only [storing, hp, if_neg hm]
      rw [record_next_some hst]
      exact inv_stored hi hpc
  | getCheck key i g =>
    simp only [hp, Option.some.injEq] at hs
    subst hs
    rw [record_next_none (by simp [storing, hp])]
    exact hi.rest ⟨rfl, rfl, rfl, rfl⟩ rfl
      (hi.decoded_setPc (p := .getRead key i g (valid h.base i g) (decide (Live h.base key))) trivial)
  | getRead key i g valid live =>
    rw [record_next_none (by simp [storing, hp])]
    simp only [hp] at hs
    split at hs <;> cases hs
    exact hi.rest ⟨rfl, rfl, rfl, rfl⟩ rfl (hi.decoded_setPc (p := .idle) trivial)

/-! ## The exit of a task -/

theorem inv_exit (hi : Inv h) (he : h.base.exiting t = false) :
    Inv ((h.record (.exit t)).move
      { setSweep h.base t (some ⟨0, 0, false⟩) with exiting := Function.update h.base.exiting t true }) := by
  obtain ⟨hsweep, hrounds, hcalls⟩ := hi.before t he
  refine ⟨hi.generation, hi.active, hi.decoded, hi.entry, hi.unused, hi.nodup, hi.call, hi.order, hi.destroyed,
    fun u w hw => ?_, fun u hu => ?_, fun u hu => ?_, fun u j n g hk => (kept_move hk).2, fun u hu j => ?_⟩
  · by_cases hut : u = t
    · subst hut
      simp only [move, record, setSweep, Function.update_self, Option.some.injEq] at hw
      subst hw
      exact ⟨by decide, Nat.zero_le _, by simp [move], hrounds, fun c hc heq => absurd heq (hcalls c hc)⟩
    · simp only [move, record, setSweep, Function.update_of_ne hut] at hw
      simpa [move, record, hut] using hi.sweep u w hw
  · by_cases hut : u = t
    · subst hut
      simp [move, setSweep] at hu
    · exact hi.rounds u (by simpa [move, setSweep, hut] using hu)
  · by_cases hut : u = t
    · subst hut
      simp [move] at hu
    · simpa [move, record, setSweep, hut] using hi.before u (by simpa [move, hut] using hu)
  · by_cases hut : u = t
    · subst hut
      refine ⟨fun hp => ?_, fun _ n g hk => ?_⟩
      · exact absurd (hp ⟨0, 0, false⟩ (by simp [move, setSweep])) (by simp)
      · obtain ⟨hk', -⟩ := kept_move hk
        simp only [record, Function.update_self] at hk'
        split at hk' <;> cases hk'
        next hv => exact ⟨hv, rfl, rfl⟩
    · have hq : h.quiet u = true := by simpa [move, record, hut] using hu
      have hp : Passed ({ setSweep h.base t (some ⟨0, 0, false⟩) with
          exiting := Function.update h.base.exiting t true } : State) u j ↔ Passed h.base u j := by
        simp [Passed, setSweep, hut]
      have hk : ∀ n g, ((h.record (.exit t)).move { setSweep h.base t (some ⟨0, 0, false⟩) with
          exiting := Function.update h.base.exiting t true }).kept u j = some (n, g) → h.kept u j = some (n, g) :=
        fun n g hk => by simpa [record, hut] using (kept_move hk).1
      obtain ⟨h₁, h₂⟩ := hi.quiet u hq j
      exact ⟨fun hpass => ⟨(h₁ (hp.mp hpass)).1, fun n g hk' => (h₁ (hp.mp hpass)).2 n g (hk n g hk')⟩,
        fun hpass n g hk' => h₂ (mt hp.mpr hpass) n g (hk n g hk')⟩

/-- The call that a round makes, if any. -/
theorem destroying_some {w : Sweep} {c : Destroy} (hc : h.destroying t w = some c) :
    c.task = t ∧ c.pass = w.pass ∧ c.index = w.index ∧ c.store = h.stamp t w.index ∧ w.index < localKeysMax ∧
      array h.base t w.index = ⟨c.generation, some c.value⟩ ∧
      destructorOf h.base w.index c.generation = some c.destructor := by
  unfold destroying at hc
  dsimp only at hc
  split at hc
  · next hlt =>
    split at hc <;> cases hc
    next v d hv hd =>
    refine ⟨rfl, rfl, rfl, rfl, hlt.1, ?_, hd⟩
    rw [← hv]
  · cases hc

/-- What a round changes: the entry it clears, and how far the loop is. -/
structure Round (s : State) (t : Nat) (w : Sweep) (w' : Option Sweep) (b : State) : Prop where
  slots : b.slots = s.slots
  pc : b.pc = s.pc
  exiting : b.exiting = s.exiting
  sweep : b.sweep = Function.update s.sweep t w'
  others : ∀ u ≠ t, array b u = array s u
  ahead : ∀ j ≠ w.index, array b t j = array s t j
  entry : array b t w.index = array s t w.index ∨ (array b t w.index).value = none
  next : ∀ x, w' = some x → x.pos = w.pos + 1 ∧ x.pass < 4 ∧ x.index ≤ localKeysMax

theorem Round.value {s : State} {w : Sweep} {w' : Option Sweep} (hr : Round s t w w' b) {u j v : Nat}
    (hv : (array b u j).value = some v) : array b u j = array s u j := by
  by_cases hu : u = t
  · subst hu
    by_cases hj : j = w.index
    · subst hj
      refine hr.entry.resolve_right fun hn => ?_
      rw [hn] at hv
      cases hv
    · exact hr.ahead j hj
  · rw [hr.others u hu]

theorem Round.value_none {s : State} {w : Sweep} {w' : Option Sweep} (hr : Round s t w w' b) {u j : Nat}
    (hv : (array s u j).value = none) : (array b u j).value = none := by
  cases hb : (array b u j).value with
  | none => rfl
  | some v =>
    rw [hr.value hb, hv] at hb
    cases hb

/-- An entry that is ahead of the loop was so before, and is not the one of the round. -/
theorem Round.not_passed {s : State} {w : Sweep} {w' : Option Sweep} (hr : Round s t w w' b) {j : Nat}
    (hw : s.sweep t = some w) (hp : ¬Passed b t j) : ¬Passed s t j ∧ w.index < j := by
  simp only [Passed, hr.sweep, Function.update_self, Classical.not_forall, not_or, not_not, Nat.not_lt] at hp
  obtain ⟨x, hx, hpass, hle⟩ := hp
  obtain ⟨hpos, -, hmax⟩ := hr.next x hx
  have hmax' : x.index ≤ 64 := hmax
  have hxpos : x.pos = x.pass * 65 + x.index := rfl
  have hwpos : w.pos = w.pass * 65 + w.index := rfl
  have hlt : w.pass = 0 ∧ w.index < j := by omega
  refine ⟨fun h => ?_, hlt.2⟩
  obtain hne | hgt := h w hw
  · exact hne hlt.1
  · omega

/-- The entries of different slots and tasks have different stores. -/
theorem Inv.stamp_inj (hi : Inv h) {u j v v' : Nat} (hv : (array h.base t i).value = some v)
    (hv' : (array h.base u j).value = some v') (hs : h.stamp t i = h.stamp u j) : t = u ∧ i = j := by
  obtain ⟨key, hx, hd⟩ := hi.entry t i v hv
  obtain ⟨key', hx', hd'⟩ := hi.entry u j v' hv'
  rw [hs, hx'] at hx
  cases hx
  rw [hd] at hd'
  cases hd'
  exact ⟨rfl, rfl⟩

theorem mem_toList_append {c : Option Destroy} {cs : List Destroy} {x : Destroy} :
    x ∈ c.toList ++ cs ↔ c = some x ∨ x ∈ cs := by
  cases c <;> simp [eq_comm]

theorem Destroy.pos_eq {w : Sweep} {c : Destroy} (hc : h.destroying t w = some c) : c.pos = w.pos := by
  obtain ⟨-, hpass, hindex, -⟩ := destroying_some hc
  rw [Destroy.pos, Sweep.pos, hpass, hindex]

/-- The calls after a round in which `c` was made, if any. -/
structure Calls (h : History) (t : Nat) (w : Sweep) (cs : List Destroy) : Prop where
  nodup : (cs.map Destroy.store).Nodup
  call : ∀ c ∈ cs, ∃ key, h.stores[c.store]? = some ⟨c.task, key, some c.value⟩ ∧
    decode key = some (c.index, c.generation)
  order : cs.Pairwise fun c c' => c.task = c'.task → c'.pos < c.pos
  pos : ∀ c ∈ cs, c.task = t → c.pos ≤ w.pos

theorem Inv.calls_round {w : Sweep} {c : Option Destroy} (hi : Inv h) (hw : h.base.sweep t = some w)
    (hc : ∀ x, c = some x → h.destroying t w = some x) : Calls h t w (c.toList ++ h.calls) := by
  obtain ⟨-, -, -, -, hpos⟩ := hi.sweep t w hw
  cases c with
  | none => exact ⟨hi.nodup, hi.call, hi.order, fun x hx ht => Nat.le_of_lt (hpos x hx ht)⟩
  | some c =>
    have hcp := Destroy.pos_eq (hc c rfl)
    obtain ⟨htask, -, hindex, hstore, -, harray, -⟩ := destroying_some (hc c rfl)
    have hvalue : (array h.base t w.index).value = some c.value := by rw [harray]
    refine ⟨List.nodup_cons.mpr ⟨?_, hi.nodup⟩, fun x hx => ?_, List.pairwise_cons.mpr ⟨fun x hx heq => ?_, hi.order⟩,
      fun x hx ht => ?_⟩
    · rw [hstore]
      exact hi.unused t w.index c.value hvalue
    · obtain rfl | hx := List.mem_cons.mp hx
      · obtain ⟨key, hkey, hd⟩ := hi.entry t w.index x.value hvalue
        rw [harray] at hd
        exact ⟨key, by rw [hstore, htask, hkey], by rw [hd, hindex]⟩
      · exact hi.call x hx
    · rw [hcp]
      exact hpos x hx (heq.symm.trans htask)
    · obtain rfl | hx := List.mem_cons.mp hx
      · exact Nat.le_of_eq hcp
      · exact Nat.le_of_lt (hpos x hx ht)

/-- A round, given what becomes of the entries it passes. -/
theorem Inv.round {w : Sweep} {w' : Option Sweep} {c : Option Destroy} (hi : Inv h) (hw : h.base.sweep t = some w)
    (hr : Round h.base t w w' b) (hc : ∀ x, c = some x → h.destroying t w = some x ∧ (array b t w.index).value = none)
    (hd : b.destroyed = (c.toList.map fun c => (c.task, c.destructor, c.value)) ++ h.base.destroyed)
    (hp : h.quiet t = true → ∀ j, ¬Passed h.base t j → Passed b t j → (array b t j).value = none ∧
      ∀ n g, h.kept t j = some (n, g) → hasDestructor b j g = true → n ∈ (c.toList ++ h.calls).map Destroy.store) :
    Inv ({ h with rounds := Function.update h.rounds t (h.rounds t + 1), calls := c.toList ++ h.calls }.move b) := by
  have hcalls := hi.calls_round hw fun x hx => (hc x hx).1
  obtain ⟨hpass, hindex, hexit, hrounds, -⟩ := hi.sweep t w hw
  refine ⟨fun j => ?_, fun j hj => ?_, fun u => ?_, fun u j v hv => ?_, fun u j v hv => ?_, hcalls.nodup, hcalls.call,
    hcalls.order, ?_, fun u x hx => ?_, fun u hu => ?_, fun u hu => ?_, fun u j n g hk => (kept_move hk).2,
    fun u hu j => ?_⟩
  · exact hr.slots ▸ hi.generation j
  · exact (hr.slots ▸ hi.active j) hj
  · exact hr.pc ▸ hi.decoded u
  · change (array b u j).value = _ at hv
    change ∃ key, _ ∧ decode key = some (j, (array b u j).generation)
    have heq := hr.value hv
    rw [heq] at hv ⊢
    exact hi.entry u j v hv
  · change (array b u j).value = _ at hv
    have hv' := hv
    rw [hr.value hv] at hv'
    intro hm
    obtain ⟨x, hx, hxs⟩ := List.mem_map.mp hm
    obtain hx | hx := mem_toList_append.mp hx
    · -- the entry of the value destroyed was cleared
      obtain ⟨hdes, hnone⟩ := hc x hx
      obtain ⟨-, -, -, hstore, -, harray, -⟩ := destroying_some hdes
      obtain ⟨rfl, rfl⟩ := hi.stamp_inj (v := x.value) (by rw [harray]) hv' (hstore.symm.trans hxs)
      rw [hnone] at hv
      cases hv
    · exact hi.unused u j v hv' (List.mem_map.mpr ⟨x, hx, hxs⟩)
  · refine hd.trans ?_
    rw [hi.destroyed]
    exact List.map_append.symm
  · change b.sweep u = some x at hx
    rw [hr.sweep] at hx
    by_cases hut : u = t
    · subst hut
      rw [Function.update_self] at hx
      obtain ⟨hxpos, hxpass, hxindex⟩ := hr.next x hx
      refine ⟨hxpass, hxindex, ?_, ?_, fun y hy ht => ?_⟩
      · exact hr.exiting ▸ hexit
      · simp [move, hrounds, hxpos]
      · have hle := hcalls.pos y hy ht
        omega
    · rw [Function.update_of_ne hut] at hx
      obtain ⟨hxpass, hxindex, he, hxr, hxc⟩ := hi.sweep u x hx
      refine ⟨hxpass, hxindex, hr.exiting ▸ he, by simpa [move, hut] using hxr, fun y hy ht => ?_⟩
      obtain hy | hy := mem_toList_append.mp hy
      · have htask := (destroying_some (hc y hy).1).1
        exact absurd (ht.symm.trans htask) hut
      · exact hxc y hy ht
  · change b.sweep u = none at hu
    rw [hr.sweep] at hu
    by_cases hut : u = t
    · subst hut
      have hpos : w.pos = w.pass * 65 + w.index := rfl
      have hmax : localKeysMax = 64 := rfl
      simp only [move, Function.update_self]
      omega
    · rw [Function.update_of_ne hut] at hu
      simpa [move, hut] using hi.rounds u hu
  · change b.exiting u = false at hu
    rw [hr.exiting] at hu
    obtain ⟨hus, hur, huc⟩ := hi.before u hu
    have hut : u ≠ t := by
      rintro rfl
      rw [hexit] at hu
      cases hu
    refine ⟨?_, by simpa [move, hut] using hur, fun y hy => ?_⟩
    · change b.sweep u = none
      rw [hr.sweep, Function.update_of_ne hut, hus]
    · obtain hy | hy := mem_toList_append.mp hy
      · have htask := (destroying_some (hc y hy).1).1
        exact fun heq => hut (heq.symm.trans htask)
      · exact huc y hy
  · obtain ⟨h₁, h₂⟩ := hi.quiet u hu j
    have hmem : ∀ n, n ∈ h.calls.map Destroy.store → n ∈ (c.toList ++ h.calls).map Destroy.store := fun n hn => by
      rw [List.map_append]
      exact List.mem_append_right _ hn
    by_cases hut : u = t
    · subst hut
      refine ⟨fun hpass' => ?_, fun hpass' n g hk => ?_⟩
      · by_cases hold : Passed h.base u j
        · exact ⟨hr.value_none (h₁ hold).1, fun n g hk => hmem n ((h₁ hold).2 n g (kept_move hk).1)⟩
        · obtain ⟨hv, hk'⟩ := hp hu j hold hpass'
          exact ⟨hv, fun n g hk => hk' n g (kept_move hk).1 (kept_move hk).2⟩
      · obtain ⟨hold, hlt⟩ := hr.not_passed hw hpass'
        obtain ⟨hv, hs, hg⟩ := h₂ hold n g (kept_move hk).1
        have heq := hr.ahead j (Nat.ne_of_gt hlt)
        exact ⟨fun hv' => hv ((congrArg _ heq).symm.trans hv'), hs, (congrArg _ heq).trans hg⟩
    · have hpass' : Passed b u j ↔ Passed h.base u j := by rw [Passed, Passed, hr.sweep, Function.update_of_ne hut]
      have heq := congrFun (hr.others u hut) j
      refine ⟨fun hp' => ?_, fun hp' n g hk => ?_⟩
      · obtain ⟨hv, hk'⟩ := h₁ (hpass'.mp hp')
        exact ⟨(congrArg _ heq).trans hv, fun n g hk => hmem n (hk' n g (kept_move hk).1)⟩
      · obtain ⟨hv, hs, hg⟩ := h₂ (mt hpass'.mpr hp') n g (kept_move hk).1
        exact ⟨fun hv' => hv ((congrArg _ heq).symm.trans hv'), hs, (congrArg _ heq).trans hg⟩

/-- An entry with a value is one of an array, and its generation is not 0. -/
theorem Inv.value_lt {v : Nat} (hi : Inv h) (hv : (array h.base t i).value = some v) :
    i < localKeysMax ∧ 0 < (array h.base t i).generation := by
  obtain ⟨key, -, hd⟩ := hi.entry t i v hv
  exact (decode_eq_some.mp hd).2

theorem Inv.kept_none (hi : Inv h) (hq : h.quiet t = true) (hp : ¬Passed h.base t i)
    (hv : (array h.base t i).value = none) : h.kept t i = none := by
  refine Option.eq_none_iff_forall_not_mem.mpr fun p hk => ?_
  exact ((hi.quiet t hq i).ahead hp p.1 p.2 hk).1 hv

theorem passed_iff {w : Sweep} (hw : h.base.sweep t = some w) : Passed h.base t i ↔ w.pass ≠ 0 ∨ i < w.index := by
  simp [Passed, hw]

theorem not_passed_iff {w : Sweep} (hw : h.base.sweep t = some w) :
    ¬Passed h.base t i ↔ w.pass = 0 ∧ w.index ≤ i := by
  rw [passed_iff hw, not_or, not_not, Nat.not_lt]

/-- The only entry that a round passes is its own, unless it is the last one of a pass. -/
theorem eq_of_passed {w : Sweep} {f : Bool} (hw : h.base.sweep t = some w) (hold : ¬Passed h.base t i)
    (hs : b.sweep t = some ⟨w.pass, w.index + 1, f⟩) (hnew : Passed b t i) : i = w.index := by
  obtain ⟨hpass, hle⟩ := (not_passed_iff hw).mp hold
  obtain hne | hlt := hnew _ hs
  · exact absurd hpass hne
  · exact Nat.le_antisymm (Nat.le_of_lt_succ hlt) hle

/-- A round that only goes on, past entries without a value. -/
theorem Inv.goes_on {w : Sweep} {w' : Option Sweep} (hi : Inv h) (hw : h.base.sweep t = some w)
    (hv : (array h.base t w.index).value = none)
    (hn : ∀ x, w' = some x → x.pos = w.pos + 1 ∧ x.pass < 4 ∧ x.index ≤ localKeysMax)
    (hp : ∀ j, ¬Passed h.base t j → Passed (setSweep h.base t w') t j → (array h.base t j).value = none) :
    Inv ((h.record (.visit t)).move (setSweep h.base t w')) := by
  have hc : h.destroying t w = none := by
    refine Option.eq_none_iff_forall_not_mem.mpr fun c hc => ?_
    obtain ⟨-, -, -, -, -, harray, -⟩ := destroying_some hc
    rw [harray] at hv
    cases hv
  simp only [record, hw, hc]
  refine hi.round (c := none) hw ⟨rfl, rfl, rfl, rfl, fun _ _ => rfl, fun _ _ => rfl, .inl rfl, hn⟩ (fun x hx => ?_) rfl
    fun hq j hold hnew => ?_
  · cases hx
  · have hj := hp j hold hnew
    refine ⟨hj, fun n g hk => ?_⟩
    rw [hi.kept_none hq hold hj] at hk
    cases hk

/-- A round that clears its entry. -/
theorem Inv.clears {w x : Sweep} {d : List (Nat × Nat × Nat)} (hi : Inv h) (hw : h.base.sweep t = some w)
    (hlt : w.index < localKeysMax) (hx : x.pass = w.pass ∧ x.index = w.index + 1)
    (hd : d = ((h.destroying t w).toList.map fun c => (c.task, c.destructor, c.value)) ++ h.base.destroyed)
    (hk : ∀ n g, h.stamp t w.index = n → (array h.base t w.index).generation = g →
      hasDestructor h.base w.index g = true → n ∈ ((h.destroying t w).toList ++ h.calls).map Destroy.store) :
    Inv ((h.record (.visit t)).move
      { setSweep (store h.base t w.index ⟨(array h.base t w.index).generation, none⟩) t (some x) with
        destroyed := d }) := by
  obtain ⟨hpass, -⟩ := hi.sweep t w hw
  obtain ⟨p, j, called⟩ := x
  obtain ⟨rfl, rfl⟩ := hx
  have harray : ∀ u, array { setSweep (store h.base t w.index ⟨(array h.base t w.index).generation, none⟩) t
      (some ⟨w.pass, w.index + 1, called⟩) with destroyed := d } u =
        if u = t then Function.update (array h.base t) w.index
        ⟨(array h.base t w.index).generation, none⟩ else array h.base u :=
    array_store h.base t w.index ⟨(array h.base t w.index).generation, none⟩
  have hcleared : (array { setSweep (store h.base t w.index ⟨(array h.base t w.index).generation, none⟩) t
      (some ⟨w.pass, w.index + 1, called⟩) with destroyed := d } t w.index).value = none := by
    rw [harray, if_pos rfl, Function.update_self]
  simp only [record, hw]
  refine hi.round hw ⟨rfl, rfl, rfl, rfl, fun u hu => ?_, fun j hj => ?_, .inr hcleared, fun y hy => ?_⟩
    (fun y hy => ⟨hy, hcleared⟩) hd fun hq j hold hnew => ?_
  · rw [harray, if_neg hu]
  · rw [harray, if_pos rfl, Function.update_of_ne hj]
  · cases hy
    exact ⟨rfl, hpass, hlt⟩
  · obtain rfl := eq_of_passed hw hold (f := called) (by simp [setSweep]) hnew
    refine ⟨hcleared, fun n g hkept hdes => ?_⟩
    obtain ⟨-, hs, hg⟩ := (hi.quiet t hq w.index).ahead hold n g hkept
    exact hk n g hs hg hdes

theorem inv_visit {w : Sweep} (hi : Inv h) (hw : h.base.sweep t = some w) :
    Inv ((h.record (.visit t)).move (visit h.base t w)) := by
  obtain ⟨hpass, hindex, -⟩ := hi.sweep t w hw
  have hvis := visits_visit h.base t w
  generalize visit h.base t w = b at hvis ⊢
  have hpos : w.pos = w.pass * 65 + w.index := rfl
  have hend : ∀ j, localKeysMax ≤ j → (array h.base t j).value = none := fun j hj => by
    by_contra hv
    obtain ⟨v, hv⟩ := Option.ne_none_iff_exists'.mp hv
    exact absurd (hi.value_lt hv).1 (Nat.not_lt.mpr hj)
  cases hvis with
  | ended hor =>
    have hnone : ∀ j, w.index ≤ j → (array h.base t j).value = none := fun j hj => by
      obtain hn | hle := hor
      · simp [array, hn, emptyArray]
      · exact hend j (Nat.le_trans hle hj)
    exact hi.goes_on hw (hnone _ (Nat.le_refl _)) (fun x hx => by cases hx)
      fun j hold _ => hnone j ((not_passed_iff hw).mp hold).2
  | pass hle hp =>
    refine hi.goes_on hw (hend _ hle) (fun x hx => ?_) fun j hold _ =>
      hend j (Nat.le_trans hle ((not_passed_iff hw).mp hold).2)
    cases hx
    have hmax : localKeysMax = 64 := rfl
    exact ⟨by simp only [Sweep.pos, hmax]; omega, hp, Nat.zero_le _⟩
  | skip hlt he =>
    have hnone : (array h.base t w.index).value = none := by
      refine he.elim id fun hg => ?_
      by_contra hv
      obtain ⟨v, hv⟩ := Option.ne_none_iff_exists'.mp hv
      exact absurd hg (Nat.ne_of_gt (hi.value_lt hv).2)
    refine hi.goes_on hw hnone (fun x hx => ?_) fun j hold hnew => ?_
    · cases hx
      exact ⟨rfl, hpass, hlt⟩
    · obtain rfl := eq_of_passed hw hold (Function.update_self ..) hnew
      exact hnone
  | clear hlt hg hd =>
    have hc : h.destroying t w = none := by
      refine Option.eq_none_iff_forall_not_mem.mpr fun c hc => ?_
      obtain ⟨-, -, -, -, -, harray, hdes⟩ := destroying_some hc
      rw [harray, hdes] at hd
      cases hd
    refine hi.clears (x := ⟨w.pass, w.index + 1, w.called⟩) (d := h.base.destroyed) hw hlt ⟨rfl, rfl⟩ (by rw [hc]; rfl)
      fun n g _ hgen hdes => ?_
    rw [hasDestructor, ← hgen, hd] at hdes
    cases hdes
  | destroy v d hlt hg hv hd =>
    have hc : h.destroying t w = some ⟨t, w.pass, w.index, (array h.base t w.index).generation, v, d,
        h.stamp t w.index⟩ := by
      simp only [destroying, if_pos (And.intro hlt hg), hv, hd]
    refine hi.clears (x := ⟨w.pass, w.index + 1, true⟩) hw hlt ⟨rfl, rfl⟩ (by rw [hc]; rfl) fun n g hs _ _ => ?_
    rw [hc, hs]
    exact List.mem_cons_self

/-! ## Runs -/

theorem inv_step {h' : History} {a : Act} (hi : Inv h) (hs : h.step a = some h') : Inv h' := by
  obtain ⟨b, hb, rfl⟩ := Option.map_eq_some_iff.mp hs
  cases a with
  | create destructor =>
    cases hb
    exact inv_create hi destructor
  | delete key =>
    cases hb
    exact inv_delete hi key _
  | set self key value => exact inv_set hi hb
  | get self key => exact inv_get hi hb
  | next t ok => exact inv_next hi hb
  | exit t =>
    simp only [LocalStorage.step] at hb
    split at hb <;> cases hb
    next hn =>
    rw [not_or, Bool.not_eq_true] at hn
    exact inv_exit hi hn.2
  | visit t =>
    simp only [LocalStorage.step] at hb
    split at hb <;> cases hb
    next hw => exact inv_visit hi hw

theorem inv_of_reach (hr : machine.Reach h) : Inv h := by
  refine Machine.Reach.invariant (I := Inv) ?_ (fun _ _ _ _ hi hs => inv_step hi hs) hr
  rintro h rfl
  exact inv_initial

/-- The call `c` of a destructor in task `t`: with a value the task stored, under a key that is live when the loop
looks the destructor up, and the destructor is that of the key. -/
def Called (h : History) (t : Nat) (c : Destroy) : Prop :=
  ∃ w key, h.base.sweep t = some w ∧ c.task = t ∧ c.pass = w.pass ∧ c.index = w.index ∧
    h.stores[c.store]? = some ⟨t, key, some c.value⟩ ∧ decode key = some (c.index, c.generation) ∧
    valid h.base c.index c.generation = true ∧ h.destructors key = some c.destructor

/-- The destructors of the tasks that exit. -/
structure Destroys (h : History) : Prop where
  /-- The loop makes at most four passes, each of `localKeysMax` entries and the end of the pass. -/
  passes : ∀ t w, h.base.sweep t = some w → w.pass < 4
  rounds : ∀ t, h.rounds t ≤ 4 * (localKeysMax + 1)
  /-- It goes on whenever the destructors called so far have returned. -/
  continues : ∀ t w, h.base.sweep t = some w → h.base.pc t = .idle →
    ∃ h', h.step (.visit t) = some h' ∧ h'.rounds t = h.rounds t + 1
  call : ∀ t h', h.step (.visit t) = some h' → h'.calls = h.calls ∨ ∃ c, Called h t c ∧ h'.calls = c :: h.calls
  others : ∀ a h', (∀ t, a ≠ .visit t) → h.step a = some h' → h'.calls = h.calls
  destroyed : h.base.destroyed = h.calls.map fun c => (c.task, c.destructor, c.value)
  /-- No value stored is destroyed twice. -/
  once : (h.calls.map Destroy.store).Nodup
  /-- A later call in the same task is in a later pass, or for a later entry. -/
  ascending : h.calls.Pairwise fun c c' => c.task = c'.task →
    c'.pass < c.pass ∨ c'.pass = c.pass ∧ c'.index < c.index
  /-- If the task stores nothing, all is destroyed once. -/
  quiet : ∀ t, h.base.exiting t = true → h.quiet t = true → h.base.sweep t = none →
    (∀ i, (array h.base t i).value = none) ∧
    ∀ i n g, h.kept t i = some (n, g) → (h.calls.map Destroy.store).count n = 1

theorem Inv.called {w : Sweep} {c : Destroy} (hi : Inv h) (hw : h.base.sweep t = some w)
    (hc : h.destroying t w = some c) : Called h t c := by
  obtain ⟨htask, hpass, hindex, hstore, -, harray, hd⟩ := destroying_some hc
  obtain ⟨key, hx, hk⟩ := hi.entry t w.index c.value (by rw [harray])
  rw [harray] at hk
  unfold destructorOf at hd
  split at hd
  · next hv =>
    refine ⟨w, key, hw, htask, hpass, hindex, by rw [hstore, hx], by rw [hk, hindex], by rw [hindex, hv], ?_⟩
    rw [valid, Bool.and_eq_true, beq_iff_eq] at hv
    obtain ⟨hlt, hpos, hdes⟩ := hi.active w.index hv.1
    have hkey := decode_inj hk (hv.2 ▸ decode_encode hlt hpos (hi.generation w.index))
    rw [hkey, ← hv.2, hdes, hd]
  · cases hd

theorem calls_record {a : Act} (ha : ∀ t, a ≠ .visit t) : (h.record a).calls = h.calls := by
  cases a with
  | create destructor =>
    unfold record
    dsimp only
    split <;> rfl
  | delete key => rfl
  | set self key value => rfl
  | get self key => rfl
  | next t ok =>
    cases hst : storing h.base t ok with
    | none => rw [record_next_none hst]
    | some p => rw [record_next_some (by exact hst), stored]
  | exit t => rfl
  | visit t => exact absurd rfl (ha t)

theorem visit_eq {h' : History} (hs : h.step (.visit t) = some h') :
    ∃ w, h.base.sweep t = some w ∧ h'.calls = (h.destroying t w).toList ++ h.calls := by
  obtain ⟨b, hb, rfl⟩ := Option.map_eq_some_iff.mp hs
  simp only [LocalStorage.step] at hb
  split at hb <;> cases hb
  next w _ hw => exact ⟨w, hw, by simp only [move, record, hw]⟩

/-- Whatever the destructors and the other tasks do. -/
theorem destroys_of_reach (hr : machine.Reach h) : Destroys h := by
  have hi := inv_of_reach hr
  have hmax : localKeysMax = 64 := rfl
  refine ⟨fun t w hw => (hi.sweep t w hw).1, fun t => ?_, fun t w hw hp => ?_, fun t h' hs => ?_,
    fun a h' ha hs => ?_, hi.destroyed, hi.nodup, ?_, fun t _ hq hs => ?_⟩
  · cases hw : h.base.sweep t with
    | none => exact hi.rounds t hw
    | some w =>
      obtain ⟨hpass, hindex, -, hrounds, -⟩ := hi.sweep t w hw
      simp only [Sweep.pos, hmax] at hrounds hindex ⊢
      omega
  · have hs : h.step (.visit t) = some ((h.record (.visit t)).move (visit h.base t w)) := by
      simp only [step, LocalStorage.step, hp, hw, Option.map_some]
    exact ⟨_, hs, by simp [move, record, hw]⟩
  · obtain ⟨w, hw, hc⟩ := visit_eq hs
    cases hd : h.destroying t w with
    | none => exact .inl (by rw [hc, hd]; rfl)
    | some c => exact .inr ⟨c, hi.called hw hd, by rw [hc, hd]; rfl⟩
  · obtain ⟨b, -, rfl⟩ := Option.map_eq_some_iff.mp hs
    exact calls_record ha
  · refine hi.order.imp_of_mem fun {c c'} hc hc' hlt htask => ?_
    obtain ⟨key, -, hk⟩ := hi.call c hc
    obtain ⟨key', -, hk'⟩ := hi.call c' hc'
    have hcl := (decode_eq_some.mp hk).2.1
    have hcl' := (decode_eq_some.mp hk').2.1
    have hpos := hlt htask
    simp only [Destroy.pos, hmax] at hpos hcl hcl'
    omega
  · have hp : ∀ i, Passed h.base t i := fun i w hw => by
      rw [hs] at hw
      cases hw
    refine ⟨fun i => ((hi.quiet t hq i).passed (hp i)).1, fun i n g hk => ?_⟩
    exact List.count_eq_one_of_mem hi.nodup (((hi.quiet t hq i).passed (hp i)).2 n g hk)

/-- Two keys; the destructor of the first stores a value with it again, which
the next pass destroys, and the second key is deleted in between. -/
theorem destroys_of_reach_again : ∃ h, machine.Reach h ∧ Destroys h ∧
    h.base.destroyed = [(0, 5, 8), (0, 5, 7)] ∧ h.rounds 0 = 3 * 65 ∧ h.base.sweep 0 = none := by
  obtain ⟨h, hr, hp⟩ := Machine.exists_reach_of_run (M := machine) (s := initial)
    (l := ([.create (some 5), .create (some 6), .set (some 0) (encode 0 1) (some 7), .next 0 true, .next 0 true,
      .set (some 0) (encode 1 1) (some 9), .next 0 true, .next 0 true, .exit 0, .visit 0, .delete (encode 1 1),
      .set (some 0) (encode 0 1) (some 8), .next 0 true, .next 0 true] : List Act) ++
        (List.replicate 194 (.visit 0) : List Act))
    (p := fun h => decide (h.base.destroyed = [(0, 5, 8), (0, 5, 7)]) && (decide (h.rounds 0 = 3 * 65) &&
      decide (h.base.sweep 0 = none)))
    rfl (by decide +kernel)
  simp only [Bool.and_eq_true, decide_eq_true_eq] at hp
  exact ⟨h, hr, destroys_of_reach hr, hp⟩

end History

end Dlsmc.LocalStorage
