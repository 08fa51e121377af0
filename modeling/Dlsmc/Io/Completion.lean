import Mathlib.Data.List.Nodup
import Mathlib.Data.List.Perm.Subperm
import Mathlib.Data.List.Range
import Dlsmc.Framework.Chain
import Dlsmc.Io.Ring

/-!
# Every call gets its own completion

An entry is outstanding (`out`) from its place in the submission ring until the
reaper has made its last access to the slot it names. All that time its call
stands between `submit` and the end of its wait and owns the slot
(`Flow.waiting`), so the slot is not reused, the task the reaper unparks is
that call's, and the result left in the slot is the one of its completion.
-/

namespace Dlsmc.Io

/-! ## What a call has -/

/-- The slot a call owns. -/
def Pc.tok : Pc → Option Nat
  | .allocUnlock tok => tok
  | .setTask tok | .clearWake tok | .submitLock tok | .place tok | .enter tok _ | .submitUnlock tok _ | .park tok _
  | .wait tok _ | .readRes tok _ | .freeLock tok _ _ | .freePush tok _ _ => some tok
  | .idle | .allocLock | .allocPop | .freeUnlock _ _ => none

/-- The entry it waits for: its position and its slot. -/
def Pc.sent : Pc → Option (Nat × Nat)
  | .enter tok k | .submitUnlock tok k | .park tok k | .wait tok k => some (k, tok)
  | _ => none

/-- The position of its entry. -/
def Pc.entry : Pc → Option Nat
  | .enter _ k | .submitUnlock _ k | .park _ k | .wait _ k | .readRes _ k | .freeLock _ k _ | .freePush _ k _
  | .freeUnlock k _ => some k
  | _ => none

/-- It holds `io->mtx`. -/
def Pc.holds : Pc → Bool
  | .allocPop | .allocUnlock _ | .place _ | .enter _ _ | .submitUnlock _ _ | .freePush _ _ _ | .freeUnlock _ _ => true
  | _ => false

theorem Pc.tok_of_sent {c : Pc} {p : Nat × Nat} (h : c.sent = some p) : c.tok = some p.2 := by
  cases c <;> simp_all [Pc.sent, Pc.tok] <;> exact h ▸ rfl

/-! ## What is outstanding -/

/-- Placed and not taken by the kernel. -/
def pending (s : State) : List (Nat × Nat) :=
  (List.range' s.sqHead (s.sqTail - s.sqHead)).map fun k => (k, (s.sqes (k % s.nslots)).userData)

/-- How many completions the reaper is done with. -/
def Reaper.done (cqHead : Nat) : Reaper → Nat
  | .enter | .load => cqHead
  | .loop head _ | .storeRes head _ _ | .unpark head _ _ | .wake head _ _ | .publish head => head

def State.done (s : State) : Nat := s.reaper.done s.cqHead

/-- Completed, and not done with by the reaper. -/
def posted (s : State) : List (Nat × Nat) := (s.cqes.drop s.done).map fun c => (c.sqe, c.userData)

def out (s : State) : List (Nat × Nat) := pending s ++ s.inflight ++ posted s

/-- The reaper is done with a completion of entry `k` with the result `res`. -/
def Reaped (s : State) (k : Nat) (res : Int) : Prop :=
  ∃ c ∈ s.cqes.take s.done, c.sqe = k ∧ c.res = res

/-! ## The invariant -/

/-- Every slot is on the free list or owned by one call. -/
structure Pool (s : State) : Prop where
  free : ∃ l, IsChain (fun i => (s.slots i).next) s.freeHead l ∧
    ∀ i, i ∈ l ↔ i < s.nslots ∧ ∀ t, (s.pc t).tok ≠ some i
  own : ∀ t t' i, (s.pc t).tok = some i → (s.pc t').tok = some i → t = t'
  bound : ∀ t i, (s.pc t).tok = some i → i < s.nslots

/-- The mutex is held by the call that is in a section. -/
def Mutex (s : State) : Prop := ∀ t, (s.pc t).holds = true ↔ s.mtx = some t

/-- No two calls have the same entry. -/
structure Entries (s : State) : Prop where
  own : ∀ t t' k, (s.pc t).entry = some k → (s.pc t').entry = some k → t = t'
  lt : ∀ t k, (s.pc t).entry = some k → k < s.sqTail
  fresh : ∀ t k, (s.pc t).entry = some k → k ∉ s.returns.filterMap Return.sqe
  returned : (s.returns.filterMap Return.sqe).Nodup
  returned_lt : ∀ k ∈ s.returns.filterMap Return.sqe, k < s.sqTail

/-- What the call of task `t` relies on. -/
def Local (s : State) (t : Nat) : Pc → Prop
  | .clearWake tok => (s.slots tok).task = some t
  | .submitLock tok | .place tok => (s.slots tok).task = some t ∧ (s.slots tok).wakeDone = false
  | .enter tok k | .submitUnlock tok k | .park tok k | .wait tok k =>
    (s.slots tok).task = some t ∧ ((k, tok) ∈ out s ∨ (s.slots tok).wakeDone = true ∧ Reaped s k (s.slots tok).res)
  | .readRes tok k => Reaped s k (s.slots tok).res
  | .freeLock _ k res | .freePush _ k res | .freeUnlock k res => Reaped s k res
  | _ => True

/-- What the reaper relies on. -/
def Reaper.Ok (s : State) : Reaper → Prop
  | .enter | .load => s.cqHead ≤ s.cqes.length
  | .loop head tail => head ≤ tail ∧ tail ≤ s.cqes.length
  | .storeRes head tail cqe => s.cqes[head]? = some cqe ∧ head < tail ∧ tail ≤ s.cqes.length
  | .unpark head tail cqe | .wake head tail cqe =>
    s.cqes[head]? = some cqe ∧ head < tail ∧ tail ≤ s.cqes.length ∧ (s.slots cqe.userData).res = cqe.res
  | .publish head => head ≤ s.cqes.length

structure Flow (s : State) : Prop where
  order : s.sqHead ≤ s.sqTail
  taken : (s.inflight.map Prod.fst ++ s.cqes.map Cqe.sqe).Nodup
  taken_lt : ∀ k ∈ s.inflight.map Prod.fst ++ s.cqes.map Cqe.sqe, k < s.sqHead
  waiting : ∀ p ∈ out s, (s.slots p.2).wakeDone = false ∧ ∃ t, (s.pc t).sent = some p
  locals : ∀ t, Local s t (s.pc t)
  reaper : s.reaper.Ok s
  returned : ∀ r ∈ s.returns, ∀ k, r.sqe = some k → ∃ res, Reaped s k res ∧ r.outcome = outcome res

structure Inv (s : State) : Prop where
  pool : Pool s
  mutex : Mutex s
  entries : Entries s
  flow : Flow s

/-! ## Steps of a task -/

section Tasks

variable {s w : State} {t : Nat} {c : Pc}

/-- A property of the places of the tasks that the step of one does not change. -/
theorem same_update {β : Type} {f : Pc → β} (h : f c = f (s.pc t)) (u : Nat) :
    f (Function.update s.pc t c u) = f (s.pc u) := by
  by_cases hu : u = t
  · rw [hu, Function.update_self, h]
  · rw [Function.update_of_ne hu]

theorem Pool.move (h : Pool s) (hn : w.nslots = s.nslots) (hf : w.freeHead = s.freeHead)
    (hx : ∀ i, (w.slots i).next = (s.slots i).next) (hp : w.pc = s.pc) (hc : c.tok = (s.pc t).tok) :
    Pool (setPc w t c) := by
  obtain ⟨⟨l, hl, hmem⟩, own, bound⟩ := h
  have htok u : ((setPc w t c).pc u).tok = (s.pc u).tok := by
    show (Function.update w.pc t c u).tok = _
    rw [hp]
    exact same_update hc u
  refine ⟨⟨l, ?_, fun i => ?_⟩, fun u v i hu hv => ?_, fun u i hu => ?_⟩
  · show IsChain (fun i => (w.slots i).next) w.freeHead l
    rw [hf]
    exact hl.congr fun i _ => hx i
  · simp only [htok]
    exact hn ▸ hmem i
  · exact own u v i (htok u ▸ hu) (htok v ▸ hv)
  · exact hn ▸ bound u i (htok u ▸ hu)

/-- `slot_alloc` takes the first free slot. -/
theorem Pool.pop (h : Pool s) {i : Nat} (hf : s.freeHead = some i) (hc : (s.pc t).tok = none) :
    Pool (setPc { s with freeHead := (s.slots i).next } t (.allocUnlock (some i))) := by
  obtain ⟨⟨l, hl, hmem⟩, own, bound⟩ := h
  rw [hf] at hl
  obtain ⟨l, rfl, hrest⟩ := IsChain.some_iff.mp hl
  have hnot : i ∉ l := (List.nodup_cons.mp hl.nodup).1
  obtain ⟨hi, hfree⟩ := (hmem i).mp List.mem_cons_self
  have htok u : ((setPc { s with freeHead := (s.slots i).next } t (.allocUnlock (some i))).pc u).tok =
      if u = t then some i else (s.pc u).tok := by
    show (Function.update s.pc t _ u).tok = _
    rw [Function.update_apply]
    split <;> rfl
  refine ⟨⟨l, hrest, fun j => ?_⟩, fun u v j hu hv => ?_, fun u j hu => ?_⟩
  · have hj := hmem j
    simp only [htok]
    constructor
    · intro hmemj
      obtain ⟨hlt, hno⟩ := hj.mp (List.mem_cons_of_mem _ hmemj)
      refine ⟨hlt, fun u => ?_⟩
      split
      · exact fun h => hnot (Option.some.inj h ▸ hmemj)
      · exact hno u
    · rintro ⟨hlt, hno⟩
      have hji : i ≠ j := by simpa using hno t
      refine (List.mem_cons.mp (hj.mpr ⟨hlt, fun u => ?_⟩)).resolve_left (Ne.symm hji)
      by_cases hu : u = t
      · rw [hu, hc]
        exact fun h => by cases h
      · simpa [hu] using hno u
  · rw [htok] at hu hv
    grind -linarith
  · rw [htok] at hu
    show j < s.nslots
    grind -linarith

/-- `slot_free` puts the slot of the call in front. -/
theorem Pool.push (h : Pool s) {i : Nat} (hi : (s.pc t).tok = some i) (hc : c.tok = none) :
    Pool (setPc { setSlot s i { s.slots i with next := s.freeHead } with freeHead := some i } t c) := by
  obtain ⟨⟨l, hl, hmem⟩, own, bound⟩ := h
  have hnot : i ∉ l := fun h => ((hmem i).mp h).2 t hi
  have htok u : (Function.update s.pc t c u).tok = if u = t then none else (s.pc u).tok := by
    rw [Function.update_apply]
    split
    · exact hc
    · rfl
  refine ⟨⟨i :: l, ⟨rfl, ?_⟩, fun j => ?_⟩, fun u v j hu hv => ?_, fun u j hu => ?_⟩
  · show IsChain (fun j => (Function.update s.slots i { s.slots i with next := s.freeHead } j).next)
      (Function.update s.slots i { s.slots i with next := s.freeHead } i).next l
    rw [Function.update_self]
    refine hl.congr fun j hj => ?_
    have hji : j ≠ i := fun h => hnot (h ▸ hj)
    rw [Function.update_of_ne hji]
  · show j ∈ i :: l ↔ j < s.nslots ∧ ∀ u, (Function.update s.pc t c u).tok ≠ some j
    have := hmem j
    have := bound t i hi
    simp only [htok, List.mem_cons]
    grind -linarith
  · have hu : (Function.update s.pc t c u).tok = some j := hu
    have hv : (Function.update s.pc t c v).tok = some j := hv
    rw [htok] at hu hv
    grind -linarith
  · have hu : (Function.update s.pc t c u).tok = some j := hu
    rw [htok] at hu
    exact bound u j (by grind -linarith)

theorem Mutex.move (h : Mutex s) (hm : w.mtx = s.mtx) (hp : w.pc = s.pc) (hc : c.holds = (s.pc t).holds) :
    Mutex (setPc w t c) := fun u => by
  show (Function.update w.pc t c u).holds = true ↔ w.mtx = some u
  rw [hp, hm, same_update hc u]
  exact h u

theorem Mutex.acquire (h : Mutex s) (hm : s.mtx = none) (hc : c.holds = true) :
    Mutex (setPc { s with mtx := some t } t c) := fun u => by
  show (Function.update s.pc t c u).holds = true ↔ some t = some u
  have := h u
  grind -linarith [Function.update_apply]

theorem Mutex.release (h : Mutex s) (ht : (s.pc t).holds = true) (hc : c.holds = false) (hm : w.mtx = none)
    (hp : w.pc = s.pc) : Mutex (setPc w t c) := fun u => by
  show (Function.update w.pc t c u).holds = true ↔ w.mtx = some u
  have := h u
  have := h t
  grind -linarith [Function.update_apply]

theorem Entries.move (h : Entries s) (hr : w.returns = s.returns) (ht : w.sqTail = s.sqTail) (hp : w.pc = s.pc)
    (hc : c.entry = (s.pc t).entry) : Entries (setPc w t c) := by
  obtain ⟨own, lt, fresh, returned, returned_lt⟩ := h
  have hentry u : ((setPc w t c).pc u).entry = (s.pc u).entry := by
    show (Function.update w.pc t c u).entry = _
    rw [hp]
    exact same_update hc u
  have hr' : (setPc w t c).returns = s.returns := hr
  have ht' : (setPc w t c).sqTail = s.sqTail := ht
  constructor
  · exact fun u v k hu hv => own u v k (hentry u ▸ hu) (hentry v ▸ hv)
  · exact fun u k hu => ht' ▸ lt u k (hentry u ▸ hu)
  · exact fun u k hu => hr' ▸ fresh u k (hentry u ▸ hu)
  · exact hr' ▸ returned
  · exact hr' ▸ ht' ▸ returned_lt

/-- The call places its entry. -/
theorem Entries.place (h : Entries s) (hr : w.returns = s.returns) (ht : w.sqTail = s.sqTail + 1) (hp : w.pc = s.pc)
    (hc : c.entry = some s.sqTail) : Entries (setPc w t c) := by
  obtain ⟨own, lt, fresh, returned, returned_lt⟩ := h
  have hentry u : ((setPc w t c).pc u).entry = if u = t then some s.sqTail else (s.pc u).entry := by
    show (Function.update w.pc t c u).entry = _
    rw [hp, Function.update_apply]
    split
    · exact hc
    · rfl
  have hr' : (setPc w t c).returns = s.returns := hr
  have ht' : (setPc w t c).sqTail = s.sqTail + 1 := ht
  constructor <;> simp only [hentry, hr', ht']
  · intro u v k hu hv
    have := lt u k
    have := lt v k
    grind -linarith
  · intro u k hu
    have := lt u k
    grind -linarith
  · intro u k hu hk
    have := fresh u k
    have := returned_lt k hk
    grind -linarith
  · exact returned
  · exact fun k hk => Nat.lt_succ_of_lt (returned_lt k hk)

/-- The call returns. -/
theorem Entries.ret (h : Entries s) {k : Nat} (hk : (s.pc t).entry = some k) (o : Outcome) :
    Entries (ret s t (some k) o) := by
  obtain ⟨own, lt, fresh, returned, returned_lt⟩ := h
  have hentry u : ((Io.ret s t (some k) o).pc u).entry = if u = t then none else (s.pc u).entry := by
    show (Function.update s.pc t .idle u).entry = _
    rw [Function.update_apply]
    split <;> rfl
  have hret : (Io.ret s t (some k) o).returns.filterMap Return.sqe = k :: s.returns.filterMap Return.sqe := rfl
  constructor <;> simp only [hentry, hret]
  · intro u v j hu hv
    grind -linarith
  · intro u j hu
    exact lt u j (by grind -linarith)
  · intro u j hu hj
    have := fresh u j
    have := own u t k
    grind -linarith
  · exact List.nodup_cons.mpr ⟨fresh t k hk, returned⟩
  · exact List.forall_mem_cons.mpr ⟨lt t k hk, returned_lt⟩

/-! ## What the flow of entries depends on -/

/-- The part of the state that `out`, `Reaped` and `Local` read. -/
def State.flow (s : State) :=
  (s.nslots, s.sqes, s.sqHead, s.sqTail, s.inflight, s.cqes, s.cqHead, s.reaper,
    fun i => ((s.slots i).res, (s.slots i).wakeDone, (s.slots i).task))

theorem out_congr (h : w.flow = s.flow) : out w = out s := by
  simp only [State.flow, Prod.mk.injEq] at h
  simp only [out, pending, posted, State.done, h]

theorem reaped_congr (h : w.flow = s.flow) {k : Nat} {res : Int} : Reaped w k res ↔ Reaped s k res := by
  simp only [State.flow, Prod.mk.injEq] at h
  simp only [Reaped, State.done, h]

/-- What a call relies on stands as long as its slot, its entry and what was reaped do. -/
theorem Local.frame (h : Local s t c)
    (hs : ∀ i, c.tok = some i → (w.slots i).res = (s.slots i).res ∧ (w.slots i).wakeDone = (s.slots i).wakeDone ∧
      (w.slots i).task = (s.slots i).task)
    (ho : ∀ p, c.sent = some p → p ∈ out s → p ∈ out w)
    (hr : ∀ k res, Reaped s k res → Reaped w k res) : Local w t c := by
  cases c with
  | idle | allocLock | allocPop | allocUnlock | setTask => trivial
  | clearWake tok => exact (hs tok rfl).2.2.trans h
  | submitLock tok | place tok => exact ⟨(hs tok rfl).2.2.trans h.1, (hs tok rfl).2.1.trans h.2⟩
  | enter tok k | submitUnlock tok k | park tok k | wait tok k =>
    obtain ⟨hres, hwake, htask⟩ := hs tok rfl
    refine ⟨htask.trans h.1, h.2.imp (ho _ rfl) fun hdone => ⟨hwake.trans hdone.1, ?_⟩⟩
    rw [hres]
    exact hr _ _ hdone.2
  | readRes tok k =>
    show Reaped w k (w.slots tok).res
    rw [(hs tok rfl).1]
    exact hr _ _ h
  | freeLock _ k res | freePush _ k res | freeUnlock k res => exact hr _ _ h

theorem Local.congr (hf : w.flow = s.flow) (h : Local s t c) : Local w t c := by
  refine h.frame (fun i _ => ?_) (fun p _ hp => out_congr hf ▸ hp) fun k res hr => (reaped_congr hf).mpr hr
  simp only [State.flow, Prod.mk.injEq] at hf
  have hi := congrFun hf.2.2.2.2.2.2.2.2 i
  simp only [Prod.mk.injEq] at hi
  exact hi

theorem Reaper.Ok.congr (hf : w.flow = s.flow) (h : s.reaper.Ok s) : w.reaper.Ok w := by
  simp only [State.flow, Prod.mk.injEq] at hf
  obtain ⟨-, -, -, -, -, hc, hh, hr, hx⟩ := hf
  have hres i : (w.slots i).res = (s.slots i).res := (Prod.mk.injEq .. ▸ congrFun hx i).1
  rw [hr]
  cases hpc : s.reaper <;> rw [hpc] at h <;> simp only [Reaper.Ok, hc, hh, hres] at h ⊢ <;> exact h

/-- A step of a task that leaves the entries alone. -/
theorem Flow.move (h : Flow s) (hf : w.flow = s.flow) (hp : w.pc = s.pc) (hr : w.returns = s.returns)
    (hsent : ∀ p ∈ out s, (s.pc t).sent = some p → c.sent = some p) (hc : Local s t c) : Flow (setPc w t c) := by
  obtain ⟨order, taken, taken_lt, waiting, locals, reaper, returned⟩ := h
  have hf' : (setPc w t c).flow = s.flow := hf
  have hv := hf
  simp only [State.flow, Prod.mk.injEq] at hv
  obtain ⟨-, -, hhead, htail, hin, hcq, -, -, hx⟩ := hv
  have hpc u : (setPc w t c).pc u = if u = t then c else s.pc u := by
    show Function.update w.pc t c u = _
    rw [hp, Function.update_apply]
  constructor
  · show w.sqHead ≤ w.sqTail
    omega
  · show (w.inflight.map Prod.fst ++ w.cqes.map Cqe.sqe).Nodup
    rw [hin, hcq]
    exact taken
  · show ∀ k ∈ w.inflight.map Prod.fst ++ w.cqes.map Cqe.sqe, k < w.sqHead
    rw [hin, hcq, hhead]
    exact taken_lt
  · intro p hpo
    rw [out_congr hf'] at hpo
    obtain ⟨hwake, u, hu⟩ := waiting p hpo
    refine ⟨?_, u, ?_⟩
    · show (w.slots p.2).wakeDone = false
      have hi := congrFun hx p.2
      simp only [Prod.mk.injEq] at hi
      rw [hi.2.1, hwake]
    · rw [hpc]
      split
      · rename_i hut
        exact hsent p hpo (hut ▸ hu)
      · exact hu
  · intro u
    rw [hpc]
    split
    · rename_i hut
      rw [hut]
      exact hc.congr hf'
    · exact (locals u).congr hf'
  · exact Reaper.Ok.congr hf' reaper
  · intro r hr' k hk
    obtain ⟨res, hres, ho⟩ := returned r (hr ▸ hr') k hk
    exact ⟨res, (reaped_congr hf').mpr hres, ho⟩

/-- The slot of an outstanding entry is owned by the call that waits for it. -/
theorem Flow.owner (h : Flow s) {p : Nat × Nat} (hp : p ∈ out s) :
    ∃ u, (s.pc u).sent = some p ∧ (s.pc u).tok = some p.2 := by
  obtain ⟨-, u, hu⟩ := h.waiting p hp
  exact ⟨u, hu, Pc.tok_of_sent hu⟩

/-- The entry the reaper is at is outstanding. -/
theorem mem_out_of_getElem {c : Cqe} (h : s.cqes[s.done]? = some c) : (c.sqe, c.userData) ∈ out s := by
  refine List.mem_append_right _ (List.mem_map_of_mem (f := fun c : Cqe => (c.sqe, c.userData)) ?_)
  exact List.mem_of_getElem? (i := 0) (by simpa using h)

theorem setSlot_self (i : Nat) (x : Slot) : (setSlot s i x).slots i = x := Function.update_self ..

theorem setSlot_of_ne {i j : Nat} (hj : j ≠ i) (x : Slot) : (setSlot s i x).slots j = s.slots j :=
  Function.update_of_ne hj ..

/-- The call writes to its slot before it places its entry. -/
theorem Flow.write (h : Flow s) (hpool : Pool s) {i : Nat} {x : Slot} (hi : (s.pc t).tok = some i)
    (hsent : (s.pc t).sent = none) (hc : Local (setSlot s i x) t c) : Flow (setPc (setSlot s i x) t c) := by
  have hother {p : Nat × Nat} (hp : p ∈ out s) : p.2 ≠ i ∧ ∃ u, u ≠ t ∧ (s.pc u).sent = some p := by
    obtain ⟨u, hu, hu'⟩ := h.owner hp
    have hut : u ≠ t := fun h => by rw [h, hsent] at hu; cases hu
    exact ⟨fun hpi => hut (hpool.own u t i (hpi ▸ hu') hi), u, hut, hu⟩
  have hpc u : (setPc (setSlot s i x) t c).pc u = if u = t then c else s.pc u := Function.update_apply ..
  have hslot {j : Nat} (hj : j ≠ i) : (setPc (setSlot s i x) t c).slots j = s.slots j := setSlot_of_ne hj x
  refine { order := h.order, taken := h.taken, taken_lt := h.taken_lt, waiting := fun p hp => ?_, locals := fun u => ?_,
           reaper := ?_, returned := h.returned }
  · obtain ⟨hpi, u, hut, hu⟩ := hother hp
    refine ⟨by rw [hslot hpi]; exact (h.waiting p hp).1, u, ?_⟩
    rw [hpc, if_neg hut]
    exact hu
  · rw [hpc]
    split
    · rename_i hut
      rw [hut]
      exact hc
    · rename_i hut
      refine (h.locals u).frame (fun j hj => ?_) (fun _ _ h => h) fun _ _ h => h
      have hji : j ≠ i := fun hji => hut (hpool.own u t i (hji ▸ hj) hi)
      rw [hslot hji]
      exact ⟨rfl, rfl, rfl⟩
  · have hreap := h.reaper
    have hdone : s.done = s.reaper.done s.cqHead := rfl
    show s.reaper.Ok (setPc (setSlot s i x) t c)
    cases hr : s.reaper with
    | unpark head tail cqe | wake head tail cqe =>
      rw [hr] at hreap hdone
      have hne := (hother (mem_out_of_getElem (by rw [hdone]; exact hreap.1))).1
      refine ⟨hreap.1, hreap.2.1, hreap.2.2.1, ?_⟩
      rw [hslot hne]
      exact hreap.2.2.2
    | _ =>
      rw [hr] at hreap
      exact hreap

theorem fst_lt_of_mem_pending {p : Nat × Nat} (hp : p ∈ pending s) : s.sqHead ≤ p.1 ∧ p.1 < s.sqTail := by
  obtain ⟨k, hk, rfl⟩ := List.mem_map.mp hp
  have := List.mem_range'_1.mp hk
  show s.sqHead ≤ k ∧ k < s.sqTail
  omega

/-- The pending entries have slots of their own, so there is room for one more. -/
theorem pending_room (h : Flow s) (hpool : Pool s) {i : Nat} (hi : (s.pc t).tok = some i)
    (hsent : (s.pc t).sent = none) : s.sqTail - s.sqHead < s.nslots := by
  have hout {p : Nat × Nat} (hp : p ∈ pending s) : p ∈ out s := List.mem_append_left _ (List.mem_append_left _ hp)
  have hinj : ∀ p ∈ pending s, ∀ q ∈ pending s, p.2 = q.2 → p = q := by
    intro p hp q hq hpq
    obtain ⟨u, hu, hu'⟩ := h.owner (hout hp)
    obtain ⟨v, hv, hv'⟩ := h.owner (hout hq)
    obtain rfl := hpool.own u v q.2 (hpq ▸ hu') hv'
    exact Option.some.inj (hu.symm.trans hv)
  have hnodup : (pending s).Nodup := List.Nodup.map (fun a b hab => congrArg Prod.fst hab) List.nodup_range'
  have hcons : (i :: (pending s).map Prod.snd).Nodup := by
    refine List.nodup_cons.mpr ⟨fun hmem => ?_, hnodup.map_on hinj⟩
    obtain ⟨p, hp, hpi⟩ := List.mem_map.mp hmem
    obtain ⟨u, hu, hu'⟩ := h.owner (hout hp)
    obtain rfl := hpool.own u t i (hpi ▸ hu') hi
    rw [hsent] at hu
    cases hu
  have hsub : i :: (pending s).map Prod.snd ⊆ List.range s.nslots := by
    intro j hj
    refine List.mem_range.mpr ?_
    rcases List.mem_cons.mp hj with rfl | hj
    · exact hpool.bound t _ hi
    · obtain ⟨p, hp, rfl⟩ := List.mem_map.mp hj
      obtain ⟨u, -, hu'⟩ := h.owner (hout hp)
      exact hpool.bound u _ hu'
  have hlen := (List.subperm_of_subset hcons hsub).length_le
  simp only [List.length_cons, List.length_map, pending, List.length_range', List.length_range] at hlen
  omega

/-- The call places its entry. -/
theorem Flow.place (h : Flow s) (hpool : Pool s) {i : Nat} {r : Request} (hi : s.pc t = .place i)
    (hs : w = { s with
      sqes := Function.update s.sqes (s.sqTail % s.nslots) ⟨r, i⟩
      sqTail := s.sqTail + 1 }) : Flow (setPc w t (.enter i s.sqTail)) := by
  have hroom := pending_room h hpool (t := t) (by rw [hi]; rfl) (by rw [hi]; rfl)
  have hord := h.order
  have hpending : pending w = pending s ++ [(s.sqTail, i)] := by
    have hlen : s.sqTail + 1 - s.sqHead = (s.sqTail - s.sqHead) + 1 := by omega
    have hlast : s.sqHead + (s.sqTail - s.sqHead) = s.sqTail := by omega
    rw [hs]
    simp only [pending, hlen, List.range'_1_concat, List.map_append, List.map_cons, List.map_nil, hlast,
      Function.update_self]
    congr 1
    refine List.map_congr_left fun k hk => ?_
    have hk := List.mem_range'_1.mp hk
    -- fewer than `nslots` entries are pending, so the new one does not fall on one of them
    have hne : k % s.nslots ≠ s.sqTail % s.nslots := fun he => by
      have h0 := Nat.sub_mod_eq_zero_of_mod_eq he.symm
      rw [Nat.mod_eq_of_lt (by omega)] at h0
      omega
    rw [Function.update_of_ne hne]
  have hmem p : p ∈ out w ↔ p ∈ out s ∨ p = (s.sqTail, i) := by
    have hin : w.inflight = s.inflight := hs ▸ rfl
    have hposted : posted w = posted s := hs ▸ rfl
    simp only [out, hpending, hin, hposted, List.mem_append, List.mem_singleton]
    grind -linarith
  have hpc u : (setPc w t (.enter i s.sqTail)).pc u = if u = t then .enter i s.sqTail else s.pc u := by
    rw [hs]
    exact Function.update_apply ..
  have hout : out (setPc w t (.enter i s.sqTail)) = out w := rfl
  obtain ⟨htask, hwake⟩ : (s.slots i).task = some t ∧ (s.slots i).wakeDone = false := by
    have hlocal := h.locals t
    rw [hi] at hlocal
    exact hlocal
  have hslots : (setPc w t (.enter i s.sqTail)).slots = s.slots := by rw [hs]; rfl
  have hreaped k res (hk : Reaped s k res) : Reaped (setPc w t (.enter i s.sqTail)) k res := by rw [hs]; exact hk
  constructor
  · rw [hs]
    exact Nat.le_succ_of_le hord
  · rw [hs]
    exact h.taken
  · rw [hs]
    exact h.taken_lt
  · intro p hp
    rw [hout, hmem] at hp
    rw [hslots]
    rcases hp with hp | rfl
    · obtain ⟨hwake', u, hu⟩ := h.waiting p hp
      have hut : u ≠ t := fun hut => by rw [hut, hi] at hu; cases hu
      refine ⟨hwake', u, ?_⟩
      rw [hpc, if_neg hut]
      exact hu
    · refine ⟨hwake, t, ?_⟩
      rw [hpc, if_pos rfl]
      rfl
  · intro u
    rw [hpc]
    split
    · rename_i hut
      rw [hut]
      exact ⟨hslots ▸ htask, .inl (by rw [hout, hmem]; exact .inr rfl)⟩
    · refine (h.locals u).frame (fun j _ => by rw [hslots]; exact ⟨rfl, rfl, rfl⟩) (fun p _ hp => ?_) hreaped
      rw [hout, hmem]
      exact .inl hp
  · have hreap := h.reaper
    rw [hs]
    show s.reaper.Ok _
    cases hr : s.reaper <;> rw [hr] at hreap <;> exact hreap
  · intro r' hr' k hk
    obtain ⟨res, hres, ho⟩ := h.returned r' (by rw [hs] at hr'; exact hr') k hk
    exact ⟨res, hreaped k res hres, ho⟩

/-- The kernel takes the oldest entry. -/
theorem Flow.consume (h : Flow s) : Flow (consume s) := by
  unfold Io.consume
  split
  · rename_i hlt
    set ud := (s.sqes (s.sqHead % s.nslots)).userData with hud
    set w : State := { s with inflight := s.inflight ++ [(s.sqHead, ud)], sqHead := s.sqHead + 1 } with hs
    have hpending : pending s = (s.sqHead, ud) :: pending w := by
      have hlen : s.sqTail - s.sqHead = (s.sqTail - (s.sqHead + 1)) + 1 := by omega
      simp only [pending, hlen, List.range'_succ, List.map_cons]
      rfl
    have hmem p : p ∈ out w ↔ p ∈ out s := by
      have hin : w.inflight = s.inflight ++ [(s.sqHead, ud)] := rfl
      have hposted : posted w = posted s := rfl
      simp only [out, hpending, hin, hposted, List.mem_append, List.mem_cons, List.not_mem_nil, or_false]
      grind -linarith
    have hperm : (w.inflight.map Prod.fst ++ w.cqes.map Cqe.sqe).Perm
        (s.sqHead :: (s.inflight.map Prod.fst ++ s.cqes.map Cqe.sqe)) := by
      show ((s.inflight ++ [(s.sqHead, ud)]).map Prod.fst ++ s.cqes.map Cqe.sqe).Perm _
      rw [List.map_append, List.append_assoc]
      exact List.perm_middle
    constructor
    · exact hlt
    · refine hperm.nodup_iff.mpr (List.nodup_cons.mpr ⟨fun hk => ?_, h.taken⟩)
      exact Nat.lt_irrefl _ (h.taken_lt _ hk)
    · intro k hk
      show k < s.sqHead + 1
      rcases List.mem_cons.mp (hperm.mem_iff.mp hk) with rfl | hk
      · omega
      · exact Nat.lt_succ_of_lt (h.taken_lt k hk)
    · exact fun p hp => h.waiting p ((hmem p).mp hp)
    · exact fun u => (h.locals u).frame (fun _ _ => ⟨rfl, rfl, rfl⟩) (fun p _ hp => (hmem p).mpr hp) fun _ _ h => h
    · have hreap := h.reaper
      show s.reaper.Ok w
      cases hr : s.reaper <;> rw [hr] at hreap <;> exact hreap
    · exact h.returned
  · exact h

/-- The call returns. -/
theorem Flow.ret (h : Flow s) {k : Nat} {res : Int} (ht : s.pc t = .freeUnlock k res) :
    Flow (ret (unlock s) t (some k) (outcome res)) := by
  have hmove : Flow (setPc (unlock s) t .idle) :=
    h.move rfl rfl rfl (fun p _ hp => by rw [ht] at hp; cases hp) trivial
  have hdone : Reaped s k res := by
    have := h.locals t
    rw [ht] at this
    exact this
  refine { order := hmove.order, taken := hmove.taken, taken_lt := hmove.taken_lt, waiting := hmove.waiting,
           locals := hmove.locals, reaper := ?_, returned := ?_ }
  · have hreap := hmove.reaper
    show s.reaper.Ok _
    have hr' : (setPc (unlock s) t .idle).reaper = s.reaper := rfl
    rw [hr'] at hreap
    cases hr : s.reaper <;> rw [hr] at hreap <;> exact hreap
  · refine List.forall_mem_cons.mpr ⟨fun j hj => ⟨res, ?_, rfl⟩, hmove.returned⟩
    exact Option.some.inj hj ▸ hdone

/-- A step of a task that leaves its slot, its entry and the mutex alone. -/
theorem Inv.stay (h : Inv s) (hf : w.flow = s.flow) (hp : w.pc = s.pc) (hr : w.returns = s.returns)
    (hm : w.mtx = s.mtx) (hfree : w.freeHead = s.freeHead) (hx : ∀ i, (w.slots i).next = (s.slots i).next)
    (htok : c.tok = (s.pc t).tok) (hholds : c.holds = (s.pc t).holds) (hentry : c.entry = (s.pc t).entry)
    (hsent : ∀ p ∈ out s, (s.pc t).sent = some p → c.sent = some p) (hc : Local s t c) : Inv (setPc w t c) := by
  have hv := hf
  simp only [State.flow, Prod.mk.injEq] at hv
  exact {
    pool := h.pool.move hv.1 hfree hx hp htok
    mutex := h.mutex.move hm hp hholds
    entries := h.entries.move hr hv.2.2.2.1 hp hentry
    flow := h.flow.move hf hp hr hsent hc }

/-- The call takes the mutex. -/
theorem Inv.lock (h : Inv s) (hs : Io.lock s t c = some w) (htok : c.tok = (s.pc t).tok) (hholds : c.holds = true)
    (hentry : c.entry = (s.pc t).entry) (hsent : (s.pc t).sent = none) (hc : Local s t c) : Inv w := by
  unfold Io.lock at hs
  split at hs
  · cases hs
  · rename_i hm
    obtain rfl := Option.some.inj hs
    exact {
      pool := h.pool.move rfl rfl (fun _ => rfl) rfl htok
      mutex := h.mutex.acquire hm hholds
      entries := h.entries.move rfl rfl rfl hentry
      flow := h.flow.move rfl rfl rfl (fun p _ hp => by rw [hsent] at hp; cases hp) hc }

/-- The call releases the mutex. -/
theorem Inv.unlock (h : Inv s) (hheld : (s.pc t).holds = true) (hholds : c.holds = false) (htok : c.tok = (s.pc t).tok)
    (hentry : c.entry = (s.pc t).entry) (hsent : ∀ p ∈ out s, (s.pc t).sent = some p → c.sent = some p)
    (hc : Local s t c) : Inv (setPc (Io.unlock s) t c) where
  pool := h.pool.move rfl rfl (fun _ => rfl) rfl htok
  mutex := h.mutex.release hheld hholds rfl rfl
  entries := h.entries.move rfl rfl rfl hentry
  flow := h.flow.move rfl rfl rfl hsent hc

/-- The call writes to its slot before it places its entry. -/
theorem Inv.write (h : Inv s) {i : Nat} {x : Slot} (hx : x.next = (s.slots i).next) (hi : (s.pc t).tok = some i)
    (hsent : (s.pc t).sent = none) (htok : c.tok = some i) (hholds : c.holds = (s.pc t).holds)
    (hentry : c.entry = (s.pc t).entry) (hc : Local (setSlot s i x) t c) : Inv (setPc (setSlot s i x) t c) where
  pool := by
    refine h.pool.move rfl rfl (fun j => ?_) rfl (htok.trans hi.symm)
    by_cases hj : j = i
    · rw [hj, setSlot_self, hx]
    · rw [setSlot_of_ne hj]
  mutex := h.mutex.move rfl rfl hholds
  entries := h.entries.move rfl rfl rfl hentry
  flow := h.flow.write h.pool hi hsent hc

theorem Inv.next (h : Inv s) {ok : Bool} (hs : Io.next s t ok = some w) : Inv w := by
  have hlocal := h.flow.locals t
  cases hpc : s.pc t with
  | idle => simp [Io.next, hpc] at hs
  | allocLock =>
    simp only [Io.next, hpc] at hs
    exact h.lock hs (by rw [hpc]; rfl) rfl (by rw [hpc]; rfl) (by rw [hpc]; rfl) trivial
  | allocPop =>
    simp only [Io.next, hpc] at hs
    split at hs
    · exact Option.some.inj hs ▸ h.stay rfl rfl rfl rfl rfl (fun _ => rfl) (by rw [hpc]; rfl) (by rw [hpc]; rfl)
        (by rw [hpc]; rfl) (fun p _ hp => by rw [hpc] at hp; cases hp) trivial
    · rename_i i hi
      exact Option.some.inj hs ▸ {
        pool := h.pool.pop hi (by rw [hpc]; rfl)
        mutex := h.mutex.move rfl rfl (by rw [hpc]; rfl)
        entries := h.entries.move rfl rfl rfl (by rw [hpc]; rfl)
        flow := h.flow.move rfl rfl rfl (fun p _ hp => by rw [hpc] at hp; cases hp) trivial }
  | allocUnlock tok =>
    cases tok <;> simp only [Io.next, hpc] at hs <;>
      exact Option.some.inj hs ▸ h.unlock (by rw [hpc]; rfl) rfl (by rw [hpc]; rfl) (by rw [hpc]; rfl)
        (fun p _ hp => by rw [hpc] at hp; cases hp) trivial
  | setTask tok =>
    simp only [Io.next, hpc] at hs
    refine Option.some.inj hs ▸ h.write rfl (by rw [hpc]; rfl) (by rw [hpc]; rfl) rfl (by rw [hpc]; rfl)
      (by rw [hpc]; rfl) ?_
    show ((setSlot s tok _).slots tok).task = some t
    rw [setSlot_self]
  | clearWake tok =>
    rw [hpc] at hlocal
    simp only [Io.next, hpc] at hs
    refine Option.some.inj hs ▸ h.write rfl (by rw [hpc]; rfl) (by rw [hpc]; rfl) rfl (by rw [hpc]; rfl)
      (by rw [hpc]; rfl) ?_
    show ((setSlot s tok _).slots tok).task = some t ∧ ((setSlot s tok _).slots tok).wakeDone = false
    rw [setSlot_self]
    exact ⟨hlocal, rfl⟩
  | submitLock tok =>
    rw [hpc] at hlocal
    simp only [Io.next, hpc] at hs
    exact h.lock hs (by rw [hpc]; rfl) rfl (by rw [hpc]; rfl) (by rw [hpc]; rfl) hlocal
  | place tok =>
    simp only [Io.next, hpc] at hs
    exact Option.some.inj hs ▸ {
      pool := h.pool.move rfl rfl (fun _ => rfl) rfl (by rw [hpc]; rfl)
      mutex := h.mutex.move rfl rfl (by rw [hpc]; rfl)
      entries := h.entries.place rfl rfl rfl rfl
      flow := h.flow.place h.pool hpc rfl }
  | enter tok k =>
    simp only [Io.next, hpc] at hs
    split at hs
    · have hflow := h.flow.consume
      have hview : (consume s).nslots = s.nslots ∧ (consume s).freeHead = s.freeHead ∧ (consume s).slots = s.slots ∧
          (consume s).pc = s.pc ∧ (consume s).mtx = s.mtx ∧ (consume s).returns = s.returns ∧
          (consume s).sqTail = s.sqTail := by
        unfold consume
        split <;> exact ⟨rfl, rfl, rfl, rfl, rfl, rfl, rfl⟩
      obtain ⟨hn, hfree, hslots, hp, hm, hret, htail⟩ := hview
      have hlocal := hflow.locals t
      rw [hp, hpc] at hlocal
      refine Option.some.inj hs ▸ {
        pool := h.pool.move hn hfree (fun _ => by rw [hslots]) hp (by rw [hpc]; rfl)
        mutex := h.mutex.move hm hp (by rw [hpc]; rfl)
        entries := h.entries.move hret htail hp (by rw [hpc]; rfl)
        flow := hflow.move rfl rfl rfl (fun p _ hp' => ?_) hlocal }
      rw [hp, hpc] at hp'
      exact hp'
    · rw [hpc] at hlocal
      exact Option.some.inj hs ▸ h.stay (w := { s with failed := s.failed + 1 }) rfl rfl rfl rfl rfl (fun _ => rfl)
        (by rw [hpc]; rfl) (by rw [hpc]; rfl) (by rw [hpc]; rfl) (fun p _ hp => by rw [hpc] at hp; exact hp) hlocal
  | submitUnlock tok k =>
    rw [hpc] at hlocal
    simp only [Io.next, hpc] at hs
    exact Option.some.inj hs ▸ h.unlock (by rw [hpc]; rfl) rfl (by rw [hpc]; rfl) (by rw [hpc]; rfl)
      (fun p _ hp => by rw [hpc] at hp; exact hp) hlocal
  | park tok k =>
    rw [hpc] at hlocal
    simp only [Io.next, hpc] at hs
    split at hs
    · exact Option.some.inj hs ▸ h.stay (w := { s with token := Function.update s.token t false }) rfl rfl rfl rfl rfl
        (fun _ => rfl) (by rw [hpc]; rfl) (by rw [hpc]; rfl) (by rw [hpc]; rfl)
        (fun p _ hp => by rw [hpc] at hp; exact hp) hlocal
    · cases hs
  | wait tok k =>
    rw [hpc] at hlocal
    simp only [Io.next, hpc] at hs
    split at hs
    · rename_i hwake
      have hdone : (k, tok) ∉ out s := fun hp => by
        have := (h.flow.waiting _ hp).1
        rw [hwake] at this
        cases this
      refine Option.some.inj hs ▸ h.stay rfl rfl rfl rfl rfl (fun _ => rfl) (by rw [hpc]; rfl) (by rw [hpc]; rfl)
        (by rw [hpc]; rfl) (fun p hp hp' => ?_) (hlocal.2.resolve_left hdone).2
      rw [hpc] at hp'
      exact absurd (Option.some.inj hp' ▸ hp) hdone
    · exact Option.some.inj hs ▸ h
  | readRes tok k =>
    rw [hpc] at hlocal
    simp only [Io.next, hpc] at hs
    exact Option.some.inj hs ▸ h.stay rfl rfl rfl rfl rfl (fun _ => rfl) (by rw [hpc]; rfl) (by rw [hpc]; rfl)
      (by rw [hpc]; rfl) (fun p _ hp => by rw [hpc] at hp; cases hp) hlocal
  | freeLock tok k res =>
    rw [hpc] at hlocal
    simp only [Io.next, hpc] at hs
    exact h.lock hs (by rw [hpc]; rfl) rfl (by rw [hpc]; rfl) (by rw [hpc]; rfl) hlocal
  | freePush tok k res =>
    rw [hpc] at hlocal
    simp only [Io.next, hpc] at hs
    refine Option.some.inj hs ▸ {
      pool := h.pool.push (by rw [hpc]; rfl) rfl
      mutex := h.mutex.move rfl rfl (by rw [hpc]; rfl)
      entries := h.entries.move rfl rfl rfl (by rw [hpc]; rfl)
      flow := h.flow.move ?_ rfl rfl (fun p _ hp => by rw [hpc] at hp; cases hp) hlocal }
    have hslot j : (((setSlot s tok { s.slots tok with next := s.freeHead }).slots j).res,
        ((setSlot s tok { s.slots tok with next := s.freeHead }).slots j).wakeDone,
        ((setSlot s tok { s.slots tok with next := s.freeHead }).slots j).task) =
        ((s.slots j).res, (s.slots j).wakeDone, (s.slots j).task) := by
      by_cases hj : j = tok
      · rw [hj, setSlot_self]
      · rw [setSlot_of_ne hj]
    simp only [State.flow, Prod.mk.injEq]
    exact ⟨rfl, rfl, rfl, rfl, rfl, rfl, rfl, rfl, funext hslot⟩
  | freeUnlock k res =>
    simp only [Io.next, hpc] at hs
    have hpool : Pool (setPc (Io.unlock s) t .idle) := h.pool.move rfl rfl (fun _ => rfl) rfl (by rw [hpc]; rfl)
    have hentries : Entries (Io.unlock s) :=
      ⟨h.entries.own, h.entries.lt, h.entries.fresh, h.entries.returned, h.entries.returned_lt⟩
    exact Option.some.inj hs ▸ {
      pool := ⟨hpool.free, hpool.own, hpool.bound⟩
      mutex := h.mutex.release (w := Io.unlock s) (by rw [hpc]; rfl) rfl rfl rfl
      entries := hentries.ret (show (s.pc t).entry = some k by rw [hpc]; rfl) _
      flow := h.flow.ret hpc }

end Tasks

/-! ## Steps of the reaper and of the kernel -/

section Reaper

variable {s w : State} {t head tail : Nat} {c : Pc} {cqe : Cqe}

theorem local_of_sent {p : Nat × Nat} (hp : c.sent = some p) :
    Local s t c ↔ (s.slots p.2).task = some t ∧
      (p ∈ out s ∨ (s.slots p.2).wakeDone = true ∧ Reaped s p.1 (s.slots p.2).res) := by
  cases c with
  | enter tok k | submitUnlock tok k | park tok k | wait tok k =>
    obtain rfl := Option.some.inj hp
    exact Iff.rfl
  | _ => cases hp

/-- The call whose entry the reaper is at. -/
theorem Flow.served (h : Flow s) (hpool : Pool s) (hc : s.cqes[s.done]? = some cqe) :
    ∃ u, (s.pc u).sent = some (cqe.sqe, cqe.userData) ∧ (s.slots cqe.userData).task = some u ∧
      ∀ v i, v ≠ u → (s.pc v).tok = some i → i ≠ cqe.userData := by
  have hmem := mem_out_of_getElem hc
  obtain ⟨-, u, hu⟩ := h.waiting _ hmem
  refine ⟨u, hu, ((local_of_sent hu).mp (h.locals u)).1, fun v i hv hi hud => hv ?_⟩
  exact hpool.own v u cqe.userData (hud ▸ hi) (Pc.tok_of_sent hu)

/-- The reaper goes on, done with no more completions than before. -/
theorem Flow.reaps (h : Flow s) (hs : w = { s with cqHead := w.cqHead, token := w.token, reaper := w.reaper })
    (hd : w.done = s.done) (hok : w.reaper.Ok w) : Flow w := by
  have hslots : w.slots = s.slots := by rw [hs]
  have hpc : w.pc = s.pc := by rw [hs]
  have hcqes : w.cqes = s.cqes := by rw [hs]
  have hout : out w = out s := by
    have hpending : pending w = pending s := by rw [hs]; rfl
    have hin : w.inflight = s.inflight := by rw [hs]
    simp only [out, hpending, hin, posted, hd, hcqes]
  have hreaped k res : Reaped w k res ↔ Reaped s k res := by simp only [Reaped, hd, hcqes]
  constructor
  · rw [hs]
    exact h.order
  · rw [hs]
    exact h.taken
  · rw [hs]
    exact h.taken_lt
  · rw [hout, hslots, hpc]
    exact h.waiting
  · intro u
    rw [hpc]
    refine (h.locals u).frame (fun _ _ => by rw [hslots]; exact ⟨rfl, rfl, rfl⟩) (fun p _ hp => hout ▸ hp) ?_
    exact fun k res hk => (hreaped k res).mpr hk
  · exact hok
  · intro r hr k hk
    obtain ⟨res, hres, ho⟩ := h.returned r (by rw [hs] at hr; exact hr) k hk
    exact ⟨res, (hreaped k res).mpr hres, ho⟩

/-- The reaper stores the result. -/
theorem Flow.storeRes (h : Flow s) (hpool : Pool s) (hr : s.reaper = .storeRes head tail cqe)
    (hs : w = { setSlot s cqe.userData { s.slots cqe.userData with res := cqe.res } with
      reaper := .unpark head tail cqe }) : Flow w := by
  have hok := h.reaper
  rw [hr] at hok
  have hdone : s.done = head := by rw [State.done, hr]; rfl
  obtain ⟨u, hu, htask, hother⟩ := h.served hpool (hdone ▸ hok.1)
  have hdone' : w.done = s.done := by rw [hdone, hs]; rfl
  have hcqes : w.cqes = s.cqes := by rw [hs]; rfl
  have hpc : w.pc = s.pc := by rw [hs]; rfl
  have hout : out w = out s := by
    have hpending : pending w = pending s := by rw [hs]; rfl
    have hin : w.inflight = s.inflight := by rw [hs]; rfl
    simp only [out, hpending, hin, posted, hdone', hcqes]
  have hreaped k res (hk : Reaped s k res) : Reaped w k res := by
    simp only [Reaped, hdone', hcqes]
    exact hk
  have hself : w.slots cqe.userData = { s.slots cqe.userData with res := cqe.res } := by
    rw [hs]
    exact setSlot_self ..
  have hne {i : Nat} (hi : i ≠ cqe.userData) : w.slots i = s.slots i := by
    rw [hs]
    exact setSlot_of_ne hi _
  have hwake i : (w.slots i).wakeDone = (s.slots i).wakeDone ∧ (w.slots i).task = (s.slots i).task := by
    by_cases hi : i = cqe.userData
    · rw [hi, hself]
      exact ⟨rfl, rfl⟩
    · rw [hne hi]
      exact ⟨rfl, rfl⟩
  constructor
  · rw [hs]
    exact h.order
  · rw [hs]
    exact h.taken
  · rw [hs]
    exact h.taken_lt
  · intro p hp
    rw [hpc, (hwake _).1]
    exact h.waiting p (hout ▸ hp)
  · intro v
    rw [hpc]
    by_cases hv : v = u
    · rw [hv, local_of_sent hu]
      exact ⟨(hwake _).2.trans htask, .inl (hout ▸ mem_out_of_getElem (hdone ▸ hok.1))⟩
    · refine (h.locals v).frame (fun i hi => ?_) (fun p _ hp => hout ▸ hp) hreaped
      rw [hne (hother v i hv hi)]
      exact ⟨rfl, rfl, rfl⟩
  · rw [show w.reaper = .unpark head tail cqe by rw [hs]]
    refine ⟨hcqes ▸ hok.1, hok.2.1, hcqes ▸ hok.2.2, ?_⟩
    rw [hself]
  · intro r hr' k hk
    obtain ⟨res, hres, ho⟩ := h.returned r (by rw [hs] at hr'; exact hr') k hk
    exact ⟨res, hreaped k res hres, ho⟩

/-- The entry of a completion is outstanding only while the reaper is not done with it. -/
theorem Flow.once (h : Flow s) (hc : s.cqes[head]? = some cqe) {p : Nat × Nat}
    (hp : p ∈ pending s ++ s.inflight ++ (s.cqes.drop (head + 1)).map fun c => (c.sqe, c.userData)) :
    p.1 ≠ cqe.sqe := by
  have hmem : cqe ∈ s.cqes := List.mem_of_getElem? hc
  have htaken := h.taken
  rw [List.nodup_append] at htaken
  intro he
  rcases List.mem_append.mp hp with hp | hp
  · rcases List.mem_append.mp hp with hp | hp
    · have hlt := h.taken_lt cqe.sqe (List.mem_append_right _ (List.mem_map_of_mem hmem))
      have := fst_lt_of_mem_pending hp
      omega
    · exact htaken.2.2 p.1 (List.mem_map_of_mem hp) cqe.sqe (List.mem_map_of_mem hmem) he
  · obtain ⟨c', hc', rfl⟩ := List.mem_map.mp hp
    have hsub : ((s.cqes.drop head).map Cqe.sqe).Nodup := htaken.2.1.sublist ((List.drop_sublist ..).map _)
    obtain ⟨hlt, hget⟩ := List.getElem?_eq_some_iff.mp hc
    rw [List.drop_eq_getElem_cons hlt, hget, List.map_cons, List.nodup_cons] at hsub
    exact hsub.1 (he ▸ List.mem_map_of_mem hc')

/-- The reaper sets `wake_done`, its last access. -/
theorem Flow.wake (h : Flow s) (hpool : Pool s) (hr : s.reaper = .wake head tail cqe)
    (hs : w = { setSlot s cqe.userData { s.slots cqe.userData with wakeDone := true } with
      reaper := .loop (head + 1) tail }) : Flow w := by
  have hok := h.reaper
  rw [hr] at hok
  obtain ⟨hget, hlt, htail, hres⟩ := hok
  have hdone : s.done = head := by rw [State.done, hr]; rfl
  obtain ⟨u, hu, htask, hother⟩ := h.served hpool (hdone ▸ hget)
  have hdone' : w.done = head + 1 := by rw [hs]; rfl
  have hcqes : w.cqes = s.cqes := by rw [hs]; rfl
  have hpc : w.pc = s.pc := by rw [hs]; rfl
  have hout : out w = pending s ++ s.inflight ++ (s.cqes.drop (head + 1)).map fun c => (c.sqe, c.userData) := by
    have hpending : pending w = pending s := by rw [hs]; rfl
    have hin : w.inflight = s.inflight := by rw [hs]; rfl
    simp only [out, hpending, hin, posted, hdone', hcqes]
  have hdrop : s.cqes.drop head = cqe :: s.cqes.drop (head + 1) := by
    obtain ⟨hlt', hget'⟩ := List.getElem?_eq_some_iff.mp hget
    rw [List.drop_eq_getElem_cons hlt', hget']
  have hmem p : p ∈ out s ↔ p = (cqe.sqe, cqe.userData) ∨ p ∈ out w := by
    rw [hout]
    simp only [out, posted, hdone, hdrop, List.mem_append, List.map_cons, List.mem_cons]
    grind -linarith
  have hreaped k res (hk : Reaped s k res) : Reaped w k res := by
    obtain ⟨c, hc, hck⟩ := hk
    rw [hdone] at hc
    refine ⟨c, ?_, hck⟩
    rw [hdone', hcqes, List.take_add_one]
    exact List.mem_append_left _ hc
  have hself : w.slots cqe.userData = { s.slots cqe.userData with wakeDone := true } := by
    rw [hs]
    exact setSlot_self ..
  have hne {i : Nat} (hi : i ≠ cqe.userData) : w.slots i = s.slots i := by
    rw [hs]
    exact setSlot_of_ne hi _
  constructor
  · rw [hs]
    exact h.order
  · rw [hs]
    exact h.taken
  · rw [hs]
    exact h.taken_lt
  · intro p hp
    obtain ⟨hwake, v, hv⟩ := h.waiting p ((hmem p).mpr (.inr hp))
    -- another entry is waited for by another call, whose slot is another one
    have hvu : v ≠ u := fun hvu => by
      have he := Option.some.inj (hv.symm.trans (hvu ▸ hu))
      exact h.once hget (hout ▸ hp) (congrArg Prod.fst he)
    rw [hne (hother v p.2 hvu (Pc.tok_of_sent hv)), hpc]
    exact ⟨hwake, v, hv⟩
  · intro v
    rw [hpc]
    by_cases hv : v = u
    · rw [hv, local_of_sent hu, hself]
      refine ⟨htask, .inr ⟨rfl, cqe, ?_, rfl, hres.symm⟩⟩
      rw [hdone', hcqes]
      exact List.mem_of_getElem? (i := head) (by rw [List.getElem?_take_of_lt (by omega)]; exact hget)
    · refine (h.locals v).frame (fun i hi => ?_) (fun p hp hpo => ?_) hreaped
      · rw [hne (hother v i hv hi)]
        exact ⟨rfl, rfl, rfl⟩
      · refine ((hmem p).mp hpo).resolve_left fun he => ?_
        exact hother v p.2 hv (Pc.tok_of_sent hp) (congrArg Prod.snd he)
  · rw [show w.reaper = .loop (head + 1) tail by rw [hs]]
    exact ⟨hlt, hcqes ▸ htail⟩
  · intro r hr' k hk
    obtain ⟨res, hres, ho⟩ := h.returned r (by rw [hs] at hr'; exact hr') k hk
    exact ⟨res, hreaped k res hres, ho⟩

/-- The kernel completes an entry. -/
theorem Flow.complete (h : Flow s) {j k ud : Nat} {res : Int} (hj : s.inflight[j]? = some (k, ud))
    (hs : w = { s with inflight := s.inflight.eraseIdx j, cqes := s.cqes ++ [⟨k, ud, res⟩] }) : Flow w := by
  have hdone : w.done = s.done := by rw [hs]; rfl
  have hle : s.done ≤ s.cqes.length := by
    have hok := h.reaper
    rw [State.done]
    cases hr : s.reaper <;> rw [hr] at hok <;> simp only [Reaper.Ok] at hok <;> simp only [Reaper.done] <;> omega
  have hperm : s.inflight.Perm ((k, ud) :: s.inflight.eraseIdx j) := by
    obtain ⟨hlt, hget⟩ := List.getElem?_eq_some_iff.mp hj
    exact hget ▸ (List.getElem_cons_eraseIdx_perm hlt).symm
  have hmem p : p ∈ out w ↔ p ∈ out s := by
    have hpending : pending w = pending s := by rw [hs]; rfl
    have hin : w.inflight = s.inflight.eraseIdx j := by rw [hs]
    have hcq : w.cqes = s.cqes ++ [⟨k, ud, res⟩] := by rw [hs]
    have := hperm.mem_iff (a := p)
    simp only [out, hpending, hin, posted, hcq, hdone, List.drop_append_of_le_length hle, List.map_append,
      List.map_cons,
      List.map_nil, List.mem_append, List.mem_cons] at this ⊢
    grind -linarith
  have hreaped k' res' : Reaped w k' res' ↔ Reaped s k' res' := by
    have hcq : w.cqes = s.cqes ++ [⟨k, ud, res⟩] := by rw [hs]
    simp only [Reaped, hdone, hcq, List.take_append_of_le_length hle]
  have hall : (w.inflight.map Prod.fst ++ w.cqes.map Cqe.sqe).Perm
      (s.inflight.map Prod.fst ++ s.cqes.map Cqe.sqe) := by
    rw [hs]
    refine List.Perm.trans ?_ ((hperm.map Prod.fst).append_right _).symm
    simp only [List.map_append, List.map_cons, List.map_nil, ← List.append_assoc]
    exact List.perm_append_comm
  have hpc : w.pc = s.pc := by rw [hs]
  have hslots : w.slots = s.slots := by rw [hs]
  constructor
  · rw [hs]
    exact h.order
  · exact hall.nodup_iff.mpr h.taken
  · intro k' hk'
    rw [show w.sqHead = s.sqHead by rw [hs]]
    exact h.taken_lt k' (hall.mem_iff.mp hk')
  · intro p hp
    rw [hslots, hpc]
    exact h.waiting p ((hmem p).mp hp)
  · intro v
    rw [hpc]
    exact (h.locals v).frame (fun _ _ => by rw [hslots]; exact ⟨rfl, rfl, rfl⟩) (fun p _ hp => (hmem p).mpr hp)
      fun k' res' hk => (hreaped k' res').mpr hk
  · have hok := h.reaper
    have hlen : w.cqes.length = s.cqes.length + 1 := by rw [hs]; exact List.length_append
    have hget {i : Nat} {c : Cqe} (hi : s.cqes[i]? = some c) : w.cqes[i]? = some c := by
      obtain ⟨hlt, -⟩ := List.getElem?_eq_some_iff.mp hi
      rw [hs]
      exact (List.getElem?_append_left hlt).trans hi
    rw [show w.reaper = s.reaper by rw [hs]]
    have hcq : w.cqHead = s.cqHead := by rw [hs]
    cases hr : s.reaper <;> rw [hr] at hok <;> simp only [Reaper.Ok, hlen, hslots, hcq] at hok ⊢
    case storeRes => exact ⟨hget hok.1, hok.2.1, by omega⟩
    case unpark => exact ⟨hget hok.1, hok.2.1, by omega, hok.2.2.2⟩
    case wake => exact ⟨hget hok.1, hok.2.1, by omega, hok.2.2.2⟩
    all_goals omega
  · intro r hr' k' hk
    obtain ⟨res', hres, ho⟩ := h.returned r (by rw [hs] at hr'; exact hr') k' hk
    exact ⟨res', (hreaped k' res').mpr hres, ho⟩

/-- The reaper leaves what the calls have alone. -/
theorem Inv.reaped (h : Inv s) (hflow : Flow w) (hn : w.nslots = s.nslots) (hfree : w.freeHead = s.freeHead)
    (hx : ∀ i, (w.slots i).next = (s.slots i).next) (hp : w.pc = s.pc) (hm : w.mtx = s.mtx)
    (hr : w.returns = s.returns) (ht : w.sqTail = s.sqTail) : Inv w where
  pool := by
    obtain ⟨⟨l, hl, hmem⟩, own, bound⟩ := h.pool
    refine ⟨⟨l, ?_, fun i => ?_⟩, ?_, ?_⟩
    · rw [hfree]
      exact hl.congr fun i _ => hx i
    · rw [hn, hp]
      exact hmem i
    · rw [hp]
      exact own
    · rw [hp, hn]
      exact bound
  mutex := fun u => by
    rw [hp, hm]
    exact h.mutex u
  entries := by
    obtain ⟨own, lt, fresh, returned, returned_lt⟩ := h.entries
    constructor <;> simp only [hp, hr, ht] <;> assumption
  flow := hflow

theorem setSlot_next {i : Nat} {x : Slot} (hx : x.next = (s.slots i).next) (j : Nat) :
    ((setSlot s i x).slots j).next = (s.slots j).next := by
  by_cases hj : j = i
  · rw [hj, setSlot_self, hx]
  · rw [setSlot_of_ne hj]

theorem Inv.reap (h : Inv s) (hs : Io.reap s = some w) : Inv w := by
  have hok := h.flow.reaper
  have hdone : s.done = s.reaper.done s.cqHead := rfl
  cases hr : s.reaper with
  | enter =>
    rw [hr] at hok hdone
    simp only [Io.reap, hr] at hs
    obtain rfl := Option.some.inj hs
    exact h.reaped (h.flow.reaps rfl hdone.symm hok) rfl rfl (fun _ => rfl) rfl rfl rfl rfl
  | load =>
    rw [hr] at hok hdone
    simp only [Io.reap, hr] at hs
    obtain rfl := Option.some.inj hs
    exact h.reaped (h.flow.reaps rfl hdone.symm ⟨hok, Nat.le_refl _⟩) rfl rfl (fun _ => rfl) rfl rfl rfl rfl
  | loop head tail =>
    rw [hr] at hok hdone
    obtain ⟨hle, htail⟩ := hok
    simp only [Io.reap, hr] at hs
    split at hs
    · rename_i heq
      obtain rfl := Option.some.inj hs
      exact h.reaped (h.flow.reaps rfl hdone.symm (heq ▸ htail)) rfl rfl (fun _ => rfl) rfl rfl rfl rfl
    · rename_i hne
      split at hs
      · cases hs
      · rename_i cqe hget
        obtain rfl := Option.some.inj hs
        exact h.reaped (h.flow.reaps rfl hdone.symm ⟨hget, Nat.lt_of_le_of_ne hle hne, htail⟩) rfl rfl (fun _ => rfl)
          rfl rfl rfl rfl
  | storeRes head tail cqe =>
    simp only [Io.reap, hr] at hs
    obtain rfl := Option.some.inj hs
    exact h.reaped (h.flow.storeRes h.pool hr rfl) rfl rfl (setSlot_next rfl) rfl rfl rfl rfl
  | unpark head tail cqe =>
    rw [hr] at hok hdone
    simp only [Io.reap, hr] at hs
    obtain rfl := Option.some.inj hs
    exact h.reaped (h.flow.reaps rfl hdone.symm hok) rfl rfl (fun _ => rfl) rfl rfl rfl rfl
  | wake head tail cqe =>
    simp only [Io.reap, hr] at hs
    obtain rfl := Option.some.inj hs
    exact h.reaped (h.flow.wake h.pool hr rfl) rfl rfl (setSlot_next rfl) rfl rfl rfl rfl
  | publish head =>
    rw [hr] at hok hdone
    simp only [Io.reap, hr] at hs
    obtain rfl := Option.some.inj hs
    exact h.reaped (h.flow.reaps rfl hdone.symm hok) rfl rfl (fun _ => rfl) rfl rfl rfl rfl

theorem Inv.step (h : Inv s) {a : Act} (hs : Io.step s a = some w) : Inv w := by
  cases a with
  | call t r =>
    simp only [Io.step] at hs
    split at hs
    · cases hs
    · rename_i hpc
      have hpc : s.pc t = .idle := not_not.mp hpc
      obtain rfl := Option.some.inj hs
      exact h.stay (w := { s with request := Function.update s.request t r }) rfl rfl rfl rfl rfl (fun _ => rfl)
        (by rw [hpc]; rfl) (by rw [hpc]; rfl) (by rw [hpc]; rfl) (fun p _ hp => by rw [hpc] at hp; cases hp) trivial
  | callOutside t r =>
    obtain rfl := Option.some.inj hs
    obtain ⟨own, lt, fresh, returned, returned_lt⟩ := h.entries
    have hflow := h.flow
    exact {
      pool := ⟨h.pool.free, h.pool.own, h.pool.bound⟩
      mutex := h.mutex
      entries := ⟨own, lt, fresh, returned, returned_lt⟩
      flow := {
        order := hflow.order, taken := hflow.taken, taken_lt := hflow.taken_lt, waiting := hflow.waiting
        locals := fun u => (hflow.locals u).congr rfl
        reaper := Reaper.Ok.congr rfl hflow.reaper
        returned := List.forall_mem_cons.mpr ⟨fun k hk => (by cases hk), hflow.returned⟩ } }
  | next t ok => exact h.next hs
  | reap => exact h.reap hs
  | complete j res =>
    simp only [Io.step] at hs
    split at hs
    · cases hs
    · rename_i k ud hj
      obtain rfl := Option.some.inj hs
      exact h.reaped (h.flow.complete hj rfl) rfl rfl (fun _ => rfl) rfl rfl rfl rfl
  | unpark t =>
    obtain rfl := Option.some.inj hs
    exact h.reaped (h.flow.reaps rfl rfl (Reaper.Ok.congr rfl h.flow.reaper)) rfl rfl (fun _ => rfl) rfl rfl rfl rfl

end Reaper

/-- The free list `dlsm_io_new` makes. -/
theorem isChain_new (n : Nat) : ∀ m i, 0 < m → i + m = n →
    IsChain (fun i => ((State.new n).slots i).next) (some i) (List.range' i m)
  | 1, i, _, hi => by
    refine ⟨rfl, ?_⟩
    show (if i + 1 < n then some (i + 1) else none) = none
    rw [if_neg (by omega)]
  | m + 2, i, _, hi => by
    refine ⟨rfl, ?_⟩
    show IsChain _ (if i + 1 < n then some (i + 1) else none) (List.range' (i + 1) (m + 1))
    rw [if_pos (by omega)]
    exact isChain_new n (m + 1) (i + 1) (by omega) (by omega)

theorem inv_new {n : Nat} (hn : 0 < n) : Inv (State.new n) where
  pool := {
    free := ⟨List.range' 0 n, isChain_new n n 0 hn (by omega), fun i => by simp [State.new, Pc.tok]⟩
    own := fun _ _ _ h => by cases h
    bound := fun _ _ h => by cases h }
  mutex := fun t => by simp [State.new, Pc.holds]
  entries := {
    own := fun _ _ _ h => by cases h
    lt := fun _ _ h => by cases h
    fresh := fun _ _ h => by cases h
    returned := List.nodup_nil
    returned_lt := fun _ h => by cases h }
  flow := {
    order := Nat.le_refl _
    taken := List.nodup_nil
    taken_lt := fun _ h => by cases h
    waiting := fun _ h => by simp [out, pending, posted, State.new] at h
    locals := fun _ => trivial
    reaper := Nat.le_refl _
    returned := fun _ h => by cases h }

theorem inv_of_reach {s : State} (h : machine.Reach s) : Inv s :=
  h.invariant (I := Inv) (fun s hs => by
    obtain ⟨n, hn, rfl⟩ := hs
    exact inv_new hn) fun _ _ _ _ hi hs => hi.step hs

/-! ## The completions of the calls -/

/-- What the callers of `do_op` rely on. -/
structure Completes (s : State) : Prop where
  /-- A slot is on the free list, once, and owned by no call, or owned by one call. -/
  slots : ∃ l, IsChain (fun i => (s.slots i).next) s.freeHead l ∧ l.Nodup ∧ (∀ i ∈ l, i < s.nslots) ∧
    ∀ i < s.nslots, (i ∈ l ∧ ∀ t, (s.pc t).tok ≠ some i) ∨ i ∉ l ∧ ∃! t, (s.pc t).tok = some i
  /-- A call returned the result of the one completion of its entry, reaped by then. -/
  returned : ∀ r ∈ s.returns, ∀ k, r.sqe = some k → ∃ c ∈ s.cqes.take s.done, c.sqe = k ∧
    r.outcome = outcome c.res ∧ ∀ c' ∈ s.cqes, c'.sqe = k → c' = c
  /-- No entry answers two calls. -/
  once : (s.returns.filterMap Return.sqe).Nodup
  /-- While the reaper uses a slot, the call whose entry it is at owns the slot and waits. -/
  used : ∀ head tail cqe, s.reaper = .storeRes head tail cqe ∨ s.reaper = .unpark head tail cqe ∨
      s.reaper = .wake head tail cqe → ∃ t, (s.pc t).tok = some cqe.userData ∧
    (s.pc t).sent = some (cqe.sqe, cqe.userData)
  /-- The task the reaper unparks is in that call. -/
  unparked : ∀ head tail cqe, s.reaper = .unpark head tail cqe → ∃ t, (s.slots cqe.userData).task = some t ∧
    (s.pc t).sent = some (cqe.sqe, cqe.userData)

theorem cqe_unique {s : State} (h : Flow s) {c c' : Cqe} (hc : c ∈ s.cqes) (hc' : c' ∈ s.cqes)
    (he : c'.sqe = c.sqe) : c' = c := by
  have htaken := h.taken
  rw [List.nodup_append] at htaken
  exact List.inj_on_of_nodup_map htaken.2.1 hc' hc he

/-- Every call gets the result of its own completion, in every run. -/
theorem completes_of_reach {s : State} (hs : machine.Reach s) : Completes s := by
  obtain ⟨hpool, -, hentries, hflow⟩ := inv_of_reach hs
  have hserved {head tail : Nat} {cqe : Cqe} (hr : s.reaper = .storeRes head tail cqe ∨
      s.reaper = .unpark head tail cqe ∨ s.reaper = .wake head tail cqe) :
      ∃ u, (s.pc u).sent = some (cqe.sqe, cqe.userData) ∧ (s.slots cqe.userData).task = some u := by
    have hok := hflow.reaper
    have hget : s.cqes[s.done]? = some cqe := by
      rcases hr with hr | hr | hr <;> rw [hr] at hok <;> rw [State.done, hr] <;> exact hok.1
    obtain ⟨u, hu, htask, -⟩ := hflow.served hpool hget
    exact ⟨u, hu, htask⟩
  constructor
  · obtain ⟨l, hl, hmem⟩ := hpool.free
    refine ⟨l, hl, hl.nodup, fun i hi => ((hmem i).mp hi).1, fun i hi => ?_⟩
    by_cases hil : i ∈ l
    · exact .inl ⟨hil, ((hmem i).mp hil).2⟩
    · refine .inr ⟨hil, ?_⟩
      obtain ⟨t, ht⟩ : ∃ t, (s.pc t).tok = some i := by
        by_contra hno
        exact hil ((hmem i).mpr ⟨hi, fun t ht => hno ⟨t, ht⟩⟩)
      exact ⟨t, ht, fun u hu => hpool.own u t i hu ht⟩
  · intro r hr k hk
    obtain ⟨res, ⟨c, hc, hck, hcr⟩, ho⟩ := hflow.returned r hr k hk
    refine ⟨c, hc, hck, by rw [ho, hcr], fun c' hc' he => ?_⟩
    exact cqe_unique hflow (List.mem_of_mem_take hc) hc' (he.trans hck.symm)
  · exact hentries.returned
  · intro head tail cqe hr
    obtain ⟨u, hu, -⟩ := hserved hr
    exact ⟨u, Pc.tok_of_sent hu, hu⟩
  · intro head tail cqe hr
    obtain ⟨u, hu, htask⟩ := hserved (.inr (.inl hr))
    exact ⟨u, htask, hu⟩

/-- Two calls whose entries complete in the other order, one of them woken too early. -/
theorem completes_of_reach_two : ∃ s, machine.Reach s ∧ Completes s ∧
    s.returns = [⟨1, some 1, ⟨7, none⟩⟩, ⟨0, some 0, ⟨-1, some 5⟩⟩] := by
  let r : Request := ⟨22, 3, 4096, 512, 0, 0⟩
  obtain ⟨s, hs, h⟩ := Machine.exists_reach_of_run (M := machine) (s := State.new 2)
    (l := ([.call 0 r, .call 1 r] : List Act) ++ (List.replicate 9 (.next 0 true) : List Act) ++
      (List.replicate 9 (.next 1 true) : List Act) ++
      ([.unpark 0, .next 0 true, .next 0 true, .complete 1 7, .complete 0 (-5)] : List Act) ++
      (List.replicate 12 .reap : List Act) ++ (List.replicate 5 (.next 0 true) : List Act) ++
      (List.replicate 6 (.next 1 true) : List Act))
    (p := fun s => decide (s.returns = [⟨1, some 1, ⟨7, none⟩⟩, ⟨0, some 0, ⟨-1, some 5⟩⟩]))
    ⟨2, by decide, rfl⟩ (by decide +kernel)
  exact ⟨s, hs, completes_of_reach hs, of_decide_eq_true h⟩

end Dlsmc.Io
