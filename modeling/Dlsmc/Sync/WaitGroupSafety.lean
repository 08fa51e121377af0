import Mathlib.Data.Finset.Card
import Mathlib.Order.Interval.Finset.Nat
import Dlsmc.Sync.WaitGroup
import Dlsmc.Sync.GtWaitBroadcast

/-!
# The wait group: exact counts and separate generations

The invariant (`Inv`) names the waiters not granted yet, which are the queue
or what the call that holds `qlock` still has to grant, and all tasks inside
`wait`. A granted waiter needs `qlock` to leave, so the link that
`grant_all_locked` reads after a grant is still the one it was queued with.
-/

namespace Dlsmc.WaitGroup

/-- The nodes a call still has to grant start here. -/
def Granting.rest (next : Nat → Option Nat) : Granting → Option (Option Nat)
  | .idle => none
  | .grant p | .grantLocked p => some p
  | .advance n => some (next n)

/-- `qlock` is free. -/
structure Free (s : State) (l : List Nat) : Prop where
  repr : s.queue.Repr l
  zero : s.count = 0 → l = []
  idle : ∀ g, s.granting g = .idle

/-- A call that grants holds `qlock`, and no other has begun to. -/
structure Held (s : State) (l : List Nat) : Prop where
  count : s.count = 0
  head : s.queue.head = none
  tail : s.queue.tail = none
  loop : ∃ g p, (s.granting g).rest s.queue.next = some p ∧ IsChain s.queue.next p l ∧
    ∀ g', g' ≠ g → s.granting g' = .idle

/-- The invariant: `l` are the waiters not granted yet, `w` all tasks in `wait`. -/
structure Inv (c : Nat) (s : State) (l w : List Nat) : Prop where
  count : (s.count : Int) = c + s.accepted.sum
  bound : s.count ≤ UINT64_MAX
  free : s.qlock = false → Free s l
  held : s.qlock = true → Held s l
  mem : ∀ t, t ∈ l ↔ s.pc t ≠ .idle ∧ s.granted t = false
  leave : ∀ t, s.pc t = .leave → s.granted t = true
  nodup : w.Nodup
  inside : ∀ t, t ∈ w ↔ s.pc t ≠ .idle
  handle : ∀ t, s.pc t ≠ .idle → 0 < t ∧ t < 2 ^ 64
  waiters : s.waiters = w.length
  saw : ∀ t, s.pc t ≠ .idle → s.granted t = true ∨ s.qlock = true → s.sawZero t = true

variable {c t g : Nat} {s s' : State} {l w : List Nat} {r : Option Status}

/-- There are fewer than `2 ^ 64` handles. -/
theorem length_lt_of_handles (hn : w.Nodup) (h : ∀ t ∈ w, 0 < t ∧ t < 2 ^ 64) : w.length < 2 ^ 64 := by
  have hs : w.toFinset ⊆ Finset.Ioo 0 (2 ^ 64) := fun t ht => by
    rw [Finset.mem_Ioo]
    exact h t (List.mem_toFinset.mp ht)
  have := Finset.card_le_card hs
  rw [List.toFinset_card_of_nodup hn, Nat.card_Ioo] at this
  omega

theorem toInt_of_pos {d : BitVec 64} (h : 0 < d.toInt) : (d.toNat : Int) = d.toInt := by
  rw [BitVec.toInt_eq_toNat_cond] at h ⊢
  have := d.isLt
  split at h <;> omega

/-- The negation at the edge of the range. -/
theorem decrement_eq {d : BitVec 64} (h : d.toInt < 0) :
    ((((-(d + 1)).toNat + 1) % 2 ^ 64 : Nat) : Int) = -d.toInt := by
  rw [BitVec.toInt_eq_toNat_cond] at h ⊢
  have hone : (1 : BitVec 64).toNat = 1 := rfl
  simp only [BitVec.toNat_neg, BitVec.toNat_add, hone]
  have := d.isLt
  split at h <;> split <;> omega

attribute [local grind =] Function.update_apply

/-- An accepted delta that leaves the count above 0, or adds nothing to it. -/
theorem Inv.adjust (h : Inv c s l w) (hq : s.qlock = false) {n : Nat} {d : Int} (hn : (n : Int) = s.count + d)
    (hb : n ≤ UINT64_MAX) (hz : n = 0 → s.count = 0) :
    Inv c { s with count := n, accepted := s.accepted ++ [d] } l w := by
  have hf := h.free hq
  exact { h with
    count := by
      simp only [List.sum_append, List.sum_singleton, hn, h.count]
      omega
    bound := hb
    free := fun _ => { hf with zero := fun hn => hf.zero (hz hn) }
    held := fun hq' => by simp [hq] at hq' }

/-- The count reaches 0 and the queue is detached. -/
theorem Inv.detach (h : Inv c s l w) (hq : s.qlock = false) {d : Int} (hd : (s.count : Int) + d = 0) {G : Granting}
    (hG : G = .grant s.queue.head ∨ G = .grantLocked s.queue.head) :
    Inv c { s with
      count := 0
      accepted := s.accepted ++ [d]
      sawZero := fun _ => true
      qlock := true
      queue := { s.queue with head := none, tail := none }
      granting := Function.update s.granting g G } l w := by
  have hf := h.free hq
  exact { h with
    count := by
      have := h.count
      simp only [List.sum_append, List.sum_singleton]
      omega
    bound := Nat.zero_le _
    free := by simp
    held := fun _ => {
      count := rfl
      head := rfl
      tail := rfl
      loop := by
        refine ⟨g, s.queue.head, ?_, hf.repr.chain, fun g' hg' => ?_⟩
        · rcases hG with rfl | rfl <;> simp [Granting.rest]
        · simpa [hg'] using hf.idle g' }
    saw := fun _ _ _ => rfl }

theorem Inv.wait (h : Inv c s l w) (hq : s.qlock = false) (ht : 0 < t ∧ t < 2 ^ 64) (hp : s.pc t = .idle)
    (hc : s.count ≠ 0) :
    Inv c { s with
      granted := Function.update s.granted t false
      waiters := (s.waiters + 1) % 2 ^ 64
      queue := s.queue.push t
      pc := Function.update s.pc t .wait
      sawZero := Function.update s.sawZero t false } (l ++ [t]) (t :: w) := by
  have htl : t ∉ l := fun hm => ((h.mem t).mp hm).1 hp
  have htw : t ∉ w := fun hm => (h.inside t).mp hm hp
  have hnd : (t :: w).Nodup := List.nodup_cons.mpr ⟨htw, h.nodup⟩
  have hlen := length_lt_of_handles hnd fun u hu => by
    rcases List.mem_cons.mp hu with rfl | hu
    · exact ht
    · exact h.handle u ((h.inside u).mp hu)
  have hf := h.free hq
  exact { h with
    free := fun _ => { hf with
      repr := hf.repr.push htl
      zero := fun h => absurd h hc }
    held := fun hq' => by simp [hq] at hq'
    mem := fun u => by
      have := h.mem u
      grind -linarith
    leave := fun u hu => by
      have := h.leave u
      grind -linarith
    nodup := hnd
    inside := fun u => by
      have := h.inside u
      grind -linarith
    handle := fun u hu => by
      have := h.handle u
      grind -linarith
    waiters := by
      rw [h.waiters]
      exact Nat.mod_eq_of_lt hlen
    saw := fun u hu hg => by
      have := h.saw u
      grind -linarith }

theorem Inv.poll (h : Inv c s l w) (hp : s.pc t = .wait) (hg : s.granted t = true) :
    Inv c { s with pc := Function.update s.pc t .leave } l w := by
  have hne : s.pc t ≠ .idle := by simp [hp]
  have hpc : ∀ u, Function.update s.pc t .leave u ≠ .idle ↔ s.pc u ≠ .idle := fun u => by
    rcases eq_or_ne u t with rfl | e
    · simp [hne]
    · simp [e]
  exact { h with
    free := fun hq => { h.free hq with repr := (h.free hq).repr }
    held := fun hq => { h.held hq with count := (h.held hq).count }
    mem := fun u => by rw [hpc u, h.mem u]
    leave := fun u hu => by
      have := h.leave u
      grind -linarith
    inside := fun u => by rw [hpc u, h.inside u]
    handle := fun u hu => h.handle u ((hpc u).mp hu)
    saw := fun u hu => h.saw u ((hpc u).mp hu) }

theorem Inv.left (h : Inv c s l w) (hq : s.qlock = false) (hp : s.pc t = .leave) :
    Inv c { s with
      waiters := (s.waiters + 2 ^ 64 - 1) % 2 ^ 64
      pc := Function.update s.pc t .idle } l (w.erase t) := by
  have hlen := length_lt_of_handles h.nodup fun u hu => h.handle u ((h.inside u).mp hu)
  have htw : t ∈ w := (h.inside t).mpr (by simp [hp])
  have hpos := List.length_pos_of_mem htw
  have hme : ∀ u, u ∈ w.erase t ↔ u ≠ t ∧ u ∈ w := fun u => h.nodup.mem_erase_iff
  have hgt := h.leave t hp
  have hf := h.free hq
  have hpc : ∀ u, Function.update s.pc t .idle u ≠ .idle ↔ u ≠ t ∧ s.pc u ≠ .idle := fun u => by
    rcases eq_or_ne u t with rfl | e
    · simp
    · simp [e]
  have hn : (s.waiters + 2 ^ 64 - 1) % 2 ^ 64 = (w.erase t).length := by
    rw [List.length_erase_of_mem htw, h.waiters]
    omega
  rw [hn]
  exact { h with
    free := fun _ => { hf with repr := hf.repr }
    held := fun hq' => absurd (hq.symm.trans hq') Bool.false_ne_true
    mem := fun u => by
      have := h.mem u
      have := hpc u
      grind -linarith
    leave := fun u hu => by
      have := h.leave u
      grind -linarith
    nodup := h.nodup.erase t
    inside := fun u => by rw [hpc u, hme u, h.inside u]
    handle := fun u hu => h.handle u ((hpc u).mp hu).2
    waiters := rfl
    saw := fun u hu => h.saw u ((hpc u).mp hu).2 }

/-- The loop of `grant_all_locked` stands at `p`. -/
theorem Inv.at_loop (h : Inv c s l w) {p : Option Nat} (hp : (s.granting g).rest s.queue.next = some p) :
    s.qlock = true ∧ IsChain s.queue.next p l ∧ ∀ g', g' ≠ g → s.granting g' = .idle := by
  have hne : s.granting g ≠ .idle := fun e => by simp [e, Granting.rest] at hp
  have hq : s.qlock = true := by
    by_contra hq
    exact hne ((h.free (by simpa using hq)).idle g)
  obtain ⟨g', p', hp', hc, hidle⟩ := (h.held hq).loop
  obtain rfl : g = g' := by
    by_contra e
    exact hne (hidle g e)
  obtain rfl : p' = p := Option.some.inj (hp'.symm.trans hp)
  exact ⟨hq, hc, hidle⟩

/-- The loop moves on without a grant. -/
theorem Inv.advance (h : Inv c s l w) {p : Option Nat} {G : Granting} (hp : (s.granting g).rest s.queue.next = some p)
    (hG : G.rest s.queue.next = some p) : Inv c { s with granting := Function.update s.granting g G } l w := by
  obtain ⟨hq, hc, hidle⟩ := h.at_loop hp
  exact { h with
    free := fun hq' => by simp [hq] at hq'
    held := fun _ => { h.held hq with
      loop := ⟨g, p, by simpa using hG, hc, fun g' hg' => by simpa [hg'] using hidle g' hg'⟩ } }

/-- The loop grants a waiter. -/
theorem Inv.granted (h : Inv c s l w) {n : Nat} {G : Granting} (hp : (s.granting g).rest s.queue.next = some (some n))
    (hG : G.rest s.queue.next = some (s.queue.next n)) :
    ∃ l', Inv c { s with
      granted := Function.update s.granted n true, granting := Function.update s.granting g G } l' w := by
  obtain ⟨hq, hc, hidle⟩ := h.at_loop hp
  obtain ⟨l, rfl, hc'⟩ := IsChain.some_iff.mp hc
  have hnd := List.nodup_cons.mp hc.nodup
  exact ⟨l, { h with
    free := fun hq' => by simp [hq] at hq'
    held := fun _ => { h.held hq with
      loop := ⟨g, s.queue.next n, by simpa using hG, hc', fun g' hg' => by simpa [hg'] using hidle g' hg'⟩ }
    mem := fun u => by
      have := h.mem u
      grind -linarith
    leave := fun u hu => by
      have := h.leave u hu
      grind -linarith
    saw := fun u hu _ => h.saw u hu (.inr hq) }⟩

/-- The loop ends and `qlock` is released. -/
theorem Inv.unlock (h : Inv c s l w) (hp : (s.granting g).rest s.queue.next = some none) :
    Inv c { s with qlock := false, granting := Function.update s.granting g .idle } l w := by
  obtain ⟨hq, hc, hidle⟩ := h.at_loop hp
  obtain rfl := IsChain.none_iff.mp hc
  have hh := h.held hq
  exact { h with
    free := fun _ => {
      repr := ⟨hh.head, hh.tail⟩
      zero := fun _ => rfl
      idle := fun g' => by
        by_cases e : g' = g
        · simp [e]
        · simpa [e] using hidle g' e }
    held := by simp
    saw := fun u hu _ => h.saw u hu (.inr hq) }

theorem Inv.grantStep (h : Inv c s l w) (hs : grantStep s g = some s') : ∃ l', Inv c s' l' w := by
  unfold WaitGroup.grantStep at hs
  split at hs
  · cases hs
  · rename_i hG
    exact ⟨l, Option.some.inj hs ▸ h.unlock (by rw [hG]; rfl)⟩
  · rename_i hG
    exact ⟨l, Option.some.inj hs ▸ h.unlock (by rw [hG]; rfl)⟩
  · rename_i n hG
    exact Option.some.inj hs ▸ h.granted (by rw [hG]; rfl) rfl
  · rename_i n hG
    exact ⟨l, Option.some.inj hs ▸ h.advance (by rw [hG]; rfl) rfl⟩
  · rename_i n hG
    exact Option.some.inj hs ▸ h.granted (by rw [hG]; rfl) rfl

/-- What `add` does: it refuses, or accepts its delta. -/
theorem Inv.add (h : Inv c s l w) (hq : s.qlock = false) {delta : BitVec 64} {malloc : Bool} {fuel : Nat} {st : Status}
    (hs : add s g delta malloc fuel = some (s', st)) :
    st = .state ∧ s' = s ∨
    st = .ok ∧ (s'.count : Int) = s.count + delta.toInt ∧ s'.accepted = s.accepted ++ [delta.toInt] ∧
      Inv c s' l w ∧ s'.pc = s.pc ∧ (s'.count = 0 ∨ s'.sawZero = s.sawZero) ∧
      (s.count = 0 → s'.count ≠ 0 → s.waiters = 0) := by
  unfold WaitGroup.add at hs
  dsimp only at hs
  split_ifs at hs with hpos hbad hzero hbad hc
  · obtain ⟨rfl, rfl⟩ := Prod.mk.inj (Option.some.inj hs)
    exact .inl ⟨rfl, rfl⟩
  · obtain ⟨rfl, rfl⟩ := Prod.mk.inj (Option.some.inj hs)
    have hd := toInt_of_pos hpos
    simp only [not_or, not_and, not_not, UINT64_MAX] at hbad
    have hlt := delta.isLt
    have hn : ((s.count + delta.toNat : Nat) : Int) = s.count + delta.toInt := by omega
    refine .inr ⟨rfl, hn, rfl, h.adjust hq hn ?_ ?_, rfl, .inr rfl, fun h0 _ => hbad.1 h0⟩
    · simp only [UINT64_MAX]
      omega
    · omega
  · obtain ⟨rfl, rfl⟩ := Prod.mk.inj (Option.some.inj hs)
    exact .inr ⟨rfl, by simp [hzero], rfl, h.adjust hq (by simp [hzero]) h.bound id, rfl, .inr rfl,
      fun h0 h1 => absurd h0 h1⟩
  · obtain ⟨rfl, rfl⟩ := Prod.mk.inj (Option.some.inj hs)
    exact .inl ⟨rfl, rfl⟩
  · have hd := decrement_eq (d := delta) (by omega)
    generalize ((-(delta + 1)).toNat + 1) % 2 ^ 64 = dec at hs hbad hc hd
    obtain ⟨x, hx, hs⟩ := Option.map_eq_some_iff.mp hs
    obtain ⟨rfl, rfl⟩ := Prod.mk.inj hs
    obtain ⟨nodes, -, rfl⟩ := Option.map_eq_some_iff.mp hx
    have h0 : (s.count : Int) + delta.toInt = 0 := by omega
    refine .inr ⟨rfl, ?_, rfl, ?_, rfl, .inl hc, fun _ h1 => absurd hc h1⟩
    · simp only
      omega
    · simp only [hc]
      refine h.detach hq h0 ?_
      split <;> simp
  · have hd := decrement_eq (d := delta) (by omega)
    generalize ((-(delta + 1)).toNat + 1) % 2 ^ 64 = dec at hs hbad hc hd
    obtain ⟨rfl, rfl⟩ := Prod.mk.inj (Option.some.inj hs)
    have hn : ((s.count - dec : Nat) : Int) = s.count + delta.toInt := by omega
    have hb := h.bound
    exact .inr ⟨rfl, hn, rfl, h.adjust hq hn (by omega) (fun h => absurd h hc), rfl, .inr rfl, fun h0 => by omega⟩

/-- The step lemma. -/
theorem Inv.step (h : Inv c s l w) {a : Act} (he : exec s a = some (s', r)) : ∃ l' w', Inv c s' l' w' := by
  cases a with
  | add g delta malloc fuel =>
    simp only [exec, Option.ite_none_right_eq_some] at he
    obtain ⟨⟨hq, -⟩, he⟩ := he
    obtain ⟨⟨s₁, st⟩, hs, he⟩ := Option.map_eq_some_iff.mp he
    obtain ⟨rfl, -⟩ := Prod.mk.inj he
    rcases h.add hq hs with ⟨-, rfl⟩ | ⟨-, -, -, hI, -⟩
    · exact ⟨l, w, h⟩
    · exact ⟨l, w, hI⟩
  | next g =>
    obtain ⟨s₁, hs, he⟩ := Option.map_eq_some_iff.mp he
    obtain ⟨rfl, -⟩ := Prod.mk.inj he
    obtain ⟨l', hI⟩ := h.grantStep hs
    exact ⟨l', w, hI⟩
  | wait t =>
    simp only [exec, Option.ite_none_right_eq_some] at he
    obtain ⟨⟨hq, hlt, hp⟩, he⟩ := he
    unfold WaitGroup.wait at he
    split_ifs at he with hc ht
    · obtain ⟨rfl, -⟩ := Prod.mk.inj (Option.some.inj he)
      exact ⟨l, w, h⟩
    · obtain ⟨rfl, -⟩ := Prod.mk.inj (Option.some.inj he)
      exact ⟨l, w, h⟩
    · obtain ⟨rfl, -⟩ := Prod.mk.inj (Option.some.inj he)
      exact ⟨_, _, h.wait hq ⟨Nat.pos_of_ne_zero ht, hlt⟩ hp hc⟩
  | poll t =>
    simp only [exec, Option.ite_none_right_eq_some] at he
    obtain ⟨hp, he⟩ := he
    split_ifs at he with hg
    · obtain ⟨rfl, -⟩ := Prod.mk.inj (Option.some.inj he)
      exact ⟨l, w, h.poll hp hg⟩
    · obtain ⟨rfl, -⟩ := Prod.mk.inj (Option.some.inj he)
      exact ⟨l, w, h⟩
  | leave t =>
    simp only [exec, Option.ite_none_right_eq_some] at he
    obtain ⟨⟨hq, hp⟩, he⟩ := he
    obtain ⟨rfl, -⟩ := Prod.mk.inj (Option.some.inj he)
    exact ⟨l, _, h.left hq hp⟩

theorem Inv.ends (h : Inv c s l w) (hq : s.qlock = false) {delta : BitVec 64} {malloc : Bool} {fuel : Nat}
    (hf : l.length < fuel) (hg : s.granting g = .idle) : (exec s (.add g delta malloc fuel)).isSome := by
  have hw := GtWait.walk_total (h.free hq).repr.chain hf
  simp only [exec, hq, hg, and_self, if_true, Option.isSome_map]
  unfold WaitGroup.add
  dsimp only
  split_ifs
  · rfl
  · rfl
  · rfl
  · rfl
  · simp [grantAllLocked, hw]
  · rfl

theorem Inv.safe (h : Inv c s l w) : Safe c s where
  count := h.count
  bound := h.bound
  waiters hq := by
    have hf := h.free hq
    refine ⟨l, w.filter fun t => s.granted t, hf.repr, hf.zero, h.mem, h.nodup.filter _, fun t => ?_, ?_⟩
    · rw [List.mem_filter, h.inside]
    · -- the tasks not granted are those of the queue
      have hl : (w.filter fun t => !s.granted t).Perm l := by
        refine (List.perm_ext_iff_of_nodup (h.nodup.filter _) hf.repr.nodup).mpr fun t => ?_
        rw [List.mem_filter, h.inside, h.mem, Bool.not_eq_true']
      have := List.length_eq_length_filter_add (l := w) fun t => s.granted t
      rw [h.waiters, this, hl.length_eq, Nat.add_comm]
  ends hq := ⟨l.length + 1, fun g delta malloc hg fuel hf => h.ends hq (by omega) hg⟩

theorem Inv.stepSafe_add (h : Inv c s l w) (hq : s.qlock = false) {delta : BitVec 64} {malloc : Bool} {fuel : Nat}
    {st : Status} (hs : WaitGroup.add s g delta malloc fuel = some (s', st)) :
    StepSafe s (.add g delta malloc fuel) s' (some st) := by
  rcases h.add hq hs with ⟨rfl, rfl⟩ | ⟨rfl, hn, ha, -, hp, hz, hgen⟩
  · exact {
      refused := fun _ _ _ _ _ _ => rfl
      accepted := by simp
      sum := fun hne => absurd rfl (hne g delta malloc fuel)
      returns := fun t h0 h1 => absurd h1 h0
      queued := fun t h0 h1 => absurd h0 h1
      zero := fun t _ h0 h1 => by simp [h0] at h1
      generation := fun h0 h1 => absurd h0 h1 }
  · exact {
      refused := by simp
      accepted := by
        rintro g' d' m' f' he -
        obtain ⟨rfl, rfl, rfl, rfl⟩ := Act.add.inj he
        exact ⟨hn, ha⟩
      sum := fun hne => absurd rfl (hne g delta malloc fuel)
      returns := fun t h0 h1 => absurd (hp ▸ h1) h0
      queued := fun t h0 h1 => absurd h0 (hp ▸ h1)
      zero := fun t _ h0 h1 => by
        rcases hz with hz | hz
        · exact hz
        · simp [hz, h0] at h1
      generation := fun h0 h1 t => by
        have hw : w = [] := List.eq_nil_of_length_eq_zero (h.waiters.symm.trans (hgen h0 h1))
        by_contra ht
        simpa [hw] using (h.inside t).mpr ht }

/-- A step of another call keeps the count; `hr` is what it does to the tasks. -/
theorem stepSafe_of_count {a : Act} (ha : ∀ g delta malloc fuel, a ≠ .add g delta malloc fuel)
    (hc : s'.count = s.count) (hacc : s'.accepted = s.accepted)
    (hret : ∀ t, s.pc t ≠ .idle → s'.pc t = .idle → s.sawZero t = true ∧ r = some .ok)
    (hin : ∀ t, s.pc t = .idle → s'.pc t ≠ .idle → s'.sawZero t = false)
    (hz : ∀ t, s'.sawZero t = true → s.sawZero t = true) : StepSafe s a s' r where
  refused g d m f e := absurd e (ha g d m f)
  accepted g d m f e := absurd e (ha g d m f)
  sum _ := ⟨hc, hacc⟩
  returns := hret
  queued := hin
  zero t _ h0 h1 := by simp [hz t h1] at h0
  generation h0 h1 := absurd (hc.trans h0) h1

theorem grantStep_frame (hs : grantStep s g = some s') :
    s'.count = s.count ∧ s'.accepted = s.accepted ∧ s'.pc = s.pc ∧ s'.sawZero = s.sawZero := by
  unfold grantStep at hs
  split at hs
  · cases hs
  all_goals exact Option.some.inj hs ▸ ⟨rfl, rfl, rfl, rfl⟩

theorem Inv.stepSafe (h : Inv c s l w) {a : Act} (he : exec s a = some (s', r)) : StepSafe s a s' r := by
  cases a with
  | add g delta malloc fuel =>
    simp only [exec, Option.ite_none_right_eq_some] at he
    obtain ⟨⟨hq, -⟩, he⟩ := he
    obtain ⟨⟨s₁, st⟩, hs, he⟩ := Option.map_eq_some_iff.mp he
    obtain ⟨rfl, rfl⟩ := Prod.mk.inj he
    exact h.stepSafe_add hq hs
  | next g =>
    obtain ⟨s₁, hs, he⟩ := Option.map_eq_some_iff.mp he
    obtain ⟨rfl, rfl⟩ := Prod.mk.inj he
    obtain ⟨hcount, haccepted, hpc, hsaw⟩ := grantStep_frame hs
    exact stepSafe_of_count (by simp) hcount haccepted (fun t h0 h => absurd (hpc ▸ h) h0)
      (fun t h0 h => absurd h0 (hpc ▸ h)) fun t ht => hsaw ▸ ht
  | wait t =>
    simp only [exec, Option.ite_none_right_eq_some] at he
    obtain ⟨⟨hq, hlt, hp⟩, he⟩ := he
    unfold WaitGroup.wait at he
    split_ifs at he with hc ht
    · obtain ⟨rfl, rfl⟩ := Prod.mk.inj (Option.some.inj he)
      exact stepSafe_of_count (by simp) rfl rfl (fun t h0 h => absurd h h0) (fun t h0 h => absurd h0 h) fun t ht => ht
    · obtain ⟨rfl, rfl⟩ := Prod.mk.inj (Option.some.inj he)
      exact stepSafe_of_count (by simp) rfl rfl (fun t h0 h => absurd h h0) (fun t h0 h => absurd h0 h) fun t ht => ht
    · obtain ⟨rfl, rfl⟩ := Prod.mk.inj (Option.some.inj he)
      refine stepSafe_of_count (by simp) rfl rfl (fun u h0 h => ?_) (fun u h0 h => ?_) fun u hu => ?_ <;>
        dsimp only at *
      · grind -linarith
      · grind -linarith
      · grind -linarith
  | poll t =>
    simp only [exec, Option.ite_none_right_eq_some] at he
    obtain ⟨hp, he⟩ := he
    split_ifs at he with hg
    · obtain ⟨rfl, rfl⟩ := Prod.mk.inj (Option.some.inj he)
      refine stepSafe_of_count (by simp) rfl rfl (fun u h0 h => ?_) (fun u h0 h => ?_) fun u hu => hu <;>
        dsimp only at *
      · grind -linarith
      · grind -linarith
    · obtain ⟨rfl, rfl⟩ := Prod.mk.inj (Option.some.inj he)
      exact stepSafe_of_count (by simp) rfl rfl (fun t h0 h => absurd h h0) (fun t h0 h => absurd h0 h) fun t ht => ht
  | leave t =>
    simp only [exec, Option.ite_none_right_eq_some] at he
    obtain ⟨⟨hq, hp⟩, he⟩ := he
    obtain ⟨rfl, rfl⟩ := Prod.mk.inj (Option.some.inj he)
    refine stepSafe_of_count (by simp) rfl rfl (fun u h0 h1 => ?_) (fun u h0 h1 => ?_) fun u hu => hu
    · by_cases e : u = t
      · subst e
        exact ⟨h.saw u h0 (.inl (h.leave u hp)), rfl⟩
      · simp [e, h0] at h1
    · dsimp only at h1
      grind -linarith

theorem inv_initial (hc : c ≤ UINT64_MAX) : Inv c (State.initial c) [] [] where
  count := by simp [State.initial]
  bound := hc
  free _ := { repr := ⟨rfl, rfl⟩, zero := fun _ => rfl, idle := fun _ => rfl }
  held := by simp [State.initial]
  mem := by simp [State.initial]
  leave := by simp [State.initial]
  nodup := List.nodup_nil
  inside := by simp [State.initial]
  handle := by simp [State.initial]
  waiters := rfl
  saw := by simp [State.initial]

/-- Every state of every run of adds, dones and waits on a wait group initialised
with any count is safe, and so is every step. -/
theorem gt_wait_group_safe (c : Nat) (hc : c ≤ UINT64_MAX) (s : State) (h : (machine c).Reach s) :
    Safe c s ∧ ∀ a s' r, exec s a = some (s', r) → StepSafe s a s' r := by
  obtain ⟨l, w, hI⟩ : ∃ l w, Inv c s l w := by
    refine h.invariant (I := fun s => ∃ l w, Inv c s l w) ?_ ?_
    · rintro s rfl
      exact ⟨[], [], inv_initial hc⟩
    · rintro s s' a - ⟨l, w, hI⟩ he
      obtain ⟨⟨s', r⟩, he₁, rfl⟩ := Option.map_eq_some_iff.mp he
      exact hI.step he₁
  exact ⟨hI.safe, fun a s' r he => hI.stepSafe he⟩

/-- Two tasks wait, the count goes from 2 to 0, the adder that holds `qlock`
grants them one after the other, and one of them leaves; a new generation is
refused while the other has not left. -/
def generationRun : List Act :=
  [.wait 1, .wait 2, .add 7 1 true 3, .add 7 (-3) true 3, .next 7, .poll 1, .next 7, .next 7, .next 7, .next 7,
    .leave 1, .add 7 1 true 3]

theorem gt_wait_group_safe_generation :
    2 ≤ UINT64_MAX ∧ ∃ s, (machine 2).Reach s ∧ s.accepted = [1, -3] ∧ s.waiters = 1 ∧ s.qlock = false ∧
      Safe 2 s ∧ ∀ a s' r, exec s a = some (s', r) → StepSafe s a s' r := by
  obtain ⟨s, hs, hp⟩ := Machine.exists_reach_of_run (M := machine 2) (s := State.initial 2) (l := generationRun)
    (p := fun s => s.accepted == [1, -3] && s.waiters == 1 && s.qlock == false) rfl (by decide +kernel)
  simp only [Bool.and_eq_true, beq_iff_eq] at hp
  exact ⟨by decide, s, hs, hp.1.1, hp.1.2, hp.2, gt_wait_group_safe 2 (by decide) s hs⟩

end Dlsmc.WaitGroup
