import Mathlib.Data.List.Nodup
import Dlsmc.Framework.Machine

/-!
# The MCS lock (`mcs.c`)

`dlsm_mcs_lock` used by any number of threads, every atomic load, store,
exchange and compare-exchange one step. A thread uses its own node from the
call of `acquire` to the return of `release`, and another thread, or the same
one, may use it again then; so an acquisition in progress is named by its node
(its address).

`State.exchanged` and `State.entered` record the nodes in the order of their
exchanges of `tail` and of the returns of `acquire`; no step reads them.
-/

namespace Dlsmc.Mcs

/-- Where the thread stands that uses a node. -/
inductive Pc where
  /-- No acquisition uses the node. -/
  | idle
  /-- `acquire`: about to store `node->locked`. -/
  | init
  /-- `acquire`: about to exchange `tail`. -/
  | exchange
  /-- `acquire`: about to store `pred->next`. -/
  | link (pred : Nat)
  /-- `acquire`: about to load `node->locked`. -/
  | spin
  /-- Between the return of `acquire` and the call of `release`. -/
  | holds
  /-- `release`: loaded no successor, about to compare-exchange `tail`. -/
  | cas
  /-- `release`: about to load `node->next` again. -/
  | await
  /-- `release`: about to store `succ->locked`. -/
  | handoff (succ : Nat)
  deriving DecidableEq

/-- `dlsm_mcs_lock` and the nodes. -/
structure State where
  tail : Option Nat
  next : Nat → Option Nat
  locked : Nat → Bool
  pc : Nat → Pc
  exchanged : List Nat
  entered : List Nat

/-- `dlsm_mcs_init`; the nodes hold anything. -/
def State.initial (next : Nat → Option Nat) (locked : Nat → Bool) : State where
  tail := none
  next := next
  locked := locked
  pc := fun _ => .idle
  exchanged := []
  entered := []

inductive Act where
  /-- `dlsm_mcs_lock_acquire(l, node)`, with its first store. -/
  | acquire (node : Nat)
  /-- `dlsm_mcs_lock_release(l, node)`, with its first load. -/
  | release (node : Nat)
  /-- The next step of the call that uses `node`. -/
  | next (node : Nat)
  deriving DecidableEq

def goto (s : State) (node : Nat) (pc : Pc) : State := { s with pc := Function.update s.pc node pc }

/-- `acquire` returns. -/
def enter (s : State) (node : Nat) : State := { goto s node .holds with entered := s.entered ++ [node] }

/-- What `release` does after it loaded `node->next`. -/
def loaded (s : State) (node : Nat) (none : Pc) : State :=
  match s.next node with
  | .none => goto s node none
  | some succ => goto s node (.handoff succ)

/-- The next atomic step of the call that uses `node`. -/
def next (s : State) (node : Nat) : Option State :=
  match s.pc node with
  | .idle | .holds => none
  | .init => some (goto { s with locked := Function.update s.locked node true } node .exchange)
  | .exchange =>
    let s' := { s with tail := some node, exchanged := s.exchanged ++ [node] }
    match s.tail with
    | none => some (enter s' node)
    | some pred => some (goto s' node (.link pred))
  | .link pred => some (goto { s with next := Function.update s.next pred (some node) } node .spin)
  | .spin => if s.locked node = true then some s else some (enter s node)
  | .cas =>
    if s.tail = some node then some (goto { s with tail := none } node .idle)
    else some (goto s node .await)
  | .await => some (loaded s node .await)
  | .handoff succ => some (goto { s with locked := Function.update s.locked succ false } node .idle)

/-- One atomic step. -/
def step (s : State) : Act → Option State
  | .acquire node =>
    if s.pc node = .idle then some (goto { s with next := Function.update s.next node none } node .init) else none
  | .release node => if s.pc node = .holds then some (loaded s node .cas) else none
  | .next node => next s node

/-- The lock in use by any number of threads. -/
def machine : Machine State Act where
  init := fun s => ∃ next locked, s = State.initial next locked
  step := step

/-- Between the return of `acquire` and the hand-off. -/
def Pc.inside : Pc → Bool
  | .holds | .cas | .await | .handoff _ => true
  | _ => false

/-- After the exchange of `tail`, before the return of `release`. -/
def Pc.queued : Pc → Bool
  | .link _ | .spin | .holds | .cas | .await | .handoff _ => true
  | _ => false

/-- What holds in every state of the lock. -/
structure Safe (s : State) : Prop where
  exclusive : ∀ a b, (s.pc a).inside = true → (s.pc b).inside = true → a = b
  /-- The lock is granted in the order of the exchanges. -/
  order : s.entered <+: s.exchanged
  /-- A release hands the lock to the node that was exchanged right after its
  own and waits for it. -/
  successor : ∀ a b, s.pc a = .handoff b →
    s.pc b = .spin ∧ ∃ l k, s.exchanged = l ++ a :: b :: k ∧ s.entered = l ++ [a]
  /-- A store to the node of a predecessor meets the acquisition that was
  exchanged right before; its `release` has not returned, and the node was not
  used again. -/
  predecessor : ∀ a b, s.pc b = .link a →
    (s.pc a).queued = true ∧ ∃ l k, s.exchanged = l ++ a :: b :: k ∧ s.entered <+: l ++ [a] ∧ a ∉ k
  free : (∀ a, s.pc a = .idle) → s.tail = none

/-! ## The queue -/

/-- `b` stands right after `a` in `q`. -/
def Succ (q : List Nat) (a b : Nat) : Prop := ∃ i, q[i]? = some a ∧ q[i + 1]? = some b

variable {q : List Nat} {a b c n : Nat}

theorem Succ.mem_left (h : Succ q a b) : a ∈ q := by
  obtain ⟨i, h, -⟩ := h
  exact List.mem_of_getElem? h

theorem Succ.mem_right (h : Succ q a b) : b ∈ q := by
  obtain ⟨i, -, h⟩ := h
  exact List.mem_of_getElem? h

theorem index_unique (hq : q.Nodup) {i j : Nat} (hi : q[i]? = some a) (hj : q[j]? = some a) : i = j := by
  obtain ⟨hlt, -⟩ := List.getElem?_eq_some_iff.mp hi
  exact (List.getElem?_inj hlt hq).mp (hi.trans hj.symm)

theorem Succ.right_unique (hq : q.Nodup) (h : Succ q a b) (h' : Succ q a c) : b = c := by
  obtain ⟨i, hi, hi'⟩ := h
  obtain ⟨j, hj, hj'⟩ := h'
  obtain rfl := index_unique hq hi hj
  exact Option.some.inj (hi'.symm.trans hj')

theorem Succ.left_unique (hq : q.Nodup) (h : Succ q a c) (h' : Succ q b c) : a = b := by
  obtain ⟨i, hi, hi'⟩ := h
  obtain ⟨j, hj, hj'⟩ := h'
  obtain rfl : i = j := by
    have := index_unique hq hi' hj'
    omega
  exact Option.some.inj (hi.symm.trans hj)

theorem Succ.ne_head (hq : q.Nodup) (h : Succ q a b) : q.head? ≠ some b := by
  obtain ⟨i, -, hi⟩ := h
  intro hh
  rw [List.head?_eq_getElem?] at hh
  have := index_unique hq hi hh
  omega

theorem Succ.ne_last (hq : q.Nodup) (h : Succ q a b) : q.getLast? ≠ some a := by
  obtain ⟨i, hi, hi'⟩ := h
  intro hl
  rw [List.getLast?_eq_getElem?] at hl
  have := index_unique hq hi hl
  obtain ⟨hlt, -⟩ := List.getElem?_eq_some_iff.mp hi'
  omega

theorem succ_cons : Succ (n :: q) a b ↔ (a = n ∧ q.head? = some b) ∨ Succ q a b := by
  constructor
  · rintro ⟨i, hi, hi'⟩
    cases i with
    | zero => exact .inl ⟨by simpa [eq_comm] using hi, by simpa [List.head?_eq_getElem?] using hi'⟩
    | succ i => exact .inr ⟨i, by simpa using hi, by simpa using hi'⟩
  · rintro (⟨rfl, h⟩ | ⟨i, hi, hi'⟩)
    · exact ⟨0, rfl, by simpa [List.head?_eq_getElem?] using h⟩
    · exact ⟨i + 1, by simpa using hi, by simpa using hi'⟩

theorem succ_append : Succ (q ++ [n]) a b ↔ Succ q a b ∨ (q.getLast? = some a ∧ b = n) := by
  constructor
  · rintro ⟨i, hi, hi'⟩
    rcases Nat.lt_trichotomy (i + 1) q.length with hlt | he | hgt
    · rw [List.getElem?_append_left (by omega)] at hi
      rw [List.getElem?_append_left hlt] at hi'
      exact .inl ⟨i, hi, hi'⟩
    · rw [List.getElem?_append_left (by omega)] at hi
      rw [List.getElem?_append_right (by omega), he, Nat.sub_self] at hi'
      refine .inr ⟨?_, by simpa [eq_comm] using hi'⟩
      rw [List.getLast?_eq_getElem?, ← hi]
      congr 1
      omega
    · rw [List.getElem?_eq_none (by simp; omega)] at hi'
      cases hi'
  · rintro (⟨i, hi, hi'⟩ | ⟨h, rfl⟩)
    · obtain ⟨h₁, -⟩ := List.getElem?_eq_some_iff.mp hi
      obtain ⟨h₂, -⟩ := List.getElem?_eq_some_iff.mp hi'
      exact ⟨i, by rwa [List.getElem?_append_left h₁], by rwa [List.getElem?_append_left h₂]⟩
    · rw [List.getLast?_eq_getElem?] at h
      obtain ⟨hlt, -⟩ := List.getElem?_eq_some_iff.mp h
      refine ⟨q.length - 1, by rwa [List.getElem?_append_left hlt], ?_⟩
      rw [List.getElem?_append_right (by omega)]
      simp [show q.length - 1 + 1 - q.length = 0 by omega]

theorem exists_pred (h : b ∈ q) (hh : q.head? ≠ some b) : ∃ a, Succ q a b := by
  obtain ⟨i, hi, rfl⟩ := List.getElem_of_mem h
  cases i with
  | zero => exact absurd (by rw [List.head?_eq_getElem?, List.getElem?_eq_getElem hi]) hh
  | succ i =>
    exact ⟨q[i], i, List.getElem?_eq_getElem (by omega), List.getElem?_eq_getElem hi⟩

theorem exists_succ (h : a ∈ q) (hl : q.getLast? ≠ some a) : ∃ b, Succ q a b := by
  obtain ⟨i, hi, rfl⟩ := List.getElem_of_mem h
  by_cases hlt : i + 1 < q.length
  · exact ⟨q[i + 1], i, List.getElem?_eq_getElem hi, List.getElem?_eq_getElem hlt⟩
  · refine absurd ?_ hl
    rw [List.getLast?_eq_getElem?, ← List.getElem?_eq_getElem hi]
    congr 1
    omega

theorem succ_iff_split : Succ q a b ↔ ∃ l k, q = l ++ a :: b :: k := by
  constructor
  · rintro ⟨i, hi, hi'⟩
    obtain ⟨h₁, rfl⟩ := List.getElem?_eq_some_iff.mp hi
    obtain ⟨h₂, rfl⟩ := List.getElem?_eq_some_iff.mp hi'
    refine ⟨q.take i, q.drop (i + 2), ?_⟩
    rw [← List.drop_eq_getElem_cons h₂, ← List.drop_eq_getElem_cons h₁, List.take_append_drop]
  · rintro ⟨l, k, rfl⟩
    exact ⟨l.length, by simp, by simp⟩

/-- The invariant: `q` are the nodes from the one that has the lock to the last
one exchanged. -/
structure Inv (s : State) (q : List Nat) : Prop where
  nodup : q.Nodup
  mem : ∀ n, n ∈ q ↔ (s.pc n).queued = true
  tail : s.tail = q.getLast?
  /-- The head has the lock, and may not know it yet. -/
  head : ∀ n, q.head? = some n → (s.pc n).inside = true ∨ s.pc n = .spin ∧ s.locked n = false
  /-- The others wait; a link to one of them is there once it was stored. -/
  waits : ∀ a b, Succ q a b → s.locked b = true ∧
    (s.pc b = .link a ∧ s.next a = none ∨ s.pc b = .spin ∧ s.next a = some b)
  last : ∀ n, q.getLast? = some n → s.next n = none
  await : ∀ n, s.pc n = .await → q.getLast? ≠ some n
  handoff : ∀ n b, s.pc n = .handoff b → s.next n = some b
  init : ∀ n, s.pc n = .init ∨ s.pc n = .exchange → s.next n = none
  exchange : ∀ n, s.pc n = .exchange → s.locked n = true
  order : ∃ l, s.exchanged = l ++ q ∧
    (s.entered = l ∧ (∀ n, q.head? = some n → s.pc n = .spin) ∨
      ∃ n, q.head? = some n ∧ (s.pc n).inside = true ∧ s.entered = l ++ [n])

variable {s s' : State}

/-- The acquisition that has the lock is the head of the queue. -/
theorem Inv.head_of_inside (h : Inv s q) (hn : (s.pc n).inside = true) : q.head? = some n := by
  have hm : n ∈ q := (h.mem n).mpr (by cases hp : s.pc n <;> simp_all [Pc.inside, Pc.queued])
  by_contra hh
  obtain ⟨a, ha⟩ := exists_pred hm hh
  rcases (h.waits a n ha).2 with ⟨hp, -⟩ | ⟨hp, -⟩ <;> simp [hp, Pc.inside] at hn

theorem Inv.pred_of_link (h : Inv s q) (hb : s.pc b = .link a) : Succ q a b := by
  have hm : b ∈ q := (h.mem b).mpr (by rw [hb]; rfl)
  have hh : q.head? ≠ some b := fun e => by
    rcases h.head b e with hp | ⟨hp, -⟩ <;> simp [hb, Pc.inside] at hp
  obtain ⟨c, hc⟩ := exists_pred hm hh
  rcases (h.waits c b hc).2 with ⟨hp, -⟩ | ⟨hp, -⟩
  · obtain rfl : a = c := by simpa [hb] using hp
    exact hc
  · simp [hb] at hp

/-- The node that a link leads to is the next one of the queue, and it waits. -/
theorem Inv.succ_of_next (h : Inv s q) (ha : a ∈ q) (hn : s.next a = some b) : Succ q a b ∧ s.pc b = .spin := by
  have hl : q.getLast? ≠ some a := fun e => by simp [h.last a e] at hn
  obtain ⟨c, hc⟩ := exists_succ ha hl
  rcases (h.waits a c hc).2 with ⟨-, hp⟩ | ⟨hp, hx⟩
  · simp [hn] at hp
  · obtain rfl : b = c := by simpa [hn] using hx
    exact ⟨hc, hp⟩

theorem Inv.safe (h : Inv s q) : Safe s where
  exclusive a b ha hb := Option.some.inj ((h.head_of_inside ha).symm.trans (h.head_of_inside hb))
  order := by
    obtain ⟨l, hx, ⟨he, -⟩ | ⟨n, hn, -, he⟩⟩ := h.order
    · exact ⟨q, by rw [hx, he]⟩
    · obtain ⟨k, rfl⟩ := List.head?_eq_some_iff.mp hn
      exact ⟨k, by rw [hx, he]; simp⟩
  successor a b ha := by
    have hin : (s.pc a).inside = true := by rw [ha]; rfl
    have hh := h.head_of_inside hin
    obtain ⟨hsucc, hp⟩ := h.succ_of_next (List.mem_of_head? hh) (h.handoff a b ha)
    refine ⟨hp, ?_⟩
    obtain ⟨q, rfl⟩ := List.head?_eq_some_iff.mp hh
    rcases succ_cons.mp hsucc with ⟨-, hq⟩ | hq
    · obtain ⟨k, rfl⟩ := List.head?_eq_some_iff.mp hq
      obtain ⟨l, hx, ⟨-, hs⟩ | ⟨n, hn, -, he⟩⟩ := h.order
      · simp [hs a rfl] at ha
      · obtain rfl : a = n := by simpa using hn
        exact ⟨l, k, hx, he⟩
    · exact absurd hq.mem_left (List.nodup_cons.mp h.nodup).1
  predecessor a b hb := by
    have hs := h.pred_of_link hb
    refine ⟨(h.mem a).mp hs.mem_left, ?_⟩
    obtain ⟨l', k, rfl⟩ := succ_iff_split.mp hs
    have hnd : a ∉ k := by
      have := (List.nodup_append.mp h.nodup).2.1
      simp only [List.nodup_cons, List.mem_cons, not_or] at this
      exact this.1.2
    obtain ⟨l, hx, ⟨he, -⟩ | ⟨n, hn, -, he⟩⟩ := h.order
    · exact ⟨l ++ l', k, by rw [hx]; simp, by rw [he]; exact ⟨l' ++ [a], by simp⟩, hnd⟩
    · refine ⟨l ++ l', k, by rw [hx]; simp, ?_, hnd⟩
      rw [he]
      cases l' with
      | nil =>
        obtain rfl : a = n := by simpa using hn
        exact ⟨[], by simp⟩
      | cons c l' =>
        obtain rfl : c = n := by simpa using hn
        exact ⟨l' ++ [a], by simp⟩
  free hidle := by
    have : q = [] := List.eq_nil_iff_forall_not_mem.mpr fun n hn => by
      have := (h.mem n).mp hn
      simp [hidle n, Pc.queued] at this
    rw [h.tail, this]
    rfl

attribute [local grind =] Function.update_apply

attribute [local grind] Pc.queued Pc.inside

attribute [local grind →] Succ.mem_left Succ.mem_right

theorem Inv.acquire (h : Inv s q) (hp : s.pc n = .idle) :
    Inv (goto { s with next := Function.update s.next n none } n .init) q := by
  have hn : n ∉ q := fun hm => by simpa [hp, Pc.queued] using (h.mem n).mp hm
  have hhd : ∀ a, q.head? = some a → a ∈ q := fun a ha => List.mem_of_head? ha
  have hls : ∀ a, q.getLast? = some a → a ∈ q := fun a ha => List.mem_of_getLast? ha
  obtain ⟨hnodup, hmem, htail, hhead, hwaits, hlast, hawait, hhandoff, hinit, hexchange, l, hexchanged, hentered⟩ := h
  refine ⟨hnodup, ?_, htail, ?_, ?_, ?_, ?_, ?_, ?_, ?_, l, hexchanged, ?_⟩ <;> simp only [goto] <;> grind -linarith

theorem Inv.init_locked (h : Inv s q) (hp : s.pc n = .init) :
    Inv (goto { s with locked := Function.update s.locked n true } n .exchange) q := by
  have hn : n ∉ q := fun hm => by simpa [hp, Pc.queued] using (h.mem n).mp hm
  have hhd : ∀ a, q.head? = some a → a ∈ q := fun a ha => List.mem_of_head? ha
  obtain ⟨hnodup, hmem, htail, hhead, hwaits, hlast, hawait, hhandoff, hinit, hexchange, l, hexchanged, hentered⟩ := h
  refine ⟨hnodup, ?_, htail, ?_, ?_, ?_, ?_, ?_, ?_, ?_, l, hexchanged, ?_⟩ <;> simp only [goto] <;> grind -linarith

/-- The exchange finds the queue empty. -/
theorem Inv.exchange_first (h : Inv s []) (hp : s.pc n = .exchange) :
    Inv (enter { s with tail := some n, exchanged := s.exchanged ++ [n] } n) [n] := by
  have hsucc : ∀ a b, ¬ Succ [n] a b := fun a b hs => by
    rcases succ_cons.mp hs with ⟨-, h⟩ | h
    · simp at h
    · simpa using h.mem_left
  obtain ⟨hnodup, hmem, htail, hhead, hwaits, hlast, hawait, hhandoff, hinit, hexchange, l, hexchanged, hentered⟩ := h
  have he : s.entered = l := by
    rcases hentered with ⟨he, -⟩ | ⟨a, ha, -⟩
    · exact he
    · cases ha
  refine ⟨by simp, ?_, rfl, ?_, fun a b hs => absurd hs (hsucc a b), ?_, ?_, ?_, ?_, ?_,
    l, by simp [enter, goto, hexchanged], .inr ⟨n, rfl, ?_, by simp [enter, he]⟩⟩ <;> simp only [enter, goto]
  · grind -linarith
  · grind -linarith
  · grind -linarith
  · intro a ha
    by_cases e : a = n
    · simp [e] at ha
    · simpa using Ne.symm e
  · grind -linarith
  · grind -linarith
  · grind -linarith
  · simp [Pc.inside]

/-- The exchange finds the last node of the queue. -/
theorem Inv.exchange_behind (h : Inv s q) (hp : s.pc n = .exchange) (hl : q.getLast? = some a) :
    Inv (goto { s with tail := some n, exchanged := s.exchanged ++ [n] } n (.link a)) (q ++ [n]) := by
  have hn : n ∉ q := fun hm => by simpa [hp, Pc.queued] using (h.mem n).mp hm
  have hne : ∀ b ∈ q, b ≠ n := fun b hb e => hn (e ▸ hb)
  have hhd : ∀ b, (q ++ [n]).head? = some b ↔ q.head? = some b := fun b => by
    cases q with
    | nil => cases hl
    | cons c q => simp
  have hls : ∀ b, (q ++ [n]).getLast? = some b ↔ b = n := fun b => by simp [eq_comm]
  have hmem : ∀ b, q.head? = some b → b ∈ q := fun b hb => List.mem_of_head? hb
  obtain ⟨hnodup, hmem₀, htail, hhead, hwaits, hlast, hawait, hhandoff, hinit, hexchange, l, hexchanged, hentered⟩ := h
  have hnd : (q ++ [n]).Nodup := List.nodup_append.mpr ⟨hnodup, List.nodup_singleton n, by simpa using hne⟩
  refine ⟨hnd, ?_, by simp [goto], ?_, ?_, ?_, ?_, ?_, ?_, ?_, l, by simp [goto, hexchanged], ?_⟩ <;>
    simp only [goto, hhd, hls, ne_eq]
  · grind -linarith
  · grind -linarith
  · intro b c hs
    rcases succ_append.mp hs with hs | ⟨hb, rfl⟩
    · have := hne c hs.mem_right
      simpa [this] using hwaits b c hs
    · obtain rfl : a = b := Option.some.inj (hl.symm.trans hb)
      exact ⟨hexchange c hp, .inl ⟨by simp, hlast a hl⟩⟩
  · grind -linarith
  · intro b hb e
    simp [e] at hb
  · grind -linarith
  · grind -linarith
  · grind -linarith
  · rcases hentered with ⟨he, hs⟩ | ⟨b, hb, hi, he⟩
    · refine .inl ⟨he, fun b hb => ?_⟩
      rw [Function.update_of_ne (hne b (hmem b hb))]
      exact hs b hb
    · refine .inr ⟨b, hb, ?_, he⟩
      rwa [Function.update_of_ne (hne b (hmem b hb))]

theorem Inv.link (h : Inv s q) (hp : s.pc n = .link a) :
    Inv (goto { s with next := Function.update s.next a (some n) } n .spin) q := by
  have hs := h.pred_of_link hp
  have hnh := hs.ne_head h.nodup
  have hnl := hs.ne_last h.nodup
  have hnx : s.next a = none := by
    rcases (h.waits a n hs).2 with ⟨-, hx⟩ | ⟨hx, -⟩
    · exact hx
    · simp [hp] at hx
  have hru : ∀ b c, Succ q b c → b = a → c = n := fun b c hbc e => Succ.right_unique h.nodup (e ▸ hbc) hs
  have hlu : ∀ b, Succ q b n → b = a := fun b hb => Succ.left_unique h.nodup hb hs
  obtain ⟨hnodup, hmem, htail, hhead, hwaits, hlast, hawait, hhandoff, hinit, hexchange, l, hexchanged, hentered⟩ := h
  refine ⟨hnodup, ?_, htail, ?_, ?_, ?_, ?_, ?_, ?_, ?_, l, hexchanged, ?_⟩ <;> simp only [goto]
  · grind -linarith
  · grind -linarith
  · intro b c hbc
    have := hwaits b c hbc
    by_cases hc : c = n
    · obtain rfl := hc
      obtain rfl := hlu b hbc
      exact ⟨this.1, .inr ⟨by simp, by simp⟩⟩
    · have hb : b ≠ a := fun e => hc (hru b c hbc e)
      simpa [hc, hb] using this
  · grind -linarith
  · grind -linarith
  · grind -linarith
  · grind -linarith
  · grind -linarith
  · grind -linarith

/-- A waiter finds that the lock was handed to it. -/
theorem Inv.enter (h : Inv s q) (hp : s.pc n = .spin) (hl : s.locked n = false) : Inv (enter s n) q := by
  have hm : n ∈ q := (h.mem n).mpr (by rw [hp]; rfl)
  have hh : q.head? = some n := by
    by_contra hh
    obtain ⟨a, ha⟩ := exists_pred hm hh
    simp [(h.waits a n ha).1] at hl
  have hsn : ∀ a b, Succ q a b → b ≠ n := fun a b hs e => hs.ne_head h.nodup (e ▸ hh)
  obtain ⟨hnodup, hmem, htail, hhead, hwaits, hlast, hawait, hhandoff, hinit, hexchange, l, hexchanged, hentered⟩ := h
  refine ⟨hnodup, ?_, htail, ?_, ?_, ?_, ?_, ?_, ?_, ?_, l, hexchanged, .inr ⟨n, hh, ?_, ?_⟩⟩ <;>
    simp only [Mcs.enter, goto]
  · grind -linarith
  · grind -linarith
  · intro a b hs
    simpa [hsn a b hs] using hwaits a b hs
  · grind -linarith
  · grind -linarith
  · grind -linarith
  · grind -linarith
  · grind -linarith
  · simp [Pc.inside]
  · rcases hentered with ⟨he, -⟩ | ⟨a, ha, hi, -⟩
    · rw [he]
    · obtain rfl : a = n := Option.some.inj (ha.symm.trans hh)
      simp [hp, Pc.inside] at hi

/-- The releaser moves on. -/
theorem Inv.goto (h : Inv s q) {pc : Pc} (hp : (s.pc n).inside = true) (hpc : pc.inside = true)
    (hw : pc = .await → q.getLast? ≠ some n) (hh : ∀ b, pc = .handoff b → s.next n = some b) : Inv (goto s n pc) q := by
  have hhd := h.head_of_inside hp
  have hsn : ∀ a b, Succ q a b → b ≠ n := fun a b hs e => hs.ne_head h.nodup (e ▸ hhd)
  have hq : pc.queued = true := by cases pc <;> simp_all [Pc.inside, Pc.queued]
  have hq' : (s.pc n).queued = true := (h.mem n).mp (List.mem_of_head? hhd)
  obtain ⟨hnodup, hmem, htail, hhead, hwaits, hlast, hawait, hhandoff, hinit, hexchange, l, hexchanged, hentered⟩ := h
  refine ⟨hnodup, ?_, htail, ?_, ?_, ?_, ?_, ?_, ?_, ?_, l, hexchanged, ?_⟩ <;> simp only [Mcs.goto]
  · grind -linarith
  · grind -linarith
  · intro a b hs
    simpa [hsn a b hs] using hwaits a b hs
  · grind -linarith
  · grind -linarith
  · grind -linarith
  · grind -linarith
  · grind -linarith
  · rcases hentered with ⟨he, hs⟩ | ⟨a, ha, hi, he⟩
    · simp [hs n hhd, Pc.inside] at hp
    · obtain rfl : a = n := Option.some.inj (ha.symm.trans hhd)
      exact .inr ⟨a, ha, by simpa using hpc, he⟩

/-- The releaser was the last one. -/
theorem Inv.clear (h : Inv s q) (hp : s.pc n = .cas) (ht : s.tail = some n) :
    Inv (Mcs.goto { s with tail := none } n .idle) [] := by
  have hhd := h.head_of_inside (n := n) (by rw [hp]; rfl)
  have hq : q = [n] := by
    obtain ⟨k, rfl⟩ := List.head?_eq_some_iff.mp hhd
    cases k with
    | nil => rfl
    | cons b k =>
      have hs : Succ (n :: b :: k) n b := ⟨0, rfl, rfl⟩
      exact absurd (h.tail.symm.trans ht) (hs.ne_last h.nodup)
  subst hq
  obtain ⟨hnodup, hmem, htail, hhead, hwaits, hlast, hawait, hhandoff, hinit, hexchange, l, hexchanged, hentered⟩ := h
  refine ⟨List.nodup_nil, ?_, rfl, by simp, fun a b hs => ?_, by simp, by simp, ?_, ?_, ?_, l ++ [n], ?_, ?_⟩ <;>
    simp only [Mcs.goto]
  · grind -linarith
  · simpa using hs.mem_left
  · grind -linarith
  · grind -linarith
  · grind -linarith
  · simpa using hexchanged
  · refine .inl ⟨?_, by simp⟩
    rcases hentered with ⟨he, hs⟩ | ⟨a, ha, hi, he⟩
    · simp [hs n rfl] at hp
    · obtain rfl : a = n := by simpa using ha.symm
      exact he

/-- The lock is handed to the successor. -/
theorem Inv.handedOff (h : Inv s q) (hp : s.pc n = .handoff b) :
    Inv (Mcs.goto { s with locked := Function.update s.locked b false } n .idle) q.tail := by
  have hhd := h.head_of_inside (n := n) (by rw [hp]; rfl)
  obtain ⟨hs, hb⟩ := h.succ_of_next (List.mem_of_head? hhd) (h.handoff n b hp)
  obtain ⟨k, rfl⟩ := List.head?_eq_some_iff.mp hhd
  have hnd := List.nodup_cons.mp h.nodup
  have hkh : k.head? = some b := by
    rcases succ_cons.mp hs with ⟨-, hk⟩ | hk
    · exact hk
    · exact absurd hk.mem_left hnd.1
  have hkl : (n :: k).getLast? = k.getLast? := by
    obtain ⟨k, rfl⟩ := List.head?_eq_some_iff.mp hkh
    rfl
  have hne : ∀ c ∈ k, c ≠ n := fun c hc e => hnd.1 (e ▸ hc)
  have hsb : ∀ c d, Succ k c d → d ≠ b := fun c d hs e => hs.ne_head hnd.2 (e ▸ hkh)
  have hlm : ∀ c, k.getLast? = some c → c ∈ k := fun c hc => List.mem_of_getLast? hc
  obtain ⟨hnodup, hmem, htail, hhead, hwaits, hlast, hawait, hhandoff, hinit, hexchange, l, hexchanged, hentered⟩ := h
  rw [hkl] at htail hlast
  simp only [hkl] at hawait
  refine ⟨hnd.2, ?_, htail, ?_, ?_, ?_, ?_, ?_, ?_, ?_, l ++ [n], by simpa [Mcs.goto] using hexchanged, ?_⟩ <;>
    simp only [Mcs.goto, List.tail_cons]
  · intro c
    by_cases e : c = n
    · simp [e, hnd.1, Pc.queued]
    · rw [Function.update_of_ne e, ← hmem c, List.mem_cons, or_iff_right e]
  · intro c hc
    obtain rfl : b = c := Option.some.inj (hkh.symm.trans hc)
    have := hne b (List.mem_of_head? hkh)
    exact .inr ⟨by rwa [Function.update_of_ne this], by simp⟩
  · intro c d hcd
    have hd := hne d hcd.mem_right
    have := hwaits c d (succ_cons.mpr (.inr hcd))
    simpa [hd, hsb c d hcd] using this
  · exact hlast
  · grind -linarith
  · grind -linarith
  · grind -linarith
  · grind -linarith
  · refine .inl ⟨?_, fun c hc => ?_⟩
    · rcases hentered with ⟨he, hs⟩ | ⟨a, ha, hi, he⟩
      · simp [hs n rfl] at hp
      · obtain rfl : n = a := by simpa using ha
        exact he
    · obtain rfl : b = c := Option.some.inj (hkh.symm.trans hc)
      rwa [Function.update_of_ne (hne b (List.mem_of_head? hkh))]

theorem Inv.loaded (h : Inv s q) {pc : Pc} (hp : (s.pc n).inside = true) (hpc : pc = .cas ∨ pc = .await)
    (hw : pc = .await → q.getLast? ≠ some n) : Inv (loaded s n pc) q := by
  unfold Mcs.loaded
  split
  · exact h.goto hp (by rcases hpc with rfl | rfl <;> rfl) hw (by rcases hpc with rfl | rfl <;> simp)
  · rename_i b hb
    exact h.goto hp rfl (by simp) (by simp [hb])

/-- The step lemma for a thread inside a call. -/
theorem Inv.next (h : Inv s q) (hs : next s n = some s') : ∃ q', Inv s' q' := by
  unfold Mcs.next at hs
  split at hs
  · cases hs
  · cases hs
  · rename_i hp
    exact ⟨q, Option.some.inj hs ▸ h.init_locked hp⟩
  · rename_i hp
    dsimp only at hs
    split at hs
    · rename_i ht
      obtain rfl : q = [] := List.getLast?_eq_none_iff.mp (h.tail.symm.trans ht)
      exact ⟨_, Option.some.inj hs ▸ h.exchange_first hp⟩
    · rename_i a ht
      exact ⟨_, Option.some.inj hs ▸ h.exchange_behind hp (h.tail.symm.trans ht)⟩
  · rename_i a hp
    exact ⟨q, Option.some.inj hs ▸ h.link hp⟩
  · rename_i hp
    split_ifs at hs with hl
    · exact ⟨q, Option.some.inj hs ▸ h⟩
    · exact ⟨q, Option.some.inj hs ▸ h.enter hp (by simpa using hl)⟩
  · rename_i hp
    split_ifs at hs with ht
    · exact ⟨_, Option.some.inj hs ▸ h.clear hp ht⟩
    · refine ⟨q, Option.some.inj hs ▸ h.goto (by rw [hp]; rfl) rfl (fun _ => ?_) (by simp)⟩
      rwa [← h.tail]
  · rename_i hp
    exact ⟨q, Option.some.inj hs ▸ h.loaded (by rw [hp]; rfl) (.inr rfl) fun _ => h.await n hp⟩
  · rename_i b hp
    exact ⟨_, Option.some.inj hs ▸ h.handedOff hp⟩

theorem Inv.step (h : Inv s q) {a : Act} (hs : step s a = some s') : ∃ q', Inv s' q' := by
  cases a with simp only [Mcs.step] at hs
  | acquire n =>
    simp only [Option.ite_none_right_eq_some, Option.some.injEq] at hs
    obtain ⟨hp, rfl⟩ := hs
    exact ⟨q, h.acquire hp⟩
  | release n =>
    simp only [Option.ite_none_right_eq_some, Option.some.injEq] at hs
    obtain ⟨hp, rfl⟩ := hs
    exact ⟨q, h.loaded (by rw [hp]; rfl) (.inl rfl) (by simp)⟩
  | next n => exact h.next hs

theorem inv_initial (next : Nat → Option Nat) (locked : Nat → Bool) : Inv (State.initial next locked) [] := by
  have hs : ∀ a b, ¬ Succ [] a b := fun a b hs => by simpa using hs.mem_left
  refine ⟨List.nodup_nil, ?_, rfl, by simp, fun a b h => absurd h (hs a b), by simp, ?_, ?_, ?_, ?_, [], rfl,
    .inl ⟨rfl, by simp⟩⟩ <;> simp [State.initial, Pc.queued]

/-- Every state of every run of any number of threads is safe. -/
theorem mcs_lock_safe (s : State) (h : machine.Reach s) : Safe s := by
  obtain ⟨q, hq⟩ : ∃ q, Inv s q := by
    refine h.invariant (I := fun s => ∃ q, Inv s q) ?_ ?_
    · rintro s ⟨next, locked, rfl⟩
      exact ⟨[], inv_initial next locked⟩
    · rintro s s' a - ⟨q, hq⟩ hs
      exact hq.step hs
  exact hq.safe

/-- Node 2 is exchanged behind node 1, whose release finds no link yet and
fails to clear `tail`; it hands the lock over once the link is there, and node
1 is used again. -/
def lateLink : List Act :=
  [.acquire 1, .next 1, .next 1, .acquire 2, .next 2, .next 2, .release 1, .next 1, .next 1, .next 2, .next 1, .next 2,
    .next 1, .next 2, .acquire 1, .next 1, .next 1]

theorem mcs_lock_safe_late :
    ∃ s, machine.Reach s ∧ s.entered = [1, 2] ∧ s.exchanged = [1, 2, 1] ∧ s.pc 1 = .link 2 ∧ Safe s := by
  obtain ⟨s, hs, hp⟩ := Machine.exists_reach_of_run (M := machine)
    (s := State.initial (fun _ => none) fun _ => false) (l := lateLink)
    (p := fun s => s.entered == [1, 2] && s.exchanged == [1, 2, 1] && s.pc 1 == .link 2) ⟨_, _, rfl⟩ (by decide +kernel)
  simp only [Bool.and_eq_true, beq_iff_eq] at hp
  exact ⟨s, hs, hp.1.1, hp.1.2, hp.2, mcs_lock_safe s hs⟩

end Dlsmc.Mcs
