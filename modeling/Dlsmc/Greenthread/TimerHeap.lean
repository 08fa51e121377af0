import Mathlib.Data.List.Nodup
import Mathlib.Data.List.Perm.Basic
import Dlsmc.Framework.HeapOrder
import Dlsmc.Greenthread.Timer

/-!
# The timer heap as a queue

`timer_heap_push` and `timer_heap_remove` on their own, in any order and with
any deadlines (`heapMachine`), where the nodes pushed get increasing sequence
numbers. In every state the heap is the queue that it should be
(`timer_heap_queue`): the nodes pushed and not removed, each at its index, the
least first; and taken out one by one, they come by deadline, and for one
deadline in the order in which they were pushed.
-/

namespace Dlsmc.Timer

/-- `timer_heap_push`; `none` is the status of a failure. -/
def timerHeapPush (s : State) (e : Env) (n : Nat) : Option State :=
  (grow s e).map fun capacity => { s with heap := s.heap.push (timerLess s) n, capacity := capacity }

/-- `timer_heap_remove`; `none` is a null result. -/
def timerHeapRemove (s : State) (i : Nat) : Option (Nat × State) :=
  (s.heap.remove (timerLess s) SIZE_MAX i).map fun (n, heap) => (n, { s with heap := heap })

/-- A registration pushes its node. -/
theorem registerNode_heap (s : State) (t n : Nat) (w : Wait) (capacity : Nat) :
    (registerNode s t n w capacity).heap =
      s.heap.push (timerLess { s with
        deadline := Function.update s.deadline n w.deadline
        sequence := Function.update s.sequence n s.timerSequence }) n := by
  simp only [registerNode]
  split <;> (try unfold signal; split) <;> rfl

/-- A node that leaves `TIMER_WAITING` is removed. -/
theorem leave_heap {s s' : State} {i n m : Nat} {st : TimerState} (h : timerHeapRemove s i = some (m, s')) :
    (leave s i n st).heap = s'.heap := by
  obtain ⟨⟨m', heap⟩, hr, he⟩ := Option.map_eq_some_iff.mp h
  cases he
  simp only [leave, hr]

/-- The nodes that are left, taken out at index 0 one by one. -/
def timerHeapDrain : Nat → State → List Nat
  | 0, _ => []
  | k + 1, s =>
    match timerHeapRemove s 0 with
    | none => []
    | some (n, s') => n :: timerHeapDrain k s'

/-- The timers of a runtime, the nodes in the heap in the order in which they
were pushed, and a number above all sequence numbers. -/
structure Queue where
  timer : State
  nodes : List Nat
  next : Nat

inductive HeapOp where
  /-- `timer_heap_push` of a node with its deadline and its sequence number. -/
  | push (n deadline sequence : Nat) (e : Env)
  /-- `timer_heap_remove` -/
  | remove (i : Nat)

/-- The node with what it is compared by. -/
def setNode (s : State) (n d q : Nat) : State :=
  { s with deadline := Function.update s.deadline n d, sequence := Function.update s.sequence n q }

def heapStep (q : Queue) : HeapOp → Option Queue
  | .push n d seq e =>
    if n ∈ q.nodes ∨ seq < q.next then none
    else
      match timerHeapPush (setNode q.timer n d seq) e n with
      | none => some ⟨setNode q.timer n d seq, q.nodes, seq + 1⟩
      | some s => some ⟨s, q.nodes ++ [n], seq + 1⟩
  | .remove i =>
    match timerHeapRemove q.timer i with
    | none => some q
    | some (n, s) => some ⟨s, q.nodes.erase n, q.next⟩

def heapMachine : Machine Queue HeapOp where
  init := fun q => q = ⟨State.initial, [], 0⟩
  step := heapStep

/-- The nodes of the heap, in the order of the array. -/
def heapNodes (s : State) : List Nat := (List.range s.heap.count).map s.heap.arr

/-- The heap is the queue of its nodes. -/
structure QueueOk (q : Queue) : Prop where
  ordered : q.timer.heap.Ordered (timerLess q.timer)
  index : ∀ i < q.timer.heap.count, q.timer.heap.index (q.timer.heap.arr i) = i
  once : (heapNodes q.timer).Nodup
  nodes : (heapNodes q.timer).Perm q.nodes
  least : ∀ n ∈ q.nodes, n ≠ q.timer.heap.arr 0 → timerLess q.timer (q.timer.heap.arr 0) n = true
  drain : (timerHeapDrain q.timer.heap.count q.timer).Perm q.nodes
  sorted : (timerHeapDrain q.timer.heap.count q.timer).Pairwise fun a b => q.timer.deadline a < q.timer.deadline b ∨
    q.timer.deadline a = q.timer.deadline b ∧ q.nodes.idxOf a < q.nodes.idxOf b
  /-- `timer_heap_remove` returns the node at the index, and marks it. -/
  removes : ∀ i < q.timer.heap.count, ∃ s, timerHeapRemove q.timer i = some (q.timer.heap.arr i, s) ∧
    s.heap.index (q.timer.heap.arr i) = SIZE_MAX ∧ ((heapNodes s).Perm (q.nodes.erase (q.timer.heap.arr i)))
  absent : ∀ i, q.timer.heap.count ≤ i → timerHeapRemove q.timer i = none
  /-- A push that cannot grow the heap leaves it alone. -/
  refused : ∀ n d seq e, grow q.timer e = none → ∀ q', heapStep q (.push n d seq e) = some q' →
    q'.timer.heap = q.timer.heap ∧ q'.timer.capacity = q.timer.capacity ∧ q'.nodes = q.nodes
  /-- The loops of `timer_heap_up` and `timer_heap_down` end: more rounds change
  nothing. -/
  up : ∀ (h : IndexedHeap Nat) (i n : Nat), i ≤ n → h.up (timerLess q.timer) n i = h.up (timerLess q.timer) i i
  down : ∀ (h : IndexedHeap Nat) (i n m : Nat), h.count ≤ n + i + 1 → h.count ≤ m + i + 1 →
    h.down (timerLess q.timer) n i = h.down (timerLess q.timer) m i

/-! ## The invariant -/

theorem weakOrder_timerLess (s : State) : WeakOrder (timerLess s) where
  asymm {a b} h := by
    simp only [timerLess, decide_eq_true_eq, decide_eq_false_iff_not] at h ⊢
    omega
  trans {a b c} h h' := by
    simp only [timerLess, decide_eq_false_iff_not] at h h' ⊢
    omega

structure QueueInv (q : Queue) : Prop where
  ordered : q.timer.heap.Ordered (timerLess q.timer)
  indexed : q.timer.heap.Indexed
  mem : ∀ n, q.timer.heap.Mem n ↔ n ∈ q.nodes
  below : ∀ n ∈ q.nodes, q.timer.sequence n < q.next
  pushed : q.nodes.Pairwise fun a b => q.timer.sequence a < q.timer.sequence b

variable {q q' : Queue} {s s' : State} {n i : Nat}

theorem QueueInv.nodup (h : QueueInv q) : q.nodes.Nodup := by
  refine h.pushed.imp ?_
  rintro a _ hlt rfl
  exact Nat.lt_irrefl _ hlt

theorem timerHeapRemove_spec (hi : s.heap.Indexed) (ho : s.heap.Ordered (timerLess s)) (hlt : i < s.heap.count) :
    ∃ heap, timerHeapRemove s i = some (s.heap.arr i, { s with heap := heap }) ∧
      s.heap.Without heap (s.heap.arr i) ∧ heap.Ordered (timerLess s) ∧ heap.index (s.heap.arr i) = SIZE_MAX := by
  obtain ⟨heap, hr, hw⟩ := IndexedHeap.remove_spec (timerLess s) SIZE_MAX hi hlt
  refine ⟨heap, by rw [timerHeapRemove, hr]; rfl, hw, ho.remove (weakOrder_timerLess s) hr, ?_⟩
  rw [IndexedHeap.remove, if_pos hlt, Option.some.injEq, Prod.mk.injEq] at hr
  rw [← hr.2]
  exact Function.update_self _ _ _

theorem timerHeapRemove_none (hlt : s.heap.count ≤ i) : timerHeapRemove s i = none := by
  rw [timerHeapRemove, IndexedHeap.remove, if_neg (Nat.not_lt.mpr hlt)]
  rfl

theorem QueueInv.push (h : QueueInv q) {d seq : Nat} {e : Env} (hn : n ∉ q.nodes) (hseq : q.next ≤ seq)
    (hs : timerHeapPush (setNode q.timer n d seq) e n = some s) : QueueInv ⟨s, q.nodes ++ [n], seq + 1⟩ := by
  obtain ⟨capacity, -, rfl⟩ := Option.map_eq_some_iff.mp hs
  have hm : ¬q.timer.heap.Mem n := fun hm => hn ((h.mem n).mp hm)
  have hne : ∀ x, q.timer.heap.Mem x → x ≠ n := fun x hx e => hm (e ▸ hx)
  obtain ⟨-, hindexed, hmem⟩ := IndexedHeap.push_spec (timerLess (setNode q.timer n d seq)) h.indexed hm
  have hsame : q.timer.heap.Ordered (timerLess (setNode q.timer n d seq)) := h.ordered.congr fun x y hx hy => by
    simp only [timerLess, setNode, Function.update_of_ne (hne x hx), Function.update_of_ne (hne y hy)]
  have hold : ∀ x ∈ q.nodes, Function.update q.timer.sequence n seq x = q.timer.sequence x := fun x hx =>
    Function.update_of_ne (hne x ((h.mem x).mpr hx)) _ _
  refine ⟨hsame.push (weakOrder_timerLess _) n, hindexed, fun x => (hmem x).trans ?_, fun x hx => ?_, ?_⟩
  · rw [h.mem x, List.mem_append, List.mem_singleton, or_comm]
  · show Function.update q.timer.sequence n seq x < seq + 1
    rcases List.mem_append.mp hx with hx | hx
    · rw [hold x hx]
      have := h.below x hx
      omega
    · rw [List.mem_singleton.mp hx, Function.update_self]
      exact Nat.lt_succ_self seq
  · refine List.pairwise_append.mpr ⟨h.pushed.imp_of_mem fun {x y} hx hy hlt => ?_, List.pairwise_singleton _ _,
      fun x hx y hy => ?_⟩
    · show Function.update q.timer.sequence n seq x < Function.update q.timer.sequence n seq y
      rwa [hold x hx, hold y hy]
    · show Function.update q.timer.sequence n seq x < Function.update q.timer.sequence n seq y
      rw [hold x hx, List.mem_singleton.mp hy, Function.update_self]
      have := h.below x hx
      omega

theorem QueueInv.refused (h : QueueInv q) {d seq : Nat} (hn : n ∉ q.nodes) (hseq : q.next ≤ seq) :
    QueueInv ⟨setNode q.timer n d seq, q.nodes, seq + 1⟩ := by
  have hne : ∀ x ∈ q.nodes, x ≠ n := fun x hx e => hn (e ▸ hx)
  have hold : ∀ x ∈ q.nodes, Function.update q.timer.sequence n seq x = q.timer.sequence x := fun x hx =>
    Function.update_of_ne (hne x hx) _ _
  refine ⟨h.ordered.congr fun x y hx hy => ?_, h.indexed, h.mem, fun x hx => ?_,
    h.pushed.imp_of_mem fun {x y} hx hy hlt => ?_⟩
  · simp only [timerLess, setNode, Function.update_of_ne (hne x ((h.mem x).mp hx)),
      Function.update_of_ne (hne y ((h.mem y).mp hy))]
  · show Function.update q.timer.sequence n seq x < seq + 1
    rw [hold x hx]
    have := h.below x hx
    omega
  · show Function.update q.timer.sequence n seq x < Function.update q.timer.sequence n seq y
    rwa [hold x hx, hold y hy]

theorem QueueInv.remove (h : QueueInv q) (hs : timerHeapRemove q.timer i = some (n, s)) :
    QueueInv ⟨s, q.nodes.erase n, q.next⟩ := by
  rcases Nat.lt_or_ge i q.timer.heap.count with hlt | hge
  · obtain ⟨heap, hr, hw, ho, -⟩ := timerHeapRemove_spec h.indexed h.ordered hlt
    obtain ⟨rfl, rfl⟩ := Prod.mk.inj (Option.some.inj (hr.symm.trans hs))
    refine ⟨ho, hw.indexed, fun x => (hw.mem x).trans ?_, fun x hx => h.below x (List.mem_of_mem_erase hx),
      h.pushed.sublist List.erase_sublist⟩
    rw [h.mem x, h.nodup.mem_erase_iff]
  · rw [timerHeapRemove_none hge] at hs
    cases hs

theorem QueueInv.step (h : QueueInv q) {o : HeapOp} (hs : heapStep q o = some q') : QueueInv q' := by
  cases o with
  | push n d seq e =>
    simp only [heapStep] at hs
    split at hs
    · cases hs
    · rename_i hg
      obtain ⟨hn, hseq⟩ : n ∉ q.nodes ∧ q.next ≤ seq := by simpa using hg
      split at hs
      · cases hs
        exact h.refused hn hseq
      · rename_i s hp
        cases hs
        exact h.push hn hseq hp
  | remove i =>
    simp only [heapStep] at hs
    split at hs
    · cases hs
      exact h
    · rename_i hr
      cases hs
      exact h.remove hr

theorem queueInv_of_reach (h : heapMachine.Reach q) : QueueInv q := by
  refine h.invariant (fun q hq => ?_) fun q q' o _ hi hs => hi.step hs
  obtain rfl : q = ⟨State.initial, [], 0⟩ := hq
  exact ⟨fun k hk => absurd hk (Nat.not_lt_zero k), fun k hk => absurd hk (Nat.not_lt_zero k),
    fun x => ⟨fun ⟨k, hk, _⟩ => absurd hk (Nat.not_lt_zero k), fun hx => absurd hx List.not_mem_nil⟩,
    fun x hx => absurd hx List.not_mem_nil, List.Pairwise.nil⟩

/-! ## What is in the heap -/

theorem mem_heapNodes : n ∈ heapNodes s ↔ s.heap.Mem n := by
  simp only [heapNodes, List.mem_map, List.mem_range, IndexedHeap.Mem]

theorem nodup_heapNodes (hi : s.heap.Indexed) : (heapNodes s).Nodup :=
  List.nodup_range.map_on fun _ hk _ hl e => hi.inj (List.mem_range.mp hk) (List.mem_range.mp hl) e

/-- Nodes taken out one by one come in order. -/
theorem timerHeapDrain_spec : ∀ {k : Nat} {s : State}, s.heap.Indexed → s.heap.Ordered (timerLess s) →
    s.heap.count = k → (∀ n, n ∈ timerHeapDrain k s ↔ s.heap.Mem n) ∧ (timerHeapDrain k s).Nodup ∧
      (timerHeapDrain k s).Pairwise fun a b => timerLess s b a = false
  | 0, s, _, _, hk =>
    ⟨fun n => ⟨fun hn => absurd hn List.not_mem_nil, fun ⟨i, hi, _⟩ => absurd hi (by omega)⟩, List.nodup_nil,
      List.Pairwise.nil⟩
  | k + 1, s, hi, ho, hk => by
    obtain ⟨heap, hr, hw, ho', -⟩ := timerHeapRemove_spec hi ho (by omega : 0 < s.heap.count)
    have hcount := hw.count
    obtain ⟨hmem, hnd, hp⟩ := @timerHeapDrain_spec k { s with heap := heap } hw.indexed ho' (by simp only; omega)
    simp only [timerHeapDrain, hr]
    refine ⟨fun n => ?_, List.nodup_cons.mpr ⟨fun hm => ?_, hnd⟩, List.pairwise_cons.mpr ⟨fun b hb => ?_, hp⟩⟩
    · rw [List.mem_cons, hmem n, hw.mem n]
      constructor
      · rintro (rfl | ⟨-, hm⟩)
        · exact ⟨0, by omega, rfl⟩
        · exact hm
      · intro hm
        exact (Decidable.em (n = s.heap.arr 0)).imp id fun hne => ⟨hne, hm⟩
    · exact ((hw.mem _).mp ((hmem _).mp hm)).1 rfl
    · obtain ⟨j, hj, rfl⟩ := ((hw.mem b).mp ((hmem b).mp hb)).2
      exact ho.least (weakOrder_timerLess s) hj

/-- In a list with increasing numbers, a smaller number comes first. -/
theorem idxOf_lt_of_lt {l : List Nat} {f : Nat → Nat} (hp : l.Pairwise fun a b => f a < f b) {a b : Nat} (ha : a ∈ l)
    (hb : b ∈ l) (hlt : f a < f b) : l.idxOf a < l.idxOf b := by
  have ha' := List.idxOf_lt_length_of_mem ha
  have hb' := List.idxOf_lt_length_of_mem hb
  rcases Nat.lt_trichotomy (l.idxOf a) (l.idxOf b) with h | h | h
  · exact h
  · exact absurd ((List.idxOf_inj ha).mp h) fun e => Nat.ne_of_lt hlt (by rw [e])
  · have := List.pairwise_iff_getElem.mp hp _ _ hb' ha' h
    rw [List.getElem_idxOf, List.getElem_idxOf] at this
    omega

/-- The timer heap is a priority queue whose nodes know their index, after any
pushes and removals. -/
theorem timer_heap_queue (h : heapMachine.Reach q) : QueueOk q := by
  have hi := queueInv_of_reach h
  have hperm : (heapNodes q.timer).Perm q.nodes :=
    (List.perm_ext_iff_of_nodup (nodup_heapNodes hi.indexed) hi.nodup).mpr fun n => mem_heapNodes.trans (hi.mem n)
  obtain ⟨hmem, hnd, hp⟩ := timerHeapDrain_spec hi.indexed hi.ordered rfl
  -- nodes have different sequence numbers
  have hinj : ∀ a ∈ q.nodes, ∀ b ∈ q.nodes, a ≠ b → q.timer.sequence a ≠ q.timer.sequence b := by
    intro a ha b hb hne heq
    exact hne ((List.inj_on_of_nodup_map (f := q.timer.sequence)
      (List.pairwise_map.mpr (hi.pushed.imp fun hlt => Nat.ne_of_lt hlt)) ha hb heq))
  refine
    { ordered := hi.ordered
      index := hi.indexed
      once := nodup_heapNodes hi.indexed
      nodes := hperm
      least := fun n hn hne => ?_
      drain := (List.perm_ext_iff_of_nodup hnd hi.nodup).mpr fun n => (hmem n).trans (hi.mem n)
      sorted := (hnd.imp_of_mem fun _ _ h => h).and hp |>.imp_of_mem fun ha hb hab => ?_
      removes := fun i hlt => ?_
      absent := fun i => timerHeapRemove_none
      refused := fun n d seq e hg q' hs => ?_
      up := fun h i n => IndexedHeap.up_rounds _
      down := fun h i n m => IndexedHeap.down_rounds _ }
  · obtain ⟨j, hj, rfl⟩ := (hi.mem n).mpr hn
    have hle := hi.ordered.least (weakOrder_timerLess _) hj
    have h0 : q.timer.heap.arr 0 ∈ q.nodes := (hi.mem _).mp ⟨0, by omega, rfl⟩
    have := hinj _ hn _ h0 hne
    simp only [timerLess, decide_eq_true_eq, decide_eq_false_iff_not] at hle ⊢
    omega
  · rename_i a b
    have ha' := (hi.mem a).mp ((hmem a).mp ha)
    have hb' := (hi.mem b).mp ((hmem b).mp hb)
    have hne := hinj a ha' b hb' hab.1
    have hle := hab.2
    simp only [timerLess, decide_eq_false_iff_not] at hle
    rcases Nat.lt_trichotomy (q.timer.deadline a) (q.timer.deadline b) with hd | hd | hd
    · exact .inl hd
    · exact .inr ⟨hd, idxOf_lt_of_lt hi.pushed ha' hb' (by omega)⟩
    · omega
  · obtain ⟨heap, hr, hw, -, habsent⟩ := timerHeapRemove_spec hi.indexed hi.ordered hlt
    refine ⟨_, hr, habsent, ?_⟩
    refine (List.perm_ext_iff_of_nodup (nodup_heapNodes hw.indexed) (hi.nodup.erase _)).mpr fun n => ?_
    rw [mem_heapNodes, hi.nodup.mem_erase_iff, ← hi.mem n]
    exact hw.mem n
  · simp only [heapStep, timerHeapPush] at hs
    split at hs
    · cases hs
    · rw [show grow (setNode q.timer n d seq) e = none from hg] at hs
      cases hs
      exact ⟨rfl, rfl, rfl⟩

/-- Three timers, the second removed while it is the last. -/
theorem timer_heap_queue_three : ∃ q, heapMachine.Reach q ∧ QueueOk q ∧ q.nodes = [0, 2] ∧
    timerHeapDrain 2 q.timer = [2, 0] := by
  obtain ⟨q, hr, hp⟩ := Machine.exists_reach_of_run (M := heapMachine) (s := ⟨State.initial, [], 0⟩)
    (l := [.push 0 9 0 ⟨true, none, true⟩, .push 1 9 1 ⟨true, none, true⟩, .push 2 5 2 ⟨true, none, true⟩, .remove 1])
    (p := fun q => decide (q.nodes = [0, 2] ∧ timerHeapDrain 2 q.timer = [2, 0])) rfl (by decide)
  exact ⟨q, hr, timer_heap_queue hr, of_decide_eq_true hp⟩

end Dlsmc.Timer
