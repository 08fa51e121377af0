import Dlsmc.Framework.LinkQueue

/-!
# Sequences of operations and their specification

`runOps exec s ops` executes operations one after the other and collects what
they return. If each operation, where its specification allows it, does to the
state what the specification does to the abstract one (`Refines`), then so does
every sequence of allowed operations (`Refines.run`).

The second part is an instance for intrusive queues: any number of queues whose
nodes share their links (`Queues`), specified by a list for each (`Queues.Repr`).
-/

namespace Dlsmc

variable {σ τ ω ρ : Type}

/-- Execute operations one after the other; `none` if one of them cannot. -/
def runOps (exec : σ → ω → Option (σ × ρ)) : σ → List ω → Option (σ × List ρ)
  | s, [] => some (s, [])
  | s, o :: ops => (exec s o).bind fun r => (runOps exec r.1 ops).map fun r' => (r'.1, r.2 :: r'.2)

/-- What the specification says of a sequence of operations. -/
def specOps (spec : τ → ω → τ × ρ) : τ → List ω → τ × List ρ
  | l, [] => (l, [])
  | l, o :: ops => ((specOps spec (spec l o).1 ops).1, (spec l o).2 :: (specOps spec (spec l o).1 ops).2)

/-- Each operation is allowed when its turn comes. -/
def Allowed (spec : τ → ω → τ × ρ) (allowed : τ → ω → Prop) : τ → List ω → Prop
  | _, [] => True
  | l, o :: ops => allowed l o ∧ Allowed spec allowed (spec l o).1 ops

/-- An operation does what the specification says; `R n` relates the states
before `n` more operations. -/
def Refines (exec : σ → ω → Option (σ × ρ)) (spec : τ → ω → τ × ρ) (allowed : τ → ω → Prop)
    (R : Nat → σ → τ → Prop) : Prop :=
  ∀ n s l o, R (n + 1) s l → allowed l o → ∃ s', exec s o = some (s', (spec l o).2) ∧ R n s' (spec l o).1

theorem Refines.run {exec : σ → ω → Option (σ × ρ)} {spec : τ → ω → τ × ρ} {allowed : τ → ω → Prop}
    {R : Nat → σ → τ → Prop} (h : Refines exec spec allowed R) {n : Nat} {s : σ} {l : τ} {ops : List ω}
    (hr : R (ops.length + n) s l) (ha : Allowed spec allowed l ops) :
    ∃ s', runOps exec s ops = some (s', (specOps spec l ops).2) ∧ R n s' (specOps spec l ops).1 := by
  induction ops generalizing s l with
  | nil =>
    rw [List.length_nil, Nat.zero_add] at hr
    exact ⟨s, rfl, hr⟩
  | cons o ops ih =>
    have hr' : R (ops.length + n + 1) s l := by
      rwa [List.length_cons, Nat.add_right_comm] at hr
    obtain ⟨s₁, he, hr₁⟩ := h _ s l o hr' ha.1
    obtain ⟨s₂, hrun, hr₂⟩ := ih hr₁ ha.2
    refine ⟨s₂, ?_, hr₂⟩
    simp only [runOps, he, Option.bind_some, hrun, Option.map_some, specOps]

/-! ## First in, first out -/

/-- An operation on one of the queues `ι`. -/
inductive QueueOp (ι α : Type) where
  | push (i : ι) (a : α)
  | pop (i : ι)
  /-- Take the first node if it is not `avoid`. -/
  | popUnless (i : ι) (avoid : Option α)
  /-- Take the first node if there is another one. -/
  | stealSurplus (i : ι)
  | remove (i : ι) (a : α)

inductive QueueResult (α : Type) where
  | done
  | node (a : Option α)
  | removed (queued : Bool)
  deriving DecidableEq

section fifo

variable {ι α : Type} [DecidableEq ι]

/-- Take the first node of `i` if `p` holds of the list. -/
def takeIf (l : ι → List α) (i : ι) (p : Bool) : (ι → List α) × QueueResult α :=
  if p = true then (Function.update l i (l i).tail, .node (l i).head?) else (l, .node none)

theorem takeIf_nil {l : ι → List α} {i : ι} (h : l i = []) (p : Bool) : takeIf l i p = (l, .node none) := by
  unfold takeIf
  split
  · rw [h, List.tail_nil, List.head?_nil, ← h, Function.update_eq_self]
  · rfl

theorem takeIf_cons {l : ι → List α} {i : ι} {a : α} {t : List α} (h : l i = a :: t) :
    takeIf l i true = (Function.update l i t, .node (some a)) := by
  rw [takeIf, if_pos rfl, h, List.tail_cons, List.head?_cons]

variable [DecidableEq α]

/-- What the operations do to the lists of nodes. -/
def fifo (l : ι → List α) : QueueOp ι α → (ι → List α) × QueueResult α
  | .push i a => (Function.update l i (l i ++ [a]), .done)
  | .pop i => takeIf l i true
  | .popUnless i avoid => takeIf l i ((l i).head? ≠ avoid)
  | .stealSurplus i => takeIf l i (1 < (l i).length)
  | .remove i a => (Function.update l i ((l i).erase a), .removed (a ∈ l i))

/-- A node is in at most one queue. -/
def QueueOp.Legal (l : ι → List α) : QueueOp ι α → Prop
  | .push _ a => ∀ j, a ∉ l j
  | _ => True

/-- An operation makes its queue longer by at most one. -/
theorem length_fifo (l : ι → List α) (o : QueueOp ι α) (i : ι) : ((fifo l o).1 i).length ≤ (l i).length + 1 := by
  have take : ∀ j p, ((takeIf l j p).1 i).length ≤ (l i).length + 1 := by
    intro j p
    unfold takeIf
    split
    · by_cases e : i = j
      · subst e
        simp only [Function.update_self, List.length_tail]
        omega
      · simp [Function.update_of_ne e]
    · exact Nat.le_succ _
  cases o with
  | push j a =>
    by_cases e : i = j
    · subst e
      simp [fifo]
    · simp [fifo, Function.update_of_ne e]
  | pop j => exact take j true
  | popUnless j avoid => exact take j _
  | stealSurplus j => exact take j _
  | remove j a =>
    by_cases e : i = j
    · subst e
      have := List.length_erase_le (a := a) (l := l i)
      simp only [fifo, Function.update_self]
      omega
    · simp [fifo, Function.update_of_ne e]

end fifo

/-! ## Queues that share their nodes -/

/-- The ends of the queues `ι`, and the links of all nodes. -/
structure Queues (ι α : Type) where
  next : α → Option α
  head : ι → Option α
  tail : ι → Option α

namespace Queues

variable {ι α : Type}

def links (s : Queues ι α) (i : ι) : Links α := ⟨s.next, s.head i, s.tail i⟩

/-- Each queue holds the nodes of its list, and no node is in two. -/
structure Repr (s : Queues ι α) (l : ι → List α) : Prop where
  repr : ∀ i, (s.links i).Repr (l i)
  disjoint : ∀ i j a, a ∈ l i → a ∈ l j → i = j

variable [DecidableEq ι]

def set (s : Queues ι α) (i : ι) (q : Links α) : Queues ι α :=
  ⟨q.next, Function.update s.head i q.head, Function.update s.tail i q.tail⟩

variable {s : Queues ι α} {l : ι → List α} {i : ι} {q : Links α} {l' : List α} {a : α}

/-- An operation on one queue that leaves the links of the other nodes alone. -/
theorem Repr.set (h : s.Repr l) (hq : q.Repr l') (hn : ∀ a ∈ l', a ∈ l i ∨ ∀ j, a ∉ l j)
    (hf : ∀ j, j ≠ i → ∀ a ∈ l j, q.next a = s.next a) : (s.set i q).Repr (Function.update l i l') := by
  have hmem : ∀ j a, a ∈ Function.update l i l' j → j = i ∧ a ∈ l' ∨ j ≠ i ∧ a ∈ l j := by
    intro j a ha
    by_cases e : j = i
    · subst e
      exact .inl ⟨rfl, by simpa using ha⟩
    · exact .inr ⟨e, by simpa [Function.update_of_ne e] using ha⟩
  refine ⟨fun j => ?_, fun j k a hj hk => ?_⟩
  · by_cases e : j = i
    · subst e
      simpa [links, Queues.set] using hq
    · have hj := h.repr j
      rw [Function.update_of_ne e]
      exact hj.congr (Function.update_of_ne e _ _) (Function.update_of_ne e _ _) (hf j e)
  · rcases hmem j a hj with ⟨rfl, ha⟩ | ⟨hji, ha⟩ <;> rcases hmem k a hk with ⟨rfl, hb⟩ | ⟨hki, hb⟩
    · rfl
    · rcases hn a ha with hi | hno
      · exact h.disjoint _ _ a hi hb
      · exact absurd hb (hno k)
    · rcases hn a hb with hi | hno
      · exact h.disjoint _ _ a ha hi
      · exact absurd ha (hno j)
    · exact h.disjoint j k a ha hb

/-- Taking the first node, whatever is done to its own link. -/
theorem Repr.tail {q : Links α} (h : s.Repr l) {b : α} {l' : List α} (hl : l i = b :: l') (hq : q.Repr l')
    (hf : ∀ a, a ≠ b → q.next a = s.next a) : (s.set i q).Repr (Function.update l i l') := by
  refine h.set hq (fun a ha => .inl (by simp [hl, ha])) (fun j hj a ha => hf a ?_)
  rintro rfl
  exact hj (h.disjoint j i a ha (by simp [hl]))

variable [DecidableEq α]

theorem Repr.push (h : s.Repr l) (ha : ∀ j, a ∉ l j) :
    (s.set i ((s.links i).push a)).Repr (Function.update l i (l i ++ [a])) := by
  refine h.set ((h.repr i).push (ha i)) (fun b hb => ?_) (fun j hj b hb => ?_)
  · rcases List.mem_append.mp hb with hb | hb
    · exact .inl hb
    · obtain rfl := List.mem_singleton.mp hb
      exact .inr ha
  · have hne : b ≠ a := fun e => ha j (e ▸ hb)
    refine Links.push_next_of_ne hne fun ht => hj ?_
    rw [(h.repr i).tail] at ht
    exact h.disjoint j i b hb (List.mem_of_getLast? ht)

theorem Repr.remove (h : s.Repr l) {f : Nat} {b : Bool} {q : Links α} (hr : (s.links i).remove a f = some (b, q)) :
    b = decide (a ∈ l i) ∧ (s.set i q).Repr (Function.update l i ((l i).erase a)) := by
  obtain ⟨hb, hq, hf⟩ := (h.repr i).remove hr
  refine ⟨hb, h.set hq (fun c hc => .inl (List.mem_of_mem_erase hc)) (fun j hj c hc => hf c fun hi => ?_)⟩
  exact hj (h.disjoint j i c hc hi)

end Queues

end Dlsmc
