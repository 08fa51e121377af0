import Mathlib.Data.List.Nodup
import Dlsmc.Framework.Chain

/-!
# Intrusive FIFO queues

A queue of nodes that are linked through a field of their own (`next`), with
pointers to the first and the last node (`Links`): appending a node (`push`),
taking the first (`pop`) and unlinking any node (`remove`), as C code does
them, through the pointer to the link that holds the node.

`Links.Repr q l`: the queue `q` holds the nodes of `l`. `Repr.push`,
`Repr.pop` and `Repr.remove` say what each operation does to `l`. The loops of
`remove` take a bound on the links they follow; a bound above the length of
the queue is enough (`Repr.remove_of_lt`), and with any bound for which they
end they have the same result.
-/

namespace Dlsmc

/-- A queue's first and last node, and the links of all nodes. -/
structure Links (α : Type) where
  next : α → Option α
  head : Option α
  tail : Option α

/-- A pointer to a link: to the queue's `head` or to a node's `next`. -/
inductive Link (α : Type) where
  | head
  | next (a : α)

namespace Links

variable {α : Type}

section ops
variable [DecidableEq α]

/-- Append `n`. -/
def push (q : Links α) (n : α) : Links α :=
  let next := Function.update q.next n none
  match q.tail with
  | some t => ⟨Function.update next t (some n), q.head, some n⟩
  | none => ⟨next, some n, some n⟩

/-- Take the first node; its own link is cleared. -/
def pop (q : Links α) : Option (α × Links α) :=
  match q.head with
  | none => none
  | some n => some (n, ⟨Function.update q.next n none, q.next n, if q.next n = none then none else q.tail⟩)

/-- The pointer a link holds. -/
def deref (q : Links α) : Link α → Option α
  | .head => q.head
  | .next a => q.next a

/-- Store a pointer in a link. -/
def store (q : Links α) (p : Option α) : Link α → Links α
  | .head => { q with head := p }
  | .next a => { q with next := Function.update q.next a p }

/-- `while (*link && *link != node) { link = &(*link)->next; }` -/
def findLink (q : Links α) (n : α) : Nat → Link α → Option (Link α)
  | 0, _ => none
  | f + 1, link =>
    match q.deref link with
    | none => some link
    | some a => if a = n then some link else findLink q n f (.next a)

/-- `while (last && last->next) { last = last->next; }` -/
def last (q : Links α) : Nat → Option α → Option (Option α)
  | 0, _ => none
  | _ + 1, none => some none
  | f + 1, some a =>
    match q.next a with
    | none => some (some a)
    | some b => last q f (some b)

/-- Unlink `n`; whether it was queued. -/
def remove (q : Links α) (n : α) (fuel : Nat) : Option (Bool × Links α) :=
  (q.findLink n fuel .head).bind fun link =>
    if q.deref link = none then some (false, q)
    else
      let q := q.store (q.next n) link
      (if q.tail = some n then (q.last fuel q.head).map fun t => { q with tail := t } else some q).map fun q =>
        (true, { q with next := Function.update q.next n none })

section
-- their equations are made here, once
attribute [local simp] push pop deref store findLink last remove
end

end ops

/-- The queue holds the nodes of `l`, first to last. -/
structure Repr (q : Links α) (l : List α) : Prop where
  chain : IsChain q.next q.head l
  tail : q.tail = l.getLast?

variable {q : Links α} {l : List α} {n : α}

theorem Repr.nodup (h : q.Repr l) : l.Nodup := h.chain.nodup

theorem Repr.head (h : q.Repr l) : q.head = l.head? := by
  have := h.chain
  cases l with
  | nil => exact this
  | cons a l => exact this.1

theorem Repr.head_eq_none (h : q.Repr l) : q.head = none ↔ l = [] := by
  rw [h.head, List.head?_eq_none_iff]

theorem Repr.tail_eq_none (h : q.Repr l) : q.tail = none ↔ l = [] := by
  rw [h.tail, List.getLast?_eq_none_iff]

theorem Repr.unique {l' : List α} (h : q.Repr l) (h' : q.Repr l') : l = l' := h.chain.unique h'.chain

/-- A queue depends only on its ends and the links of its own nodes. -/
theorem Repr.congr {q' : Links α} (h : q.Repr l) (hh : q'.head = q.head) (ht : q'.tail = q.tail)
    (hn : ∀ a ∈ l, q'.next a = q.next a) : q'.Repr l :=
  ⟨hh ▸ h.chain.congr hn, ht.trans h.tail⟩

theorem Repr.tail_of_cons {a : α} (h : q.Repr (a :: l)) [Decidable (q.next a = none)] :
    (if q.next a = none then none else q.tail) = l.getLast? := by
  have hc := h.chain.2
  cases l with
  | nil => rw [if_pos (by simpa using hc)]; rfl
  | cons b l => rw [if_neg (by rw [hc.1]; simp), h.tail, List.getLast?_cons_cons]

/-- The walk to the last node. -/
theorem last_eq {p : Option α} (h : IsChain q.next p l) {f : Nat} {r : Option α} (hr : q.last f p = some r) :
    r = l.getLast? := by
  induction f generalizing p l with
  | zero => simp [last] at hr
  | succ f ih =>
    cases l with
    | nil =>
      rw [IsChain.nil_iff.mp h] at hr
      simpa [last] using hr.symm
    | cons a l =>
      obtain ⟨rfl, hc⟩ := h
      simp only [last] at hr
      cases l with
      | nil =>
        rw [IsChain.nil_iff.mp hc] at hr
        simpa using hr.symm
      | cons b l =>
        rw [hc.1] at hr
        rw [ih (l := b :: l) ⟨rfl, hc.2⟩ hr, List.getLast?_cons_cons]

theorem last_total {p : Option α} (h : IsChain q.next p l) {f : Nat} (hf : l.length < f) : q.last f p ≠ none := by
  induction l generalizing p f with
  | nil =>
    obtain ⟨f, rfl⟩ := Nat.exists_eq_succ_of_ne_zero (Nat.ne_of_gt hf)
    simp [IsChain.nil_iff.mp h, last]
  | cons a l ih =>
    obtain ⟨f, rfl⟩ := Nat.exists_eq_succ_of_ne_zero (Nat.ne_of_gt (Nat.lt_of_le_of_lt (Nat.zero_le _) hf))
    obtain ⟨rfl, hc⟩ := h
    simp only [last]
    cases l with
    | nil => simp [IsChain.nil_iff.mp hc]
    | cons b l =>
      rw [hc.1]
      exact ih ⟨rfl, hc.2⟩ (by simpa using hf)

variable [DecidableEq α]

/-! ## Appending -/

theorem push_next_of_ne {a : α} (ha : a ≠ n) (ht : q.tail ≠ some a) : (q.push n).next a = q.next a := by
  unfold push
  split
  · rename_i t e
    have : a ≠ t := fun h => ht (by rw [e, h])
    simp [Function.update_of_ne this, Function.update_of_ne ha]
  · simp [Function.update_of_ne ha]

/-- A chain whose last node is given a link to `n`. -/
theorem chain_snoc {nx : α → Option α} {p : Option α} {t : α} (h : IsChain nx p (l ++ [t])) (hn : n ∉ l ++ [t]) :
    IsChain (Function.update (Function.update nx n none) t (some n)) p (l ++ [t] ++ [n]) := by
  induction l generalizing p with
  | nil =>
    simp only [List.nil_append, List.mem_singleton] at hn
    obtain ⟨rfl, h⟩ := h
    simp [Function.update_of_ne hn]
  | cons a l ih =>
    have ht : a ≠ t := fun e => by
      have := h.nodup
      simp [e] at this
    have hna : a ≠ n := fun e => hn (by simp [e])
    refine ⟨h.1, ?_⟩
    rw [Function.update_of_ne ht, Function.update_of_ne hna]
    exact ih h.2 fun hm => hn (List.mem_cons_of_mem _ hm)

theorem Repr.push (h : q.Repr l) (hn : n ∉ l) : (q.push n).Repr (l ++ [n]) := by
  have ht := h.tail
  rcases List.eq_nil_or_concat l with rfl | ⟨l, t, rfl⟩
  · simp only [List.getLast?_nil] at ht
    simp only [Links.push, ht]
    exact ⟨by simp, by simp⟩
  · rw [List.concat_eq_append] at *
    have ht : q.tail = some t := by simpa using ht
    simp only [Links.push, ht]
    exact ⟨chain_snoc h.chain hn, by simp⟩

/-! ## Taking the first -/

theorem Repr.pop_nil (h : q.Repr []) : q.pop = none := by
  simp [pop, h.head_eq_none.mpr rfl]

theorem Repr.pop_cons {a : α} (h : q.Repr (a :: l)) : ∃ q', q.pop = some (a, q') ∧ q'.Repr l ∧
    ∀ b, b ≠ a → q'.next b = q.next b := by
  have hh : q.head = some a := h.chain.1
  simp only [pop, hh]
  refine ⟨_, rfl, ⟨?_, h.tail_of_cons⟩, fun b hb => Function.update_of_ne hb _ _⟩
  exact h.chain.2.congr fun b hb =>
    Function.update_of_ne (fun e : b = a => (List.nodup_cons.mp h.nodup).1 (e ▸ hb)) _ _

/-! ## Unlinking -/

/-- The search for a node that is not in the queue ends at the link that holds
`NULL`. -/
theorem findLink_of_notMem {f : Nat} {k k' : Link α} (h : IsChain q.next (q.deref k) l) (hn : n ∉ l)
    (hf : q.findLink n f k = some k') : q.deref k' = none := by
  induction f generalizing k l with
  | zero => simp [findLink] at hf
  | succ f ih =>
    simp only [findLink] at hf
    cases l with
    | nil =>
      have hd : q.deref k = none := h
      rw [hd] at hf
      exact Option.some.inj hf ▸ hd
    | cons a l =>
      rw [h.1] at hf
      simp only at hf
      rw [if_neg fun e => hn (by simp [e])] at hf
      exact ih (k := .next a) h.2 (fun hm => hn (List.mem_cons_of_mem _ hm)) hf

/-- The search for a node of the queue ends at the link to it, which its
predecessors lead to; storing the node's successor there unlinks it. -/
theorem findLink_of_mem {f : Nat} {k k' : Link α} {l₁ l₂ : List α}
    (h : IsChain q.next (q.deref k) (l₁ ++ n :: l₂)) (hl : ∀ a ∈ l₁ ++ n :: l₂, k ≠ .next a)
    (hf : q.findLink n f k = some k') :
    q.deref k' = some n ∧ (k' = k ∨ ∃ a ∈ l₁, k' = .next a) ∧
      IsChain (q.store (q.next n) k').next ((q.store (q.next n) k').deref k) (l₁ ++ l₂) := by
  induction f generalizing k l₁ with
  | zero => simp [findLink] at hf
  | succ f ih =>
    simp only [findLink] at hf
    have hnd := h.nodup
    cases l₁ with
    | nil =>
      obtain ⟨hd, hc⟩ := h
      rw [hd] at hf
      simp only [↓reduceIte] at hf
      obtain rfl := Option.some.inj hf
      refine ⟨hd, .inl rfl, ?_⟩
      simp only [List.nil_append, List.nodup_cons] at hnd
      cases k with
      | head => exact hc
      | next b =>
        have hb : b ∉ l₂ := fun hm => hl b (by simp [hm]) rfl
        simp only [store, deref, Function.update_self, List.nil_append]
        exact hc.congr fun x hx => Function.update_of_ne (fun e : x = b => hb (e ▸ hx)) _ _
    | cons a l₁ =>
      obtain ⟨hd, hc⟩ := h
      have hne : a ≠ n := fun e => by simp [e] at hnd
      rw [hd] at hf
      simp only [if_neg hne] at hf
      have hnd' := (List.nodup_cons.mp hnd).1
      obtain ⟨h₁, h₂, h₃⟩ := ih (k := .next a) hc (fun b hb e => hnd' (by cases e; exact hb)) hf
      refine ⟨h₁, .inr ?_, ?_, h₃⟩
      · rcases h₂ with rfl | ⟨b, hb, rfl⟩
        · exact ⟨a, by simp, rfl⟩
        · exact ⟨b, by simp [hb], rfl⟩
      · have hll : k' ≠ k := by
          rcases h₂ with rfl | ⟨b, hb, rfl⟩
          · exact fun e => hl a (by simp) e.symm
          · exact fun e => hl b (by simp [hb]) e.symm
        -- the link found is further on, so this one still holds `a`
        cases k' with
        | head =>
          cases k with
          | head => exact absurd rfl hll
          | next b => simpa [store, deref] using hd
        | next c =>
          cases k with
          | head => simpa [store, deref] using hd
          | next b =>
            simp only [store, deref]
            rw [Function.update_of_ne fun e => hll (by rw [e])]
            exact hd

theorem findLink_total {k : Link α} (h : IsChain q.next (q.deref k) l) {f : Nat} (hf : l.length < f) :
    q.findLink n f k ≠ none := by
  induction l generalizing k f with
  | nil =>
    obtain ⟨f, rfl⟩ := Nat.exists_eq_succ_of_ne_zero (Nat.ne_of_gt hf)
    simp only [findLink, IsChain.nil_iff.mp h]
    simp
  | cons a l ih =>
    obtain ⟨f, rfl⟩ := Nat.exists_eq_succ_of_ne_zero (Nat.ne_of_gt (Nat.lt_of_le_of_lt (Nat.zero_le _) hf))
    simp only [findLink, h.1]
    split
    · simp
    · exact ih (k := .next a) h.2 (by simpa using hf)

/-- `remove` of a node that is not queued changes nothing. -/
theorem Repr.remove_notMem (h : q.Repr l) (hn : n ∉ l) {f : Nat} {b : Bool} {q' : Links α}
    (hr : q.remove n f = some (b, q')) : b = false ∧ q' = q := by
  obtain ⟨link, hf, hr⟩ := Option.bind_eq_some_iff.mp hr
  rw [if_pos (findLink_of_notMem (k := .head) h.chain hn hf)] at hr
  obtain ⟨rfl, rfl⟩ := Prod.mk.inj (Option.some.inj hr)
  exact ⟨rfl, rfl⟩

/-- `remove` of a queued node deletes it and nothing else, and leaves `tail`
at the last node that remains. -/
theorem Repr.remove_mem {l₁ l₂ : List α} (h : q.Repr (l₁ ++ n :: l₂)) {f : Nat} {b : Bool} {q' : Links α}
    (hr : q.remove n f = some (b, q')) :
    b = true ∧ q'.Repr (l₁ ++ l₂) ∧ ∀ a, a ∉ l₁ ++ n :: l₂ → q'.next a = q.next a := by
  obtain ⟨link, hf, hr⟩ := Option.bind_eq_some_iff.mp hr
  obtain ⟨hd, hl, hc⟩ := findLink_of_mem (k := .head) h.chain (fun _ _ e => by cases e) hf
  rw [if_neg (by rw [hd]; simp)] at hr
  have hnd := List.nodup_middle.mp h.nodup
  have hnl := (List.nodup_cons.mp hnd).1
  -- only the link found and the node's own link are stored
  have hnx : ∀ a, a ∉ l₁ ++ n :: l₂ → (q.store (q.next n) link).next a = q.next a := by
    intro a ha
    rcases hl with rfl | ⟨c, hcm, rfl⟩
    · rfl
    · exact Function.update_of_ne (fun e => ha (by simp [e, hcm])) _ _
  have htl : (q.store (q.next n) link).tail = (l₁ ++ n :: l₂).getLast? := by
    rw [← h.tail]; cases link <;> rfl
  obtain ⟨q₂, hq₂, hr⟩ := Option.map_eq_some_iff.mp hr
  obtain ⟨rfl, rfl⟩ := Prod.mk.inj hr
  have key : q₂.next = (q.store (q.next n) link).next ∧ q₂.head = (q.store (q.next n) link).head ∧
      q₂.tail = (l₁ ++ l₂).getLast? := by
    split at hq₂
    · obtain ⟨t, ht, rfl⟩ := Option.map_eq_some_iff.mp hq₂
      exact ⟨rfl, rfl, last_eq hc ht⟩
    · rename_i hne
      obtain rfl := Option.some.inj hq₂
      refine ⟨rfl, rfl, htl.trans ?_⟩
      rw [htl] at hne
      rcases List.eq_nil_or_concat l₂ with rfl | ⟨l₂, t, rfl⟩
      · simp at hne
      · simp [List.getLast?_append, List.getLast?_cons]
  obtain ⟨k₁, k₂, k₃⟩ := key
  refine ⟨rfl, ⟨?_, k₃⟩, fun a ha => ?_⟩
  · have hc' : IsChain q₂.next q₂.head (l₁ ++ l₂) := by
      rw [k₁, k₂]
      exact hc
    exact hc'.congr fun a ha => Function.update_of_ne (fun e : a = n => hnl (e ▸ ha)) _ _
  · have : a ≠ n := fun e => ha (by simp [e])
    rw [show ({ q₂ with next := Function.update q₂.next n none } : Links α).next a = q₂.next a from
      Function.update_of_ne this _ _, k₁, hnx a ha]

/-- What `remove` does, whether the node is queued or not. -/
theorem Repr.remove (h : q.Repr l) {f : Nat} {b : Bool} {q' : Links α} (hr : q.remove n f = some (b, q')) :
    b = decide (n ∈ l) ∧ q'.Repr (l.erase n) ∧ ∀ a, a ∉ l → q'.next a = q.next a := by
  by_cases hn : n ∈ l
  · obtain ⟨l₁, l₂, rfl⟩ := List.append_of_mem hn
    have hnd := (List.nodup_cons.mp (List.nodup_middle.mp h.nodup)).1
    obtain ⟨rfl, h₁, h₂⟩ := h.remove_mem hr
    rw [List.erase_append_right _ fun hm => hnd (List.mem_append_left _ hm), List.erase_cons_head]
    exact ⟨by simp, h₁, h₂⟩
  · obtain ⟨rfl, rfl⟩ := h.remove_notMem hn hr
    rw [List.erase_of_not_mem hn]
    exact ⟨by simp [hn], h, fun _ _ => rfl⟩

/-- The loops of `remove` end. -/
theorem Repr.remove_of_lt (h : q.Repr l) {f : Nat} (hf : l.length < f) : q.remove n f ≠ none := by
  intro hr
  rw [Links.remove, Option.bind_eq_none_iff] at hr
  cases hl : q.findLink n f .head with
  | none => exact findLink_total (k := .head) h.chain hf hl
  | some link =>
    have hr := hr link hl
    split at hr
    · cases hr
    · rename_i hd
      simp only [Option.map_eq_none_iff] at hr
      split at hr
      · rename_i ht
        rw [Option.map_eq_none_iff] at hr
        by_cases hn : n ∈ l
        · obtain ⟨l₁, l₂, rfl⟩ := List.append_of_mem hn
          obtain ⟨-, -, hc⟩ := findLink_of_mem (k := .head) h.chain (fun _ _ e => by cases e) hl
          refine last_total hc (Nat.lt_of_le_of_lt ?_ hf) hr
          simp
        · exact hd (findLink_of_notMem (k := .head) h.chain hn hl)
      · cases hr

end Links

end Dlsmc
