import Dlsmc.Index.Linearizable
import Dlsmc.Index.Retire

/-!
# Every node of the index has one owner

The chains of the entries of the map, those that threads are to retire, those that
the EBR was handed and those of undone splits have each node once (`Stocked`). A
step passes a chain on or puts a new node on one; nobody but the one who undoes a
split takes a chain from those who have loaded its head (`Turns`).
-/

namespace Dlsmc.Index.Concurrent

variable {M M' : Memory} {H : Heap} {t a n : Nat} {p : Pid} {c : Chain} {l : Link}

/-! ## The owners -/

/-- A chain loaded from `p`, by a thread that entered its epoch after `since`
retirements, is not freed with the chain of the owner. -/
def Safe (since : Nat) (p : Pid) : Owner → Prop
  | .entry x => x = p
  | .unlinked _ => True
  | .retired i => since ≤ i
  | .undone _ => False

/-- Every node has one owner. -/
structure Stocked (M : Memory) (H : Heap) : Prop where
  size : H.nodes.size = M.published
  owned : Owned H.nodes (H.root M)
  length : ∀ p l, M.head p = some l → (H.nodes.cells l.addr).length = l.chain.deltas.length + 1
  beyond : ∀ p, M.nextPid ≤ p → M.head p = none

/-- The owners after a step: no chain passes out of reach, but that of the
entries `gone`. -/
structure Turns (M : Memory) (H : Heap) (M' : Memory) (H' : Heap) (gone : Pid → Prop) : Prop where
  stocked : Stocked M' H'
  retired : H.retired.length ≤ H'.retired.length
  kept : ∀ since p a, ¬gone p → since ≤ H.retired.length → Kept H.nodes (H.root M) (Safe since p) a →
    Kept H'.nodes (H'.root M') (Safe since p) a

theorem Memory.address_of (hl : M.head p = some l) : M.address p = some l.addr := by rw [address, hl]; rfl

theorem Memory.address_publish (M : Memory) (p x : Pid) (c : Chain) :
    (M.publish p c).address x = if x = p then some M.published else M.address x := by
  by_cases hx : x = p
  · subst hx
    rw [address, publish_self, if_pos rfl]
    rfl
  · rw [address, publish_of_ne hx, if_neg hx, address]

/-- An entry has a new chain. -/
theorem Heap.root_publish (H : Heap) (M : Memory) (p : Pid) (c : Chain) :
    H.root (M.publish p c) = Function.update (H.root M) (.entry p) (some M.published) := by
  funext o
  cases o with
  | entry x => simp [Heap.root, Function.update_apply, Memory.address_publish]
  | _ => simp [Heap.root]

/-- The chain of an entry passes to the thread that has exchanged it. -/
theorem Heap.root_swap (ha : M.address p = some a) :
    (H.swap t a).root (M.publish p c) =
      Function.update (passed (H.root M) (.entry p) (.unlinked t)) (.entry p) (some M.published) := by
  have hp : H.root M (.entry p) = some a := ha
  funext o
  cases o with
  | entry x =>
    by_cases hx : x = p
    · simp [Heap.root, Memory.address_publish, hx]
    · simp [Heap.root, Memory.address_publish, hx, passed]
  | unlinked u => simp [Heap.root, Heap.swap, passed, Function.update_apply, ha]
  | retired i => simp [Heap.root, Heap.swap, passed]
  | undone i => simp [Heap.root, Heap.swap, passed]

theorem getElem?_append_update (l : List Nat) (a : Nat) (i : Nat) :
    (l ++ [a])[i]? = if i = l.length then some a else l[i]? := by
  by_cases hi : i = l.length
  · simp [hi]
  · rw [if_neg hi]
    by_cases hlt : i < l.length
    · exact List.getElem?_append_left hlt
    · have hlen : (l ++ [a]).length = l.length + 1 := by simp
      rw [List.getElem?_eq_none (by omega), List.getElem?_eq_none (by omega)]

/-- The chain of an undone split. -/
theorem Heap.root_undo (ha : M.address p = some a) :
    { H with undone := H.undone ++ [a] }.root { M with head := Function.update M.head p none, nextPid := n } =
      passed (H.root M) (.entry p) (.undone H.undone.length) := by
  funext o
  cases o with
  | entry x => by_cases hx : x = p <;> simp [Heap.root, Memory.address, hx, passed]
  | unlinked u => simp [Heap.root, passed]
  | retired i => simp [Heap.root, passed]
  | undone i => simp [Heap.root, passed, Function.update_apply, ha, getElem?_append_update]

/-- The chain that is retired. -/
theorem Heap.root_retire (ha : H.unlinked t = some a) :
    { H with unlinked := Function.update H.unlinked t none, retired := H.retired ++ [a] }.root M =
      passed (H.root M) (.unlinked t) (.retired H.retired.length) := by
  funext o
  cases o with
  | entry x => simp [Heap.root, passed]
  | unlinked u => simp [Heap.root, passed, Function.update_apply]
  | retired i => simp [Heap.root, passed, Function.update_apply, ha, getElem?_append_update]
  | undone i => simp [Heap.root, passed]

/-! ## Steps on the nodes -/

theorem Stocked.lt (hs : Stocked M H) (hl : M.head p = some l) : l.addr < H.nodes.size := by
  have hp : H.root M (.entry p) = some l.addr := Memory.address_of hl
  exact hs.owned.lt hp

/-- A step that changes neither heads nor nodes. -/
theorem Stocked.same (hs : Stocked M H) (hhead : M'.head = M.head) (hpub : M'.published = M.published)
    (hnext : M'.nextPid = M.nextPid) : Turns M H M' H fun _ => False := by
  have hroot : H.root M' = H.root M := by
    funext o
    cases o with
    | entry x => simp only [Heap.root, Memory.address, hhead]
    | _ => rfl
  refine ⟨⟨hs.size.trans hpub.symm, hroot ▸ hs.owned, ?_, ?_⟩, le_rfl, fun _ _ _ _ _ hk => hroot ▸ hk⟩
  · rw [hhead]
    exact hs.length
  · rw [hhead, hnext]
    exact hs.beyond

/-- The nodes of the chains, when one has a new head. -/
theorem Stocked.length_publish (hs : Stocked M H) {o : Option Nat} (hlt : ∀ b, o = some b → b < H.nodes.size)
    (hc : (H.nodes.chain o).length = c.deltas.length) (x : Pid) (l : Link) (hl : (M.publish p c).head x = some l) :
    ((H.nodes.push o).cells l.addr).length = l.chain.deltas.length + 1 := by
  by_cases hx : x = p
  · subst hx
    rw [Memory.publish_self, Option.some.injEq] at hl
    subst hl
    rw [← hs.size, NodeStore.cells_push_self hlt, List.length_cons, hc]
  · rw [Memory.publish_of_ne hx] at hl
    rw [NodeStore.cells_push (hs.lt hl)]
    exact hs.length x l hl

theorem Stocked.beyond_publish (hs : Stocked M H) (hp : p < n) (hn : M.nextPid ≤ n) (x : Pid) (hx : n ≤ x) :
    (M.publish p c).head x = none :=
  (Memory.publish_of_ne (Nat.ne_of_gt (hp.trans_le hx))).trans (hs.beyond x (hn.trans hx))

/-- A PID with a head is one that was taken. -/
theorem Stocked.lt_nextPid (hs : Stocked M H) (hl : M.head p = some l) : p < M.nextPid := by
  by_contra hp
  cases (hs.beyond p (Nat.le_of_not_lt hp)).symm.trans hl

/-- A delta is installed. -/
theorem Stocked.append (hs : Stocked M H) (hl : M.head p = some l) (hc : c.deltas.length = l.chain.deltas.length + 1) :
    Turns M H (M.publish p c) { H with nodes := H.nodes.push (some l.addr) } fun _ => False := by
  have hp : H.root M (.entry p) = some l.addr := Memory.address_of hl
  have hroot := H.root_publish M p c
  rw [← hs.size] at hroot
  have howned := hs.owned.push (.entry p)
  rw [hp, ← hroot] at howned
  refine ⟨⟨congrArg (· + 1) hs.size, howned, ?_, ?_⟩, le_rfl, fun since x a _ _ hk => ?_⟩
  · refine hs.length_publish (fun b hb => Option.some.inj hb ▸ hs.lt hl) ?_
    rw [hc]
    exact hs.length p l hl
  · exact hs.beyond_publish (hs.lt_nextPid hl) le_rfl
  · have := hk.push hs.owned (.entry p)
    rwa [hp, ← hroot] at this

/-- A base replaces the chain of an entry. -/
theorem Stocked.swap (hs : Stocked M H) (hl : M.head p = some l) (hu : H.unlinked t = none) (b : Base) :
    Turns M H (M.publish p ⟨[], b⟩) (H.swap t l.addr) fun _ => False := by
  have hp : H.root M (.entry p) = some l.addr := Memory.address_of hl
  have hroot := Heap.root_swap (H := H) (t := t) (c := ⟨[], b⟩) (Memory.address_of hl)
  rw [← hs.size] at hroot
  have hu : H.root M (.unlinked t) = none := hu
  have hpass := hs.owned.pass (r := .entry p) hu
  have hnone : passed (H.root M) (.entry p) (.unlinked t) (.entry p) = none := by simp [passed]
  have howned := hpass.push (.entry p)
  rw [hnone, ← hroot] at howned
  refine ⟨⟨congrArg (· + 1) hs.size, howned, ?_, ?_⟩, le_rfl, fun since x a _ _ hk => ?_⟩
  · exact hs.length_publish (fun _ hb => (Option.some_ne_none _ hb.symm).elim) rfl
  · exact hs.beyond_publish (hs.lt_nextPid hl) le_rfl
  · have := (hk.pass (r := .entry p) hu fun _ => trivial).push hpass (.entry p)
    rwa [hnone, ← hroot] at this

/-- A PID is taken for a base. -/
theorem Stocked.alloc (hs : Stocked M H) (b : Base) :
    Turns M H (M.taken ⟨[], b⟩) { H with nodes := H.nodes.push none } fun _ => False := by
  have hp : H.root M (.entry M.nextPid) = none := by
    show (M.head M.nextPid).map _ = none
    rw [hs.beyond _ le_rfl]
    rfl
  have hroot := H.root_publish M M.nextPid ⟨[], b⟩
  rw [← hs.size] at hroot
  have howned := hs.owned.push (.entry M.nextPid)
  rw [hp, ← hroot] at howned
  refine ⟨⟨congrArg (· + 1) hs.size, howned, ?_, ?_⟩, le_rfl, fun since x a _ _ hk => ?_⟩
  · exact hs.length_publish (fun _ hb => (Option.some_ne_none _ hb.symm).elim) rfl
  · exact hs.beyond_publish (Nat.lt_succ_self _) (Nat.le_succ _)
  · have := hk.push hs.owned (.entry M.nextPid)
    rwa [hp, ← hroot] at this

/-- The PID and the base of a split are given up. -/
theorem Stocked.undo (hs : Stocked M H) (hl : M.head p = some l) (hlast : p + 1 = M.nextPid) :
    Turns M H { M with head := Function.update M.head p none, nextPid := p }
      { H with undone := H.undone ++ [l.addr] } (· = p) := by
  have hroot := Heap.root_undo (H := H) (n := p) (Memory.address_of hl)
  have hnone : H.root M (.undone H.undone.length) = none := List.getElem?_eq_none le_rfl
  refine ⟨⟨hs.size, hroot ▸ hs.owned.pass hnone, ?_, ?_⟩, le_rfl, fun since x a hx _ hk => ?_⟩
  · intro x l' hl'
    by_cases hx : x = p
    · subst hx
      simp at hl'
    · exact hs.length x l' (by simpa [Function.update_of_ne hx] using hl')
  · intro x (hx : p ≤ x)
    by_cases hxp : x = p
    · subst hxp
      exact Function.update_self ..
    · have hlt : p + 1 ≤ x := Nat.lt_of_le_of_ne hx (Ne.symm hxp)
      exact (Function.update_of_ne hxp ..).trans (hs.beyond x (hlast ▸ hlt))
  · exact hroot ▸ hk.pass hnone fun he => absurd he.symm hx

/-- The chain that was exchanged is handed to the EBR. -/
theorem Stocked.retire (hs : Stocked M H) (ha : H.unlinked t = some a) :
    Turns M H M { H with unlinked := Function.update H.unlinked t none, retired := H.retired ++ [a] }
      fun _ => False := by
  have hroot := Heap.root_retire (M := M) ha
  have hnone : H.root M (.retired H.retired.length) = none := List.getElem?_eq_none le_rfl
  refine ⟨⟨hs.size, hroot ▸ hs.owned.pass hnone, hs.length, hs.beyond⟩, by simp, fun since x a _ hle hk => ?_⟩
  exact hroot ▸ hk.pass hnone fun _ => hle

end Dlsmc.Index.Concurrent
