import Mathlib.Data.List.Nodup
import Dlsmc.Index.Registration

/-!
# Who owns a slot

Every slot a thread keeps, is about to keep or is giving up has one owner: the
thread that won the compare-exchange of `active` (`Inv`). This holds as long
as registration never fails, and an index is freed only when no other thread
keeps a slot of it: what a thread keeps is found by the address of the EBR,
which a new index may be given.
-/

namespace Dlsmc.Registration

open Dlsmc.Index
open Dlsmc.Ebr (QUIESCENT SLOTS)

/-- What a thread has done so far in its call. -/
inductive Role where
  | out
  /-- Inside `ebr_slot`; `new` once it found no slot it keeps. -/
  | calling (a : Nat) (new : Bool) (c : Caller)
  /-- It has taken slot `i` and does not keep it yet. -/
  | claiming (a i : Nat) (c : Caller)
  /-- `dlsm_index_free` could not keep the slot it has taken. -/
  | undoing (a i : Nat)
  /-- An operation could not. -/
  | lost
  /-- Between `ebr_slot` and the end of `dlsm_ebr_exit`. -/
  | inside (a : Nat) (slot : Option Nat)
  | ending (a : Nat)
  | freeing (a : Nat)
  | dropping (r : Reg)
  | exiting (l : List Reg)

def Pc.role : Pc → Role
  | .idle => .out
  | .find a c => .calling a false c
  | .register a _ c => .calling a true c
  | .registerLocal a i c | .malloc a i c => .claiming a i c
  | .undoLocal a i .free | .undoActive a i .free => .undoing a i
  | .undoLocal _ _ _ | .undoActive _ _ _ => .lost
  | .enter a slot _ | .announce a slot _ _ | .body a slot _ | .leave a slot _ _ => .inside a slot
  | .gc a _ => .ending a
  | .drain a | .unregSelf a | .release a => .freeing a
  | .unregLocal r | .unregActive r => .dropping r
  | .dtor l => .exiting l
  | .dtorActive r l => .exiting (r :: l)

/-- The index a thread operates on. -/
def Role.op : Role → Option Nat
  | .calling a _ (.op _) | .claiming a _ (.op _) | .inside a _ | .ending a => some a
  | _ => none

/-- The index a thread frees. -/
def Role.free : Role → Option Nat
  | .calling a _ .free | .claiming a _ .free | .undoing a _ | .freeing a => some a
  | .dropping r => some r.e
  | _ => none

/-- Threads enter and leave an epoch only with a slot they have registered; a
call whose registration failed gives back the slot it took, if any, returns an
error, and changes neither the content nor any epoch on the way. -/
def OwnsSlot (s : State) : Prop :=
  (∀ x a slot, (s.pc x).role = .inside a slot → ∃ r ∈ s.regs x, r.e = a ∧ slot = some r.slot ∧ r.slot < SLOTS) ∧
    ∀ x, s.failed x = true →
      ((s.pc x).role = .lost ∨ s.pc x = .idle ∧ s.result x = some .nomem) ∧
        ∀ ok s', next s x ok = some s' →
          s'.content = s.content ∧
            ∀ a, (s'.ebr a).globalEpoch = (s.ebr a).globalEpoch ∧ (s'.ebr a).loc = (s.ebr a).loc

/-- A thread inside an operation has a slot of its own, and a thread that
exits unregisters slots of indexes that are not freed. -/
def SlotsOutlive (s : State) : Prop :=
  (∀ x a slot, (s.pc x).role = .inside a slot → s.live a = true →
    ∃ i, slot = some i ∧ i < SLOTS ∧ (s.ebr a).active i = true ∧ ∀ y, (s.pc y).role = .inside a slot → y = x) ∧
    ∀ x r l, (s.pc x).role = .exiting (r :: l) → s.live r.e = true ∧ s.generation r.e = r.generation

/-- Registration for an operation does not fail: a slot is free, and `malloc`
succeeds. -/
def registers (s : State) : Act → Bool
  | .next x ok =>
    match s.pc x with
    | .register _ i (.op _) => decide (i < SLOTS)
    | .malloc _ _ (.op _) => ok
    | _ => true
  | _ => true

/-- No other thread keeps a slot of the index that is freed. -/
def unshared (s : State) : Act → Bool
  | .next x _ =>
    match s.pc x with
    | .release a => s.registered a == []
    | _ => true
  | _ => true

/-- No index is freed. -/
def unfreed : Act → Bool
  | .free _ _ => false
  | _ => true

/-- The part of the state the argument is about. -/
structure View where
  live : Nat → Bool
  active : Nat → Nat → Bool
  regs : Nat → List Reg
  role : Nat → Role
  generation : Nat → Nat
  running : Nat → List Nat
  freeing : Nat → Option Nat
  registered : Nat → List Nat

def State.view (s : State) : View where
  live := s.live
  active := fun a => (s.ebr a).active
  regs := s.regs
  role := fun x => (s.pc x).role
  generation := s.generation
  running := s.running
  freeing := s.freeing
  registered := s.registered

/-- Thread `x` owns the slot of `r`, on the index that has the address now. -/
def Owned (v : View) (owner : Nat → Nat → Option Nat) (x : Nat) (r : Reg) : Prop :=
  owner r.e r.slot = some x ∧ r.generation = v.generation r.e ∧ x ∈ v.registered r.e

/-- Thread `x` keeps no slot of the index at `a`. -/
def Unkept (v : View) (x a : Nat) : Prop := ∀ r ∈ v.regs x, r.e ≠ a

/-- What thread `x` has in each role. -/
def Holds (v : View) (owner : Nat → Nat → Option Nat) (x : Nat) : Role → Prop
  | .calling a new _ => new = true → Unkept v x a
  | .claiming a i _ | .undoing a i => owner a i = some x ∧ Unkept v x a
  | .inside a slot => ∃ r ∈ v.regs x, r.e = a ∧ slot = some r.slot
  | .dropping r => r ∈ v.regs x
  | .exiting l => v.regs x = [] ∧ (l.map Reg.e).Nodup ∧ ∀ r ∈ l, Owned v owner x r
  | .lost => False
  | .out | .ending _ | .freeing _ => True

structure Inv (v : View) (owner : Nat → Nat → Option Nat) : Prop where
  taken : ∀ a i x, owner a i = some x → i < SLOTS ∧ v.live a = true ∧ v.active a i = true
  regs : ∀ x, ∀ r ∈ v.regs x, Owned v owner x r
  nodup : ∀ x, ((v.regs x).map Reg.e).Nodup
  holds : ∀ x, Holds v owner x (v.role x)
  op : ∀ x a, (v.role x).op = some a → x ∈ v.running a
  free : ∀ x a, (v.role x).free = some a → v.freeing a = some x
  live : ∀ a, v.running a ≠ [] ∨ v.freeing a ≠ none ∨ v.registered a ≠ [] → v.live a = true
  excl : ∀ a, v.freeing a ≠ none → v.running a = []

theorem Inv.slotsOutlive {s : State} {owner : Nat → Nat → Option Nat} (h : Inv s.view owner) : SlotsOutlive s := by
  have hin : ∀ x a slot, (s.pc x).role = .inside a slot → ∃ r ∈ s.regs x, r.e = a ∧ slot = some r.slot := by
    intro x a slot hx
    have := h.holds x
    rwa [show s.view.role x = .inside a slot from hx] at this
  refine ⟨fun x a slot hx _ => ?_, fun x r l hx => ?_⟩
  · obtain ⟨r, hr, rfl, rfl⟩ := hin x a slot hx
    obtain ⟨hlt, -, hact⟩ := h.taken _ _ _ (h.regs x r hr).1
    refine ⟨r.slot, rfl, hlt, hact, fun y hy => ?_⟩
    obtain ⟨r', hr', he, hslot⟩ := hin y _ _ hy
    have := (h.regs y r' hr').1
    rw [he, ← Option.some.inj hslot, (h.regs x r hr).1] at this
    exact (Option.some.inj this).symm
  · have := h.holds x
    rw [show s.view.role x = .exiting (r :: l) from hx] at this
    obtain ⟨ho, hg, -⟩ := this.2.2 r (by simp)
    exact ⟨(h.taken _ _ _ ho).2.1, hg.symm⟩

/-! ## One lemma for each kind of step -/

section Steps

variable {v v' : View} {owner owner' : Nat → Nat → Option Nat} {x a i : Nat} {c : Caller} {r : Reg} {ρ : Role}

/-- Where a caller goes on with slot `i`. -/
def Caller.role (a i : Nat) : Caller → Role
  | .op _ => .inside a (some i)
  | .free => .freeing a

/-- Thread `y` keeps a slot of the index at `a`, or is in a call on it. -/
def Uses (v : View) (y a : Nat) : Prop :=
  y ∈ v.registered a ∨ (v.role y).op = some a ∨ (v.role y).free = some a

theorem Inv.live_of_uses (h : Inv v owner) (hu : Uses v x a) : v.live a = true := by
  rcases hu with hr | hop | hfree
  · exact h.live a (.inr (.inr (List.ne_nil_of_mem hr)))
  · exact h.live a (.inl (List.ne_nil_of_mem (h.op x a hop)))
  · exact h.live a (.inr (.inl (by simp [h.free x a hfree])))

theorem uses_of_claiming (hx : v.role x = .claiming a i c) : Uses v x a := by
  rw [Uses, hx]
  cases c with
  | op o => exact .inr (.inl rfl)
  | free => exact .inr (.inr rfl)

theorem uses_of_undoing (hx : v.role x = .undoing a i) : Uses v x a := by
  rw [Uses, hx]
  exact .inr (.inr rfl)

/-- Nothing of what `y` has changes. -/
structure Frame (v v' : View) (owner owner' : Nat → Nat → Option Nat) (y : Nat) : Prop where
  regs : v'.regs y = v.regs y
  owner : ∀ a, Uses v y a → ∀ i, owner a i = some y → owner' a i = some y
  generation : ∀ a, Uses v y a → v'.generation a = v.generation a
  registered : ∀ a, y ∈ v.registered a → y ∈ v'.registered a

theorem Owned.frame (hf : Frame v v' owner owner' x) (h : Owned v owner x r) : Owned v' owner' x r := by
  obtain ⟨ho, hg, hr⟩ := h
  exact ⟨hf.owner _ (.inl hr) _ ho, hg.trans (hf.generation _ (.inl hr)).symm, hf.registered _ hr⟩

theorem Holds.frame (hf : Frame v v' owner owner' x) (h : Holds v owner x (v.role x)) :
    Holds v' owner' x (v.role x) := by
  cases hρ : v.role x with rw [hρ] at h
  | calling a new c => simpa [Holds, Unkept, hf.regs] using h
  | claiming a i c => exact ⟨hf.owner _ (uses_of_claiming hρ) _ h.1, by simpa [Unkept, hf.regs] using h.2⟩
  | undoing a i => exact ⟨hf.owner _ (uses_of_undoing hρ) _ h.1, by simpa [Unkept, hf.regs] using h.2⟩
  | inside a slot => simpa [Holds, hf.regs] using h
  | dropping r => simpa [Holds, hf.regs] using h
  | exiting l => exact ⟨hf.regs ▸ h.1, h.2.1, fun r hr => (h.2.2 r hr).frame hf⟩
  | lost => exact h
  | out | ending a | freeing a => trivial

/-- A step of thread `x` that leaves the others what they have. -/
theorem Inv.frame (h : Inv v owner) (hf : ∀ y, y ≠ x → Frame v v' owner owner' y)
    (hrole : v'.role = Function.update v.role x ρ)
    (htaken : ∀ a i x, owner' a i = some x → i < SLOTS ∧ v'.live a = true ∧ v'.active a i = true)
    (hregs : ∀ r ∈ v'.regs x, Owned v' owner' x r) (hnodup : ((v'.regs x).map Reg.e).Nodup)
    (hx : Holds v' owner' x ρ) (hrun : ∀ y a, y ≠ x → y ∈ v.running a → y ∈ v'.running a)
    (hop : ∀ a, ρ.op = some a → x ∈ v'.running a)
    (hfreeing : ∀ y a, y ≠ x → v.freeing a = some y → v'.freeing a = some y)
    (hfree : ∀ a, ρ.free = some a → v'.freeing a = some x)
    (hlive : ∀ a, v'.running a ≠ [] ∨ v'.freeing a ≠ none ∨ v'.registered a ≠ [] → v'.live a = true)
    (hexcl : ∀ a, v'.freeing a ≠ none → v'.running a = []) : Inv v' owner' where
  taken := htaken
  regs y := by
    rcases eq_or_ne y x with rfl | hy
    · exact hregs
    · exact fun r hr => (h.regs y r ((hf y hy).regs ▸ hr)).frame (hf y hy)
  nodup y := by
    rcases eq_or_ne y x with rfl | hy
    · exact hnodup
    · rw [(hf y hy).regs]
      exact h.nodup y
  holds y := by
    rcases eq_or_ne y x with rfl | hy
    · simpa [hrole] using hx
    · rw [hrole, Function.update_of_ne hy]
      exact (h.holds y).frame (hf y hy)
  op y a ha := by
    rcases eq_or_ne y x with rfl | hy
    · exact hop a (by simpa [hrole] using ha)
    · rw [hrole, Function.update_of_ne hy] at ha
      exact hrun y a hy (h.op y a ha)
  free y a ha := by
    rcases eq_or_ne y x with rfl | hy
    · exact hfree a (by simpa [hrole] using ha)
    · rw [hrole, Function.update_of_ne hy] at ha
      exact hfreeing y a hy (h.free y a ha)
  live := hlive
  excl := hexcl

/-- A step of thread `x` that changes only where it stands. -/
theorem Inv.move (h : Inv v owner) (hx : Holds v owner x ρ) (hop : ρ.op = (v.role x).op)
    (hfree : ρ.free = (v.role x).free) : Inv { v with role := Function.update v.role x ρ } owner :=
  h.frame (fun _ _ => ⟨rfl, fun _ _ _ ho => ho, fun _ _ => rfl, fun _ hr => hr⟩) rfl h.taken (h.regs x) (h.nodup x) hx
    (fun _ _ _ hy => hy) (fun a ha => h.op x a (hop ▸ ha)) (fun _ _ _ hy => hy)
    (fun a ha => h.free x a (hfree ▸ ha)) h.live h.excl

theorem inv_initial : Inv State.initial.view fun _ _ => none := by
  constructor <;> simp [State.initial, State.view, Pc.role, Role.op, Role.free, Holds]

/-- The view with `active[i]` of the index at `a` stored. -/
def View.storeActive (v : View) (a i : Nat) (b : Bool) : View :=
  { v with active := Function.update v.active a (Function.update (v.active a) i b) }

/-- `owner` with the owner of slot `i` of the index at `a` changed. -/
def own (owner : Nat → Nat → Option Nat) (a i : Nat) (o : Option Nat) : Nat → Nat → Option Nat :=
  Function.update owner a (Function.update (owner a) i o)

theorem own_apply (owner : Nat → Nat → Option Nat) (a i : Nat) (o : Option Nat) (b j : Nat) :
    own owner a i o b j = if b = a ∧ j = i then o else owner b j := by
  by_cases hb : b = a
  · subst hb
    simp [own, Function.update_apply]
  · simp [own, hb]

@[simp] theorem View.storeActive_active (v : View) (a i : Nat) (b : Bool) (c j : Nat) :
    (v.storeActive a i b).active c j = if c = a ∧ j = i then b else v.active c j := by
  by_cases hc : c = a
  · subst hc
    simp [View.storeActive, Function.update_apply]
  · simp [View.storeActive, hc]

/-- Thread `x` takes a slot that is free. -/
theorem Inv.claim (h : Inv v owner) (hx : v.role x = .calling a true c) (hi : i < SLOTS) (ha : v.active a i = false) :
    Inv { v.storeActive a i true with
      role := Function.update v.role x (.claiming a i c) } (own owner a i (some x)) := by
  have hu : Uses v x a := by
    rw [Uses, hx]
    cases c with
    | op o => exact .inr (.inl rfl)
    | free => exact .inr (.inr rfl)
  have hfree : ∀ y, owner a i ≠ some y := fun y hy => by simp [(h.taken a i y hy).2.2] at ha
  have hkept : ∀ b j y, owner b j = some y → own owner a i (some x) b j = some y := by
    intro b j y hb
    rwa [own_apply, if_neg]
    rintro ⟨rfl, rfl⟩
    exact hfree y hb
  have hold := h.holds x
  rw [hx] at hold
  refine h.frame (ρ := .claiming a i c) (fun y _ => ⟨rfl, fun b _ j => hkept b j y, fun _ _ => rfl, fun _ hr => hr⟩) rfl
    (fun b j y hb => ?_) (fun r hr => ?_) (h.nodup x) ⟨by simp [own_apply], hold rfl⟩ (fun _ _ _ hy => hy)
    (fun b hb => h.op x b ?_) (fun _ _ _ hy => hy) (fun b hb => h.free x b ?_) h.live h.excl
  · rw [own_apply] at hb
    rw [show View.active _ b j = _ from View.storeActive_active v a i true b j]
    split_ifs at hb ⊢ with hba
    · exact ⟨hba.2 ▸ hi, by rw [hba.1]; exact h.live_of_uses hu, rfl⟩
    · exact h.taken b j y hb
  · obtain ⟨ho, hg, hr'⟩ := h.regs x r hr
    exact ⟨hkept _ _ _ ho, hg, hr'⟩
  · rw [hx]
    cases c <;> exact hb
  · rw [hx]
    cases c <;> exact hb

/-- Thread `x` gives up slot `i` of the index at `a`; it keeps the slots of `l`, all of other indexes. -/
theorem Inv.giveUp (h : Inv v owner) {l : List Reg} {q : List Nat} (ho : owner a i = some x)
    (hl : ∀ r ∈ l, r.e ≠ a ∧ Owned v owner x r) (hnodup : (l.map Reg.e).Nodup)
    (hq : ∀ y, y ≠ x → y ∈ v.registered a → y ∈ q) (hq' : q ⊆ v.registered a)
    (hx : Holds { v with regs := Function.update v.regs x l, registered := Function.update v.registered a q }
      (own owner a i none) x ρ)
    (hop : ρ.op = (v.role x).op) (hfree : ρ.free = (v.role x).free) :
    Inv { v.storeActive a i false with
      role := Function.update v.role x ρ
      regs := Function.update v.regs x l
      registered := Function.update v.registered a q } (own owner a i none) := by
  refine h.frame (x := x) (ρ := ρ) (fun y hy => ⟨?_, fun b _ j hb => ?_, fun _ _ => rfl, fun b hr => ?_⟩) rfl
    (fun b j y hb => ?_) (fun r hr => ?_) ?_ hx (fun _ _ _ hy => hy) (fun b hb => h.op x b (hop ▸ hb))
    (fun _ _ _ hy => hy) (fun b hb => h.free x b (hfree ▸ hb)) (fun b hb => ?_) h.excl
  · exact Function.update_of_ne hy _ _
  · rwa [own_apply, if_neg]
    rintro ⟨rfl, rfl⟩
    exact hy (Option.some.inj (hb.symm.trans ho))
  · by_cases hb : b = a
    · subst hb
      simpa using hq y hy hr
    · simpa [hb] using hr
  · rw [own_apply] at hb
    rw [show View.active _ b j = _ from View.storeActive_active v a i false b j]
    split_ifs at hb ⊢ with hba
    exact h.taken b j y hb
  · obtain ⟨hne, hown, hg, hr'⟩ := hl r (by simpa using hr)
    refine ⟨?_, hg, ?_⟩
    · rwa [own_apply, if_neg fun hba => hne hba.1]
    · simpa [hne] using hr'
  · simpa using hnodup
  · refine h.live b (hb.imp_right (Or.imp_right fun hne h0 => hne ?_))
    by_cases hba : b = a
    · subst hba
      simpa [h0] using hq'
    · simpa [hba] using h0

/-- Thread `x` keeps the slot it has taken. -/
theorem Inv.keep (h : Inv v owner) (hx : v.role x = .claiming a i c) :
    Inv { v with
      role := Function.update v.role x (c.role a i)
      regs := Function.update v.regs x (⟨a, i, v.generation a⟩ :: v.regs x)
      registered := Function.update v.registered a (x :: v.registered a) } owner := by
  have hold := h.holds x
  rw [hx] at hold
  obtain ⟨ho, hne⟩ := hold
  refine h.frame (x := x) (ρ := c.role a i)
    (fun y hy => ⟨Function.update_of_ne hy _ _, fun _ _ _ hb => hb, fun _ _ => rfl, fun b hr => ?_⟩) rfl h.taken
    (fun r hr => ?_) ?_ ?_ (fun _ _ _ hy => hy) (fun b hb => h.op x b ?_) (fun _ _ _ hy => hy)
    (fun b hb => h.free x b ?_) (fun b hb => ?_) h.excl
  · by_cases hb : b = a
    · subst hb
      simp [show y ∈ v.registered b from hr]
    · simpa [hb] using hr
  · rcases List.mem_cons.mp (by simpa using hr) with rfl | hr
    · exact ⟨ho, rfl, by simp⟩
    · obtain ⟨hown, hg, hr'⟩ := h.regs x r hr
      exact ⟨hown, hg, by simpa [hne r hr] using hr'⟩
  · simpa using ⟨fun r hr => hne r hr, h.nodup x⟩
  · cases c with
    | op o => exact ⟨⟨a, i, v.generation a⟩, by simp, rfl, rfl⟩
    | free => trivial
  · rw [hx]
    cases c <;> exact hb
  · rw [hx]
    cases c <;> exact hb
  · by_cases hba : b = a
    · subst hba
      exact h.live_of_uses (uses_of_claiming hx)
    · exact h.live b (by simpa [hba] using hb)

/-- The operation of thread `x` returns. -/
theorem Inv.ret (h : Inv v owner) (hx : (v.role x).op = some a) :
    Inv { v with
      role := Function.update v.role x .out
      running := Function.update v.running a ((v.running a).erase x) } owner := by
  have hsub : ∀ b, v.running b = [] → Function.update v.running a ((v.running a).erase x) b = [] := by
    intro b hb
    by_cases hba : b = a
    · subst hba
      simp [hb]
    · simp [hba, hb]
  refine h.frame (x := x) (ρ := .out) (fun y _ => ⟨rfl, fun _ _ _ hb => hb, fun _ _ => rfl, fun _ hr => hr⟩) rfl
    h.taken (fun r hr => h.regs x r hr) (h.nodup x) trivial (fun y b hy hb => ?_) (fun b hb => by cases hb)
    (fun _ _ _ hy => hy) (fun b hb => by cases hb)
    (fun b hb => h.live b (hb.imp_left fun hne h0 => hne (hsub b h0))) (fun b hb => hsub b (h.excl b hb))
  by_cases hba : b = a
  · subst hba
    simpa [List.mem_erase_of_ne hy] using hb
  · simpa [hba] using hb

/-- Thread `x` frees the index at `a`, of which no thread keeps a slot. -/
theorem Inv.release (h : Inv v owner) (hx : v.role x = .freeing a) (hr : v.registered a = []) :
    Inv { v with
      role := Function.update v.role x .out
      live := Function.update v.live a false
      freeing := Function.update v.freeing a none } (Function.update owner a fun _ => none) := by
  have hfr : v.freeing a = some x := h.free x a (by rw [hx]; rfl)
  have hrun : v.running a = [] := h.excl a (by simp [hfr])
  have hunused : ∀ y b, y ≠ x → Uses v y b → b ≠ a := by
    rintro y b hy hu rfl
    rcases hu with hr' | hop | hfree
    · simp [hr] at hr'
    · simpa [hrun] using h.op y b hop
    · exact hy (Option.some.inj ((h.free y b hfree).symm.trans hfr))
  refine h.frame (x := x) (ρ := .out) (fun y hy => ⟨rfl, fun b hu i hb => ?_, fun _ _ => rfl, fun _ hr => hr⟩) rfl
    (fun b i y hb => ?_) (fun r hr' => ?_) (h.nodup x) trivial (fun _ _ _ hy => hy) (fun b hb => by cases hb)
    (fun y b hy hb => ?_) (fun b hb => by cases hb) (fun b hb => ?_) (fun b hb => ?_)
  · rwa [Function.update_of_ne (hunused y b hy hu)]
  · by_cases hba : b = a
    · subst hba
      simp at hb
    · simpa [hba] using h.taken b i y (by simpa [hba] using hb)
  · obtain ⟨ho, hg, hr''⟩ := h.regs x r hr'
    have hne : r.e ≠ a := fun he => by simp [he, hr] at hr''
    exact ⟨by simpa [hne] using ho, hg, hr''⟩
  · have hne : b ≠ a := fun he => hy (Option.some.inj ((he ▸ hb).symm.trans hfr))
    simpa [hne] using hb
  · by_cases hba : b = a
    · subst hba
      simp [hrun, hr] at hb
    · simpa [hba] using h.live b (by simpa [hba] using hb)
  · by_cases hba : b = a
    · subst hba
      simp at hb
    · exact h.excl b (by simpa [hba] using hb)

/-- A new index gets an address that is not in use. -/
theorem Inv.new (h : Inv v owner) (ha : v.live a = false) :
    Inv { v with
      live := Function.update v.live a true
      generation := Function.update v.generation a (v.generation a + 1)
      active := Function.update v.active a fun _ => false } owner := by
  have hunused : ∀ y b, Uses v y b → b ≠ a := by
    rintro y b hu rfl
    simp [h.live_of_uses hu] at ha
  have hne : ∀ b, v.live b = true → b ≠ a := by
    rintro b hb rfl
    simp [hb] at ha
  have hf : ∀ y, Frame v { v with
      live := Function.update v.live a true
      generation := Function.update v.generation a (v.generation a + 1)
      active := Function.update v.active a fun _ => false } owner owner y := fun y =>
    ⟨rfl, fun _ _ _ ho => ho, fun b hu => Function.update_of_ne (hunused y b hu) _ _, fun _ hr => hr⟩
  exact
    { taken := fun b i y hb => by
        obtain ⟨hi, hl, hact⟩ := h.taken b i y hb
        exact ⟨hi, by simpa [hne b hl] using hl, by simpa [hne b hl] using hact⟩
      regs := fun y r hr => (h.regs y r hr).frame (hf y)
      nodup := h.nodup
      holds := fun y => Holds.frame (v := v) (hf y) (h.holds y)
      op := h.op
      free := h.free
      live := fun b hb => by
        have hl := h.live b hb
        simpa [hne b hl] using hl
      excl := h.excl }

/-- Thread `x` calls an operation on the index at `a`. -/
theorem Inv.call (h : Inv v owner) {o : Op} (ha : v.live a = true) (hf : v.freeing a = none) :
    Inv { v with
      role := Function.update v.role x (.calling a false (.op o))
      running := Function.update v.running a (x :: v.running a) } owner := by
  refine h.frame (x := x) (ρ := .calling a false (.op o))
    (fun y _ => ⟨rfl, fun _ _ _ hb => hb, fun _ _ => rfl, fun _ hr => hr⟩) rfl
    h.taken (fun r hr => h.regs x r hr) (h.nodup x) (fun hb => by cases hb) (fun y b hy hb => ?_) (fun b hb => ?_)
    (fun _ _ _ hy => hy) (fun b hb => by cases hb) (fun b hb => ?_) (fun b hb => ?_)
  · by_cases hba : b = a
    · subst hba
      simp [hb]
    · simpa [hba] using hb
  · cases hb
    simp
  · by_cases hba : b = a
    · exact hba ▸ ha
    · exact h.live b (by simpa [hba] using hb)
  · have hba : b ≠ a := fun he => hb (he ▸ hf)
    simpa [hba] using h.excl b hb

/-- Thread `x` calls `dlsm_index_free` on the index at `a`. -/
theorem Inv.callFree (h : Inv v owner) (ha : v.live a = true) (hf : v.freeing a = none)
    (hr : v.running a = []) :
    Inv { v with
      role := Function.update v.role x (.calling a false .free)
      freeing := Function.update v.freeing a (some x) } owner := by
  refine h.frame (x := x) (ρ := .calling a false .free)
    (fun y _ => ⟨rfl, fun _ _ _ hb => hb, fun _ _ => rfl, fun _ hr => hr⟩) rfl
    h.taken (fun r hr => h.regs x r hr) (h.nodup x) (fun hb => by cases hb) (fun _ _ _ hy => hy)
    (fun b hb => by cases hb)
    (fun y b hy hb => ?_) (fun b hb => ?_) (fun b hb => ?_) (fun b hb => ?_)
  · have hba : b ≠ a := fun he => by simp [he, hf] at hb
    simpa [hba] using hb
  · cases hb
    simp
  · by_cases hba : b = a
    · exact hba ▸ ha
    · exact h.live b (by simpa [hba] using hb)
  · by_cases hba : b = a
    · exact hba ▸ hr
    · exact h.excl b (by simpa [hba] using hb)

/-- Thread `x` exits, and its destructor gets what it kept. -/
theorem Inv.exit (h : Inv v owner) :
    Inv { v with
      role := Function.update v.role x (.exiting (v.regs x))
      regs := Function.update v.regs x [] } owner := by
  refine h.frame (x := x) (ρ := .exiting (v.regs x))
    (fun y hy => ⟨Function.update_of_ne hy _ _, fun _ _ _ hb => hb, fun _ _ => rfl, fun _ hr => hr⟩) rfl
    h.taken (fun r hr => ?_) ?_ ⟨by simp, h.nodup x, fun r hr => h.regs x r hr⟩ (fun _ _ _ hy => hy)
    (fun b hb => by cases hb) (fun _ _ _ hy => hy) (fun b hb => by cases hb) h.live h.excl
  · simp at hr
  · simp

end Steps

/-! ## Every step keeps the invariant -/

section Run

variable {s s' : State} {owner : Nat → Nat → Option Nat} {x a i : Nat}

@[simp] theorem view_setPc (s : State) (x : Nat) (c : Pc) :
    (setPc s x c).view = { s.view with role := Function.update s.view.role x c.role } := by
  simp only [State.view, setPc, View.mk.injEq, true_and, and_true]
  funext y
  by_cases hy : y = x
  · subst hy
    simp
  · simp [hy]

theorem view_setEbr (s : State) (a : Nat) (e : Epochs) :
    (setEbr s a e).view = { s.view with active := Function.update s.view.active a e.active } := by
  simp only [State.view, setEbr, View.mk.injEq, true_and, and_true]
  funext b
  by_cases hb : b = a
  · subst hb
    simp
  · simp [hb]

theorem view_setEbr_of_active {e : Epochs} (he : e.active = (s.ebr a).active) : (setEbr s a e).view = s.view := by
  rw [view_setEbr, he]
  exact congrArg (fun f => { s.view with active := f }) (Function.update_eq_self a s.view.active)

@[simp] theorem view_storeLocal (s : State) (a : Nat) (slot : Option Nat) (g : Nat) :
    (setEbr s a ((s.ebr a).storeLocal slot g)).view = s.view :=
  view_setEbr_of_active (by cases slot <;> rfl)

@[simp] theorem view_storeActive (s : State) (a i : Nat) (b : Bool) :
    (setEbr s a ((s.ebr a).storeActive i b)).view = s.view.storeActive a i b :=
  view_setEbr s a _

theorem view_ret (s : State) (x a : Nat) (st : Status) :
    (ret s x a st).view =
      { s.view with
        role := Function.update s.view.role x .out
        running := Function.update s.view.running a ((s.view.running a).erase x) } :=
  congrArg (fun v => { v with running := Function.update s.running a ((s.running a).erase x) }) (view_setPc s x .idle)

theorem view_drop (s : State) (x : Nat) (r : Reg) :
    (drop s x r).view =
      { s.view with
        regs := Function.update s.view.regs x ((s.view.regs x).erase r)
        registered := Function.update s.view.registered r.e ((s.view.registered r.e).erase x) } :=
  rfl

theorem view_new (s : State) (a : Nat) (f : Nat → Key → Option DeltaPointer) :
    State.view { s with
      live := Function.update s.live a true
      generation := Function.update s.generation a (s.generation a + 1)
      ebr := Function.update s.ebr a .initial
      content := f } =
      { s.view with
        live := Function.update s.view.live a true
        generation := Function.update s.view.generation a (s.view.generation a + 1)
        active := Function.update s.view.active a fun _ => false } :=
  congrArg (fun v => { v with
    live := Function.update s.live a true
    generation := Function.update s.generation a (s.generation a + 1) }) (view_setEbr s a .initial)

theorem tryAdvance_active (e : Epochs) : e.tryAdvance.active = e.active := by
  unfold Epochs.tryAdvance
  split <;> rfl

theorem tryAdvance_iterate_active (n : Nat) (e : Epochs) : (Epochs.tryAdvance^[n] e).active = e.active := by
  induction n generalizing e with
  | zero => rfl
  | succ n ih => rw [Function.iterate_succ_apply, ih, tryAdvance_active]

theorem holds_of_pc (h : Inv s.view owner) {c : Pc} (hpc : s.pc x = c) : Holds s.view owner x c.role := by
  have := h.holds x
  rwa [show s.view.role x = c.role from congrArg Pc.role hpc] at this

theorem role_of_pc {c : Pc} (hpc : s.pc x = c) : s.view.role x = c.role := congrArg Pc.role hpc

/-- A step that changes only where `x` stands. -/
theorem inv_setPc {s₁ : State} {c c' : Pc} (h : Inv s.view owner) (hpc : s.pc x = c) (hv : s₁.view = s.view)
    (hx : Holds s.view owner x c'.role) (hop : c'.role.op = c.role.op) (hfree : c'.role.free = c.role.free) :
    Inv (setPc s₁ x c').view owner := by
  rw [view_setPc, hv]
  exact h.move hx (by rw [hop, role_of_pc hpc]) (by rw [hfree, role_of_pc hpc])

theorem inv_setPc_same {s₁ : State} {c c' : Pc} (h : Inv s.view owner) (hpc : s.pc x = c) (hv : s₁.view = s.view)
    (hc : c'.role = c.role) : Inv (setPc s₁ x c').view owner :=
  inv_setPc h hpc hv (hc ▸ holds_of_pc h hpc) (by rw [hc]) (by rw [hc])

theorem holds_role_found {r : Reg} {c : Caller} (hr : r ∈ s.regs x) :
    Holds s.view owner x (c.next r.e (some r.slot)).role := by
  cases c with
  | op o => exact ⟨r, hr, rfl, rfl⟩
  | free => trivial

theorem Caller.next_role (c : Caller) (a i : Nat) : (c.next a (some i)).role = c.role a i := by
  cases c <;> rfl

theorem erase_map_ne {l : List Reg} {r r' : Reg} (hl : (l.map Reg.e).Nodup) (hr : r ∈ l) (hr' : r' ∈ l.erase r) :
    r'.e ≠ r.e := by
  intro he
  have hnd : l.Nodup := List.Nodup.of_map _ hl
  obtain ⟨hne, hmem⟩ := (List.Nodup.mem_erase_iff hnd).mp hr'
  exact hne (List.inj_on_of_nodup_map hl hmem hr he)

/-- Every access of a thread keeps the invariant, if registration for an
operation does not fail and no thread keeps a slot of an index that is freed. -/
theorem inv_next {ok : Bool} (h : Inv s.view owner) (hreg : registers s (.next x ok) = true)
    (hun : unshared s (.next x ok) = true) (hs : next s x ok = some s') : ∃ owner', Inv s'.view owner' := by
  cases hpc : s.pc x with simp only [next, registers, unshared, hpc] at hs hreg hun
  | idle => cases hs
  | find a c =>
    split at hs
    · rename_i r hr
      obtain rfl : r.e = a := by simpa using List.find?_some hr
      refine ⟨owner, Option.some.inj hs ▸ ?_⟩
      exact inv_setPc h hpc rfl (holds_role_found (List.mem_of_find?_eq_some hr)) (by cases c <;> rfl)
        (by cases c <;> rfl)
    · rename_i hr
      refine ⟨owner, Option.some.inj hs ▸ ?_⟩
      refine inv_setPc h hpc rfl (fun _ r hr' => ?_) (by cases c <;> rfl) (by cases c <;> rfl)
      simpa using List.find?_eq_none.mp hr r hr'
  | register a i c =>
    split at hs
    · rename_i hi
      split at hs
      · exact ⟨owner, Option.some.inj hs ▸ inv_setPc_same h hpc rfl rfl⟩
      · rename_i hact
        refine ⟨own owner a i (some x), Option.some.inj hs ▸ ?_⟩
        rw [view_setPc, view_storeActive]
        exact h.claim (role_of_pc hpc) hi (Bool.not_eq_true _ ▸ hact)
    · rename_i hi
      cases c with
      | op o => simp [hi] at hreg
      | free => exact ⟨owner, Option.some.inj hs ▸ inv_setPc h hpc rfl trivial rfl rfl⟩
  | registerLocal a i c => exact ⟨owner, Option.some.inj hs ▸ inv_setPc_same h hpc (view_storeLocal _ _ _ _) rfl⟩
  | malloc a i c =>
    split at hs
    · rename_i hok
      cases c with
      | op o => simp [hok] at hreg
      | free =>
        have hx : Holds s.view owner x (.claiming a i .free) := holds_of_pc h hpc
        exact ⟨owner, Option.some.inj hs ▸ inv_setPc h hpc rfl hx rfl rfl⟩
    · refine ⟨owner, Option.some.inj hs ▸ ?_⟩
      rw [view_setPc, Caller.next_role]
      exact h.keep (role_of_pc hpc)
  | undoLocal a i c =>
    refine ⟨owner, Option.some.inj hs ▸ inv_setPc_same h hpc (view_storeLocal _ _ _ _) ?_⟩
    cases c <;> rfl
  | undoActive a i c =>
    cases c with
    | op o => exact (holds_of_pc h hpc).elim
    | free =>
      refine ⟨own owner a i none, Option.some.inj hs ▸ ?_⟩
      obtain ⟨ho, hne⟩ := holds_of_pc h hpc
      rw [view_setPc, view_storeActive]
      have := h.giveUp (ρ := .freeing a) (l := s.regs x) (q := s.registered a) ho
        (fun r hr => ⟨hne r hr, h.regs x r hr⟩)
        (h.nodup x) (fun _ _ hy => hy) (fun _ hy => hy) trivial (by rw [role_of_pc hpc]; rfl)
        (by rw [role_of_pc hpc]; rfl)
      rwa [show Function.update s.view.regs x (s.regs x) = s.regs from Function.update_eq_self x s.regs,
        show Function.update s.view.registered a (s.registered a) = s.registered from
          Function.update_eq_self a _] at this
  | enter a slot o => exact ⟨owner, Option.some.inj hs ▸ inv_setPc_same h hpc rfl rfl⟩
  | announce a slot o g => exact ⟨owner, Option.some.inj hs ▸ inv_setPc_same h hpc (view_storeLocal _ _ _ _) rfl⟩
  | body a slot o => exact ⟨owner, Option.some.inj hs ▸ inv_setPc_same h hpc rfl rfl⟩
  | leave a slot o st =>
    have hret : Inv (ret (setEbr s a ((s.ebr a).storeLocal slot QUIESCENT)) x a st).view owner := by
      rw [view_ret, view_storeLocal]
      exact h.ret (by rw [role_of_pc hpc]; rfl)
    have hgc : Inv (setPc (setEbr s a ((s.ebr a).storeLocal slot QUIESCENT)) x (.gc a st)).view owner :=
      inv_setPc h hpc (view_storeLocal _ _ _ _) trivial rfl rfl
    cases o with
    | get k => exact ⟨owner, Option.some.inj hs ▸ hret⟩
    | insert k v => exact ⟨owner, Option.some.inj hs ▸ hgc⟩
    | update k v => exact ⟨owner, Option.some.inj hs ▸ hgc⟩
    | delete k => exact ⟨owner, Option.some.inj hs ▸ hgc⟩
  | gc a st =>
    refine ⟨owner, Option.some.inj hs ▸ ?_⟩
    have hv : (if ok then setEbr s a (s.ebr a).tryAdvance else s).view = s.view := by
      split
      · exact view_setEbr_of_active (tryAdvance_active _)
      · rfl
    rw [view_ret, hv]
    exact h.ret (by rw [role_of_pc hpc]; rfl)
  | drain a =>
    refine ⟨owner, Option.some.inj hs ▸ inv_setPc_same h hpc ?_ rfl⟩
    exact view_setEbr_of_active (tryAdvance_iterate_active 16 _)
  | unregSelf a =>
    split at hs
    · rename_i r hr
      obtain rfl : r.e = a := by simpa using List.find?_some hr
      exact ⟨owner, Option.some.inj hs ▸ inv_setPc h hpc rfl (List.mem_of_find?_eq_some hr) rfl rfl⟩
    · exact ⟨owner, Option.some.inj hs ▸ inv_setPc_same h hpc rfl rfl⟩
  | unregLocal r => exact ⟨owner, Option.some.inj hs ▸ inv_setPc_same h hpc (view_storeLocal _ _ _ _) rfl⟩
  | unregActive r =>
    refine ⟨own owner r.e r.slot none, Option.some.inj hs ▸ ?_⟩
    have hr : r ∈ s.regs x := holds_of_pc h hpc
    rw [view_setPc, view_drop, view_storeActive]
    exact h.giveUp (h.regs x r hr).1
      (fun r' hr' => ⟨erase_map_ne (h.nodup x) hr hr', h.regs x r' (List.mem_of_mem_erase hr')⟩)
      ((h.nodup x).sublist (List.erase_sublist.map _)) (fun y hy hm => (List.mem_erase_of_ne hy).mpr hm)
      List.erase_subset trivial (by rw [role_of_pc hpc]; rfl) (by rw [role_of_pc hpc]; rfl)
  | release a =>
    refine ⟨Function.update owner a fun _ => none, Option.some.inj hs ▸ ?_⟩
    rw [view_setPc]
    exact h.release (role_of_pc hpc) (show s.registered a = [] by simpa using hun)
  | dtor l =>
    cases l with
    | nil => exact ⟨owner, Option.some.inj hs ▸ inv_setPc h hpc rfl trivial rfl rfl⟩
    | cons r l => exact ⟨owner, Option.some.inj hs ▸ inv_setPc_same h hpc (view_storeLocal _ _ _ _) rfl⟩
  | dtorActive r l =>
    refine ⟨own owner r.e r.slot none, Option.some.inj hs ▸ ?_⟩
    obtain ⟨hnil, hnd, hown⟩ := holds_of_pc h hpc
    rw [List.map_cons, List.nodup_cons] at hnd
    have hne : ∀ r' ∈ l, r'.e ≠ r.e := fun r' hr' he => hnd.1 (he ▸ List.mem_map_of_mem hr')
    have hx : (s.view.storeActive r.e r.slot false).regs x = [] := hnil
    rw [view_setPc, view_drop, view_storeActive]
    refine h.giveUp (hown r (by simp)).1 (by simp [hx]) (by simp [hx])
      (fun y hy hm => (List.mem_erase_of_ne hy).mpr hm) List.erase_subset ⟨by simp [hx], hnd.2, fun r' hr' => ?_⟩
      (by rw [role_of_pc hpc]; rfl) (by rw [role_of_pc hpc]; rfl)
    obtain ⟨ho, hg, hreg⟩ := hown r' (by simp [hr'])
    exact ⟨by simpa [own_apply, hne r' hr'] using ho, hg, by simpa [hne r' hr'] using hreg⟩

theorem inv_step {act : Act} (h : Inv s.view owner) (hreg : registers s act = true) (hun : unshared s act = true)
    (hs : step s act = some s') : ∃ owner', Inv s'.view owner' := by
  cases act with simp only [step] at hs
  | new a =>
    split at hs
    · cases hs
    · rename_i ha
      refine ⟨owner, Option.some.inj hs ▸ ?_⟩
      rw [view_new]
      exact h.new (Bool.not_eq_true _ ▸ ha)
  | call x a o =>
    split at hs
    · rename_i hc
      refine ⟨owner, Option.some.inj hs ▸ ?_⟩
      rw [view_setPc]
      exact h.call hc.2.1 hc.2.2
    · cases hs
  | free x a =>
    split at hs
    · rename_i hc
      refine ⟨owner, Option.some.inj hs ▸ ?_⟩
      rw [view_setPc]
      exact h.callFree hc.2.1 hc.2.2.1 hc.2.2.2
    · cases hs
  | exit x =>
    split at hs
    · refine ⟨owner, Option.some.inj hs ▸ ?_⟩
      rw [view_setPc]
      exact h.exit
    · cases hs
  | next x ok => exact inv_next h hreg hun hs

/-- The threads that keep or use slots of an index own them. -/
theorem exists_inv (h : machine.ReachBy (fun s act => registers s act = true ∧ unshared s act = true) s) :
    ∃ owner, Inv s.view owner := by
  induction h with
  | init h => exact ⟨_, h ▸ inv_initial⟩
  | step _ hc hs ih =>
    obtain ⟨owner, ih⟩ := ih
    exact inv_step ih hc.1 hc.2 hs

/-- In a run in which every index lives on and every operation registers, no call fails. -/
def Unfailed (s : State) : Prop := (∀ a, s.freeing a = none) ∧ ∀ x, s.failed x = false

theorem Inv.op_of_unfreed (h : Inv s.view owner) (hf : ∀ a, s.freeing a = none) {c : Pc} (hpc : s.pc x = c) :
    c.role.free = none := by
  cases hr : c.role.free with
  | none => rfl
  | some a => exact absurd (h.free x a (by rw [role_of_pc hpc, hr])) (by simp [State.view, hf a])

theorem unfailed_next {ok : Bool} (h : Inv s.view owner) (hu : Unfailed s) (hreg : registers s (.next x ok) = true)
    (hs : next s x ok = some s') : Unfailed s' := by
  have hfree := @Inv.op_of_unfreed s owner x h hu.1
  cases hpc : s.pc x with simp only [next, registers, hpc] at hs hreg
  | idle => cases hs
  | find a c => split at hs <;> exact Option.some.inj hs ▸ hu
  | register a i c =>
    cases c with
    | free => cases hfree hpc
    | op o =>
      rw [if_pos (by simpa using hreg)] at hs
      split at hs <;> exact Option.some.inj hs ▸ hu
  | malloc a i c =>
    cases c with
    | free => cases hfree hpc
    | op o =>
      rw [if_neg (by simpa using hreg)] at hs
      exact Option.some.inj hs ▸ hu
  | leave a slot o st => cases o <;> exact Option.some.inj hs ▸ hu
  | gc a st =>
    refine Option.some.inj hs ▸ ?_
    split <;> exact hu
  | unregSelf a => cases hfree hpc
  | release a => cases hfree hpc
  | dtor l => cases l <;> exact Option.some.inj hs ▸ hu
  | registerLocal | undoLocal | undoActive | enter | announce | body | drain | unregLocal | unregActive | dtorActive =>
    exact Option.some.inj hs ▸ hu

/-- With no index freed, what `unshared` asks for holds. -/
theorem unshared_of_unfreed {act : Act} (h : Inv s.view owner) (hu : Unfailed s) : unshared s act = true := by
  cases act with
  | next x ok =>
    cases hpc : s.pc x with simp only [unshared, hpc]
    | release a => cases h.op_of_unfreed hu.1 hpc
  | new | call | free | exit => rfl

theorem exists_inv_of_unfreed (h : machine.ReachBy (fun s act => registers s act = true ∧ unfreed act = true) s) :
    (∃ owner, Inv s.view owner) ∧ Unfailed s := by
  induction h with
  | init h => exact ⟨⟨_, h ▸ inv_initial⟩, h ▸ ⟨fun _ => rfl, fun _ => rfl⟩⟩
  | @step s s' act _ hc hs ih =>
    obtain ⟨⟨owner, ih⟩, hu⟩ := ih
    refine ⟨inv_step ih hc.1 (unshared_of_unfreed ih hu) hs, ?_⟩
    cases act with
    | next x ok => exact unfailed_next ih hu hc.1 hs
    | free x a => cases hc.2
    | new a =>
      simp only [machine, step] at hs
      split at hs
      · cases hs
      · exact Option.some.inj hs ▸ hu
    | call x a o =>
      simp only [machine, step] at hs
      split at hs
      · refine Option.some.inj hs ▸ ⟨hu.1, fun y => ?_⟩
        by_cases hy : y = x
        · subst hy
          simp [setPc]
        · simpa [setPc, hy] using hu.2 y
      · cases hs
    | exit x =>
      simp only [machine, step] at hs
      split at hs
      · exact Option.some.inj hs ▸ hu
      · cases hs

end Run

/-- As long as registration does not fail, threads enter and leave an epoch
only with a slot they have registered. -/
theorem owns_slot {s : State} (h : machine.ReachBy (fun s act => registers s act = true ∧ unfreed act = true) s) :
    OwnsSlot s := by
  obtain ⟨⟨owner, hi⟩, hu⟩ := exists_inv_of_unfreed h
  refine ⟨fun x a slot hx => ?_, fun x hx => ?_⟩
  · have hold := hi.holds x
    rw [show s.view.role x = .inside a slot from hx] at hold
    obtain ⟨r, hr, he, hslot⟩ := hold
    exact ⟨r, hr, he, hslot, (hi.taken _ _ _ (hi.regs x r hr).1).1⟩
  · rw [hu.2 x] at hx
    cases hx

/-- Thread 1 makes an index and reads from it. -/
def readRun : List Act :=
  .new 0 :: .call 1 0 (.get []) :: List.replicate 6 (.next 1 true)

theorem owns_slot_reading :
    ∃ s, machine.ReachBy (fun s act => registers s act = true ∧ unfreed act = true) s ∧
      s.pc 1 = .body 0 (some 0) (.get []) ∧ OwnsSlot s := by
  obtain ⟨s, hs, hp⟩ := Machine.exists_reachBy_of_run (M := machine)
    (C := fun s act => registers s act = true ∧ unfreed act = true) (c := fun s act => registers s act && unfreed act)
    (fun _ _ h => by simpa using h) (s := .initial) (l := readRun)
    (p := fun s => decide (s.pc 1 = .body 0 (some 0) (.get []))) rfl (by decide +kernel)
  exact ⟨s, hs, by simpa using hp, owns_slot hs⟩

/-- When `malloc` fails in `ebr_slot`, the operation enters the epoch with
slot -1. -/
theorem enters_without_slot : ¬ ∀ s, machine.ReachBy (fun _ act => unfreed act = true) s → OwnsSlot s := by
  intro h
  obtain ⟨s, hs, hp⟩ := Machine.exists_reachBy_of_run (M := machine) (C := fun _ act => unfreed act = true)
    (c := fun _ act => unfreed act) (fun _ _ h => h) (s := .initial)
    (l := [.new 0, .call 1 0 (.get []), .next 1 true, .next 1 true, .next 1 true, .next 1 false, .next 1 true,
      .next 1 true])
    (p := fun s => decide (s.pc 1 = .enter 0 none (.get []))) rfl (by decide +kernel)
  have hpc : s.pc 1 = .enter 0 none (.get []) := by simpa using hp
  obtain ⟨r, -, -, hr, -⟩ := (h s hs).1 1 0 none (by rw [hpc]; rfl)
  cases hr

/-- As long as registration does not fail and an index is freed only when no
other thread keeps a slot of it, the slot of a running operation is its own,
and no slot of a freed index is unregistered. -/
theorem slots_outlive {s : State}
    (h : machine.ReachBy (fun s act => registers s act = true ∧ unshared s act = true) s) : SlotsOutlive s := by
  obtain ⟨owner, hi⟩ := exists_inv h
  exact hi.slotsOutlive

/-- Thread 1 reads from an index and exits, thread 2 frees the index, a new
one gets its address, and thread 2 reads from it. -/
def reuseRun : List Act :=
  readRun ++ ([.next 1 true, .next 1 true, .exit 1, .next 1 true, .next 1 true, .next 1 true] : List Act) ++
    (.free 2 0 :: List.replicate 9 (.next 2 true) : List Act) ++
    (.new 0 :: .call 2 0 (.get []) :: List.replicate 6 (.next 2 true) : List Act)

theorem slots_outlive_reused :
    ∃ s, machine.ReachBy (fun s act => registers s act = true ∧ unshared s act = true) s ∧
      s.pc 2 = .body 0 (some 0) (.get []) ∧ s.generation 0 = 2 ∧ SlotsOutlive s := by
  obtain ⟨s, hs, hp⟩ := Machine.exists_reachBy_of_run (M := machine)
    (C := fun s act => registers s act = true ∧ unshared s act = true)
    (c := fun s act => registers s act && unshared s act) (fun _ _ h => by simpa using h) (s := .initial)
    (l := reuseRun)
    (p := fun s => decide (s.pc 2 = .body 0 (some 0) (.get []) ∧ s.generation 0 = 2)) rfl (by decide +kernel)
  obtain ⟨hpc, hg⟩ := of_decide_eq_true hp
  exact ⟨s, hs, hpc, hg, slots_outlive hs⟩

/-- Thread 1 keeps the slot of an index that thread 2 frees, finds it again by
the address of a new index, and reads there with a slot that is not active. -/
theorem slot_outlives_index : ¬ ∀ s, machine.ReachBy (fun s act => registers s act = true) s → SlotsOutlive s := by
  intro h
  obtain ⟨s, hs, hp⟩ := Machine.exists_reachBy_of_run (M := machine) (C := fun s act => registers s act = true)
    (c := registers) (fun _ _ h => h) (s := .initial)
    (l := readRun ++ ([.next 1 true, .next 1 true] : List Act) ++
      (.free 2 0 :: List.replicate 10 (.next 2 true) : List Act) ++
      ([.new 0, .call 1 0 (.get []), .next 1 true, .next 1 true, .next 1 true] : List Act))
    (p := fun s => decide (s.pc 1 = .body 0 (some 0) (.get []) ∧ s.live 0 = true ∧ (s.ebr 0).active 0 = false)) rfl
    (by decide +kernel)
  obtain ⟨hpc, hlive, hact⟩ := of_decide_eq_true hp
  obtain ⟨i, hi, -, hact', -⟩ := (h s hs).1 1 0 (some 0) (by rw [hpc]; rfl) hlive
  obtain rfl := Option.some.inj hi
  simp [hact] at hact'

end Dlsmc.Registration
