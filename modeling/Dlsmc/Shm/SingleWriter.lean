import Dlsmc.Shm.Segment

/-!
# Who may write a segment

The name and the lock of the object it denotes are separate state of the
kernel. As long as whoever locks an object it has opened finds that the name
still denotes it, and that the call that created it is over, the holder of the
lock of the object the name denotes is the only writer, and only it removes
the name (`Inv`).
-/

namespace Dlsmc.Shm

/-- What a process has done so far in its call. -/
inductive Role where
  | out
  /-- Created the object of `f`, and not locked it yet. -/
  | fresh (f : Nat)
  /-- Created and locked it. -/
  | making (f : Nat)
  /-- Created it and is about to close `f`, and then to remove the name. -/
  | failing (f : Nat)
  | failed (o : Nat)
  /-- Opened the object the name denoted. -/
  | opened (f : Nat)
  /-- Opened and locked it. -/
  | owner (f : Nat)
  | closing (f : Nat)

def Pc.role : Pc → Role
  | .idle | .create _ | .openOld _ | .cleanOpen => .out
  | .lockNew f _ => .fresh f
  | .truncate f _ | .mapNew f _ | .initNew f _ _ | .callocNew f _ => .making f
  | .failClose f _ => .failing f
  | .failUnlink o _ => .failed o
  | .lockOld f _ | .cleanLock f => .opened f
  | .readOld f _ | .mapOld f _ | .clearOld f _ | .wipeOld f _ | .initOld f _ _ | .callocOld f _ | .cleanUnlink f =>
    .owner f
  | .close f _ | .detach f => .closing f

/-- What makes its holder the one that may write the object the name denotes:
the creation of the object, the lock of it, or a handle. -/
inductive Claim where
  | none
  | fresh (p f : Nat)
  | making (p f : Nat)
  | failing (p f : Nat)
  | failed (p o : Nat)
  | owner (p f : Nat)
  | handle (p f : Nat)

def Claim.fd : Claim → Option Nat
  | .none | .failed _ _ => Option.none
  | .fresh _ f | .making _ f | .failing _ f | .owner _ f | .handle _ f => some f

/-- The claim of process `p` in its role. -/
def Role.claim (p : Nat) : Role → Claim
  | .out | .opened _ | .closing _ => .none
  | .fresh f => .fresh p f
  | .making f => .making p f
  | .failing f => .failing p f
  | .failed o => .failed p o
  | .owner f => .owner p f

/-- The part of the state the argument is about; a description has a process
while it is open. -/
structure View where
  name : Option Nat
  objects : Nat
  proc : Nat → Option Nat
  obj : Nat → Nat
  files : Nat
  lock : Nat → Option Nat
  role : Nat → Role
  handles : Nat → List Nat
  creating : Nat → Bool

def State.view (s : State) : View where
  name := s.name
  objects := s.objects
  proc := fun f => (s.file f).map File.proc
  obj := objOf s
  files := s.files
  lock := s.lock
  role := fun p => (s.pc p).role
  handles := s.handles
  creating := s.creating

/-- What holds of the one that has a claim. -/
def Claim.Ok (v : View) : Claim → Prop
  | .none => True
  | .fresh p f =>
    v.proc f = some p ∧ v.name = some (v.obj f) ∧ v.creating (v.obj f) = true ∧ v.lock (v.obj f) = Option.none
  | .making p f =>
    v.proc f = some p ∧ v.name = some (v.obj f) ∧ v.creating (v.obj f) = true ∧ v.lock (v.obj f) = some f
  | .failing p f =>
    v.proc f = some p ∧ v.name = some (v.obj f) ∧ v.creating (v.obj f) = true ∧
      (v.lock (v.obj f) = Option.none ∨ v.lock (v.obj f) = some f)
  | .failed _ o => v.name = some o ∧ v.creating o = true ∧ v.lock o = Option.none
  | .owner p f | .handle p f =>
    v.proc f = some p ∧ v.name = some (v.obj f) ∧ v.creating (v.obj f) = false ∧ v.lock (v.obj f) = some f

/-- At most one process has a claim: `c`. -/
structure Inv (v : View) (c : Claim) : Prop where
  files : ∀ f, v.proc f ≠ none → f < v.files ∧ v.obj f < v.objects
  lock : ∀ o f, v.lock o = some f → v.proc f ≠ none ∧ v.obj f = o
  role : ∀ p, (v.role p).claim p = .none ∨ (v.role p).claim p = c
  handle : ∀ p f, f ∈ v.handles p → c = .handle p f
  plain : ∀ p f, v.role p = .opened f ∨ v.role p = .closing f → v.proc f = some p ∧ c.fd ≠ some f
  claim : c.Ok v
  nodup : ∀ p, (v.handles p).Nodup
  name : ∀ o, v.name = some o → o < v.objects

/-- At most one writable handle exists. -/
def SingleWriter (s : State) : Prop := ∀ p q f g, f ∈ s.handles p → g ∈ s.handles q → p = q ∧ f = g

/-- The process is about to remove the name. -/
def unlinks : Pc → Bool
  | .cleanUnlink _ | .failUnlink _ _ => true
  | _ => false

/-- Whoever is about to remove the name removes none of an object whose lock
another process holds. -/
def UnlinkSafe (s : State) : Prop :=
  ∀ p o f F, unlinks (s.pc p) = true → s.name = some o → s.lock o = some f → s.file f = some F → F.proc = p

/-- A lock of an opened object is taken while the name denotes the object and
the call that created it is over. -/
def undisturbed (s : State) : Act → Bool
  | .next p ok =>
    match s.pc p with
    | .lockOld f _ | .cleanLock f =>
      !ok || s.lock (objOf s f) != none || (s.name == some (objOf s f) && !s.creating (objOf s f))
    | _ => true
  | _ => true

/-- The claim of a process that has one. -/
theorem Inv.eq_claim {v : View} {c : Claim} (h : Inv v c) {p : Nat} (hne : (v.role p).claim p ≠ .none) :
    c = (v.role p).claim p := ((h.role p).resolve_left hne).symm

theorem Role.claim_inj {r r' : Role} {p q : Nat} (h : r.claim p = r'.claim q) (hne : r.claim p ≠ .none) : p = q := by
  cases r <;> cases r' <;> simp_all [Role.claim]

/-- The other processes have none then. -/
theorem Inv.claims_none {v : View} {c : Claim} (h : Inv v c) {p : Nat} (hne : (v.role p).claim p ≠ .none) :
    ∀ q, q ≠ p → (v.role q).claim q = .none := by
  intro q hq
  refine (h.role q).resolve_right fun hc => hq ?_
  rw [h.eq_claim hne] at hc
  exact (Role.claim_inj hc.symm hne).symm

theorem Inv.singleWriter {s : State} {c : Claim} (h : Inv s.view c) : SingleWriter s := by
  intro p q f g hf hg
  have := (h.handle p f hf).symm.trans (h.handle q g hg)
  simpa using this

theorem Inv.unlinkSafe {s : State} {c : Claim} (h : Inv s.view c) : UnlinkSafe s := by
  intro p o f F hu hname hlock hfile
  have hc := h.eq_claim (p := p)
  have hok := h.claim
  cases hpc : s.pc p <;> simp only [hpc, unlinks, Bool.false_eq_true] at hu
  case failUnlink o' st =>
    obtain rfl : c = .failed p o' := by simpa [State.view, hpc, Pc.role, Role.claim] using hc
    obtain ⟨hn, -, hl⟩ := hok
    obtain rfl : o' = o := Option.some.inj (hn.symm.trans hname)
    cases hl.symm.trans hlock
  case cleanUnlink g =>
    obtain rfl : c = .owner p g := by simpa [State.view, hpc, Pc.role, Role.claim] using hc
    obtain ⟨hp, hn, -, hl⟩ := hok
    obtain rfl : s.view.obj g = o := Option.some.inj (hn.symm.trans hname)
    obtain rfl : g = f := Option.some.inj (hl.symm.trans hlock)
    simpa [State.view, hfile] using hp

/-! ## One lemma for each kind of step -/

section Steps

variable {v : View} {c : Claim} {p f o : Nat}

attribute [local grind =] Function.update_apply
attribute [local grind] Role.claim Claim.fd Claim.Ok

theorem inv_initial : Inv State.initial.view .none := by
  refine ⟨?_, ?_, ?_, ?_, ?_, ?_, ?_, ?_⟩ <;> simp [State.initial, State.view, Pc.role, Role.claim, Claim.Ok]

/-- The name is bound to a fresh object. -/
theorem Inv.create (h : Inv v c) (hn : v.name = none) :
    Inv { v with
      name := some v.objects, objects := v.objects + 1, files := v.files + 1
      proc := Function.update v.proc v.files (some p), obj := Function.update v.obj v.files v.objects
      creating := Function.update v.creating v.objects true
      role := Function.update v.role p (.fresh v.files) } (.fresh p v.files) := by
  -- nobody has a claim while the name is not bound
  obtain rfl : c = .none := by
    have := h.claim
    cases c <;> grind -linarith
  have hlock : v.lock v.objects = none := by
    cases hl : v.lock v.objects with
    | none => rfl
    | some f =>
      obtain ⟨hf, ho⟩ := h.lock _ _ hl
      exact absurd (h.files f hf).2 (by omega)
  obtain ⟨h₁, h₂, h₃, h₄, h₅, h₆, h₇, h₈⟩ := h
  refine ⟨?_, ?_, ?_, ?_, ?_, ?_, h₇, ?_⟩ <;> grind -linarith

/-- An object is opened. -/
theorem Inv.open (h : Inv v c) (ho : o < v.objects) :
    Inv { v with
      files := v.files + 1
      proc := Function.update v.proc v.files (some p), obj := Function.update v.obj v.files o
      role := Function.update v.role p (.opened v.files) } c := by
  have hfd : c.fd ≠ some v.files := by
    have hc := h.claim
    have hf := h.files v.files
    cases c <;> grind -linarith
  obtain ⟨h₁, h₂, h₃, h₄, h₅, h₆, h₇, h₈⟩ := h
  refine ⟨?_, ?_, ?_, h₄, ?_, ?_, h₇, h₈⟩
  · grind -linarith
  · grind -linarith
  · grind -linarith
  · grind -linarith
  · cases c <;> grind -linarith

/-- A process that gives up what it has opened, or what it was the owner of,
goes on to close it. -/
theorem Inv.close (h : Inv v c) (hp : v.role p = .opened f ∨ v.role p = .owner f) :
    ∃ c', Inv { v with role := Function.update v.role p (.closing f) } c' := by
  rcases hp with hp | hp
  · obtain ⟨h₁, h₂, h₃, h₄, h₅, h₆, h₇, h₈⟩ := h
    refine ⟨c, h₁, h₂, ?_, h₄, ?_, h₆, h₇, h₈⟩
    · grind -linarith
    · grind -linarith
  · have hother := h.claims_none (p := p) (by simp [hp, Role.claim])
    obtain rfl : c = .owner p f := by simpa [hp, Role.claim] using h.eq_claim (p := p)
    obtain ⟨h₁, h₂, -, h₄, h₅, h₆, h₇, h₈⟩ := h
    refine ⟨.none, h₁, h₂, ?_, ?_, ?_, trivial, h₇, h₈⟩
    · grind -linarith
    · grind -linarith
    · grind -linarith

/-- The creator locks its object. -/
theorem Inv.lockNew (h : Inv v c) (hp : v.role p = .fresh f) :
    Inv { v with
      lock := Function.update v.lock (v.obj f) (some f), role := Function.update v.role p (.making f) }
      (.making p f) := by
  have hother := h.claims_none (p := p) (by simp [hp, Role.claim])
  obtain rfl : c = .fresh p f := by simpa [hp, Role.claim] using h.eq_claim (p := p)
  obtain ⟨h₁, h₂, -, h₄, h₅, h₆, h₇, h₈⟩ := h
  refine ⟨h₁, ?_, ?_, ?_, ?_, ?_, h₇, h₈⟩
  · grind -linarith
  · grind -linarith
  · grind -linarith
  · grind -linarith
  · grind -linarith

/-- An opened object is locked, undisturbed. -/
theorem Inv.lockOld (h : Inv v c) (hp : v.role p = .opened f) (hl : v.lock (v.obj f) = none)
    (hn : v.name = some (v.obj f)) (hc : v.creating (v.obj f) = false) :
    Inv { v with
      lock := Function.update v.lock (v.obj f) (some f), role := Function.update v.role p (.owner f) }
      (.owner p f) := by
  obtain rfl : c = .none := by
    have := h.claim
    cases c <;> grind -linarith
  obtain ⟨h₁, h₂, h₃, h₄, h₅, h₆, h₇, h₈⟩ := h
  refine ⟨h₁, ?_, ?_, ?_, ?_, ?_, h₇, h₈⟩
  · grind -linarith
  · grind -linarith
  · grind -linarith
  · grind -linarith
  · grind -linarith

/-- The creator gives up. -/
theorem Inv.fail (h : Inv v c) (hp : v.role p = .fresh f ∨ v.role p = .making f) :
    Inv { v with role := Function.update v.role p (.failing f) } (.failing p f) := by
  have hother := h.claims_none (p := p) (by rcases hp with hp | hp <;> simp [hp, Role.claim])
  have hc := h.eq_claim (p := p) (by rcases hp with hp | hp <;> simp [hp, Role.claim])
  obtain ⟨h₁, h₂, -, h₄, h₅, h₆, h₇, h₈⟩ := h
  refine ⟨h₁, h₂, ?_, ?_, ?_, ?_, h₇, h₈⟩
  · grind -linarith
  · grind -linarith
  · grind -linarith
  · grind -linarith

/-- The creator closes its description, with its lock if it has it. -/
theorem Inv.failClose (h : Inv v c) (hp : v.role p = .failing f) :
    Inv { v with
      proc := Function.update v.proc f none, obj := Function.update v.obj f 0
      lock := fun o => if v.lock o = some f then none else v.lock o
      role := Function.update v.role p (.failed (v.obj f)) } (.failed p (v.obj f)) := by
  have hother := h.claims_none (p := p) (by simp [hp, Role.claim])
  obtain rfl : c = .failing p f := by simpa [hp, Role.claim] using h.eq_claim (p := p)
  obtain ⟨h₁, h₂, -, h₄, h₅, h₆, h₇, h₈⟩ := h
  refine ⟨?_, ?_, ?_, ?_, ?_, ?_, h₇, h₈⟩
  · grind -linarith
  · grind -linarith
  · grind -linarith
  · grind -linarith
  · grind -linarith
  · grind -linarith

/-- The creator removes the name and returns. -/
theorem Inv.failUnlink (h : Inv v c) (hp : v.role p = .failed o) :
    Inv { v with
      name := none, creating := Function.update v.creating o false, role := Function.update v.role p .out }
      .none := by
  have hother := h.claims_none (p := p) (by simp [hp, Role.claim])
  obtain rfl : c = .failed p o := by simpa [hp, Role.claim] using h.eq_claim (p := p)
  obtain ⟨h₁, h₂, -, h₄, h₅, h₆, h₇, h₈⟩ := h
  refine ⟨h₁, h₂, ?_, ?_, ?_, trivial, h₇, by simp⟩
  · grind -linarith
  · grind -linarith
  · grind -linarith

/-- The owner of the object the name denotes removes the name. -/
theorem Inv.unlink (h : Inv v c) (hp : v.role p = .owner f) :
    Inv { v with name := none, role := Function.update v.role p (.closing f) } .none := by
  have hother := h.claims_none (p := p) (by simp [hp, Role.claim])
  obtain rfl : c = .owner p f := by simpa [hp, Role.claim] using h.eq_claim (p := p)
  obtain ⟨h₁, h₂, -, h₄, h₅, h₆, h₇, h₈⟩ := h
  refine ⟨h₁, h₂, ?_, ?_, ?_, trivial, h₇, by simp⟩
  · grind -linarith
  · grind -linarith
  · grind -linarith

/-- What is only to be closed is closed. -/
theorem Inv.closed (h : Inv v c) (hp : v.role p = .closing f) :
    Inv { v with
      proc := Function.update v.proc f none, obj := Function.update v.obj f 0
      lock := fun o => if v.lock o = some f then none else v.lock o
      role := Function.update v.role p .out } c := by
  obtain ⟨h₁, h₂, h₃, h₄, h₅, h₆, h₇, h₈⟩ := h
  refine ⟨?_, ?_, ?_, h₄, ?_, ?_, h₇, h₈⟩
  · grind -linarith
  · grind -linarith
  · grind -linarith
  · grind -linarith
  · cases c <;> grind -linarith

/-- The creator returns its handle. -/
theorem Inv.handleNew (h : Inv v c) (hp : v.role p = .making f) :
    Inv { v with
      creating := Function.update v.creating (v.obj f) false, role := Function.update v.role p .out
      handles := Function.update v.handles p (v.handles p ++ [f]) } (.handle p f) := by
  have hother := h.claims_none (p := p) (by simp [hp, Role.claim])
  obtain rfl : c = .making p f := by simpa [hp, Role.claim] using h.eq_claim (p := p)
  obtain ⟨h₁, h₂, -, h₄, h₅, h₆, h₇, h₈⟩ := h
  refine ⟨h₁, h₂, ?_, ?_, ?_, ?_, ?_, h₈⟩
  · grind -linarith
  · grind -linarith
  · grind -linarith
  · grind -linarith
  · grind -linarith

/-- A handle is returned on a recovered object. -/
theorem Inv.handleOld (h : Inv v c) (hp : v.role p = .owner f) :
    Inv { v with
      role := Function.update v.role p .out, handles := Function.update v.handles p (v.handles p ++ [f]) }
      (.handle p f) := by
  have hother := h.claims_none (p := p) (by simp [hp, Role.claim])
  obtain rfl : c = .owner p f := by simpa [hp, Role.claim] using h.eq_claim (p := p)
  obtain ⟨h₁, h₂, -, h₄, h₅, h₆, h₇, h₈⟩ := h
  refine ⟨h₁, h₂, ?_, ?_, ?_, ?_, ?_, h₈⟩
  · grind -linarith
  · grind -linarith
  · grind -linarith
  · grind -linarith
  · grind -linarith

/-- A handle is given up. -/
theorem Inv.detach (h : Inv v c) (hf : f ∈ v.handles p) :
    Inv { v with
      role := Function.update v.role p (.closing f)
      handles := Function.update v.handles p ((v.handles p).erase f) } .none := by
  obtain rfl := h.handle p f hf
  obtain ⟨h₁, h₂, h₃, h₄, h₅, h₆, h₇, h₈⟩ := h
  refine ⟨h₁, h₂, ?_, ?_, ?_, trivial, ?_, h₈⟩
  · intro q
    have := h₃ q
    cases hq : v.role q <;> grind -linarith
  · grind -linarith [List.Nodup.mem_erase_iff]
  · grind -linarith
  · grind -linarith [List.Nodup.erase]

/-- The process that has the claim. -/
def Claim.proc : Claim → Option Nat
  | .none => Option.none
  | .fresh p _ | .making p _ | .failing p _ | .failed p _ | .owner p _ | .handle p _ => some p

theorem Role.claim_proc {r : Role} (h : r.claim p ≠ .none) : (r.claim p).proc = some p := by
  cases r <;> first | rfl | exact absurd rfl h

/-- A process exits; what it has created is no longer under creation. -/
theorem Inv.exit (h : Inv v c) {creating : Nat → Bool} (hc : c.proc ≠ some p → creating = v.creating) :
    ∃ c', Inv { v with
      proc := fun f => if v.proc f = some p then none else v.proc f
      obj := fun f => if v.proc f = some p then 0 else v.obj f
      lock := fun o => (v.lock o).filter fun f => v.proc f != some p
      role := Function.update v.role p .out
      handles := Function.update v.handles p []
      creating := creating } c' := by
  by_cases hp : c.proc = some p
  · have hother : ∀ q, q ≠ p → (v.role q).claim q = .none := by
      intro q hq
      refine (h.role q).resolve_right fun hc => hq ?_
      have := Role.claim_proc (p := q) (r := v.role q) (by intro h; rw [h] at hc; rw [← hc] at hp; cases hp)
      rw [hc, hp] at this
      exact (Option.some.inj this).symm
    obtain ⟨h₁, h₂, -, h₄, h₅, h₆, h₇, h₈⟩ := h
    refine ⟨.none, ?_, ?_, ?_, ?_, ?_, trivial, ?_, h₈⟩
    · grind -linarith
    · grind -linarith [Option.filter_eq_some_iff]
    · grind -linarith
    · intro q f hf
      have := h₄ q f
      grind -linarith [Claim.proc]
    · grind -linarith
    · grind -linarith
  · obtain rfl := hc hp
    obtain ⟨h₁, h₂, h₃, h₄, h₅, h₆, h₇, h₈⟩ := h
    refine ⟨c, ?_, ?_, ?_, ?_, ?_, ?_, ?_, h₈⟩
    · grind -linarith
    · grind -linarith [Option.filter_eq_some_iff]
    · grind -linarith
    · grind -linarith
    · grind -linarith
    · cases c <;> grind -linarith [Claim.proc]
    · grind -linarith

end Steps

/-! ## The steps of the program -/

section View

variable (s : State) (p f o : Nat)

theorem view_setPc (c : Pc) : (setPc s p c).view = { s.view with role := Function.update s.view.role p c.role } := by
  have hrole : (fun q => (Function.update s.pc p c q).role) = Function.update s.view.role p c.role := by
    funext q
    simp only [Function.update_apply, State.view]
    split <;> rfl
  simp only [State.view, setPc, hrole]
  rfl

theorem view_ret (st : Status) : (ret s p st).view = { s.view with role := Function.update s.view.role p .out } :=
  view_setPc s p .idle

theorem view_retHandle :
    (retHandle s p f).view = { s.view with
      role := Function.update s.view.role p .out
      handles := Function.update s.handles p (s.handles p ++ [f]) } := by
  have := view_ret s p .ok
  rw [show (retHandle s p f).view = { (ret s p .ok).view with
    handles := Function.update s.handles p (s.handles p ++ [f]) } from rfl, this]

theorem view_openFile :
    (openFile s p o).view = { s.view with
      files := s.files + 1
      proc := Function.update s.view.proc s.files (some p), obj := Function.update s.view.obj s.files o } := by
  simp only [State.view, openFile, View.mk.injEq, true_and, and_true]
  refine ⟨?_, ?_⟩ <;>
  · funext g
    simp only [objOf, Function.update_apply]
    split <;> rfl

/-- The state after `shm_open` with `O_CREAT | O_EXCL`. -/
theorem view_create :
    State.view { openFile s p s.objects with
      name := some s.objects
      object := Function.update s.object s.objects .fresh
      objects := s.objects + 1
      creating := Function.update s.creating s.objects true } = { s.view with
      name := some s.objects, objects := s.objects + 1, files := s.files + 1
      proc := Function.update s.view.proc s.files (some p), obj := Function.update s.view.obj s.files s.objects
      creating := Function.update s.creating s.objects true } := by
  have := view_openFile s p s.objects
  rw [show State.view { openFile s p s.objects with
      name := some s.objects
      object := Function.update s.object s.objects .fresh
      objects := s.objects + 1
      creating := Function.update s.creating s.objects true } = { (openFile s p s.objects).view with
        name := some s.objects, objects := s.objects + 1
        creating := Function.update s.creating s.objects true } from rfl, this]

theorem view_closeFile :
    (closeFile s f).view = { s.view with
      proc := Function.update s.view.proc f none, obj := Function.update s.view.obj f 0
      lock := fun o => if s.view.lock o = some f then none else s.view.lock o } := by
  simp only [State.view, closeFile, View.mk.injEq, true_and]
  refine ⟨?_, ?_, rfl, trivial⟩ <;>
  · funext g
    simp only [objOf, Function.update_apply]
    split <;> rfl

theorem view_exit :
    (exit s p).view = { s.view with
      proc := fun f => if s.view.proc f = some p then none else s.view.proc f
      obj := fun f => if s.view.proc f = some p then 0 else s.view.obj f
      lock := fun o => (s.view.lock o).filter fun f => s.view.proc f != some p
      role := Function.update s.view.role p .out
      handles := Function.update s.handles p []
      creating := (exit s p).creating } := by
  have hrole : (fun q => (Function.update s.pc p .idle q).role) = Function.update s.view.role p .out := by
    funext q
    simp only [Function.update_apply, State.view]
    split <;> rfl
  simp only [State.view, exit, View.mk.injEq, true_and, and_true]
  refine ⟨?_, ?_, hrole⟩ <;>
  · funext g
    try simp only [objOf]
    rcases Option.eq_none_or_eq_some (s.file g) with h | ⟨F, h⟩
    · simp [h]
    · by_cases hF : F.proc = p <;> simp [h, hF, Option.filter]

end View

section Program

variable {s s' : State} {p : Nat}

/-- Some process has the claim, or none. -/
def Claimed (s : State) : Prop := ∃ c, Inv s.view c

theorem view_role (c : Pc) (h : s.pc p = c) : s.view.role p = c.role := by simp [State.view, h]

/-- The process goes on in the same role. -/
theorem Claimed.stay (h : Claimed s) {c : Pc} (hr : c.role = (s.pc p).role) : Claimed (setPc s p c) := by
  obtain ⟨d, h⟩ := h
  refine ⟨d, ?_⟩
  have : Function.update s.view.role p c.role = s.view.role := by
    rw [hr]; exact Function.update_eq_self p _
  rw [view_setPc, this]
  exact h

/-- A store to the object does not change what the argument is about. -/
theorem Claimed.store (h : Claimed s) {c : Pc} (f : Nat) (x : Object) (hr : c.role = (s.pc p).role) :
    Claimed (setPc (setObject s f x) p c) := Claimed.stay (s := setObject s f x) h hr

theorem Claimed.move {r : Role} (h : ∃ c, Inv { s.view with role := Function.update s.view.role p r } c) {c : Pc}
    (hr : c.role = r) : Claimed (setPc s p c) := by
  obtain ⟨d, h⟩ := h
  exact ⟨d, by rw [view_setPc, hr]; exact h⟩

theorem Claimed.exit (h : Claimed s) : Claimed (exit s p) := by
  obtain ⟨c, h⟩ := h
  have hcr : c.proc ≠ some p → (Shm.exit s p).creating = s.view.creating := by
    intro hc
    have hnone : (s.pc p).creates s = none := by
      by_contra hcreates
      have hne : (s.view.role p).claim p ≠ .none := by
        cases hpc : s.pc p <;> simp_all [Pc.creates, State.view, Pc.role, Role.claim]
      exact hc (h.eq_claim hne ▸ Role.claim_proc hne)
    simp only [Shm.exit, hnone, State.view]
  obtain ⟨c', h'⟩ := h.exit hcr
  exact ⟨c', by rw [view_exit]; exact h'⟩

/-- The lock of a description, as the code tests it. -/
theorem writerLock_eq (s : State) (f : Nat) (ok : Bool) :
    (writerLock s f ok = (some { s with lock := Function.update s.lock (objOf s f) (some f) }, false) ∧
      ok = true ∧ s.lock (objOf s f) = none) ∨ ∃ held, writerLock s f ok = (none, held) := by
  unfold writerLock
  split
  · exact .inr ⟨_, rfl⟩
  · rename_i hok
    split
    · rename_i hl
      exact .inl ⟨rfl, by simpa using hok, hl⟩
    · exact .inr ⟨_, rfl⟩

theorem Claimed.lockNew (h : Claimed s) {f : Nat} {ok : Bool} {c₁ c₂ : Pc} (hpc : (s.pc p).role = .fresh f)
    (h₁ : c₁.role = .making f) (h₂ : c₂.role = .failing f)
    (hs : (match writerLock s f ok with
      | (some x, _) => some (setPc x p c₁)
      | (none, _) => some (setPc s p c₂)) = some s') : Claimed s' := by
  obtain ⟨c, h⟩ := h
  rcases writerLock_eq s f ok with ⟨hx, -, -⟩ | ⟨held, hx⟩
  · rw [hx] at hs
    obtain rfl := Option.some.inj hs
    exact ⟨_, by rw [view_setPc, h₁]; exact h.lockNew hpc⟩
  · rw [hx] at hs
    obtain rfl := Option.some.inj hs
    exact ⟨_, by rw [view_setPc, h₂]; exact h.fail (.inl hpc)⟩

theorem Claimed.lockOld (h : Claimed s) {f : Nat} {ok : Bool} {c₁ : Pc} {c₂ : Bool → Pc}
    (hpc : (s.pc p).role = .opened f) (h₁ : c₁.role = .owner f) (h₂ : ∀ held, (c₂ held).role = .closing f)
    (hu : ok = true → s.lock (objOf s f) = none → s.name = some (objOf s f) ∧ s.creating (objOf s f) = false)
    (hs : (match writerLock s f ok with
      | (some x, _) => some (setPc x p c₁)
      | (none, held) => some (setPc s p (c₂ held))) = some s') : Claimed s' := by
  obtain ⟨c, h⟩ := h
  rcases writerLock_eq s f ok with ⟨hx, hok, hl⟩ | ⟨held, hx⟩
  · rw [hx] at hs
    obtain rfl := Option.some.inj hs
    exact ⟨_, by rw [view_setPc, h₁]; exact h.lockOld hpc hl (hu hok hl).1 (hu hok hl).2⟩
  · rw [hx] at hs
    obtain rfl := Option.some.inj hs
    obtain ⟨c', h'⟩ := h.close (.inl hpc)
    exact ⟨c', by rw [view_setPc, h₂]; exact h'⟩

theorem Claimed.opens (h : Claimed s) {o : Nat} {c : Pc} (hn : s.name = some o) (hc : c.role = .opened s.files) :
    Claimed (setPc (openFile s p o) p c) := by
  obtain ⟨d, h⟩ := h
  exact ⟨d, by rw [view_setPc, view_openFile, hc]; exact h.open (h.name o hn)⟩

/-- One step of a call. -/
theorem Claimed.next (h : Claimed s) {ok : Bool} (hu : undisturbed s (.next p ok) = true)
    (hs : next s p ok = some s') : Claimed s' := by
  obtain ⟨c, hI⟩ := id h
  cases hpc : s.pc p with
  | idle => simp [Shm.next, hpc] at hs
  | create size =>
    simp only [Shm.next, hpc] at hs
    split at hs
    · exact Option.some.inj hs ▸ h.stay (c := .idle) (by rw [hpc]; rfl)
    · split at hs
      · exact Option.some.inj hs ▸ h.stay (by rw [hpc]; rfl)
      · rename_i hn
        obtain rfl := Option.some.inj hs
        refine ⟨.fresh p s.files, ?_⟩
        rw [view_setPc, view_create]
        exact hI.create hn
  | lockNew f size =>
    simp only [Shm.next, hpc] at hs
    exact h.lockNew (by rw [hpc]; rfl) rfl rfl hs
  | truncate f size =>
    simp only [Shm.next, hpc] at hs
    split at hs
    · exact Option.some.inj hs ▸ .move ⟨_, hI.fail (.inr (view_role _ hpc))⟩ rfl
    · exact Option.some.inj hs ▸ h.store _ _ (by rw [hpc]; rfl)
  | mapNew f size =>
    simp only [Shm.next, hpc] at hs
    split at hs
    · exact Option.some.inj hs ▸ .move ⟨_, hI.fail (.inr (view_role _ hpc))⟩ rfl
    · exact Option.some.inj hs ▸ h.stay (by rw [hpc]; rfl)
  | initNew f size i =>
    simp only [Shm.next, hpc] at hs
    refine Option.some.inj hs ▸ h.store _ _ ?_
    rw [hpc]
    split <;> rfl
  | callocNew f size =>
    simp only [Shm.next, hpc] at hs
    split at hs
    · exact Option.some.inj hs ▸ .move ⟨_, hI.fail (.inr (view_role _ hpc))⟩ rfl
    · obtain rfl := Option.some.inj hs
      exact ⟨_, by rw [view_retHandle]; exact hI.handleNew (view_role _ hpc)⟩
  | failClose f st =>
    simp only [Shm.next, hpc] at hs
    obtain rfl := Option.some.inj hs
    exact ⟨_, by rw [view_setPc, view_closeFile]; exact hI.failClose (view_role _ hpc)⟩
  | failUnlink o st =>
    simp only [Shm.next, hpc] at hs
    obtain rfl := Option.some.inj hs
    exact ⟨_, by rw [view_ret]; exact hI.failUnlink (view_role _ hpc)⟩
  | openOld size =>
    simp only [Shm.next, hpc] at hs
    split at hs
    · exact Option.some.inj hs ▸ h.stay (c := .idle) (by rw [hpc]; rfl)
    · split at hs
      · exact Option.some.inj hs ▸ h.stay (c := .idle) (by rw [hpc]; rfl)
      · rename_i o hn
        exact Option.some.inj hs ▸ h.opens hn rfl
  | lockOld f size =>
    simp only [Shm.next, hpc] at hs
    refine h.lockOld (by rw [hpc]; rfl) rfl (fun _ => rfl) (fun hok hl => ?_) hs
    simpa [undisturbed, hpc, hok, hl] using hu
  | readOld f size =>
    have hclose : ∀ st, Claimed (setPc s p (.close f st)) := fun st => .move (hI.close (.inr (view_role _ hpc))) rfl
    simp only [Shm.next, hpc] at hs
    split at hs
    · exact Option.some.inj hs ▸ hclose _
    · split at hs
      · exact Option.some.inj hs ▸ hclose _
      · split at hs
        · exact Option.some.inj hs ▸ hclose _
        · exact Option.some.inj hs ▸ h.stay (by rw [hpc]; rfl)
  | mapOld f size =>
    simp only [Shm.next, hpc] at hs
    split at hs
    · exact Option.some.inj hs ▸ .move (hI.close (.inr (view_role _ hpc))) rfl
    · exact Option.some.inj hs ▸ h.stay (by rw [hpc]; rfl)
  | clearOld f size =>
    simp only [Shm.next, hpc] at hs
    exact Option.some.inj hs ▸ h.store _ _ (by rw [hpc]; rfl)
  | wipeOld f size =>
    simp only [Shm.next, hpc] at hs
    exact Option.some.inj hs ▸ h.store _ _ (by rw [hpc]; rfl)
  | initOld f size i =>
    simp only [Shm.next, hpc] at hs
    refine Option.some.inj hs ▸ h.store _ _ ?_
    rw [hpc]
    split <;> rfl
  | callocOld f size =>
    simp only [Shm.next, hpc] at hs
    split at hs
    · exact Option.some.inj hs ▸ .move (hI.close (.inr (view_role _ hpc))) rfl
    · obtain rfl := Option.some.inj hs
      exact ⟨_, by rw [view_retHandle]; exact hI.handleOld (view_role _ hpc)⟩
  | close f st =>
    simp only [Shm.next, hpc] at hs
    obtain rfl := Option.some.inj hs
    exact ⟨_, by rw [view_ret, view_closeFile]; exact hI.closed (view_role _ hpc)⟩
  | cleanOpen =>
    simp only [Shm.next, hpc] at hs
    split at hs
    · exact Option.some.inj hs ▸ h.stay (c := .idle) (by rw [hpc]; rfl)
    · split at hs
      · exact Option.some.inj hs ▸ h.stay (c := .idle) (by rw [hpc]; rfl)
      · rename_i o hn
        exact Option.some.inj hs ▸ h.opens hn rfl
  | cleanLock f =>
    simp only [Shm.next, hpc] at hs
    refine h.lockOld (by rw [hpc]; rfl) rfl (fun _ => rfl) (fun hok hl => ?_) hs
    simpa [undisturbed, hpc, hok, hl] using hu
  | cleanUnlink f =>
    simp only [Shm.next, hpc] at hs
    split at hs
    · exact Option.some.inj hs ▸ .move (hI.close (.inr (view_role _ hpc))) rfl
    · obtain rfl := Option.some.inj hs
      exact ⟨_, by rw [view_setPc]; exact hI.unlink (view_role _ hpc)⟩
  | detach f =>
    simp only [Shm.next, hpc] at hs
    obtain rfl := Option.some.inj hs
    exact ⟨_, by rw [view_setPc, view_closeFile]; exact hI.closed (view_role _ hpc)⟩

theorem Claimed.step (h : Claimed s) {a : Act} (hu : undisturbed s a = true) (hs : step s a = some s') :
    Claimed s' := by
  cases a with
  | create p size =>
    simp only [Shm.step] at hs
    split at hs
    · cases hs
    · rename_i hp
      have hp := not_not.mp hp
      split at hs
      · exact Option.some.inj hs ▸ h.stay (c := .idle) (by rw [hp])
      · exact Option.some.inj hs ▸ h.stay (by rw [hp]; rfl)
  | cleanup p =>
    simp only [Shm.step] at hs
    split at hs
    · cases hs
    · rename_i hp
      exact Option.some.inj hs ▸ h.stay (by rw [not_not.mp hp]; rfl)
  | detach p f =>
    simp only [Shm.step] at hs
    split at hs
    · cases hs
    · rename_i hp
      obtain rfl := Option.some.inj hs
      obtain ⟨c, hI⟩ := h
      exact ⟨_, by rw [view_setPc]; exact hI.detach (not_not.mp (not_or.mp hp).2)⟩
  | use p f bump off byte =>
    simp only [Shm.step] at hs
    split at hs
    · cases hs
    · exact Option.some.inj hs ▸ h
  | next p ok => exact h.next hu hs
  | exit p => exact Option.some.inj hs ▸ h.exit

/-- In every run in which whoever locks an object it has opened finds the name
bound to it still, and the call that created it over, at most one process
holds a writable handle, and nobody removes the name of an object that another
process has locked. -/
theorem single_writer (h : machine.ReachBy (fun s a => undisturbed s a = true) s) :
    SingleWriter s ∧ UnlinkSafe s := by
  have hI : Claimed s := h.invariant (fun s hs => by rw [show s = State.initial from hs]; exact ⟨_, inv_initial⟩)
    fun _ _ _ _ hI hc hs => hI.step hc hs
  obtain ⟨c, hI⟩ := hI
  exact ⟨hI.singleWriter, hI.unlinkSafe⟩

end Program

/-! ## A lock that comes too late -/

/-- The next `k` steps of `p`, none of which fails. -/
def steps (p k : Nat) : List Act := List.replicate k (.next p true)

/-- Process 0 creates the segment and exits. -/
def staleSegment : List Act := .create 0 128 :: steps 0 12 ++ ([.exit 0] : List Act)

/-- Process 1 opens the stale object to clean it up. Process 2 cleans it up,
and process 3 creates the segment anew. Process 1 locks the old object and
removes the name, and process 4 creates the segment once more. -/
def lateCleanup : List Act :=
  staleSegment ++ .cleanup 1 :: steps 1 1 ++ .cleanup 2 :: steps 2 4 ++ .create 3 128 :: steps 3 12 ++ steps 1 3 ++
    .create 4 128 :: steps 4 12

/-- Processes 3 and 4 both hold a writable handle of the name. -/
theorem two_writers : ¬ ∀ s, machine.Reach s → SingleWriter s ∧ UnlinkSafe s := by
  intro hall
  obtain ⟨s, hs, hp⟩ := Machine.exists_reach_of_run (M := machine) (s := State.initial) (l := lateCleanup)
    (p := fun s => s.handles 3 == [3] && s.handles 4 == [4]) rfl (by decide +kernel)
  simp only [Bool.and_eq_true, beq_iff_eq] at hp
  have := (hall s hs).1 3 4 3 4 (by simp [hp.1]) (by simp [hp.2])
  exact absurd this.1 (by decide)

/-- Process 1 recovers a stale segment while process 2 finds it in use. -/
def recovery : List Act :=
  staleSegment ++ .create 1 128 :: steps 1 3 ++ .create 2 128 :: steps 2 4 ++ steps 1 12

theorem single_writer_recovery :
    ∃ s, machine.ReachBy (fun s a => undisturbed s a = true) s ∧ s.handles 1 = [1] ∧ s.result 2 = some .inUse ∧
      SingleWriter s ∧ UnlinkSafe s := by
  obtain ⟨s, hs, hp⟩ := Machine.exists_reachBy_of_run (M := machine) (C := fun s a => undisturbed s a = true)
    (c := undisturbed) (fun _ _ h => h) (s := State.initial) (l := recovery)
    (p := fun s => s.handles 1 == [1] && s.result 2 == some .inUse) rfl (by decide +kernel)
  simp only [Bool.and_eq_true, beq_iff_eq] at hp
  exact ⟨s, hs, hp.1, hp.2, single_writer hs⟩

end Dlsmc.Shm
