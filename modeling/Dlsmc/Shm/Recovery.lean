import Dlsmc.Shm.Segment

/-!
# Owners that are killed

Owners of one segment name, all with the same size, come one after the other;
each may be killed at any step. What the next one finds is decided by the
object the name denotes: its header is complete, unless the one before was
killed between clearing or creating the header and its last store (`unfinished`).
Then `read_header` rejects the object for good, for nothing but
`dlsm_shm_cleanup_if_stale` removes the name.
-/

namespace Dlsmc.Shm

/-- No process is inside a call or holds a handle. -/
def Quiet (s : State) : Prop := ∀ p, s.pc p = .idle ∧ s.handles p = []

/-- The owners ask for one size, and one begins when no other is left. -/
def InTurn (size : Nat) (s : State) : Act → Prop
  | .create _ size' => size' = size ∧ Quiet s
  | .cleanup _ => Quiet s
  | _ => True

/-- The header of the object the name denotes is not complete. -/
def Pc.unfinished : Pc → Bool
  | .lockNew _ _ | .truncate _ _ | .mapNew _ _ | .initNew _ _ _ | .wipeOld _ _ | .initOld _ _ _ => true
  | .failClose _ st | .failUnlink _ st => st != .nomem
  | _ => false

section
-- its equations are made here, once
attribute [local simp] Pc.unfinished
end

/-- No process is killed while the header is not complete. -/
def Spared (s : State) : Act → Prop
  | .exit p => (s.pc p).unfinished = false
  | _ => True

/-- The steps of process `p` alone, none of which fails, up to the end of its call. -/
def alone (s : State) (p : Nat) : Nat → State
  | 0 => s
  | n + 1 =>
    match next s p true with
    | none => s
    | some s' => alone s' p n

/-- More steps than `dlsm_shm_create_or_recover` makes. -/
def callSteps : Nat := 16

/-- `dlsm_shm_create_or_recover`, run alone by process `p`. -/
def createOrRecover (s : State) (p size : Nat) : State := alone (setPc s p (.create size)) p callSteps

/-- The next owner, whoever it is, gets a handle of a fresh arena. -/
def Recovers (size : Nat) (s : State) : Prop :=
  ∀ p, (createOrRecover s p size).pc p = .idle ∧ (createOrRecover s p size).result p = some .ok ∧
    ∃ f, (createOrRecover s p size).handles p = [f] ∧
      (createOrRecover s p size).name = some (objOf (createOrRecover s p size) f) ∧
      readHeader ((createOrRecover s p size).object (objOf (createOrRecover s p size) f)) = .ok size ∧
      ((createOrRecover s p size).object (objOf (createOrRecover s p size) f)).arena = (fun _ => 0) ∧
      ((createOrRecover s p size).object (objOf (createOrRecover s p size) f)).bump = alignUp headerSize 16

/-! ## The header -/

/-- The stores of `init_header` before store `i` are made. -/
structure Made (size i : Nat) (o : Object) : Prop where
  length : o.size = size
  unmarked : i ≤ initLast → o.magic ≠ shmMagic
  magic : initLast < i → o.magic = shmMagic
  version : 1 < i → o.version = shmVersion
  base : 2 < i → o.baseAddr = shmBaseAddr
  total : 3 < i → o.totalSize = size
  owner : 5 < i → o.ownerPid ≠ 0

/-- A size that can be mapped at the base address, and has room for the header. -/
structure Mappable (size : Nat) : Prop where
  low : headerSize + 16 ≤ size
  high : size ≤ uintptrMax - shmBaseAddr

section Header

variable {size i p : Nat} {o : Object}

theorem Made.store (h : Made size i o) (hi : i ≤ initLast) : Made size (i + 1) (o.initStore size (p + 1) i) := by
  obtain ⟨length, unmarked, magic, version, base, total, owner⟩ := h
  have hne : (0 : Nat) ≠ shmMagic := by decide
  obtain rfl | rfl | rfl | rfl | rfl | rfl | rfl : i = 0 ∨ i = 1 ∨ i = 2 ∨ i = 3 ∨ i = 4 ∨ i = 5 ∨ i = 6 := by
    have : initLast = 6 := rfl
    omega
  all_goals constructor <;> simp_all [Object.initStore, initLast]

theorem Made.header (hs : Mappable size) (h : Made size (initLast + 1) o) : readHeader o = .ok size := by
  obtain ⟨low, high⟩ := hs
  have hbase : shmBaseAddr ≤ uintptrMax := by decide
  have hlen : ¬ size < headerSize := by omega
  have hroom : ¬ size < headerSize + 16 := by omega
  have hfit : ¬ uintptrMax - size < shmBaseAddr := by omega
  have htotal := h.total (by decide)
  have howner := h.owner (by decide)
  simp [readHeader, h.length, h.magic (by decide), h.version (by decide), h.base (by decide), htotal, howner, hlen,
    hroom, hfit]

theorem readHeader_badMagic (h : o.magic ≠ shmMagic) : readHeader o = .error .badMagic := by
  simp [readHeader, h]

theorem made_zero (hl : o.size = size) (hmagic : o.magic ≠ shmMagic) : Made size 0 o := by
  constructor <;> simp [hl, hmagic]

/-- The size a header gives is that of its object. -/
theorem readHeader_size (h : readHeader o = .ok size) : o.size = size := by
  unfold readHeader at h
  split at h
  · cases h
  split at h
  · cases h
  split at h
  · cases h
  split at h
  · cases h
  · rename_i hbad
    simp only [not_or, not_not] at hbad
    exact hbad.1.symm.trans (Except.ok.inj h)

end Header

/-! ## Owners in turn -/

/-- The description a process works on. -/
def Pc.fd : Pc → Option Nat
  | .lockNew f _ | .truncate f _ | .mapNew f _ | .initNew f _ _ | .callocNew f _ | .failClose f _ | .lockOld f _
  | .readOld f _ | .mapOld f _ | .clearOld f _ | .wipeOld f _ | .initOld f _ _ | .callocOld f _ | .close f _
  | .cleanLock f | .cleanUnlink f | .detach f => some f
  | .idle | .create _ | .failUnlink _ _ | .openOld _ | .cleanOpen => none

/-- Only process `p` is about; what is locked is locked by its handle, or by
the description `fd` it works on. -/
structure Turn (s : State) (p : Nat) (fd : Option Nat) : Prop where
  others : ∀ q, q ≠ p → s.pc q = .idle ∧ s.handles q = []
  files : ∀ f F, s.file f = some F → f < s.files
  lock : ∀ o f, s.lock o = some f → s.file f = some ⟨p, o⟩ ∧ (f ∈ s.handles p ∨ fd = some f)

/-- The description `f` of process `p` is of the object `o` the name denotes. -/
def Named (s : State) (p f o : Nat) : Prop := s.file f = some ⟨p, o⟩ ∧ s.name = some o

/-- The object the name denotes can be recovered. -/
def Sound (size : Nat) (s : State) : Prop := ∀ o, s.name = some o → readHeader (s.object o) = .ok size

/-- What is known of that object while process `p` stands at a place of its call. -/
def Stage (size : Nat) (s : State) (p : Nat) : Pc → Prop
  | .lockNew f n | .truncate f n => n = size ∧ ∃ o, Named s p f o ∧ (s.object o).magic ≠ shmMagic
  | .mapNew f n | .wipeOld f n => n = size ∧ ∃ o, Named s p f o ∧ Made size 0 (s.object o)
  | .initNew f n i | .initOld f n i => n = size ∧ i ≤ initLast ∧ ∃ o, Named s p f o ∧ Made size i (s.object o)
  | .failClose f st =>
    if st = .nomem then Sound size s else ∃ o, Named s p f o ∧ (s.object o).magic ≠ shmMagic
  | .failUnlink o st =>
    if st = .nomem then Sound size s else s.name = some o ∧ (s.object o).magic ≠ shmMagic
  | .create n | .openOld n => n = size ∧ Sound size s
  | .lockOld f n | .readOld f n | .mapOld f n | .clearOld f n => n = size ∧ Sound size s ∧ ∃ o, Named s p f o
  | .cleanLock f => Sound size s ∧ ∃ o, Named s p f o
  | _ => Sound size s

section
-- their equations are made here, once
attribute [local simp] Pc.fd Stage
end

/-- At most one owner is about. -/
def Owned (size : Nat) (s : State) : Prop := ∃ p, Turn s p (s.pc p).fd ∧ Stage size s p (s.pc p)

section Turns

variable {s : State} {p f o : Nat} {fd : Option Nat}

attribute [local grind =] Function.update_apply

theorem Turn.setPc (h : Turn s p fd) (c : Pc) : Turn (setPc s p c) p fd := by
  obtain ⟨others, files, lock⟩ := h
  constructor <;> simp only [Shm.setPc] <;> grind -linarith

theorem Turn.ret (h : Turn s p fd) (st : Status) : Turn (ret s p st) p fd := by
  obtain ⟨others, files, lock⟩ := h
  constructor <;> simp only [Shm.ret, Shm.setPc] <;> grind -linarith

theorem Turn.setObject (h : Turn s p fd) (x : Object) : Turn (setObject s f x) p fd := ⟨h.others, h.files, h.lock⟩

theorem Turn.openFile (h : Turn s p none) : Turn (openFile s p o) p (some s.files) := by
  obtain ⟨others, files, lock⟩ := h
  constructor <;> simp only [Shm.openFile] <;> grind -linarith

theorem Turn.closeFile (h : Turn s p (some f)) : Turn (closeFile s f) p none := by
  obtain ⟨others, files, lock⟩ := h
  constructor <;> simp only [Shm.closeFile] <;> grind -linarith

theorem Turn.locked (h : Turn s p (some f)) (hf : s.file f = some ⟨p, o⟩) :
    Turn { s with lock := Function.update s.lock o (some f) } p (some f) := by
  obtain ⟨others, files, lock⟩ := h
  constructor <;> grind -linarith

theorem Turn.retHandle (h : Turn s p (some f)) : Turn (retHandle s p f) p none := by
  obtain ⟨others, files, lock⟩ := h
  constructor <;> simp only [Shm.retHandle, Shm.ret, Shm.setPc] <;> grind -linarith

/-- Where everyone is out, nothing is locked, and the next may be any process. -/
theorem Turn.quiet (h : Turn s p (s.pc p).fd) (hq : Quiet s) (q : Nat) : Turn s q none ∧ ∀ o, s.lock o = none := by
  have hlock : ∀ o, s.lock o = none := fun o => by
    cases hl : s.lock o with
    | none => rfl
    | some f =>
      have := (h.lock o f hl).2
      simp [(hq p).1, (hq p).2, Pc.fd] at this
  exact ⟨⟨fun q _ => hq q, h.files, fun o f hl => by simp [hlock o] at hl⟩, hlock⟩

end Turns

section Steps

variable {size p : Nat} {s s' : State}

/-- The owner goes on at `c`, where it works on the same description. -/
theorem Turn.goto {c : Pc} (h : Turn s p c.fd) (hst : Stage size s p c) : Owned size (Shm.setPc s p c) := by
  have hpc : (Shm.setPc s p c).pc p = c := Function.update_self ..
  refine ⟨p, ?_, ?_⟩
  · rw [hpc]
    exact h.setPc c
  · rw [hpc]
    cases c <;> exact hst

/-- The call of the owner returns. -/
theorem Turn.done (h : Turn s p none) (hs : Sound size s) (st : Status) : Owned size (Shm.ret s p st) := by
  have hpc : (Shm.ret s p st).pc p = .idle := Function.update_self ..
  refine ⟨p, ?_, ?_⟩
  · rw [hpc]
    exact h.ret st
  · rw [hpc]
    exact hs

theorem Turn.doneHandle {f : Nat} (h : Turn s p (some f)) (hs : Sound size s) : Owned size (Shm.retHandle s p f) := by
  have hpc : (Shm.retHandle s p f).pc p = .idle := Function.update_self ..
  refine ⟨p, ?_, ?_⟩
  · rw [hpc]
    exact h.retHandle
  · rw [hpc]
    exact hs

theorem objOf_eq {f o : Nat} (h : s.file f = some ⟨p, o⟩) : objOf s f = o := by simp [objOf, h]

/-- A store to the object the name denotes. -/
theorem named_setObject {f o : Nat} (h : Named s p f o) (x : Object) :
    Named (setObject s f x) p f o ∧ (setObject s f x).object o = x :=
  ⟨h, by simp [setObject, objOf_eq h.1]⟩

/-- Store `i` of `init_header`; the last one completes the header. -/
theorem named_store (hm : Mappable size) {f o i : Nat} (hn : Named s p f o) (hmade : Made size i (s.object o))
    (hi : i ≤ initLast) {s₁ : State} (hs : s₁ = setObject s f ((s.object o).initStore size (p + 1) i)) :
    Named s₁ p f o ∧ Made size (i + 1) (s₁.object o) ∧ (¬ i < initLast → Sound size s₁) := by
  subst hs
  obtain ⟨hn', hobj⟩ := named_setObject hn ((s.object o).initStore size (p + 1) i)
  have hmade' := hmade.store (p := p) hi
  refine ⟨hn', by rw [hobj]; exact hmade', fun hlast o' ho' => ?_⟩
  obtain rfl : o = o' := Option.some.inj (hn'.2.symm.trans ho')
  obtain rfl : i = initLast := by omega
  rw [hobj]
  exact hmade'.header hm

theorem writerLock_cases (s : State) (f : Nat) (ok : Bool) :
    writerLock s f ok = (some { s with lock := Function.update s.lock (objOf s f) (some f) }, false) ∨
      ∃ held, writerLock s f ok = (none, held) := by
  unfold writerLock
  split
  · exact .inr ⟨_, rfl⟩
  · split
    · exact .inl rfl
    · exact .inr ⟨_, rfl⟩

/-- A step of the owner. -/
theorem Turn.next (hm : Mappable size) {ok : Bool} (h : Turn s p (s.pc p).fd) (hst : Stage size s p (s.pc p))
    (hs : Shm.next s p ok = some s') : Owned size s' := by
  cases hpc : s.pc p with
  | idle => simp [Shm.next, hpc] at hs
  | create n =>
    rw [hpc] at h hst
    obtain ⟨rfl, hsound⟩ := hst
    simp only [Shm.next, hpc] at hs
    split at hs
    · exact Option.some.inj hs ▸ h.done hsound _
    split at hs
    · exact Option.some.inj hs ▸ Turn.goto (c := .openOld n) h ⟨rfl, hsound⟩
    · refine Option.some.inj hs ▸ Turn.goto (c := .lockNew s.files n) ?_ ⟨rfl, s.objects, ?_, ?_⟩
      · have h' := h.openFile (o := s.objects)
        exact ⟨h'.others, h'.files, h'.lock⟩
      · exact ⟨Function.update_self .., rfl⟩
      · simp only [Function.update_self]
        decide
  | lockNew f n =>
    rw [hpc] at h hst
    obtain ⟨rfl, o, hn, hmagic⟩ := hst
    simp only [Shm.next, hpc] at hs
    obtain hw | ⟨held, hw⟩ := writerLock_cases s f ok
    · rw [hw, objOf_eq hn.1] at hs
      exact Option.some.inj hs ▸ Turn.goto (c := .truncate f n) (h.locked hn.1) ⟨rfl, o, hn, hmagic⟩
    · rw [hw] at hs
      exact Option.some.inj hs ▸ Turn.goto (c := .failClose f .open) h ⟨o, hn, hmagic⟩
  | truncate f n =>
    rw [hpc] at h hst
    obtain ⟨rfl, o, hn, hmagic⟩ := hst
    simp only [Shm.next, hpc] at hs
    split at hs
    · exact Option.some.inj hs ▸ Turn.goto (c := .failClose f .ftruncate) h ⟨o, hn, hmagic⟩
    · rw [objOf_eq hn.1] at hs
      obtain ⟨hn', hobj⟩ := named_setObject hn { s.object o with size := n }
      refine Option.some.inj hs ▸ Turn.goto (c := .mapNew f n) (h.setObject _) ⟨rfl, o, hn', ?_⟩
      rw [hobj]
      constructor <;> simp [hmagic]
  | mapNew f n =>
    rw [hpc] at h hst
    obtain ⟨rfl, o, hn, hmade⟩ := hst
    simp only [Shm.next, hpc] at hs
    split at hs
    · exact Option.some.inj hs ▸ Turn.goto (c := .failClose f .baseOccupied) h ⟨o, hn, hmade.unmarked (Nat.zero_le _)⟩
    · exact Option.some.inj hs ▸ Turn.goto (c := .initNew f n 0) h ⟨rfl, Nat.zero_le _, o, hn, hmade⟩
  | initNew f n i =>
    rw [hpc] at h hst
    obtain ⟨rfl, hi, o, hn, hmade⟩ := hst
    simp only [Shm.next, hpc, objOf_eq hn.1] at hs
    obtain ⟨hn', hmade', hlast⟩ := named_store hm hn hmade hi rfl
    split at hs
    · exact Option.some.inj hs ▸ Turn.goto (c := .initNew f n (i + 1)) (h.setObject _) ⟨rfl, by omega, o, hn', hmade'⟩
    · rename_i hi'
      exact Option.some.inj hs ▸ Turn.goto (c := .callocNew f n) (h.setObject _) (hlast hi')
  | callocNew f n =>
    rw [hpc] at h hst
    simp only [Shm.next, hpc] at hs
    split at hs
    · exact Option.some.inj hs ▸ Turn.goto (c := .failClose f .nomem) h hst
    · exact Option.some.inj hs ▸ Turn.doneHandle (s := created s (objOf s f)) ⟨h.others, h.files, h.lock⟩ hst
  | failClose f st =>
    rw [hpc] at h hst
    simp only [Shm.next, hpc] at hs
    refine Option.some.inj hs ▸ Turn.goto (c := .failUnlink (objOf s f) st) h.closeFile ?_
    by_cases hst' : st = .nomem
    · simp only [Stage, hst', if_true] at hst ⊢
      exact hst
    · simp only [Stage, hst', if_false] at hst ⊢
      obtain ⟨o, hn, hmagic⟩ := hst
      rw [objOf_eq hn.1]
      exact ⟨hn.2, hmagic⟩
  | failUnlink o st =>
    rw [hpc] at h
    simp only [Shm.next, hpc] at hs
    exact Option.some.inj hs ▸ Turn.done (s := created { s with name := none } o) ⟨h.others, h.files, h.lock⟩
      (fun o h => by cases h) st
  | openOld n =>
    rw [hpc] at h hst
    obtain ⟨rfl, hsound⟩ := hst
    simp only [Shm.next, hpc] at hs
    split at hs
    · exact Option.some.inj hs ▸ h.done hsound _
    split at hs
    · exact Option.some.inj hs ▸ h.done hsound _
    · rename_i o hname
      exact Option.some.inj hs ▸ Turn.goto (c := .lockOld s.files n) h.openFile
        ⟨rfl, hsound, o, Function.update_self .., hname⟩
  | lockOld f n =>
    rw [hpc] at h hst
    obtain ⟨rfl, hsound, o, hn⟩ := hst
    simp only [Shm.next, hpc] at hs
    obtain hw | ⟨held, hw⟩ := writerLock_cases s f ok
    · rw [hw, objOf_eq hn.1] at hs
      exact Option.some.inj hs ▸ Turn.goto (c := .readOld f n) (h.locked hn.1) ⟨rfl, hsound, o, hn⟩
    · rw [hw] at hs
      exact Option.some.inj hs ▸ Turn.goto (c := .close f _) h hsound
  | readOld f n =>
    rw [hpc] at h hst
    obtain ⟨rfl, hsound, o, hn⟩ := hst
    simp only [Shm.next, hpc, objOf_eq hn.1, hsound o hn.2] at hs
    split at hs
    · exact Option.some.inj hs ▸ Turn.goto (c := .close f .open) h hsound
    · simp only [ne_eq, not_true_eq_false, if_false] at hs
      exact Option.some.inj hs ▸ Turn.goto (c := .mapOld f n) h ⟨rfl, hsound, o, hn⟩
  | mapOld f n =>
    rw [hpc] at h hst
    obtain ⟨rfl, hsound, o, hn⟩ := hst
    simp only [Shm.next, hpc] at hs
    split at hs
    · exact Option.some.inj hs ▸ Turn.goto (c := .close f .baseOccupied) h hsound
    · exact Option.some.inj hs ▸ Turn.goto (c := .clearOld f n) h ⟨rfl, hsound, o, hn⟩
  | clearOld f n =>
    rw [hpc] at h hst
    obtain ⟨rfl, hsound, o, hn⟩ := hst
    simp only [Shm.next, hpc, objOf_eq hn.1] at hs
    obtain ⟨hn', hobj⟩ := named_setObject hn { s.object o with magic := 0 }
    refine Option.some.inj hs ▸ Turn.goto (c := .wipeOld f n) (h.setObject _) ⟨rfl, o, hn', ?_⟩
    have hlen := readHeader_size (hsound o hn.2)
    rw [hobj]
    exact made_zero hlen (by show (0 : Nat) ≠ shmMagic; decide)
  | wipeOld f n =>
    rw [hpc] at h hst
    obtain ⟨rfl, o, hn, hmade⟩ := hst
    simp only [Shm.next, hpc, objOf_eq hn.1] at hs
    obtain ⟨hn', hobj⟩ := named_setObject hn { s.object o with arena := fun _ => 0 }
    refine Option.some.inj hs ▸ Turn.goto (c := .initOld f n 0) (h.setObject _) ⟨rfl, Nat.zero_le _, o, hn', ?_⟩
    rw [hobj]
    exact made_zero hmade.length (hmade.unmarked (Nat.zero_le _))
  | initOld f n i =>
    rw [hpc] at h hst
    obtain ⟨rfl, hi, o, hn, hmade⟩ := hst
    simp only [Shm.next, hpc, objOf_eq hn.1] at hs
    obtain ⟨hn', hmade', hlast⟩ := named_store hm hn hmade hi rfl
    split at hs
    · exact Option.some.inj hs ▸ Turn.goto (c := .initOld f n (i + 1)) (h.setObject _) ⟨rfl, by omega, o, hn', hmade'⟩
    · rename_i hi'
      exact Option.some.inj hs ▸ Turn.goto (c := .callocOld f n) (h.setObject _) (hlast hi')
  | callocOld f n =>
    rw [hpc] at h hst
    simp only [Shm.next, hpc] at hs
    split at hs
    · exact Option.some.inj hs ▸ Turn.goto (c := .close f .nomem) h hst
    · exact Option.some.inj hs ▸ h.doneHandle hst
  | close f st =>
    rw [hpc] at h hst
    simp only [Shm.next, hpc] at hs
    exact Option.some.inj hs ▸ h.closeFile.done hst st
  | cleanOpen =>
    rw [hpc] at h hst
    simp only [Shm.next, hpc] at hs
    split at hs
    · exact Option.some.inj hs ▸ h.done hst _
    split at hs
    · exact Option.some.inj hs ▸ h.done hst _
    · rename_i o hname
      exact Option.some.inj hs ▸ Turn.goto (c := .cleanLock s.files) h.openFile
        ⟨hst, o, Function.update_self .., hname⟩
  | cleanLock f =>
    rw [hpc] at h hst
    obtain ⟨hsound, o, hn⟩ := hst
    simp only [Shm.next, hpc] at hs
    obtain hw | ⟨held, hw⟩ := writerLock_cases s f ok
    · rw [hw, objOf_eq hn.1] at hs
      exact Option.some.inj hs ▸ Turn.goto (c := .cleanUnlink f) (h.locked hn.1) hsound
    · rw [hw] at hs
      exact Option.some.inj hs ▸ Turn.goto (c := .close f _) h hsound
  | cleanUnlink f =>
    rw [hpc] at h hst
    simp only [Shm.next, hpc] at hs
    split at hs
    · exact Option.some.inj hs ▸ Turn.goto (c := .close f .open) h hst
    · exact Option.some.inj hs ▸ Turn.goto (s := { s with name := none }) (c := .close f .ok)
        ⟨h.others, h.files, h.lock⟩ fun o h => by cases h
  | detach f =>
    rw [hpc] at h hst
    simp only [Shm.next, hpc] at hs
    exact Option.some.inj hs ▸ Turn.goto (c := .idle) h.closeFile hst

theorem readHeader_use (o : Object) (bump : Nat) (arena : Nat → Nat) :
    readHeader { o with bump := bump, arena := arena } = readHeader o := rfl

/-- Away from the unfinished places the object can be recovered. -/
theorem Stage.sound {c : Pc} (h : Stage size s p c) (hu : c.unfinished = false) : Sound size s := by
  cases c with
  | lockNew | truncate | mapNew | initNew | wipeOld | initOld => cases hu
  | failClose _ st | failUnlink _ st =>
    obtain rfl : st = .nomem := by simpa [Pc.unfinished] using hu
    simpa [Stage] using h
  | create | openOld => exact h.2
  | lockOld | readOld | mapOld | clearOld => exact h.2.1
  | cleanLock => exact h.1
  | idle | callocNew | callocOld | close | cleanOpen | cleanUnlink | detach => exact h

/-- At the unfinished places `read_header` rejects it. -/
theorem Stage.unmarked {c : Pc} (h : Stage size s p c) (hu : c.unfinished = true) :
    ∃ o, s.name = some o ∧ (s.object o).magic ≠ shmMagic := by
  cases c with
  | lockNew | truncate =>
    obtain ⟨-, o, hn, hmagic⟩ := h
    exact ⟨o, hn.2, hmagic⟩
  | mapNew | wipeOld =>
    obtain ⟨-, o, hn, hmade⟩ := h
    exact ⟨o, hn.2, hmade.unmarked (Nat.zero_le _)⟩
  | initNew | initOld =>
    obtain ⟨-, hi, o, hn, hmade⟩ := h
    exact ⟨o, hn.2, hmade.unmarked hi⟩
  | failClose _ st =>
    simp only [Stage, if_neg (show st ≠ .nomem by simpa [Pc.unfinished] using hu)] at h
    obtain ⟨o, hn, hmagic⟩ := h
    exact ⟨o, hn.2, hmagic⟩
  | failUnlink o st =>
    simp only [Stage, if_neg (show st ≠ .nomem by simpa [Pc.unfinished] using hu)] at h
    exact ⟨o, h⟩
  | _ => cases hu

theorem Stage.congr {c : Pc} (hn : ∀ f o, Named s p f o → Named s' p f o) (hname : s'.name = s.name)
    (hobj : s'.object = s.object) (h : Stage size s p c) : Stage size s' p c := by
  have hsound : Sound size s → Sound size s' := fun h o ho => hobj ▸ h o (hname ▸ ho)
  cases c <;> simp only [Stage, hname, hobj] at h ⊢ <;> grind -linarith

/-- The owner is killed: it is out, and nothing is locked. -/
theorem Turn.exit (h : Turn s p (s.pc p).fd) : Turn (Shm.exit s p) p none ∧ Quiet (Shm.exit s p) := by
  obtain ⟨others, files, lock⟩ := h
  refine ⟨⟨fun q hq => ?_, fun f F hf => ?_, fun o f hl => ?_⟩, fun q => ?_⟩
  · simpa [Shm.exit, hq] using others q hq
  · exact files f F (Option.eq_some_of_filter_eq_some hf)
  · obtain ⟨hl, hproc⟩ := Option.filter_eq_some_iff.mp hl
    simp [(lock o f hl).1] at hproc
  · by_cases hq : q = p
    · simp [Shm.exit, hq]
    · simpa [Shm.exit, hq] using others q hq

/-- Another process exits, which has nothing. -/
theorem Turn.exit_other {fd : Option Nat} (h : Turn s p fd) {q : Nat} (hq : q ≠ p) : Turn (Shm.exit s q) p fd := by
  obtain ⟨others, files, lock⟩ := h
  refine ⟨fun r hr => ?_, fun f F hf => ?_, fun o f hl => ?_⟩
  · by_cases hrq : r = q
    · simp [Shm.exit, hrq]
    · simpa [Shm.exit, hrq] using others r hr
  · exact files f F (Option.eq_some_of_filter_eq_some hf)
  · obtain ⟨hf, hfd⟩ := lock o f (Option.eq_some_of_filter_eq_some hl)
    refine ⟨Option.filter_eq_some_iff.mpr ⟨hf, by simpa using Ne.symm hq⟩, ?_⟩
    simpa [Shm.exit, Ne.symm hq] using hfd

/-- A process is killed while the header is complete, or one that does nothing exits. -/
theorem Owned.exit (h : Owned size s) (q : Nat) (hq : (s.pc q).unfinished = false) : Owned size (Shm.exit s q) := by
  obtain ⟨p, h, hst⟩ := h
  by_cases hqp : q = p
  · subst hqp
    obtain ⟨hturn, hquiet⟩ := h.exit
    refine ⟨q, ?_, ?_⟩
    · rw [(hquiet q).1]
      exact hturn
    · rw [(hquiet q).1]
      exact hst.sound hq
  · have hpc : (Shm.exit s q).pc p = s.pc p := Function.update_of_ne (Ne.symm hqp) ..
    refine ⟨p, ?_, ?_⟩
    · rw [hpc]
      exact h.exit_other hqp
    · rw [hpc]
      refine Stage.congr (s := s) (fun f o hn => ⟨?_, hn.2⟩) rfl rfl hst
      exact Option.filter_eq_some_iff.mpr ⟨hn.1, by simpa using Ne.symm hqp⟩

theorem Owned.step (hm : Mappable size) (h : Owned size s) {a : Act} (hturn : InTurn size s a) (hspared : Spared s a)
    (hs : Shm.step s a = some s') : Owned size s' := by
  cases a with
  | create q n =>
    obtain ⟨p, h, hst⟩ := h
    obtain ⟨rfl, hquiet⟩ := hturn
    have hsound : Sound n s := by simpa [hquiet p, Stage] using hst
    have hq := (h.quiet hquiet q).1
    simp only [Shm.step, (hquiet q).1, ne_eq, not_true_eq_false, if_false] at hs
    split at hs
    · exact Option.some.inj hs ▸ hq.done hsound _
    · exact Option.some.inj hs ▸ Turn.goto (c := .create n) hq ⟨rfl, hsound⟩
  | cleanup q =>
    obtain ⟨p, h, hst⟩ := h
    have hsound : Sound size s := by simpa [hturn p, Stage] using hst
    simp only [Shm.step, (hturn q).1, ne_eq, not_true_eq_false, if_false] at hs
    exact Option.some.inj hs ▸ Turn.goto (c := .cleanOpen) (h.quiet hturn q).1 hsound
  | detach q f =>
    obtain ⟨p, h, hst⟩ := h
    simp only [Shm.step] at hs
    split at hs
    · cases hs
    · rename_i hq
      simp only [not_or, not_not] at hq
      obtain rfl : q = p := by
        by_contra hqp
        simp [(h.others q hqp).2] at hq
      rw [hq.1] at h hst
      refine Option.some.inj hs ▸ Turn.goto (c := .detach f) ?_ hst
      obtain ⟨others, files, lock⟩ := h
      constructor <;> grind -linarith [Pc.fd]
  | use q f bump off byte =>
    obtain ⟨p, h, hst⟩ := h
    simp only [Shm.step] at hs
    split at hs
    · cases hs
    · rename_i hq
      simp only [not_or, not_not] at hq
      obtain rfl : q = p := by
        by_contra hqp
        simp [(h.others q hqp).2] at hq
      obtain rfl := Option.some.inj hs
      refine ⟨q, h.setObject _, ?_⟩
      rw [hq.1] at hst
      rw [show (setObject s f _).pc q = .idle from hq.1]
      intro o ho
      by_cases hof : o = objOf s f
      · rw [hof] at ho ⊢
        simpa [setObject, readHeader_use] using hst _ ho
      · simpa [setObject, hof] using hst o ho
  | next q ok =>
    obtain ⟨p, h, hst⟩ := h
    by_cases hqp : q = p
    · subst hqp
      exact h.next hm hst hs
    · simp [Shm.step, Shm.next, (h.others q hqp).1] at hs
  | exit q =>
    obtain rfl := Option.some.inj hs
    exact h.exit q hspared

theorem owned_of_reach (hm : Mappable size) (h : machine.ReachBy (fun s a => InTurn size s a ∧ Spared s a) s) :
    Owned size s :=
  h.invariant (I := Owned size)
    (fun s hs => by
      rw [hs]
      exact ⟨0, ⟨fun _ _ => ⟨rfl, rfl⟩, fun _ _ h => (by cases h), fun _ _ h => (by cases h)⟩, fun _ h => (by cases h)⟩)
    fun _ _ _ _ ho hc hs => ho.step hm hc.1 hc.2 hs

end Steps

/-! ## The next owner -/

section Next

variable {s s' : State} {p n f o size : Nat} {x : Object}

theorem alone_succ (h : next s p true = some s') : alone s p (n + 1) = alone s' p n := by
  simp [alone, h]

theorem alone_idle (h : s.pc p = .idle) : alone s p n = s := by
  cases n with
  | zero => rfl
  | succ n => simp [alone, next, h]

theorem alone_ret (st : Status) : alone (ret s p st) p n = ret s p st :=
  alone_idle (by simp [ret, setPc])

theorem alone_retHandle : alone (retHandle s p f) p n = retHandle s p f :=
  alone_idle (by simp [retHandle, ret, setPc])

/-- `s` with the object `o` at `x` and process `p` at `c`. -/
def stand (s : State) (p o : Nat) (x : Object) (c : Pc) : State :=
  { s with object := Function.update s.object o x, pc := Function.update s.pc p c }

theorem stand_pc (c : Pc) : (stand s p o x c).pc p = c := Function.update_self ..

theorem stand_object (c : Pc) : (stand s p o x c).object o = x := Function.update_self ..

theorem objOf_stand (hf : s.file f = some ⟨p, o⟩) (c : Pc) : objOf (stand s p o x c) f = o := objOf_eq hf

theorem setPc_stand (c c' : Pc) : setPc (stand s p o x c) p c' = stand s p o x c' := by simp [setPc, stand]

theorem setObject_stand (hf : s.file f = some ⟨p, o⟩) (c c' : Pc) (y : Object) :
    setPc (setObject (stand s p o x c) f y) p c' = stand s p o y c' := by
  rw [setObject, objOf_stand hf]
  simp [setPc, stand]

/-- The store of `magic` before the arena is wiped. -/
def Object.cleared (x : Object) : Object := { x with magic := 0 }

/-- The arena all zero. -/
def Object.wiped (x : Object) : Object := { x with arena := fun _ => 0 }

/-- An object just truncated to its size. -/
def Object.zeroed (size : Nat) : Object := { Object.fresh with size := size }

/-- `init_header`. -/
def Object.init (x : Object) (size pid : Nat) : Object :=
  (List.range (initLast + 1)).foldl (fun x i => x.initStore size pid i) x

theorem Object.init_spec (hx : Made size 0 x) :
    Made size (initLast + 1) (x.init size (p + 1)) ∧ (x.init size (p + 1)).arena = x.arena ∧
      (x.init size (p + 1)).bump = alignUp headerSize 16 := by
  refine ⟨?_, rfl, rfl⟩
  have h i (hi : i ≤ initLast + 1) :
      Made size i ((List.range i).foldl (fun x i => x.initStore size (p + 1) i) x) := by
    induction i with
    | zero => exact hx
    | succ i ih =>
      rw [List.range_succ, List.foldl_append]
      exact (ih (by omega)).store (by omega)
  exact h _ (Nat.le_refl _)

/-- The stores of `init_header` are made one by one. -/
theorem alone_init {ci : Nat → Pc} {c : Pc}
    (h : ∀ i < initLast, ∀ y, next (stand s p o y (ci i)) p true =
      some (stand s p o (y.initStore size (p + 1) i) (ci (i + 1))))
    (hc : ∀ y, next (stand s p o y (ci initLast)) p true = some (stand s p o (y.initStore size (p + 1) initLast) c)) :
    alone (stand s p o x (ci 0)) p (n + 7) = alone (stand s p o (x.init size (p + 1)) c) p n := by
  rw [alone_succ (h 0 (by decide) x), alone_succ (h 1 (by decide) _), alone_succ (h 2 (by decide) _),
    alone_succ (h 3 (by decide) _), alone_succ (h 4 (by decide) _), alone_succ (h 5 (by decide) _),
    alone_succ (show next (stand s p o _ (ci (5 + 1))) p true = _ from hc _)]
  rfl

theorem next_initNew (hf : s.file f = some ⟨p, o⟩) (i : Nat) (y : Object) :
    next (stand s p o y (.initNew f size i)) p true = some (stand s p o (y.initStore size (p + 1) i)
      (if i < initLast then .initNew f size (i + 1) else .callocNew f size)) := by
  simp only [next, stand_pc, objOf_stand hf, stand_object, setObject_stand hf]

theorem next_initOld (hf : s.file f = some ⟨p, o⟩) (i : Nat) (y : Object) :
    next (stand s p o y (.initOld f size i)) p true = some (stand s p o (y.initStore size (p + 1) i)
      (if i < initLast then .initOld f size (i + 1) else .callocOld f size)) := by
  simp only [next, stand_pc, objOf_stand hf, stand_object, setObject_stand hf]

/-- What the caller gets, if the handle `f` it gets is of the object the name denotes. -/
theorem recovered {s₁ : State} (hs : s₁ = retHandle s p f) (hn : Named s p f o) (hh : s.handles p = [])
    (hx : readHeader (s.object o) = .ok size) (ha : (s.object o).arena = fun _ => 0)
    (hb : (s.object o).bump = alignUp headerSize 16) :
    s₁.pc p = .idle ∧ s₁.result p = some .ok ∧ ∃ f, s₁.handles p = [f] ∧ s₁.name = some (objOf s₁ f) ∧
      readHeader (s₁.object (objOf s₁ f)) = .ok size ∧ (s₁.object (objOf s₁ f)).arena = (fun _ => 0) ∧
      (s₁.object (objOf s₁ f)).bump = alignUp headerSize 16 := by
  have hobj : objOf s₁ f = o := hs ▸ objOf_eq (s := retHandle s p f) hn.1
  have hname : s₁.name = some o := hs ▸ hn.2
  have hobject : s₁.object o = s.object o := hs ▸ rfl
  refine ⟨?_, ?_, f, ?_, by rw [hobj, hname], by rw [hobj, hobject, hx], by rw [hobj, hobject, ha],
    by rw [hobj, hobject, hb]⟩
  · rw [hs]
    exact Function.update_self ..
  · rw [hs]
    exact Function.update_self ..
  · rw [hs]
    show Function.update s.handles p (s.handles p ++ [f]) p = [f]
    rw [Function.update_self, hh]
    rfl

theorem next_setPc_create (hn : s.name = some o) :
    next (setPc s p (.create size)) p true = some (setPc s p (.openOld size)) := by
  simp [next, setPc, hn]

theorem next_setPc_openOld (hn : s.name = some o) :
    next (setPc s p (.openOld size)) p true = some (setPc (openFile s p o) p (.lockOld s.files size)) := by
  simp [next, setPc, openFile, hn]

/-- `s` with the object `o` opened and locked by `p`. -/
def grasp (s : State) (p o : Nat) : State :=
  { openFile s p o with lock := Function.update s.lock o (some s.files) }

theorem grasp_file : (grasp s p o).file s.files = some ⟨p, o⟩ := Function.update_self ..

theorem next_lock (hl : s.lock o = none) :
    next (setPc (openFile s p o) p (.lockOld s.files size)) p true =
      some (stand (grasp s p o) p o (s.object o) (.readOld s.files size)) := by
  have hobj : objOf (setPc (openFile s p o) p (.lockOld s.files size)) s.files = o :=
    objOf_eq (p := p) (Function.update_self ..)
  have hl' : (setPc (openFile s p o) p (.lockOld s.files size)).lock o = none := hl
  have hpc : (setPc (openFile s p o) p (.lockOld s.files size)).pc p = .lockOld s.files size := Function.update_self ..
  simp only [next, hpc, writerLock, hobj, hl']
  simp [setPc, stand, grasp, openFile]

/-- The steps up to the lock, when the name is bound. -/
theorem alone_old (hl : s.lock o = none) (hn : s.name = some o) :
    createOrRecover s p size = alone (stand (grasp s p o) p o (s.object o) (.readOld s.files size)) p 13 := by
  rw [createOrRecover, callSteps, alone_succ (next_setPc_create hn), alone_succ (next_setPc_openOld hn),
    alone_succ (next_lock hl)]

theorem recovers_old (hm : Mappable size) (hq : Quiet s) (hl : s.lock o = none) (hn : s.name = some o)
    (hx : readHeader (s.object o) = .ok size) : Recovers size s := by
  intro p
  have hf : (grasp s p o).file s.files = some ⟨p, o⟩ := grasp_file
  have hread : next (stand (grasp s p o) p o (s.object o) (.readOld s.files size)) p true =
      some (stand (grasp s p o) p o (s.object o) (.mapOld s.files size)) := by
    simp [next, stand_pc, objOf_stand hf, stand_object, hx, setPc_stand]
  have hmap : next (stand (grasp s p o) p o (s.object o) (.mapOld s.files size)) p true =
      some (stand (grasp s p o) p o (s.object o) (.clearOld s.files size)) := by
    simp [next, stand_pc, setPc_stand]
  have hclear : next (stand (grasp s p o) p o (s.object o) (.clearOld s.files size)) p true =
      some (stand (grasp s p o) p o (s.object o).cleared (.wipeOld s.files size)) := by
    simp only [next, stand_pc, objOf_stand hf, stand_object, setObject_stand hf]
    rfl
  have hwipe : next (stand (grasp s p o) p o (s.object o).cleared (.wipeOld s.files size)) p true =
      some (stand (grasp s p o) p o (s.object o).cleared.wiped (.initOld s.files size 0)) := by
    simp only [next, stand_pc, objOf_stand hf, stand_object, setObject_stand hf]
    rfl
  have hcalloc y : next (stand (grasp s p o) p o y (.callocOld s.files size)) p true =
      some (retHandle (stand (grasp s p o) p o y (.callocOld s.files size)) p s.files) := by
    simp [next, stand_pc]
  have hmade : Made size 0 (s.object o).cleared.wiped :=
    have hlen := readHeader_size hx
    made_zero hlen (by show (0 : Nat) ≠ shmMagic; decide)
  obtain ⟨hinit, harena, hbump⟩ := Object.init_spec (p := p) hmade
  have hend : createOrRecover s p size = retHandle (stand (grasp s p o) p o
      ((s.object o).cleared.wiped.init size (p + 1)) (.callocOld s.files size)) p s.files := by
    rw [alone_old hl hn, alone_succ hread, alone_succ hmap, alone_succ hclear, alone_succ hwipe,
      alone_init (fun i hi y => by rw [next_initOld hf, if_pos hi])
        (fun y => by rw [next_initOld hf, if_neg (by decide)]),
      alone_succ (hcalloc _), alone_retHandle]
  refine recovered hend ⟨hf, hn⟩ (hq p).2 ?_ ?_ ?_
  · rw [stand_object]
    exact hinit.header hm
  · rw [stand_object, harena]
    rfl
  · rw [stand_object, hbump]

/-- `s` with a fresh object created by `p`. -/
def begun (s : State) (p : Nat) : State :=
  { openFile s p s.objects with
    name := some s.objects
    object := Function.update s.object s.objects .fresh
    objects := s.objects + 1
    creating := Function.update s.creating s.objects true }

/-- `begun`, with the object locked. -/
def taken (s : State) (p : Nat) : State :=
  { begun s p with lock := Function.update s.lock s.objects (some s.files) }

theorem next_create (hn : s.name = none) :
    next (setPc s p (.create size)) p true = some (setPc (begun s p) p (.lockNew s.files size)) := by
  simp [next, setPc, openFile, begun, hn]

theorem next_lockNew (hl : s.lock s.objects = none) :
    next (setPc (begun s p) p (.lockNew s.files size)) p true =
      some (stand (taken s p) p s.objects .fresh (.truncate s.files size)) := by
  have hobj : objOf (setPc (begun s p) p (.lockNew s.files size)) s.files = s.objects :=
    objOf_eq (p := p) (Function.update_self ..)
  have hl' : (setPc (begun s p) p (.lockNew s.files size)).lock s.objects = none := hl
  have hpc : (setPc (begun s p) p (.lockNew s.files size)).pc p = .lockNew s.files size := Function.update_self ..
  simp only [next, hpc, writerLock, hobj, hl']
  simp [setPc, stand, taken, begun, openFile]

theorem recovers_new (hm : Mappable size) (hq : Quiet s) (hl : ∀ o, s.lock o = none) (hn : s.name = none) :
    Recovers size s := by
  intro p
  have hf : (taken s p).file s.files = some ⟨p, s.objects⟩ := Function.update_self ..
  have htruncate : next (stand (taken s p) p s.objects .fresh (.truncate s.files size)) p true =
      some (stand (taken s p) p s.objects (.zeroed size) (.mapNew s.files size)) := by
    simp only [next, stand_pc, objOf_stand hf, stand_object, setObject_stand hf]
    rfl
  have hmap : next (stand (taken s p) p s.objects (.zeroed size) (.mapNew s.files size)) p true =
      some (stand (taken s p) p s.objects (.zeroed size) (.initNew s.files size 0)) := by
    simp [next, stand_pc, setPc_stand]
  have hcalloc y : next (stand (taken s p) p s.objects y (.callocNew s.files size)) p true =
      some (retHandle (created (stand (taken s p) p s.objects y (.callocNew s.files size)) s.objects) p s.files) := by
    simp [next, stand_pc, objOf_stand hf]
  have hmade : Made size 0 (.zeroed size) := made_zero rfl (by show (0 : Nat) ≠ shmMagic; decide)
  obtain ⟨hinit, harena, hbump⟩ := Object.init_spec (p := p) hmade
  have hend : createOrRecover s p size = retHandle (created (stand (taken s p) p s.objects
      ((Object.zeroed size).init size (p + 1)) (.callocNew s.files size)) s.objects) p s.files := by
    rw [createOrRecover, callSteps, alone_succ (next_create hn), alone_succ (next_lockNew (hl _)), alone_succ htruncate,
      alone_succ hmap,
      alone_init (fun i hi y => by rw [next_initNew hf, if_pos hi])
        (fun y => by rw [next_initNew hf, if_neg (by decide)]),
      alone_succ (hcalloc _), alone_retHandle]
  have hobj : (created (stand (taken s p) p s.objects ((Object.zeroed size).init size (p + 1))
      (.callocNew s.files size)) s.objects).object s.objects = (Object.zeroed size).init size (p + 1) :=
    stand_object (s := taken s p) (p := p) (.callocNew s.files size)
  exact recovered hend ⟨hf, rfl⟩ (hq p).2 (by rw [hobj, hinit.header hm]) (by rw [hobj, harena]; rfl)
    (by rw [hobj, hbump])

theorem not_recovers (hl : s.lock o = none) (hn : s.name = some o) (hx : (s.object o).magic ≠ shmMagic) :
    ¬ Recovers size s := by
  intro h
  have hf : (grasp s 0 o).file s.files = some ⟨0, o⟩ := grasp_file
  have hread : next (stand (grasp s 0 o) 0 o (s.object o) (.readOld s.files size)) 0 true =
      some (stand (grasp s 0 o) 0 o (s.object o) (.close s.files .badMagic)) := by
    simp [next, stand_pc, objOf_stand hf, stand_object, readHeader_badMagic hx, setPc_stand]
  have hclose : next (stand (grasp s 0 o) 0 o (s.object o) (.close s.files .badMagic)) 0 true =
      some (ret (closeFile (stand (grasp s 0 o) 0 o (s.object o) (.close s.files .badMagic)) s.files) 0 .badMagic) := by
    simp only [next, stand_pc]
  have hres := (h 0).2.1
  rw [alone_old hl hn, alone_succ hread, alone_succ hclose, alone_ret] at hres
  simp [ret] at hres

end Next

section Runs

variable {size p : Nat} {s : State}

/-- When the owner exits, no one is left. -/
theorem quiet_exit (hm : Mappable size) (hs : machine.ReachBy (fun s a => InTurn size s a ∧ Spared s a) s)
    (h : ¬ (s.pc p = .idle ∧ s.handles p = [])) : Turn (exit s p) p none ∧ Quiet (exit s p) := by
  obtain ⟨q, hturn, -⟩ := owned_of_reach hm hs
  obtain rfl : p = q := by
    by_contra hpq
    exact h (hturn.others p hpq)
  exact hturn.exit

/-- An owner is killed while the header is not complete. -/
theorem killed (hm : Mappable size) (hs : machine.ReachBy (fun s a => InTurn size s a ∧ Spared s a) s)
    (hu : (s.pc p).unfinished = true) : Quiet (exit s p) ∧ ¬ Recovers size (exit s p) := by
  have hne : s.pc p ≠ .idle := fun h => by simp [h, Pc.unfinished] at hu
  obtain ⟨hturn, hquiet⟩ := quiet_exit hm hs fun h => hne h.1
  obtain ⟨q, h, hst⟩ := owned_of_reach hm hs
  obtain rfl : p = q := by
    by_contra hpq
    exact hne (h.others p hpq).1
  obtain ⟨o, hn, hmagic⟩ := hst.unmarked hu
  have hl := (Turn.quiet (s := exit s p) (p := p) ((hquiet p).1 ▸ hturn) hquiet p).2
  exact ⟨hquiet, not_recovers (hl o) hn hmagic⟩

/-- After every run of owners none of which is killed while the header is not
complete, the next owner gets a fresh arena; after one more owner is killed
then, it does not. -/
theorem recovers_of_run (hm : Mappable size)
    (hs : machine.ReachBy (fun s a => InTurn size s a ∧ Spared s a) s) :
    (Quiet s → Recovers size s) ∧ ∀ p, (s.pc p).unfinished = true → ¬ Recovers size (exit s p) := by
  refine ⟨fun hq => ?_, fun p hu => (killed hm hs hu).2⟩
  obtain ⟨p, h, hst⟩ := owned_of_reach hm hs
  have hl := (h.quiet hq p).2
  have hsound := hst.sound (by simp [(hq p).1, Pc.unfinished])
  cases hn : s.name with
  | none => exact recovers_new hm hq hl hn
  | some o => exact recovers_old hm hq (hl o) hn (hsound o hn)

/-- A step of an owner that is not killed. -/
def goesOn (_ : State) : Act → Bool
  | .create _ _ | .cleanup _ | .exit _ => false
  | _ => true

theorem goesOn_spec (s : State) (a : Act) (h : goesOn s a = true) : InTurn size s a ∧ Spared s a := by
  cases a <;> simp_all [goesOn, InTurn, Spared]

/-- The first owner, and what it does. -/
theorem reach_owner (hm : Mappable size) {l : List Act} {b : State → Bool}
    (h : (machine.runBy goesOn (setPc State.initial p (.create size)) l).map b = some true) :
    ∃ s, machine.ReachBy (fun s a => InTurn size s a ∧ Spared s a) s ∧ b s = true := by
  obtain ⟨s, hrun, hb⟩ := Option.map_eq_some_iff.mp h
  have hlow := hm.low
  have hstep : machine.step State.initial (.create p size) = some (setPc State.initial p (.create size)) := by
    simp only [machine, step, State.initial, ne_eq, not_true_eq_false, if_false]
    rw [if_neg (by omega)]
  have hinit : machine.ReachBy (fun s a => InTurn size s a ∧ Spared s a) State.initial := .init rfl
  have hbegin := hinit.step (a := Act.create p size) ⟨⟨rfl, fun _ => ⟨rfl, rfl⟩⟩, trivial⟩ hstep
  exact ⟨s, hbegin.of_runBy goesOn_spec hrun, hb⟩

theorem mappable_page : Mappable 4096 := ⟨by decide, by decide⟩

/-- An owner killed between creating the object and the last store of its
header leaves a segment that no later owner recovers. -/
theorem exists_unrecoverable :
    ¬ ∀ size, Mappable size → ∀ s, machine.ReachBy (InTurn size) s → Quiet s → Recovers size s := by
  intro h
  obtain ⟨s, hs, hu⟩ := reach_owner (p := 0) (l := [.next 0 true]) (b := fun s => (s.pc 0).unfinished) mappable_page
    (by decide +kernel)
  obtain ⟨hquiet, hno⟩ := killed mappable_page hs hu
  have hs' : machine.ReachBy (InTurn 4096) s := hs.mono fun _ _ h => h.1
  exact hno (h 4096 mappable_page _ (hs'.step (a := Act.exit 0) trivial rfl) hquiet)

/-- An owner that has written to its arena is killed. -/
theorem recovers_of_run_used : ∃ s, machine.ReachBy (fun s a => InTurn 4096 s a ∧ Spared s a) s ∧
    (s.object 0).arena 0 = 7 ∧ (s.object 0).bump = 64 ∧ Recovers 4096 s := by
  obtain ⟨s, hs, h⟩ := reach_owner (p := 0)
    (l := (List.replicate 12 (.next 0 true) : List Act) ++ ([.use 0 0 64 0 7] : List Act))
    (b := fun s => decide (s.pc 0 = .idle ∧ s.handles 0 = [0] ∧ (s.object 0).arena 0 = 7 ∧ (s.object 0).bump = 64))
    mappable_page (by decide +kernel)
  obtain ⟨hpc, hh, ha, hb⟩ := of_decide_eq_true h
  have hquiet := (quiet_exit (p := 0) mappable_page hs fun h => by simp [hh] at h).2
  have hs' := hs.step (a := Act.exit 0) ⟨trivial, show (s.pc 0).unfinished = false by rw [hpc]; rfl⟩ rfl
  exact ⟨_, hs', ha, hb, (recovers_of_run mappable_page hs').1 hquiet⟩

end Runs

end Dlsmc.Shm
