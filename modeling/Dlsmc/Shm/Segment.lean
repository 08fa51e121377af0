import Mathlib.Algebra.Group.Nat.Defs
import Mathlib.Logic.Function.Basic
import Dlsmc.Framework.Machine

/-!
# Shared-memory segments (`shm.c`)

One segment name, and the processes that call `dlsm_shm_create_or_recover`,
`dlsm_shm_cleanup_if_stale` and `dlsm_shm_detach` on it and may exit at any
time. Every system call and every store to the header is one step; a step may
be told that its system call or allocation fails.

The kernel's state is explicit. `shm_open` with `O_CREAT | O_EXCL` binds the
name to a fresh object and fails if the name is bound; without it, it opens
the object the name denotes. Every open makes a new open file description.
An `F_OFD_SETLK` write lock on an object is held by at most one description
and is released when that is closed, by `close` or at the exit of its process.
`shm_unlink` removes the binding of the name and leaves the object.

`State.creating` and `State.result` record what happened; no step reads them.
-/

namespace Dlsmc.Shm

/-- The statuses the calls return. -/
inductive Status where
  | ok
  /-- `DLSM_SHM_E_OPEN` -/
  | open
  /-- `DLSM_SHM_E_FTRUNCATE` -/
  | ftruncate
  /-- `DLSM_SHM_E_BASE_OCCUPIED` -/
  | baseOccupied
  /-- `DLSM_SHM_E_IN_USE` -/
  | inUse
  /-- `DLSM_SHM_E_BAD_MAGIC` -/
  | badMagic
  /-- `DLSM_SHM_E_BAD_VERSION` -/
  | badVersion
  /-- `DLSM_SHM_E_INVAL` -/
  | inval
  /-- `DLSM_SHM_E_NOMEM` -/
  | nomem
  deriving DecidableEq

/-- `DLSM_SHM_MAGIC` -/
def shmMagic : Nat := 0x4D4853204D534C44

/-- `DLSM_SHM_VERSION` -/
def shmVersion : Nat := 2

/-- `DLSM_SHM_BASE_ADDR` -/
def shmBaseAddr : Nat := 0x200000000000

/-- `sizeof(struct ShmHeader)` -/
def headerSize : Nat := 48

def uintptrMax : Nat := 2 ^ 64 - 1

def alignUp (v a : Nat) : Nat := (v + (a - 1)) / a * a

/-- A shared-memory object: its length, its header and the bytes after it. -/
structure Object where
  size : Nat
  magic : Nat
  version : Nat
  baseAddr : Nat
  totalSize : Nat
  bump : Nat
  ownerPid : Nat
  arena : Nat → Nat

/-- An object just created: no byte in it, so every byte added is zero. -/
def Object.fresh : Object := ⟨0, 0, 0, 0, 0, 0, 0, fun _ => 0⟩

/-- The stores of `init_header`, in their order; `_pad` is left out. -/
def Object.initStore (o : Object) (size pid : Nat) : Nat → Object
  | 0 => { o with magic := 0 }
  | 1 => { o with version := shmVersion }
  | 2 => { o with baseAddr := shmBaseAddr }
  | 3 => { o with totalSize := size }
  | 4 => { o with bump := alignUp headerSize 16 }
  | 5 => { o with ownerPid := pid }
  | _ => { o with magic := shmMagic }

/-- The index of the last store of `init_header`. -/
def initLast : Nat := 6

/-- `read_header`: the size the header gives, or the status of its failure. -/
def readHeader (o : Object) : Except Status Nat :=
  if o.size < headerSize then .error .badMagic
  else if o.magic ≠ shmMagic then .error .badMagic
  else if o.version ≠ shmVersion then .error .badVersion
  else if o.totalSize ≠ o.size ∨ o.totalSize < headerSize + 16 ∨ o.baseAddr ≠ shmBaseAddr ∨ o.ownerPid = 0 ∨
      uintptrMax - o.totalSize < o.baseAddr then .error .inval
  else .ok o.totalSize

/-- Where a process stands in its call, at the system call or store it makes
next; `f` is the open file description it works on. -/
inductive Pc where
  | idle
  /-- `create_or_recover`: at `shm_open` with `O_CREAT | O_EXCL`. -/
  | create (size : Nat)
  /-- It created the object: at `writer_lock`, `ftruncate`, `mmap`, store `i`
  of `init_header` and `calloc`. -/
  | lockNew (f size : Nat)
  | truncate (f size : Nat)
  | mapNew (f size : Nat)
  | initNew (f size i : Nat)
  | callocNew (f size : Nat)
  /-- It failed after creating the object: at `close(fd)`, then at
  `shm_unlink(name)`; `o` is the object. -/
  | failClose (f : Nat) (st : Status)
  | failUnlink (o : Nat) (st : Status)
  /-- The name was bound: at `shm_open` without `O_CREAT`, `writer_lock`,
  `read_header`, `mmap`, the store of `magic`, `memset`, store `i` of
  `init_header` and `calloc`. -/
  | openOld (size : Nat)
  | lockOld (f size : Nat)
  | readOld (f size : Nat)
  | mapOld (f size : Nat)
  | clearOld (f size : Nat)
  | wipeOld (f size : Nat)
  | initOld (f size i : Nat)
  | callocOld (f size : Nat)
  /-- At the `close` a call returns `st` after. -/
  | close (f : Nat) (st : Status)
  /-- `cleanup_if_stale`: at `shm_open`, `writer_lock` and `shm_unlink`. -/
  | cleanOpen
  | cleanLock (f : Nat)
  | cleanUnlink (f : Nat)
  /-- `detach`: unmapped, at `close`. -/
  | detach (f : Nat)
  deriving DecidableEq

/-- An open file description: the process and the object. -/
structure File where
  proc : Nat
  obj : Nat
  deriving DecidableEq

structure State where
  /-- The object the name denotes. -/
  name : Option Nat
  object : Nat → Object
  objects : Nat
  file : Nat → Option File
  files : Nat
  /-- The description that holds the write lock of an object. -/
  lock : Nat → Option Nat
  pc : Nat → Pc
  /-- The writable handles of a process, by their `fd`. -/
  handles : Nat → List Nat
  /-- The call that created the object has not returned. -/
  creating : Nat → Bool
  /-- What the last call of a process returned. -/
  result : Nat → Option Status

/-- No object exists and no process has made a call. -/
def State.initial : State where
  name := none
  object := fun _ => .fresh
  objects := 0
  file := fun _ => none
  files := 0
  lock := fun _ => none
  pc := fun _ => .idle
  handles := fun _ => []
  creating := fun _ => false
  result := fun _ => none

def setPc (s : State) (p : Nat) (pc : Pc) : State := { s with pc := Function.update s.pc p pc }

/-- The call of `p` returns `st`. -/
def ret (s : State) (p : Nat) (st : Status) : State :=
  { setPc s p .idle with result := Function.update s.result p (some st) }

/-- A new description of object `o`, opened by `p`. -/
def openFile (s : State) (p o : Nat) : State :=
  { s with file := Function.update s.file s.files (some ⟨p, o⟩), files := s.files + 1 }

/-- `close(f)`: the lock of its object is released if `f` holds it. -/
def closeFile (s : State) (f : Nat) : State :=
  { s with
    file := Function.update s.file f none
    lock := fun o => if s.lock o = some f then none else s.lock o }

/-- The object description `f` refers to. -/
def objOf (s : State) (f : Nat) : Nat := ((s.file f).map File.obj).getD 0

/-- `writer_lock(f)` on its object: taken; or not, and whether it is held. A
description is locked at most once, so a holder is another one. -/
def writerLock (s : State) (f : Nat) (ok : Bool) : Option State × Bool :=
  if ok = false then (none, false)
  else
    match s.lock (objOf s f) with
    | none => (some { s with lock := Function.update s.lock (objOf s f) (some f) }, false)
    | some _ => (none, true)

def setObject (s : State) (f : Nat) (o : Object) : State :=
  { s with object := Function.update s.object (objOf s f) o }

/-- The call returns `DLSM_OK` with the handle `f`. -/
def retHandle (s : State) (p f : Nat) : State :=
  { ret s p .ok with handles := Function.update s.handles p (s.handles p ++ [f]) }

/-- The object is no longer one whose creator is inside its call. -/
def created (s : State) (o : Nat) : State := { s with creating := Function.update s.creating o false }

/-- The next system call or store of process `p`; `ok` is false if it fails
for a reason outside this state (a limit, no memory, the base address taken). -/
def next (s : State) (p : Nat) (ok : Bool) : Option State :=
  match s.pc p with
  | .idle => none
  | .create size =>
    if ok = false then some (ret s p .open)
    else
      match s.name with
      | some _ => some (setPc s p (.openOld size))
      | none =>
        let s' := openFile s p s.objects
        some (setPc { s' with
          name := some s.objects
          object := Function.update s.object s.objects .fresh
          objects := s.objects + 1
          creating := Function.update s.creating s.objects true } p (.lockNew s.files size))
  | .lockNew f size =>
    match writerLock s f ok with
    | (some s', _) => some (setPc s' p (.truncate f size))
    | (none, _) => some (setPc s p (.failClose f .open))
  | .truncate f size =>
    if ok = false then some (setPc s p (.failClose f .ftruncate))
    else some (setPc (setObject s f { s.object (objOf s f) with size := size }) p (.mapNew f size))
  | .mapNew f size =>
    if ok = false then some (setPc s p (.failClose f .baseOccupied)) else some (setPc s p (.initNew f size 0))
  | .initNew f size i =>
    some (setPc (setObject s f ((s.object (objOf s f)).initStore size (p + 1) i)) p
      (if i < initLast then .initNew f size (i + 1) else .callocNew f size))
  | .callocNew f _ =>
    if ok = false then some (setPc s p (.failClose f .nomem))
    else some (retHandle (created s (objOf s f)) p f)
  | .failClose f st => some (setPc (closeFile s f) p (.failUnlink (objOf s f) st))
  | .failUnlink o st => some (ret (created { s with name := none } o) p st)
  | .openOld size =>
    if ok = false then some (ret s p .open)
    else
      match s.name with
      | none => some (ret s p .open)
      | some o => some (setPc (openFile s p o) p (.lockOld s.files size))
  | .lockOld f size =>
    match writerLock s f ok with
    | (some s', _) => some (setPc s' p (.readOld f size))
    | (none, held) => some (setPc s p (.close f (if held then .inUse else .open)))
  | .readOld f size =>
    if ok = false then some (setPc s p (.close f .open))
    else
      match readHeader (s.object (objOf s f)) with
      | .error bad => some (setPc s p (.close f bad))
      | .ok hsize => if hsize ≠ size then some (setPc s p (.close f .inval)) else some (setPc s p (.mapOld f hsize))
  | .mapOld f size =>
    if ok = false then some (setPc s p (.close f .baseOccupied)) else some (setPc s p (.clearOld f size))
  | .clearOld f size => some (setPc (setObject s f { s.object (objOf s f) with magic := 0 }) p (.wipeOld f size))
  | .wipeOld f size =>
    some (setPc (setObject s f { s.object (objOf s f) with arena := fun _ => 0 }) p (.initOld f size 0))
  | .initOld f size i =>
    some (setPc (setObject s f ((s.object (objOf s f)).initStore size (p + 1) i)) p
      (if i < initLast then .initOld f size (i + 1) else .callocOld f size))
  | .callocOld f _ => if ok = false then some (setPc s p (.close f .nomem)) else some (retHandle s p f)
  | .close f st => some (ret (closeFile s f) p st)
  | .cleanOpen =>
    if ok = false then some (ret s p .open)
    else
      match s.name with
      | none => some (ret s p .ok)
      | some o => some (setPc (openFile s p o) p (.cleanLock s.files))
  | .cleanLock f =>
    match writerLock s f ok with
    | (some s', _) => some (setPc s' p (.cleanUnlink f))
    | (none, held) => some (setPc s p (.close f (if held then .ok else .open)))
  | .cleanUnlink f =>
    if ok = false ∨ s.name = none then some (setPc s p (.close f .open))
    else some (setPc { s with name := none } p (.close f .ok))
  | .detach f => some (setPc (closeFile s f) p .idle)

/-- The object of an unfinished creation by `p`. -/
def Pc.creates (s : State) : Pc → Option Nat
  | .lockNew f _ | .truncate f _ | .mapNew f _ | .initNew f _ _ | .callocNew f _ | .failClose f _ => some (objOf s f)
  | .failUnlink o _ => some o
  | _ => none

/-- The process exits: all its descriptions are closed. -/
def exit (s : State) (p : Nat) : State :=
  { s with
    file := fun f => (s.file f).filter fun F => F.proc != p
    lock := fun o => (s.lock o).filter fun f => (s.file f).map File.proc != some p
    pc := Function.update s.pc p .idle
    handles := Function.update s.handles p []
    creating := match (s.pc p).creates s with
      | some o => Function.update s.creating o false
      | none => s.creating }

inductive Act where
  /-- `dlsm_shm_create_or_recover` with `size`. -/
  | create (p size : Nat)
  /-- `dlsm_shm_cleanup_if_stale` -/
  | cleanup (p : Nat)
  /-- `dlsm_shm_detach` of the handle `f`, to its `close`. -/
  | detach (p f : Nat)
  /-- The owner of the handle `f` allocates up to `bump` and writes a byte. -/
  | use (p f bump off byte : Nat)
  | next (p : Nat) (ok : Bool)
  | exit (p : Nat)
  deriving DecidableEq

def step (s : State) : Act → Option State
  | .create p size =>
    if s.pc p ≠ .idle then none
    else if size < headerSize + 16 then some (ret s p .inval)
    else some (setPc s p (.create size))
  | .cleanup p => if s.pc p ≠ .idle then none else some (setPc s p .cleanOpen)
  | .detach p f =>
    if s.pc p ≠ .idle ∨ f ∉ s.handles p then none
    else some (setPc { s with handles := Function.update s.handles p ((s.handles p).erase f) } p (.detach f))
  | .use p f bump off byte =>
    if s.pc p ≠ .idle ∨ f ∉ s.handles p then none
    else
      let o := s.object (objOf s f)
      some (setObject s f { o with bump := bump, arena := Function.update o.arena off byte })
  | .next p ok => next s p ok
  | .exit p => some (exit s p)

section
-- their equations are made here, once
attribute [local simp] next Pc.creates step
end

/-- Any number of processes, named by numbers; the name of one that exited may
be used by another. -/
def machine : Machine State Act where
  init := fun s => s = State.initial
  step := step

end Dlsmc.Shm
