import Mathlib.Logic.Function.Basic
import Dlsmc.Framework.Machine
import Dlsmc.Shm.Segment

/-!
# The allocator of a segment (`dlsm_shm_alloc`)

Any number of threads of the writer call `dlsm_shm_alloc` on one segment. A
call loads `bump` and `total_size`, computes where the block would go, and
tries to move `bump` by a weak compare-and-swap, which may fail spuriously;
after a failure it computes again from the value that was there. All values
are 64 bits wide and the operations on them wrap, as the C operations do;
`placeChecked` is the same computation with every operation checked.

`State.returns` records every call that returned; no step reads it.
-/

namespace Dlsmc.Shm.Alloc

/-! ## The computation -/

/-- `UINTPTR_MAX` -/
def uintptrMax : UInt64 := 0xFFFFFFFFFFFFFFFF

/-- `is_pow2` -/
def isPow2 (a : UInt64) : Bool := a != 0 && a &&& (a - 1) == 0

/-- What is asked for: `s` (`none` for `NULL`, else `readonly`), `size` and `align`. -/
structure Request where
  handle : Option Bool
  size : UInt64
  align : UInt64
  deriving DecidableEq

/-- The check on entry. -/
def Request.valid (r : Request) : Bool := r.handle == some false && r.size != 0 && isPow2 r.align

/-- A round of the loop with `bump` at `cur`: the offset of the block, or
`none` where the call returns `NULL`. -/
def place (base total cur : UInt64) (r : Request) : Option UInt64 :=
  if cur > total || cur > uintptrMax - base then none
  else
    let address := base + cur
    if address > uintptrMax - (r.align - 1) then none
    else
      let alignedAddress := (address + (r.align - 1)) &&& ~~~(r.align - 1)
      if alignedAddress < base then none
      else
        let aligned := alignedAddress - base
        if aligned > total || r.size > total - aligned then none else some aligned

/-- `dlsm_shm_offset_of` on a handle of the segment. -/
def offsetOf (base total ptr : UInt64) : Option UInt64 :=
  if ptr == 0 then none
  else if ptr < base || ptr - base ≥ total then none
  else some (ptr - base)

/-- `dlsm_shm_pointer` on a handle of the segment. -/
def pointer (base total offset size : UInt64) : Option UInt64 :=
  if offset > total || size > total - offset then none else some (base + offset)

/-! ## The computation with every operation checked -/

/-- `a + b`, or `none` where it wraps. -/
def addChecked (a b : UInt64) : Option UInt64 := if a.toNat + b.toNat < 2 ^ 64 then some (a + b) else none

/-- `a - b`, or `none` where it wraps. -/
def subChecked (a b : UInt64) : Option UInt64 := if b ≤ a then some (a - b) else none

/-- `isPow2`, or `none` where an operation wraps. -/
def isPow2Checked (a : UInt64) : Option Bool :=
  if a = 0 then some false
  else (subChecked a 1).map fun mask => a &&& mask == 0

/-- As `place`, with the new `bump` and the pointer that go with the offset;
the outer `none` where an operation wraps. -/
def placeChecked (base total cur : UInt64) (r : Request) : Option (Option (UInt64 × UInt64 × UInt64)) := do
  if cur > total then return none
  let space ← subChecked uintptrMax base
  if cur > space then return none
  let address ← addChecked base cur
  let mask ← subChecked r.align 1
  let last ← subChecked uintptrMax mask
  if address > last then return none
  let raised ← addChecked address mask
  let alignedAddress := raised &&& ~~~mask
  if alignedAddress < base then return none
  let aligned ← subChecked alignedAddress base
  if aligned > total then return none
  let left ← subChecked total aligned
  if r.size > left then return none
  let next ← addChecked aligned r.size
  let ptr ← addChecked base aligned
  return some (aligned, next, ptr)

/-! ## The threads -/

/-- Where a thread stands in its call. -/
inductive Pc where
  | idle
  /-- At the load of `bump`. -/
  | loadBump (r : Request)
  /-- At the load of `total_size`. -/
  | loadTotal (r : Request) (cur : UInt64)
  /-- At the compare-and-swap from `cur` to `aligned + size`. -/
  | swap (r : Request) (cur total aligned : UInt64)
  deriving DecidableEq

/-- A call that returned: its request, the value of `bump` it read last, and
the pointer it returned, `none` for `NULL`. -/
structure Return where
  request : Request
  seen : Option UInt64
  ptr : Option UInt64
  deriving DecidableEq

structure State where
  base : UInt64
  total : UInt64
  bump : UInt64
  pc : Nat → Pc
  returns : List Return

def setPc (s : State) (t : Nat) (pc : Pc) : State := { s with pc := Function.update s.pc t pc }

/-- The call of thread `t` returns. -/
def ret (s : State) (t : Nat) (r : Return) : State := { setPc s t .idle with returns := r :: s.returns }

/-- A round of the loop of thread `t`, up to the compare-and-swap. -/
def round (s : State) (t : Nat) (r : Request) (cur total : UInt64) : State :=
  match place s.base total cur r with
  | none => ret s t ⟨r, some cur, none⟩
  | some aligned => setPc s t (.swap r cur total aligned)

inductive Act where
  /-- Thread `t` calls `dlsm_shm_alloc`. -/
  | call (t : Nat) (r : Request)
  /-- The next step of thread `t`; the weak compare-and-swap does not fail
  spuriously if `ok`. -/
  | next (t : Nat) (ok : Bool)
  deriving DecidableEq

def step (s : State) : Act → Option State
  | .call t r =>
    match s.pc t with
    | .idle => some (if r.valid then setPc s t (.loadBump r) else ret s t ⟨r, none, none⟩)
    | _ => none
  | .next t ok =>
    match s.pc t with
    | .idle => none
    | .loadBump r => some (setPc s t (.loadTotal r s.bump))
    | .loadTotal r cur => some (round s t r cur s.total)
    | .swap r cur total aligned =>
      some (if ok && s.bump == cur then
          ret { s with bump := aligned + r.size } t ⟨r, some cur, some (s.base + aligned)⟩
        else round s t r s.bump total)

/-- A segment just initialised (`init_header`), whose mapping lies in the
address space, and no call under way. -/
def machine : Machine State Act where
  init := fun s => s.base.toNat + s.total.toNat ≤ 2 ^ 64 ∧ headerSize + 16 ≤ s.total.toNat ∧
    s.bump.toNat = alignUp headerSize 16 ∧ s.pc = (fun _ => .idle) ∧ s.returns = []
  step := step

/-! ## Rounding up -/

theorem le_alignUp {a : Nat} (ha : 0 < a) (v : Nat) : v ≤ alignUp v a := by
  have h₁ := Nat.div_add_mod (v + (a - 1)) a
  have h₂ := Nat.mod_lt (v + (a - 1)) ha
  rw [Nat.mul_comm] at h₁
  show v ≤ (v + (a - 1)) / a * a
  omega

theorem dvd_alignUp (v a : Nat) : a ∣ alignUp v a := ⟨_, Nat.mul_comm ..⟩

theorem ne_zero_iff {a : UInt64} : a ≠ 0 ↔ a.toNat ≠ 0 := not_congr UInt64.toNat_inj.symm

theorem toNat_sub_one {a : UInt64} (h : a.toNat ≠ 0) : (a - 1).toNat = a.toNat - 1 :=
  UInt64.toNat_sub_of_le _ _ (UInt64.le_iff_toNat_le.mpr (Nat.pos_of_ne_zero h))

theorem isPow2_iff {a : UInt64} : isPow2 a = true ↔ ∃ k < 64, a.toNat = 2 ^ k := by
  have hp : isPow2 a = true ↔ a.toNat.isPowerOfTwo := by
    rw [← Nat.ne_zero_and_sub_one_eq_zero_iff_isPowerOfTwo, isPow2, Bool.and_eq_true, bne_iff_ne, beq_iff_eq,
      ne_zero_iff]
    refine and_congr_right fun h => ?_
    rw [← UInt64.toNat_inj, UInt64.toNat_and, toNat_sub_one h]
    exact Iff.rfl
  rw [hp]
  constructor
  · rintro ⟨k, hk⟩
    exact ⟨k, (Nat.pow_lt_pow_iff_right (by decide)).mp (hk ▸ a.toNat_lt), hk⟩
  · rintro ⟨k, -, hk⟩
    exact ⟨k, hk⟩

/-- Clearing the low bits rounds down. -/
theorem toNat_and_not_mask {x mask : UInt64} {k : Nat} (hk : k ≤ 64) (hm : mask.toNat = 2 ^ k - 1) :
    (x &&& ~~~mask).toNat = x.toNat / 2 ^ k * 2 ^ k := by
  rw [UInt64.toNat_and, UInt64.toNat_not, hm]
  refine Nat.eq_of_testBit_eq fun i => ?_
  have hlt : 2 ^ k - 1 < 2 ^ 64 := by
    have := Nat.pow_le_pow_right (show 0 < 2 by decide) hk
    have := Nat.two_pow_pos k
    omega
  have hnot : UInt64.size - 1 - (2 ^ k - 1) = 2 ^ 64 - ((2 ^ k - 1) + 1) := by simp only [UInt64.size]; omega
  rw [Nat.testBit_and, hnot, Nat.testBit_two_pow_sub_succ hlt, Nat.testBit_two_pow_sub_one, Nat.testBit_mul_two_pow,
    Nat.testBit_div_two_pow]
  rcases Nat.lt_or_ge i k with hik | hik
  · simp [hik, Nat.not_le.mpr hik]
  · rcases Nat.lt_or_ge i 64 with hi | hi
    · simp [hik, hi, Nat.not_lt.mpr hik, Nat.sub_add_cancel hik]
    · have hx : x.toNat.testBit i = false :=
        Nat.testBit_lt_two_pow (Nat.lt_of_lt_of_le x.toNat_lt (Nat.pow_le_pow_right (by decide) hi))
      simp [hx, Nat.sub_add_cancel hik]

/-! ## Operations that do not wrap -/

theorem addChecked_eq {a b : UInt64} (h : a.toNat + b.toNat < 2 ^ 64) :
    ∃ c, a + b = c ∧ addChecked a b = some c ∧ c.toNat = a.toNat + b.toNat :=
  ⟨_, rfl, if_pos h, by rw [UInt64.toNat_add, Nat.mod_eq_of_lt h]⟩

theorem subChecked_eq {a b : UInt64} (h : b.toNat ≤ a.toNat) :
    ∃ c, a - b = c ∧ subChecked a b = some c ∧ c.toNat = a.toNat - b.toNat :=
  have h := UInt64.le_iff_toNat_le.mpr h
  ⟨_, rfl, if_pos h, UInt64.toNat_sub_of_le _ _ h⟩

/-- What is left above an address. -/
theorem subChecked_uintptrMax (a : UInt64) :
    ∃ c, uintptrMax - a = c ∧ subChecked uintptrMax a = some c ∧ c.toNat = 2 ^ 64 - 1 - a.toNat := by
  have h : uintptrMax.toNat = 2 ^ 64 - 1 := rfl
  have := a.toNat_lt
  obtain ⟨c, hc, hc', hn⟩ := subChecked_eq (show a.toNat ≤ uintptrMax.toNat by omega)
  exact ⟨c, hc, hc', by rw [hn, h]⟩

/-! ## A round of the loop -/

/-- The arguments a call accepts. -/
structure Request.Valid (r : Request) : Prop where
  writable : r.handle = some false
  size : 0 < r.size.toNat
  align : ∃ k < 64, r.align.toNat = 2 ^ k

theorem Request.valid_iff {r : Request} : r.valid = true ↔ r.Valid := by
  rw [valid, Bool.and_eq_true, Bool.and_eq_true, beq_iff_eq, bne_iff_ne, isPow2_iff, ne_zero_iff,
    Nat.ne_zero_iff_zero_lt]
  constructor
  · rintro ⟨⟨h, h'⟩, h''⟩
    exact ⟨h, h', h''⟩
  · rintro ⟨h, h', h''⟩
    exact ⟨⟨h, h'⟩, h''⟩

/-- With `bump` at `cur`, the block fits at the first aligned address. -/
def Fits (base total cur : UInt64) (r : Request) : Prop :=
  alignUp (base.toNat + cur.toNat) r.align.toNat + r.size.toNat ≤ base.toNat + total.toNat

section
variable {base total cur : UInt64} {r : Request} (hr : r.Valid)
include hr

theorem align_pos : 0 < r.align.toNat := by
  obtain ⟨k, -, hk⟩ := hr.align
  exact hk ▸ Nat.two_pow_pos k

/-- The mask rounds a raised address down to a multiple of the alignment. -/
theorem toNat_aligned {mask raised : UInt64} {v : Nat} (hm : mask.toNat = r.align.toNat - 1)
    (h : raised.toNat = v + mask.toNat) : (raised &&& ~~~mask).toNat = alignUp v r.align.toNat := by
  obtain ⟨k, hk, hk'⟩ := hr.align
  rw [toNat_and_not_mask (Nat.le_of_lt hk) (by rw [hm, hk']), h, hm, hk']
  rfl

/-- Where the address cannot be raised, no aligned address is left. -/
theorem past_alignUp {v : Nat} (h : 2 ^ 64 < v + r.align.toNat) : 2 ^ 64 ≤ alignUp v r.align.toNat := by
  have hup := le_alignUp (align_pos hr) v
  obtain ⟨k, hk, hk'⟩ := hr.align
  obtain ⟨m, hm⟩ := dvd_alignUp v r.align.toNat
  obtain ⟨j, hj⟩ : ∃ j, 64 = k + j := ⟨64 - k, by omega⟩
  rw [hm, hk', hj, Nat.pow_add]
  refine Nat.mul_le_mul_left _ (Nat.le_of_lt_succ ?_)
  refine Nat.lt_of_mul_lt_mul_left (a := 2 ^ k) ?_
  rw [← Nat.pow_add, ← hj, Nat.mul_succ, ← hk', ← hm]
  omega

/-- No operation of a round wraps, and what it computes is exact. -/
theorem placeChecked_spec (base total cur : UInt64) :
    (∃ aligned, place base total cur r = some aligned ∧
      placeChecked base total cur r = some (some (aligned, aligned + r.size, base + aligned)) ∧
      base.toNat + aligned.toNat = alignUp (base.toNat + cur.toNat) r.align.toNat ∧
      base.toNat + aligned.toNat < 2 ^ 64 ∧ aligned.toNat + r.size.toNat ≤ total.toNat) ∨
    place base total cur r = none ∧ placeChecked base total cur r = some none ∧
      (base.toNat + total.toNat ≤ 2 ^ 64 → ¬ Fits base total cur r) := by
  have hup := le_alignUp (align_pos hr) (base.toNat + cur.toNat)
  have hsize := hr.size
  have hpos := align_pos hr
  have halign := r.align.toNat_lt
  obtain ⟨space, hspace, hspace', nspace⟩ := subChecked_uintptrMax base
  obtain ⟨mask, hmask, hmask', nmask⟩ := subChecked_eq (show (1 : UInt64).toNat ≤ r.align.toNat from align_pos hr)
  obtain ⟨last, hlast, hlast', nlast⟩ := subChecked_uintptrMax mask
  rw [show (1 : UInt64).toNat = 1 from rfl] at nmask
  simp only [place, placeChecked, hspace, hmask, hlast, hspace', hmask', hlast', Option.bind_eq_bind, Option.bind_some,
    Option.pure_def]
  by_cases h₁ : cur > total
  · refine .inr ⟨by simp [h₁], by simp [h₁], fun _ hfit => ?_⟩
    have := UInt64.lt_iff_toNat_lt.mp h₁
    unfold Fits at hfit
    omega
  by_cases h₂ : cur > space
  · refine .inr ⟨by simp [h₂], by simp [h₁, h₂], fun hmap hfit => ?_⟩
    have := UInt64.lt_iff_toNat_lt.mp h₂
    unfold Fits at hfit
    omega
  have hcur := UInt64.le_iff_toNat_le.mp (UInt64.not_lt.mp h₂)
  obtain ⟨address, haddress, haddress', naddress⟩ := addChecked_eq (show base.toNat + cur.toNat < 2 ^ 64 by
    have := base.toNat_lt; omega)
  simp only [h₁, h₂, haddress, haddress', decide_false, Bool.or_self, Bool.false_eq_true, if_false,
    Option.bind_some]
  by_cases h₃ : address > last
  · refine .inr ⟨by simp [h₃], by simp [h₃], fun hmap hfit => ?_⟩
    have := UInt64.lt_iff_toNat_lt.mp h₃
    have := past_alignUp hr (show 2 ^ 64 < (base.toNat + cur.toNat) + r.align.toNat by omega)
    unfold Fits at hfit
    omega
  have hend := UInt64.le_iff_toNat_le.mp (UInt64.not_lt.mp h₃)
  obtain ⟨raised, hraised, hraised', nraised⟩ := addChecked_eq (show address.toNat + mask.toNat < 2 ^ 64 by omega)
  have hat := toNat_aligned hr nmask (naddress ▸ nraised)
  simp only [h₃, hraised, hraised', if_false, Option.bind_some]
  generalize raised &&& ~~~mask = alignedAddress at hat ⊢
  obtain ⟨aligned, haligned, haligned', naligned⟩ := subChecked_eq (show base.toNat ≤ alignedAddress.toNat by omega)
  have h₄ : ¬ alignedAddress < base := fun h => by
    have := UInt64.lt_iff_toNat_lt.mp h
    omega
  simp only [h₄, haligned, haligned', if_false, Option.bind_some]
  by_cases h₅ : aligned > total
  · refine .inr ⟨by simp [h₅], by simp [h₅], fun _ hfit => ?_⟩
    have := UInt64.lt_iff_toNat_lt.mp h₅
    unfold Fits at hfit
    omega
  obtain ⟨left, hleft, hleft', nleft⟩ := subChecked_eq (UInt64.le_iff_toNat_le.mp (UInt64.not_lt.mp h₅))
  simp only [h₅, hleft, hleft', decide_false, Bool.false_or, if_false, Option.bind_some]
  by_cases h₆ : r.size > left
  · refine .inr ⟨by simp [h₆], by simp [h₆], fun _ hfit => ?_⟩
    have := UInt64.lt_iff_toNat_lt.mp h₆
    unfold Fits at hfit
    omega
  have hroom := UInt64.le_iff_toNat_le.mp (UInt64.not_lt.mp h₆)
  have hin := UInt64.le_iff_toNat_le.mp (UInt64.not_lt.mp h₅)
  have hbelow := alignedAddress.toNat_lt
  have htotal := total.toNat_lt
  obtain ⟨next, hnext, hnext', -⟩ := addChecked_eq (show aligned.toNat + r.size.toNat < 2 ^ 64 by omega)
  obtain ⟨ptr, hptr, hptr', -⟩ := addChecked_eq (show base.toNat + aligned.toNat < 2 ^ 64 by omega)
  exact .inl ⟨aligned, by simp [h₆], by simp [h₆, hnext, hnext', hptr, hptr'], by omega, by omega, by omega⟩

end

/-! ## Every run -/

/-- A block returned: the request and the address. -/
structure Block where
  request : Request
  ptr : UInt64

def Return.block (r : Return) : Option Block := r.ptr.map (Block.mk r.request)

def State.blocks (s : State) : List Block := s.returns.filterMap Return.block

/-- The blocks share no address. -/
def Apart (b c : Block) : Prop :=
  b.ptr.toNat + b.request.size.toNat ≤ c.ptr.toNat ∨ c.ptr.toNat + c.request.size.toNat ≤ b.ptr.toNat

/-- A block lies between the header and `high`, at an address its request allows. -/
structure Lies (base high : Nat) (b : Block) : Prop where
  valid : b.request.Valid
  low : base + headerSize ≤ b.ptr.toNat
  high : b.ptr.toNat + b.request.size.toNat ≤ base + high
  aligned : b.request.align.toNat ∣ b.ptr.toNat

/-- Why a call returned what it did. -/
def Justified (base total : UInt64) (r : Return) : Prop :=
  r.ptr = none ↔ ¬ r.request.Valid ∨ ∃ cur, r.seen = some cur ∧ ¬ Fits base total cur r.request

/-- What a thread inside its call has checked and read. -/
def PcOk (base total : UInt64) : Pc → Prop
  | .idle => True
  | .loadBump r => r.Valid
  | .loadTotal r cur => r.Valid ∧ headerSize ≤ cur.toNat
  | .swap r cur total' aligned =>
    r.Valid ∧ headerSize ≤ cur.toNat ∧ total' = total ∧ place base total cur r = some aligned

structure Inv (s : State) : Prop where
  mapped : s.base.toNat + s.total.toNat ≤ 2 ^ 64
  low : headerSize ≤ s.bump.toNat
  high : s.bump.toNat ≤ s.total.toNat
  threads : ∀ t, PcOk s.base s.total (s.pc t)
  lies : ∀ b ∈ s.blocks, Lies s.base.toNat s.bump.toNat b
  apart : s.blocks.Pairwise Apart
  justified : ∀ r ∈ s.returns, Justified s.base s.total r

variable {s s' : State} {t : Nat} {r : Request} {cur : UInt64}

theorem inv_setPc (hi : Inv s) {pc : Pc} (h : PcOk s.base s.total pc) : Inv (setPc s t pc) where
  mapped := hi.mapped
  low := hi.low
  high := hi.high
  threads := (Function.forall_update_iff s.pc (p := fun _ pc => PcOk s.base s.total pc)).mpr
    ⟨h, fun u _ => hi.threads u⟩
  lies := hi.lies
  apart := hi.apart
  justified := hi.justified

/-- A call that returns `NULL` for a reason. -/
theorem inv_ret_null (hi : Inv s) {seen : Option UInt64} (h : Justified s.base s.total ⟨r, seen, none⟩) :
    Inv (ret s t ⟨r, seen, none⟩) :=
  have hidle : Inv (setPc s t .idle) := inv_setPc hi trivial
  { hidle with
    justified := fun r' hr' => by
      rcases List.mem_cons.mp hr' with rfl | hr'
      · exact h
      · exact hi.justified r' hr' }

theorem inv_round (hi : Inv s) (hr : r.Valid) (hcur : headerSize ≤ cur.toNat) : Inv (round s t r cur s.total) := by
  unfold round
  rcases placeChecked_spec hr s.base s.total cur with ⟨aligned, hp, -⟩ | ⟨hp, -, hfit⟩
  · rw [hp]
    exact inv_setPc hi ⟨hr, hcur, rfl, hp⟩
  · rw [hp]
    exact inv_ret_null hi ⟨fun _ => .inr ⟨cur, rfl, hfit hi.mapped⟩, fun _ => rfl⟩

/-- The block of a round that found room begins at `cur` or later. -/
theorem place_eq_some (hr : r.Valid) {base total aligned : UInt64} (hp : place base total cur r = some aligned) :
    cur.toNat ≤ aligned.toNat ∧ (base + aligned).toNat = base.toNat + aligned.toNat ∧
      (aligned + r.size).toNat = aligned.toNat + r.size.toNat ∧ aligned.toNat + r.size.toNat ≤ total.toNat ∧
      r.align.toNat ∣ (base + aligned).toNat ∧ Fits base total cur r := by
  obtain ⟨aligned', hp', -, hat, hlt, hin⟩ | ⟨hp', -⟩ := placeChecked_spec hr base total cur
  · obtain rfl : aligned' = aligned := Option.some.inj (hp'.symm.trans hp)
    have hup := le_alignUp (align_pos hr) (base.toNat + cur.toNat)
    have htotal := total.toNat_lt
    obtain ⟨-, rfl, -, hnext⟩ := addChecked_eq (show aligned'.toNat + r.size.toNat < 2 ^ 64 by omega)
    obtain ⟨-, rfl, -, hptr⟩ := addChecked_eq hlt
    refine ⟨by omega, hptr, hnext, hin, ?_, ?_⟩
    · rw [hptr, hat]
      exact dvd_alignUp ..
    · unfold Fits
      omega
  · cases hp'.symm.trans hp

/-- The compare-and-swap succeeds: the block begins where `bump` was, or later. -/
theorem inv_swap (hi : Inv s) {aligned : UInt64} (hr : r.Valid) (hp : place s.base s.total s.bump r = some aligned) :
    Inv (ret { s with bump := aligned + r.size } t ⟨r, some s.bump, some (s.base + aligned)⟩) ∧
      s.bump.toNat ≤ (aligned + r.size).toNat := by
  obtain ⟨hcur, hptr, hnext, hin, hdvd, hfit⟩ := place_eq_some hr hp
  have hlow := hi.low
  have hmono : s.bump.toNat ≤ (aligned + r.size).toNat := by omega
  have hbelow (b : Block) (hb : b ∈ s.blocks) : Lies s.base.toNat (aligned + r.size).toNat b :=
    { hi.lies b hb with high := by have := (hi.lies b hb).high; omega }
  refine ⟨{ hi with low := ?_, high := ?_, threads := ?_, lies := ?_, apart := ?_, justified := ?_ }, hmono⟩
  · show headerSize ≤ (aligned + r.size).toNat
    omega
  · show (aligned + r.size).toNat ≤ s.total.toNat
    omega
  · exact (Function.forall_update_iff s.pc (p := fun _ pc => PcOk s.base s.total pc)).mpr
      ⟨trivial, fun u _ => hi.threads u⟩
  · refine List.forall_mem_cons.mpr ⟨⟨hr, ?_, ?_, hdvd⟩, hbelow⟩
    · show s.base.toNat + headerSize ≤ (s.base + aligned).toNat
      omega
    · show (s.base + aligned).toNat + r.size.toNat ≤ s.base.toNat + (aligned + r.size).toNat
      omega
  · refine List.pairwise_cons.mpr ⟨fun b hb => .inr ?_, hi.apart⟩
    show b.ptr.toNat + b.request.size.toNat ≤ (s.base + aligned).toNat
    have := (hi.lies b hb).high
    omega
  · refine List.forall_mem_cons.mpr ⟨⟨fun h => (by cases h), ?_⟩, hi.justified⟩
    rintro (h | ⟨_, h, hno⟩)
    · exact absurd hr h
    · exact absurd hfit (Option.some.inj h ▸ hno)

/-- How one step moves `bump`: not at all, or as the call that returns a block does. -/
def Moves (s s' : State) : Prop :=
  s'.base = s.base ∧ s'.total = s.total ∧ s.bump.toNat ≤ s'.bump.toNat ∧
    (s'.bump = s.bump ∨ ∃ r cur ptr, s'.returns = ⟨r, some cur, some ptr⟩ :: s.returns)

theorem moves_setPc {pc : Pc} : Moves s (setPc s t pc) := ⟨rfl, rfl, Nat.le_refl _, .inl rfl⟩

theorem moves_ret {r : Return} : Moves s (ret s t r) := ⟨rfl, rfl, Nat.le_refl _, .inl rfl⟩

theorem moves_round {total : UInt64} : Moves s (round s t r cur total) := by
  unfold round
  split
  · exact moves_ret
  · exact moves_setPc

theorem inv_step (hi : Inv s) {a : Act} (h : step s a = some s') : Inv s' ∧ Moves s s' := by
  cases a with
  | call t r =>
    simp only [step] at h
    split at h
    · obtain rfl := Option.some.inj h
      split
      · rename_i hv
        exact ⟨inv_setPc hi (Request.valid_iff.mp hv), moves_setPc⟩
      · rename_i hv
        exact ⟨inv_ret_null hi ⟨fun _ => .inl fun hr => hv (Request.valid_iff.mpr hr), fun _ => rfl⟩, moves_ret⟩
    · cases h
  | next t ok =>
    have hpc := hi.threads t
    simp only [step] at h
    split at h
    · cases h
    · rename_i r heq
      rw [heq] at hpc
      obtain rfl := Option.some.inj h
      exact ⟨inv_setPc hi ⟨hpc, hi.low⟩, moves_setPc⟩
    · rename_i r cur heq
      rw [heq] at hpc
      obtain rfl := Option.some.inj h
      exact ⟨inv_round hi hpc.1 hpc.2, moves_round⟩
    · rename_i r cur total aligned heq
      rw [heq] at hpc
      obtain ⟨hr, hcur, rfl, hp⟩ := hpc
      obtain rfl := Option.some.inj h
      split
      · rename_i hok
        obtain rfl : s.bump = cur := beq_iff_eq.mp (Bool.and_eq_true .. ▸ hok).2
        obtain ⟨hi', hmono⟩ := inv_swap (t := t) hi hr hp
        exact ⟨hi', rfl, rfl, hmono, .inr ⟨r, s.bump, _, rfl⟩⟩
      · exact ⟨inv_round hi hr hi.low, moves_round⟩

theorem inv_init (h : machine.init s) : Inv s := by
  obtain ⟨hmap, htotal, hbump, hpc, hret⟩ := h
  have hb : s.blocks = [] := by rw [State.blocks, hret]; rfl
  rw [show alignUp headerSize 16 = headerSize from rfl] at hbump
  exact {
    mapped := hmap
    low := by omega
    high := by omega
    threads := fun t => by rw [hpc]; trivial
    lies := by simp [hb]
    apart := by simp [hb]
    justified := by simp [hret] }

theorem inv_of_reach (h : machine.Reach s) : Inv s :=
  h.invariant (I := Inv) (fun _ => inv_init) fun _ _ _ _ hi h => (inv_step hi h).1

/-- What the callers of the allocator rely on. -/
structure Allocated (s : State) : Prop where
  disjoint : s.blocks.Pairwise Apart
  inside : ∀ b ∈ s.blocks, s.base.toNat + headerSize ≤ b.ptr.toNat ∧
    b.ptr.toNat + b.request.size.toNat ≤ s.base.toNat + s.total.toNat
  aligned : ∀ b ∈ s.blocks, (∃ k, b.request.align.toNat = 2 ^ k) ∧ b.request.align.toNat ∣ b.ptr.toNat
  bump : s.bump.toNat ≤ s.total.toNat
  null : ∀ r ∈ s.returns, Justified s.base s.total r
  roundTrip : ∀ b ∈ s.blocks, ∃ offset, offsetOf s.base s.total b.ptr = some offset ∧
    pointer s.base s.total offset b.request.size = some b.ptr

/-- The pointer of a block inside the segment comes back from its offset. -/
theorem round_trip (hi : Inv s) {b : Block} (hb : Lies s.base.toNat s.bump.toNat b) :
    ∃ offset, offsetOf s.base s.total b.ptr = some offset ∧
      pointer s.base s.total offset b.request.size = some b.ptr := by
  have hlow := hb.low
  have hhigh := hb.high
  have hin := hi.high
  have hsize := hb.valid.size
  have hheader : headerSize = 48 := rfl
  have hbase : ¬ b.ptr < s.base := fun h => by have := UInt64.lt_iff_toNat_lt.mp h; omega
  obtain ⟨offset, hoffset, -, noffset⟩ := subChecked_eq (show s.base.toNat ≤ b.ptr.toNat by omega)
  obtain ⟨left, hleft, -, nleft⟩ := subChecked_eq (show offset.toNat ≤ s.total.toNat by omega)
  have hzero : ¬ b.ptr = 0 := fun h => by rw [h] at hlow; exact absurd hlow (by simp; omega)
  have hcap : ¬ offset ≥ s.total := fun h => by have := UInt64.le_iff_toNat_le.mp h; omega
  have hoff : ¬ offset > s.total := fun h => by have := UInt64.lt_iff_toNat_lt.mp h; omega
  have hroom : ¬ b.request.size > left := fun h => by have := UInt64.lt_iff_toNat_lt.mp h; omega
  have hback : s.base + offset = b.ptr := by
    obtain ⟨-, rfl, -, n⟩ := addChecked_eq (show s.base.toNat + offset.toNat < 2 ^ 64 by
      have := b.ptr.toNat_lt; omega)
    exact UInt64.toNat_inj.mp (by omega)
  refine ⟨offset, ?_, ?_⟩
  · simp only [offsetOf, hoffset, beq_iff_eq, hzero, hbase, hcap, decide_false, Bool.or_self, Bool.false_eq_true,
      if_false]
  · simp only [pointer, hleft, hoff, hroom, hback, decide_false, Bool.or_self, Bool.false_eq_true, if_false]

/-- In every run the blocks returned are disjoint, inside the segment and
aligned; `NULL` is returned only to bad arguments or for want of room; a step
moves `bump` up, and only where it returns a block; and no operation of a call
wraps, whatever the values. -/
theorem alloc_correct (hs : machine.Reach s) :
    Allocated s ∧
      (∀ s' a, machine.step s a = some s' → Moves s s') ∧
      (∀ align, isPow2Checked align = some (isPow2 align)) ∧
      ∀ base total cur r, r.valid = true → placeChecked base total cur r =
        some ((place base total cur r).map fun aligned => (aligned, aligned + r.size, base + aligned)) := by
  have hi := inv_of_reach hs
  refine ⟨?_, fun _ _ h => (inv_step hi h).2, fun align => ?_, fun base total cur r hr => ?_⟩
  · exact {
      disjoint := hi.apart
      inside := fun b hb => by
        have := (hi.lies b hb).low
        have := (hi.lies b hb).high
        have := hi.high
        omega
      aligned := fun b hb =>
        have ⟨k, _, hk⟩ := (hi.lies b hb).valid.align
        ⟨⟨k, hk⟩, (hi.lies b hb).aligned⟩
      bump := hi.high
      null := hi.justified
      roundTrip := fun b hb => round_trip hi (hi.lies b hb) }
  · unfold isPow2Checked isPow2
    split
    · rename_i h
      rw [h]
      rfl
    · rename_i h
      obtain ⟨mask, hmask, hmask', -⟩ := subChecked_eq
        (show (1 : UInt64).toNat ≤ align.toNat from Nat.pos_of_ne_zero (ne_zero_iff.mp h))
      simp [hmask, hmask', h]
  · obtain ⟨aligned, hp, hc, -⟩ | ⟨hp, hc, -⟩ := placeChecked_spec (Request.valid_iff.mp hr) base total cur
    · rw [hp, hc]
      rfl
    · rw [hp, hc]
      rfl

/-- Two threads contend for a segment of 128 bytes, and a third call finds it full. -/
theorem alloc_correct_contended : ∃ s, machine.Reach s ∧ Allocated s ∧ s.blocks.length = 2 ∧
    s.returns.map Return.ptr = [none, some 0x200000000040, some 0x200000000030] := by
  let a : Request := ⟨some false, 16, 16⟩
  let b : Request := ⟨some false, 64, 64⟩
  obtain ⟨s, hs, h⟩ := Machine.exists_reach_of_run (M := machine) (s := ⟨0x200000000000, 128, 48, fun _ => .idle, []⟩)
    (l := [.call 0 a, .call 1 b, .next 0 true, .next 1 true, .next 0 true, .next 1 true, .next 0 true, .next 1 true,
      .next 1 false, .next 1 true, .call 0 a, .next 0 true, .next 0 true])
    (p := fun s => decide (s.returns.map Return.ptr = [none, some 0x200000000040, some 0x200000000030] ∧
      s.blocks.length = 2))
    ⟨by decide +kernel, by decide +kernel, by decide +kernel, rfl, rfl⟩ (by decide +kernel)
  have h := of_decide_eq_true h
  exact ⟨s, hs, (alloc_correct hs).1, h.2, h.1⟩

end Dlsmc.Shm.Alloc
