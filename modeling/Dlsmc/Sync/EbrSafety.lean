import Dlsmc.Framework.Chain
import Dlsmc.Sync.Ebr

/-!
# Epoch-based reclamation: what may be freed, and when

While a thread is inside an epoch, the global epoch is at most one past the
epoch at its entry (`EpochInv`): an advancer that checked its slot before it
entered has loaded an older epoch, and one that checks it later sees its
announcement. So the objects it may hold are retired in one of two epochs,
and a bucket exchanged at the very epoch its winner installed holds none of
them (`NodeInv.exchange`).
-/

namespace Dlsmc.Ebr

/-- Where a retire node is: with the thread that fills it in, in a bucket, or
on the private list of an advancer. -/
inductive Place where
  | held (t : Nat)
  | bucket (b : Nat)
  | priv (t : Nat)

/-- What the proof adds to a state: the owner of each slot, the epoch at each
thread's last entry, and of each node where it is and the epoch it is retired
in; and the lists the buckets and the advancers hold. -/
structure Ghost where
  owner : Nat → Option Nat
  entered : Nat → Nat
  place : Nat → Place
  stamp : Nat → Nat
  bucket : Nat → List Nat
  priv : Nat → List Nat

/-- The threads inside with a slot below `i` entered at epoch `g` or later. -/
def Passed (s : State) (G : Ghost) (g i : Nat) : Prop :=
  ∀ r j, (s.thread r).inside = true → (s.thread r).slot = some j → j < i → g ≤ G.entered r

/-- What a thread inside a call has learned of the epoch and the slots. -/
def PcOk (s : State) (G : Ghost) (t : Nat) : Pc → Prop
  | .register _ => (s.thread t).inside = false
  | .registerLocal i => i < SLOTS ∧ G.owner i = some t ∧ (s.thread t).inside = false
  | .unregister => (s.thread t).inside = false
  | .enter g => g ≤ s.globalEpoch ∧ (s.thread t).inside = false
  | .advActive g i => g ≤ s.globalEpoch ∧ i < SLOTS ∧ Passed s G g i
  | .advLocal g i => g ≤ s.globalEpoch ∧ i < SLOTS ∧ Passed s G g i
  | .advCas g => g ≤ s.globalEpoch ∧ Passed s G g SLOTS
  | .advExchange g => g + 1 < QUIESCENT
  | _ => True

structure EpochInv (s : State) (G : Ghost) : Prop where
  bound : s.globalEpoch < QUIESCENT
  slot : ∀ t i, (s.thread t).slot = some i → i < SLOTS ∧ G.owner i = some t
  active : ∀ i t, G.owner i = some t → s.active i = true
  inside : ∀ t, (s.thread t).inside = true → ∃ i, (s.thread t).slot = some i ∧
    s.localEpoch i ≤ G.entered t ∧ G.entered t ≤ s.globalEpoch ∧ s.globalEpoch ≤ G.entered t + 1
  pc : ∀ t, PcOk s G t (s.thread t).pc
  readers : ∀ o r, s.readers o r = true → (s.thread r).inside = true

section goto
variable (s : State) (t r : Nat) (pc : Pc)

@[simp] theorem goto_slot : ((s.goto t pc).thread r).slot = (s.thread r).slot := by
  simp only [State.goto, Function.update_apply]; split <;> simp_all

@[simp] theorem goto_inside : ((s.goto t pc).thread r).inside = (s.thread r).inside := by
  simp only [State.goto, Function.update_apply]; split <;> simp_all

theorem goto_pc : ((s.goto t pc).thread r).pc = if r = t then pc else (s.thread r).pc := by
  simp only [State.goto, Function.update_apply]; split <;> simp_all

@[simp] theorem goto_globalEpoch : (s.goto t pc).globalEpoch = s.globalEpoch := rfl
@[simp] theorem goto_localEpoch : (s.goto t pc).localEpoch = s.localEpoch := rfl
@[simp] theorem goto_active : (s.goto t pc).active = s.active := rfl
@[simp] theorem goto_retire : (s.goto t pc).retire = s.retire := rfl
@[simp] theorem goto_heap : (s.goto t pc).heap = s.heap := rfl
@[simp] theorem goto_phase : (s.goto t pc).phase = s.phase := rfl
@[simp] theorem goto_readers : (s.goto t pc).readers = s.readers := rfl

end goto

variable {s : State} {G : Ghost} {t : Nat}

/-- `PcOk` depends only on the epoch, the threads' slots and whether they are
inside, and the entries. -/
theorem PcOk.congr {s' : State} {G' : Ghost} {pc : Pc} (h : PcOk s G t pc)
    (he : s'.globalEpoch = s.globalEpoch) (ho : G'.owner = G.owner) (hn : G'.entered = G.entered)
    (hs : ∀ r, (s'.thread r).slot = (s.thread r).slot)
    (hi : ∀ r, (s'.thread r).inside = (s.thread r).inside) : PcOk s' G' t pc := by
  cases pc <;> simp only [PcOk, Passed, he, ho, hn, hs, hi] at h ⊢ <;> exact h

/-- A step that only moves a thread. -/
theorem EpochInv.goto (h : EpochInv s G) {p : Pc} (hp : PcOk s G t p) : EpochInv (s.goto t p) G where
  bound := h.bound
  slot := by simpa using h.slot
  active := h.active
  inside := by simpa using h.inside
  readers := by simpa using h.readers
  pc r := by
    rw [goto_pc]
    refine PcOk.congr (s := s) ?_ rfl rfl rfl (by simp) (by simp)
    split
    · rename_i e; exact e ▸ hp
    · exact h.pc r

/-- The next slot of an advancer: all slots up to `i` are passed. -/
theorem PcOk.scanNext {g i : Nat} (hg : g ≤ s.globalEpoch) (hi : i < SLOTS)
    (hp : Passed s G g (i + 1)) : PcOk s G t (scanNext g i) := by
  unfold Ebr.scanNext
  split
  · exact ⟨hg, by assumption, hp⟩
  · rename_i h
    exact ⟨hg, by rwa [show SLOTS = i + 1 by omega]⟩

/-! ## Slots and the epoch -/

attribute [local grind =] Function.update_apply goto_pc

/-- `register` takes a slot nobody owns. -/
theorem EpochInv.take (h : EpochInv s G) {i : Nat} (hi : i < SLOTS) (ha : s.active i = false)
    (hp : (s.thread t).inside = false) :
    EpochInv ({ s with active := Function.update s.active i true }.goto t (.registerLocal i))
      { G with owner := Function.update G.owner i (some t) } := by
  obtain ⟨hbound, hslot, hactive, hinside, hpc, hreaders⟩ := h
  refine ⟨hbound, ?_, ?_, by simpa using hinside, fun r => ?_, by simpa using hreaders⟩
  · simp only [goto_slot]; grind -linarith
  · simp only [goto_active]; grind -linarith
  · have hr := hpc r
    rw [goto_pc]
    split
    · simp only [PcOk, goto_inside]; grind -linarith
    · generalize (s.thread r).pc = pc at hr
      cases pc <;> simp only [PcOk, Passed, goto_globalEpoch, goto_slot, goto_inside] at hr ⊢ <;> grind -linarith

/-- What a change of one thread, not inside before or after, and of its own
slot's announcement keeps. -/
theorem EpochInv.setOutside (h : EpochInv s G) {i : Nat} {th : Thread} {v : Nat}
    (ht : (s.thread t).inside = false) (hin : th.inside = false) (ho : G.owner i = some t)
    (hs : ∀ j, th.slot = some j → j < SLOTS ∧ G.owner j = some t)
    (hp : th.pc = .idle ∨ th.pc = .unregister) :
    EpochInv { s with localEpoch := Function.update s.localEpoch i v, thread := Function.update s.thread t th } G := by
  obtain ⟨hbound, hslot, hactive, hinside, hpc, hreaders⟩ := h
  refine ⟨hbound, by grind -linarith, hactive, by grind -linarith, fun r => ?_, by grind -linarith⟩
  have hr := hpc r
  by_cases e : r = t
  · grind -linarith [PcOk]
  · simp only [Function.update_of_ne e]
    generalize (s.thread r).pc = pc at hr
    cases pc <;> simp only [PcOk, Passed] at hr ⊢ <;> grind -linarith

/-- `unregister` gives its slot back. -/
theorem EpochInv.release (h : EpochInv s G) {i : Nat} (hs : (s.thread t).slot = some i)
    (ht : (s.thread t).inside = false) :
    EpochInv { s with
      active := Function.update s.active i false
      thread := Function.update s.thread t ⟨none, false, .idle⟩ }
      { G with owner := Function.update G.owner i none } := by
  obtain ⟨hbound, hslot, hactive, hinside, hpc, hreaders⟩ := h
  refine ⟨hbound, by grind -linarith, by grind -linarith, by grind -linarith, fun r => ?_, by grind -linarith⟩
  have hr := hpc r
  by_cases e : r = t
  · grind -linarith [PcOk]
  · simp only [Function.update_of_ne e]
    generalize (s.thread r).pc = pc at hr
    cases pc <;> simp only [PcOk, Passed] at hr ⊢ <;> grind -linarith

/-- `enter` announces the epoch it loaded: from now on the epoch moves at most
once. The threads inside are passed by no advancer that has not loaded the
current epoch or an older one. -/
theorem EpochInv.announce (h : EpochInv s G) {i g : Nat} (hs : (s.thread t).slot = some i)
    (hp : (s.thread t).pc = .enter g) :
    EpochInv { s with
      localEpoch := Function.update s.localEpoch i g
      thread := Function.update s.thread t ⟨some i, true, .idle⟩ }
      { G with entered := Function.update G.entered t s.globalEpoch } := by
  have hg := h.pc t
  rw [hp] at hg
  obtain ⟨hbound, hslot, hactive, hinside, hpc, hreaders⟩ := h
  refine ⟨hbound, by grind -linarith, by grind -linarith, ?_, fun r => ?_, by grind -linarith⟩
  · intro r hr
    by_cases e : r = t
    · subst e; exact ⟨i, by grind -linarith [PcOk]⟩
    · obtain ⟨j, hj⟩ := hinside r (by grind -linarith)
      exact ⟨j, by grind -linarith⟩
  have hr := hpc r
  by_cases e : r = t
  · grind -linarith [PcOk]
  · simp only [Function.update_of_ne e]
    generalize (s.thread r).pc = pc at hr
    cases pc <;> simp only [PcOk, Passed] at hr ⊢ <;> grind -linarith

/-- `exit`. -/
theorem EpochInv.leave (h : EpochInv s G) {i : Nat} (hs : (s.thread t).slot = some i) :
    EpochInv { s with
      localEpoch := Function.update s.localEpoch i QUIESCENT
      thread := Function.update s.thread t ⟨some i, false, .idle⟩
      readers := fun o r => if r = t then false else s.readers o r } G := by
  obtain ⟨hbound, hslot, hactive, hinside, hpc, hreaders⟩ := h
  refine ⟨hbound, by grind -linarith, hactive, ?_, fun r => ?_, by grind -linarith⟩
  · intro r hr
    obtain ⟨j, hj⟩ := hinside r (by grind -linarith)
    exact ⟨j, by grind -linarith⟩
  have hr := hpc r
  by_cases e : r = t
  · grind -linarith [PcOk]
  · simp only [Function.update_of_ne e]
    generalize (s.thread r).pc = pc at hr
    cases pc <;> simp only [PcOk, Passed] at hr ⊢ <;> grind -linarith

/-- The epoch moves on: every thread inside entered at the epoch left or is
checked to have announced it. -/
theorem EpochInv.advance (h : EpochInv s G) {g : Nat} (hg : s.globalEpoch = g) (hp : (s.thread t).pc = .advCas g)
    (hb : g + 1 < QUIESCENT) :
    EpochInv ({ s with globalEpoch := (g + 1) % 2 ^ 64 }.goto t (.advExchange g)) G := by
  have hc := h.pc t
  rw [hp] at hc
  have hm : (g + 1) % 2 ^ 64 = g + 1 := Nat.mod_eq_of_lt (by unfold QUIESCENT at hb; omega)
  obtain ⟨hbound, hslot, hactive, hinside, hpc, hreaders⟩ := h
  rw [hm]
  refine ⟨hb, by simpa using hslot, hactive, ?_, fun r => ?_, by simpa using hreaders⟩
  · simp only [goto_inside, goto_slot, goto_globalEpoch, goto_localEpoch]
    intro r hr
    obtain ⟨j, hj, hl⟩ := hinside r hr
    have := hc.2 r j hr hj (hslot r j hj).1
    exact ⟨j, hj, by omega⟩
  have hr := hpc r
  rw [goto_pc]
  split
  · exact hb
  · generalize (s.thread r).pc = pc at hr
    cases pc <;> simp only [PcOk, Passed, goto_globalEpoch, goto_slot, goto_inside] at hr ⊢ <;> grind -linarith

/-! ## Retire nodes -/

/-- The node a thread inside `retire` is about to push. -/
def Pc.node : Pc → Option Nat
  | .retire n | .retireHead n _ | .retireCas n _ _ => some n
  | _ => none

/-- The epoch that `retire` has loaded. -/
def Pc.epoch : Pc → Option Nat
  | .retireHead _ g | .retireCas _ g _ => some g
  | _ => none

/-- The list an advancer still has to destroy. -/
def Pc.list : Pc → Option Nat
  | .advFree l => l
  | _ => none

/-- The link of a node. -/
def nx (heap : Nat → Option Node) (a : Nat) : Option Nat := (heap a).bind Node.next

/-- The buckets and the lists of the advancers are chains of allocated nodes,
each node at one place only; a thread that may hold the object of a node in a
bucket entered no later than the node was retired, and no thread holds the
object of a node that is being freed. -/
structure NodeInv (s : State) (G : Ghost) : Prop where
  bucket : ∀ b, IsChain (nx s.heap) (s.retire b) (G.bucket b)
  priv : ∀ t, IsChain (nx s.heap) (s.thread t).pc.list (G.priv t)
  inBucket : ∀ b a, a ∈ G.bucket b →
    G.place a = .bucket b ∧ s.heap a ≠ none ∧ G.stamp a % 3 = b ∧ G.stamp a ≤ s.globalEpoch
  inPriv : ∀ t a, a ∈ G.priv t → G.place a = .priv t ∧ s.heap a ≠ none
  held : ∀ t a, (s.thread t).pc.node = some a → G.place a = .held t ∧ s.heap a ≠ none
  bucketReader : ∀ b a n r, a ∈ G.bucket b → s.heap a = some n → s.readers n.obj r = true → G.entered r ≤ G.stamp a
  privReader : ∀ t a n r, a ∈ G.priv t → s.heap a = some n → s.readers n.obj r = false
  heldEpoch : ∀ t g, (s.thread t).pc.epoch = some g → g ≤ s.globalEpoch
  heldReader : ∀ t a g n r, (s.thread t).pc.node = some a → (s.thread t).pc.epoch = some g →
    s.heap a = some n → s.readers n.obj r = true → G.entered r ≤ g
  retired : ∀ a n, s.heap a = some n → s.phase n.obj = .retired

/-- A step that touches no node and no bucket, and makes no thread a reader of
a retired object. -/
theorem NodeInv.frame (h : NodeInv s G) {s' : State} {G' : Ghost} (hh : s'.heap = s.heap)
    (hr : s'.retire = s.retire) (he : s.globalEpoch ≤ s'.globalEpoch)
    (hG : G'.place = G.place ∧ G'.stamp = G.stamp ∧ G'.bucket = G.bucket ∧ G'.priv = G.priv)
    (hpc : ∀ r, (s'.thread r).pc.node = (s.thread r).pc.node ∧ (s'.thread r).pc.epoch = (s.thread r).pc.epoch ∧
      (s'.thread r).pc.list = (s.thread r).pc.list)
    (hrd : ∀ o r, s.phase o = .retired → s'.readers o r = true →
      s.readers o r = true ∧ G'.entered r = G.entered r)
    (hph : ∀ o, s.phase o = .retired → s'.phase o = .retired) : NodeInv s' G' := by
  obtain ⟨hbucket, hpriv, hinBucket, hinPriv, hheld, hbucketReader, hprivReader, hheldEpoch, hheldReader, hretired⟩ := h
  obtain ⟨e1, e2, e3, e4⟩ := hG
  refine ⟨fun b => ?_, fun r => ?_, ?_, ?_, ?_, ?_, ?_, ?_, ?_, ?_⟩
  · rw [hh, hr, e3]; exact hbucket b
  · rw [hh, (hpc r).2.2, e4]; exact hpriv r
  all_goals simp only [e1, e2, e3, e4, hh, (hpc _).1, (hpc _).2.1]
  all_goals grind -linarith

/-- `NodeInv.frame` for a thread that only moves. -/
theorem NodeInv.goto (h : NodeInv s G) {pc : Pc} (hn : pc.node = (s.thread t).pc.node)
    (he : pc.epoch = (s.thread t).pc.epoch) (hl : pc.list = (s.thread t).pc.list) : NodeInv (s.goto t pc) G :=
  h.frame rfl rfl (Nat.le_refl _) ⟨rfl, rfl, rfl, rfl⟩
    (fun r => by rw [goto_pc]; split <;> simp_all) (fun _ _ _ h => ⟨h, rfl⟩) fun _ h => h

/-- `retire` fills in a node at a free address. -/
theorem NodeInv.alloc (h : NodeInv s G) {a o : Nat} {d : Bool} (ha : s.heap a = none)
    (hp : (s.thread t).pc = .idle) :
    NodeInv ({ s with
        heap := Function.update s.heap a (some ⟨o, d, none⟩)
        phase := Function.update s.phase o .retired }.goto t (.retire a))
      { G with place := Function.update G.place a (.held t) } := by
  obtain ⟨hbucket, hpriv, hinBucket, hinPriv, hheld, hbucketReader, hprivReader, hheldEpoch, hheldReader, hretired⟩ := h
  have hnx : ∀ b, s.heap b ≠ none → nx (Function.update s.heap a (some ⟨o, d, none⟩)) b = nx s.heap b := by
    intro b hb
    rw [nx, Function.update_of_ne fun e : b = a => hb (e ▸ ha), nx]
  refine ⟨fun b => ?_, fun r => ?_, ?_, ?_, ?_, ?_, ?_, ?_, ?_, ?_⟩
  · exact (hbucket b).congr fun x hx => hnx x (hinBucket b x hx).2.1
  · have hl : ((s.goto t (.retire a)).thread r).pc.list = (s.thread r).pc.list := by
      rw [goto_pc]; split <;> simp_all [Pc.list]
    exact hl ▸ (hpriv r).congr fun x hx => hnx x (hinPriv r x hx).2
  all_goals simp only [goto_heap, goto_globalEpoch, goto_readers, goto_phase]
  all_goals grind -linarith [Pc.node, Pc.epoch]

/-- `retire` reads the epoch: a thread that may hold the object is inside, and
entered at this epoch or an earlier one. -/
theorem NodeInv.load (h : NodeInv s G) (hE : EpochInv s G) {a : Nat} (hp : (s.thread t).pc = .retire a) :
    NodeInv (s.goto t (.retireHead a s.globalEpoch)) G := by
  have hin : ∀ o r, s.readers o r = true → G.entered r ≤ s.globalEpoch := fun o r hr => by
    obtain ⟨i, -, -, h, -⟩ := hE.inside r (hE.readers o r hr)
    exact h
  obtain ⟨hbucket, hpriv, hinBucket, hinPriv, hheld, hbucketReader, hprivReader, hheldEpoch, hheldReader, hretired⟩ := h
  refine ⟨hbucket, fun r => ?_, hinBucket, hinPriv, ?_, hbucketReader, hprivReader, ?_, ?_, hretired⟩
  · have hl : ((s.goto t (.retireHead a s.globalEpoch)).thread r).pc.list = (s.thread r).pc.list := by
      rw [goto_pc]; split <;> simp_all [Pc.list]
    exact hl ▸ hpriv r
  all_goals simp only [goto_heap, goto_globalEpoch, goto_readers]
  all_goals grind -linarith [Pc.node, Pc.epoch]

/-- The compare-exchange of `retire`: the node's link is written, and on
success the node is the new head of its bucket. -/
theorem NodeInv.link (h : NodeInv s G) {a g : Nat} {head : Option Nat} {n : Node}
    (hp : (s.thread t).pc = .retireCas a g head) (ha : s.heap a = some n) :
    NodeInv { s with heap := Function.update s.heap a (some { n with next := head }) } G := by
  obtain ⟨hbucket, hpriv, hinBucket, hinPriv, hheld, hbucketReader, hprivReader, hheldEpoch, hheldReader, hretired⟩ := h
  have hpl := hheld t a (by rw [hp]; rfl)
  have hnx : ∀ b, G.place b ≠ .held t →
      nx (Function.update s.heap a (some { n with next := head })) b = nx s.heap b := by
    intro b hb
    rw [nx, Function.update_of_ne fun e : b = a => hb (e ▸ hpl.1), nx]
  refine ⟨fun b => ?_, fun r => ?_, ?_, ?_, ?_, ?_, ?_, ?_, ?_, ?_⟩
  · exact (hbucket b).congr fun x hx => hnx x (by simp [(hinBucket b x hx).1])
  · exact (hpriv r).congr fun x hx => hnx x (by simp [(hinPriv r x hx).1])
  all_goals grind -linarith

theorem NodeInv.push (h : NodeInv s G) {a g : Nat} {n : Node} (hp : (s.thread t).pc = .retireCas a g (s.retire (g % 3)))
    (ha : s.heap a = some n) (hn : n.next = s.retire (g % 3)) :
    NodeInv ({ s with retire := Function.update s.retire (g % 3) (some a) }.goto t .idle)
      { G with
        place := Function.update G.place a (.bucket (g % 3))
        stamp := Function.update G.stamp a g
        bucket := Function.update G.bucket (g % 3) (a :: G.bucket (g % 3)) } := by
  obtain ⟨hbucket, hpriv, hinBucket, hinPriv, hheld, hbucketReader, hprivReader, hheldEpoch, hheldReader, hretired⟩ := h
  have hpl := (hheld t a (by rw [hp]; rfl)).1
  have hge := hheldEpoch t g (by rw [hp]; rfl)
  have hrd := fun r => hheldReader t a g n r (by rw [hp]; rfl) (by rw [hp]; rfl) ha
  refine ⟨fun b => ?_, fun r => ?_, ?_, ?_, ?_, ?_, ?_, ?_, ?_, ?_⟩
  · by_cases e : b = g % 3
    · subst e
      simp only [goto_retire, Function.update_self, IsChain.cons_iff, true_and]
      have : nx s.heap a = s.retire (g % 3) := by simp [nx, ha, hn]
      exact this ▸ hbucket (g % 3)
    · simpa [Function.update_of_ne e] using hbucket b
  · have hl : ((s.goto t .idle).thread r).pc.list = (s.thread r).pc.list := by
      rw [goto_pc]; split <;> simp_all [Pc.list]
    exact hl ▸ hpriv r
  all_goals simp only [goto_heap, goto_globalEpoch, goto_readers, goto_phase]
  all_goals grind -linarith [Pc.node, Pc.epoch]

/-- The exchange of a bucket at the epoch the winner installed: a thread that
may hold an object of the bucket entered at `g` or later and the object was
retired at `g` or `g + 1`, in another bucket. -/
theorem NodeInv.exchange (h : NodeInv s G) (hE : EpochInv s G) {g : Nat} (hp : (s.thread t).pc = .advExchange g)
    (hg : s.globalEpoch = g + 1) :
    NodeInv ({ s with retire := Function.update s.retire ((g + 2) % 2 ^ 64 % 3) none }.goto t
        (.advFree (s.retire ((g + 2) % 2 ^ 64 % 3))))
      { G with
        place := fun a => if a ∈ G.bucket ((g + 2) % 2 ^ 64 % 3) then .priv t else G.place a
        bucket := Function.update G.bucket ((g + 2) % 2 ^ 64 % 3) []
        priv := Function.update G.priv t (G.bucket ((g + 2) % 2 ^ 64 % 3)) } := by
  have hb := hE.bound
  rw [hg] at hb
  have hm : (g + 2) % 2 ^ 64 = g + 2 := Nat.mod_eq_of_lt (by unfold QUIESCENT at hb; omega)
  rw [hm]
  have hsafe : ∀ a n r, a ∈ G.bucket ((g + 2) % 3) → s.heap a = some n → s.readers n.obj r = false := by
    intro a n r ha hn
    by_contra hc
    rw [Bool.not_eq_false] at hc
    obtain ⟨i, -, -, -, h₁⟩ := hE.inside r (hE.readers _ r hc)
    have h₂ := h.bucketReader _ a n r ha hn hc
    obtain ⟨-, -, h₃, h₄⟩ := h.inBucket _ a ha
    omega
  obtain ⟨hbucket, hpriv, hinBucket, hinPriv, hheld, hbucketReader, hprivReader, hheldEpoch, hheldReader, hretired⟩ := h
  refine ⟨fun b => ?_, fun r => ?_, ?_, ?_, ?_, ?_, ?_, ?_, ?_, ?_⟩
  · by_cases e : b = (g + 2) % 3
    · subst e; simp
    · simpa [Function.update_of_ne e] using hbucket b
  · rw [goto_pc]
    by_cases e : r = t
    · subst e; simpa [Pc.list] using hbucket ((g + 2) % 3)
    · simpa [Function.update_of_ne e, e] using hpriv r
  all_goals simp only [goto_heap, goto_globalEpoch, goto_readers, goto_phase]
  all_goals grind -linarith [Pc.node, Pc.epoch]

/-- The head of an advancer's list is freed. -/
theorem NodeInv.free (h : NodeInv s G) {a : Nat} {n : Node} (hp : (s.thread t).pc = .advFree (some a))
    (ha : s.heap a = some n) :
    NodeInv ({ s with heap := Function.update s.heap a none }.goto t (.advFree n.next))
      { G with priv := Function.update G.priv t (G.priv t).tail } := by
  obtain ⟨hbucket, hpriv, hinBucket, hinPriv, hheld, hbucketReader, hprivReader, hheldEpoch, hheldReader, hretired⟩ := h
  have hpc := hpriv t
  simp only [hp, Pc.list] at hpc
  obtain ⟨l, hl, hc⟩ := IsChain.some_iff.mp hpc
  have hal : a ∉ l := by
    have := hpc.nodup
    rw [hl] at this
    exact (List.nodup_cons.mp this).1
  have hpl : G.place a = .priv t := (hinPriv t a (by rw [hl]; exact List.mem_cons_self)).1
  have hnx : ∀ b, b ≠ a → nx (Function.update s.heap a none) b = nx s.heap b := by
    intro b hb
    rw [nx, Function.update_of_ne hb, nx]
  have hna : nx s.heap a = n.next := by simp [nx, ha]
  refine ⟨fun b => ?_, fun r => ?_, ?_, ?_, ?_, ?_, ?_, ?_, ?_, ?_⟩
  · exact (hbucket b).congr fun x hx => hnx x fun e => by
      have := (hinBucket b x hx).1
      rw [e, hpl] at this; cases this
  · rw [goto_pc]
    by_cases e : r = t
    · subst e
      simp only [↓reduceIte, Pc.list, Function.update_self, hl, List.tail_cons]
      exact (hna ▸ hc).congr fun x hx => hnx x fun e => hal (e ▸ hx)
    · simp only [if_neg e, Function.update_of_ne e]
      exact (hpriv r).congr fun x hx => hnx x fun e' => by
        have := (hinPriv r x hx).1
        rw [e', hpl, Place.priv.injEq] at this; exact e this.symm
  all_goals simp only [goto_heap, goto_globalEpoch, goto_readers, goto_phase, hl, List.tail_cons]
  all_goals grind -linarith [Pc.node, Pc.epoch]

/-! ## Runs -/

/-- The invariant of every run whose winners exchange their bucket promptly. -/
def Inv (s : State) : Prop := ∃ G, EpochInv s G ∧ NodeInv s G

/-- `EpochInv` says nothing of the nodes. -/
theorem EpochInv.congr (h : EpochInv s G) {s' : State} {G' : Ghost} (he : s'.globalEpoch = s.globalEpoch)
    (hl : s'.localEpoch = s.localEpoch) (ha : s'.active = s.active) (ht : s'.thread = s.thread)
    (hr : ∀ o r, s'.readers o r = true → (s.thread r).inside = true)
    (ho : G'.owner = G.owner) (hn : G'.entered = G.entered) : EpochInv s' G' where
  bound := he ▸ h.bound
  slot := by rw [ht, ho]; exact h.slot
  active := by rw [ho, ha]; exact h.active
  inside := by rw [ht, hl, hn, he]; exact h.inside
  pc r := by
    rw [ht]
    exact (h.pc r).congr he ho hn (fun _ => by rw [ht]) fun _ => by rw [ht]
  readers := by rw [ht]; exact hr

theorem inv_initial : Inv State.initial := by
  refine ⟨⟨fun _ => none, fun _ => 0, fun _ => .held 0, fun _ => 0, fun _ => [], fun _ => []⟩, ⟨?_, ?_, ?_, ?_, ?_, ?_⟩,
    ⟨?_, ?_, ?_, ?_, ?_, ?_, ?_, ?_, ?_, ?_⟩⟩ <;> simp [State.initial, QUIESCENT, PcOk, Pc.list, Pc.node, Pc.epoch]

/-- A step that only moves a thread that holds no node and no list. -/
theorem Inv.move (hE : EpochInv s G) (hN : NodeInv s G) {p : Pc} (hp : PcOk s G t p)
    (hpc : (s.thread t).pc.node = none ∧ (s.thread t).pc.epoch = none ∧ (s.thread t).pc.list = none)
    (hn : p.node = none ∧ p.epoch = none ∧ p.list = none) : Inv (s.goto t p) :=
  ⟨G, hE.goto hp, hN.goto (hn.1.trans hpc.1.symm) (hn.2.1.trans hpc.2.1.symm) (hn.2.2.trans hpc.2.2.symm)⟩

theorem scanNext_frame (g i : Nat) :
    (scanNext g i).node = none ∧ (scanNext g i).epoch = none ∧ (scanNext g i).list = none := by
  unfold scanNext; split <;> exact ⟨rfl, rfl, rfl⟩

theorem inv_next {s' : State} {b : Bool} (hI : Inv s) (hc : prompt s (.next t b) = true)
    (h : next s t b = some s') : Inv s' := by
  obtain ⟨G, hE, hN⟩ := hI
  have hok := hE.pc t
  simp only [prompt] at hc
  cases hp : (s.thread t).pc with
  | idle => simp [next, hp] at h
  | register i =>
    rw [hp] at hok
    simp only [next, hp] at h
    split_ifs at h with hi ha <;> obtain rfl := Option.some.inj h
    · exact Inv.move hE hN hok (by simp [hp, Pc.node, Pc.epoch, Pc.list]) ⟨rfl, rfl, rfl⟩
    · exact ⟨_, hE.take hi (by simpa using ha) hok, hN.frame rfl rfl (Nat.le_refl _) ⟨rfl, rfl, rfl, rfl⟩
        (fun r => by rw [goto_pc]; split <;> simp_all [Pc.node, Pc.epoch, Pc.list]) (fun _ _ _ h => ⟨h, rfl⟩)
        fun _ h => h⟩
    · exact Inv.move hE hN trivial (by simp [hp, Pc.node, Pc.epoch, Pc.list]) ⟨rfl, rfl, rfl⟩
  | registerLocal i =>
    rw [hp] at hok
    simp only [next, hp, Option.some.injEq] at h
    subst h
    exact ⟨G, hE.setOutside hok.2.2 rfl hok.2.1 (fun j hj => by cases hj; exact ⟨hok.1, hok.2.1⟩) (.inl rfl),
      hN.frame rfl rfl (Nat.le_refl _) ⟨rfl, rfl, rfl, rfl⟩ (fun r => by grind -linarith [Pc.node, Pc.epoch, Pc.list])
        (fun _ _ _ h => ⟨h, rfl⟩) fun _ h => h⟩
  | unregister =>
    rw [hp] at hok
    simp only [next, hp] at h
    split at h <;> [cases h; obtain rfl := Option.some.inj h]
    rename_i i hi
    exact ⟨_, hE.release hi hok, hN.frame rfl rfl (Nat.le_refl _) ⟨rfl, rfl, rfl, rfl⟩
      (fun r => by grind -linarith [Pc.node, Pc.epoch, Pc.list]) (fun _ _ _ h => ⟨h, rfl⟩) fun _ h => h⟩
  | enter g =>
    rw [hp] at hok
    simp only [next, hp] at h
    split at h <;> [cases h; obtain rfl := Option.some.inj h]
    rename_i i hi
    refine ⟨_, hE.announce hi hp, hN.frame rfl rfl (Nat.le_refl _) ⟨rfl, rfl, rfl, rfl⟩
      (fun r => by grind -linarith [Pc.node, Pc.epoch, Pc.list]) (fun o r _ hr => ⟨hr, ?_⟩) fun _ h => h⟩
    exact Function.update_of_ne (fun e => by have := hE.readers o r hr; rw [e, hok.2] at this; cases this) _ _
  | retire n =>
    simp only [next, hp, Option.some.injEq] at h
    subst h
    exact ⟨G, hE.goto trivial, hN.load hE hp⟩
  | retireHead n g =>
    simp only [next, hp, Option.some.injEq] at h
    subst h
    exact ⟨G, hE.goto trivial, hN.goto (by rw [hp]; rfl) (by rw [hp]; rfl) (by rw [hp]; rfl)⟩
  | retireCas n g head =>
    simp only [next, hp] at h
    split at h <;> [cases h; skip]
    rename_i node hn
    have hN' := hN.link hp hn
    have hE' : EpochInv { s with heap := Function.update s.heap n (some { node with next := head }) } G :=
      hE.congr rfl rfl rfl rfl hE.readers rfl rfl
    split_ifs at h with hcas <;> obtain rfl := Option.some.inj h
    · obtain ⟨rfl, -⟩ := hcas
      refine ⟨_, ?_, hN'.push hp (Function.update_self _ _ _) rfl⟩
      exact (hE'.goto (p := .idle) trivial).congr rfl rfl rfl rfl (by simpa using hE.readers) rfl rfl
    · exact ⟨G, hE'.goto trivial, hN'.goto (by rw [hp]; rfl) (by rw [hp]; rfl) (by rw [hp]; rfl)⟩
  | advActive g i =>
    rw [hp] at hok
    have hfr : (s.thread t).pc.node = none ∧ (s.thread t).pc.epoch = none ∧ (s.thread t).pc.list = none := by
      rw [hp]; exact ⟨rfl, rfl, rfl⟩
    simp only [next, hp] at h
    split_ifs at h with ha <;> obtain rfl := Option.some.inj h
    · exact Inv.move hE hN (p := .advLocal g i) hok hfr ⟨rfl, rfl, rfl⟩
    · refine Inv.move hE hN (PcOk.scanNext hok.1 hok.2.1 fun r j hr hj hji => ?_) hfr (scanNext_frame g i)
      -- a slot in use is active
      have hne : j ≠ i := fun e => ha (e ▸ hE.active j r (hE.slot r j hj).2)
      exact hok.2.2 r j hr hj (by omega)
  | advLocal g i =>
    rw [hp] at hok
    have hfr : (s.thread t).pc.node = none ∧ (s.thread t).pc.epoch = none ∧ (s.thread t).pc.list = none := by
      rw [hp]; exact ⟨rfl, rfl, rfl⟩
    simp only [next, hp] at h
    split_ifs at h with ha <;> obtain rfl := Option.some.inj h
    · exact Inv.move hE hN trivial hfr ⟨rfl, rfl, rfl⟩
    · refine Inv.move hE hN (PcOk.scanNext hok.1 hok.2.1 fun r j hr hj hji => ?_) hfr (scanNext_frame g i)
      by_cases e : j = i
      · -- the slot just checked: its thread announced `g` or a later epoch
        subst e
        obtain ⟨k, hk, h₁, h₂, -⟩ := hE.inside r hr
        obtain rfl := Option.some.inj (hk.symm.trans hj)
        have := hE.bound
        omega
      · exact hok.2.2 r j hr hj (by omega)
  | advCas g =>
    rw [hp] at hok hc
    simp only [next, hp] at h
    split_ifs at h with hg <;> obtain rfl := Option.some.inj h
    · have hb : g + 1 < QUIESCENT := by simpa using hc
      have hm : (g + 1) % 2 ^ 64 = g + 1 := Nat.mod_eq_of_lt (by unfold QUIESCENT at hb; omega)
      exact ⟨G, hE.advance hg hp hb, hN.frame rfl rfl (by rw [goto_globalEpoch, hm, hg]; exact Nat.le_succ g)
        ⟨rfl, rfl, rfl, rfl⟩ (fun r => by rw [goto_pc]; split <;> simp_all [Pc.node, Pc.epoch, Pc.list])
        (fun _ _ _ h => ⟨h, rfl⟩) fun _ h => h⟩
    · exact Inv.move hE hN trivial (by rw [hp]; exact ⟨rfl, rfl, rfl⟩) ⟨rfl, rfl, rfl⟩
  | advExchange g =>
    rw [hp] at hc
    simp only [next, hp, Option.some.injEq] at h
    subst h
    have hg : s.globalEpoch = g + 1 := by simpa using hc
    refine ⟨_, ?_, hN.exchange hE hp hg⟩
    exact (hE.goto (p := .advFree _) trivial).congr rfl rfl rfl rfl (by simpa using hE.readers) rfl rfl
  | advFree l =>
    cases l with
    | none =>
      simp only [next, hp, Option.some.injEq] at h
      subst h
      exact Inv.move hE hN trivial (by rw [hp]; exact ⟨rfl, rfl, rfl⟩) ⟨rfl, rfl, rfl⟩
    | some n =>
      simp only [next, hp] at h
      split at h <;> [cases h; obtain rfl := Option.some.inj h]
      rename_i node hn
      refine ⟨_, ?_, hN.free hp hn⟩
      exact (hE.goto (p := .advFree _) trivial).congr rfl rfl rfl rfl (by simpa using hE.readers) rfl rfl

theorem inv_step {s' : State} {a : Act} (hI : Inv s) (hc : prompt s a = true) (h : step s a = some s') : Inv s' := by
  cases a with
  | next t b => exact inv_next hI hc h
  | register t =>
    obtain ⟨G, hE, hN⟩ := hI
    simp only [step] at h
    split_ifs at h with hp
    obtain rfl := Option.some.inj h
    refine Inv.move hE hN (p := .register 0) ?_ (by rw [hp.1]; exact ⟨rfl, rfl, rfl⟩) ⟨rfl, rfl, rfl⟩
    show (s.thread t).inside = false
    by_contra hin
    obtain ⟨i, hi, -⟩ := hE.inside t (by simpa using hin)
    rw [hp.2] at hi; cases hi
  | unregister t =>
    obtain ⟨G, hE, hN⟩ := hI
    simp only [step] at h
    split at h <;> [cases h; skip]
    rename_i i hi
    split_ifs at h with hp
    obtain rfl := Option.some.inj h
    exact ⟨G, hE.setOutside hp.2 hp.2 (hE.slot t i hi).2 (fun j hj => hE.slot t j hj) (.inr rfl),
      hN.frame rfl rfl (Nat.le_refl _) ⟨rfl, rfl, rfl, rfl⟩
        (fun r => by rw [goto_pc]; split <;> simp_all [Pc.node, Pc.epoch, Pc.list]) (fun _ _ _ h => ⟨h, rfl⟩)
        fun _ h => h⟩
  | enter t =>
    obtain ⟨G, hE, hN⟩ := hI
    simp only [step] at h
    split_ifs at h with hp
    obtain rfl := Option.some.inj h
    exact Inv.move hE hN ⟨Nat.le_refl _, hp.2.1⟩ (by rw [hp.1]; exact ⟨rfl, rfl, rfl⟩) ⟨rfl, rfl, rfl⟩
  | exit t =>
    obtain ⟨G, hE, hN⟩ := hI
    simp only [step] at h
    split at h <;> [cases h; skip]
    rename_i i hi
    split_ifs at h with hp
    obtain rfl := Option.some.inj h
    exact ⟨G, hE.leave hi, hN.frame rfl rfl (Nat.le_refl _) ⟨rfl, rfl, rfl, rfl⟩
      (fun r => by grind -linarith [Pc.node, Pc.epoch, Pc.list]) (fun o r _ hr => ⟨by grind -linarith, rfl⟩)
        fun _ h => h⟩
  | unlink o =>
    obtain ⟨G, hE, hN⟩ := hI
    simp only [step] at h
    split_ifs at h with hp
    obtain rfl := Option.some.inj h
    exact ⟨G, hE.congr rfl rfl rfl rfl (fun o' r hr => by have := hE.readers; grind -linarith) rfl rfl,
      hN.frame rfl rfl (Nat.le_refl _) ⟨rfl, rfl, rfl, rfl⟩ (fun _ => ⟨rfl, rfl, rfl⟩)
        (fun o' r ho hr => ⟨by grind -linarith, rfl⟩) fun o' ho => by grind -linarith⟩
  | retire t o d n =>
    simp only [step] at h
    split_ifs at h with hp
    split at h
    · exact Option.some.inj h ▸ hI
    · obtain ⟨G, hE, hN⟩ := hI
      split_ifs at h with hn
      obtain rfl := Option.some.inj h
      refine ⟨_, ?_, hN.alloc hn hp.1⟩
      exact (hE.goto (p := .retire _) trivial).congr rfl rfl rfl rfl (by simpa using hE.readers) rfl rfl
  | tryAdvance t =>
    obtain ⟨G, hE, hN⟩ := hI
    simp only [step] at h
    split_ifs at h with hp
    obtain rfl := Option.some.inj h
    exact Inv.move hE hN ⟨Nat.le_refl _, by decide, fun r j _ _ hj => absurd hj (Nat.not_lt_zero j)⟩
      (by rw [hp]; exact ⟨rfl, rfl, rfl⟩) ⟨rfl, rfl, rfl⟩

/-- What an advancer is about to destroy is on its private list, whose objects
no thread holds. -/
theorem Inv.neverFreesReachable (hI : Inv s) : NeverFreesReachable s := by
  obtain ⟨G, -, hN⟩ := hI
  rintro t o r ⟨n, node, hp, hn, -, rfl⟩
  have hc := hN.priv t
  rw [hp] at hc
  obtain ⟨l, hl, -⟩ := IsChain.some_iff.mp hc
  exact hN.privReader t n node r (hl ▸ List.mem_cons_self) hn

/-- In every run whose epoch winners exchange their bucket before the epoch
moves on, and whose epoch stays below `QUIESCENT`, no destructor is run on an
object that a thread inside an epoch may have reached. -/
theorem ebr_never_frees_reachable {s : State} (h : machine.ReachBy (fun s a => prompt s a = true) s) :
    NeverFreesReachable s := by
  have hI : Inv s := h.invariant (fun s hs => by rw [show s = State.initial from hs]; exact inv_initial)
    fun _ _ _ _ hI hc hs => inv_step hI hc hs
  exact hI.neverFreesReachable

/-! ## A delayed winner -/

/-- The next `k` steps of `t`. -/
def steps (t k : Nat) : List Act := List.replicate k (.next t false)

/-- Thread 2 registers. Thread 0 advances the epoch from 0 to 1 and is
delayed before its exchange of bucket 2; thread 1 advances it to 2. Thread 2
enters; object 7 is unlinked and retired by thread 1, in bucket 2. Then
thread 0 exchanges that bucket. -/
def delayedWinner : List Act :=
  .register 2 :: steps 2 2 ++ .tryAdvance 0 :: steps 0 66 ++ .tryAdvance 1 :: steps 1 68 ++
    .enter 2 :: steps 2 1 ++ .unlink 7 :: .retire 1 7 true (some 100) :: steps 1 3 ++ steps 0 1

/-- Thread 0 is about to destroy object 7, which thread 2 may hold. -/
def freesReachable (s : State) : Bool :=
  (s.thread 0).pc == .advFree (some 100) && s.heap 100 == some ⟨7, true, none⟩ && s.readers 7 2

/-- The delayed winner destroys an object while a thread that entered before
it was unlinked is inside. -/
theorem ebr_frees_reachable : ¬ ∀ s, machine.Reach s → NeverFreesReachable s := by
  intro hall
  obtain ⟨s, hs, hp⟩ := Machine.exists_reach_of_run (M := machine) (s := State.initial) (l := delayedWinner)
    (p := freesReachable) rfl (by decide +kernel)
  simp only [freesReachable, Bool.and_eq_true, beq_iff_eq] at hp
  have := hall s hs 0 7 2 ⟨100, _, hp.1.1, hp.1.2, rfl, rfl⟩
  rw [hp.2] at this; cases this

/-- One thread enters, a second retires an object and advances the epoch, and
waits for the first to leave before it frees the object, promptly. -/
def promptRun : List Act :=
  .register 2 :: steps 2 2 ++ .enter 2 :: steps 2 1 ++ .unlink 7 :: .retire 1 7 true (some 100) :: steps 1 3 ++
    .tryAdvance 1 :: steps 1 68 ++ .exit 2 :: .tryAdvance 1 :: steps 1 67

theorem ebr_never_frees_reachable_prompt :
    ∃ s, machine.ReachBy (fun s a => prompt s a = true) s ∧ Destroys s 1 7 ∧ NeverFreesReachable s := by
  obtain ⟨s, hs, hp⟩ := Machine.exists_reachBy_of_run (M := machine) (C := fun s a => prompt s a = true)
    (c := prompt) (fun _ _ h => h) (s := State.initial) (l := promptRun)
    (p := fun s => (s.thread 1).pc == .advFree (some 100) && s.heap 100 == some ⟨7, true, none⟩) rfl (by decide +kernel)
  simp only [Bool.and_eq_true, beq_iff_eq] at hp
  exact ⟨s, hs, ⟨100, _, hp.1, hp.2, rfl, rfl⟩, ebr_never_frees_reachable hs⟩

end Dlsmc.Ebr
