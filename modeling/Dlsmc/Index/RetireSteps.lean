import Dlsmc.Index.Flags
import Dlsmc.Index.RetireOwners

/-!
# What threads have of the nodes

A thread has in hand the end of a chain that is in the map, or that was not retired
before the thread entered its epoch (`Tidy`). A step of a search, or of the
installation and the consolidation of a leaf, is a case of `Walks`; one of
`split_leaf` is a case of `Divides`.
-/

namespace Dlsmc.Index.Concurrent

open BLink

variable {s s' : State} {M M' : Memory} {H H' : Heap} {hand hand' : Hand} {pc pc' : Pc} {q : SmoPc} {k : Key}
  {nd : Pid → Node Key Pid} {row row' : Nat → List Pid} {top top' ℓ : Nat} {pend : Option (Pending Key Pid)}
  {m : Key → Option DeltaPointer} {t u a n since : Nat} {p pid rp : Pid} {c : Chain} {h l : Link} {b : Base}

/-! ## What threads have in hand -/

/-- What the owner of `smo_busy` relies on: the chain that it is to replace without
a comparison is the one it has loaded, and the leaf that it may have to free is
the one it has made. -/
def SmoPc.Stores (M : Memory) (hand : Hand) : SmoPc → Prop
  | sepStore _ parent _ _ _ _ => ∃ a, hand.chain = some (parent, a) ∧ M.address parent = some a
  | innerPid pid _ _ _ | innerStore pid _ _ _ _ => ∃ a, hand.chain = some (pid, a) ∧ M.address pid = some a
  | splitCas _ _ _ _ _ rp | splitUndo _ _ _ rp => M.address rp = some hand.right
  | _ => True

/-- The node is in the tree. -/
def Linked (row : Nat → List Pid) (top : Nat) (p : Pid) : Prop := ∃ ℓ ≤ top, p ∈ row ℓ

/-- The invariant, beside that of the operations. -/
structure Tidy (x : Tracked) (row : Nat → List Pid) (top : Nat) : Prop where
  stocked : Stocked x.op.mem x.heap
  reclaimed : ∀ i, x.heap.reclaimed i = true → i < x.heap.retired.length
  since : ∀ t, (x.hand t).since ≤ x.heap.retired.length
  late : ∀ t, (x.op.pc t).Inside → ∀ i, x.heap.reclaimed i = true → i < (x.hand t).since
  chain : ∀ t p a, (x.hand t).chain = some (p, a) →
    Linked row top p ∧ Kept x.heap.nodes (x.heap.root x.op.mem) (Safe (x.hand t).since p) a
  empty : ∀ t, ¬(x.op.pc t).Inside → (x.hand t).chain = none
  held : ∀ t p h, (x.op.pc t).held = some (p, h) → (x.hand t).chain = some (p, h.addr)
  stores : ∀ t w q, x.op.pc t = .smo w q → q.Stores x.op.mem (x.hand t)

/-- What the thread has after its step, when it is at `pc`; `n` chains have been
retired. -/
structure Grip (M : Memory) (n : Nat) (row : Nat → List Pid) (top : Nat) (inside : Prop) (hand hand' : Hand) (pc : Pc) :
    Prop where
  chain : ∀ p a, hand'.chain = some (p, a) →
    hand'.since = hand.since ∧ (hand.chain = some (p, a) ∨ M.address p = some a ∧ Linked row top p)
  since : hand'.since = hand.since ∧ (pc.Inside → inside) ∨ hand'.since = n
  empty : ¬pc.Inside → hand'.chain = none
  held : ∀ p h, pc.held = some (p, h) → hand'.chain = some (p, h.addr)
  stores : ∀ w q, pc = .smo w q → q.Stores M hand'

theorem Linked.grows (hp : Linked row top p) (hg : Grows nd nd' row row' top top') : Linked row' top' p := by
  obtain ⟨ℓ, hℓ, hp⟩ := hp
  exact ⟨ℓ, hℓ.trans hg.top_le, hg.mem ℓ hℓ p hp⟩

/-- What the other threads do to the leaves leaves the owner of `smo_busy` what it
relies on. -/
theorem SmoPc.Stores.frame (hq : q.Stores M hand) (htree : Tree M nd row top pend m)
    (hphase : q.Phase M nd row top pend k) (hM : ∀ x, x ∉ row 0 → M'.head x = M.head x) : q.Stores M' hand := by
  have haddr : ∀ {x a}, x ∉ row 0 → M.address x = some a → M'.address x = some a := fun hx ha => by
    rw [Memory.address, hM _ hx]
    exact ha
  cases q with
  | sepStore child parent path sep right P =>
    obtain ⟨⟨ℓ, -, hpath⟩, -⟩ := hphase
    obtain ⟨a, hchain, ha⟩ := hq
    exact ⟨a, hchain, haddr (htree.notMem_leaves hpath.uncons.2) ha⟩
  | innerPid pid path N promoted =>
    obtain ⟨-, ⟨⟨ℓ, hpath⟩, -⟩, -⟩ := hphase
    obtain ⟨a, hchain, ha⟩ := hq
    exact ⟨a, hchain, haddr (htree.notMem_leaves hpath) ha⟩
  | innerStore pid path N promoted nrp =>
    obtain ⟨-, ⟨⟨ℓ, hpath⟩, -⟩, -⟩ := hphase
    obtain ⟨a, hchain, ha⟩ := hq
    exact ⟨a, hchain, haddr (htree.notMem_leaves hpath) ha⟩
  | splitCas pid path n h sep rp =>
    obtain ⟨-, -, -, hs, -⟩ := hphase
    exact haddr (hs.notMem 0 (Nat.zero_le _)) hq
  | splitUndo pid path n rp =>
    obtain ⟨-, -, hs⟩ := hphase
    exact haddr (hs.notMem 0 (Nat.zero_le _)) hq
  | _ => trivial

/-- What holds of every thread after a step of thread `t`, to `pc` and with `hand`. -/
theorem Tracked.forall_moved (x : Tracked) {P : Nat → Pc → Hand → Prop} (pc : Pc) (hand : Hand) (ht : P t pc hand)
    (hothers : ∀ u, u ≠ t → P u (x.op.pc u) (x.hand u)) (u : Nat) :
    P u (Function.update x.op.pc t pc u) (Function.update x.hand t hand u) := by
  by_cases hu : u = t
  · subst hu
    rw [Function.update_self, Function.update_self]
    exact ht
  · rw [Function.update_of_ne hu, Function.update_of_ne hu]
    exact hothers u hu

/-- A step of a thread keeps the invariant. -/
theorem Tidy.next {x : Tracked} {gone : Pid → Prop} {hist : List (Event Op Result)} {calls : Nat} (hx : Tidy x row top)
    (hg : Grows nd nd' row row' top top') (hturn : Turns x.op.mem x.heap M H gone)
    (hgone : ∀ p, gone p → ¬Linked row top p) (hrec : H.reclaimed = x.heap.reclaimed)
    (hlen : H.retired = x.heap.retired)
    (hothers : ∀ u, u ≠ t → ∀ w q, x.op.pc u = .smo w q → q.Stores M (x.hand u))
    (hgrip : Grip M H.retired.length row top (x.op.pc t).Inside (x.hand t) hand pc) :
    Tidy ⟨⟨M, Function.update x.op.pc t pc, hist, calls⟩, H, Function.update x.hand t hand⟩ row' top' := by
  have hkept : ∀ u p a, (x.hand u).chain = some (p, a) →
      Linked row' top' p ∧ Kept H.nodes (H.root M) (Safe (x.hand u).since p) a := fun u p a ha => by
    obtain ⟨hp, hk⟩ := hx.chain u p a ha
    exact ⟨hp.grows hg, hturn.kept _ p a (fun hgp => hgone p hgp hp) (hx.since u) hk⟩
  have hreclaimed : ∀ i, H.reclaimed i = true → i < H.retired.length := by
    rw [hrec, hlen]
    exact hx.reclaimed
  have hsince : hand.since ≤ H.retired.length := by
    rcases hgrip.since with ⟨hs, -⟩ | hs
    · exact hs.trans_le (hlen ▸ hx.since t)
    · exact hs.le
  have hlate : pc.Inside → ∀ i, H.reclaimed i = true → i < hand.since := by
    rw [hrec]
    intro hin i hi
    rcases hgrip.since with ⟨hs, hinside⟩ | hs
    · exact hs ▸ hx.late t (hinside hin) i hi
    · exact hs ▸ hlen ▸ hx.reclaimed i hi
  have hchain : ∀ p a, hand.chain = some (p, a) →
      Linked row' top' p ∧ Kept H.nodes (H.root M) (Safe hand.since p) a := fun p a ha => by
    obtain ⟨hs, hold | ⟨hp, hl⟩⟩ := hgrip.chain p a ha
    · exact hs ▸ hkept t p a hold
    · have hsafe : Safe hand.since p (.entry p) := rfl
      exact ⟨hl.grows hg, .of_root hsafe hp⟩
  constructor
  case stocked => exact hturn.stocked
  case reclaimed => exact hreclaimed
  case since =>
    exact x.forall_moved (P := fun _ _ hand => hand.since ≤ H.retired.length) pc hand hsince fun u _ =>
      hlen ▸ hx.since u
  case late =>
    exact x.forall_moved (P := fun _ pc hand => pc.Inside → ∀ i, H.reclaimed i = true → i < hand.since) pc hand hlate
      fun u _ => hrec ▸ hx.late u
  case chain =>
    exact x.forall_moved (P := fun _ _ hand => ∀ p a, hand.chain = some (p, a) →
      Linked row' top' p ∧ Kept H.nodes (H.root M) (Safe hand.since p) a) pc hand hchain fun u _ => hkept u
  case empty =>
    exact x.forall_moved (P := fun _ pc hand => ¬pc.Inside → hand.chain = none) pc hand hgrip.empty fun u _ =>
      hx.empty u
  case held =>
    exact x.forall_moved (P := fun _ pc hand => ∀ p h, pc.held = some (p, h) → hand.chain = some (p, h.addr)) pc hand
      hgrip.held fun u _ => hx.held u
  case stores =>
    exact x.forall_moved (P := fun _ pc hand => ∀ w q, pc = .smo w q → q.Stores M hand) pc hand hgrip.stores hothers

/-! ## The steps of the threads -/

/-- A place in a call at which no chain is compared. -/
def Pc.Light (pc : Pc) : Prop := pc.Inside ∧ pc.held = none ∧ pc.Outside

namespace Grip

variable {inside : Prop}

/-- The thread keeps what it has. -/
theorem keep (hin : inside) (hpc : pc.Inside) (hheld : ∀ p h, pc.held = some (p, h) → hand.chain = some (p, h.addr))
    (hstores : ∀ w q, pc = .smo w q → q.Stores M hand) : Grip M n row top inside hand hand pc where
  chain _ _ ha := ⟨rfl, .inl ha⟩
  since := .inl ⟨rfl, fun _ => hin⟩
  empty h := absurd hpc h
  held := hheld
  stores := hstores

theorem light (hin : inside) (hpc : pc.Light) : Grip M n row top inside hand hand pc :=
  keep hin hpc.1 (fun p h hp => by cases hpc.2.1.symm.trans hp) fun w q hq => absurd hq (hpc.2.2.ne w q)

/-- The thread loads a head. -/
theorem load (hl : M.head p = some l) (hp : Linked row top p) (hin : inside) (hpc : pc.Inside)
    (hheld : ∀ x h, pc.held = some (x, h) → x = p ∧ h = l)
    (hstores : ∀ w q, pc = .smo w q → q.Stores M { hand with chain := some (p, l.addr) }) :
    Grip M n row top inside hand (hand.load M p) pc := by
  have ha := Memory.address_of hl
  have hload : hand.load M p = { hand with chain := some (p, l.addr) } := by
    rw [Hand.load, ha]
    rfl
  rw [hload]
  refine ⟨fun x a hx => ?_, .inl ⟨rfl, fun _ => hin⟩, fun h => absurd hpc h, fun x h hx => ?_, hstores⟩
  · obtain ⟨rfl, rfl⟩ := Prod.mk.inj (Option.some.inj hx)
    exact ⟨rfl, .inr ⟨ha, hp⟩⟩
  · obtain ⟨rfl, rfl⟩ := hheld x h hx
    rfl

theorem load_light (hl : M.head p = some l) (hp : Linked row top p) (hin : inside) (hpc : pc.Light) :
    Grip M n row top inside hand (hand.load M p) pc :=
  load hl hp hin hpc.1 (fun x h hx => by cases hpc.2.1.symm.trans hx) fun w q hq => absurd hq (hpc.2.2.ne w q)

/-- The thread enters its epoch. -/
theorem enter (hpc : pc.Light) : Grip M n row top inside hand { hand with since := n, chain := none } pc where
  chain p a ha := by cases ha
  since := .inr rfl
  empty _ := rfl
  held p h hp := by cases hpc.2.1.symm.trans hp
  stores w q hq := absurd hq (hpc.2.2.ne w q)

end Grip

theorem Spot.linked (h : Spot nd row top k p) : Linked row top p := by
  obtain ⟨ℓ, hℓ, hp, -⟩ := h
  exact ⟨ℓ, hℓ, hp⟩

theorem LeafSpot.linked (h : LeafSpot nd row k p) : Linked row top p := ⟨0, Nat.zero_le _, h.1⟩

theorem Get.visit_light {g : Get} (hv : g.visit c = .ok pc) : pc.Light := by
  have hread : ∀ v : Option DeltaPointer, (Pc.ret g.number g.arg.get (readOf v)).Light := fun v => by
    cases v with
    | none => exact ⟨(by decide : Status.notfound ≠ .inval), rfl, trivial⟩
    | some v => exact ⟨(by decide : Status.ok ≠ .inval), rfl, trivial⟩
  unfold Get.visit at hv
  split at hv
  · cases hv
    exact hread _
  · split at hv
    · cases hv
      exact ⟨trivial, rfl, trivial⟩
    · split at hv
      · obtain ⟨x, -, hv⟩ := bind_eq_ok hv
        cases hv
        exact ⟨trivial, rfl, trivial⟩
      · cases hv
        exact hread _

theorem Write.visit_light {w : Write} (hv : w.visit p c = .ok pc) : pc.Light := by
  unfold Write.visit at hv
  split at hv
  · cases hv
    exact ⟨trivial, rfl, trivial⟩
  · split at hv
    · obtain ⟨x, -, hv⟩ := bind_eq_ok hv
      cases hv
      exact ⟨trivial, rfl, trivial⟩
    · cases hv
      exact ⟨trivial, rfl, trivial⟩

theorem Write.consolidated_light (w : Write) (p : Pid) (why : Purpose) : (w.consolidated p why).Light := by
  cases why with
  | drain => exact ⟨trivial, rfl, trivial⟩
  | collapse => exact ⟨trivial, rfl, trivial⟩

theorem Write.done_light (w : Write) : w.done.Light := ⟨(by decide : Status.ok ≠ .inval), rfl, trivial⟩

/-- What a step of a thread that is not inside a split does: it changes the chain
of a leaf at most. -/
structure Walks (x : Tracked) (t : Nat) (row : Nat → List Pid) (top : Nat) (M : Memory) (pc : Pc) : Prop where
  turns : Turns x.op.mem x.heap M ((x.op.pc t).heap x.heap x.op.mem t (x.hand t)) fun _ => False
  frame : ∀ y, y ∉ row 0 → M.head y = x.op.mem.head y
  grip : Grip M x.heap.retired.length row top (x.op.pc t).Inside (x.hand t)
    ((x.op.pc t).hand (x.hand t) x.op.mem x.heap) pc

variable {x : Tracked} {w : Write} {g : Get}

/-- A step that changes neither heads nor nodes. -/
theorem Tidy.stays (hx : Tidy x row top) {pc₀ : Pc} (hpc : x.op.pc t = pc₀)
    (hheap : pc₀.heap x.heap x.op.mem t (x.hand t) = x.heap) (hhead : M.head = x.op.mem.head)
    (hpub : M.published = x.op.mem.published) (hnext : M.nextPid = x.op.mem.nextPid)
    (hgrip : Grip M x.heap.retired.length row top pc₀.Inside (x.hand t) (pc₀.hand (x.hand t) x.op.mem x.heap) pc) :
    Walks x t row top M pc := by
  subst hpc
  exact ⟨hheap.symm ▸ hx.stocked.same hhead hpub hnext, fun y _ => by rw [hhead], hgrip⟩

/-- A step that loads the head of `p`. -/
theorem Tidy.loads (hx : Tidy x row top) {pc₀ : Pc} (hpc : x.op.pc t = pc₀)
    (hheap : pc₀.heap x.heap x.op.mem t (x.hand t) = x.heap)
    (hhand : pc₀.hand (x.hand t) x.op.mem x.heap = (x.hand t).load x.op.mem p) (hl : x.op.mem.loadHead p = .ok l)
    (hp : Linked row top p) (hin : pc₀.Inside) (hlight : pc.Light) : Walks x t row top x.op.mem pc :=
  hx.stays hpc hheap rfl rfl rfl (hhand ▸ .load_light (Memory.head_of_loadHead hl) hp hin hlight)

/-- A compare-exchange of the head of `p` that fails. -/
theorem Memory.address_ne_of_casHead (hcas : M.casHead p h c = none) : M.address p ≠ some h.addr := by
  intro ha
  obtain ⟨l, hl, he⟩ := Option.map_eq_some_iff.mp ha
  unfold casHead at hcas
  rw [hl] at hcas
  simp [he] at hcas

theorem Tidy.walks (h : Good x.op nd row top pend m) (hx : Tidy x row top) (hu : x.heap.unlinked t = none)
    (hw : (x.op.pc t).Working) (hout : (x.op.pc t).Outside) (hn : (x.op.pc t).next x.op.mem = .ok (M, pc)) :
    Walks x t row top M pc := by
  have hok : ∀ {y : Memory × Pc}, (Except.ok y : Except Fault _) = .ok (M, pc) → y = (M, pc) := fun he =>
    Except.ok.inj he
  have hspot := h.spot t
  have hheld := h.held t
  cases hpc : x.op.pc t with
  | idle => exact (hpc ▸ hw : Pc.idle.Working).elim
  | ret n o r => exact (hpc ▸ hw : (Pc.ret n o r).Working).elim
  | fault f => exact (hpc ▸ hw : (Pc.fault f).Working).elim
  | smo w q => exact (hpc ▸ hout : (Pc.smo w q).Outside).elim
  | getRoot g =>
    rw [hpc] at hn
    cases hok hn
    exact hx.stays hpc rfl rfl rfl rfl (.enter ⟨trivial, rfl, trivial⟩)
  | findRoot w =>
    rw [hpc] at hn
    cases hok hn
    exact hx.stays hpc rfl rfl rfl rfl (.enter ⟨trivial, rfl, trivial⟩)
  | getHead g pid =>
    rw [hpc] at hn hspot
    obtain ⟨l, hl, hn⟩ := bind_eq_ok hn
    obtain ⟨pc', hv, hn⟩ := bind_eq_ok hn
    cases hok hn
    exact hx.loads hpc rfl rfl hl (Spot.linked hspot) trivial (Get.visit_light hv)
  | findHead w pid =>
    rw [hpc] at hn hspot
    obtain ⟨l, hl, hn⟩ := bind_eq_ok hn
    obtain ⟨pc', hv, hn⟩ := bind_eq_ok hn
    cases hok hn
    exact hx.loads hpc rfl rfl hl (Spot.linked hspot) trivial (Write.visit_light hv)
  | installHead w pid =>
    rw [hpc] at hn hspot
    obtain ⟨l, hl, hn⟩ := bind_eq_ok hn
    split at hn
    · cases hok hn
      exact hx.loads hpc rfl rfl hl (LeafSpot.linked hspot) trivial ⟨trivial, rfl, trivial⟩
    · split at hn
      · cases hok hn
        exact hx.loads hpc rfl rfl hl (LeafSpot.linked hspot) trivial ⟨trivial, rfl, trivial⟩
      · cases hok hn
        refine hx.stays hpc rfl rfl rfl rfl (.load (Memory.head_of_loadHead hl) (LeafSpot.linked hspot) trivial
          trivial ?_ ?_)
        · rintro _ _ ⟨⟩
          exact ⟨rfl, rfl⟩
        · rintro _ _ ⟨⟩
  | installCas w pid hd =>
    rw [hpc] at hn hspot
    have hk : x.op.mem.Knows pid hd := hheld pid hd (by rw [hpc]; rfl)
    have hhand := hx.held t pid hd (by rw [hpc]; rfl)
    rcases Memory.casHead_cases (c := hd.chain.appended w.op w.arg.key w.v) hk with hcas | ⟨hhead, hcas⟩
    · simp only [Pc.next, hcas] at hn
      cases hok hn
      exact hx.stays hpc (if_neg (Memory.address_ne_of_casHead hcas)) rfl rfl rfl
        (.light trivial ⟨trivial, rfl, trivial⟩)
    · simp only [Pc.next, hcas] at hn
      cases hok hn
      have hheap : (x.op.pc t).heap x.heap x.op.mem t (x.hand t) =
          { x.heap with nodes := x.heap.nodes.push (some hd.addr) } := by
        rw [hpc]
        exact if_pos (Memory.address_of hhead)
      refine ⟨hheap.symm ▸ hx.stocked.append hhead rfl, fun y hy => ?_, ?_⟩
      · exact Memory.publish_of_ne fun e => hy (e ▸ hspot.1.1)
      · rw [hpc]
        refine .light trivial ?_
        split
        · exact ⟨trivial, rfl, trivial⟩
        · exact ⟨trivial, rfl, trivial⟩
  | checkHead w pid =>
    rw [hpc] at hn hspot
    obtain ⟨l, hl, hn⟩ := bind_eq_ok hn
    cases hok hn
    refine hx.loads hpc rfl rfl hl (LeafSpot.linked hspot) trivial ?_
    split
    · exact ⟨trivial, rfl, trivial⟩
    · exact w.done_light
  | consFlag w pid why =>
    rw [hpc] at hn
    simp only [Pc.next] at hn
    split at hn
    · cases hok hn
      exact hx.stays hpc rfl rfl rfl rfl (.light trivial (w.consolidated_light pid why))
    · cases hok hn
      exact hx.stays hpc rfl rfl rfl rfl (.light trivial ⟨trivial, rfl, trivial⟩)
  | consHead w pid why n =>
    rw [hpc] at hn hspot
    obtain ⟨l, hl, hn⟩ := bind_eq_ok hn
    split at hn
    · cases hok hn
      exact hx.loads hpc rfl rfl hl (LeafSpot.linked hspot) trivial ⟨trivial, rfl, trivial⟩
    · split at hn
      · cases hok hn
        refine hx.stays hpc rfl rfl rfl rfl (.load (Memory.head_of_loadHead hl) (LeafSpot.linked hspot) trivial
          trivial ?_ ?_)
        · rintro _ _ ⟨⟩
          exact ⟨rfl, rfl⟩
        · rintro _ _ ⟨⟩
      · cases hok hn
        exact hx.loads hpc rfl rfl hl (LeafSpot.linked hspot) trivial ⟨trivial, rfl, trivial⟩
  | consCas w pid why n hd =>
    rw [hpc] at hn hspot
    have hk : x.op.mem.Knows pid hd := hheld pid hd (by rw [hpc]; rfl)
    rcases Memory.casHead_cases
      (c := ⟨[], hd.chain.consolidated hd.chain.base.lowFence hd.chain.base.highFence⟩) hk with hcas | ⟨hhead, hcas⟩
    · simp only [Pc.next, hcas] at hn
      cases hok hn
      refine hx.stays hpc (if_neg (Memory.address_ne_of_casHead hcas)) rfl rfl rfl (.light trivial ?_)
      split
      · exact ⟨trivial, rfl, trivial⟩
      · exact ⟨trivial, rfl, trivial⟩
    · simp only [Pc.next, hcas] at hn
      cases hok hn
      have hheap : (x.op.pc t).heap x.heap x.op.mem t (x.hand t) = x.heap.swap t hd.addr := by
        rw [hpc]
        exact if_pos (Memory.address_of hhead)
      refine ⟨hheap.symm ▸ hx.stocked.swap hhead hu _, fun y hy => ?_, ?_⟩
      · exact Memory.publish_of_ne fun e => hy (e ▸ hspot.1)
      · rw [hpc]
        exact .light trivial ⟨trivial, rfl, trivial⟩
  | consEnd w pid why =>
    rw [hpc] at hn
    cases hok hn
    exact hx.stays hpc rfl rfl rfl rfl (.light trivial (w.consolidated_light pid why))
  | smoFlag w =>
    rw [hpc] at hn
    simp only [Pc.next] at hn
    split at hn
    · cases hok hn
      exact hx.stays hpc rfl rfl rfl rfl (.light trivial w.done_light)
    · cases hok hn
      refine hx.stays hpc rfl rfl rfl rfl (.keep trivial trivial ?_ ?_)
      · rintro _ _ ⟨⟩
      · rintro _ _ ⟨⟩
        trivial

/-! ### `split_leaf` -/

/-- A place in a split at which no chain is compared, or replaced without a
comparison. -/
def SmoPc.Light (q : SmoPc) : Prop := q.held = none ∧ ∀ M hand, q.Stores M hand

/-- What a step of the owner of `smo_busy` does. -/
structure Divides (x : Tracked) (t : Nat) (row : Nat → List Pid) (top : Nat) (w : Write) (q : SmoPc) (M : Memory)
    (q' : SmoPc) (gone : Pid → Prop) : Prop where
  turns : Turns x.op.mem x.heap M (q.heap x.heap x.op.mem t (x.hand t)) gone
  gone : ∀ p, gone p → ¬Linked row top p
  grip : Grip M x.heap.retired.length row top True (x.hand t) (q.hand (x.hand t) x.op.mem) (.smo w q')

theorem Grip.smo {inside : Prop} (hin : inside) (hq : q.Light) : Grip M n row top inside hand hand (.smo w q) :=
  .keep hin trivial (fun _ _ hp => by cases hq.1.symm.trans hp) fun _ _ he =>
    (Pc.smo.inj he).2 ▸ hq.2 M hand

theorem Grip.smo_load {inside : Prop} (hl : M.head p = some l) (hp : Linked row top p) (hin : inside) (hq : q.Light) :
    Grip M n row top inside hand (hand.load M p) (.smo w q) :=
  .load hl hp hin trivial (fun _ _ hx => by cases hq.1.symm.trans hx) fun _ _ he => (Pc.smo.inj he).2 ▸ hq.2 M _

theorem Path.linked {path : List Pid} (htree : Tree M nd row top pend m) (h : Path nd M.root top ℓ (p :: path)) :
    Linked row top p :=
  ⟨ℓ, h.le, h.head_mem htree.shape⟩

theorem visitPath_light {path : List Pid} (hv : visitPath k p path c = .ok q) : q.Light := by
  unfold visitPath at hv
  split at hv
  · cases hv
    exact ⟨rfl, fun _ _ => trivial⟩
  · split at hv
    · cases hv
    · split at hv
      · obtain ⟨y, -, hv⟩ := bind_eq_ok hv
        cases hv
        exact ⟨rfl, fun _ _ => trivial⟩
      · cases hv
        exact ⟨rfl, fun _ _ => trivial⟩

theorem Memory.head_of_loadBase (hb : M.loadBase p = .ok b) : ∃ l, M.head p = some l := by
  obtain ⟨l, hl, -⟩ := bind_eq_ok hb
  exact ⟨l, head_of_loadHead hl⟩

theorem Tidy.divides {q' : SmoPc} (h : Good x.op nd row top pend m) (hx : Tidy x row top)
    (hu : x.heap.unlinked t = none) (hpc : x.op.pc t = .smo w q)
    (hroom : q.allocates = true → x.op.mem.nextPid < MAP_CAP) (hn : q.next x.op.mem w.arg.key = .ok (M, some q')) :
    ∃ gone, Divides x t row top w q M q' gone := by
  have hok : ∀ {y : Memory × Option SmoPc}, (Except.ok y : Except Fault _) = .ok (M, some q') → y = (M, some q') :=
    fun he => Except.ok.inj he
  have hsame : Turns x.op.mem x.heap x.op.mem x.heap fun _ => False := hx.stocked.same rfl rfl rfl
  obtain ⟨-, hphase⟩ := h.owner t w q hpc
  have hstores := hx.stores t w q hpc
  have hheld : ∀ p h, q.held = some (p, h) → (x.hand t).chain = some (p, h.addr) := fun p h hp =>
    hx.held t p h (by rw [hpc]; exact hp)
  have hknows : ∀ p h, q.held = some (p, h) → x.op.mem.Knows p h := fun p l hp => h.held t p l (by rw [hpc]; exact hp)
  cases q with
  | pathRoot =>
    cases hok hn
    exact ⟨_, hsame, fun _ => False.elim, .smo trivial ⟨rfl, fun _ _ => trivial⟩⟩
  | pathHead pid path =>
    obtain ⟨l, hl, hn⟩ := bind_eq_ok hn
    obtain ⟨q'', hv, hn⟩ := bind_eq_ok hn
    cases hok hn
    obtain ⟨-, ℓ, hpath, -⟩ := hphase
    exact ⟨_, hsame, fun _ => False.elim,
      .smo_load (Memory.head_of_loadHead hl) (Path.linked h.tree hpath) trivial (visitPath_light hv)⟩
  | splitHead pid path n =>
    obtain ⟨l, hl, hn⟩ := bind_eq_ok hn
    obtain ⟨-, hpath⟩ := hphase
    have hlinked := Path.linked h.tree hpath
    split at hn
    · cases hok hn
      exact ⟨_, hsame, fun _ => False.elim,
        .smo_load (Memory.head_of_loadHead hl) hlinked trivial ⟨rfl, fun _ _ => trivial⟩⟩
    · split at hn
      · cases hn
      · cases hok hn
        refine ⟨_, hsame, fun _ => False.elim, .load (Memory.head_of_loadHead hl) hlinked trivial trivial ?_ ?_⟩
        · rintro _ _ ⟨⟩
          exact ⟨rfl, rfl⟩
        · rintro _ _ ⟨⟩
          trivial
  | splitPid pid path n hd sep =>
    rw [SmoPc.next, Memory.allocPid_eq (hroom rfl)] at hn
    cases hok hn
    refine ⟨_, hx.stocked.alloc _, fun _ => False.elim, fun p a ha => ⟨rfl, .inl ha⟩, .inl ⟨rfl, fun _ => trivial⟩,
      fun hout => absurd trivial hout, hheld, ?_⟩
    rintro _ _ ⟨⟩
    exact (Memory.address_publish ..).trans (if_pos rfl)
  | splitCas pid path n hd sep rp =>
    rcases Memory.casHead_cases (c := ⟨[], lowerLeaf hd.chain sep rp⟩) (hknows pid hd rfl) with hcas | ⟨hhead, hcas⟩
    · simp only [SmoPc.next, hcas] at hn
      cases hok hn
      have hheap : (SmoPc.splitCas pid path n hd sep rp).heap x.heap x.op.mem t (x.hand t) = x.heap :=
        if_neg (Memory.address_ne_of_casHead hcas)
      refine ⟨fun _ => False, by rw [hheap]; exact hsame, fun _ => False.elim, .keep trivial trivial ?_ ?_⟩
      · rintro _ _ ⟨⟩
      · rintro _ _ ⟨⟩
        exact hstores
    · simp only [SmoPc.next, hcas] at hn
      cases hok hn
      have hheap : (SmoPc.splitCas pid path n hd sep rp).heap x.heap x.op.mem t (x.hand t) = x.heap.swap t hd.addr :=
        if_pos (Memory.address_of hhead)
      exact ⟨_, hheap.symm ▸ hx.stocked.swap hhead hu _, fun _ => False.elim, .smo trivial ⟨rfl, fun _ _ => trivial⟩⟩
  | splitUndo pid path n rp =>
    obtain ⟨-, -, hspare⟩ := hphase
    obtain ⟨l, hl, hright⟩ := Option.map_eq_some_iff.mp hstores
    have hnext : (x.op.mem.nextPid + (2 ^ 32 - 1)) % 2 ^ 32 = rp := by
      have hmod : ∀ n : Nat, n + 1 ≤ MAP_CAP → (n + 1 + (2 ^ 32 - 1)) % 2 ^ 32 = n := fun n hn => by
        simp only [MAP_CAP] at hn
        omega
      rw [← hspare.last]
      exact hmod rp (hspare.last ▸ h.tree.cap)
    simp only [SmoPc.next, hnext] at hn
    split at hn
    · cases hok hn
      have hheap : (SmoPc.splitUndo pid path n rp).heap x.heap x.op.mem t (x.hand t) =
          { x.heap with undone := x.heap.undone ++ [l.addr] } := by
        rw [hright]
        rfl
      refine ⟨_, hheap.symm ▸ hx.stocked.undo hl hspare.last, ?_, ?_⟩
      · rintro _ rfl ⟨ℓ, hℓ, hp⟩
        exact hspare.notMem ℓ hℓ hp
      · split
        · exact .smo trivial ⟨rfl, fun _ _ => trivial⟩
        · exact .smo trivial ⟨rfl, fun _ _ => trivial⟩
    · cases hn
  | sepHead child path sep right =>
    obtain ⟨ℓ, -, hpath⟩ := hphase
    cases path with
    | nil =>
      obtain ⟨l, hl, hn⟩ := bind_eq_ok hn
      cases hok hn
      exact ⟨_, hsame, fun _ => False.elim,
        .smo_load (Memory.head_of_loadHead hl) (Path.linked h.tree hpath) trivial ⟨rfl, fun _ _ => trivial⟩⟩
    | cons parent path =>
      obtain ⟨P, hP, hn⟩ := bind_eq_ok hn
      cases hok hn
      obtain ⟨l, hl⟩ := Memory.head_of_loadBase hP
      refine ⟨_, hsame, fun _ => False.elim, .load hl (Path.linked h.tree hpath.uncons.2) trivial trivial ?_ ?_⟩
      · rintro _ _ ⟨⟩
      · rintro _ _ ⟨⟩
        exact ⟨l.addr, rfl, Memory.address_of hl⟩
  | sepStore child parent path sep right P =>
    obtain ⟨⟨ℓ, -, hpath⟩, -⟩ := hphase
    obtain ⟨a, hchain, ha⟩ := hstores
    obtain ⟨l, hl, rfl⟩ := Option.map_eq_some_iff.mp ha
    simp only [SmoPc.next] at hn
    split at hn
    · cases hn
    · cases hok hn
      have hheap : (SmoPc.sepStore child parent path sep right P).heap x.heap x.op.mem t (x.hand t) =
          x.heap.swap t l.addr := by
        simp only [SmoPc.heap, hchain]
      refine ⟨_, hheap.symm ▸ hx.stocked.swap hl hu _, fun _ => False.elim, fun y a' ha' => ?_,
        .inl ⟨rfl, fun _ => trivial⟩, fun hout => absurd trivial hout, ?_, ?_⟩
      · obtain ⟨rfl, rfl⟩ := Prod.mk.inj (Option.some.inj ha')
        exact ⟨rfl, .inr ⟨(Memory.address_publish ..).trans (if_pos rfl), Path.linked h.tree hpath.uncons.2⟩⟩
      · split
        · rintro _ _ ⟨⟩
        · rintro _ _ ⟨⟩
      · split
        · rintro _ _ ⟨⟩
          trivial
        · rintro _ _ ⟨⟩
          trivial
  | rootPid child sep right level =>
    rw [SmoPc.next, Memory.allocPid_eq (hroom rfl)] at hn
    cases hok hn
    exact ⟨_, hx.stocked.alloc _, fun _ => False.elim, .smo trivial ⟨rfl, fun _ _ => trivial⟩⟩
  | rootStore rp =>
    cases hok hn
    exact ⟨_, hx.stocked.same rfl rfl rfl, fun _ => False.elim, .smo trivial ⟨rfl, fun _ _ => trivial⟩⟩
  | innerHead pid path =>
    obtain ⟨-, _, ⟨ℓ, hpath⟩, -⟩ := hphase
    obtain ⟨N, hN, hn⟩ := bind_eq_ok hn
    split at hn
    · cases hn
    · obtain ⟨k', -, hn⟩ := bind_eq_ok hn
      cases hok hn
      obtain ⟨l, hl⟩ := Memory.head_of_loadBase hN
      refine ⟨_, hsame, fun _ => False.elim, .load hl (Path.linked h.tree hpath) trivial trivial ?_ ?_⟩
      · rintro _ _ ⟨⟩
      · rintro _ _ ⟨⟩
        exact ⟨l.addr, rfl, Memory.address_of hl⟩
  | innerPid pid path N promoted =>
    obtain ⟨-, ⟨⟨ℓ, hpath⟩, -⟩, -⟩ := hphase
    rw [SmoPc.next, Memory.allocPid_eq (hroom rfl)] at hn
    cases hok hn
    refine ⟨_, hx.stocked.alloc _, fun _ => False.elim, .keep trivial trivial ?_ ?_⟩
    · rintro _ _ ⟨⟩
    · rintro _ _ ⟨⟩
      obtain ⟨a, hchain, ha⟩ := hstores
      have hne : pid ≠ x.op.mem.nextPid := Tree.ne_nextPid h.tree hpath.le (hpath.head_mem h.tree.shape)
      exact ⟨a, hchain, (Memory.address_publish ..).trans ((if_neg hne).trans ha)⟩
  | innerStore pid path N promoted nrp =>
    obtain ⟨a, hchain, ha⟩ := hstores
    obtain ⟨l, hl, rfl⟩ := Option.map_eq_some_iff.mp ha
    cases hok hn
    have hheap : (SmoPc.innerStore pid path N promoted nrp).heap x.heap x.op.mem t (x.hand t) =
        x.heap.swap t l.addr := by
      simp only [SmoPc.heap, hchain]
    exact ⟨_, hheap.symm ▸ hx.stocked.swap hl hu _, fun _ => False.elim, .smo trivial ⟨rfl, fun _ _ => trivial⟩⟩
  | unlock =>
    cases hok hn

end Dlsmc.Index.Concurrent
