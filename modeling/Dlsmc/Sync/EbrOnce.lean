import Mathlib.Data.List.Nodup
import Dlsmc.Sync.EbrSafety

/-!
# Epoch-based reclamation: every retired object is destroyed once

The same machine as in `Dlsmc.Sync.Ebr`, with a record of the objects whose
`dlsm_ebr_retire` took effect and of those whose node an advancer has
consumed (`Logged`). Nothing is assumed of the epochs here: several winners may
hold private lists at once, and one may exchange a bucket long after it won.

What a step can do to the retire nodes is said once (`NodeMove`); the invariant
(`Once`) follows a node from the thread that fills it in, through a bucket and
a private list, to the free.
-/

namespace Dlsmc.Ebr

/-- The object whose retirement takes effect in this step: its node is pushed. -/
def pushes (s : State) : Act → Option Nat
  | .next t spurious =>
    match (s.thread t).pc with
    | .retireCas n g head =>
      if s.retire (g % 3) = head ∧ spurious = false then (s.heap n).map Node.obj else none
    | _ => none
  | _ => none

/-- The object whose node is consumed in this step: its destructor runs, unless
it is `NULL`, and the node is freed. -/
def destroys (s : State) : Act → Option Nat
  | .next t _ =>
    match (s.thread t).pc with
    | .advFree (some n) => (s.heap n).map Node.obj
    | _ => none
  | _ => none

/-- A state with the objects retired and the objects destroyed so far, in order. -/
structure Logged where
  base : State
  retired : List Nat
  destroyed : List Nat

/-- One atomic step, recorded. -/
def Logged.step (s : Logged) (a : Act) : Option Logged :=
  (Ebr.step s.base a).map fun s' =>
    { base := s'
      retired := s.retired ++ (pushes s.base a).toList
      destroyed := s.destroyed ++ (destroys s.base a).toList }

/-- The machine of `Dlsmc.Sync.Ebr`, recorded. -/
def loggedMachine : Machine Logged Act where
  init := fun s => s = ⟨State.initial, [], []⟩
  step := Logged.step

/-- The objects of a list of nodes. -/
def objects (s : State) (l : List Nat) : List Nat := l.filterMap fun a => (s.heap a).map Node.obj

/-- Each retired object is in exactly one place, and there once: in a bucket
(`bucket`), on the private list of an advancer (`priv`), or destroyed. -/
structure ExactlyOnce (s : Logged) (bucket priv : Nat → List Nat) : Prop where
  /-- The lists the heads of the buckets and the advancers lead to. -/
  buckets : ∀ b, IsChain (nx s.base.heap) (s.base.retire b) (bucket b)
  privs : ∀ t, IsChain (nx s.base.heap) (s.base.thread t).pc.list (priv t)
  retired : s.retired.Nodup
  /-- No destructor runs twice for one retirement. -/
  destroyed : s.destroyed.Nodup
  bucketOnce : ∀ b, (objects s.base (bucket b)).Nodup
  privOnce : ∀ t, (objects s.base (priv t)).Nodup
  /-- None is lost. -/
  mem : ∀ o, o ∈ s.retired ↔
    (∃ b, o ∈ objects s.base (bucket b)) ∨ (∃ t, o ∈ objects s.base (priv t)) ∨ o ∈ s.destroyed
  oneBucket : ∀ o b b', o ∈ objects s.base (bucket b) → o ∈ objects s.base (bucket b') → b = b'
  onePriv : ∀ o t t', o ∈ objects s.base (priv t) → o ∈ objects s.base (priv t') → t = t'
  notBoth : ∀ o b t, o ∈ objects s.base (bucket b) → o ∉ objects s.base (priv t)
  bucketLive : ∀ o b, o ∈ objects s.base (bucket b) → o ∉ s.destroyed
  privLive : ∀ o t, o ∈ objects s.base (priv t) → o ∉ s.destroyed

/-! ## What a step does to the nodes -/

/-- What a step can do to the retire nodes and the buckets. -/
inductive NodeMove (s : State) (a : Act) : State → Prop
  | quiet (s' : State) (hh : s'.heap = s.heap) (hr : s'.retire = s.retire)
      (hpc : ∀ r, (s'.thread r).pc.node = (s.thread r).pc.node ∧ (s'.thread r).pc.list = (s.thread r).pc.list)
      (hph : ∀ o, s.phase o = .retired → s'.phase o = .retired)
      (hp : pushes s a = none) (hd : destroys s a = none) : NodeMove s a s'
  /-- `retire` fills in a node at a free address. -/
  | alloc (t o : Nat) (d : Bool) (n : Nat) (hp : (s.thread t).pc = .idle) (ho : s.phase o = .unlinked)
      (hn : s.heap n = none) (hp' : pushes s a = none) (hd : destroys s a = none) :
      NodeMove s a ({ s with
        heap := Function.update s.heap n (some ⟨o, d, none⟩)
        phase := Function.update s.phase o .retired }.goto t (.retire n))
  /-- The compare-exchange of `retire` fails. -/
  | relink (t n g : Nat) (head : Option Nat) (node : Node) (hp : (s.thread t).pc = .retireCas n g head)
      (hn : s.heap n = some node) (hp' : pushes s a = none) (hd : destroys s a = none) :
      NodeMove s a ({ s with heap := Function.update s.heap n (some { node with next := head }) }.goto t
        (.retireCas n g (s.retire (g % 3))))
  | push (t n g : Nat) (node : Node) (hp : (s.thread t).pc = .retireCas n g (s.retire (g % 3)))
      (hn : s.heap n = some node) (hp' : pushes s a = some node.obj) (hd : destroys s a = none) :
      NodeMove s a ({ s with
        heap := Function.update s.heap n (some { node with next := s.retire (g % 3) })
        retire := Function.update s.retire (g % 3) (some n) }.goto t .idle)
  | exchange (t b g : Nat) (hp : (s.thread t).pc = .advExchange g) (hp' : pushes s a = none)
    (hd : destroys s a = none) :
      NodeMove s a ({ s with retire := Function.update s.retire b none }.goto t (.advFree (s.retire b)))
  | free (t n : Nat) (node : Node) (hp : (s.thread t).pc = .advFree (some n)) (hn : s.heap n = some node)
      (hp' : pushes s a = none) (hd : destroys s a = some node.obj) :
      NodeMove s a ({ s with heap := Function.update s.heap n none }.goto t (.advFree node.next))

variable {s s' : State} {t : Nat} {a : Act}

/-- A thread moves between places where it holds no node and no list. -/
theorem NodeMove.goto {pc : Pc} (hn : pc.node = (s.thread t).pc.node) (hl : pc.list = (s.thread t).pc.list)
    (hp : pushes s a = none) (hd : destroys s a = none) : NodeMove s a (s.goto t pc) := by
  refine .quiet _ rfl rfl (fun r => ?_) (fun _ h => h) hp hd
  rw [goto_pc]
  split
  · rename_i e
    exact e ▸ ⟨hn, hl⟩
  · exact ⟨rfl, rfl⟩

/-- A step that changes only a thread outside `retire` and the free of a list. -/
theorem NodeMove.of_thread {th : Nat → Thread} (hh : s'.heap = s.heap) (hr : s'.retire = s.retire)
    (ht : s'.thread = th) (hph : s'.phase = s.phase)
    (hth : ∀ r, (th r).pc.node = (s.thread r).pc.node ∧ (th r).pc.list = (s.thread r).pc.list)
    (hp : pushes s a = none) (hd : destroys s a = none) : NodeMove s a s' :=
  .quiet s' hh hr (fun r => ht ▸ hth r) (fun o h => by rwa [hph]) hp hd

theorem update_thread {th : Thread} (hn : th.pc.node = (s.thread t).pc.node) (hl : th.pc.list = (s.thread t).pc.list)
    (r : Nat) :
    (Function.update s.thread t th r).pc.node = (s.thread r).pc.node ∧
      (Function.update s.thread t th r).pc.list = (s.thread r).pc.list := by
  by_cases e : r = t
  · subst e
    simpa using ⟨hn, hl⟩
  · simp [e]

theorem scanNext_node (g i : Nat) : (scanNext g i).node = none ∧ (scanNext g i).list = none :=
  ⟨(scanNext_frame g i).1, (scanNext_frame g i).2.2⟩

theorem next_nodeMove {b : Bool} (h : next s t b = some s') : NodeMove s (.next t b) s' := by
  cases hp : (s.thread t).pc with
  | idle => simp [next, hp] at h
  | register i =>
    have hl : pushes s (.next t b) = none ∧ destroys s (.next t b) = none := by simp [pushes, destroys, hp]
    simp only [next, hp] at h
    split_ifs at h <;> obtain rfl := Option.some.inj h
    · exact .goto (by rw [hp]; rfl) (by rw [hp]; rfl) hl.1 hl.2
    · exact .of_thread rfl rfl rfl rfl (update_thread (by rw [hp]; rfl) (by rw [hp]; rfl)) hl.1 hl.2
    · exact .goto (by rw [hp]; rfl) (by rw [hp]; rfl) hl.1 hl.2
  | registerLocal i =>
    have hl : pushes s (.next t b) = none ∧ destroys s (.next t b) = none := by simp [pushes, destroys, hp]
    simp only [next, hp, Option.some.injEq] at h
    subst h
    exact .of_thread rfl rfl rfl rfl (update_thread (by rw [hp]; rfl) (by rw [hp]; rfl)) hl.1 hl.2
  | unregister =>
    have hl : pushes s (.next t b) = none ∧ destroys s (.next t b) = none := by simp [pushes, destroys, hp]
    simp only [next, hp] at h
    split at h <;> [cases h; obtain rfl := Option.some.inj h]
    exact .of_thread rfl rfl rfl rfl (update_thread (by rw [hp]; rfl) (by rw [hp]; rfl)) hl.1 hl.2
  | enter g =>
    have hl : pushes s (.next t b) = none ∧ destroys s (.next t b) = none := by simp [pushes, destroys, hp]
    simp only [next, hp] at h
    split at h <;> [cases h; obtain rfl := Option.some.inj h]
    exact .of_thread rfl rfl rfl rfl (update_thread (by rw [hp]; rfl) (by rw [hp]; rfl)) hl.1 hl.2
  | retire n =>
    have hl : pushes s (.next t b) = none ∧ destroys s (.next t b) = none := by simp [pushes, destroys, hp]
    simp only [next, hp, Option.some.injEq] at h
    subst h
    exact .goto (by rw [hp]; rfl) (by rw [hp]; rfl) hl.1 hl.2
  | retireHead n g =>
    have hl : pushes s (.next t b) = none ∧ destroys s (.next t b) = none := by simp [pushes, destroys, hp]
    simp only [next, hp, Option.some.injEq] at h
    subst h
    exact .goto (by rw [hp]; rfl) (by rw [hp]; rfl) hl.1 hl.2
  | retireCas n g head =>
    have hd : destroys s (.next t b) = none := by simp [destroys, hp]
    simp only [next, hp] at h
    split at h <;> [cases h; skip]
    rename_i node hn
    split_ifs at h with hcas <;> obtain rfl := Option.some.inj h
    · have hps : pushes s (.next t b) = some node.obj := by simp [pushes, hp, hcas, hn]
      obtain ⟨rfl, -⟩ := hcas
      exact .push t n g node hp hn hps hd
    · have hps : pushes s (.next t b) = none := by
        simp only [pushes, hp]
        rw [if_neg hcas]
      exact .relink t n g head node hp hn hps hd
  | advActive g i =>
    have hl : pushes s (.next t b) = none ∧ destroys s (.next t b) = none := by simp [pushes, destroys, hp]
    have hsc := scanNext_node g i
    simp only [next, hp] at h
    split_ifs at h <;> obtain rfl := Option.some.inj h
    · exact .goto (by rw [hp]; rfl) (by rw [hp]; rfl) hl.1 hl.2
    · exact .goto (by rw [hp, hsc.1]; rfl) (by rw [hp, hsc.2]; rfl) hl.1 hl.2
  | advLocal g i =>
    have hl : pushes s (.next t b) = none ∧ destroys s (.next t b) = none := by simp [pushes, destroys, hp]
    have hsc := scanNext_node g i
    simp only [next, hp] at h
    split_ifs at h <;> obtain rfl := Option.some.inj h
    · exact .goto (by rw [hp]; rfl) (by rw [hp]; rfl) hl.1 hl.2
    · exact .goto (by rw [hp, hsc.1]; rfl) (by rw [hp, hsc.2]; rfl) hl.1 hl.2
  | advCas g =>
    have hl : pushes s (.next t b) = none ∧ destroys s (.next t b) = none := by simp [pushes, destroys, hp]
    simp only [next, hp] at h
    split_ifs at h <;> obtain rfl := Option.some.inj h
    · exact .of_thread rfl rfl rfl rfl (update_thread (by rw [hp]; rfl) (by rw [hp]; rfl)) hl.1 hl.2
    · exact .goto (by rw [hp]; rfl) (by rw [hp]; rfl) hl.1 hl.2
  | advExchange g =>
    simp only [next, hp, Option.some.injEq] at h
    subst h
    exact .exchange t _ g hp (by simp [pushes, hp]) (by simp [destroys, hp])
  | advFree l =>
    have hps : pushes s (.next t b) = none := by simp [pushes, hp]
    cases l with
    | none =>
      simp only [next, hp, Option.some.injEq] at h
      subst h
      exact .goto (by rw [hp]; rfl) (by rw [hp]; rfl) hps (by simp [destroys, hp])
    | some n =>
      simp only [next, hp] at h
      split at h <;> [cases h; obtain rfl := Option.some.inj h]
      rename_i node hn
      exact .free t n node hp hn hps (by simp [destroys, hp, hn])

theorem step_nodeMove (h : step s a = some s') : NodeMove s a s' := by
  cases a with simp only [step] at h
  | register t =>
    split_ifs at h with hp
    obtain rfl := Option.some.inj h
    exact .goto (by rw [hp.1]; rfl) (by rw [hp.1]; rfl) rfl rfl
  | unregister t =>
    split at h <;> [cases h; skip]
    split_ifs at h with hp
    obtain rfl := Option.some.inj h
    exact .of_thread rfl rfl rfl rfl (update_thread (by rw [hp.1]; rfl) (by rw [hp.1]; rfl)) rfl rfl
  | enter t =>
    split_ifs at h with hp
    obtain rfl := Option.some.inj h
    exact .goto (by rw [hp.1]; rfl) (by rw [hp.1]; rfl) rfl rfl
  | exit t =>
    split at h <;> [cases h; skip]
    split_ifs at h with hp
    obtain rfl := Option.some.inj h
    exact .of_thread rfl rfl rfl rfl (update_thread (by rw [hp.1]) (by rw [hp.1])) rfl rfl
  | unlink o =>
    split_ifs at h with hp
    obtain rfl := Option.some.inj h
    refine .quiet _ rfl rfl (fun _ => ⟨rfl, rfl⟩) (fun o' ho' => ?_) rfl rfl
    have : o' ≠ o := fun e => by simp [e, hp] at ho'
    simpa [this] using ho'
  | retire t o d n =>
    split_ifs at h with hp
    split at h
    · obtain rfl := Option.some.inj h
      exact .quiet _ rfl rfl (fun _ => ⟨rfl, rfl⟩) (fun _ h => h) rfl rfl
    · rename_i n
      split_ifs at h with hn
      obtain rfl := Option.some.inj h
      exact .alloc t o d n hp.1 hp.2 hn rfl rfl
  | tryAdvance t =>
    split_ifs at h with hp
    obtain rfl := Option.some.inj h
    exact .goto (by rw [hp]; rfl) (by rw [hp]; rfl) rfl rfl
  | next t b => exact next_nodeMove h

/-! ## The invariant -/

/-- Where the nodes are, and the lists of the buckets and the advancers. -/
structure Lists where
  place : Nat → Place
  bucket : Nat → List Nat
  priv : Nat → List Nat

/-- A node that is in a bucket or on a private list. -/
def Place.pushed : Place → Bool
  | .held _ => false
  | _ => true

/-- The invariant: the buckets and the lists of the advancers are chains of
allocated nodes, each node at one place only; the objects of the nodes pushed
and those destroyed are the objects retired. -/
structure Once (s : Logged) (L : Lists) : Prop where
  bucket : ∀ b, IsChain (nx s.base.heap) (s.base.retire b) (L.bucket b)
  priv : ∀ t, IsChain (nx s.base.heap) (s.base.thread t).pc.list (L.priv t)
  three : ∀ b, 3 ≤ b → s.base.retire b = none
  inBucket : ∀ b a, a ∈ L.bucket b ↔ L.place a = .bucket b ∧ s.base.heap a ≠ none
  inPriv : ∀ t a, a ∈ L.priv t ↔ L.place a = .priv t ∧ s.base.heap a ≠ none
  held : ∀ t a, (s.base.thread t).pc.node = some a → L.place a = .held t ∧ s.base.heap a ≠ none
  owner : ∀ a a' n n', s.base.heap a = some n → s.base.heap a' = some n' → n.obj = n'.obj → a = a'
  phase : ∀ a n, s.base.heap a = some n → s.base.phase n.obj = .retired
  live : ∀ a n, s.base.heap a = some n → n.obj ∉ s.destroyed ∧ (n.obj ∈ s.retired ↔ (L.place a).pushed = true)
  retired : ∀ o ∈ s.retired, s.base.phase o = .retired ∧ (o ∈ s.destroyed ∨ ∃ a n, s.base.heap a = some n ∧ n.obj = o)
  destroyed : ∀ o ∈ s.destroyed, o ∈ s.retired
  retiredOnce : s.retired.Nodup
  destroyedOnce : s.destroyed.Nodup

attribute [local grind =] Function.update_apply

attribute [local grind] Place.pushed

variable {S : Logged} {L : Lists}

theorem Once.quiet (h : Once S L) (hh : s'.heap = S.base.heap) (hr : s'.retire = S.base.retire)
    (hpc : ∀ r, (s'.thread r).pc.node = (S.base.thread r).pc.node ∧ (s'.thread r).pc.list = (S.base.thread r).pc.list)
    (hph : ∀ o, S.base.phase o = .retired → s'.phase o = .retired) : Once { S with base := s' } L := by
  obtain ⟨hbucket, hpriv, hthree, hinBucket, hinPriv, hheld, howner, hphase, hlive, hretired, hdestroyed,
    hretiredOnce, hdestroyedOnce⟩ := h
  refine ⟨?_, ?_, ?_, ?_, ?_, ?_, ?_, ?_, ?_, ?_, hdestroyed, hretiredOnce, hdestroyedOnce⟩ <;> dsimp only <;>
    simp only [hh, hr, (hpc _).1, (hpc _).2]
  · exact hbucket
  · exact hpriv
  · exact hthree
  · exact hinBucket
  · exact hinPriv
  · exact hheld
  · exact howner
  · exact fun a n hn => hph _ (hphase a n hn)
  · exact hlive
  · exact fun o ho => ⟨hph o (hretired o ho).1, (hretired o ho).2⟩

theorem Once.alloc (h : Once S L) {o n : Nat} {d : Bool} (hp : (S.base.thread t).pc = .idle)
    (ho : S.base.phase o = .unlinked) (hn : S.base.heap n = none) :
    Once { S with base := { S.base with
        heap := Function.update S.base.heap n (some ⟨o, d, none⟩)
        phase := Function.update S.base.phase o .retired }.goto t (.retire n) }
      { L with place := Function.update L.place n (.held t) } := by
  obtain ⟨hbucket, hpriv, hthree, hinBucket, hinPriv, hheld, howner, hphase, hlive, hretired, hdestroyed,
    hretiredOnce, hdestroyedOnce⟩ := h
  have hnx : ∀ x, S.base.heap x ≠ none →
      nx (Function.update S.base.heap n (some ⟨o, d, none⟩)) x = nx S.base.heap x := by
    intro x hx
    rw [nx, Function.update_of_ne fun e : x = n => hx (e ▸ hn), nx]
  have hor : o ∉ S.retired := fun hm => by simp [(hretired o hm).1] at ho
  have hod : o ∉ S.destroyed := fun hm => hor (hdestroyed o hm)
  refine ⟨fun b => ?_, fun r => ?_, hthree, ?_, ?_, ?_, ?_, ?_, ?_, ?_, hdestroyed, hretiredOnce, hdestroyedOnce⟩
  · exact (hbucket b).congr fun x hx => hnx x ((hinBucket b x).mp hx).2
  · have hl : ((S.base.goto t (.retire n)).thread r).pc.list = (S.base.thread r).pc.list := by
      rw [goto_pc]; split <;> simp_all [Pc.list]
    exact hl ▸ (hpriv r).congr fun x hx => hnx x ((hinPriv r x).mp hx).2
  all_goals simp only [goto_heap, goto_phase]
  · grind -linarith
  · grind -linarith
  · intro r a hr
    rw [goto_pc] at hr
    grind -linarith [Pc.node]
  · grind -linarith
  · grind -linarith
  · grind -linarith
  · intro o' ho'
    refine ⟨by grind -linarith, (hretired o' ho').2.imp_right ?_⟩
    rintro ⟨a, n', ha, rfl⟩
    exact ⟨a, n', by rwa [Function.update_of_ne fun e : a = n => by simp [e, hn] at ha], rfl⟩

/-- The link of a node that is being pushed. -/
theorem Once.relink (h : Once S L) {n g : Nat} {head : Option Nat} {node : Node}
    (hp : (S.base.thread t).pc = .retireCas n g head) (hn : S.base.heap n = some node) {x : Option Nat} :
    Once { S with base := { S.base with heap := Function.update S.base.heap n (some { node with next := x }) } } L := by
  obtain ⟨hbucket, hpriv, hthree, hinBucket, hinPriv, hheld, howner, hphase, hlive, hretired, hdestroyed,
    hretiredOnce, hdestroyedOnce⟩ := h
  have hpl := hheld t n (by rw [hp]; rfl)
  have hnx : ∀ b, L.place b ≠ .held t →
      nx (Function.update S.base.heap n (some { node with next := x })) b = nx S.base.heap b := by
    intro b hb
    rw [nx, Function.update_of_ne fun e : b = n => hb (e ▸ hpl.1), nx]
  refine ⟨fun b => ?_, fun r => ?_, hthree, ?_, ?_, ?_, ?_, ?_, ?_, ?_, hdestroyed, hretiredOnce, hdestroyedOnce⟩
  · exact (hbucket b).congr fun x hx => hnx x (by simp [((hinBucket b x).mp hx).1])
  · exact (hpriv r).congr fun x hx => hnx x (by simp [((hinPriv r x).mp hx).1])
  all_goals dsimp only
  · grind -linarith
  · grind -linarith
  · grind -linarith
  · grind -linarith
  · grind -linarith
  · grind -linarith
  · intro o ho
    refine ⟨(hretired o ho).1, (hretired o ho).2.imp_right ?_⟩
    rintro ⟨a, n', ha, rfl⟩
    by_cases e : a = n
    · subst e
      obtain rfl : node = n' := Option.some.inj (hn.symm.trans ha)
      exact ⟨a, _, Function.update_self _ _ _, rfl⟩
    · exact ⟨a, n', by rwa [Function.update_of_ne e], rfl⟩

theorem Once.push (h : Once S L) {n g : Nat} {node : Node}
    (hp : (S.base.thread t).pc = .retireCas n g (S.base.retire (g % 3))) (hn : S.base.heap n = some node)
    (hx : node.next = S.base.retire (g % 3)) :
    Once { S with
        base := { S.base with retire := Function.update S.base.retire (g % 3) (some n) }.goto t .idle
        retired := S.retired ++ [node.obj] }
      { L with
        place := Function.update L.place n (.bucket (g % 3))
        bucket := Function.update L.bucket (g % 3) (n :: L.bucket (g % 3)) } := by
  obtain ⟨hbucket, hpriv, hthree, hinBucket, hinPriv, hheld, howner, hphase, hlive, hretired, hdestroyed,
    hretiredOnce, hdestroyedOnce⟩ := h
  have hpl := (hheld t n (by rw [hp]; rfl)).1
  have hnr : node.obj ∉ S.retired := fun hm => by
    have := (hlive n node hn).2.mp hm
    simp [hpl, Place.pushed] at this
  refine ⟨fun b => ?_, fun r => ?_, fun b hb => ?_, ?_, ?_, ?_, ?_, ?_, ?_, ?_, ?_, ?_, hdestroyedOnce⟩
  · by_cases e : b = g % 3
    · subst e
      simp only [goto_retire, Function.update_self, IsChain.cons_iff, true_and]
      have : nx S.base.heap n = S.base.retire (g % 3) := by simp [nx, hn, hx]
      exact this ▸ hbucket (g % 3)
    · simpa [Function.update_of_ne e] using hbucket b
  · have hl : ((S.base.goto t .idle).thread r).pc.list = (S.base.thread r).pc.list := by
      rw [goto_pc]; split <;> simp_all [Pc.list]
    exact hl ▸ hpriv r
  · have hne : b ≠ g % 3 := by omega
    simpa [Function.update_of_ne hne] using hthree b hb
  all_goals simp only [goto_heap, goto_phase, List.mem_append, List.mem_singleton]
  · grind -linarith
  · grind -linarith
  · intro r a hr
    rw [goto_pc] at hr
    grind -linarith [Pc.node]
  · exact howner
  · exact hphase
  · grind -linarith
  · grind -linarith
  · grind -linarith
  · exact List.nodup_append.mpr ⟨hretiredOnce, List.nodup_singleton _, by grind -linarith⟩

/-- An advancer takes a bucket as its private list. -/
theorem Once.exchange (h : Once S L) {g b : Nat} (hp : (S.base.thread t).pc = .advExchange g) :
    Once { S with
        base := { S.base with retire := Function.update S.base.retire b none }.goto t (.advFree (S.base.retire b)) }
      { place := fun a => if a ∈ L.bucket b then .priv t else L.place a
        bucket := Function.update L.bucket b []
        priv := Function.update L.priv t (L.bucket b) } := by
  have hpt : L.priv t = [] := by
    have := h.priv t
    rw [hp] at this
    exact IsChain.none_iff.mp this
  obtain ⟨hbucket, hpriv, hthree, hinBucket, hinPriv, hheld, howner, hphase, hlive, hretired, hdestroyed,
    hretiredOnce, hdestroyedOnce⟩ := h
  refine ⟨fun b' => ?_, fun r => ?_, fun b' hb' => ?_, ?_, ?_, ?_, howner, hphase, ?_, hretired, hdestroyed,
    hretiredOnce, hdestroyedOnce⟩
  · by_cases e : b' = b
    · subst e; simp
    · simpa [Function.update_of_ne e] using hbucket b'
  · dsimp only
    rw [goto_pc]
    by_cases e : r = t
    · subst e; simpa [Pc.list] using hbucket b
    · simpa [Function.update_of_ne e, e] using hpriv r
  · dsimp only [goto_retire]
    rw [Function.update_apply]
    split
    · rfl
    · exact hthree b' hb'
  all_goals simp only [goto_heap]
  · intro b' a
    by_cases e : b' = b
    · subst e
      simp only [Function.update_self, List.not_mem_nil, false_iff]
      grind -linarith
    · rw [Function.update_of_ne e, hinBucket]
      grind -linarith
  · intro r a
    by_cases e : r = t
    · subst e
      have hnp := hinPriv r a
      simp only [hpt, List.not_mem_nil, false_iff] at hnp
      rw [Function.update_self]
      grind -linarith
    · rw [Function.update_of_ne e, hinPriv]
      grind -linarith
  · intro r a hr
    rw [goto_pc] at hr
    grind -linarith [Pc.node]
  · intro a n ha
    refine ⟨(hlive a n ha).1, (hlive a n ha).2.trans ?_⟩
    have := hinBucket b a
    split <;> grind -linarith

/-- The head of an advancer's list is destroyed and freed. -/
theorem Once.free (h : Once S L) {n : Nat} {node : Node} (hp : (S.base.thread t).pc = .advFree (some n))
    (hn : S.base.heap n = some node) :
    Once { S with
        base := { S.base with heap := Function.update S.base.heap n none }.goto t (.advFree node.next)
        destroyed := S.destroyed ++ [node.obj] }
      { L with priv := Function.update L.priv t (L.priv t).tail } := by
  obtain ⟨hbucket, hpriv, hthree, hinBucket, hinPriv, hheld, howner, hphase, hlive, hretired, hdestroyed,
    hretiredOnce, hdestroyedOnce⟩ := h
  have hpc := hpriv t
  simp only [hp, Pc.list] at hpc
  obtain ⟨l, hl, hc⟩ := IsChain.some_iff.mp hpc
  have hnl : n ∉ l := by
    have := hpc.nodup
    rw [hl] at this
    exact (List.nodup_cons.mp this).1
  have hpl : L.place n = .priv t := ((hinPriv t n).mp (by rw [hl]; exact List.mem_cons_self)).1
  have hnx : ∀ b, b ≠ n → nx (Function.update S.base.heap n none) b = nx S.base.heap b := by
    intro b hb
    rw [nx, Function.update_of_ne hb, nx]
  have hna : nx S.base.heap n = node.next := by simp [nx, hn]
  have hmem : ∀ a, a ∈ l ↔ a ≠ n ∧ a ∈ L.priv t := fun a => by
    rw [hl, List.mem_cons]
    constructor
    · exact fun ha => ⟨fun e => hnl (e ▸ ha), .inr ha⟩
    · rintro ⟨hne, ha | ha⟩
      · exact absurd ha hne
      · exact ha
  refine ⟨fun b => ?_, fun r => ?_, hthree, ?_, ?_, ?_, ?_, ?_, ?_, ?_, ?_, hretiredOnce, ?_⟩
  · exact (hbucket b).congr fun x hx => hnx x fun e => by
      have := ((hinBucket b x).mp hx).1
      rw [e, hpl] at this; cases this
  · dsimp only
    rw [goto_pc]
    by_cases e : r = t
    · subst e
      simp only [↓reduceIte, Pc.list, Function.update_self, hl, List.tail_cons]
      exact (hna ▸ hc).congr fun x hx => hnx x fun e => hnl (e ▸ hx)
    · simp only [if_neg e, Function.update_of_ne e]
      exact (hpriv r).congr fun x hx => hnx x fun e' => by
        have := ((hinPriv r x).mp hx).1
        rw [e', hpl, Place.priv.injEq] at this; exact e this.symm
  all_goals simp only [goto_heap, goto_phase, List.mem_append, List.mem_singleton]
  · grind -linarith
  · intro r a
    by_cases e : r = t
    · subst e
      rw [Function.update_self, hl, List.tail_cons, hmem a, hinPriv]
      grind -linarith
    · rw [Function.update_of_ne e, hinPriv]
      grind -linarith
  · intro r a hr
    rw [goto_pc] at hr
    grind -linarith [Pc.node]
  · grind -linarith
  · grind -linarith
  · grind -linarith
  · intro o ho
    refine ⟨(hretired o ho).1, ?_⟩
    rcases (hretired o ho).2 with hd | ⟨a, n', ha, rfl⟩
    · exact .inl (.inl hd)
    · by_cases e : a = n
      · subst e
        obtain rfl : node = n' := Option.some.inj (hn.symm.trans ha)
        exact .inl (.inr rfl)
      · exact .inr ⟨a, n', by rwa [Function.update_of_ne e], rfl⟩
  · rintro o (ho | rfl)
    · exact hdestroyed o ho
    · exact (hlive n node hn).2.mpr (by rw [hpl]; rfl)
  · refine List.nodup_append.mpr ⟨hdestroyedOnce, List.nodup_singleton _, ?_⟩
    have := (hlive n node hn).1
    grind -linarith

/-- The step lemma. -/
theorem Once.step {S' : Logged} (h : Once S L) (hs : S.step a = some S') : ∃ L', Once S' L' := by
  obtain ⟨s', hb, rfl⟩ := Option.map_eq_some_iff.mp hs
  cases step_nodeMove hb with
  | quiet _ hh hr hpc hph hp hd =>
    simp only [hp, hd, Option.toList_none, List.append_nil]
    exact ⟨L, h.quiet hh hr hpc hph⟩
  | alloc t o d n hp ho hn hp' hd =>
    simp only [hp', hd, Option.toList_none, List.append_nil]
    exact ⟨_, h.alloc hp ho hn⟩
  | relink t n g head node hp hn hp' hd =>
    simp only [hp', hd, Option.toList_none, List.append_nil]
    have h₁ := h.relink hp hn (x := head)
    refine ⟨L, h₁.quiet rfl rfl (fun r => ?_) fun _ h => h⟩
    rw [goto_pc]
    split
    · rename_i e
      subst e
      exact ⟨by rw [hp]; rfl, by rw [hp]; rfl⟩
    · exact ⟨rfl, rfl⟩
  | push t n g node hp hn hp' hd =>
    simp only [hp', hd, Option.toList_none, Option.toList_some, List.append_nil]
    have h₁ := h.relink hp hn (x := S.base.retire (g % 3))
    have hn₁ := Function.update_self n (some { node with next := S.base.retire (g % 3) }) S.base.heap
    have h₂ := h₁.push hp hn₁ rfl
    exact ⟨_, h₂⟩
  | exchange t b g hp hp' hd =>
    simp only [hp', hd, Option.toList_none, List.append_nil]
    exact ⟨_, h.exchange hp⟩
  | free t n node hp hn hp' hd =>
    simp only [hp', hd, Option.toList_none, Option.toList_some, List.append_nil]
    exact ⟨_, h.free hp hn⟩

theorem once_initial : Once ⟨State.initial, [], []⟩ ⟨fun _ => .held 0, fun _ => [], fun _ => []⟩ := by
  refine ⟨?_, ?_, ?_, ?_, ?_, ?_, ?_, ?_, ?_, ?_, ?_, ?_, ?_⟩ <;> simp [State.initial, Pc.list, Pc.node]

/-- The run lemma. -/
theorem once_of_reach (h : loggedMachine.Reach S) : ∃ L, Once S L := by
  refine h.invariant (I := fun S => ∃ L, Once S L) ?_ ?_
  · rintro _ rfl
    exact ⟨_, once_initial⟩
  · rintro S S' a - ⟨L, hi⟩ hs
    exact hi.step hs

/-! ## Where the objects are -/

theorem mem_objects {l : List Nat} {o : Nat} : o ∈ objects s l ↔ ∃ a ∈ l, ∃ n, s.heap a = some n ∧ n.obj = o := by
  simp [objects, List.mem_filterMap]

/-- The nodes of a list hold different objects. -/
theorem Once.objects_nodup (h : Once S L) {l : List Nat} (hl : l.Nodup) : (objects S.base l).Nodup := by
  refine hl.filterMap fun a a' o ha ha' => ?_
  obtain ⟨n, hn, rfl⟩ := Option.map_eq_some_iff.mp ha
  obtain ⟨n', hn', e⟩ := Option.map_eq_some_iff.mp ha'
  exact h.owner a a' n n' hn hn' e.symm

/-- Two lists that hold one object share a node. -/
theorem Once.common (h : Once S L) {l l' : List Nat} {o : Nat} (ho : o ∈ objects S.base l)
    (ho' : o ∈ objects S.base l') : ∃ a ∈ l, a ∈ l' := by
  obtain ⟨a, ha, n, hn, rfl⟩ := mem_objects.mp ho
  obtain ⟨a', ha', n', hn', e⟩ := mem_objects.mp ho'
  obtain rfl := h.owner a a' n n' hn hn' e.symm
  exact ⟨a, ha, ha'⟩

/-- A retired object whose node is not yet freed is in a bucket or on a private list. -/
theorem Once.pushed (h : Once S L) {a : Nat} {n : Node} (hn : S.base.heap a = some n) (hr : n.obj ∈ S.retired) :
    (∃ b, a ∈ L.bucket b) ∨ ∃ t, a ∈ L.priv t := by
  have hp := (h.live a n hn).2.mp hr
  cases hpl : L.place a with
  | held t => simp [hpl, Place.pushed] at hp
  | bucket b => exact .inl ⟨b, (h.inBucket b a).mpr ⟨hpl, by simp [hn]⟩⟩
  | priv t => exact .inr ⟨t, (h.inPriv t a).mpr ⟨hpl, by simp [hn]⟩⟩

theorem Once.bucket_live (h : Once S L) {o b : Nat} (ho : o ∈ objects S.base (L.bucket b)) :
    o ∈ S.retired ∧ o ∉ S.destroyed := by
  obtain ⟨a, ha, n, hn, rfl⟩ := mem_objects.mp ho
  have hl := h.live a n hn
  exact ⟨hl.2.mpr (by rw [((h.inBucket b a).mp ha).1]; rfl), hl.1⟩

theorem Once.priv_live (h : Once S L) {o t : Nat} (ho : o ∈ objects S.base (L.priv t)) :
    o ∈ S.retired ∧ o ∉ S.destroyed := by
  obtain ⟨a, ha, n, hn, rfl⟩ := mem_objects.mp ho
  have hl := h.live a n hn
  exact ⟨hl.2.mpr (by rw [((h.inPriv t a).mp ha).1]; rfl), hl.1⟩

theorem Once.exactlyOnce (h : Once S L) : ExactlyOnce S L.bucket L.priv where
  buckets := h.bucket
  privs := h.priv
  retired := h.retiredOnce
  destroyed := h.destroyedOnce
  bucketOnce b := h.objects_nodup (h.bucket b).nodup
  privOnce t := h.objects_nodup (h.priv t).nodup
  mem o := by
    constructor
    · intro ho
      rcases (h.retired o ho).2 with hd | ⟨a, n, hn, rfl⟩
      · exact .inr (.inr hd)
      · rcases h.pushed hn ho with ⟨b, hb⟩ | ⟨t, ht⟩
        · exact .inl ⟨b, mem_objects.mpr ⟨a, hb, n, hn, rfl⟩⟩
        · exact .inr (.inl ⟨t, mem_objects.mpr ⟨a, ht, n, hn, rfl⟩⟩)
    · rintro (⟨b, hb⟩ | ⟨t, ht⟩ | hd)
      · exact (h.bucket_live hb).1
      · exact (h.priv_live ht).1
      · exact h.destroyed o hd
  oneBucket o b b' hb hb' := by
    obtain ⟨a, ha, ha'⟩ := h.common hb hb'
    have e := ((h.inBucket b a).mp ha).1.symm.trans ((h.inBucket b' a).mp ha').1
    exact Place.bucket.inj e
  onePriv o t t' ht ht' := by
    obtain ⟨a, ha, ha'⟩ := h.common ht ht'
    have e := ((h.inPriv t a).mp ha).1.symm.trans ((h.inPriv t' a).mp ha').1
    exact Place.priv.inj e
  notBoth o b t hb ht := by
    obtain ⟨a, ha, ha'⟩ := h.common hb ht
    have e := ((h.inBucket b a).mp ha).1.symm.trans ((h.inPriv t a).mp ha').1
    cases e
  bucketLive _ _ ho := (h.bucket_live ho).2
  privLive _ _ ho := (h.priv_live ho).2

/-! ## The drain -/

/-- The rest of a call of `t`, with no other thread taking a step. -/
def finish (t : Nat) : Nat → Logged → Option Logged
  | 0, _ => none
  | fuel + 1, s =>
    if (s.base.thread t).pc = .idle then some s else (s.step (.next t false)).bind (finish t fuel)

/-- `dlsm_ebr_try_advance` by `t`, with no other thread taking a step. -/
def tryAdvance (s : Logged) (t fuel : Nat) : Option Logged :=
  (s.step (.tryAdvance t)).bind (finish t fuel)

/-- Three consecutive calls of `dlsm_ebr_try_advance`. -/
def drain (s : Logged) (t₁ t₂ t₃ fuel : Nat) : Option Logged :=
  ((tryAdvance s t₁ fuel).bind (tryAdvance · t₂ fuel)).bind (tryAdvance · t₃ fuel)

theorem finish_reach {fuel : Nat} {S S' : Logged} (hr : loggedMachine.Reach S) (h : finish t fuel S = some S') :
    loggedMachine.Reach S' := by
  induction fuel generalizing S with
  | zero => cases h
  | succ fuel ih =>
    simp only [finish] at h
    split_ifs at h
    · exact Option.some.inj h ▸ hr
    · obtain ⟨S₁, hs, h⟩ := Option.bind_eq_some_iff.mp h
      exact ih (hr.step hs) h

theorem tryAdvance_reach {fuel : Nat} {S S' : Logged} (hr : loggedMachine.Reach S)
    (h : tryAdvance S t fuel = some S') : loggedMachine.Reach S' := by
  obtain ⟨S₁, hs, h⟩ := Option.bind_eq_some_iff.mp h
  exact finish_reach (hr.step hs) h

/-- The call `t` is in ends in a state of `Q`, if `t` takes all the steps. -/
inductive Ends (t : Nat) (Q : Logged → Prop) : Logged → Prop
  | here {S : Logged} (hp : (S.base.thread t).pc = .idle) (hq : Q S) : Ends t Q S
  | next {S S' : Logged} (hp : (S.base.thread t).pc ≠ .idle) (hs : S.step (.next t false) = some S')
      (h : Ends t Q S') : Ends t Q S

/-- Any fuel from some amount on is enough. -/
theorem Ends.finish {Q : Logged → Prop} {S : Logged} (h : Ends t Q S) :
    ∃ S' f, Q S' ∧ ∀ fuel ≥ f, Ebr.finish t fuel S = some S' := by
  induction h with
  | @here S hp hq =>
    refine ⟨S, 1, hq, fun fuel hf => ?_⟩
    obtain ⟨fuel, rfl⟩ : ∃ k, fuel = k + 1 := ⟨fuel - 1, by omega⟩
    rw [Ebr.finish, if_pos hp]
  | @next S S₁ hp hs _ ih =>
    obtain ⟨S', f, hq, hf⟩ := ih
    refine ⟨S', f + 1, hq, fun fuel hfu => ?_⟩
    obtain ⟨fuel, rfl⟩ : ∃ k, fuel = k + 1 := ⟨fuel - 1, by omega⟩
    rw [Ebr.finish, if_neg hp, hs]
    exact hf fuel (by omega)

/-- No other call is in progress and every registered slot is quiescent. -/
structure Alone (s : State) (t : Nat) : Prop where
  idle : ∀ r, r ≠ t → (s.thread r).pc = .idle
  quiescent : ∀ i < SLOTS, s.active i = true → s.localEpoch i = QUIESCENT

/-- No call is in progress and every registered slot is quiescent. -/
structure Quiet (s : State) : Prop where
  idle : ∀ r, (s.thread r).pc = .idle
  quiescent : ∀ i < SLOTS, s.active i = true → s.localEpoch i = QUIESCENT

theorem Quiet.alone (h : Quiet s) (t : Nat) : Alone s t := ⟨fun r _ => h.idle r, h.quiescent⟩

theorem Alone.goto (h : Alone s t) (pc : Pc) : Alone (s.goto t pc) t where
  idle r hr := by
    rw [goto_pc, if_neg hr]
    exact h.idle r hr
  quiescent := h.quiescent

theorem Alone.quiet (h : Alone s t) (hp : (s.thread t).pc = .idle) : Quiet s where
  idle r := by
    by_cases e : r = t
    · exact e ▸ hp
    · exact h.idle r e
  quiescent := h.quiescent

/-- What a call returns to: the epoch `g`, the buckets `b`, and nothing more retired. -/
structure Returned (g : Nat) (b : Nat → Option Nat) (R : List Nat) (S : Logged) : Prop where
  quiet : Quiet S.base
  epoch : S.base.globalEpoch = g
  buckets : S.base.retire = b
  retired : S.retired = R

theorem Ends.next_of {Q : Logged → Prop} {R D : List Nat} (s₁ : State) (hp : (s.thread t).pc ≠ .idle)
    (hn : Ebr.next s t false = some s₁) (hps : pushes s (.next t false) = none)
    (h : Ends t Q ⟨s₁, R, D ++ (destroys s (.next t false)).toList⟩) : Ends t Q ⟨s, R, D⟩ := by
  refine .next hp ?_ h
  simp [Logged.step, Ebr.step, hn, hps]

/-- The list of an advancer is freed to its end. -/
theorem ends_free {R : List Nat} (l : List Nat) {p : Option Nat} {D : List Nat} (h : Alone s t)
    (hp : (s.thread t).pc = .advFree p) (hl : IsChain (nx s.heap) p l) (hh : ∀ a ∈ l, s.heap a ≠ none) :
    Ends t (Returned s.globalEpoch s.retire R) ⟨s, R, D⟩ := by
  induction l generalizing s p D with
  | nil =>
    obtain rfl : p = none := IsChain.nil_iff.mp hl
    refine .next_of (s.goto t .idle) (by simp [hp]) (by simp [next, hp]) (by simp [pushes, hp]) ?_
    have hi : ((s.goto t .idle).thread t).pc = .idle := by rw [goto_pc, if_pos rfl]
    exact .here hi ⟨(h.goto .idle).quiet hi, rfl, rfl, rfl⟩
  | cons n l ih =>
    obtain ⟨rfl, hc⟩ := IsChain.cons_iff.mp hl
    obtain ⟨node, hn⟩ := Option.ne_none_iff_exists'.mp (hh n List.mem_cons_self)
    have hnl : n ∉ l := (List.nodup_cons.mp hl.nodup).1
    let s' := { s with heap := Function.update s.heap n none }.goto t (.advFree node.next)
    refine .next_of s' (by simp [hp]) (by simp [next, hp, hn, s']) (by simp [pushes, hp]) ?_
    have ha : Alone s' t := Alone.goto (s := { s with heap := Function.update s.heap n none }) ⟨h.idle, h.quiescent⟩ _
    refine ih ha (by rw [goto_pc, if_pos rfl]) ?_ fun a ha => ?_
    · have : nx s.heap n = node.next := by simp [nx, hn]
      exact (this ▸ hc).congr fun x hx => by
        simp only [nx, s', goto_heap]
        rw [Function.update_of_ne fun e : x = n => hnl (e ▸ hx)]
    · simp only [s', goto_heap]
      rw [Function.update_of_ne fun e : a = n => hnl (e ▸ ha)]
      exact hh a (List.mem_cons_of_mem n ha)

@[simp] theorem goto_goto (pc pc' : Pc) : (s.goto t pc).goto t pc' = s.goto t pc' := by
  simp [State.goto]

theorem goto_pc_self (pc : Pc) : ((s.goto t pc).thread t).pc = pc := by rw [goto_pc, if_pos rfl]

/-- A slot that is free or quiescent does not stop the scan. -/
theorem ends_slot {Q : Logged → Prop} {R D : List Nat} {g i : Nat} (h : Alone s t) (hi : i < SLOTS)
    (hq : Ends t Q ⟨s.goto t (scanNext g i), R, D⟩) : Ends t Q ⟨s.goto t (.advActive g i), R, D⟩ := by
  have hp := goto_pc_self (s := s) (t := t) (.advActive g i)
  cases ha : s.active i with
  | false =>
    refine .next_of (s.goto t (scanNext g i)) (by simp [hp]) (by simp [next, hp, ha]) (by simp [pushes, hp]) ?_
    simpa [destroys, hp] using hq
  | true =>
    have hp' := goto_pc_self (s := s) (t := t) (.advLocal g i)
    have hl := h.quiescent i hi ha
    refine .next_of (s.goto t (.advLocal g i)) (by simp [hp]) (by simp [next, hp, ha]) (by simp [pushes, hp]) ?_
    refine .next_of (s.goto t (scanNext g i)) (by simp [hp']) (by simp [next, hp', hl]) (by simp [pushes, hp']) ?_
    simpa [destroys, hp, hp'] using hq

/-- The scan of the slots from slot `i` on finds no reader in an older epoch. -/
theorem ends_scan {Q : Logged → Prop} {R D : List Nat} {g : Nat} (k : Nat) {i : Nat} (hk : i + k + 1 = SLOTS)
    (h : Alone s t) (hq : Ends t Q ⟨s.goto t (.advCas g), R, D⟩) : Ends t Q ⟨s.goto t (.advActive g i), R, D⟩ := by
  induction k generalizing i with
  | zero =>
    refine ends_slot h (by omega) ?_
    rwa [scanNext, if_neg (by omega)]
  | succ k ih =>
    refine ends_slot h (by omega) ?_
    rw [scanNext, if_pos (by omega)]
    exact ih (by omega)

/-- The winner of the epoch frees the bucket it exchanges. -/
theorem ends_advance {R D l : List Nat} (h : Alone s t) (hg : s.globalEpoch + 2 < 2 ^ 64)
    (hl : IsChain (nx s.heap) (s.retire ((s.globalEpoch + 2) % 3)) l) (hh : ∀ a ∈ l, s.heap a ≠ none) :
    Ends t (Returned (s.globalEpoch + 1) (Function.update s.retire ((s.globalEpoch + 2) % 3) none) R)
      ⟨s.goto t (.advCas s.globalEpoch), R, D⟩ := by
  have hg₁ : (s.globalEpoch + 1) % 2 ^ 64 = s.globalEpoch + 1 := Nat.mod_eq_of_lt (by omega)
  have hg₂ : (s.globalEpoch + 2) % 2 ^ 64 = s.globalEpoch + 2 := Nat.mod_eq_of_lt hg
  let s₁ := { s with globalEpoch := s.globalEpoch + 1 }
  let s₂ := { s₁ with retire := Function.update s.retire ((s.globalEpoch + 2) % 3) none }
  have hp := goto_pc_self (s := s) (t := t) (.advCas s.globalEpoch)
  have hp₁ := goto_pc_self (s := s₁) (t := t) (.advExchange s.globalEpoch)
  have hp₂ := goto_pc_self (s := s₂) (t := t) (.advFree (s.retire ((s.globalEpoch + 2) % 3)))
  refine .next_of (s₁.goto t (.advExchange s.globalEpoch)) (by simp [hp]) ?_ (by simp [pushes, hp]) ?_
  · simp only [next, hp, goto_globalEpoch, if_true, hg₁]
    simp [State.goto, s₁]
  refine .next_of (s₂.goto t (.advFree (s.retire ((s.globalEpoch + 2) % 3)))) (by simp [hp₁]) ?_
    (by simp [pushes, hp₁]) ?_
  · simp only [next, hp₁, hg₂]
    simp [State.goto, s₁, s₂]
  have ha : Alone s₂ t := ⟨h.idle, h.quiescent⟩
  exact ends_free l (ha.goto _) hp₂ hl hh

/-- A call alone advances the epoch and empties a bucket. -/
theorem tryAdvance_alone {S : Logged} (hr : loggedMachine.Reach S) (h : Quiet S.base)
    (hg : S.base.globalEpoch + 2 < 2 ^ 64) (t : Nat) :
    ∃ S' f, loggedMachine.Reach S' ∧ (∀ fuel ≥ f, tryAdvance S t fuel = some S') ∧
      Returned (S.base.globalEpoch + 1)
      (Function.update S.base.retire ((S.base.globalEpoch + 2) % 3) none) S.retired S' := by
  obtain ⟨L, ho⟩ := once_of_reach hr
  have hc := ends_advance (R := S.retired) (D := S.destroyed) (h.alone t) hg (ho.bucket _) fun a ha =>
    ((ho.inBucket _ a).mp ha).2
  obtain ⟨S', f, hq, hf⟩ := (ends_scan 63 (by rfl) (h.alone t) hc).finish
  have hf' : ∀ fuel ≥ f, tryAdvance S t fuel = some S' := fun fuel hfu => by
    rw [tryAdvance, show S.step (.tryAdvance t) = some ⟨S.base.goto t (.advActive S.base.globalEpoch 0), S.retired,
      S.destroyed⟩ by simp [Logged.step, Ebr.step, h.idle t, pushes, destroys]]
    exact hf fuel hfu
  exact ⟨S', f, tryAdvance_reach hr (hf' f (Nat.le_refl f)), hf', hq⟩

/-- Where nothing is in progress, three calls empty the three buckets. -/
theorem drain_alone {S : Logged} (hr : loggedMachine.Reach S) (h : Quiet S.base)
    (hg : S.base.globalEpoch + 4 < 2 ^ 64) (t₁ t₂ t₃ : Nat) :
    ∃ S' f, loggedMachine.Reach S' ∧ (∀ fuel ≥ f, drain S t₁ t₂ t₃ fuel = some S') ∧
      Quiet S'.base ∧ S'.retired = S.retired ∧ ∀ b < 3, S'.base.retire b = none := by
  obtain ⟨S₁, f₁, hr₁, hf₁, q₁⟩ := tryAdvance_alone hr h (by omega) t₁
  obtain ⟨S₂, f₂, hr₂, hf₂, q₂⟩ := tryAdvance_alone hr₁ q₁.quiet (by rw [q₁.epoch]; omega) t₂
  obtain ⟨S₃, f₃, hr₃, hf₃, q₃⟩ := tryAdvance_alone hr₂ q₂.quiet (by rw [q₂.epoch, q₁.epoch]; omega) t₃
  refine ⟨S₃, max f₁ (max f₂ f₃), hr₃, fun fuel hf => ?_, q₃.quiet, ?_, fun b hb => ?_⟩
  · rw [drain, hf₁ fuel (by omega), Option.bind_some, hf₂ fuel (by omega), Option.bind_some, hf₃ fuel (by omega)]
  · rw [q₃.retired, q₂.retired, q₁.retired]
  · rw [q₃.buckets, q₂.buckets, q₁.buckets, q₂.epoch, q₁.epoch]
    simp only [Function.update_apply]
    have : b = (S.base.globalEpoch + 2) % 3 ∨ b = (S.base.globalEpoch + 1 + 2) % 3 ∨
        b = (S.base.globalEpoch + 1 + 1 + 2) % 3 := by omega
    grind -linarith

/-- With the buckets empty and nothing in progress, all that was retired is destroyed. -/
theorem Once.all_destroyed (h : Once S L) (hq : Quiet S.base) (hb : ∀ b < 3, S.base.retire b = none) :
    ∀ o ∈ S.retired, o ∈ S.destroyed := by
  intro o ho
  rcases (h.retired o ho).2 with hd | ⟨a, n, hn, rfl⟩
  · exact hd
  · rcases h.pushed hn ho with ⟨b, ha⟩ | ⟨t, ha⟩
    · have hc := h.bucket b
      have hnone : S.base.retire b = none := if hlt : b < 3 then hb b hlt else h.three b (by omega)
      rw [hnone, IsChain.none_iff] at hc
      simp [hc] at ha
    · have hc := h.priv t
      rw [hq.idle t] at hc
      rw [IsChain.none_iff.mp hc] at ha
      cases ha

/-- Every retired object is reclaimed exactly once. In every state any number of
threads can reach, whatever the order of their steps, each retired object is in
one bucket, on one private list or destroyed, and there once. Once no call is in
progress and every registered slot is quiescent, three calls of
`dlsm_ebr_try_advance`, by any threads, return with all of them destroyed and
the buckets empty, unless a value they compute from the epoch wraps. -/
theorem dlsm_ebr_reclaims_exactly_once {S : Logged} (hr : loggedMachine.Reach S) :
    (∃ bucket priv, ExactlyOnce S bucket priv) ∧
    (Quiet S.base → S.base.globalEpoch + 4 < 2 ^ 64 → ∀ t₁ t₂ t₃, ∃ S' f,
      (∀ fuel ≥ f, drain S t₁ t₂ t₃ fuel = some S') ∧ loggedMachine.Reach S' ∧
      S'.retired = S.retired ∧ S'.retired.Perm S'.destroyed ∧ ∀ b < 3, S'.base.retire b = none) := by
  obtain ⟨L, ho⟩ := once_of_reach hr
  refine ⟨⟨L.bucket, L.priv, ho.exactlyOnce⟩, fun hq hg t₁ t₂ t₃ => ?_⟩
  obtain ⟨S', f, hr', hf, hq', hret, hb⟩ := drain_alone hr hq hg t₁ t₂ t₃
  obtain ⟨L', ho'⟩ := once_of_reach hr'
  have hall := ho'.all_destroyed hq' hb
  have hperm : S'.retired.Perm S'.destroyed :=
    (List.perm_ext_iff_of_nodup ho'.retiredOnce ho'.destroyedOnce).mpr fun o => ⟨hall o, ho'.destroyed o⟩
  exact ⟨S', f, hf, hr', hret, hperm, hb⟩

/-- A thread retires an object and no slot is registered: the drain destroys it. -/
theorem dlsm_ebr_reclaims_exactly_once_one : ∃ S, loggedMachine.Reach S ∧ S.retired = [0] ∧ S.destroyed = [] ∧
    ∃ S' f, (∀ fuel ≥ f, drain S 0 1 2 fuel = some S') ∧ S'.destroyed = [0] := by
  let acts : List Act := [.unlink 0, .retire 0 0 true (some 7), .next 0 false, .next 0 false, .next 0 false]
  obtain ⟨S, hrun, hret, hdes, hq, hg⟩ : ∃ S, loggedMachine.run ⟨State.initial, [], []⟩ acts = some S ∧
      S.retired = [0] ∧ S.destroyed = [] ∧ Quiet S.base ∧ S.base.globalEpoch = 0 := by
    refine ⟨_, rfl, rfl, rfl, ⟨fun r => ?_, fun i _ hi => ?_⟩, rfl⟩
    · by_cases e : r = 0
      · subst e; rfl
      · simp [goto_pc, e, State.initial]
    · cases hi
  have hr : loggedMachine.Reach S := .of_run (.init rfl) hrun
  have h := (dlsm_ebr_reclaims_exactly_once hr).2 hq (by omega) 0 1 2
  obtain ⟨S', f, hf, -, hret', hperm, -⟩ := h
  refine ⟨S, hr, hret, hdes, S', f, hf, ?_⟩
  rw [hret', hret] at hperm
  exact List.perm_singleton.mp hperm.symm

end Dlsmc.Ebr
