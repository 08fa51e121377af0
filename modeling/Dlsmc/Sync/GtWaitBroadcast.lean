import Dlsmc.Sync.GtWait

/-!
# What `grant_all_locked` grants

The invariant (`Inv`) names the list each queue holds, the nodes each call of
`grant_all_locked` has detached and not granted yet, and for each node which of
these it is in. The nodes not granted yet are linked from the position of the
loop, because their waits have not returned. At `node = node->next` this needs
more: the node was granted, and its wait may have returned, so that its memory
holds anything. `linkLives` asks that it has not.
-/

namespace Dlsmc.GtWait

/-- Where a node is linked. -/
inductive Loc where
  | free
  | queued (o : Nat)
  /-- Detached and not granted yet by thread `g`. -/
  | detached (g : Nat)

/-- The object a wait call is queued on, or was until its node was granted. -/
def Call.on : Call → Option Nat
  | .poll o | .park o | .check o _ => some o
  | _ => none

/-- The object whose `qlock` a call of `grant_all_locked` holds. -/
def Pc.obj : Pc → Option Nat
  | .grant o _ | .advance o _ | .grantLocked o _ | .unparkLocked o _ _ => some o
  | _ => none

/-- The array holds the handles of the nodes granted, and `d` is left. -/
structure Filling (s : State) (G : Granter) (d : List Nat) : Prop where
  nodes : G.nodes = G.grants ++ d
  waiters : G.waiters = G.handles ++ d.map s.handle
  unparks : G.unparks = []
  count : G.count = G.nodes.length

/-- All nodes are granted, and the first `i` handles of the array unparked. -/
structure Unparking (G : Granter) (i : Nat) : Prop where
  nodes : G.nodes = G.grants
  waiters : G.waiters = G.handles
  count : G.count = G.nodes.length
  index : i ≤ G.count
  unparks : G.unparks = (G.waiters.take i).map some

/-- A call of `grant_all_locked` that has the nodes `d` left to grant. -/
def GranterOk (s : State) (G : Granter) (d : List Nat) : Prop :=
  match G.pc with
  | .idle => d = [] ∧ G.nodes = G.grants ∧ G.unparks = G.waiters.map some
  | .grant _ p => IsChain s.next p d ∧ Filling s G d
  | .advance _ n => (unreturned s G n = true → IsChain s.next (s.next n) d) ∧ Filling s G d
  | .unpark i => d = [] ∧ Unparking G i
  | .grantLocked _ p =>
    IsChain s.next p d ∧ G.nodes = G.grants ++ d ∧ G.waiters.map some = G.unparks ++ d.map (some ∘ s.handle)
  | .unparkLocked _ h p =>
    IsChain s.next p d ∧ G.nodes = G.grants ++ d ∧
      G.waiters.map some = G.unparks ++ some h :: d.map (some ∘ s.handle)

structure Inv (s : State) (l d : Nat → List Nat) (loc : Nat → Loc) : Prop where
  repr : ∀ o, (links s o).Repr (l o)
  inQueue : ∀ o n, n ∈ l o ↔ loc n = .queued o
  inDetached : ∀ g n, n ∈ d g ↔ loc n = .detached g
  queued : ∀ o n, loc n = .queued o → (s.call n).on = some o ∧ s.granted n = false
  detached : ∀ g n, loc n = .detached g →
    (s.call n).on = (s.granter g).pc.obj ∧ (s.call n).on ≠ none ∧ s.granted n = false
  qlock : ∀ g o, (s.granter g).pc.obj = some o → s.qlock o = true
  holder : ∀ g g' o, (s.granter g).pc.obj = some o → (s.granter g').pc.obj = some o → g = g'
  ok : ∀ g, GranterOk s (s.granter g) (d g)
  nodup : ∀ g, (s.granter g).nodes.Nodup ∧ (s.granter g).waiters.length = (s.granter g).nodes.length
  seen : ∀ g o n, (s.granter g).pc = .advance o n → (s.granter g).seen ≤ s.waits n ∧
    (unreturned s (s.granter g) n = true → loc n = .free ∧ s.granted n = true)
  fresh : ∀ n o t, s.call n = .enter o t → s.granted n = false

variable {s : State} {l d : Nat → List Nat} {loc : Nat → Loc} {n o g : Nat}

attribute [local grind =] Function.update_apply

/-- No call of `grant_all_locked` is about to read the link of node `n` as that of the wait it granted. -/
def NotSeen (s : State) (n : Nat) : Prop :=
  ∀ g o, (s.granter g).pc = .advance o n → s.waits n ≠ (s.granter g).seen

theorem unreturned_iff {G : Granter} : unreturned s G n = true ↔ s.waits n = G.seen ∧ s.call n ≠ .idle := by
  simp [unreturned]

/-- A call of `grant_all_locked` is not disturbed by a step that changes
neither the nodes it has left nor the link it reads next. -/
theorem GranterOk.congr {s' : State} {G : Granter} {d : List Nat} (h : GranterOk s G d)
    (hd : ∀ a ∈ d, s'.next a = s.next a ∧ s'.handle a = s.handle a)
    (ha : ∀ o n, G.pc = .advance o n → unreturned s' G n = true →
      unreturned s G n = true ∧ s'.next n = s.next n) :
    GranterOk s' G d := by
  have hm : d.map s'.handle = d.map s.handle := List.map_congr_left fun a h => (hd a h).2
  have hf : Filling s G d → Filling s' G d := fun h => { h with waiters := hm ▸ h.waiters }
  have hm' : d.map (some ∘ s'.handle) = d.map (some ∘ s.handle) :=
    List.map_congr_left fun a h => by simp [(hd a h).2]
  have hc : ∀ {p}, IsChain s.next p d → IsChain s'.next p d := fun h => h.congr fun a h => (hd a h).1
  unfold GranterOk at h ⊢
  cases hpc : G.pc with
  | idle | unpark => simpa only [hpc] using h
  | grant o p =>
    simp only [hpc] at h ⊢
    exact ⟨hc h.1, hf h.2⟩
  | grantLocked o p | unparkLocked o _ p =>
    simp only [hpc, hm'] at h ⊢
    exact ⟨hc h.1, h.2⟩
  | advance o n =>
    simp only [hpc] at h ⊢
    refine ⟨fun hw => ?_, hf h.2⟩
    obtain ⟨hw, hn⟩ := ha o n hpc hw
    rw [hn]
    exact hc (h.1 hw)

/-- What was detached has been granted, or is left to grant. -/
theorem GranterOk.nodes {G : Granter} {d : List Nat} (h : GranterOk s G d) : G.nodes = G.grants ++ d := by
  unfold GranterOk at h
  cases hpc : G.pc with
  | idle =>
    simp only [hpc] at h
    obtain ⟨hd, hn, -⟩ := h
    simp [hd, hn]
  | unpark i =>
    simp only [hpc] at h
    obtain ⟨hd, hu⟩ := h
    simp [hd, hu.nodes]
  | grant | advance =>
    simp only [hpc] at h
    exact h.2.nodes
  | grantLocked | unparkLocked =>
    simp only [hpc] at h
    obtain ⟨-, hn, -⟩ := h
    exact hn

/-- Thread `g` alone moves on. -/
theorem granterOk_update {s' : State} {G : Granter} {d' : List Nat}
    (h : ∀ g, GranterOk s (s.granter g) (d g)) (hG : GranterOk s G d')
    (hs : s'.next = s.next ∧ s'.handle = s.handle ∧ s'.waits = s.waits ∧ s'.call = s.call) (g' : Nat) :
    GranterOk s' (Function.update s.granter g G g') (Function.update d g d' g') := by
  have hc : ∀ {G d}, GranterOk s G d → GranterOk s' G d := fun hG =>
    hG.congr (fun _ _ => by simp [hs]) fun _ _ _ e => by simpa [hs, unreturned_iff] using e
  by_cases e : g' = g
  · subst e
    rw [Function.update_self, Function.update_self]
    exact hc hG
  · rw [Function.update_of_ne e, Function.update_of_ne e]
    exact hc (h g')

theorem Inv.free_of_idle (h : Inv s l d loc) (hc : (s.call n).on = none) : loc n = .free := by
  cases hl : loc n with
  | free => rfl
  | queued o => exact absurd (h.queued o n hl).1 (by simp [hc])
  | detached g =>
    obtain ⟨-, hn, -⟩ := h.detached g n hl
    exact absurd hc hn

/-- A node that is linked is the node of a call that has not returned. -/
theorem Inv.call_ne_idle (h : Inv s l d loc) (hl : loc n ≠ .free) : s.call n ≠ .idle := fun e =>
  hl (h.free_of_idle (by simp [e, Call.on]))

/-- A node not granted is not the one a call of `grant_all_locked` granted last. -/
theorem Inv.notSeen (h : Inv s l d loc) (hg : s.granted n = false) (hc : s.call n ≠ .idle) : NotSeen s n := by
  intro g o hp hw
  have := ((h.seen g o n hp).2 (unreturned_iff.mpr ⟨hw, hc⟩)).2
  simp [hg] at this

/-- A wait call moves on, without a change to any queue. -/
theorem Inv.setCall (h : Inv s l d loc) {c : Call} (hc : loc n = .free ∨ c.on = (s.call n).on)
    (he : ∀ o t, c = .enter o t → s.granted n = false) (hs : s.call n ≠ .idle ∨ NotSeen s n) :
    Inv (setCall s n c) l d loc := by
  -- a node that is linked stays on its object
  have hon : ∀ a, loc a ≠ .free → ((GtWait.setCall s n c).call a).on = (s.call a).on := by
    intro a ha
    rcases eq_or_ne a n with rfl | hne
    · simpa [GtWait.setCall] using hc.resolve_left ha
    · simp [GtWait.setCall, hne]
  -- and no call that returned is taken for one that has not
  have hu : ∀ g o a, (s.granter g).pc = .advance o a →
      unreturned (GtWait.setCall s n c) (s.granter g) a = true → unreturned s (s.granter g) a = true := by
    intro g o a hp hu
    obtain ⟨hw, hi⟩ := unreturned_iff.mp hu
    refine unreturned_iff.mpr ⟨hw, ?_⟩
    rcases eq_or_ne a n with rfl | hne
    · exact hs.resolve_right fun hn => hn g o hp hw
    · simpa [GtWait.setCall, hne] using hi
  exact { h with
    repr := h.repr
    queued := fun o a ha => by
      rw [hon a (by simp [ha])]
      exact h.queued o a ha
    detached := fun g a ha => by
      rw [hon a (by simp [ha])]
      exact h.detached g a ha
    ok := fun g => (h.ok g).congr (fun _ _ => ⟨rfl, rfl⟩) fun o a hp hw => ⟨hu g o a hp hw, rfl⟩
    seen := fun g o a hp => ⟨(h.seen g o a hp).1, fun hw => (h.seen g o a hp).2 (hu g o a hp hw)⟩
    fresh := fun a o t hc' => by
      rcases eq_or_ne a n with rfl | hne
      · exact he o t (by simpa [GtWait.setCall] using hc')
      · exact h.fresh a o t (by simpa [GtWait.setCall, hne] using hc') }

/-- Other data is stored where no call's node is. -/
theorem Inv.overwrite (h : Inv s l d loc) (hi : s.call n = .idle) (k : Nat) (p : Option Nat) (b : Bool) :
    Inv (overwrite s n k p b) l d loc := by
  have hne : ∀ a, loc a ≠ .free → a ≠ n := fun a ha e => h.call_ne_idle (e ▸ ha) hi
  have hne' : ∀ G a, unreturned (GtWait.overwrite s n k p b) G a = true → a ≠ n := fun G a hu e =>
    (unreturned_iff.mp hu).2 (e ▸ hi)
  exact { h with
    repr := fun o => (h.repr o).congr rfl rfl fun a ha => by
      simp [links, GtWait.overwrite, hne a (by simp [(h.inQueue o a).mp ha])]
    queued := fun o a ha => by
      simpa [GtWait.overwrite, hne a (by simp [ha])] using h.queued o a ha
    detached := fun g a ha => by
      simpa [GtWait.overwrite, hne a (by simp [ha])] using h.detached g a ha
    ok := fun g => (h.ok g).congr
      (fun a ha => by simp [GtWait.overwrite, hne a (by simp [(h.inDetached g a).mp ha])])
      fun o a hp hu => ⟨hu, by simp [GtWait.overwrite, hne' _ a hu]⟩
    seen := fun g o a hp => ⟨(h.seen g o a hp).1, fun hu => by
      simpa [GtWait.overwrite, hne' _ a hu] using (h.seen g o a hp).2 hu⟩
    fresh := fun a o t hc => by
      have hne : a ≠ n := fun e => by simp [← e, show s.call a = .enter o t from hc] at hi
      simpa [GtWait.overwrite, hne] using h.fresh a o t hc }

/-- One more wait begins with node `n`. -/
theorem Inv.begin (h : Inv s l d loc) (n : Nat) (hi : s.call n = .idle) :
    Inv { s with waits := Function.update s.waits n (s.waits n + 1) } l d loc ∧
      NotSeen { s with waits := Function.update s.waits n (s.waits n + 1) } n := by
  have hu : ∀ G a, unreturned { s with waits := Function.update s.waits n (s.waits n + 1) } G a = true →
      unreturned s G a = true := by
    intro G a hu
    obtain ⟨hw, hc⟩ := unreturned_iff.mp hu
    have hne : a ≠ n := fun e => hc (e ▸ hi)
    exact unreturned_iff.mpr ⟨by simpa [hne] using hw, hc⟩
  refine ⟨{ h with
    ok := fun g => (h.ok g).congr (fun _ _ => ⟨rfl, rfl⟩) fun o a hp hw => ⟨hu _ a hw, rfl⟩
    seen := fun g o a hp => ⟨?_, fun hw => (h.seen g o a hp).2 (hu _ a hw)⟩ }, fun g o hp => ?_⟩
  · have := (h.seen g o a hp).1
    rcases eq_or_ne a n with rfl | hne
    · simp only [Function.update_self]
      omega
    · simpa [hne] using this
  · have := (h.seen g o n hp).1
    simp only [Function.update_self]
    omega

/-- A wait call that begins. -/
theorem Inv.initNode (h : Inv s l d loc) (hi : s.call n = .idle) (k : Nat) :
    Inv (initNode s n k) l d loc ∧ NotSeen (GtWait.initNode s n k) n :=
  (h.overwrite hi k none false).begin n hi

/-- The queue of `o` becomes `l'`; node `n` enters or leaves it. -/
theorem Inv.relink (h : Inv s l d loc) {q : Links Nat} {l' : List Nat} {x : Loc} {c : Call} {b : Bool}
    (hq : q.Repr l') (hn : loc n = .free ∨ loc n = .queued o) (hx : x = .free ∨ x = .queued o)
    (hl : ∀ a, a ∈ l' ↔ a ≠ n ∧ a ∈ l o ∨ a = n ∧ x = .queued o)
    (hnext : ∀ a, a ∉ l o → a ≠ n → q.next a = s.next a)
    (hc : x = .queued o → c.on = some o ∧ b = false) (he : ∀ o t, c ≠ .enter o t) (hs : NotSeen s n) :
    Inv { GtWait.setLinks s o q with
      call := Function.update s.call n c
      granted := Function.update s.granted n b } (Function.update l o l') d (Function.update loc n x) := by
  have hd : ∀ {a}, (∃ g, loc a = .detached g) → a ≠ n := by
    rintro a ⟨g, ha⟩ rfl
    rcases hn with hn | hn <;> simp [hn] at ha
  -- the loop of a granting thread is at another node
  have hu : ∀ g o' a, (s.granter g).pc = .advance o' a → unreturned { GtWait.setLinks s o q with
      call := Function.update s.call n c
      granted := Function.update s.granted n b } (s.granter g) a = true →
      a ≠ n ∧ unreturned s (s.granter g) a = true := by
    intro g o' a hp hu
    obtain ⟨hw, hi⟩ := unreturned_iff.mp hu
    have hne : a ≠ n := fun e => hs g o' (e ▸ hp) (e ▸ hw)
    exact ⟨hne, unreturned_iff.mpr ⟨hw, by simpa [hne] using hi⟩⟩
  exact { h with
    repr := fun o' => by
      by_cases e : o' = o
      · subst e
        simpa [links, setLinks] using hq
      · rw [Function.update_of_ne e]
        refine (h.repr o').congr (by simp [links, setLinks, e]) (by simp [links, setLinks, e]) fun a ha => ?_
        have ha := (h.inQueue o' a).mp ha
        refine hnext a (fun hm => ?_) ?_
        · simp [(h.inQueue o a).mp hm, Ne.symm e] at ha
        · rintro rfl
          rcases hn with hn | hn <;> simp [hn, Ne.symm e] at ha
    inQueue := fun o' a => by
      have := h.inQueue o' a
      have := hl a
      grind -linarith
    inDetached := fun g a => by
      have := h.inDetached g a
      grind -linarith
    queued := fun o' a ha => by
      have := h.queued o' a
      grind -linarith
    detached := fun g a ha => by
      have := h.detached g a
      grind -linarith
    ok := fun g => (h.ok g).congr
      (fun a ha => by
        have ha := (h.inDetached g a).mp ha
        refine ⟨hnext a (fun hm => ?_) (hd ⟨g, ha⟩), rfl⟩
        simp [(h.inQueue o a).mp hm] at ha)
      fun o' a hp hw => by
        obtain ⟨hne, hw⟩ := hu g o' a hp hw
        have hf := ((h.seen g o' a hp).2 hw).1
        exact ⟨hw, hnext a (fun hm => by simp [(h.inQueue o a).mp hm] at hf) hne⟩
    seen := fun g o' a hp => ⟨(h.seen g o' a hp).1, fun hw => by
      obtain ⟨hne, hw⟩ := hu g o' a hp hw
      simpa [hne] using (h.seen g o' a hp).2 hw⟩
    fresh := fun a o' t hc => by
      have := h.fresh a o' t
      have := he o' t
      grind -linarith }

/-- Some lists and places of the nodes satisfy the invariant. -/
def Sound (s : State) : Prop := ∃ l d loc, Inv s l d loc

theorem Inv.push (h : Inv s l d loc) {c : Call} (hf : loc n = .free) (hc : c.on = some o)
    (hg : s.granted n = false) (hs : NotSeen s n) : Sound (GtWait.setCall (queuePush s o n) n c) := by
  have hnl : n ∉ l o := fun hm => by simp [(h.inQueue o n).mp hm] at hf
  have hq := (h.repr o).push hnl
  have hl : ∀ a, a ∈ l o ++ [n] ↔ a ≠ n ∧ a ∈ l o ∨ a = n ∧ Loc.queued o = .queued o := by
    grind -linarith
  have hr := h.relink (n := n) (o := o) (x := .queued o) (c := c) (b := false) hq (.inl hf) (.inr rfl) hl
    (fun a ha hne => Links.push_next_of_ne hne fun ht => ha ?_) (fun _ => ⟨hc, rfl⟩)
    (fun _ _ e => by simp [e, Call.on] at hc) hs
  · rw [← hg, Function.update_eq_self] at hr
    exact ⟨_, _, _, hr⟩
  · exact List.mem_of_getLast? ((h.repr o).tail ▸ ht)

theorem Inv.remove (h : Inv s l d loc) {s' : State} {c : Call} {f : Nat} (hn : loc n = .free ∨ loc n = .queued o)
    (he : ∀ o t, c ≠ .enter o t) (hg : s.granted n = false) (hs : NotSeen s n)
    (hr : queueRemove s o n f = some s') : Sound (GtWait.setCall s' n c) := by
  obtain ⟨⟨b, q⟩, hq, rfl⟩ := Option.map_eq_some_iff.mp hr
  obtain ⟨-, hq, hnext⟩ := (h.repr o).remove hq
  have hr := h.relink (n := n) (o := o) (x := .free) (c := c) (b := false) hq hn (.inl rfl)
    (fun a => by simp [(h.repr o).nodup.mem_erase_iff]) (fun a ha _ => hnext a ha) (by simp) he hs
  rw [← hg, Function.update_eq_self] at hr
  exact ⟨_, _, _, hr⟩

/-- A push that is taken back. -/
theorem Inv.pushRemove (h : Inv s l d loc) {b : Bool} {q : Links Nat} {f : Nat} (hf : loc n = .free)
    (hg : s.granted n = false) (hs : NotSeen s n)
    (hq : (links (queuePush s o n) o).remove n f = some (b, q)) :
    Sound (GtWait.setCall (setLinks (queuePush s o n) o q) n .idle) := by
  have hnl : n ∉ l o := fun hm => by simp [(h.inQueue o n).mp hm] at hf
  have hp := (h.repr o).push hnl
  have hql : links (queuePush s o n) o = (links s o).push n := by simp [links, queuePush, setLinks]
  rw [hql] at hq
  obtain ⟨-, hq, hnext⟩ := hp.remove hq
  rw [List.erase_append_right _ hnl, List.erase_cons_head, List.append_nil] at hq
  have hr := h.relink (n := n) (o := o) (x := .free) (c := .idle) (b := false) hq (.inl hf) (.inl rfl)
    (fun a => by grind -linarith) (fun a ha hne => ?_) (by simp) (by simp) hs
  · rw [← hg, Function.update_eq_self] at hr
    rw [show setLinks (queuePush s o n) o q = setLinks s o q by simp [queuePush, setLinks]]
    exact ⟨_, _, _, hr⟩
  · rw [hnext a (by simp [ha, hne])]
    exact Links.push_next_of_ne hne fun ht => ha (List.mem_of_getLast? ((h.repr o).tail ▸ ht))

theorem Inv.wait (h : Inv s l d loc) {s' : State} {k : Nat} {timed : Bool} (hc : s.call n = .idle)
    (hw : GtWait.wait s n k o timed = some s') : Sound s' := by
  have hf : loc n = .free := h.free_of_idle (by simp [hc, Call.on])
  obtain ⟨hi, hs⟩ := h.initNode hc k
  have hg : (GtWait.initNode s n k).granted n = false := by simp [GtWait.initNode]
  unfold GtWait.wait at hw
  split at hw
  · cases hw
    exact ⟨_, _, _, hi.setCall (.inl hf) (fun _ _ _ => hg) (.inr hs)⟩
  · cases hw
    exact ⟨_, _, _, hi.setCall (.inl hf) (fun _ _ _ => hg) (.inr hs)⟩
  · split at hw
    · cases hw
    · split at hw
      · cases hw
        exact ⟨_, _, _, h⟩
      · cases hw
        exact hi.push hf rfl hg hs

theorem Inv.enter (h : Inv s l d loc) {s' : State} {timed b : Bool} {f : Nat} (hc : s.call n = .enter o timed)
    (he : GtWait.enter s n o timed b f = some s') : Sound s' := by
  have hf : loc n = .free := h.free_of_idle (by simp [hc, Call.on])
  have hg := h.fresh n o timed hc
  have hi : s.call n ≠ .idle := by simp [hc]
  have hs := h.notSeen hg hi
  unfold GtWait.enter at he
  split at he
  · cases he
  · split at he
    · split at he
      · cases he
        exact ⟨_, _, _, h.setCall (.inl hf) (by simp) (.inl hi)⟩
      · cases he
        exact h.push hf rfl hg hs
    · split at he
      · cases he
        exact h.push hf (by split <;> rfl) hg hs
      · -- the mutex could not be unlocked: the node is pushed and removed again
        obtain ⟨s₁, hr, rfl⟩ := Option.map_eq_some_iff.mp he
        obtain ⟨⟨b, q⟩, hq, rfl⟩ := Option.map_eq_some_iff.mp hr
        exact h.pushRemove hf hg hs hq

theorem resumed_ne_enter (s : State) (o p : Nat) (t : Bool) : resumed s o ≠ .enter p t := by
  unfold resumed
  split <;> simp

theorem Inv.free_of_granted (h : Inv s l d loc) (hg : s.granted n = true) : loc n = .free := by
  cases hl : loc n with
  | free => rfl
  | queued o => simp [(h.queued o n hl).2] at hg
  | detached g =>
    obtain ⟨-, -, hf⟩ := h.detached g n hl
    simp [hf] at hg

theorem Inv.check (h : Inv s l d loc) {s' : State} {ok : Bool} {f : Nat} (hc : s.call n = .check o ok)
    (he : GtWait.check s n o ok f = some s') : Sound s' := by
  unfold GtWait.check at he
  have hon : (s.call n).on = some o := by simp [hc, Call.on]
  have hi : s.call n ≠ .idle := by simp [hc]
  split at he
  · cases he
  case _ hq =>
    split at he
    case _ hg =>
      cases he
      exact ⟨_, _, _, h.setCall (.inl (h.free_of_granted hg))
        (fun p t e => absurd e (resumed_ne_enter s o p t)) (.inl hi)⟩
    case _ hg =>
      have hg : s.granted n = false := by simpa using hg
      split at he
      · obtain ⟨s₁, hr, rfl⟩ := Option.map_eq_some_iff.mp he
        refine h.remove ?_ (resumed_ne_enter _ o) hg (h.notSeen hg hi) hr
        cases hl : loc n with
        | free => exact .inl rfl
        | queued o' =>
          obtain rfl : o' = o := by simpa [hon] using ((h.queued o' n hl).1).symm
          exact .inr rfl
        | detached g =>
          -- a detached node's object is locked until the node is granted
          exact absurd (h.qlock g o ((h.detached g n hl).1.symm.trans hon)) hq
      · cases he
        exact ⟨_, _, _, h.setCall (.inr hon.symm) (by simp) (.inl hi)⟩

theorem Inv.signal (h : Inv s l d loc) {s' : State} (he : GtWait.signal s o = some s') : Sound s' := by
  unfold GtWait.signal at he
  split at he
  · cases he
  · have hq := h.repr o
    cases hl : l o with
    | nil =>
      rw [hl] at hq
      simp only [hq.pop_nil, Option.some.injEq] at he
      exact ⟨l, d, loc, he ▸ h⟩
    | cons n l' =>
      rw [hl] at hq
      obtain ⟨q', hp, hq', hnext⟩ := hq.pop_cons
      simp only [hp, Option.some.injEq] at he
      subst he
      have hn : loc n = .queued o := (h.inQueue o n).mp (hl ▸ List.mem_cons_self)
      have hnd := List.nodup_cons.mp hq.nodup
      have hr := h.relink (n := n) (o := o) (x := .free) (c := s.call n) (b := true) hq' (.inr hn) (.inl rfl)
        (fun a => by grind -linarith) (fun a _ hne => hnext a hne) (by simp) (fun p t e => ?_)
        (h.notSeen (h.queued o n hn).2 (h.call_ne_idle (by simp [hn])))
      · rw [Function.update_eq_self] at hr
        exact ⟨_, _, _, hr⟩
      · have := (h.queued o n hn).1
        simp [e, Call.on] at this

/-- The counting loop visits the queue. -/
theorem walk_eq {nx : Nat → Option Nat} {p : Option Nat} {k m : List Nat} (h : IsChain nx p k) {f : Nat}
    (hw : walk nx f p = some m) : m = k := by
  induction f generalizing p k m with
  | zero => cases hw
  | succ f ih =>
    cases k with
    | nil =>
      obtain rfl := IsChain.nil_iff.mp h
      simpa [walk] using hw.symm
    | cons a k =>
      obtain ⟨rfl, hc⟩ := IsChain.cons_iff.mp h
      obtain ⟨m', hm, rfl⟩ := Option.map_eq_some_iff.mp hw
      rw [ih hc hm]

theorem walk_total {nx : Nat → Option Nat} {p : Option Nat} {k : List Nat} (h : IsChain nx p k) {f : Nat}
    (hf : k.length < f) : walk nx f p = some k := by
  induction f generalizing p k with
  | zero => omega
  | succ f ih =>
    cases k with
    | nil =>
      obtain rfl := IsChain.nil_iff.mp h
      rfl
    | cons a k =>
      obtain ⟨rfl, hc⟩ := IsChain.cons_iff.mp h
      simp [walk, ih hc (by simpa using hf)]

/-- The queue is detached, and its nodes become the ones `g` has to grant. -/
theorem Inv.detach (h : Inv s l d loc) (hi : (s.granter g).pc = .idle) (hq : s.qlock o = false) {G : Granter}
    (hG : GranterOk s G (l o)) (hp : G.pc.obj = some o) (ha : ∀ o' n, G.pc ≠ .advance o' n)
    (hn : G.nodes = l o) (hl : G.waiters.length = G.nodes.length) :
    Inv { s with
      qlock := Function.update s.qlock o true
      head := Function.update s.head o none
      tail := Function.update s.tail o none
      granter := Function.update s.granter g G }
      (Function.update l o []) (Function.update d g (l o)) (fun n => if n ∈ l o then .detached g else loc n) := by
  have hd : d g = [] := by
    have := h.ok g
    simp only [GranterOk, hi] at this
    exact this.1
  have hd' : ∀ n, loc n ≠ .detached g := fun n => by simp [← h.inDetached, hd]
  have hnd := (h.repr o).nodup
  -- no thread holds `qlock` of `o`
  have hfree : ∀ g', (s.granter g').pc.obj ≠ some o := fun g' e => by simp [h.qlock g' o e] at hq
  have hu : ∀ g' o' a, (Function.update s.granter g G g').pc = .advance o' a →
      g' ≠ g ∧ (s.granter g').pc = .advance o' a := by
    intro g' o' a hp'
    rcases eq_or_ne g' g with rfl | hne
    · exact absurd (by simpa using hp') (ha o' a)
    · exact ⟨hne, by simpa [hne] using hp'⟩
  exact { h with
    repr := fun o' => by
      by_cases e : o' = o
      · subst e
        rw [Function.update_self]
        exact ⟨by simp [links], by simp [links]⟩
      · rw [Function.update_of_ne e]
        exact (h.repr o').congr (by simp [links, e]) (by simp [links, e]) fun _ _ => rfl
    inQueue := fun o' a => by
      have := h.inQueue o' a
      have := h.inQueue o a
      grind -linarith
    inDetached := fun g' a => by
      have := h.inDetached g' a
      have := h.inQueue o a
      have := hd' a
      grind -linarith
    queued := fun o' a ha => by
      have := h.queued o' a
      grind -linarith
    detached := fun g' a ha => by
      have := h.detached g' a
      have := h.queued o a
      have := h.inQueue o a
      have := hd' a
      grind -linarith
    qlock := fun g' o' ho => by
      have := h.qlock g' o'
      grind -linarith
    holder := fun g' g'' o' ho ho' => by
      have := h.holder g' g'' o'
      have := hfree g'
      have := hfree g''
      grind -linarith
    ok := granterOk_update h.ok hG ⟨rfl, rfl, rfl, rfl⟩
    nodup := fun g' => by
      have := h.nodup g'
      grind -linarith
    seen := fun g' o' a hp' => by
      obtain ⟨hne, hp'⟩ := hu g' o' a hp'
      obtain ⟨hw, hr⟩ := h.seen g' o' a hp'
      simp only [Function.update_of_ne hne]
      refine ⟨hw, fun hu => ?_⟩
      obtain ⟨hl', hg'⟩ := hr hu
      have hm : a ∉ l o := fun hm => by simp [(h.inQueue o a).mp hm] at hl'
      exact ⟨by simp [hm, hl'], hg'⟩ }

theorem Inv.grantAllLocked (h : Inv s l d loc) {s' : State} {b : Bool} {f : Nat}
    (hi : (s.granter g).pc = .idle) (hq : s.qlock o = false) (he : GtWait.grantAllLocked s g o b f = some s') :
    Sound s' ∧ (s'.granter g).nodes = l o ∧ (s'.granter g).waiters = (l o).map s.handle := by
  obtain ⟨m, hw, rfl⟩ := Option.map_eq_some_iff.mp he
  obtain rfl := walk_eq (h.repr o).chain hw
  have hch : IsChain s.next (s.head o) (l o) := (h.repr o).chain
  refine ⟨⟨_, _, _, h.detach hi hq ?_ ?_ ?_ rfl (List.length_map _)⟩, by simp, by simp⟩
  · by_cases hp : (decide ((l o).length ≠ 0 ∧ (l o).length ≤ sizeMax / 8) && b) = true ∨ (l o).length = 0
    · simp only [GranterOk, if_pos hp]
      exact ⟨hch, { nodes := rfl, waiters := rfl, unparks := rfl, count := rfl }⟩
    · simp only [GranterOk, if_neg hp]
      exact ⟨hch, by simp⟩
  · dsimp only
    split <;> rfl
  · intro o' n
    dsimp only
    split <;> simp

/-- A step of `grant_all_locked` in thread `g`, which stores `granted` in the
nodes of `m` and has `r` left to grant after it. -/
theorem Inv.advance (h : Inv s l d loc) {G : Granter} {m r : List Nat} {k gr : Nat → Bool} (hm : d g = m ++ r)
    (hk : ∀ g' o, (Function.update s.granter g G g').pc.obj = some o → k o = true)
    (ho : G.pc.obj = (s.granter g).pc.obj ∨ G.pc.obj = none ∧ r = [])
    (hg : ∀ n, gr n = if n ∈ m then true else s.granted n)
    (hG : GranterOk s G r) (hn : G.nodes = (s.granter g).nodes) (hw : G.waiters = (s.granter g).waiters)
    (hs : ∀ o n, G.pc = .advance o n → G.seen = s.waits n ∧ n ∈ m) (hnd : (m ++ r).Nodup) :
    Inv { s with qlock := k, granted := gr, granter := Function.update s.granter g G }
      l (Function.update d g r) (fun n => if n ∈ m then .free else loc n) := by
  have hmd : ∀ a, loc a = .detached g ↔ a ∈ m ∨ a ∈ r := fun a => by
    rw [← h.inDetached g a, hm, List.mem_append]
  obtain ⟨-, -, hdis⟩ := List.nodup_append.mp hnd
  have hobj : ∀ g' o, (Function.update s.granter g G g').pc.obj = some o → (s.granter g').pc.obj = some o := by
    grind -linarith
  exact { h with
    inQueue := fun o a => by
      have := h.inQueue o a
      have := hmd a
      grind -linarith
    inDetached := fun g' a => by
      have := h.inDetached g' a
      have := hmd a
      have := hdis a
      grind -linarith
    queued := fun o a ha => by
      have := h.queued o a
      grind -linarith
    detached := fun g' a ha => by
      have := h.detached g' a
      have := hmd a
      grind -linarith
    qlock := hk
    holder := fun g' g'' o ho ho' => h.holder g' g'' o (hobj g' o ho) (hobj g'' o ho')
    ok := granterOk_update h.ok hG ⟨rfl, rfl, rfl, rfl⟩
    nodup := fun g' => by
      have := h.nodup g'
      grind -linarith
    seen := fun g' o a hp => by
      rcases eq_or_ne g' g with rfl | hne
      · simp only [Function.update_self] at hp ⊢
        obtain ⟨hw, ha⟩ := hs o a hp
        exact ⟨Nat.le_of_eq hw, fun _ => by simp [ha, hg]⟩
      · simp only [Function.update_of_ne hne] at hp ⊢
        refine ⟨(h.seen g' o a hp).1, fun hu => ?_⟩
        obtain ⟨hl, ha⟩ := (h.seen g' o a hp).2 hu
        simp [hl, hg, ha]
    fresh := fun a o t hc => by
      -- a node still to be granted is queued, so its call is past `enter`
      have ha : a ∉ m := fun ha => by
        obtain ⟨-, hn, -⟩ := h.detached g a ((hmd a).mpr (.inl ha))
        exact hn (by simp [show s.call a = .enter o t from hc, Call.on])
      simpa [hg, ha] using h.fresh a o t hc }

theorem Inv.grantStep (h : Inv s l d loc) {s' : State} (hu : linkLives s (.next g) = true)
    (he : GtWait.grantStep s g = some s') : Sound s' := by
  have hok := h.ok g
  obtain ⟨-, hnd, -⟩ := List.nodup_append.mp (hok.nodes ▸ (h.nodup g).1)
  have hk : ∀ {G : Granter}, G.pc.obj = (s.granter g).pc.obj →
      ∀ g' o, (Function.update s.granter g G g').pc.obj = some o → s.qlock o = true := by
    intro G hG g' o ho
    by_cases e : g' = g
    · subst e
      rw [Function.update_self, hG] at ho
      exact h.qlock g' o ho
    · rw [Function.update_of_ne e] at ho
      exact h.qlock g' o ho
  -- `qlock` of `o` is released
  have hr : ∀ {G : Granter} {o : Nat}, (s.granter g).pc.obj = some o → G.pc.obj = none →
      ∀ g' o', (Function.update s.granter g G g').pc.obj = some o' → Function.update s.qlock o false o' = true := by
    intro G o hg hG g' o' ho
    have := h.qlock g' o'
    have := h.holder g g' o
    grind -linarith
  unfold GtWait.grantStep at he
  unfold GranterOk at hok
  cases hpc : (s.granter g).pc with
  | idle => simp [hpc] at he
  | grant o p =>
    simp only [hpc] at he hok
    obtain ⟨hc, hf⟩ := hok
    cases p with
    | none =>
      simp only [Option.some.injEq] at he
      subst he
      have hd := IsChain.none_iff.mp hc
      refine ⟨_, _, _, h.advance (m := []) (r := []) (by simp [hd]) (hr (by simp [hpc, Pc.obj]) rfl)
        (.inr ⟨rfl, rfl⟩) (by simp) ?_ rfl rfl (by simp) (by simp)⟩
      exact ⟨rfl, {
        nodes := by simpa [hd] using hf.nodes
        waiters := by simpa [hd] using hf.waiters
        count := hf.count
        index := Nat.zero_le _
        unparks := hf.unparks }⟩
    | some n =>
      obtain ⟨d', hd, hc⟩ := IsChain.some_iff.mp hc
      simp only [Option.some.injEq] at he
      subst he
      refine ⟨_, _, _, h.advance (m := [n]) (r := d') (by simp [hd]) (hk (by simp [hpc, Pc.obj]))
        (.inl (by simp [hpc, Pc.obj])) (by simp [Function.update_apply]) ?_ rfl rfl ?_ (by simpa [hd] using hnd)⟩
      · exact ⟨fun _ => hc, {
          nodes := by simp [hf.nodes, hd]
          waiters := by simp [hf.waiters, hd]
          unparks := hf.unparks
          count := hf.count }⟩
      · simp
  | advance o n =>
    simp only [hpc, Option.some.injEq] at he hok
    subst he
    simp only [linkLives, hpc] at hu
    obtain ⟨hc, hf⟩ := hok
    refine ⟨_, _, _, h.advance (m := []) (r := d g) rfl (hk (by simp [hpc, Pc.obj])) (.inl (by simp [hpc, Pc.obj]))
      (by simp) ?_ rfl rfl (by simp) hnd⟩
    exact ⟨hc hu, { hf with nodes := hf.nodes }⟩
  | unpark i =>
    simp only [hpc] at he hok
    obtain ⟨hd, hf⟩ := hok
    have hlen : (s.granter g).waiters.length = (s.granter g).count := (h.nodup g).2.trans hf.count.symm
    split at he
    case _ hlt =>
      simp only [Option.some.injEq] at he
      subst he
      refine ⟨_, _, _, h.advance (m := []) (r := []) (by simp [hd]) (hk (by simp [hpc, Pc.obj])) (.inr ⟨rfl, rfl⟩)
        (by simp) ?_ rfl rfl (by simp) (by simp)⟩
      have hlt' : i < (s.granter g).handles.length := by rw [← hf.waiters, hlen]; exact hlt
      exact ⟨rfl, { hf with
        index := hlt
        unparks := by
          simp only [hf.unparks, hf.waiters, List.take_add_one, List.map_append, List.getElem?_eq_getElem hlt',
            Option.toList_some, List.map_cons, List.map_nil] }⟩
    case _ hge =>
      simp only [Option.some.injEq] at he
      subst he
      refine ⟨_, _, _, h.advance (m := []) (r := []) (by simp [hd]) (hk (by simp [hpc, Pc.obj])) (.inr ⟨rfl, rfl⟩)
        (by simp) ?_ rfl rfl (by simp) (by simp)⟩
      refine ⟨rfl, hf.nodes, ?_⟩
      rw [hf.unparks, List.take_of_length_le (by omega)]
  | grantLocked o p =>
    simp only [hpc] at he hok
    obtain ⟨hc, hn, hw⟩ := hok
    cases p with
    | none =>
      simp only [Option.some.injEq] at he
      subst he
      have hd := IsChain.none_iff.mp hc
      refine ⟨_, _, _, h.advance (m := []) (r := []) (by simp [hd]) (hr (by simp [hpc, Pc.obj]) rfl)
        (.inr ⟨rfl, rfl⟩) (by simp) ?_ rfl rfl (by simp) (by simp)⟩
      refine ⟨rfl, by simpa [hd] using hn, by simpa [hd] using hw.symm⟩
    | some n =>
      obtain ⟨d', hd, hc⟩ := IsChain.some_iff.mp hc
      simp only [Option.some.injEq] at he
      subst he
      refine ⟨_, _, _, h.advance (m := [n]) (r := d') (by simp [hd]) (hk (by simp [hpc, Pc.obj]))
        (.inl (by simp [hpc, Pc.obj])) (by simp [Function.update_apply]) ?_ rfl rfl (by simp)
        (by simpa [hd] using hnd)⟩
      exact ⟨hc, by simp [hn, hd], by simp [hw, hd]⟩
  | unparkLocked o k p =>
    simp only [hpc, Option.some.injEq] at he hok
    subst he
    obtain ⟨hc, hn, hw⟩ := hok
    refine ⟨_, _, _, h.advance (m := []) (r := d g) rfl (hk (by simp [hpc, Pc.obj])) (.inl (by simp [hpc, Pc.obj]))
      (by simp) ?_ rfl rfl (by simp) hnd⟩
    exact ⟨hc, hn, by simp [hw]⟩

/-- `signalled` and `completed` have no part in the invariant. -/
theorem Inv.setSignalled (h : Inv s l d loc) (f : Nat → Bool) : Inv { s with signalled := f } l d loc :=
  { h with
    repr := h.repr
    ok := fun g => (h.ok g).congr (fun _ _ => ⟨rfl, rfl⟩) fun _ _ _ hu => ⟨hu, rfl⟩ }

/-- What `grant_all_locked` detaches is the queue of its object. -/
theorem Inv.grantAll (h : Inv s l d loc) {s' : State} {b : Bool} {f : Nat} (hi : (s.granter g).pc = .idle)
    (he : GtWait.grantAll s g o b f = some s') :
    Sound s' ∧ (s.kind o = .completion ∧ s.signalled o = true ∧ s' = s ∨
      (s'.granter g).nodes = l o ∧ (s'.granter g).waiters = (l o).map s.handle) := by
  unfold GtWait.grantAll at he
  split at he
  · cases he
  case _ hq =>
    have hq : s.qlock o = false := by simpa using hq
    split at he
    · obtain ⟨h₁, h₂⟩ := h.grantAllLocked hi hq he
      exact ⟨h₁, .inr h₂⟩
    · obtain ⟨h₁, h₂⟩ := (h.setSignalled (Function.update s.signalled o true)).grantAllLocked hi hq he
      exact ⟨h₁, .inr h₂⟩
    case _ hk =>
      split at he
      case _ hs =>
        cases he
        exact ⟨⟨_, _, _, h⟩, .inl ⟨hk, hs, rfl⟩⟩
      case _ =>
        obtain ⟨h₁, h₂⟩ := (h.setSignalled (Function.update s.signalled o true)).grantAllLocked hi hq he
        exact ⟨h₁, .inr h₂⟩

/-- The step lemma. -/
theorem sound_step {s' : State} {a : Act} (h : Sound s) (hu : linkLives s a = true)
    (he : step s a = some s') : Sound s' := by
  obtain ⟨l, d, loc, h⟩ := h
  cases a with
  | wait n k o timed =>
    simp only [step, Option.ite_none_right_eq_some] at he
    exact h.wait he.1 he.2
  | enter n b f =>
    simp only [step] at he
    split at he
    case _ o timed hc => exact h.enter hc he
    case _ => cases he
  | poll n =>
    simp only [step] at he
    split at he
    case _ o hc =>
      split at he
      case _ hg =>
        cases he
        exact ⟨_, _, _, h.setCall (.inl (h.free_of_granted hg))
          (fun p t e => absurd e (resumed_ne_enter s o p t)) (.inl (by simp [hc]))⟩
      case _ =>
        cases he
        exact ⟨_, _, _, h⟩
    case _ => cases he
  | wake n ok =>
    simp only [step] at he
    split at he
    case _ o hc =>
      cases he
      exact ⟨_, _, _, h.setCall (.inr (by simp [hc, Call.on])) (by simp) (.inl (by simp [hc]))⟩
    case _ => cases he
  | check n f =>
    simp only [step] at he
    split at he
    case _ o ok hc => exact h.check hc he
    case _ => cases he
  | relock n =>
    simp only [step, Option.ite_none_right_eq_some, Option.some.injEq] at he
    obtain ⟨hc, rfl⟩ := he
    exact ⟨_, _, _, h.setCall (.inl (h.free_of_idle (by simp [hc, Call.on]))) (by simp) (.inl (by simp [hc]))⟩
  | overwrite n k p b =>
    simp only [step, Option.ite_none_right_eq_some, Option.some.injEq] at he
    obtain ⟨hc, rfl⟩ := he
    exact ⟨_, _, _, h.overwrite hc k p b⟩
  | signal o => exact h.signal he
  | reset o =>
    simp only [step] at he
    split at he
    · cases he
    · cases he
      exact ⟨l, d, loc, h.setSignalled _⟩
  | grantAll g o b f =>
    simp only [step, Option.ite_none_right_eq_some] at he
    exact (h.grantAll he.1 he.2).1
  | next g => exact h.grantStep hu he

theorem sound_initial (kind : Nat → Kind) (signalled : Nat → Bool) : Sound (State.initial kind signalled) := by
  refine ⟨fun _ => [], fun _ => [], fun _ => .free, ?_⟩
  refine ⟨fun o => ⟨rfl, rfl⟩, ?_, ?_, ?_, ?_, ?_, ?_, ?_, ?_, ?_, ?_⟩ <;>
    simp [State.initial, Granter.initial, Pc.obj, GranterOk]

theorem Inv.exact (h : Inv s l d loc) (g : Nat) : Exact (s.granter g) := by
  have hok := h.ok g
  obtain ⟨hnd, hlen⟩ := h.nodup g
  exact {
    nodup := hnd
    handles := hlen
    grants := hok.nodes ▸ List.prefix_append _ _
    unparks := by
      unfold GranterOk at hok
      cases hpc : (s.granter g).pc with
      | idle =>
        simp only [hpc] at hok
        obtain ⟨-, -, hun⟩ := hok
        exact hun ▸ List.prefix_rfl
      | grant | advance =>
        simp only [hpc] at hok
        simp [hok.2.unparks]
      | unpark i =>
        simp only [hpc] at hok
        rw [hok.2.unparks]
        exact (List.take_prefix _ _).map some
      | grantLocked | unparkLocked =>
        simp only [hpc] at hok
        obtain ⟨-, -, hw⟩ := hok
        exact hw ▸ List.prefix_append _ _
    visits := fun o n hpc => by
      have hn := hok.nodes
      rcases hpc with hpc | hpc
      all_goals
        simp only [GranterOk, hpc] at hok
        obtain ⟨d', hd, -⟩ := IsChain.some_iff.mp hok.1
        rw [hn, hd]
        exact ⟨d', by simp⟩
    released := fun hpc => by
      have hn := hok.nodes
      obtain ⟨i, hpc⟩ | hpc := hpc
      all_goals
        simp only [GranterOk, hpc] at hok
        simp [hn, hok.1]
    returned := fun hpc => by
      simp only [GranterOk, hpc] at hok
      obtain ⟨-, -, hun⟩ := hok
      exact hun }

/-- What `grant_all_locked` detaches when it is called next: the whole queue of
its object, of waiters not granted yet. A second `completion_complete` is
refused. -/
structure Detaches (s : State) : Prop where
  queue : ∀ g o malloc fuel s', step s (.grantAll g o malloc fuel) = some s' →
    s.kind o = .completion ∧ s.signalled o = true ∧ s' = s ∨
    (links s o).Repr (s'.granter g).nodes ∧ (s'.granter g).waiters = (s'.granter g).nodes.map s.handle ∧
      ∀ n ∈ (s'.granter g).nodes, s.granted n = false
  /-- The counting loop ends. -/
  ends : ∀ g o malloc, (s.granter g).pc = .idle → s.qlock o = false →
    ∃ f, ∀ fuel ≥ f, (step s (.grantAll g o malloc fuel)).isSome

theorem Inv.detaches (h : Inv s l d loc) : Detaches s where
  queue g o b f s' he := by
    simp only [step, Option.ite_none_right_eq_some] at he
    rcases (h.grantAll he.1 he.2).2 with hr | ⟨hn, hw⟩
    · exact .inl hr
    · refine .inr ⟨hn ▸ h.repr o, by rw [hw, hn], fun n hm => ?_⟩
      rw [hn] at hm
      exact (h.queued o n ((h.inQueue o n).mp hm)).2
  ends g o b hi hq := by
    refine ⟨(l o).length + 1, fun f hf => ?_⟩
    have hw : walk s.next f (s.head o) = some (l o) := walk_total (h.repr o).chain (by omega)
    simp only [step, hi, if_true, GtWait.grantAll, hq, Bool.false_eq_true, if_false, GtWait.grantAllLocked, hw]
    split
    · rfl
    · rfl
    · split <;> rfl

/-- In every run in which the loop of `grant_all_locked` reads the link of a
node only before its wait call returns, each call grants and unparks exactly the
waiters that were queued. -/
theorem grant_all_grants_queued (s : State) (h : machine.ReachBy (fun s a => linkLives s a = true) s) :
    (∀ g, Exact (s.granter g)) ∧ Detaches s := by
  have hs : Sound s := h.invariant
    (fun s hs => by obtain ⟨kind, signalled, rfl⟩ := hs; exact sound_initial kind signalled)
    fun _ _ _ _ hs hu he => sound_step hs hu he
  obtain ⟨l, d, loc, hi⟩ := hs
  exact ⟨hi.exact, hi.detaches⟩

/-! ## A node used again -/

/-- The next `k` steps of the call of `g`. -/
def steps (g k : Nat) : List Act := List.replicate k (.next g)

/-- Tasks 10 and 11 wait on an event. The event is set; when the first node is
granted its wait returns, and the same task waits on the event again with the
same node. -/
def reusedNode : List Act :=
  List.flatten [[.wait 0 10 7 false, .enter 0 true 1, .wait 1 11 7 false, .enter 1 true 1, .grantAll 2 7 true 3,
    .next 2, .poll 0, .wait 0 10 7 false], steps 2 5]

/-- The call is over; the second waiter was not granted and an entry of the
array that was not written was unparked. -/
def leftOut (s : State) : Bool :=
  (s.granter 2).pc == .idle && (s.granter 2).nodes == [0, 1] && (s.granter 2).grants == [0] &&
    (s.granter 2).unparks == [some 10, none]

theorem grant_all_leaves_waiter_out : ¬ ∀ s, machine.Reach s → ∀ g, Exact (s.granter g) := by
  intro hall
  obtain ⟨s, hs, hp⟩ := Machine.exists_reach_of_run (M := machine)
    (s := State.initial (fun _ => .event) fun _ => false) (l := reusedNode) (p := leftOut) ⟨_, _, rfl⟩
    (by decide +kernel)
  simp only [leftOut, Bool.and_eq_true, beq_iff_eq] at hp
  obtain ⟨⟨⟨hpc, hnodes⟩, hgrants⟩, -⟩ := hp
  have := (hall s hs 2).released (.inr hpc)
  rw [hgrants, hnodes] at this
  cases this

/-- The first waiter returns when the loop has read its link, its frame is
overwritten, and it waits again; the second is granted on the path without the
array. -/
def promptReuse : List Act :=
  List.flatten [[.wait 0 10 7 false, .enter 0 true 1, .wait 1 11 7 true, .enter 1 true 1, .grantAll 2 7 true 3,
    .next 2, .poll 0, .next 2, .relock 0, .overwrite 0 5 (some 9) true, .wait 0 10 7 false], steps 2 6,
    [.enter 0 true 1, .grantAll 3 7 false 3], steps 3 3]

theorem grant_all_grants_queued_prompt :
    ∃ s, machine.ReachBy (fun s a => linkLives s a = true) s ∧ (s.granter 2).unparks = [some 10, some 11] ∧
      (s.granter 3).grants = [0] ∧ (∀ g, Exact (s.granter g)) ∧ Detaches s := by
  obtain ⟨s, hs, hp⟩ := Machine.exists_reachBy_of_run (M := machine) (C := fun s a => linkLives s a = true)
    (c := linkLives) (fun _ _ h => h) (s := State.initial (fun _ => .condition) fun _ => false) (l := promptReuse)
    (p := fun s => (s.granter 2).unparks == [some 10, some 11] && (s.granter 3).grants == [0]) ⟨_, _, rfl⟩
    (by decide +kernel)
  simp only [Bool.and_eq_true, beq_iff_eq] at hp
  exact ⟨s, hs, hp.1, hp.2, grant_all_grants_queued s hs⟩

end Dlsmc.GtWait
