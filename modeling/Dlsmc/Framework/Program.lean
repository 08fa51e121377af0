import Mathlib.Init

/-!
# Programs with a state and faults

A program that works on a state and may run into a fault is a value of
`StateT σ (Except ε)`. `Ends m s Q` says that it ends from `s`, without a fault,
in a result and a state that meet `Q`. The rules below follow the statements of
a program; `Ends.bind` gives what is left after the first of them.

A program with loops that are given a number of rounds is a family of
programs. `Returns m s Q` says that with enough rounds it ends, always with the
same result and in the same state.
-/

namespace Dlsmc

variable {σ ε α β : Type}

/-- A program with a statement more: where each of the two parts ends. -/
theorem bind_eq_ok {m : StateT σ (Except ε) α} {f : α → StateT σ (Except ε) β} {s s'' : σ} {b : β} :
    (m >>= f) s = .ok (b, s'') ↔ ∃ a s', m s = .ok (a, s') ∧ f a s' = .ok (b, s'') := by
  show (m s >>= fun x => f x.1 x.2) = _ ↔ _
  cases m s with
  | error e =>
    constructor
    · intro h
      cases h
    · rintro ⟨_, _, h, -⟩
      cases h
  | ok x =>
    constructor
    · exact fun h => ⟨x.1, x.2, rfl, h⟩
    · rintro ⟨_, _, h, h'⟩
      cases h
      exact h'

/-- From `s`, the program ends without a fault, and as `Q` says. -/
def Ends (m : StateT σ (Except ε) α) (s : σ) (Q : α → σ → Prop) : Prop :=
  ∃ a s', m s = .ok (a, s') ∧ Q a s'

namespace Ends

variable {m : StateT σ (Except ε) α} {f : α → StateT σ (Except ε) β} {s s' : σ} {a : α} {Q R : α → σ → Prop}
  {T : β → σ → Prop}

theorem pure (h : Q a s) : Ends (Pure.pure a : StateT σ (Except ε) α) s Q := ⟨a, s, rfl, h⟩

theorem get {Q : σ → σ → Prop} (h : Q s s) : Ends (MonadState.get : StateT σ (Except ε) σ) s Q := ⟨s, s, rfl, h⟩

theorem modify {g : σ → σ} {Q : PUnit → σ → Prop} (h : Q ⟨⟩ (g s)) :
    Ends (modify g : StateT σ (Except ε) PUnit) s Q := ⟨⟨⟩, g s, rfl, h⟩

/-- A computation that only may fault. -/
theorem lift {e : Except ε α} (he : e = .ok a) (h : Q a s) :
    Ends (liftM e : StateT σ (Except ε) α) s Q := ⟨a, s, by rw [he]; rfl, h⟩

theorem mono (h : Ends m s Q) (hQ : ∀ a s', Q a s' → R a s') : Ends m s R := by
  obtain ⟨a, s', hm, hq⟩ := h
  exact ⟨a, s', hm, hQ a s' hq⟩

theorem bind (h : Ends m s fun a s' => Ends (f a) s' T) : Ends (m >>= f) s T := by
  obtain ⟨a, s', hm, b, s'', hf, ht⟩ := h
  exact ⟨b, s'', bind_eq_ok.mpr ⟨a, s', hm, hf⟩, ht⟩

/-- One statement, by what is known of it. -/
theorem seq (h : Ends m s Q) (hf : ∀ a s', Q a s' → Ends (f a) s' T) : Ends (m >>= f) s T := bind (h.mono hf)

end Ends

/-- With enough rounds for its loops, the program ends from `s` without a fault,
always with the same result, and as `Q` says. -/
def Returns (m : Nat → StateT σ (Except ε) α) (s : σ) (Q : α → σ → Prop) : Prop :=
  ∃ a s', (∃ N, ∀ n ≥ N, m n s = .ok (a, s')) ∧ Q a s'

namespace Returns

variable {m : Nat → StateT σ (Except ε) α} {f : Nat → α → StateT σ (Except ε) β} {s s' : σ} {a : α}
  {Q R : α → σ → Prop} {T : β → σ → Prop}

theorem of_ends {m : StateT σ (Except ε) α} (h : Ends m s Q) : Returns (fun _ => m) s Q := by
  obtain ⟨a, s', hm, hq⟩ := h
  exact ⟨a, s', ⟨0, fun _ _ => hm⟩, hq⟩

/-- A program that ends in the same way for every number of rounds that is
large enough. -/
theorem of_forall (N : Nat) (h : ∀ n ≥ N, Ends (m n) s fun b s'' => b = a ∧ s'' = s') (hq : Q a s') :
    Returns m s Q := by
  refine ⟨a, s', ⟨N, fun n hn => ?_⟩, hq⟩
  obtain ⟨_, _, hm, rfl, rfl⟩ := h n hn
  exact hm

theorem mono (h : Returns m s Q) (hQ : ∀ a s', Q a s' → R a s') : Returns m s R := by
  obtain ⟨a, s', hm, hq⟩ := h
  exact ⟨a, s', hm, hQ a s' hq⟩

theorem bind (h : Returns m s fun a s' => Returns (fun n => f n a) s' T) : Returns (fun n => m n >>= f n) s T := by
  obtain ⟨a, s', ⟨N, hm⟩, b, s'', ⟨N', hf⟩, ht⟩ := h
  refine ⟨b, s'', ⟨max N N', fun n hn => ?_⟩, ht⟩
  show (m n s >>= fun x => f n x.1 x.2) = _
  rw [hm n (Nat.le_trans (Nat.le_max_left N N') hn)]
  exact hf n (Nat.le_trans (Nat.le_max_right N N') hn)

theorem seq (h : Returns m s Q) (hf : ∀ a s', Q a s' → Returns (fun n => f n a) s' T) :
    Returns (fun n => m n >>= f n) s T := bind (h.mono hf)

/-- A statement without loops, before the rest of the program. -/
theorem bind_ends {m : StateT σ (Except ε) α} (h : Ends m s fun a s' => Returns (fun n => f n a) s' T) :
    Returns (fun n => m >>= f n) s T := bind (of_ends h)

/-- A computation that only may fault, or run out of rounds. -/
theorem lift {e : Nat → Except ε α} (he : ∃ N, ∀ n ≥ N, e n = .ok a) (h : Q a s) :
    Returns (fun n => (liftM (e n) : StateT σ (Except ε) α)) s Q := by
  obtain ⟨N, he⟩ := he
  exact ⟨a, s, ⟨N, fun n hn => by
    show (liftM (e n) : StateT σ (Except ε) α) s = _
    rw [he n hn]
    rfl⟩, h⟩

/-- One round of a loop, and the rounds after it. -/
theorem round (h : Returns (fun n => m (n + 1)) s Q) : Returns m s Q := by
  obtain ⟨a, s', ⟨N, hm⟩, hq⟩ := h
  refine ⟨a, s', ⟨N + 1, fun n hn => ?_⟩, hq⟩
  obtain ⟨n, rfl⟩ := Nat.exists_eq_add_of_le' (Nat.one_le_of_lt hn)
  exact hm n (Nat.le_of_succ_le_succ hn)

/-- What the program is known to return is what it returns. -/
theorem of_eq (h : Returns m s Q) (hm : ∃ N, ∀ n ≥ N, m n s = .ok (a, s')) : Q a s' := by
  obtain ⟨b, s'', ⟨N, hb⟩, hq⟩ := h
  obtain ⟨N', hm⟩ := hm
  have := (hb _ (Nat.le_max_left N N')).symm.trans (hm _ (Nat.le_max_right N N'))
  rw [Except.ok.injEq, Prod.mk.injEq] at this
  obtain ⟨rfl, rfl⟩ := this
  exact hq

end Returns

/-! ## More rounds -/

/-- `x'` is what `x` is, unless `x` is the fault `e`: that it ran out of
rounds. -/
def Agrees (e : ε) (x x' : Except ε α) : Prop := x ≠ .error e → x' = x

namespace Agrees

variable {e : ε} {x x' x'' : Except ε α} {f f' : α → Except ε β}

theorem refl (x : Except ε α) : Agrees e x x := fun _ => rfl

theorem trans (h : Agrees e x x') (h' : Agrees e x' x'') : Agrees e x x'' := fun hx =>
  (h' (h hx ▸ hx)).trans (h hx)

theorem bind (h : Agrees e x x') (hf : ∀ a, Agrees e (f a) (f' a)) : Agrees e (x >>= f) (x' >>= f') := by
  intro hx
  cases x with
  | error d => rw [h fun hd => hx (by rw [hd]; rfl)]; rfl
  | ok a => rw [h nofun]; exact hf a hx

end Agrees

/-- `m'` does what `m` does, unless `m` runs out of rounds. -/
def Extends (e : ε) (m m' : StateT σ (Except ε) α) : Prop := ∀ s, Agrees e (m s) (m' s)

namespace Extends

variable {e : ε} {m m' m'' : StateT σ (Except ε) α} {f f' : α → StateT σ (Except ε) β}

theorem refl (m : StateT σ (Except ε) α) : Extends e m m := fun _ => .refl _

theorem trans (h : Extends e m m') (h' : Extends e m' m'') : Extends e m m'' := fun s => (h s).trans (h' s)

theorem bind (h : Extends e m m') (hf : ∀ a, Extends e (f a) (f' a)) : Extends e (m >>= f) (m' >>= f') := fun s =>
  Agrees.bind (h s) fun x => hf x.1 x.2

theorem lift {x x' : Except ε α} (h : Agrees e x x') : Extends e (liftM x : StateT σ (Except ε) α) (liftM x') :=
  fun _ => Agrees.bind h fun _ => .refl _

/-- The rest of a program, after a statement without loops. -/
theorem bind_right (hf : ∀ a, Extends e (f a) (f' a)) : Extends e (m >>= f) (m >>= f') := bind (refl m) hf

/-- A program that does more with each round does more with many. -/
theorem of_le {m : Nat → StateT σ (Except ε) α} (h : ∀ n, Extends e (m n) (m (n + 1))) {n n' : Nat} (hn : n ≤ n') :
    Extends e (m n) (m n') := by
  induction hn with
  | refl => exact refl _
  | step _ ih => exact ih.trans (h _)

end Extends

end Dlsmc
