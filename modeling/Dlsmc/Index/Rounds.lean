import Dlsmc.Framework.Program
import Dlsmc.Index.Tree

/-!
# The rounds of the loops

A loop that ended, or ran into a fault, does the same when it is given more
rounds: `writeOp_extends` and `indexGet_extends`. So an operation that was run
with some number of rounds is known for all that are larger.
-/

namespace Dlsmc.Index

variable {ω : Pattern} {op : DeltaOp} {key : Bytes} {k : Key} {v : DeltaPointer}

namespace State

variable {t : State}

theorem findLeaf_agrees : ∀ {n : Nat} {p : Pid}, Agrees .fuel (t.findLeaf k n p) (t.findLeaf k (n + 1) p)
  | 0, _ => fun h => absurd rfl h
  | n + 1, p => by
    rw [findLeaf, findLeaf]
    refine .bind (.refl _) fun c => ?_
    split
    · exact findLeaf_agrees
    · cases c.base.ents with
      | internal es => exact .bind (.refl _) fun _ => findLeaf_agrees
      | leaf _ => exact .refl _

theorem lookup_agrees : ∀ {n : Nat} {p : Pid}, Agrees .fuel (t.lookup k n p) (t.lookup k (n + 1) p)
  | 0, _ => fun h => absurd rfl h
  | n + 1, p => by
    rw [lookup, lookup]
    refine .bind (.refl _) fun c => ?_
    cases findDelta c.deltas k with
    | some d => exact .refl _
    | none =>
      dsimp only
      split
      · exact lookup_agrees
      · cases c.base.ents with
        | internal es => exact .bind (.refl _) fun _ => lookup_agrees
        | leaf _ => exact .refl _

theorem descendWithPath_agrees : ∀ {n : Nat} {p : Pid} {path : List Pid},
    Agrees .fuel (t.descendWithPath k n p path) (t.descendWithPath k (n + 1) p path)
  | 0, _, _ => fun h => absurd rfl h
  | n + 1, p, path => by
    rw [descendWithPath, descendWithPath]
    refine .bind (.refl _) fun c => ?_
    split
    · exact descendWithPath_agrees
    · split
      · exact .refl _
      · cases c.base.ents with
        | internal es => exact .bind (.refl _) fun _ => descendWithPath_agrees
        | leaf _ => exact .refl _

end State

theorem installDelta_extends : ∀ {n : Nat} {p : Pid},
    Extends .fuel (installDelta ω op k v n p) (installDelta ω op k v (n + 1) p)
  | 0, _ => fun _ h => absurd rfl h
  | n + 1, p => by
    rw [installDelta, installDelta]
    refine .bind_right fun _ => .bind_right fun h => ?_
    split
    · exact installDelta_extends
    · split
      · exact .bind_right fun _ => installDelta_extends
      · exact .refl _

theorem splitLeaf_extends (n : Nat) : Extends .fuel (splitLeaf ω n k) (splitLeaf ω (n + 1) k) := by
  refine .bind_right fun t => ?_
  split
  · exact .refl _
  · refine .bind_right fun _ => .bind_right fun t => ?_
    exact .bind (.lift State.descendWithPath_agrees) fun _ => .refl _

theorem writeOp_extends (n : Nat) : Extends .fuel (writeOp ω n op key v) (writeOp ω (n + 1) op key v) := by
  unfold writeOp
  cases key.arg with
  | none => exact .refl _
  | some k =>
    refine .bind_right fun _ => .bind_right fun t => ?_
    refine .bind (.lift State.findLeaf_agrees) fun _ => .bind installDelta_extends fun r => ?_
    cases r with
    | none => exact .refl _
    | some r =>
      refine .bind_right fun _ => .bind_right fun _ => .bind_right fun h => ?_
      refine .bind ?_ fun _ => .refl _
      split
      · exact splitLeaf_extends n
      · exact .refl _

theorem indexGet_extends (n : Nat) : Extends .fuel (indexGet ω n key) (indexGet ω (n + 1) key) := by
  unfold indexGet
  cases key.arg with
  | none => exact .refl _
  | some k =>
    refine .bind_right fun _ => .bind_right fun t => ?_
    exact .bind (.lift State.lookup_agrees) fun _ => .refl _

end Dlsmc.Index
