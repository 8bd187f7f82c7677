import LexTags.Match
import LexTags.Tagged.Encoding

/-!
# What a tagged expression means

The relation `Reads` of patterns, for tagged expressions. The log lists the tags that are
crossed, in order, with the positions where they are crossed.
-/

namespace LexTags.Tagged

/-- The expression matches the units of `w` from the first position to the second, and the
log lists the tags that are crossed on the way. -/
inductive Reads (pool : Pool) (w : Text) : Tagged → Nat → Nat → List (Tag × Nat) → Prop where
  | epsilon {i : Nat} (hi : i ≤ w.length) : Reads pool w epsilon i i []
  | chars {id i : Nat} {set : CharSet} {c : CodeUnit} (hid : pool[id]? = some set)
      (hc : w[i]? = some c) (hset : set.contains c = true) :
      Reads pool w (chars id) i (i + 1) []
  | eof {id : Nat} : Reads pool w (eof id) w.length w.length []
  | tag {t : Tag} {i : Nat} (hi : i ≤ w.length) : Reads pool w (tag t) i i [(t, i)]
  | action {id i : Nat} (hi : i ≤ w.length) : Reads pool w (action id) i i []
  | altLeft {l r : Tagged} {i j : Nat} {log : List (Tag × Nat)}
      (hl : Reads pool w l i j log) : Reads pool w (alt l r) i j log
  | altRight {l r : Tagged} {i j : Nat} {log : List (Tag × Nat)}
      (hr : Reads pool w r i j log) : Reads pool w (alt l r) i j log
  | seq {a b : Tagged} {i j k : Nat} {log rest : List (Tag × Nat)}
      (ha : Reads pool w a i j log) (hb : Reads pool w b j k rest) :
      Reads pool w (seq a b) i k (log ++ rest)
  | starNil {p : Tagged} {i : Nat} (hi : i ≤ w.length) : Reads pool w (star p) i i []
  | starCons {p : Tagged} {i j k : Nat} {log rest : List (Tag × Nat)}
      (hp : Reads pool w p i j log) (hs : Reads pool w (star p) j k rest) :
      Reads pool w (star p) i k (log ++ rest)

/-- A match moves forward and stays inside the text. -/
theorem Reads.bounds {pool : Pool} {w : Text} {p : Tagged} {i j : Nat}
    {log : List (Tag × Nat)} (h : Reads pool w p i j log) : i ≤ j ∧ j ≤ w.length := by
  induction h with
  | epsilon hi | tag hi | action hi | starNil hi => exact ⟨Nat.le_refl _, hi⟩
  | eof => exact ⟨Nat.le_refl _, Nat.le_refl _⟩
  | chars _ hc _ =>
      obtain ⟨hlt, -⟩ := List.getElem?_eq_some_iff.1 hc
      exact ⟨Nat.le_succ _, hlt⟩
  | altLeft _ ih | altRight _ ih => exact ih
  | seq _ _ iha ihb => exact ⟨Nat.le_trans iha.1 ihb.1, ihb.2⟩
  | starCons _ _ ihp ihs => exact ⟨Nat.le_trans ihp.1 ihs.1, ihs.2⟩

/-- Every match is as long as the size says, if it says anything. -/
theorem Reads.stop_eq {pool : Pool} {w : Text} {p : Tagged} {i j : Nat}
    {log : List (Tag × Nat)} (h : Reads pool w p i j log) {n : Nat}
    (hn : p.size? = some n) : j = i + n := by
  induction h generalizing n with
  | epsilon _ | eof | tag _ | action _ => cases hn; rfl
  | chars _ _ _ => cases hn; rfl
  | starNil _ | starCons _ _ _ _ => cases hn
  | altLeft _ ih => exact ih (eq_some_of_commonSize? hn).1
  | altRight _ ih => exact ih (eq_some_of_commonSize? hn).2
  | seq _ _ iha ihb =>
      obtain ⟨a, b, ha, hb, rfl⟩ := eq_add_of_totalSize? hn
      have h1 := iha ha
      have h2 := ihb hb
      omega

end LexTags.Tagged
