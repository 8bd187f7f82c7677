import LexTags.Match
import LexTags.Pattern.Basic

/-!
# What a pattern means

The matcher stops after two rounds of a repetition; the meaning of a pattern has no such
bound. `Reads` is the relation that everything made of a pattern has to respect. It keeps a
log of the bindings in the order in which they are completed, a body before the binding
around it, so that the last entry of a name is the one that counts.

The end of the input is a test here: it consumes nothing, and what follows it may still
match the empty text.
-/

namespace LexTags.Pattern

/-- The pattern matches the units of `w` from the first position to the second, and the log
lists the bindings that are completed on the way. -/
inductive Reads (w : Text) : Pattern → Nat → Nat → List (String × Span) → Prop where
  | epsilon {i : Nat} (hi : i ≤ w.length) : Reads w epsilon i i []
  | eof : Reads w eof w.length w.length []
  | chars {set : CharSet} {i : Nat} {c : CodeUnit} (hc : w[i]? = some c)
      (hset : set.contains c = true) : Reads w (chars set) i (i + 1) []
  | altLeft {l r : Pattern} {i j : Nat} {log : List (String × Span)}
      (hl : Reads w l i j log) : Reads w (alt l r) i j log
  | altRight {l r : Pattern} {i j : Nat} {log : List (String × Span)}
      (hr : Reads w r i j log) : Reads w (alt l r) i j log
  | seq {a b : Pattern} {i j k : Nat} {log rest : List (String × Span)}
      (ha : Reads w a i j log) (hb : Reads w b j k rest) : Reads w (seq a b) i k (log ++ rest)
  | starNil {p : Pattern} {i : Nat} (hi : i ≤ w.length) : Reads w (star p) i i []
  | starCons {p : Pattern} {i j k : Nat} {log rest : List (String × Span)}
      (hp : Reads w p i j log) (hs : Reads w (star p) j k rest) :
      Reads w (star p) i k (log ++ rest)
  | bind {name : String} {p : Pattern} {i j : Nat} {log : List (String × Span)}
      (hp : Reads w p i j log) : Reads w (bind name p) i j (log ++ [(name, ⟨i, j⟩)])

/-- A match moves forward and stays inside the text. -/
theorem Reads.bounds {w : Text} {p : Pattern} {i j : Nat} {log : List (String × Span)}
    (h : Reads w p i j log) : i ≤ j ∧ j ≤ w.length := by
  induction h with
  | epsilon hi | starNil hi => exact ⟨Nat.le_refl _, hi⟩
  | eof => exact ⟨Nat.le_refl _, Nat.le_refl _⟩
  | chars hc _ =>
      obtain ⟨hlt, -⟩ := List.getElem?_eq_some_iff.1 hc
      exact ⟨Nat.le_succ _, hlt⟩
  | altLeft _ ih | altRight _ ih | bind _ ih => exact ih
  | seq _ _ iha ihb => exact ⟨Nat.le_trans iha.1 ihb.1, ihb.2⟩
  | starCons _ _ ihp ihs => exact ⟨Nat.le_trans ihp.1 ihs.1, ihs.2⟩

/-- Every match is as long as the size says, if it says anything. -/
theorem Reads.stop_eq {w : Text} {p : Pattern} {i j : Nat} {log : List (String × Span)}
    (h : Reads w p i j log) {n : Nat} (hn : p.size? = some n) : j = i + n := by
  induction h generalizing n with
  | epsilon _ | eof => cases hn; rfl
  | chars _ _ => cases hn; rfl
  | starNil _ | starCons _ _ _ _ => cases hn
  | altLeft _ ih => exact ih (eq_some_of_commonSize? hn).1
  | altRight _ ih => exact ih (eq_some_of_commonSize? hn).2
  | seq _ _ iha ihb =>
      obtain ⟨a, b, ha, hb, rfl⟩ := eq_add_of_totalSize? hn
      have h1 := iha ha
      have h2 := ihb hb
      omega
  | bind _ ih => exact ih hn

end LexTags.Pattern
