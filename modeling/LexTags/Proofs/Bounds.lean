import LexTags.Proofs.Measures

/-!
# Matches stay in the text

A match that is looked for from a position of a text stops no earlier than there and no later than
the text ends, and what it has captured lies between where it starts and where it stops. If it has
reached the end of the input, it stops at the end of the text. This holds of patterns and of tagged
expressions, so `StaysIn` leaves open what is captured, a span or a position.

What follows a match starts where it stops. So a sequence stays in the text because both parts do,
and what they have captured lies between the outer positions too. Only tags and actions stand
behind the end of the input, and they move nowhere.
-/

namespace LexTags

variable {κ υ : Type} [DecidableEq κ]

/-- The span lies between two positions. -/
def Span.LiesIn (s : Span) (i j : Nat) : Prop := i ≤ s.start ∧ s.start ≤ s.stop ∧ s.stop ≤ j

/-- What has been captured lies between positions that are further apart, too. -/
def Widens (lies : υ → Nat → Nat → Prop) : Prop :=
  ∀ ⦃v i i' j j'⦄, lies v i j → i' ≤ i → j ≤ j' → lies v i' j'

theorem Span.widens_liesIn : Widens Span.LiesIn := by
  intro s i i' j j' h hi hj
  exact ⟨Nat.le_trans hi h.1, h.2.1, Nat.le_trans h.2.2 hj⟩

/-- The position lies between two others. -/
def LiesBetween (q i j : Nat) : Prop := i ≤ q ∧ q ≤ j

theorem widens_liesBetween : Widens LiesBetween := by
  intro q i i' j j' h hi hj
  exact ⟨Nat.le_trans hi h.1, Nat.le_trans h.2 hj⟩

namespace Match

variable {lies : υ → Nat → Nat → Prop} {length i j : Nat} {atEof : Bool} {key : κ} {value : υ}
  {m head tail : Match κ υ}

/-- The match moves forward from position `i` and stays in a text with `length` units, at whose end
it stops if it has reached the end of the input. What it has captured lies between the positions
where it starts and stops. -/
structure StaysIn (lies : υ → Nat → Nat → Prop) (length i : Nat) (m : Match κ υ) : Prop where
  le_stop : i ≤ m.stop
  stop_le : m.stop ≤ length
  atEnd : m.reachedEof = true → m.stop = length
  captured : ∀ key value, m.captured.get? key = some value → lies value i m.stop

theorem staysIn_bare (hi : i ≤ j) (hj : j ≤ length) (hend : atEof = true → j = length) :
    (bare j atEof : Match κ υ).StaysIn lies length i where
  le_stop := hi
  stop_le := hj
  atEnd := hend
  captured _ _ h := by cases h

theorem StaysIn.followedBy (h : head.StaysIn lies length i)
    (h' : tail.StaysIn lies length head.stop) (hlies : Widens lies) :
    (head.followedBy tail).StaysIn lies length i where
  le_stop := Nat.le_trans h.le_stop h'.le_stop
  stop_le := h'.stop_le
  atEnd := h'.atEnd
  captured key value hget := by
    rw [Match.followedBy, OrderedMap.get?_extend, Option.or_eq_some_iff] at hget
    rcases hget with htail | ⟨-, hhead⟩
    · exact hlies (h'.captured key value htail) h.le_stop (Nat.le_refl _)
    · exact hlies (h.captured key value hhead) (Nat.le_refl _) h'.le_stop

theorem StaysIn.capture (h : m.StaysIn lies length i) (hvalue : lies value i m.stop) :
    (m.capture key value).StaysIn lies length i where
  le_stop := h.le_stop
  stop_le := h.stop_le
  atEnd := h.atEnd
  captured key' value' hget := by
    rw [Match.capture, OrderedMap.get?_insert] at hget
    split at hget
    · cases hget
      exact hvalue
    · exact h.captured key' value' hget

end Match

theorem Pattern.staysIn_of_mem_followed {text : Array CodeUnit} {strict nullable : Bool} {i : Nat}
    {heads : List (Match String Span)} {tails : Nat → List (Match String Span)}
    {m : Match String Span} (hm : m ∈ followed strict nullable heads tails)
    (h : ∀ head ∈ heads, head.StaysIn Span.LiesIn text.size i)
    (h' : ∀ j, j ≤ text.size → ∀ tail ∈ tails j, tail.StaysIn Span.LiesIn text.size j) :
    m.StaysIn Span.LiesIn text.size i := by
  obtain ⟨head, hhead, ⟨-, -, rfl⟩ | ⟨-, tail, htail, rfl⟩⟩ := mem_followed_iff.1 hm
  · exact h m hhead
  · have hstays := h head hhead
    exact hstays.followedBy (h' _ hstays.stop_le tail htail) Span.widens_liesIn

/-- A repetition stays in the text because its rounds do, so one of no rounds does not move. -/
theorem Pattern.staysIn_of_mem_allFrom {text : Array CodeUnit} {strict : Bool} (p : Pattern)
    {i : Nat} (hi : i ≤ text.size) {m : Match String Span} (hm : m ∈ p.allFrom text strict i) :
    m.StaysIn Span.LiesIn text.size i := by
  induction p generalizing i m with
  | epsilon =>
      obtain rfl := List.mem_singleton.1 hm
      exact Match.staysIn_bare (Nat.le_refl i) hi nofun
  | eof =>
      rw [allFrom] at hm
      split at hm
      · next hend =>
          obtain rfl := List.mem_singleton.1 hm
          exact Match.staysIn_bare (Nat.le_refl i) hi fun _ => hend
      · cases hm
  | chars set =>
      rw [allFrom] at hm
      split at hm
      · next hc =>
          obtain rfl := List.mem_singleton.1 hm
          obtain ⟨c, hget, -⟩ := (Option.any_eq_true ..).1 hc
          have hlt := (Array.getElem?_eq_some_iff.1 hget).1
          exact Match.staysIn_bare (Nat.le_succ i) hlt nofun
      · cases hm
  | alt l r ihl ihr =>
      rcases List.mem_append.1 hm with hl | hr
      · exact ihl hi hl
      · exact ihr hi hr
  | seq a b iha ihb =>
      exact staysIn_of_mem_followed hm (fun _ => iha hi) fun j hj _ => ihb hj
  | star q ih =>
      rcases List.mem_append.1 hm with hm | htwice
      · rcases List.mem_cons.1 hm with rfl | honce
        · exact Match.staysIn_bare (Nat.le_refl i) hi nofun
        · exact ih hi honce
      · exact staysIn_of_mem_followed htwice (fun _ => ih hi) fun j hj _ => ih hj
  | bind name q ih =>
      obtain ⟨inner, hinner, rfl⟩ := List.mem_map.1 hm
      have hstays := ih hi hinner
      exact hstays.capture ⟨Nat.le_refl i, hstays.le_stop, Nat.le_refl _⟩

theorem Tagged.staysIn_of_mem_followed {text : Array CodeUnit} {i : Nat}
    {heads : List (Match Tag Nat)} {tails : Nat → Bool → List (Match Tag Nat)} {m : Match Tag Nat}
    (hm : m ∈ followed heads tails)
    (h : ∀ head ∈ heads, head.StaysIn LiesBetween text.size i)
    (h' : ∀ j atEof, j ≤ text.size → (atEof = true → j = text.size) →
      ∀ tail ∈ tails j atEof, tail.StaysIn LiesBetween text.size j) :
    m.StaysIn LiesBetween text.size i := by
  obtain ⟨head, hhead, tail, htail, rfl⟩ := mem_followed_iff.1 hm
  have hstays := h head hhead
  exact hstays.followedBy (h' _ _ hstays.stop_le hstays.atEnd tail htail) widens_liesBetween

/-- The end of the input lies behind only where the text ends. -/
theorem Tagged.staysIn_of_mem_allFrom {pool : Pool} {text : Array CodeUnit} (t : Tagged) {i : Nat}
    {atEof : Bool} (hi : i ≤ text.size) (hend : atEof = true → i = text.size) {m : Match Tag Nat}
    (hm : m ∈ t.allFrom pool text i atEof) : m.StaysIn LiesBetween text.size i := by
  induction t generalizing i atEof m with
  | epsilon =>
      obtain rfl := List.mem_singleton.1 (mem_of_mem_ite hm)
      exact Match.staysIn_bare (Nat.le_refl i) hi nofun
  | chars id =>
      have hm := mem_of_mem_ite hm
      split at hm
      · next hget =>
          split at hm
          · obtain rfl := List.mem_singleton.1 hm
            have hlt := (Array.getElem?_eq_some_iff.1 hget).1
            exact Match.staysIn_bare (Nat.le_succ i) hlt nofun
          · cases hm
      · cases hm
  | eof id =>
      have hm := mem_of_mem_ite hm
      split at hm
      · next hsize =>
          obtain rfl := List.mem_singleton.1 hm
          exact Match.staysIn_bare (Nat.le_refl i) hi fun _ => hsize
      · cases hm
  | tag t =>
      obtain rfl := List.mem_singleton.1 (mem_of_mem_ite hm)
      have hstays : (Match.bare i atEof : Match Tag Nat).StaysIn LiesBetween text.size i :=
        Match.staysIn_bare (Nat.le_refl i) hi hend
      exact hstays.capture ⟨Nat.le_refl i, Nat.le_refl i⟩
  | action id =>
      obtain rfl := List.mem_singleton.1 (mem_of_mem_ite hm)
      exact Match.staysIn_bare (Nat.le_refl i) hi hend
  | alt l r ihl ihr =>
      rcases List.mem_append.1 (mem_of_mem_ite hm) with hl | hr
      · exact ihl hi hend hl
      · exact ihr hi hend hr
  | seq a b iha ihb =>
      exact staysIn_of_mem_followed (mem_of_mem_ite hm) (fun _ => iha hi hend)
        fun j atEof hj hend _ => ihb hj hend
  | star q ih =>
      rcases List.mem_append.1 (mem_of_mem_ite hm) with hm | htwice
      · rcases List.mem_cons.1 hm with rfl | honce
        · exact Match.staysIn_bare (Nat.le_refl i) hi nofun
        · exact ih hi hend honce
      · exact staysIn_of_mem_followed htwice (fun _ => ih hi hend) fun j atEof hj hend _ =>
          ih hj hend

theorem Pattern.staysIn_of_mem_matchesFrom {text : Array CodeUnit} {strict : Bool} {p : Pattern}
    {i : Nat} (hi : i ≤ text.size) {m : Match String Span}
    (hm : m ∈ p.matchesFrom text strict i) : m.StaysIn Span.LiesIn text.size i :=
  p.staysIn_of_mem_allFrom hi (p.matchesFrom_eq_allFrom hi ▸ hm)

theorem Tagged.staysIn_of_mem_matchesFrom {pool : Pool} {text : Array CodeUnit} {t : Tagged}
    {i : Nat} {atEof : Bool} (hi : i ≤ text.size) (hend : atEof = true → i = text.size)
    {m : Match Tag Nat} (hm : m ∈ t.matchesFrom pool text i atEof) :
    m.StaysIn LiesBetween text.size i :=
  t.staysIn_of_mem_allFrom hi hend (t.matchesFrom_eq_allFrom hi ▸ hm)

end LexTags
