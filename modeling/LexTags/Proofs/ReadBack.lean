import LexTags.Proofs.Construction
import LexTags.Proofs.Pruning

/-!
# The encoding can be read back

Where a pattern has no node that an encoding would merge, the pattern can be read off its
encoding again: sets are looked up in the pool, a tag in front of something opens a binding,
and a tag behind something closes one. So the encoding of such a pattern has its nodes, one
for one. In particular no two sides of an alternation become equal, not even where they have
no leaves whose numbers would tell them apart.

This brings the tests that the matcher of tagged expressions depends on back to the pattern.
-/

namespace LexTags

namespace Tagged

/-- The pattern that an encoding was made from, with the sets of the pool. -/
def readBack (pool : Pool) : Tagged → Pattern
  | chars id => .chars (pool[id]?.getD .empty)
  | eof _ => .eof
  | alt l r => .alt (l.readBack pool) (r.readBack pool)
  | star p => .star (p.readBack pool)
  | seq (tag t) b => .bind t.boundary.name (b.readBack pool)
  | seq a (tag _) => a.readBack pool
  | seq a b => .seq (a.readBack pool) (b.readBack pool)
  | _ => .epsilon

end Tagged

namespace Pattern

/-- The pattern is a repetition. -/
def isStar : Pattern → Bool
  | star _ => true
  | _ => false

/-- No repetition is the body of another one. -/
def starsApart : Pattern → Bool
  | alt l r => l.starsApart && r.starsApart
  | seq a b => a.starsApart && b.starsApart
  | star p => !p.isStar && p.starsApart
  | bind _ p => p.starsApart
  | _ => true

/-- Nothing but bindings of the empty text. -/
def hollow : Pattern → Bool
  | epsilon => true
  | seq a b => a.hollow && b.hollow
  | bind _ p => p.hollow
  | _ => false

/-- Some match may end with the end of the input behind it. -/
def endsAtEof : Pattern → Bool
  | eof => true
  | alt l r => l.endsAtEof || r.endsAtEof
  | seq a b => b.endsAtEof || (b.hollow && a.endsAtEof)
  | star p => p.endsAtEof
  | bind _ p => p.endsAtEof
  | _ => false

/-- At its end, the pattern has no bindings of the empty text behind what can end at the end
of the input. -/
def tailClear : Pattern → Bool
  | seq a b => if b.hollow then !a.endsAtEof else b.tailClear
  | bind _ p => p.tailClear
  | _ => true

variable {charNames : OrderedSet String} {action n : Nat} {pool : Pool} {p a b l r : Pattern}

/-- The encoding of the pattern has its nodes: none of them is left out or merged. -/
def KeepsNodes (charNames : OrderedSet String) : Pattern → Prop
  | alt l r => l ≠ r ∧ l.KeepsNodes charNames ∧ r.KeepsNodes charNames
  | seq a b => (a ≠ epsilon ∧ b ≠ epsilon) ∧ a.KeepsNodes charNames ∧ b.KeepsNodes charNames
  | star p => (p ≠ epsilon ∧ ∀ q, p ≠ star q) ∧ p.KeepsNodes charNames
  | bind name p => (name ∈ charNames → p.size? = some 1) ∧ p.KeepsNodes charNames
  | _ => True

theorem Reduced.keepsNodes (h : p.Reduced) (hstars : p.starsApart = true)
    (hfits : p.FitsUnits charNames) : p.KeepsNodes charNames := by
  induction p with
  | epsilon | eof | chars _ => trivial
  | alt l r ihl ihr =>
      rw [starsApart, Bool.and_eq_true] at hstars
      exact ⟨h.1, ihl h.2.1 hstars.1 hfits.1, ihr h.2.2 hstars.2 hfits.2⟩
  | seq a b iha ihb =>
      rw [starsApart, Bool.and_eq_true] at hstars
      exact ⟨h.1, iha h.2.1 hstars.1 hfits.1, ihb h.2.2 hstars.2 hfits.2⟩
  | star p ih =>
      rw [starsApart, Bool.and_eq_true] at hstars
      refine ⟨⟨h.1, fun q hq => ?_⟩, ih h.2 hstars.2 hfits⟩
      rw [hq] at hstars
      cases hstars.1
  | bind name p ih => exact ⟨hfits.1, ih h hstars hfits.2⟩

theorem KeepsNodes.fitsUnits (h : p.KeepsNodes charNames) : p.FitsUnits charNames := by
  induction p with
  | epsilon | eof | chars _ => trivial
  | alt l r ihl ihr => exact ⟨ihl h.2.1, ihr h.2.2⟩
  | seq a b iha ihb => exact ⟨iha h.2.1, ihb h.2.2⟩
  | star p ih => exact ih h.2
  | bind name p ih => exact ⟨h.1, ih h.2⟩

theorem readBack_seq {s t : Tagged} (hs : s.isMark = false) (ht : t.isMark = false) :
    (Tagged.seq s t).readBack pool = seq (s.readBack pool) (t.readBack pool) := by
  cases s with
  | tag _ => cases hs
  | _ =>
      cases t with
      | tag _ => cases ht
      | _ => rfl

theorem readBack_append_tag {s : Tagged} {x : Tag} (hs : s.isMark = false) :
    (s ++ .tag x).readBack pool = s.readBack pool := by
  cases s with
  | tag _ => cases hs
  | _ => rfl

theorem readBack_bound {name : String} {body : Tagged} (hbody : body.isMark = false)
    (hunit : name ∈ charNames → body ≠ .epsilon) :
    (Tagged.bound charNames action name body).readBack pool =
      bind name (body.readBack pool) := by
  rw [bound_eq_seq hunit, Tagged.readBack]
  split
  · rfl
  · rw [readBack_append_tag hbody]
    rfl

theorem ne_epsilon_of_readBack {t : Tagged} (h : t.readBack pool = p) (hp : p ≠ epsilon) :
    t ≠ .epsilon := by
  intro he
  rw [he] at h
  exact hp h.symm

theorem ne_star_of_readBack {t : Tagged} (h : t.readBack pool = p) (hp : ∀ q, p ≠ star q)
    (q : Tagged) : t ≠ .star q := by
  intro he
  rw [he] at h
  exact hp _ h.symm

/-- The encoding of a pattern that keeps its nodes can be read back. -/
theorem readBack_encodeFrom (p : Pattern) (hp : p.KeepsNodes charNames)
    (hpool : Holds pool n p.leaves) :
    (p.encodeFrom charNames action n).readBack pool = p := by
  induction p generalizing n with
  | epsilon | eof => rfl
  | chars set =>
      have hset : pool[n]? = some set := hpool 0 set rfl
      rw [encodeFrom, Tagged.readBack, hset]
      rfl
  | alt l r ihl ihr =>
      have hl := ihl hp.2.1 hpool.left
      have hr := ihr hp.2.2 hpool.right
      have hne : l.encodeFrom charNames action n ≠
          r.encodeFrom charNames action (n + l.leaves.length) := by
        intro he
        rw [he, hr] at hl
        exact hp.1 hl.symm
      rw [encodeFrom, Tagged.either_of_ne hne, Tagged.readBack, hl, hr]
  | seq a b iha ihb =>
      have ha := iha hp.2.1 hpool.left
      have hb := ihb hp.2.2 hpool.right
      rw [encodeFrom, Tagged.append_of_ne (ne_epsilon_of_readBack ha hp.1.1)
          (ne_epsilon_of_readBack hb hp.1.2),
        readBack_seq (isMark_encodeFrom a hp.2.1.fitsUnits)
          (isMark_encodeFrom b hp.2.2.fitsUnits), ha, hb]
  | star p ih =>
      have hbody := ih hp.2 hpool
      rw [encodeFrom, many_of_ne_star (ne_epsilon_of_readBack hbody hp.1.1)
        (ne_star_of_readBack hbody hp.1.2), Tagged.readBack, hbody]
  | bind name p ih =>
      have hbody := ih hp.2 hpool
      rw [encodeFrom, readBack_bound (isMark_encodeFrom p hp.2.fitsUnits)
        (fun hname => encodeFrom_ne_epsilon_of_size (hp.1 hname)), hbody]

/-! ## The nodes of an encoding -/

theorem exists_holds (n : Nat) (sets : List CharSet) : ∃ pool, Holds pool n sets := by
  have h := holds_append (Array.replicate n CharSet.empty) sets
  rw [Array.size_replicate] at h
  exact ⟨_, h⟩

theorem encodeFrom_alt (hp : (alt l r).KeepsNodes charNames) :
    (alt l r).encodeFrom charNames action n =
      .alt (l.encodeFrom charNames action n)
        (r.encodeFrom charNames action (n + l.leaves.length)) := by
  obtain ⟨pool, hpool⟩ := exists_holds n (alt l r).leaves
  refine Tagged.either_of_ne fun he => hp.1 ?_
  rw [← readBack_encodeFrom l hp.2.1 hpool.left, he, readBack_encodeFrom r hp.2.2 hpool.right]

theorem encodeFrom_ne_epsilon (hp : p.KeepsNodes charNames) (hne : p ≠ epsilon) :
    p.encodeFrom charNames action n ≠ .epsilon := by
  obtain ⟨pool, hpool⟩ := exists_holds n p.leaves
  exact ne_epsilon_of_readBack (readBack_encodeFrom p hp hpool) hne

theorem encodeFrom_seq (hp : (seq a b).KeepsNodes charNames) :
    (seq a b).encodeFrom charNames action n =
      .seq (a.encodeFrom charNames action n)
        (b.encodeFrom charNames action (n + a.leaves.length)) :=
  Tagged.append_of_ne (encodeFrom_ne_epsilon hp.2.1 hp.1.1) (encodeFrom_ne_epsilon hp.2.2 hp.1.2)

theorem encodeFrom_ne_star (hp : p.KeepsNodes charNames) (hstar : ∀ q, p ≠ star q)
    (q : Tagged) : p.encodeFrom charNames action n ≠ .star q := by
  obtain ⟨pool, hpool⟩ := exists_holds n p.leaves
  exact ne_star_of_readBack (readBack_encodeFrom p hp hpool) hstar q

theorem encodeFrom_star (hp : (star p).KeepsNodes charNames) :
    (star p).encodeFrom charNames action n = .star (p.encodeFrom charNames action n) :=
  many_of_ne_star (encodeFrom_ne_epsilon hp.2 hp.1.1) (encodeFrom_ne_star hp.2 hp.1.2)

/-- Where all nodes are kept, none is merged. -/
theorem KeepsNodes.keepsShape (hp : p.KeepsNodes charNames) :
    p.KeepsShape charNames action n := by
  induction p generalizing n with
  | epsilon | eof | chars _ => trivial
  | alt l r ihl ihr => exact ⟨ihl hp.2.1, ihr hp.2.2⟩
  | seq a b iha ihb =>
      exact ⟨⟨encodeFrom_ne_epsilon hp.2.1 hp.1.1, encodeFrom_ne_epsilon hp.2.2 hp.1.2⟩,
        iha hp.2.1, ihb hp.2.2⟩
  | star p ih =>
      exact ⟨⟨encodeFrom_ne_epsilon hp.2 hp.1.1, encodeFrom_ne_star hp.2 hp.1.2⟩, ih hp.2⟩
  | bind name p ih => exact ih hp.2

/-! ## The tests on the end of a clause -/

theorem hollow_bound {name : String} {body : Tagged} :
    (Tagged.bound charNames action name body).hollow = body.hollow := by
  rw [Tagged.bound]
  split
  · rw [Tagged.hollow_append]
    rfl
  · rw [Tagged.hollow_append, Tagged.hollow_append]
    exact Bool.and_true _

theorem endsAtEof_bound {name : String} {body : Tagged} :
    (Tagged.bound charNames action name body).endsAtEof = body.endsAtEof := by
  have hopen : ∀ t : Tagged, (Tagged.tag ⟨.opening name, action⟩ ++ t).endsAtEof =
      t.endsAtEof := by
    intro t
    rw [Tagged.endsAtEof_append]
    show (t.endsAtEof || (t.hollow && false)) = t.endsAtEof
    rw [Bool.and_false, Bool.or_false]
  rw [Tagged.bound]
  split
  · exact hopen _
  · rw [hopen, Tagged.endsAtEof_append]
    rfl

theorem hollow_encodeFrom (hp : p.KeepsNodes charNames) :
    (p.encodeFrom charNames action n).hollow = p.hollow := by
  induction p generalizing n with
  | epsilon | eof | chars _ => rfl
  | alt l r _ _ =>
      rw [encodeFrom_alt hp]
      rfl
  | seq a b iha ihb => rw [encodeFrom, Tagged.hollow_append, iha hp.2.1, ihb hp.2.2, hollow]
  | star p _ =>
      rw [encodeFrom_star hp]
      rfl
  | bind name p ih => rw [encodeFrom, hollow_bound, ih hp.2, hollow]

theorem endsAtEof_encodeFrom (hp : p.KeepsNodes charNames) :
    (p.encodeFrom charNames action n).endsAtEof = p.endsAtEof := by
  induction p generalizing n with
  | epsilon | eof | chars _ => rfl
  | alt l r ihl ihr =>
      rw [encodeFrom_alt hp, Tagged.endsAtEof, ihl hp.2.1, ihr hp.2.2, endsAtEof]
  | seq a b iha ihb =>
      rw [encodeFrom, Tagged.endsAtEof_append, iha hp.2.1, ihb hp.2.2, hollow_encodeFrom hp.2.2,
        endsAtEof]
  | star p ih => rw [encodeFrom_star hp, Tagged.endsAtEof, ih hp.2, endsAtEof]
  | bind name p ih => rw [encodeFrom, endsAtEof_bound, ih hp.2, endsAtEof]

theorem ne_tag_of_not_isMark {t : Tagged} (h : t.isMark = false) (x : Tag) : t ≠ .tag x := by
  intro he
  rw [he] at h
  cases h

/-- A tag in front of something does not spoil its tail. -/
theorem tailClear_tag_seq {x : Tag} {t : Tagged} (h : t.tailClear = true) :
    (Tagged.seq (.tag x) t).tailClear = true := by
  by_cases hx : ∃ y, t = .tag y
  · obtain ⟨y, rfl⟩ := hx
    rfl
  · rw [Tagged.tailClear_seq fun y hy => hx ⟨y, hy⟩, h]
    exact ite_self _

/-- Nor does a tag behind it. -/
theorem tailClear_append_tag {x : Tag} {t : Tagged} (h : t.tailClear = true) :
    (t ++ .tag x).tailClear = true := by
  by_cases he : t = .epsilon
  · rw [he]
    rfl
  · have hx : Tagged.tag x ≠ .epsilon := fun h => nomatch h
    rw [Tagged.append_of_ne he hx]
    exact h

theorem tailClear_bound {name : String} {body : Tagged}
    (hunit : name ∈ charNames → body ≠ .epsilon) (h : body.tailClear = true) :
    (Tagged.bound charNames action name body).tailClear = true := by
  rw [bound_eq_seq hunit]
  refine tailClear_tag_seq ?_
  split
  · exact h
  · exact tailClear_append_tag h

theorem tailClear_encodeFrom (hp : p.KeepsNodes charNames) (h : p.tailClear = true) :
    (p.encodeFrom charNames action n).tailClear = true := by
  induction p generalizing n with
  | epsilon | eof | chars _ => rfl
  | alt l r _ _ =>
      rw [encodeFrom_alt hp]
      rfl
  | seq a b _ ihb =>
      rw [encodeFrom_seq hp, Tagged.tailClear_seq (ne_tag_of_not_isMark
        (isMark_encodeFrom b hp.2.2.fitsUnits)), hollow_encodeFrom hp.2.2,
        endsAtEof_encodeFrom hp.2.1]
      rw [tailClear] at h
      cases hb : b.hollow with
      | true =>
          rw [hb] at h
          exact h
      | false =>
          rw [hb] at h
          exact ihb hp.2.2 h
  | star p _ =>
      rw [encodeFrom_star hp]
      rfl
  | bind name p ih =>
      exact tailClear_bound (fun hname => encodeFrom_ne_epsilon_of_size (hp.1 hname))
        (ih hp.2 h)

end Pattern

end LexTags
