import LexTags.Proofs.Agreement
import LexTags.Proofs.Compilation
import LexTags.Proofs.Construction

/-!
# The facts kept at the nodes of an encoding

An encoding is nullable if the pattern is, has tags if the pattern has bindings, and has no
actions. It has the size of the pattern too, although the tree is a different one: tags are added,
empty parts go, and equal sides become one. What is added has size 0, which the checked addition
does not feel, and two sides that are merged have one size between them.

The exception are repetitions. A repetition has no size, but one whose body is encoded as the
empty expression goes altogether, and leaves size 0 behind. A pattern with a size has no
repetition to begin with. A pattern that is built by the simplifying constructors may have some,
but the only pattern of that kind that has an empty encoding is the empty one, which they do not
repeat.
-/

namespace LexTags

theorem commonSize?_self (size? : Option Nat) : commonSize? size? size? = size? := if_pos rfl

/-! ## What the simplifying constructors do to the facts -/

namespace Tagged

variable {a b l r p : Tagged}

/-- What is computed from the parts of a sequence comes out alike when an empty part is dropped,
if the empty expression is neutral. -/
theorem append_eq_of_neutral {α : Type} {f : Tagged → α} {op : α → α → α}
    (hseq : ∀ a b, f (seq a b) = op (f a) (f b)) (hleft : ∀ b, op (f epsilon) (f b) = f b)
    (hright : ∀ a, op (f a) (f epsilon) = f a) (a b : Tagged) : f (a ++ b) = op (f a) (f b) := by
  by_cases ha : a = epsilon
  · rw [ha, epsilon_append, hleft]
  · by_cases hb : b = epsilon
    · rw [hb, append_epsilon, hright]
    · rw [append_of_ne ha hb, hseq]

/-- What is computed from the sides of an alternation comes out alike when equal sides are
merged, if equal results are. -/
theorem either_eq_of_idempotent {α : Type} {f : Tagged → α} {op : α → α → α}
    (halt : ∀ l r, f (alt l r) = op (f l) (f r)) (hself : ∀ x, op x x = x) (l r : Tagged) :
    f (either l r) = op (f l) (f r) := by
  by_cases hlr : l = r
  · rw [hlr, either_self, hself]
  · rw [either_of_ne hlr, halt]

/-- A size is an offset. -/
theorem le_of_size? (p : Tagged) {n : Nat} (h : p.size? = some n) : n ≤ maxOffset := by
  induction p generalizing n with
  | epsilon | chars _ | eof _ | tag _ | action _ =>
      cases h
      decide
  | alt l r ihl _ => exact ihl (eq_some_of_commonSize? h).1
  | seq a b _ _ =>
      obtain ⟨k, -, h⟩ := Option.bind_eq_some_iff.1 h
      exact advance?_le h
  | star p _ => cases h

/-- The checked addition does not feel what has size 0. -/
theorem totalSize?_zero (p : Tagged) : totalSize? (some 0) p.size? = p.size? := by
  cases h : p.size? with
  | none => rfl
  | some n =>
      show addOffset? 0 n = some n
      rw [addOffset?_eq_some_iff]
      exact ⟨(Nat.zero_add n).symm, p.le_of_size? h⟩

theorem size?_append : (a ++ b).size? = totalSize? a.size? b.size? :=
  append_eq_of_neutral (fun _ _ => rfl) totalSize?_zero
    (fun a => (totalSize?_comm ..).trans a.totalSize?_zero) a b

theorem size?_either : (either l r).size? = commonSize? l.size? r.size? :=
  either_eq_of_idempotent (fun _ _ => rfl) commonSize?_self l r

theorem size?_many (hp : p ≠ epsilon) : (many p).size? = none := by
  cases p with
  | epsilon => exact absurd rfl hp
  | _ => rfl

theorem nullable_append : (a ++ b).nullable = (a.nullable && b.nullable) :=
  append_eq_of_neutral (fun _ _ => rfl) (fun _ => Bool.true_and _) (fun _ => Bool.and_true _) a b

theorem nullable_either : (either l r).nullable = (l.nullable || r.nullable) :=
  either_eq_of_idempotent (fun _ _ => rfl) Bool.or_self l r

theorem nullable_many : (many p).nullable = true := by
  cases p <;> rfl

theorem hasTags_append : (a ++ b).hasTags = (a.hasTags || b.hasTags) :=
  append_eq_of_neutral (fun _ _ => rfl) (fun _ => Bool.false_or _) (fun _ => Bool.or_false _) a b

theorem hasTags_either : (either l r).hasTags = (l.hasTags || r.hasTags) :=
  either_eq_of_idempotent (fun _ _ => rfl) Bool.or_self l r

theorem hasTags_many : (many p).hasTags = p.hasTags := by
  cases p <;> rfl

/-! ## What they make empty -/

theorem either_eq_epsilon (h : either l r = epsilon) : l = epsilon ∧ r = epsilon := by
  by_cases hlr : l = r
  · rw [← hlr, either_self] at h
    exact ⟨h, hlr ▸ h⟩
  · rw [either_of_ne hlr] at h
    cases h

theorem many_eq_epsilon (h : many p = epsilon) : p = epsilon := by
  cases p with
  | epsilon => rfl
  | _ => cases h

end Tagged

/-! ## The facts of an encoding -/

namespace Pattern

variable {charNames : OrderedSet String} {action m n : Nat} {name : String} {body : Tagged}
  {p q : Pattern}

theorem size?_bound : (Tagged.bound charNames action name body).size? = body.size? := by
  rw [Tagged.bound]
  split
  · rw [Tagged.size?_append]
    exact body.totalSize?_zero
  · rw [Tagged.size?_append, Tagged.size?_append, totalSize?_comm body.size?]
    show totalSize? (some 0) (totalSize? (some 0) body.size?) = _
    rw [body.totalSize?_zero, body.totalSize?_zero]

theorem nullable_bound :
    (Tagged.bound charNames action name body).nullable = body.nullable := by
  rw [Tagged.bound]
  split
  · rw [Tagged.nullable_append]
    rfl
  · rw [Tagged.nullable_append, Tagged.nullable_append]
    exact Bool.and_true _

theorem hasTags_bound : (Tagged.bound charNames action name body).hasTags = true := by
  rw [Tagged.hasTags_eq, tags_bound]
  rfl

theorem nullable_encodeFrom (p : Pattern) :
    (p.encodeFrom charNames action n).nullable = p.nullable := by
  induction p generalizing n with
  | epsilon | eof | chars _ => rfl
  | alt l r ihl ihr => rw [encodeFrom, Tagged.nullable_either, ihl, ihr, nullable]
  | seq a b iha ihb => rw [encodeFrom, Tagged.nullable_append, iha, ihb, nullable]
  | star p _ => exact Tagged.nullable_many
  | bind name p ih => rw [encodeFrom, nullable_bound, ih, nullable]

theorem hasTags_encodeFrom (p : Pattern) :
    (p.encodeFrom charNames action n).hasTags = p.hasBindings := by
  induction p generalizing n with
  | epsilon | eof | chars _ => rfl
  | alt l r ihl ihr => rw [encodeFrom, Tagged.hasTags_either, ihl, ihr, hasBindings]
  | seq a b iha ihb => rw [encodeFrom, Tagged.hasTags_append, iha, ihb, hasBindings]
  | star p ih => rw [encodeFrom, Tagged.hasTags_many, ih, hasBindings]
  | bind name p _ => exact hasTags_bound

/-- Whether an encoding is empty does not depend on the numbers of its leaves. -/
theorem encodeFrom_eq_epsilon (h : p.encodeFrom charNames action m = .epsilon) :
    p.encodeFrom charNames action n = .epsilon := by
  induction p generalizing m n with
  | epsilon => rfl
  | eof | chars _ => cases h
  | alt l r ihl ihr =>
      obtain ⟨hl, hr⟩ := Tagged.either_eq_epsilon h
      rw [encodeFrom, ihl hl, ihr hr, Tagged.either_self]
  | seq a b iha ihb =>
      obtain ⟨ha, hb⟩ := append_eq_epsilon h
      rw [encodeFrom, iha ha, ihb hb, Tagged.epsilon_append]
  | star p ih =>
      rw [encodeFrom, ih (Tagged.many_eq_epsilon h)]
      rfl
  | bind name p _ => exact absurd h bound_ne_epsilon

/-- The bodies of the repetitions. -/
def starBodies : Pattern → List Pattern
  | alt l r => l.starBodies ++ r.starBodies
  | seq a b => a.starBodies ++ b.starBodies
  | star p => p :: p.starBodies
  | bind _ p => p.starBodies
  | _ => []

theorem starBodies_eq_nil {k : Nat} (h : p.size? = some k) : p.starBodies = [] := by
  induction p generalizing k with
  | epsilon | eof | chars _ => rfl
  | alt l r ihl ihr =>
      obtain ⟨hl, hr⟩ := eq_some_of_commonSize? h
      rw [starBodies, ihl hl, ihr hr, List.append_nil]
  | seq a b iha ihb =>
      obtain ⟨j, m, hj, hm, -⟩ := eq_add_of_totalSize? h
      rw [starBodies, iha hj, ihb hm, List.append_nil]
  | star p _ => cases h
  | bind name p ih => exact ih h

/-- The size is kept if no repetition goes. -/
theorem size?_encodeFrom (p : Pattern)
    (h : ∀ q ∈ p.starBodies, q.encodeFrom charNames action m ≠ .epsilon) :
    (p.encodeFrom charNames action n).size? = p.size? := by
  induction p generalizing n with
  | epsilon | eof | chars _ => rfl
  | alt l r ihl ihr =>
      rw [encodeFrom, Tagged.size?_either, ihl fun q hq => h q (List.mem_append_left _ hq),
        ihr fun q hq => h q (List.mem_append_right _ hq), size?]
  | seq a b iha ihb =>
      rw [encodeFrom, Tagged.size?_append, iha fun q hq => h q (List.mem_append_left _ hq),
        ihb fun q hq => h q (List.mem_append_right _ hq), size?]
  | star p _ =>
      have hbody := h p List.mem_cons_self
      exact Tagged.size?_many fun he => hbody (encodeFrom_eq_epsilon he)
  | bind name p ih => rw [encodeFrom, size?_bound, ih h, size?]

/-! ## Patterns that are built by the simplifying constructors -/

/-- A reduced pattern with an empty encoding is empty. -/
theorem Reduced.eq_epsilon (h : p.Reduced)
    (he : p.encodeFrom charNames action n = .epsilon) : p = epsilon := by
  induction p generalizing n with
  | epsilon => rfl
  | eof | chars _ => cases he
  | alt l r ihl ihr =>
      obtain ⟨hl, hr⟩ := Tagged.either_eq_epsilon he
      exact absurd ((ihl h.2.1 hl).trans (ihr h.2.2 hr).symm) h.1
  | seq a b iha _ => exact absurd (iha h.2.1 (append_eq_epsilon he).1) h.1.1
  | star p ih => exact absurd (ih h.2 (Tagged.many_eq_epsilon he)) h.1
  | bind name p _ => exact absurd he bound_ne_epsilon

/-- The repetitions of a reduced pattern have reduced bodies, and none is empty. -/
theorem Reduced.of_mem_starBodies (h : p.Reduced) (hq : q ∈ p.starBodies) :
    q ≠ epsilon ∧ q.Reduced := by
  induction p with
  | epsilon | eof | chars _ => cases hq
  | alt l r ihl ihr =>
      rcases List.mem_append.1 hq with hl | hr
      · exact ihl h.2.1 hl
      · exact ihr h.2.2 hr
  | seq a b iha ihb =>
      rcases List.mem_append.1 hq with ha | hb
      · exact iha h.2.1 ha
      · exact ihb h.2.2 hb
  | star p ih =>
      rcases List.mem_cons.1 hq with rfl | hq
      · exact h
      · exact ih h.2 hq
  | bind name p ih => exact ih h hq

end Pattern

namespace Session

open Pattern

/-- The facts kept at the nodes are the same for a pattern and for its encoding, whatever the
session has pooled before. A size that the pattern does not have the encoding has only if the
body of some repetition has an empty encoding, which no pattern has that is built by the
simplifying constructors. -/
theorem encode_facts (charNames : OrderedSet String) (action : Nat) (p : Pattern) (s : Session) :
    let encoded (q : Pattern) : Tagged := ((encode charNames action q).run s).1
    (encoded p).nullable = p.nullable ∧
      (encoded p).hasTags = p.hasBindings ∧
      (encoded p).hasActions = false ∧
      (∀ n, p.size? = some n → (encoded p).size? = some n) ∧
      ((∀ q ∈ p.starBodies, encoded q ≠ .epsilon) →
        p.size? = none → (encoded p).size? = none) ∧
      (p.Built → ∀ q ∈ p.starBodies, encoded q ≠ .epsilon) := by
  have hrun : ∀ q : Pattern, ((encode charNames action q).run s).1 =
      q.encodeFrom charNames action s.pool.size := fun q =>
    congrArg Prod.fst (encode_run_session charNames action q s)
  simp only [hrun]
  refine ⟨nullable_encodeFrom p, hasTags_encodeFrom p, hasActions_encodeFrom p, fun n hn => ?_,
    fun hbodies hnone => ?_, fun hp q hq he => ?_⟩
  · have hbodies : ∀ q ∈ p.starBodies,
        q.encodeFrom charNames action s.pool.size ≠ .epsilon := by
      rw [starBodies_eq_nil hn]
      exact fun q hq => nomatch hq
    rw [size?_encodeFrom p hbodies, hn]
  · rw [size?_encodeFrom p hbodies, hnone]
  · obtain ⟨hne, hreduced⟩ := hp.reduced.of_mem_starBodies hq
    exact hne (hreduced.eq_epsilon he)

/-- A repetition of a unit has no size, and neither has its encoding; the repetition of the empty
pattern, which only a raw node is, loses its node and gets size 0. -/
theorem encode_facts_star :
    (star (chars (.single 97))).Built ∧
      ((encode .empty 0 (star (chars (.single 97)))).run default).1.size? = none ∧
      (star epsilon).size? = none ∧
      ((encode .empty 0 (star epsilon)).run default).1.size? = some 0 := by
  have hbuilt : (star (chars (.single 97))).Built :=
    .many (.chars (CharSet.canonical_single 97))
  obtain ⟨-, -, -, -, hnone, hbodies⟩ :=
    encode_facts .empty 0 (star (chars (.single 97))) default
  exact ⟨hbuilt, hnone (hbodies hbuilt) rfl, rfl, rfl⟩

end Session

end LexTags
