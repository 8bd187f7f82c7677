import LexTags.Proofs.Compilation
import LexTags.Proofs.Leaves

/-!
# The pool, place by place

Every leaf of a pattern that has a set puts it into the pool, equal sets included, so the pool
grows by the leaves in order, and the units of the encoding are numbered from left to right. That
could go wrong in one way only. The simplifying constructors drop what is empty and merge what
is equal, and what they drop could have put sets into the pool already.

It does not happen. What is empty has no units, and two encodings that are made one after the
other are equal only if neither has any, for the first unit of the later one has a number that
the earlier one does not reach. The passes of the layout drop tags only, so what holds of an
encoding holds of the clause that is compiled from it.
-/

namespace LexTags

namespace Pattern

/-- The leaves that have a set, from left to right, and whether each is the end of the input. -/
def units : Pattern → List (Bool × CharSet)
  | eof => [(true, .eof)]
  | chars set => [(false, set)]
  | alt l r => l.units ++ r.units
  | seq a b => a.units ++ b.units
  | star p => p.units
  | bind _ p => p.units
  | epsilon => []

theorem map_snd_units (p : Pattern) : p.units.map Prod.snd = p.leaves := by
  induction p with
  | epsilon | eof | chars _ => rfl
  | alt l r ihl ihr => rw [units, leaves, List.map_append, ihl, ihr]
  | seq a b iha ihb => rw [units, leaves, List.map_append, iha, ihb]
  | star p ih | bind _ p ih => exact ih

theorem length_leaves (p : Pattern) : p.leaves.length = p.units.length := by
  rw [← map_snd_units, List.length_map]

variable {charNames : OrderedSet String} {action n : Nat}

theorem units_bound {name : String} {body : Tagged} :
    (Tagged.bound charNames action name body).units = body.units := by
  rw [Tagged.bound]
  split
  · rw [Tagged.units_append]
    rfl
  · rw [Tagged.units_append, Tagged.units_append]
    exact List.append_nil _

/-- A list that is numbered on from the end of another is equal to it only if both are empty. -/
theorem eq_nil_of_zipIdx_eq {α : Type} {xs ys : List α}
    (h : xs.zipIdx n = ys.zipIdx (n + xs.length)) : xs = [] ∧ ys = [] := by
  match xs, ys with
  | [], [] => exact ⟨rfl, rfl⟩
  | [], y :: ys => cases h
  | x :: xs, [] => cases h
  | x :: xs, y :: ys =>
      have hfirst := congrArg Prod.snd (List.cons.inj h).1
      have hlater : n = n + (x :: xs).length := hfirst
      rw [List.length_cons] at hlater
      omega

/-- The units of an encoding are those of the pattern, numbered from left to right. -/
theorem units_encodeFrom (p : Pattern) :
    (p.encodeFrom charNames action n).units = (p.units.map Prod.fst).zipIdx n := by
  induction p generalizing n with
  | epsilon | eof | chars _ => rfl
  | alt l r ihl ihr =>
      have hnext : n + l.leaves.length = n + (l.units.map Prod.fst).length := by
        rw [length_leaves, List.length_map]
      rw [encodeFrom, units, List.map_append, List.zipIdx_append, ← hnext, ← ihl, ← ihr]
      by_cases hlr : l.encodeFrom charNames action n =
          r.encodeFrom charNames action (n + l.leaves.length)
      · -- Nothing is lost by merging the sides, as there are no units in them.
        have hsame := congrArg Tagged.units hlr
        rw [ihl, ihr, hnext] at hsame
        rw [← hlr, Tagged.either_self, ihl, (eq_nil_of_zipIdx_eq hsame).1]
        rfl
      · rw [Tagged.either_of_ne hlr, Tagged.units_alt]
  | seq a b iha ihb =>
      rw [encodeFrom, units, Tagged.units_append, iha, ihb, List.map_append, List.zipIdx_append,
        length_leaves, List.length_map]
  | star p ih => rw [encodeFrom, Tagged.units_many, ih, units]
  | bind name p ih => rw [encodeFrom, units_bound, ih, units]

end Pattern

/-- The units of an expression stand for those of a pattern, whose sets have been added to a
pool. -/
structure Pooled (before after : Pool) (p : Pattern) (t : Tagged) : Prop where
  /-- What was in the pool stays there, and the sets of the pattern follow in order. -/
  pool_eq : after = before ++ (p.units.map Prod.snd).toArray
  /-- The numbers go on from those that were in use. -/
  ids : t.units.map Prod.snd = List.range' before.size p.units.length
  /-- Each unit leads to the set of its own leaf, and is for the end of the input if the leaf
  is. -/
  sets : t.units.map (fun u => (u.1, after[u.2]?)) = p.units.map fun u => (u.1, some u.2)

/-- An expression with the units of an encoding. -/
theorem Pooled.of_units {before : Pool} {p : Pattern} {t : Tagged}
    (h : t.units = (p.units.map Prod.fst).zipIdx before.size) :
    Pooled before (before ++ p.leaves.toArray) p t := by
  refine ⟨by rw [p.map_snd_units], ?_, ?_⟩
  · rw [h, List.zipIdx_map_snd, List.length_map]
  · refine List.ext_getElem? fun k => ?_
    rw [h, List.getElem?_map, List.getElem?_map, List.getElem?_zipIdx, List.getElem?_map]
    cases hk : p.units[k]? with
    | none => rfl
    | some u =>
        have hset : p.leaves[k]? = some u.2 := by
          rw [← p.map_snd_units, List.getElem?_map, hk]
          rfl
        have hpool := Pattern.holds_append before p.leaves k u.2 hset
        simp only [Option.map_some, hpool]

namespace Session

open Pattern

/-- Encoding a pattern pools its sets one by one, and compiling a clause does so with the
pattern without shadowed bindings. -/
theorem encode_pooled (config : Config) (charNames : OrderedSet String) (action : Nat)
    (p : Pattern) (s : Session) :
    (∃ t s', (encode charNames action p).run s = (t, s') ∧ Pooled s.pool s'.pool p t) ∧
    ∃ layout s', (compileClause config action p).run.run s = (.ok layout, s') ∧
      Pooled s.pool s'.pool p.withoutShadowed layout.regular := by
  refine ⟨⟨_, _, encode_run_session charNames action p s, .of_units (units_encodeFrom p)⟩, ?_⟩
  have hd := describes_encodeFrom p.withoutShadowed action s.pool.size
  obtain ⟨layout, trace, events, more, hlayout, haccount⟩ := hd.account config.optimise
  have hrun := compileClause_run config action p s
  rw [hlayout] at hrun
  refine ⟨layout, _, hrun, .of_units ?_⟩
  rw [Tagged.units_of_pruned haccount.pruned, units_encodeFrom]

end Session

end LexTags
