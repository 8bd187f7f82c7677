import LexTags.Match
import LexTags.Tagged.Encoding

/-!
# What a log leaves behind

A match is told by its log, and all that is seen of the log afterwards is its last entry
under each key. The lemmas say how that view follows the ways in which logs are put
together: one after the other, filtered by key, or with nothing but one entry under a key.

Tags carry the action of their clause, which addresses do not look at. `lastCrossing?` is the
view of a log of tags by boundary.
-/

namespace LexTags

section

variable {κ υ : Type} [DecidableEq κ] {log rest : List (κ × υ)} {k : κ} {v : υ}

@[simp]
theorem lastOf?_nil : lastOf? ([] : List (κ × υ)) k = none := rfl

theorem lastOf?_append :
    lastOf? (log ++ rest) k = (lastOf? rest k).or (lastOf? log k) := by
  rw [lastOf?, lastOf?, lastOf?, List.reverse_append, List.find?_append]
  cases rest.reverse.find? (·.1 = k) <;> rfl

theorem lastOf?_cons {e : κ × υ} :
    lastOf? (e :: log) k = (lastOf? log k).or (if e.1 = k then some e.2 else none) := by
  rw [← List.singleton_append, lastOf?_append]
  congr 1
  by_cases h : e.1 = k <;> simp [lastOf?, h]

theorem mem_of_lastOf? (h : lastOf? log k = some v) : (k, v) ∈ log := by
  obtain ⟨e, he, rfl⟩ := Option.map_eq_some_iff.1 h
  have hk : e.1 = k := by simpa using List.find?_some he
  exact hk ▸ List.mem_reverse.1 (List.mem_of_find?_eq_some he)

theorem lastOf?_eq_none_iff : lastOf? log k = none ↔ ∀ e ∈ log, e.1 ≠ k := by
  simp [lastOf?]

/-- A key that is logged with one value only leaves that value. -/
theorem lastOf?_of_unique (hmem : (k, v) ∈ log) (hval : ∀ e ∈ log, e.1 = k → e.2 = v) :
    lastOf? log k = some v := by
  cases hlast : lastOf? log k with
  | none => exact absurd rfl (lastOf?_eq_none_iff.1 hlast _ hmem)
  | some u => exact congrArg some (hval _ (mem_of_lastOf? hlast) rfl)

/-- Dropping the entries of other keys changes nothing under a key. -/
theorem lastOf?_filter {p : κ → Bool} (hk : p k = true) :
    lastOf? (log.filter fun e => p e.1) k = lastOf? log k := by
  rw [lastOf?, lastOf?, ← List.filter_reverse, List.find?_filter]
  congr 2
  funext e
  by_cases he : e.1 = k
  · simp [he, hk]
  · simp [he]

/-- Renaming the keys is not seen if no two of them become one. -/
theorem lastOf?_map {κ' : Type} [DecidableEq κ'] (f : κ → κ') (k : κ)
    (hf : ∀ e ∈ log, f e.1 = f k → e.1 = k) :
    lastOf? (log.map fun e => (f e.1, e.2)) (f k) = lastOf? log k := by
  induction log with
  | nil => rfl
  | cons e rest ih =>
      have hrest := ih fun e' he' => hf e' (List.mem_cons_of_mem _ he')
      have he : f e.1 = f k ↔ e.1 = k := ⟨hf e List.mem_cons_self, congrArg f⟩
      rw [List.map_cons, lastOf?_cons, lastOf?_cons, hrest]
      simp only [he]

end

/-- The position at which a boundary was crossed last. -/
def lastCrossing? (log : List (Tag × Nat)) (b : Boundary) : Option Nat :=
  lastOf? (log.map fun e => (e.1.boundary, e.2)) b

section

variable {log rest : List (Tag × Nat)} {b : Boundary} {p : Nat}

@[simp]
theorem lastCrossing?_nil : lastCrossing? [] b = none := rfl

theorem lastCrossing?_append :
    lastCrossing? (log ++ rest) b = (lastCrossing? rest b).or (lastCrossing? log b) := by
  rw [lastCrossing?, List.map_append, lastOf?_append]
  rfl

theorem lastCrossing?_cons {e : Tag × Nat} :
    lastCrossing? (e :: log) b =
      (lastCrossing? log b).or (if e.1.boundary = b then some e.2 else none) :=
  lastOf?_cons

theorem mem_of_lastCrossing? (h : lastCrossing? log b = some p) :
    ∃ t : Tag, t.boundary = b ∧ (t, p) ∈ log := by
  obtain ⟨e, he, heq⟩ := List.mem_map.1 (mem_of_lastOf? h)
  cases heq
  exact ⟨e.1, rfl, he⟩

theorem lastCrossing?_eq_none_iff :
    lastCrossing? log b = none ↔ ∀ e ∈ log, e.1.boundary ≠ b := by
  rw [lastCrossing?, lastOf?_eq_none_iff, List.forall_mem_map]

/-- A boundary that is crossed in one place only was crossed there last. -/
theorem lastCrossing?_of_unique {t : Tag} (hmem : (t, p) ∈ log) (ht : t.boundary = b)
    (hpos : ∀ e ∈ log, e.1.boundary = b → e.2 = p) : lastCrossing? log b = some p := by
  refine lastOf?_of_unique (List.mem_map.2 ⟨(t, p), hmem, by rw [ht]⟩) ?_
  rw [List.forall_mem_map]
  exact hpos

/-- Dropping the crossings of other boundaries changes nothing at a boundary. -/
theorem lastCrossing?_filter {keep : Boundary → Bool} (hb : keep b = true) :
    lastCrossing? (log.filter fun e => keep e.1.boundary) b = lastCrossing? log b := by
  have h : lastOf? ((log.map fun e => (e.1.boundary, e.2)).filter fun e => keep e.1) b =
      lastCrossing? log b := lastOf?_filter hb
  rw [List.filter_map] at h
  exact h

end

end LexTags
