import LexTags.Collection.OrderedSet

/-!
# Insertion-ordered maps

A finite map that remembers the order in which its keys came in. Writing to a key that is
there replaces its value and leaves its place; a new key goes to the end; erasing a key
leaves the order of the rest.
-/

namespace LexTags

/-- A finite map with an order on its keys. -/
structure OrderedMap (κ υ : Type) where
  entries : List (κ × υ)
  nodup : (entries.map Prod.fst).Nodup
deriving DecidableEq

namespace OrderedMap

variable {κ υ : Type}

@[ext]
theorem ext {m n : OrderedMap κ υ} (h : m.entries = n.entries) : m = n := by
  cases m; cases n; cases h; rfl

def empty : OrderedMap κ υ := ⟨[], List.nodup_nil⟩

instance : Inhabited (OrderedMap κ υ) := ⟨empty⟩

def keys (m : OrderedMap κ υ) : OrderedSet κ := ⟨m.entries.map Prod.fst, m.nodup⟩

variable [DecidableEq κ]

/-- The key has a value. -/
def contains (m : OrderedMap κ υ) (k : κ) : Bool := m.entries.any (·.1 = k)

theorem contains_iff {m : OrderedMap κ υ} {k : κ} : m.contains k = true ↔ k ∈ m.keys := by
  simp [contains, keys, OrderedSet.mem_def]

/-- The value of a key. -/
def get? (m : OrderedMap κ υ) (k : κ) : Option υ :=
  (m.entries.find? (·.1 = k)).map Prod.snd

/-- The entries with the value of `k` replaced. -/
def overwrite (k : κ) (v : υ) (entries : List (κ × υ)) : List (κ × υ) :=
  entries.map fun e => if e.1 = k then (k, v) else e

theorem map_fst_overwrite (k : κ) (v : υ) (entries : List (κ × υ)) :
    (overwrite k v entries).map Prod.fst = entries.map Prod.fst := by
  rw [overwrite, List.map_map]
  refine List.map_congr_left fun e _ => ?_
  by_cases h : e.1 = k <;> simp [h]

/-- Sets the value of a key, which keeps its place or else goes to the end. -/
def insert (m : OrderedMap κ υ) (k : κ) (v : υ) : OrderedMap κ υ :=
  if h : m.contains k then
    ⟨overwrite k v m.entries, (map_fst_overwrite k v m.entries).symm ▸ m.nodup⟩
  else
    ⟨m.entries ++ [(k, v)], by
      rw [List.map_append]
      refine List.nodup_append.2 ⟨m.nodup, by simp, ?_⟩
      rintro x hx y hy rfl
      have hxk : x = k := by simpa using hy
      exact h (contains_iff.2 (hxk ▸ hx))⟩

/-- Drops a key, if it is there. -/
def erase (m : OrderedMap κ υ) (k : κ) : OrderedMap κ υ :=
  ⟨m.entries.filter (·.1 ≠ k), m.nodup.sublist (List.filter_sublist.map Prod.fst)⟩

/-- The right map written over the left one: keys of the left one keep their place, and new
keys go to the end. -/
def extend (m n : OrderedMap κ υ) : OrderedMap κ υ where
  entries :=
    m.entries.map (fun e => (e.1, (n.get? e.1).getD e.2)) ++
      n.entries.filter fun e => !m.contains e.1
  nodup := by
    rw [List.map_append, List.map_map]
    refine List.nodup_append.2 ⟨m.nodup, n.nodup.sublist (List.filter_sublist.map _), ?_⟩
    rintro x hx y hy rfl
    obtain ⟨e, he, rfl⟩ := List.mem_map.1 hy
    exact absurd (contains_iff.2 hx) (by simpa using (List.mem_filter.1 he).2)

/-- Writes the entries of a list in order. -/
def ofList (entries : List (κ × υ)) : OrderedMap κ υ :=
  entries.foldl (fun m e => m.insert e.1 e.2) empty

@[simp]
theorem get?_empty (k : κ) : (empty : OrderedMap κ υ).get? k = none := rfl

@[simp]
theorem mem_keys_insert {m : OrderedMap κ υ} {k j : κ} {v : υ} :
    j ∈ (m.insert k v).keys ↔ j ∈ m.keys ∨ j = k := by
  unfold insert
  split
  · next h =>
      change j ∈ (overwrite k v m.entries).map Prod.fst ↔ _
      rw [map_fst_overwrite]
      exact ⟨.inl, fun hj => hj.elim id fun e => e ▸ contains_iff.1 h⟩
  · simp [OrderedSet.mem_def, keys]

theorem get?_eq_none_of_notMem {m : OrderedMap κ υ} {k : κ} (h : k ∉ m.keys) :
    m.get? k = none := by
  simp only [get?, Option.map_eq_none_iff, List.find?_eq_none, decide_eq_true_eq]
  rintro e he rfl
  exact h (List.mem_map_of_mem he)

theorem find?_overwrite (k j : κ) (v : υ) (entries : List (κ × υ)) :
    ((overwrite k v entries).find? (·.1 = j)).map Prod.snd =
      if j = k then (entries.find? (·.1 = k)).map fun _ => v
      else (entries.find? (·.1 = j)).map Prod.snd := by
  induction entries with
  | nil => simp [overwrite]
  | cons e rest ih =>
      rw [overwrite] at ih ⊢
      rw [List.map_cons, List.find?_cons, List.find?_cons, List.find?_cons]
      by_cases hek : e.1 = k
      · by_cases hjk : j = k
        · simp [hek, hjk]
        · have hkj : k ≠ j := fun h => hjk h.symm
          simpa [hek, hjk, hkj] using ih
      · by_cases hjk : j = k
        · subst hjk
          simpa [hek] using ih
        · by_cases hej : e.1 = j
          · simp [hjk, hej]
          · simpa [hek, hjk, hej] using ih

@[simp]
theorem get?_insert {m : OrderedMap κ υ} {k j : κ} {v : υ} :
    (m.insert k v).get? j = if j = k then some v else m.get? j := by
  unfold insert
  split
  · next h =>
      obtain ⟨e, he, hek⟩ := List.mem_map.1 (contains_iff.1 h)
      have hsome : (m.entries.find? (·.1 = k)).isSome := by
        rw [List.find?_isSome]
        exact ⟨e, he, by simpa using hek⟩
      obtain ⟨found, hfound⟩ := Option.isSome_iff_exists.1 hsome
      simp only [get?, find?_overwrite, hfound, Option.map_some]
  · next h =>
      have hnone := get?_eq_none_of_notMem (mt contains_iff.2 h)
      rw [get?, Option.map_eq_none_iff] at hnone
      by_cases hjk : j = k
      · subst hjk
        simp [get?, List.find?_append, hnone]
      · have hkj : k ≠ j := fun h => hjk h.symm
        simp [get?, List.find?_append, hjk, hkj]

@[simp]
theorem mem_keys_extend {m n : OrderedMap κ υ} {k : κ} :
    k ∈ (m.extend n).keys ↔ k ∈ m.keys ∨ k ∈ n.keys := by
  have h : k ∈ (m.extend n).keys ↔ k ∈ m.keys ∨ k ∈ n.keys ∧ ¬m.contains k := by
    simp [extend, keys, OrderedSet.mem_def, and_comm]
  rw [h, contains_iff]
  by_cases hk : k ∈ m.keys <;> simp [hk]

/-- A key of a map written over another has its value there, or else the one it had. -/
@[simp]
theorem get?_extend {m n : OrderedMap κ υ} {k : κ} :
    (m.extend n).get? k = (n.get? k).or (m.get? k) := by
  simp only [get?, extend, List.find?_append, List.find?_map, List.find?_filter,
    Function.comp_def]
  cases hm : m.entries.find? (·.1 = k) with
  | some e =>
      obtain rfl : e.1 = k := by simpa using List.find?_some hm
      cases hn : n.entries.find? (·.1 = e.1) <;> simp [hn]
  | none =>
      have hk : m.contains k = false := by
        simpa [contains] using hm
      have hp : (fun e : κ × υ => !m.contains e.1 && decide (e.1 = k)) =
          fun e => decide (e.1 = k) := by
        funext e
        by_cases he : e.1 = k <;> simp [he, hk]
      simp [hp]

theorem contains_extend {m n : OrderedMap κ υ} {k : κ} :
    (m.extend n).contains k = (m.contains k || n.contains k) := by
  rw [Bool.eq_iff_iff, Bool.or_eq_true, contains_iff, contains_iff, contains_iff, mem_keys_extend]

/-- Of three maps written over one another, it does not matter which two come first. -/
theorem extend_assoc (m n o : OrderedMap κ υ) : (m.extend n).extend o = m.extend (n.extend o) := by
  refine ext ?_
  show (m.entries.map _ ++ n.entries.filter _).map _ ++ o.entries.filter _ =
    m.entries.map _ ++ (n.entries.map _ ++ o.entries.filter _).filter _
  rw [List.map_append, List.map_map, List.filter_append, List.filter_map, List.filter_filter,
    List.append_assoc]
  congr 1
  · refine List.map_congr_left fun e _ => ?_
    simp [Option.getD_or]
  · congr 1
    refine List.filter_congr fun e _ => ?_
    rw [contains_extend, Bool.not_or]

end OrderedMap

end LexTags
