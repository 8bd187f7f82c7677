/-!
# Insertion-ordered sets

A finite set that remembers the order in which its members came in. The list of members is
the view through which everything else is stated: an insertion adds at the end, a union adds
the new members of its right side at the end, and a filter leaves the order of the rest alone.
Only `swapRemove` moves a member, from the end to the place that it makes free. Equal sets have
equal lists, so order is part of the value.
-/

namespace LexTags

/-- A finite set with an order on its members. -/
structure OrderedSet (α : Type) where
  toList : List α
  /-- No member is listed twice. -/
  nodup : toList.Nodup
deriving DecidableEq

namespace OrderedSet

variable {α : Type}

@[ext]
theorem ext {s t : OrderedSet α} (h : s.toList = t.toList) : s = t := by
  cases s; cases t; cases h; rfl

instance : Membership α (OrderedSet α) where
  mem s a := a ∈ s.toList

theorem mem_def {s : OrderedSet α} {a : α} : a ∈ s ↔ a ∈ s.toList := Iff.rfl

/-- The set without members. -/
def empty : OrderedSet α := ⟨[], List.nodup_nil⟩

instance : Inhabited (OrderedSet α) := ⟨empty⟩

/-- The members that pass a test. -/
def filter (s : OrderedSet α) (p : α → Bool) : OrderedSet α :=
  ⟨s.toList.filter p, s.nodup.filter p⟩

@[simp]
theorem not_mem_empty (a : α) : a ∉ (empty : OrderedSet α) := List.not_mem_nil

@[simp]
theorem mem_filter {s : OrderedSet α} {p : α → Bool} {a : α} :
    a ∈ s.filter p ↔ a ∈ s ∧ p a := List.mem_filter

variable [DecidableEq α]

instance (s : OrderedSet α) (a : α) : Decidable (a ∈ s) :=
  inferInstanceAs (Decidable (a ∈ s.toList))

/-- Adds a member at the end; a member keeps its place. -/
def insert (s : OrderedSet α) (a : α) : OrderedSet α :=
  if h : a ∈ s then s
  else ⟨s.toList ++ [a], List.nodup_append.2 ⟨s.nodup, by simp, by
    rintro x hx y hy rfl
    exact h (List.mem_singleton.1 hy ▸ hx)⟩⟩

theorem mem_of_mem_replace {as : List α} {a b c : α} (h : c ∈ as.replace a b) :
    c = b ∨ c ∈ as := by
  induction as with
  | nil => cases h
  | cons x as ih =>
      rw [List.replace_cons] at h
      split at h
      · exact (List.mem_cons.1 h).imp_right (List.mem_cons_of_mem _)
      · rcases List.mem_cons.1 h with rfl | h
        · exact .inr List.mem_cons_self
        · exact (ih h).imp_right (List.mem_cons_of_mem _)

theorem nodup_replace {as : List α} {a b : α} (h : as.Nodup) (hb : b ∉ as) :
    (as.replace a b).Nodup := by
  induction as with
  | nil => exact List.nodup_nil
  | cons x as ih =>
      obtain ⟨hx, has⟩ := List.nodup_cons.1 h
      rw [List.mem_cons, not_or] at hb
      rw [List.replace_cons]
      split
      · exact List.nodup_cons.2 ⟨hb.2, has⟩
      · refine List.nodup_cons.2 ⟨fun hmem => ?_, ih has hb.2⟩
        exact (mem_of_mem_replace hmem).elim (fun he => hb.1 he.symm) hx

/-- Removes a member, whose place is taken by the last one. -/
def swapRemove (s : OrderedSet α) (a : α) : OrderedSet α :=
  if h : a ∈ s then
    ⟨s.toList.dropLast.replace a (s.toList.getLast (List.ne_nil_of_mem h)), by
      have hnodup := s.nodup
      rw [← List.dropLast_concat_getLast (List.ne_nil_of_mem h), List.nodup_append] at hnodup
      refine nodup_replace hnodup.1 fun hlast => ?_
      exact hnodup.2.2 _ hlast _ List.mem_cons_self rfl⟩
  else s

/-- Puts a member first, wherever it was. -/
def pushFront (s : OrderedSet α) (a : α) : OrderedSet α :=
  ⟨a :: s.toList.filter (· != a), List.nodup_cons.2 ⟨by simp, s.nodup.filter _⟩⟩

/-- The members of the left set, then those that only the right one has. -/
def union (s t : OrderedSet α) : OrderedSet α :=
  ⟨s.toList ++ t.toList.filter (· ∉ s), List.nodup_append.2 ⟨s.nodup, t.nodup.filter _, by
    rintro x hx y hy rfl
    exact (of_decide_eq_true (List.mem_filter.1 hy).2) hx⟩⟩

instance : Union (OrderedSet α) := ⟨union⟩

def inter (s t : OrderedSet α) : OrderedSet α := s.filter (· ∈ t)

instance : Inter (OrderedSet α) := ⟨inter⟩

def diff (s t : OrderedSet α) : OrderedSet α := s.filter (· ∉ t)

instance : SDiff (OrderedSet α) := ⟨diff⟩

/-- The members of exactly one of the sets, those of the left one first. -/
def symmDiff (s t : OrderedSet α) : OrderedSet α := (s \ t) ∪ (t \ s)

/-- The members of a list, each at its first place. -/
def ofList (as : List α) : OrderedSet α := as.foldl insert empty

@[simp]
theorem mem_insert {s : OrderedSet α} {a b : α} : a ∈ s.insert b ↔ a ∈ s ∨ a = b := by
  unfold insert
  split
  · next h => exact ⟨.inl, fun hab => hab.elim id fun e => e ▸ h⟩
  · simp [mem_def]

/-- A member that has just come in is the last one, and no other one moves when it goes. -/
theorem swapRemove_insert {s : OrderedSet α} {a : α} (h : a ∉ s) :
    (s.insert a).swapRemove a = s := by
  have hlist : (s.insert a).toList = s.toList ++ [a] := by rw [insert, dif_neg h]
  have hmem : a ∈ s.insert a := mem_insert.2 (.inr rfl)
  rw [swapRemove, dif_pos hmem]
  refine ext ?_
  simp only [hlist, List.dropLast_concat]
  exact List.replace_of_not_mem h

@[simp]
theorem mem_pushFront {s : OrderedSet α} {a b : α} :
    a ∈ s.pushFront b ↔ a = b ∨ a ∈ s := by
  by_cases h : a = b <;> simp [pushFront, mem_def, h]

@[simp]
theorem mem_union {s t : OrderedSet α} {a : α} : a ∈ s ∪ t ↔ a ∈ s ∨ a ∈ t := by
  change a ∈ s.toList ++ _ ↔ _
  by_cases h : a ∈ s.toList <;> simp [mem_def, h]

@[simp]
theorem mem_inter {s t : OrderedSet α} {a : α} : a ∈ s ∩ t ↔ a ∈ s ∧ a ∈ t := by
  change a ∈ s.filter _ ↔ _
  simp

@[simp]
theorem mem_diff {s t : OrderedSet α} {a : α} : a ∈ s \ t ↔ a ∈ s ∧ a ∉ t := by
  change a ∈ s.filter _ ↔ _
  simp

@[simp]
theorem mem_symmDiff {s t : OrderedSet α} {a : α} :
    a ∈ s.symmDiff t ↔ (a ∈ s ∧ a ∉ t) ∨ (a ∈ t ∧ a ∉ s) := by
  simp [symmDiff]

end OrderedSet

end LexTags
