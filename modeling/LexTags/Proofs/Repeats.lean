/-!
# Lists up to repeated members

Two lists of matches have the same first places if they agree once each member is kept only
where it occurs first. That is weaker than equality in one way only: a member may come again
where it is already known. So the relation is a congruence for joining lists and for putting
a list in place of each member, and a search finds the same in both.
-/

namespace LexTags

variable {α β : Type}

open Classical in
/-- The lists agree once repeated members are dropped after their first place. -/
def SameFirsts (xs ys : List α) : Prop := xs.eraseDups = ys.eraseDups

section

variable [BEq α] [LawfulBEq α]

theorem eraseDups_filter (p : α → Bool) (xs : List α) :
    (xs.filter p).eraseDups = xs.eraseDups.filter p := by
  match xs with
  | [] => rfl
  | a :: as =>
      have ih := eraseDups_filter p (as.filter fun b => !b == a)
      rw [List.eraseDups_cons]
      by_cases ha : p a = true
      · rw [List.filter_cons_of_pos ha, List.filter_cons_of_pos ha, List.eraseDups_cons, ← ih,
          List.filter_filter, List.filter_filter]
        congr 3
        funext b
        exact Bool.and_comm ..
      · rw [List.filter_cons_of_neg ha, List.filter_cons_of_neg ha, ← ih, List.filter_filter]
        congr 1
        refine List.filter_congr fun b _ => ?_
        by_cases hb : p b = true
        · have hne : b ≠ a := fun he => ha (he ▸ hb)
          simp [hb, hne]
        · simp [hb]
termination_by xs.length
decreasing_by exact Nat.lt_succ_of_le (List.length_filter_le _ _)

theorem find?_eraseDups (p : α → Bool) (xs : List α) :
    xs.eraseDups.find? p = xs.find? p := by
  match xs with
  | [] => rfl
  | a :: as =>
      have ih := find?_eraseDups p (as.filter fun b => !b == a)
      rw [List.eraseDups_cons]
      by_cases ha : p a = true
      · rw [List.find?_cons_of_pos ha, List.find?_cons_of_pos ha]
      · rw [List.find?_cons_of_neg ha, List.find?_cons_of_neg ha, ih, List.find?_filter]
        congr 1
        funext b
        by_cases hb : p b = true
        · have hne : b ≠ a := fun he => ha (he ▸ hb)
          simp [hb, hne]
        · simp [hb]
termination_by xs.length
decreasing_by exact Nat.lt_succ_of_le (List.length_filter_le _ _)

end

namespace SameFirsts

variable {xs ys zs xs' ys' : List α}

theorem refl (xs : List α) : SameFirsts xs xs := rfl

theorem symm (h : SameFirsts xs ys) : SameFirsts ys xs := Eq.symm h

theorem trans (h : SameFirsts xs ys) (h' : SameFirsts ys zs) : SameFirsts xs zs :=
  Eq.trans h h'

theorem mem_iff (h : SameFirsts xs ys) {a : α} : a ∈ xs ↔ a ∈ ys := by
  classical
  rw [← List.mem_eraseDups, h, List.mem_eraseDups]

theorem append (h : SameFirsts xs ys) (h' : SameFirsts xs' ys') :
    SameFirsts (xs ++ xs') (ys ++ ys') := by
  classical
  have hmem : ∀ b, xs.elem b = ys.elem b := by
    intro b
    rw [Bool.eq_iff_iff, List.elem_iff, List.elem_iff]
    exact h.mem_iff
  unfold SameFirsts at h h' ⊢
  rw [List.eraseDups_append, List.eraseDups_append, h, List.removeAll, List.removeAll,
    eraseDups_filter, eraseDups_filter, h']
  simp only [hmem]

/-- What is known already can be left out. -/
theorem append_of_subset (h : ∀ a ∈ ys, a ∈ xs) : SameFirsts (xs ++ ys) xs := by
  classical
  unfold SameFirsts
  have hnil : ys.removeAll xs = [] := by
    rw [List.removeAll, List.filter_eq_nil_iff]
    intro a ha
    simpa using h a ha
  rw [List.eraseDups_append, hnil, List.eraseDups_nil, List.append_nil]

/-- Of the members whose lists are known already, none needs to be looked at. -/
theorem append_flatMap_filter {f : α → List β} {a : α} [DecidableEq α] (xs : List α)
    {known : List β} (h : ∀ b ∈ f a, b ∈ known) :
    SameFirsts (known ++ xs.flatMap f) (known ++ (xs.filter (· ≠ a)).flatMap f) := by
  induction xs generalizing known with
  | nil => exact refl _
  | cons x xs ih =>
      by_cases hx : x = a
      · subst hx
        rw [List.filter_cons_of_neg (by simp), List.flatMap_cons, ← List.append_assoc]
        exact ((append_of_subset h).append (refl _)).trans (ih h)
      · rw [List.filter_cons_of_pos (by simpa using hx), List.flatMap_cons, List.flatMap_cons,
          ← List.append_assoc, ← List.append_assoc]
        exact ih fun b hb => List.mem_append_left _ (h b hb)

theorem flatMap_eraseDups {f : α → List β} [DecidableEq α] (xs : List α) :
    SameFirsts (xs.flatMap f) (xs.eraseDups.flatMap f) := by
  match xs with
  | [] => exact refl _
  | a :: as =>
      have ih := flatMap_eraseDups (f := f) (as.filter fun b => decide (b ≠ a))
      have hfilter : (as.filter fun b => !b == a) = as.filter fun b => decide (b ≠ a) := by
        refine List.filter_congr fun b _ => ?_
        by_cases hb : b = a <;> simp [hb]
      rw [List.eraseDups_cons, List.flatMap_cons, List.flatMap_cons, hfilter]
      exact (append_flatMap_filter as fun b hb => hb).trans ((refl _).append ih)
termination_by xs.length
decreasing_by exact Nat.lt_succ_of_le (List.length_filter_le _ _)

/-- Lists that agree up to repeats may be put in the place of each member. -/
theorem flatMap {f g : α → List β} (h : SameFirsts xs ys)
    (hfg : ∀ a ∈ xs, SameFirsts (f a) (g a)) :
    SameFirsts (xs.flatMap f) (ys.flatMap g) := by
  classical
  have hpointwise : ∀ zs : List α, (∀ a ∈ zs, a ∈ xs) →
      SameFirsts (zs.flatMap f) (zs.flatMap g) := by
    intro zs hzs
    induction zs with
    | nil => exact refl _
    | cons a zs ih =>
        rw [List.flatMap_cons, List.flatMap_cons]
        exact (hfg a (hzs a List.mem_cons_self)).append
          (ih fun b hb => hzs b (List.mem_cons_of_mem _ hb))
  have hfirst := hpointwise xs.eraseDups fun a ha => List.mem_eraseDups.1 ha
  refine (flatMap_eraseDups xs).trans (hfirst.trans ?_)
  have heq : xs.eraseDups = ys.eraseDups := h
  rw [heq]
  exact (flatMap_eraseDups ys).symm

theorem map {f : α → β} (h : SameFirsts xs ys) : SameFirsts (xs.map f) (ys.map f) := by
  rw [List.map_eq_flatMap, List.map_eq_flatMap]
  exact h.flatMap fun _ _ => refl _

theorem find? (h : SameFirsts xs ys) (p : α → Bool) : xs.find? p = ys.find? p := by
  classical
  rw [← find?_eraseDups, h, find?_eraseDups]

end SameFirsts

end LexTags
