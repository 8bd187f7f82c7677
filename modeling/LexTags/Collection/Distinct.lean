/-!
# Distinct members

A list can be thinned out to its distinct members, each at its first place. `firstDistinct`
does so only up to a number of members, and looks no further once it has them.
-/

namespace LexTags

variable {α : Type} [BEq α]

/-- The first `count` members of a list that are not in `seen` and differ from each other. -/
@[specialize]
def firstDistinct (count : Nat) (seen : List α) : List α → List α
  | [] => []
  | a :: rest =>
      match count with
      | 0 => []
      | n + 1 =>
          if seen.contains a then firstDistinct (n + 1) seen rest
          else a :: firstDistinct n (a :: seen) rest

/-- Stopping early changes nothing: these are the first of all distinct members. -/
theorem firstDistinct_eq_take [LawfulBEq α] (count : Nat) (seen as : List α) :
    firstDistinct count seen as = (as.filter (!seen.contains ·)).eraseDups.take count := by
  induction as generalizing count seen with
  | nil => simp [firstDistinct]
  | cons a rest ih =>
      match count with
      | 0 => rfl
      | n + 1 =>
          by_cases h : seen.contains a
          · rw [firstDistinct, if_pos h, ih, List.filter_cons_of_neg (by simpa using h)]
          · have hfilter : (rest.filter (!seen.contains ·)).filter (fun b => !b == a) =
                rest.filter (!(a :: seen).contains ·) := by
              rw [List.filter_filter]
              exact List.filter_congr fun b _ => by rw [List.contains_cons, Bool.not_or]
            rw [firstDistinct, if_neg h, ih, List.filter_cons_of_pos (by simpa using h),
              List.eraseDups_cons, hfilter, List.take_succ_cons]

end LexTags
