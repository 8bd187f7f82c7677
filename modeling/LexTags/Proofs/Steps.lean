/-!
# Computations that may fail

What a sequence of steps comes to is read off its steps. It succeeds if each of them does, and
otherwise it fails in the way in which one of them fails.
-/

namespace LexTags

variable {ε α β : Type} {x : Except ε α} {f : α → Except ε β} {e : ε}

/-- A step behind another one succeeds only on what the first has led to. -/
theorem bind_eq_ok {b : β} : (x >>= f) = .ok b ↔ ∃ a, x = .ok a ∧ f a = .ok b := by
  cases x with
  | error e =>
      refine ⟨fun h => ?_, fun ⟨a, ha, _⟩ => ?_⟩
      · cases h
      · cases ha
  | ok a => exact ⟨fun h => ⟨a, rfl, h⟩, fun ⟨_, ha, h⟩ => Except.ok.inj ha ▸ h⟩

/-- Of two steps, the first fails or the second does. -/
theorem bind_eq_error : (x >>= f) = .error e ↔ x = .error e ∨ ∃ a, x = .ok a ∧ f a = .error e := by
  cases x with
  | error e' =>
      constructor
      · intro h
        cases h
        exact .inl rfl
      · rintro (h | ⟨a, ha, -⟩)
        · cases h
          rfl
        · cases ha
  | ok a =>
      constructor
      · exact fun h => .inr ⟨a, rfl, h⟩
      · rintro (h | ⟨_, ha, h⟩)
        · cases h
        · exact Except.ok.inj ha ▸ h

theorem ite_eq_ok {c : Prop} [Decidable c] {a b : α} :
    (if c then .ok a else .error e : Except ε α) = .ok b ↔ c ∧ a = b := by
  by_cases hc : c
  · rw [if_pos hc]
    exact ⟨fun h => ⟨hc, Except.ok.inj h⟩, fun h => congrArg _ h.2⟩
  · rw [if_neg hc]
    exact ⟨fun h => (nomatch h), fun h => absurd h.1 hc⟩

theorem ite_eq_error {c : Prop} [Decidable c] {a : α} {e' : ε} :
    (if c then .ok a else .error e : Except ε α) = .error e' ↔ ¬c ∧ e = e' := by
  by_cases hc : c
  · rw [if_pos hc]
    exact ⟨fun h => (nomatch h), fun h => absurd hc h.1⟩
  · rw [if_neg hc]
    exact ⟨fun h => ⟨hc, Except.error.inj h⟩, fun h => congrArg _ h.2⟩

variable {xs : List α} {g : α → Except ε Unit}

/-- A step taken for each member of a list succeeds if it does for every member. -/
theorem forM_eq_ok : xs.forM g = .ok () ↔ ∀ x ∈ xs, g x = .ok () := by
  induction xs with
  | nil => exact ⟨fun _ x hx => absurd hx List.not_mem_nil, fun _ => rfl⟩
  | cons x xs ih =>
      show (g x >>= fun _ => xs.forM g) = .ok () ↔ _
      rw [bind_eq_ok, List.forall_mem_cons, ← ih]
      exact ⟨fun ⟨_, hx, hxs⟩ => ⟨hx, hxs⟩, fun ⟨hx, hxs⟩ => ⟨(), hx, hxs⟩⟩

/-- It fails in the way in which it fails for some member. -/
theorem exists_of_forM_eq_error (h : xs.forM g = .error e) : ∃ x ∈ xs, g x = .error e := by
  induction xs with
  | nil => cases h
  | cons x xs ih =>
      rcases bind_eq_error.1 h with hx | ⟨_, -, hxs⟩
      · exact ⟨x, List.mem_cons_self, hx⟩
      · obtain ⟨y, hy, hfail⟩ := ih hxs
        exact ⟨y, List.mem_cons_of_mem _ hy, hfail⟩

end LexTags
