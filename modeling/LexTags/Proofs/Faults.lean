import LexTags.Proofs.Failures
import LexTags.Proofs.Leaves

/-!
# Which clauses have no layout

A clause is refused for one of two reasons: there is an action in it, or a tag of a name that
the usage does not know. Whichever of these comes first when the leaves are read from left to
right is the error, and it quotes the whole clause. Every other clause has a layout, and its
captures are the names of the usage, whatever else the usage says of them: that a pass believes
a wrong usage makes for wrong addresses, but not for a failure.

`layout?` is the layout with its blind spots shown. Its search for faults passes over whatever
holds neither tags nor actions, by the flags kept at the nodes, and its passes fail where they
have no case. Neither makes a difference: the flags are those of the leaves, and the search and
the passes agree on what they have to look at.
-/

namespace LexTags.Layout

variable {usage : Usage} {printed : String} {p x : Tagged} {fault : ClauseError}

/-- The leaf must not stand in a clause. The error says why, and how the clause is printed. -/
inductive Fault (usage : Usage) (printed : String) : Tagged → ClauseError → Prop where
  | action (id : Nat) : Fault usage printed (.action id) (.unexpectedAction id printed)
  | tag {t : Tag} (ht : t.boundary.name ∉ usage.bound) :
      Fault usage printed (.tag t) (.unknownBinding t.boundary.name (toString t) printed)

/-- The error is about the first leaf that is at fault, from left to right. -/
def FirstFault (usage : Usage) (clause : Tagged) (error : ClauseError) : Prop :=
  ∃ before leaf behind, clause.leaves = before ++ leaf :: behind ∧
    (∀ x ∈ before, ∀ e, ¬Fault usage clause.render x e) ∧
    Fault usage clause.render leaf error

/-! ## The search for a fault -/

/-- The fault of a leaf. -/
def faultAt? (usage : Usage) (printed : String) : Tagged → Option ClauseError
  | .action id => some (.unexpectedAction id printed)
  | .tag t =>
      if t.boundary.name ∈ usage.bound then none
      else some (.unknownBinding t.boundary.name (toString t) printed)
  | _ => none

theorem faultAt?_eq_some_iff :
    faultAt? usage printed x = some fault ↔ Fault usage printed x fault := by
  refine ⟨fun h => ?_, fun h => ?_⟩
  · cases x with
    | action id =>
        cases h
        exact .action id
    | tag t =>
        rw [faultAt?] at h
        split at h
        · cases h
        · next ht =>
            cases h
            exact .tag ht
    | _ => cases h
  · cases h with
    | action id => rfl
    | tag ht => exact if_neg ht

theorem faultAt?_eq_none_iff :
    faultAt? usage printed x = none ↔ ∀ e, ¬Fault usage printed x e := by
  simp only [Option.eq_none_iff_forall_ne_some, ne_eq, faultAt?_eq_some_iff]

theorem exists_fault_iff :
    (∃ e, Fault usage printed x e) ↔
      (∃ id, x = .action id) ∨ ∃ t, x = .tag t ∧ t.boundary.name ∉ usage.bound := by
  refine ⟨fun h => ?_, fun h => ?_⟩
  · obtain ⟨e, he⟩ := h
    cases he with
    | action id => exact .inl ⟨id, rfl⟩
    | tag ht => exact .inr ⟨_, rfl, ht⟩
  · rcases h with ⟨id, rfl⟩ | ⟨t, rfl, ht⟩
    · exact ⟨_, .action id⟩
    · exact ⟨_, .tag ht⟩

/-- The search reads the leaves from left to right. -/
theorem faultIn?_eq_findSome? (p : Tagged) :
    faultIn? usage printed p = p.leaves.findSome? (faultAt? usage printed) := by
  induction p with
  | epsilon | chars _ | eof _ | action _ => rfl
  | tag t =>
      show _ = [Tagged.tag t].findSome? (faultAt? usage printed)
      rw [List.findSome?_singleton]
      rfl
  | alt l r ihl ihr => rw [faultIn?, ihl, ihr, Tagged.leaves, List.findSome?_append]
  | seq a b iha ihb => rw [faultIn?, iha, ihb, Tagged.leaves, List.findSome?_append]
  | star p ih => exact ih

theorem faultIn?_render_eq_some_iff {clause : Tagged} :
    faultIn? usage clause.render clause = some fault ↔ FirstFault usage clause fault := by
  rw [faultIn?_eq_findSome?, List.findSome?_eq_some_iff]
  simp only [faultAt?_eq_some_iff, faultAt?_eq_none_iff, FirstFault, and_comm]

theorem exists_faultIn?_iff :
    (∃ error, faultIn? usage printed p = some error) ↔
      (∃ id, .action id ∈ p.leaves) ∨ ∃ t, .tag t ∈ p.leaves ∧ t.boundary.name ∉ usage.bound := by
  rw [faultIn?_eq_findSome?, ← Option.isSome_iff_exists, List.findSome?_isSome_iff]
  simp only [Option.isSome_iff_exists, faultAt?_eq_some_iff, exists_fault_iff]
  refine ⟨fun h => ?_, fun h => ?_⟩
  · obtain ⟨x, hx, hfault⟩ := h
    rcases hfault with ⟨id, rfl⟩ | ⟨t, rfl, ht⟩
    · exact .inl ⟨id, hx⟩
    · exact .inr ⟨t, hx, ht⟩
  · rcases h with ⟨id, hx⟩ | ⟨t, hx, ht⟩
    · exact ⟨_, hx, .inl ⟨id, rfl⟩⟩
    · exact ⟨_, hx, .inr ⟨t, rfl, ht⟩⟩

/-! ## The search that looks at the flags -/

/-- `faultIn?` as a walk that passes over what holds neither tags nor actions, and stops at the
first fault. -/
def inspect (usage : Usage) (printed : String) (p : Tagged) : Except ClauseError Unit := do
  if !p.hasTags && !p.hasActions then return
  match p with
  | .action id => throw (.unexpectedAction id printed)
  | .tag t =>
      if t.boundary.name ∉ usage.bound then
        throw (.unknownBinding t.boundary.name (toString t) printed)
  | .alt a b | .seq a b =>
      inspect usage printed a
      inspect usage printed b
  | .star p => inspect usage printed p
  | .epsilon | .chars _ | .eof _ => return

/-- What is passed over has no fault. -/
theorem faultIn?_of_unmarked (h : (!p.hasTags && !p.hasActions) = true) :
    faultIn? usage printed p = none := by
  rw [Bool.and_eq_true, Tagged.hasTags_eq, Bool.not_not, List.isEmpty_iff,
    Bool.not_eq_true'] at h
  refine faultIn?_eq_none p h.2 fun t ht => ?_
  rw [h.1] at ht
  cases ht

theorem inspect_eq (p : Tagged) :
    inspect usage printed p = (faultIn? usage printed p).elim (.ok ()) .error := by
  induction p with
  | epsilon | chars _ | eof _ | action _ => rfl
  | tag t =>
      rw [inspect, faultIn?]
      by_cases ht : t.boundary.name ∈ usage.bound <;> simp [ht] <;> rfl
  | alt l r ihl ihr =>
      rw [inspect, ihl, ihr]
      split
      · next h =>
          rw [faultIn?_of_unmarked h]
          rfl
      · rw [faultIn?]
        cases faultIn? usage printed l <;> rfl
  | seq a b iha ihb =>
      rw [inspect, iha, ihb]
      split
      · next h =>
          rw [faultIn?_of_unmarked h]
          rfl
      · rw [faultIn?]
        cases faultIn? usage printed a <;> rfl
  | star p ih =>
      rw [inspect, ih]
      split
      · next h =>
          rw [faultIn?_of_unmarked h]
          rfl
      · rfl

/-! ## The layout that can miss a case -/

/-- The layout of a clause, by a search that looks at the flags and passes that leave cases
out. -/
def layout? (usage : Usage) (optimise : Bool) (clause : Tagged) :
    OptionT (StateM Ledger) (Except ClauseError Layout) :=
  match inspect usage clause.render clause with
  | .error fault => return .error fault
  | .ok () => return .ok (← compute? usage optimise clause)

theorem keys_captures_compute (usage : Usage) (optimise : Bool) (clause : Tagged)
    (ledger : Ledger) :
    ((compute usage optimise clause).run ledger).1.captures.keys = usage.bound := by
  obtain ⟨captures, grown, hrun, -, hkeys, -⟩ :=
    capturesOf_spec usage ((passes usage optimise clause).run ledger).2
  rw [compute_run]
  simp only [hrun, hkeys]

/-- A clause has a layout unless there is an action or a tag of an unknown name in it, and the
first of these is the error. No case is missed on the way, and the captures are the names of
the usage in its order, whatever the usage says of them. -/
theorem layout_fails_iff (usage : Usage) (optimise : Bool) (clause : Tagged) :
    ∃ result ledger,
      (layout? usage optimise clause).run.run default = (some result, ledger) ∧
      clause.layout usage optimise = result.map (·, ledger.trace) ∧
      ((∃ error, result = .error error) ↔
        (∃ id, .action id ∈ clause.leaves) ∨
          ∃ t, .tag t ∈ clause.leaves ∧ t.boundary.name ∉ usage.bound) ∧
      (∀ error, result = .error error ↔ FirstFault usage clause error) ∧
      ∀ layout, result = .ok layout → layout.captures.keys = usage.bound := by
  have hfirst : ∀ error, FirstFault usage clause error ↔
      faultIn? usage clause.render clause = some error :=
    fun _ => faultIn?_render_eq_some_iff.symm
  have hinspect := @inspect_eq usage clause.render clause
  rw [← @exists_faultIn?_iff usage clause.render clause]
  simp only [hfirst]
  cases hfault : faultIn? usage clause.render clause with
  | some fault =>
      rw [hfault] at hinspect
      refine ⟨.error fault, default, ?_, ?_, ?_, fun error => ?_, fun layout hlayout => ?_⟩
      · rw [layout?, hinspect]
        rfl
      · rw [Tagged.layout, hfault]
        rfl
      · exact iff_of_true ⟨fault, rfl⟩ ⟨fault, rfl⟩
      · rw [Except.error.injEq, Option.some.injEq]
      · cases hlayout
  | none =>
      rw [hfault] at hinspect
      refine ⟨.ok ((compute usage optimise clause).run default).1,
        ((compute usage optimise clause).run default).2, ?_, ?_, ?_, fun error => ?_,
        fun layout hlayout => ?_⟩
      · rw [layout?, hinspect, compute?_eq]
        rfl
      · rw [Tagged.layout, hfault]
        rfl
      · simp only [reduceCtorEq]
      · simp only [reduceCtorEq]
      · cases hlayout
        exact keys_captures_compute usage optimise clause default

/-- The tag of a name that is not known comes before the action. -/
example : (Tagged.alt (.chars 0) (.seq (.tag ⟨.opening "n", 0⟩) (.action 3))).layout .none true =
    .error (.unknownBinding "n" "<n>" "([0]|<n>\x7b3\x7d)") := by
  rfl

end LexTags.Layout
