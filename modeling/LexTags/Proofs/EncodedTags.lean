import LexTags.Proofs.Encoding

/-!
# The tags of an encoding

What the layout wants to know of a clause before it lays it out: there is no action in it,
each tag marks an end of a name of the pattern, names of one unit are never closed, and an
open tag of a name that is not repeated is the only tag of its boundary. The last point is
where the usage earns its keep. Two tags of one boundary come from two bindings of the name,
and if one of them is open then the two stand in one sequence, or one inside the other;
either way the name is repeated.
-/

namespace LexTags.Pattern

variable {charNames : OrderedSet String} {action n : Nat} {t : Tag}

theorem hasActions_bound {name : String} {body : Tagged} :
    (Tagged.bound charNames action name body).hasActions = body.hasActions := by
  rw [Tagged.bound]
  split
  · rw [Tagged.hasActions_append]
    rfl
  · rw [Tagged.hasActions_append, Tagged.hasActions_append]
    exact Bool.or_false _

theorem hasActions_encodeFrom (p : Pattern) :
    (p.encodeFrom charNames action n).hasActions = false := by
  induction p generalizing n with
  | epsilon | eof | chars _ => rfl
  | alt l r ihl ihr => rw [encodeFrom, Tagged.hasActions_either, ihl, ihr, Bool.or_self]
  | seq a b iha ihb => rw [encodeFrom, Tagged.hasActions_append, iha, ihb, Bool.or_self]
  | star p ih => rw [encodeFrom, Tagged.hasActions_many, ih]
  | bind name p ih => rw [encodeFrom, hasActions_bound, ih]

/-- The closing tag of a binding, if its name has one. -/
def closingTags (charNames : OrderedSet String) (action : Nat) (name : String) : List Tag :=
  if name ∈ charNames then [] else [⟨.closing name, action⟩]

theorem tags_bound {name : String} {body : Tagged} :
    (Tagged.bound charNames action name body).tags =
      ⟨.opening name, action⟩ :: (body.tags ++ closingTags charNames action name) := by
  rw [Tagged.bound, closingTags]
  split
  · rw [Tagged.tags_append, List.append_nil]
    rfl
  · rw [Tagged.tags_append, Tagged.tags_append]
    rfl

theorem mem_openTags_bound {name : String} {body : Tagged} :
    t ∈ (Tagged.bound charNames action name body).openTags ↔
      t = ⟨.opening name, action⟩ ∨ t ∈ body.openTags ∨
        t ∈ closingTags charNames action name := by
  rw [Tagged.bound, closingTags]
  split <;> simp [Tagged.mem_openTags_append, Tagged.openTags]

/-- Each tag of an encoding marks an end of a name of the pattern. -/
theorem mem_tags_encodeFrom {p : Pattern} (h : t ∈ (p.encodeFrom charNames action n).tags) :
    t.action = action ∧ t.boundary.name ∈ p.names ∧
      (t.boundary.side = .closing → t.boundary.name ∉ charNames) := by
  induction p generalizing n with
  | epsilon | eof | chars _ => cases h
  | alt l r ihl ihr =>
      rcases Tagged.mem_tags_either.1 h with hl | hr
      · obtain ⟨ha, hn, hc⟩ := ihl hl
        exact ⟨ha, List.mem_append_left _ hn, hc⟩
      · obtain ⟨ha, hn, hc⟩ := ihr hr
        exact ⟨ha, List.mem_append_right _ hn, hc⟩
  | seq a b iha ihb =>
      rw [encodeFrom, Tagged.tags_append] at h
      rcases List.mem_append.1 h with ha | hb
      · obtain ⟨ha, hn, hc⟩ := iha ha
        exact ⟨ha, List.mem_append_left _ hn, hc⟩
      · obtain ⟨ha, hn, hc⟩ := ihb hb
        exact ⟨ha, List.mem_append_right _ hn, hc⟩
  | star p ih =>
      rw [encodeFrom, Tagged.tags_many] at h
      exact ih h
  | bind name p ih =>
      rw [encodeFrom, tags_bound, List.mem_cons, List.mem_append] at h
      rcases h with rfl | hbody | hclose
      · exact ⟨rfl, List.mem_cons_self, fun hside => Side.noConfusion hside⟩
      · obtain ⟨ha, hn, hc⟩ := ih hbody
        exact ⟨ha, List.mem_cons_of_mem _ hn, hc⟩
      · rw [closingTags] at hclose
        split at hclose
        · cases hclose
        · next hname =>
            rw [List.mem_singleton.1 hclose]
            exact ⟨rfl, List.mem_cons_self, fun _ => hname⟩

/-- Each end of a name of the pattern is marked, but for the ends of names of one unit. -/
theorem exists_tag_encodeFrom {p : Pattern} {b : Boundary} (hname : b.name ∈ p.names)
    (hside : b.side = .closing → b.name ∉ charNames) :
    ∃ t ∈ (p.encodeFrom charNames action n).tags, t.boundary = b := by
  induction p generalizing n with
  | epsilon | eof | chars _ => cases hname
  | alt l r ihl ihr =>
      rcases List.mem_append.1 hname with hl | hr
      · obtain ⟨t, ht, hb⟩ := ihl hl
        exact ⟨t, Tagged.mem_tags_either.2 (.inl ht), hb⟩
      · obtain ⟨t, ht, hb⟩ := ihr hr
        exact ⟨t, Tagged.mem_tags_either.2 (.inr ht), hb⟩
  | seq a b iha ihb =>
      rw [encodeFrom, Tagged.tags_append]
      rcases List.mem_append.1 hname with ha | hb
      · obtain ⟨t, ht, hb⟩ := iha ha
        exact ⟨t, List.mem_append_left _ ht, hb⟩
      · obtain ⟨t, ht, hb⟩ := ihb hb
        exact ⟨t, List.mem_append_right _ ht, hb⟩
  | star p ih =>
      rw [encodeFrom, Tagged.tags_many]
      exact ih hname
  | bind name p ih =>
      rw [encodeFrom, tags_bound]
      rcases List.mem_cons.1 hname with rfl | hbody
      · obtain ⟨name, side⟩ := b
        cases side with
        | opening => exact ⟨_, List.mem_cons_self, rfl⟩
        | closing =>
            have hclose : (⟨.closing name, action⟩ : Tag) ∈
                closingTags charNames action name := by
              rw [closingTags, if_neg (hside rfl)]
              exact List.mem_singleton_self _
            exact ⟨_, List.mem_cons_of_mem _ (List.mem_append_right _ hclose), rfl⟩
      · obtain ⟨t, ht, hb⟩ := ih hbody
        exact ⟨t, List.mem_cons_of_mem _ (List.mem_append_left _ ht), hb⟩

/-- A boundary of a name that the pattern does not bind is not marked. -/
theorem count_boundary_eq_zero {p : Pattern} {b : Boundary} (h : b.name ∉ p.names) :
    ((p.encodeFrom charNames action n).tags.map Tag.boundary).count b = 0 := by
  rw [List.count_eq_zero]
  intro hb
  obtain ⟨t, ht, rfl⟩ := List.mem_map.1 hb
  exact h (mem_tags_encodeFrom ht).2.1

/-- An open tag of a name that is not repeated is alone in marking its boundary. -/
theorem count_boundary_eq_one {p : Pattern}
    (h : t ∈ (p.encodeFrom charNames action n).openTags)
    (hrep : t.boundary.name ∉ p.usage.repeated) :
    ((p.encodeFrom charNames action n).tags.map Tag.boundary).count t.boundary = 1 := by
  induction p generalizing n with
  | epsilon | eof | chars _ => cases h
  | alt l r ihl ihr =>
      rw [usage, Usage.alternation, Usage.merge, OrderedSet.mem_union, not_or] at hrep
      rw [encodeFrom] at h ⊢
      by_cases hlr : l.encodeFrom charNames action n =
          r.encodeFrom charNames action (n + l.leaves.length)
      · rw [← hlr, Tagged.either_self] at h ⊢
        exact ihl h hrep.1
      · rw [Tagged.either_of_ne hlr] at h
        cases h
  | seq a b iha ihb =>
      simp only [usage, Usage.sequence, Usage.merge, OrderedSet.mem_union,
        OrderedSet.mem_inter, mem_bound_iff, not_or, not_and] at hrep
      obtain ⟨hboth, hra, hrb⟩ := hrep
      rw [encodeFrom] at h ⊢
      rw [Tagged.tags_append, List.map_append, List.count_append]
      rcases Tagged.mem_openTags_append.1 h with ha | hb
      · have hname := (mem_tags_encodeFrom (Tagged.mem_tags_of_mem_openTags ha)).2.1
        rw [iha ha hra, count_boundary_eq_zero (hboth hname)]
      · have hname := (mem_tags_encodeFrom (Tagged.mem_tags_of_mem_openTags hb)).2.1
        rw [ihb hb hrb, count_boundary_eq_zero fun ha => hboth ha hname]
  | star p _ =>
      rw [encodeFrom, Tagged.openTags_many] at h
      cases h
  | bind name p ih =>
      rw [mem_repeated_bind, not_or, not_and] at hrep
      obtain ⟨hrep, hname⟩ := hrep
      rw [encodeFrom] at h ⊢
      rw [tags_bound, List.map_cons, List.map_append, List.count_cons, List.count_append]
      rcases mem_openTags_bound.1 h with rfl | hbody | hclose
      · rw [count_boundary_eq_zero (hname rfl), closingTags]
        split <;> simp [Boundary.opening, Boundary.closing]
      · have hbound := (mem_tags_encodeFrom (Tagged.mem_tags_of_mem_openTags hbody)).2.1
        have hne : name ≠ t.boundary.name := fun he => hname he.symm (he ▸ hbound)
        have hopen : Boundary.opening name ≠ t.boundary := fun he =>
          hne (congrArg Boundary.name he)
        have hclose : Boundary.closing name ≠ t.boundary := fun he =>
          hne (congrArg Boundary.name he)
        rw [ih hbody hrep, closingTags]
        split <;> simp [hopen, hclose]
      · rw [closingTags] at hclose ⊢
        split at hclose
        · cases hclose
        · next hchar =>
            rw [List.mem_singleton.1 hclose] at hname ⊢
            rw [if_neg hchar, count_boundary_eq_zero (hname rfl)]
            simp [Boundary.opening, Boundary.closing]

end LexTags.Pattern
