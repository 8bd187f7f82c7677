import LexTags.Proofs.Linking
import LexTags.Proofs.Pooling

/-!
# Numbers stay below what they count

Sets, clauses and cells are numbered from zero on, and a number is what has been counted by then:
the sets in the pool, the clauses of the entry before this one, the cells that are in use. A count
never goes down. So each number that is given out is below the count at the end, which is the size
of the pool, the number of completions or the number of cells.

This is what keeps the numbers within 32 bits, as they are not checked like offsets. With at most
`maxOffset` sets in the pool, clauses in each entry and cells in each clause, no number and no
count is larger than that, in a compiled lexer or on the way to it, and to count with 32 bits comes
to the same.
-/

namespace LexTags

/-- The places where the text is found. -/
def Capture.addresses (c : Capture) : List Address := c.start :: c.stop?.toList

/-- An entry has no number from these on, of a set, of a clause or of a cell. -/
structure CompiledEntry.NumbersBelow (sets clauses cells : Nat) (e : CompiledEntry) : Prop where
  set : ∀ u ∈ e.regular.units, u.2 < sets
  action : ∀ id ∈ e.regular.actions, id < clauses
  tag : ∀ t ∈ e.regular.tags, t.action < clauses
  completion : ∀ done ∈ e.completions, done.action < clauses
  cell : ∀ done ∈ e.completions, ∀ capture ∈ done.captures.entries, ∀ a ∈ capture.2.addresses,
    ∀ c, a.anchor = .cell c → c < cells

namespace Tagged

theorem units_relocate {d : Nat} {p : Tagged} :
    (p.relocate d).units = p.units.map fun u => (u.1, u.2 + d) := by
  induction p with
  | alt l r ihl ihr => rw [relocate, units_alt, units_alt, ihl, ihr, List.map_append]
  | seq a b iha ihb => rw [relocate, units_seq, units_seq, iha, ihb, List.map_append]
  | star p ih => exact ih
  | _ => rfl

end Tagged

variable {config : Config}

/-- An address of a capture is one of the layout, so its cell is in use. -/
theorem Layout.Account.cell_lt_of_capture {usage : Usage} {clause : Tagged} {l : Layout}
    {events : List Event} {more : List Boundary} (h : Account usage clause l events more)
    {capture : String × Capture} (hcapture : capture ∈ l.captures.entries) {a : Address}
    (ha : a ∈ capture.2.addresses) {c : Nat} (hc : a.anchor = .cell c) : c < l.cells := by
  have hcap := h.captures (OrderedMap.get?_eq_some_iff.2 hcapture)
  rcases List.mem_cons.1 ha with rfl | hstop
  · exact h.lt_cells (OrderedMap.get?_eq_some_iff.1 hcap.start) hc
  · have hstop := Option.mem_toList.1 hstop
    by_cases hchar : capture.1 ∈ usage.charNames
    · rw [hcap.stop_of_char hchar] at hstop
      cases hstop
    · obtain ⟨a', ha', hget⟩ := hcap.stop hchar
      obtain rfl : a' = a := Option.some.inj (ha'.symm.trans hstop)
      exact h.lt_cells (OrderedMap.get?_eq_some_iff.1 hget) hc

namespace Part

/-- By itself a clause numbers its own sets. -/
theorem unit_lt (part : Part config) {u : Bool × Nat} (hu : u ∈ part.layout.regular.units) :
    u.2 < part.pool.size := by
  obtain ⟨hpool, events, more, haccount⟩ := part.exists_account
  rw [Tagged.units_of_pruned haccount.pruned, Pattern.units_encodeFrom] at hu
  have hlt := (List.mem_zipIdx hu).2.1
  rw [hpool, List.size_toArray, Pattern.length_leaves, ← List.length_map Prod.fst]
  omega

/-- The parts share out the sets behind the offset. -/
theorem add_size_le_of_mem_placed {offset : Nat} {parts : List (Part config)}
    {e : Nat × Part config} (h : e ∈ placed offset parts) :
    e.2 ∈ parts ∧ e.1 + e.2.pool.size ≤ offset + (sets parts).size := by
  induction parts generalizing offset with
  | nil => cases h
  | cons part parts ih =>
      rw [sets, Array.size_append]
      rcases List.mem_cons.1 h with rfl | h
      · exact ⟨List.mem_cons_self, by dsimp only; omega⟩
      · obtain ⟨hmem, hle⟩ := ih h
        exact ⟨List.mem_cons_of_mem _ hmem, by omega⟩

theorem units_branch (offset : Nat) (part : Part config) :
    (part.branch offset).units = part.layout.regular.units.map fun u => (u.1, u.2 + offset) := by
  rw [branch, Tagged.units_append, Tagged.units_relocate]
  exact List.append_nil _

theorem tags_branch (offset : Nat) (part : Part config) :
    (part.branch offset).tags = part.layout.regular.tags := by
  rw [branch, Tagged.tags_append, Tagged.tags_relocate]
  exact List.append_nil _

end Part

/-- An entry that is put together behind `offset` sets numbers no more than its own ones. -/
theorem Entry.numbersBelow_link (entry : Entry) {offset sets : Nat} {parts : List (Part config)}
    (hsets : offset + (Part.sets parts).size ≤ sets)
    (hactions : ∀ part ∈ parts, part.action < parts.length) :
    (entry.link offset parts).NumbersBelow sets parts.length (entry.link offset parts).cells where
  set u hu := by
    have hunits : (entry.link offset parts).regular.units =
        (Part.branches offset parts).flatMap Tagged.units :=
      Tagged.flatMap_alternation rfl (fun _ _ => Tagged.units_alt) _
    rw [hunits, Part.branches, List.flatMap_map] at hu
    obtain ⟨⟨at', part⟩, he, hu⟩ := List.mem_flatMap.1 hu
    rw [Part.units_branch] at hu
    obtain ⟨v, hv, rfl⟩ := List.mem_map.1 hu
    have hlt := part.unit_lt hv
    have hle := (Part.add_size_le_of_mem_placed he).2
    dsimp only at hle ⊢
    omega
  action id hid := by
    rw [entry.actions_link] at hid
    obtain ⟨part, hpart, rfl⟩ := List.mem_map.1 hid
    exact hactions part hpart
  tag t ht := by
    have htags : (entry.link offset parts).regular.tags =
        (Part.branches offset parts).flatMap Tagged.tags :=
      Tagged.flatMap_alternation rfl (fun _ _ => rfl) _
    rw [htags, Part.branches, List.flatMap_map] at ht
    obtain ⟨⟨at', part⟩, he, ht⟩ := List.mem_flatMap.1 ht
    rw [Part.tags_branch] at ht
    rw [part.action_of_mem_tags ht]
    exact hactions part (Part.add_size_le_of_mem_placed he).1
  completion done hdone := by
    obtain ⟨part, hpart, rfl⟩ := List.mem_map.1 hdone
    exact hactions part hpart
  cell done hdone capture hcapture a ha c hc := by
    obtain ⟨part, hpart, rfl⟩ := List.mem_map.1 hdone
    obtain ⟨-, events, more, haccount⟩ := part.exists_account
    refine Nat.lt_of_lt_of_le (haccount.cell_lt_of_capture hcapture ha hc) ?_
    exact List.le_max?_getD_of_mem (List.mem_map_of_mem hpart)

theorem numbersBelow_linkEntries {linked : List (Entry × List (Part config))}
    {offset sets : Nat} (hsets : offset + (Part.sets (linked.map Prod.snd).flatten).size ≤ sets)
    (hactions : ∀ e ∈ linked, ∀ part ∈ e.2, part.action < e.2.length) :
    ∀ e ∈ linkEntries offset linked, e.NumbersBelow sets e.completions.length e.cells := by
  induction linked generalizing offset with
  | nil => exact fun e he => nomatch he
  | cons head linked ih =>
      obtain ⟨entry, parts⟩ := head
      rw [List.map_cons, List.flatten_cons, Part.sets_append, Array.size_append] at hsets
      rw [List.forall_mem_cons] at hactions
      dsimp only at hsets hactions
      intro e he
      rcases List.mem_cons.1 he with rfl | he
      · have hfirst : offset + (Part.sets parts).size ≤ sets := by omega
        have hbelow := entry.numbersBelow_link hfirst hactions.1
        have hlength : (entry.link offset parts).completions.length = parts.length :=
          List.length_map _
        exact hlength.symm ▸ hbelow
      · exact ih (by omega) hactions.2 e he

/-- The numbers in a lexer that is put together from its clauses stay below its counts. -/
theorem Lexer.numbersBelow_link (lexer : Lexer) {parts : List (List (Part config))}
    (h : parts.map (·.map Part.source) = lexer.entries.map (·.clauses.zipIdx)) :
    ∀ e ∈ (lexer.link parts).entries,
      e.NumbersBelow (lexer.link parts).pool.size e.completions.length e.cells := by
  have hlength := congrArg List.length h
  rw [List.length_map, List.length_map] at hlength
  have hparts : (lexer.entries.zip parts).map Prod.snd = parts :=
    List.map_snd_zip (Nat.le_of_eq hlength)
  refine numbersBelow_linkEntries ?_ fun e he part hpart => ?_
  · rw [hparts, Nat.zero_add]
    exact Nat.le_refl _
  · have hmem : e.2 ∈ parts := hparts ▸ List.mem_map_of_mem he
    have hsources : e.2.map Part.source ∈ lexer.entries.map (·.clauses.zipIdx) :=
      h ▸ List.mem_map_of_mem hmem
    obtain ⟨entry, -, hentry⟩ := List.mem_map.1 hsources
    have hactions := Session.map_action_of_sources hentry.symm
    have haction : part.action ∈ List.range entry.clauses.length :=
      hactions ▸ List.mem_map_of_mem hpart
    have hcount := congrArg List.length hentry
    rw [List.length_zipIdx, List.length_map] at hcount
    exact hcount ▸ List.mem_range.1 haction

end LexTags
