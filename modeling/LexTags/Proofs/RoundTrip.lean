import LexTags.Json.Decode
import LexTags.Json.Encode
import LexTags.Proofs.Encoding
import LexTags.Proofs.NormalForm
import LexTags.Proofs.Steps

/-!
# Descriptions survive being written and read

A description is read back as it was before it was written, node for node. The one part that is
not free is a set: its list is checked on the way in, and passes if it is increasing, which the
list of every set that the operations lead to is. Whatever is accepted as a description only has
sets that have passed the check, so it can be written and read again, however it was first
written.

The facts of a node are functions of its tree, so they come back with it.
-/

namespace LexTags

/-- The sets in the patterns of a lexer, the end of the input counting as one. -/
def Lexer.sets (l : Lexer) : List CharSet :=
  l.entries.flatMap fun e => e.clauses.flatMap fun c => c.pattern.leaves

namespace Json

section

variable {α : Type} {decode : Decoder α} {encode : α → Json}

/-- All members of a list are read if each of them is. -/
theorem toList_map {as : List α} (h : ∀ a ∈ as, decode (encode a) = .ok a) :
    toList decode (arr (as.map encode)) = .ok as := by
  rw [toList]
  induction as with
  | nil => rfl
  | cons a as ih =>
      rw [List.map_cons, List.mapM_cons, h a List.mem_cons_self,
        ih fun b hb => h b (List.mem_cons_of_mem _ hb)]
      rfl

/-- Each member of what is read as a list has been read. -/
theorem exists_of_mem_toList {j : Json} {as : List α} {a : α} (h : toList decode j = .ok as)
    (ha : a ∈ as) : ∃ item, decode item = .ok a := by
  cases j with
  | arr items =>
      rw [toList] at h
      induction items generalizing as with
      | nil =>
          cases h
          cases ha
      | cons item items ih =>
          rw [List.mapM_cons] at h
          obtain ⟨b, hb, h⟩ := bind_eq_ok.1 h
          obtain ⟨bs, hbs, h⟩ := bind_eq_ok.1 h
          cases h
          rcases List.mem_cons.1 ha with rfl | ha
          · exact ⟨item, hb⟩
          · exact ih ha hbs
  | _ => cases h

end

/-! ## Numbers, places and sets -/

theorem toNat_nat {limit n : Nat} (h : n ≤ limit) : toNat limit (nat n) = .ok n := if_pos h

theorem toUnit_nat (c : CodeUnit) : toUnit (nat c.toNat) = .ok c := by
  rw [toUnit, toNat_nat (Nat.le_of_lt_succ c.toNat_lt)]
  exact congrArg Except.ok UInt16.ofNat_toNat

theorem toOffset_nat (n : UInt32) : toOffset (nat n.toNat) = .ok n := by
  have hle : n.toNat ≤ maxOffset := Nat.le_of_lt_succ n.toNat_lt
  rw [toOffset, toNat_nat hle]
  exact congrArg Except.ok UInt32.ofNat_toNat

theorem toInterval_ofInterval (i : Interval) : toInterval (ofInterval i) = .ok i := by
  simp [toInterval, ofInterval, fields?, member?, required, toUnit_nat]
  rfl

theorem toLocation_ofLocation (l : Location) : toLocation (ofLocation l) = .ok l := by
  simp [toLocation, ofLocation, fields?, member?, required, toOffset_nat]
  rfl

theorem optional_ofLocation (l? : Option Location) :
    optional toLocation (some (ofOption ofLocation l?)) = .ok l? := by
  cases l? with
  | none => rfl
  | some l =>
      show some <$> toLocation (ofLocation l) = _
      rw [toLocation_ofLocation]
      rfl

theorem toVisibility_ofVisibility (v : Visibility) : toVisibility (ofVisibility v) = .ok v := by
  cases v <;> rfl

/-- The list of a set in normal form passes the check. -/
theorem toCharSet_ofCharSet {s : CharSet} (h : s.Canonical) : toCharSet (ofCharSet s) = .ok s := by
  have hpass : CharSet.ofIntervals s.intervals = .ok s := h
  refine bind_eq_ok.2 ⟨s.intervals, toList_map fun i _ => toInterval_ofInterval i, ?_⟩
  rw [hpass]
  rfl

/-- A set that is read has passed it. -/
theorem canonical_of_toCharSet {j : Json} {s : CharSet} (h : toCharSet j = .ok s) :
    s.Canonical := by
  obtain ⟨is, -, h⟩ := bind_eq_ok.1 h
  split at h
  · next hset =>
      cases h
      exact CharSet.canonical_of_ofIntervals hset
  · cases h

/-! ## Patterns -/

theorem toPattern_ofPattern {p : Pattern} (h : ∀ s ∈ p.leaves, s.Canonical) :
    toPattern (ofPattern p) = .ok p := by
  induction p with
  | epsilon | eof => simp [toPattern, ofPattern]
  | chars s =>
      rw [ofPattern, toPattern, toCharSet_ofCharSet (h s (List.mem_singleton_self s))]
      rfl
  | alt l r ihl ihr =>
      rw [ofPattern, toPattern, ihl fun s hs => h s (List.mem_append_left _ hs),
        ihr fun s hs => h s (List.mem_append_right _ hs)]
      rfl
  | seq a b iha ihb =>
      rw [ofPattern, toPattern, iha fun s hs => h s (List.mem_append_left _ hs),
        ihb fun s hs => h s (List.mem_append_right _ hs)]
      rfl
  | star p ih =>
      rw [ofPattern, toPattern, ih h]
      rfl
  | bind name p ih =>
      have hinner : member? "inner" [("name", str name), ("inner", ofPattern p)] =
          some (ofPattern p) := by simp [member?]
      rw [ofPattern, toPattern]
      refine bind_eq_ok.2 ⟨name, by simp [member?, required, toStr], ?_⟩
      split
      · next inner hsome =>
          obtain rfl : ofPattern p = inner := Option.some.inj (hinner.symm.trans hsome)
          rw [ih h]
          rfl
      · next hnone => cases hinner.symm.trans hnone

theorem canonical_of_toPattern {j : Json} {p : Pattern} (h : toPattern j = .ok p) :
    ∀ s ∈ p.leaves, s.Canonical := by
  fun_induction toPattern j generalizing p with
  | case1 | case3 =>
      cases h
      exact fun s hs => absurd hs List.not_mem_nil
  | case2 | case4 =>
      cases h
      intro s hs
      rw [List.mem_singleton.1 hs]
      exact CharSet.canonical_single _
  | case5 set =>
      obtain ⟨set, hset, h⟩ := bind_eq_ok.1 h
      cases h
      intro s hs
      rw [List.mem_singleton.1 hs]
      exact canonical_of_toCharSet hset
  | case6 _ _ ihl ihr | case7 _ _ ihl ihr =>
      obtain ⟨l, hl, h⟩ := bind_eq_ok.1 h
      obtain ⟨r, hr, h⟩ := bind_eq_ok.1 h
      cases h
      exact fun s hs => (List.mem_append.1 hs).elim (ihl hl s) (ihr hr s)
  | case8 _ ih =>
      obtain ⟨p, hp, h⟩ := bind_eq_ok.1 h
      cases h
      exact fun s hs => ih hp s hs
  | case9 members ih =>
      obtain ⟨name, -, h⟩ := bind_eq_ok.1 h
      split at h
      · next inner hinner =>
          obtain ⟨p, hp, h⟩ := bind_eq_ok.1 h
          cases h
          exact fun s hs => ih inner hinner hp s hs
      · cases h
  | case10 => cases h

/-! ## Lexers -/

theorem toClause_ofClause {c : Clause} (h : ∀ s ∈ c.pattern.leaves, s.Canonical) :
    toClause (ofClause c) = .ok c := by
  simp [toClause, ofClause, fields?, member?, required, toPattern_ofPattern h,
    toLocation_ofLocation]
  rfl

theorem toEntry_ofEntry {e : Entry} (h : ∀ c ∈ e.clauses, ∀ s ∈ c.pattern.leaves, s.Canonical) :
    toEntry (ofEntry e) = .ok e := by
  have hclauses := toList_map fun c hc => toClause_ofClause (h c hc)
  simp [toEntry, ofEntry, fields?, member?, required, toVisibility_ofVisibility, toStr, toBool,
    toLocation_ofLocation, optional_ofLocation, hclauses]
  rfl

theorem toLexer_ofLexer {l : Lexer} (h : ∀ s ∈ l.sets, s.Canonical) :
    toLexer (ofLexer l) = .ok l := by
  have hentries := toList_map fun e he => toEntry_ofEntry fun c hc s hs =>
    h s (List.mem_flatMap.2 ⟨e, he, List.mem_flatMap.2 ⟨c, hc, hs⟩⟩)
  have himports := toList_map fun i (_ : i ∈ l.imports) => toLocation_ofLocation i
  simp [toLexer, ofLexer, fields?, member?, required, optional_ofLocation, himports, hentries]
  rfl

theorem canonical_of_toClause {j : Json} {c : Clause} (h : toClause j = .ok c) :
    ∀ s ∈ c.pattern.leaves, s.Canonical := by
  rw [toClause] at h
  split at h
  · next pattern? action? _ =>
      obtain ⟨p, hp, h⟩ := bind_eq_ok.1 h
      obtain ⟨action, -, h⟩ := bind_eq_ok.1 h
      cases h
      cases pattern? with
      | none => cases hp
      | some j => exact canonical_of_toPattern hp
  · cases h

theorem canonical_of_toEntry {j : Json} {e : Entry} (h : toEntry j = .ok e) :
    ∀ c ∈ e.clauses, ∀ s ∈ c.pattern.leaves, s.Canonical := by
  rw [toEntry] at h
  split at h
  · next clauses? _ =>
      obtain ⟨visibility, -, h⟩ := bind_eq_ok.1 h
      obtain ⟨name, -, h⟩ := bind_eq_ok.1 h
      obtain ⟨shortest, -, h⟩ := bind_eq_ok.1 h
      obtain ⟨returnType, -, h⟩ := bind_eq_ok.1 h
      obtain ⟨args?, -, h⟩ := bind_eq_ok.1 h
      obtain ⟨clauses, hclauses, h⟩ := bind_eq_ok.1 h
      cases h
      cases clauses? with
      | none => cases hclauses
      | some j =>
          intro c hc
          obtain ⟨item, hitem⟩ := exists_of_mem_toList hclauses hc
          exact canonical_of_toClause hitem
  · cases h

theorem canonical_of_toLexer {j : Json} {l : Lexer} (h : toLexer j = .ok l) :
    ∀ s ∈ l.sets, s.Canonical := by
  rw [toLexer] at h
  split at h
  · next imports? header? entries? footer? _ =>
      obtain ⟨imports, -, h⟩ := bind_eq_ok.1 h
      obtain ⟨header, -, h⟩ := bind_eq_ok.1 h
      obtain ⟨entries, hentries, h⟩ := bind_eq_ok.1 h
      obtain ⟨footer, -, h⟩ := bind_eq_ok.1 h
      cases h
      cases entries? with
      | none => cases hentries
      | some j =>
          intro s hs
          obtain ⟨e, he, hs⟩ := List.mem_flatMap.1 hs
          obtain ⟨c, hc, hs⟩ := List.mem_flatMap.1 hs
          obtain ⟨item, hitem⟩ := exists_of_mem_toList hentries he
          exact canonical_of_toEntry hitem c hc s hs
  · cases h

/-- A lexer is read back as it was written, and what is accepted as a lexer is written in a form
that is read as the same lexer. -/
theorem lexer_survives :
    (∀ l : Lexer, (∀ s ∈ l.sets, s.Built) → toLexer (ofLexer l) = .ok l) ∧
      ∀ j l, toLexer j = .ok l → toLexer (ofLexer l) = .ok l :=
  ⟨fun _ h => toLexer_ofLexer fun s hs => (h s hs).canonical,
    fun _ _ h => toLexer_ofLexer (canonical_of_toLexer h)⟩

/-- A lexer with nodes that the simplifying constructors leave out, and a record that is given as
an array of its fields. -/
theorem lexer_survives_array :
    let raw : Pattern := .seq .epsilon (.bind "x" (.bind "x" (.star (.chars .ordinary))))
    let lexer : Lexer :=
      { entries := [{ name := "e", returnType := ⟨4, 7⟩, clauses := [⟨raw, ⟨9, 12⟩⟩] }] }
    let items : Json := arr [arr [arr [nat 0, nat 3]], null, arr [], null]
    (∀ s ∈ lexer.sets, s.Built) ∧ toLexer (ofLexer lexer) = .ok lexer ∧
      toLexer items = .ok { imports := [⟨0, 3⟩] } ∧
      toLexer (ofLexer { imports := [⟨0, 3⟩] }) = .ok { imports := [⟨0, 3⟩] } := by
  intro raw lexer items
  have hsets : ∀ s ∈ lexer.sets, s.Built := by
    intro s hs
    obtain rfl : s = .ordinary := List.mem_singleton.1 hs
    exact .ordinary
  have hitems : toLexer items = .ok { imports := [⟨0, 3⟩] } := rfl
  exact ⟨hsets, lexer_survives.1 lexer hsets, hitems, lexer_survives.2 items _ hitems⟩

end Json

end LexTags
