import LexTags.Proofs.Bounds
import LexTags.Proofs.Certified

/-!
# No step of a certification leaves the text

Two kinds of steps are possible only inside a text: to ask how much of it remains behind a
position, and to take the part that a span covers. Here the matchers and the certification are
written with these steps guarded, so that one that leaves the text has no answer and ends
everything that needs it. The guards never come to bear. A matcher goes on only where a match of
the part before has stopped, and what is cut out for a name is a span that the pattern has bound.

Where the addresses of a layout lead does not matter, as a stretch that is not in the text is
reported and not cut out. The end of a name without a stop is one step behind its start, and that
step would be guarded too if it could leave the range of positions. It cannot: no tag is recorded
behind the end of the text, and offsets are small.
-/

namespace LexTags

variable {ε α β : Type}

/-- What remains of a text with `length` units behind a position, which has to lie in it. -/
def remaining? (length i : Nat) : Option Nat := if i ≤ length then some (length - i) else none

theorem remaining?_eq {length i : Nat} (h : i ≤ length) :
    remaining? length i = some (length - i) := if_pos h

/-- The part of a text that a span covers, which has to lie in it. -/
def Text.between? (t : Text) (s : Span) : Option Text :=
  if s.start ≤ s.stop ∧ s.stop ≤ t.length then some (t.between s) else none

theorem mapM_eq_some {f : α → Option β} {g : α → β} {xs : List α}
    (h : ∀ x ∈ xs, f x = some (g x)) : xs.mapM f = some (xs.map g) := by
  induction xs with
  | nil => rfl
  | cons x xs ih =>
      rw [List.forall_mem_cons] at h
      simp [List.mapM_cons, h.1, ih h.2]

/-! ## Guarded matchers -/

namespace Pattern

variable {text : Array CodeUnit} {strict nullable : Bool} {p : Pattern} {i : Nat}

/-- `followed`, where what follows a head may have no answer. -/
def guardedFollowed (strict secondNullable : Bool) (heads : List (Match String Span))
    (tails : Nat → Option (List (Match String Span))) : Option (List (Match String Span)) := do
  let rows ← heads.mapM fun head =>
    if head.reachedEof then some (if !strict && secondNullable then [head] else [])
    else (tails head.stop).map (·.map head.followedBy)
  return rows.flatten

/-- `matchesFrom`, which has no answer where a part is looked for outside the text. -/
def guardedFrom (text : Array CodeUnit) (strict : Bool) (p : Pattern) (i : Nat) :
    Option (List (Match String Span)) := do
  let remaining ← remaining? text.size i
  if isTooLong p.size? remaining then return []
  match p with
  | epsilon => return [.bare i false]
  | eof => return if i = text.size then [.bare i true] else []
  | chars set => return if text[i]?.any set.contains then [.bare (i + 1) false] else []
  | alt l r => return (← l.guardedFrom text strict i) ++ (← r.guardedFrom text strict i)
  | seq a b =>
      let heads ← a.guardedFrom text strict i
      guardedFollowed strict b.nullable heads (b.guardedFrom text strict)
  | star q =>
      let once ← q.guardedFrom text strict i
      let twice ←
        if isTooLong (seq q q).size? remaining then some []
        else guardedFollowed strict q.nullable once (q.guardedFrom text strict)
      return .bare i false :: once ++ twice
  | bind name q =>
      return (← q.guardedFrom text strict i).map fun m => m.capture name ⟨i, m.stop⟩

theorem guardedFollowed_eq {heads : List (Match String Span)}
    {tails : Nat → Option (List (Match String Span))} {tails' : Nat → List (Match String Span)}
    (h : ∀ head ∈ heads, tails head.stop = some (tails' head.stop)) :
    guardedFollowed strict nullable heads tails = some (followed strict nullable heads tails') := by
  have hrow : ∀ head ∈ heads,
      (if head.reachedEof then some (if !strict && nullable then [head] else [])
        else (tails head.stop).map (·.map head.followedBy)) =
      some (if head.reachedEof then if !strict && nullable then [head] else []
        else (tails' head.stop).map head.followedBy) := by
    intro head hhead
    rw [h head hhead]
    split <;> rfl
  rw [guardedFollowed, mapM_eq_some hrow, followed, List.flatMap_def]
  rfl

/-- Each part is looked for where the one before has stopped, and so inside the text. -/
theorem guardedFrom_eq (p : Pattern) (hi : i ≤ text.size) :
    p.guardedFrom text strict i = some (p.matchesFrom text strict i) := by
  induction p generalizing i with
  | epsilon | eof | chars _ =>
      rw [guardedFrom, matchesFrom, remaining?_eq hi]
      dsimp only [Option.bind_eq_bind, Option.bind_some]
      split <;> rfl
  | alt l r ihl ihr =>
      rw [guardedFrom, matchesFrom, remaining?_eq hi]
      dsimp only [Option.bind_eq_bind, Option.bind_some]
      rw [ihl hi, ihr hi]
      split <;> rfl
  | seq a b iha ihb =>
      have htails : ∀ head ∈ a.matchesFrom text strict i,
          b.guardedFrom text strict head.stop = some (b.matchesFrom text strict head.stop) :=
        fun head hhead => ihb (staysIn_of_mem_matchesFrom hi hhead).stop_le
      rw [guardedFrom, matchesFrom, remaining?_eq hi]
      dsimp only [Option.bind_eq_bind, Option.bind_some]
      rw [iha hi, Option.bind_some, guardedFollowed_eq htails]
      split <;> rfl
  | star q ih =>
      have htails : ∀ head ∈ q.matchesFrom text strict i,
          q.guardedFrom text strict head.stop = some (q.matchesFrom text strict head.stop) :=
        fun head hhead => ih (staysIn_of_mem_matchesFrom hi hhead).stop_le
      rw [guardedFrom, matchesFrom, remaining?_eq hi]
      dsimp only [Option.bind_eq_bind, Option.bind_some]
      rw [ih hi, Option.bind_some, guardedFollowed_eq htails]
      split
      · rfl
      · split <;> rfl
  | bind name q ih =>
      rw [guardedFrom, matchesFrom, remaining?_eq hi]
      dsimp only [Option.bind_eq_bind, Option.bind_some]
      rw [ih hi]
      split <;> rfl

/-- `firstMatch?`, which has no answer where a part is looked for outside the text. -/
def guardedFirst (p : Pattern) (text : Text) : Option (Option (OrderedMap String Span)) :=
  (p.guardedFrom text.toArray true 0).map (firstWhole? text.length)

theorem guardedFirst_eq (p : Pattern) (text : Text) :
    p.guardedFirst text = some (p.firstMatch? text) := by
  rw [guardedFirst, guardedFrom_eq p (Nat.zero_le _)]
  rfl

end Pattern

namespace Tagged

variable {pool : Pool} {text : Array CodeUnit} {atEof : Bool} {t : Tagged} {i : Nat}

/-- `followed`, where what follows a head may have no answer. -/
def guardedFollowed (heads : List (Match Tag Nat))
    (tails : Nat → Bool → Option (List (Match Tag Nat))) : Option (List (Match Tag Nat)) := do
  let rows ← heads.mapM fun head =>
    (tails head.stop head.reachedEof).map (·.map head.followedBy)
  return rows.flatten

/-- `matchesFrom`, which has no answer where a part is looked for outside the text. -/
def guardedFrom (pool : Pool) (text : Array CodeUnit) (p : Tagged) (i : Nat) (atEof : Bool) :
    Option (List (Match Tag Nat)) := do
  let remaining ← remaining? text.size i
  if isTooLong p.size? remaining || atEof && !p.isMark then return []
  match p with
  | epsilon => return [.bare i false]
  | chars id =>
      return match pool[id]?, text[i]? with
        | some set, some c => if set.contains c then [.bare (i + 1) false] else []
        | _, _ => []
  | eof _ => return if i = text.size then [.bare i true] else []
  | tag t => return [(Match.bare i atEof).capture t i]
  | action _ => return [.bare i atEof]
  | alt l r => return (← l.guardedFrom pool text i atEof) ++ (← r.guardedFrom pool text i atEof)
  | seq a b =>
      let heads ← a.guardedFrom pool text i atEof
      guardedFollowed heads (b.guardedFrom pool text)
  | star q =>
      let once ← q.guardedFrom pool text i atEof
      let twice ←
        if isTooLong (seq q q).size? remaining then some []
        else guardedFollowed once (q.guardedFrom pool text)
      return .bare i false :: once ++ twice

theorem guardedFollowed_eq {heads : List (Match Tag Nat)}
    {tails : Nat → Bool → Option (List (Match Tag Nat))}
    {tails' : Nat → Bool → List (Match Tag Nat)}
    (h : ∀ head ∈ heads,
      tails head.stop head.reachedEof = some (tails' head.stop head.reachedEof)) :
    guardedFollowed heads tails = some (followed heads tails') := by
  have hrow : ∀ head ∈ heads,
      (tails head.stop head.reachedEof).map (·.map head.followedBy) =
        some ((tails' head.stop head.reachedEof).map head.followedBy) := by
    intro head hhead
    rw [h head hhead]
    rfl
  rw [guardedFollowed, mapM_eq_some hrow, followed, List.flatMap_def]
  rfl

/-- The end of the input lies behind only where the text ends, so behind it the guard holds, too. -/
theorem guardedFrom_eq (t : Tagged) (hi : i ≤ text.size) (hend : atEof = true → i = text.size) :
    t.guardedFrom pool text i atEof = some (t.matchesFrom pool text i atEof) := by
  induction t generalizing i atEof with
  | epsilon | chars _ | eof _ | tag _ | action _ =>
      rw [guardedFrom, matchesFrom, remaining?_eq hi]
      simp only [Option.bind_eq_bind, Option.bind_some, Bool.or_eq_true, ite_or]
      split
      · rfl
      · split <;> rfl
  | alt l r ihl ihr =>
      rw [guardedFrom, matchesFrom, remaining?_eq hi]
      simp only [Option.bind_eq_bind, Option.bind_some, Bool.or_eq_true, ite_or]
      rw [ihl hi hend, ihr hi hend]
      split
      · rfl
      · split <;> rfl
  | seq a b iha ihb =>
      have htails : ∀ head ∈ a.matchesFrom pool text i atEof,
          b.guardedFrom pool text head.stop head.reachedEof =
            some (b.matchesFrom pool text head.stop head.reachedEof) := by
        intro head hhead
        have hstays := staysIn_of_mem_matchesFrom hi hend hhead
        exact ihb hstays.stop_le hstays.atEnd
      rw [guardedFrom, matchesFrom, remaining?_eq hi]
      simp only [Option.bind_eq_bind, Option.bind_some, Bool.or_eq_true, ite_or]
      rw [iha hi hend, Option.bind_some, guardedFollowed_eq htails]
      split
      · rfl
      · split <;> rfl
  | star q ih =>
      have htails : ∀ head ∈ q.matchesFrom pool text i atEof,
          q.guardedFrom pool text head.stop head.reachedEof =
            some (q.matchesFrom pool text head.stop head.reachedEof) := by
        intro head hhead
        have hstays := staysIn_of_mem_matchesFrom hi hend hhead
        exact ih hstays.stop_le hstays.atEnd
      rw [guardedFrom, matchesFrom, remaining?_eq hi]
      simp only [Option.bind_eq_bind, Option.bind_some, Bool.or_eq_true, ite_or]
      rw [ih hi hend, Option.bind_some, guardedFollowed_eq htails]
      split
      · rfl
      · split
        · rfl
        · split <;> rfl

/-- `firstMatch?`, which has no answer where a part is looked for outside the text. -/
def guardedFirst (pool : Pool) (t : Tagged) (text : Text) : Option (Option (OrderedMap Tag Nat)) :=
  (t.guardedFrom pool text.toArray 0 false).map (firstWhole? text.length)

theorem guardedFirst_eq (t : Tagged) (text : Text) :
    t.guardedFirst pool text = some (t.firstMatch? pool text) := by
  have hend : false = true → 0 = text.toArray.size := nofun
  rw [guardedFirst, guardedFrom_eq t (Nat.zero_le _) hend]
  rfl

end Tagged

/-! ## Guarded certification -/

/-- What a computation comes to, if it has an answer. -/
def answer (x : Except ε α) : ExceptT ε Option α := ExceptT.mk (some x)

theorem answer_bind (x : Except ε α) (f : α → Except ε β) :
    (answer x >>= fun a => answer (f a)) = answer (x >>= f) := by
  cases x <;> rfl

theorem liftM_some_bind (a : α) (f : α → ExceptT ε Option β) :
    ((liftM (some a) : ExceptT ε Option α) >>= f) = f a := rfl

theorem forM_answer {f : α → ExceptT ε Option PUnit} {g : α → Except ε PUnit} {xs : List α}
    (h : ∀ x ∈ xs, f x = answer (g x)) : xs.forM f = answer (xs.forM g) := by
  induction xs with
  | nil => rfl
  | cons x xs ih =>
      rw [List.forall_mem_cons] at h
      show (f x >>= fun _ => xs.forM f) = answer (g x >>= fun _ => xs.forM g)
      rw [h.1, ih h.2, answer_bind]

/-- `checkBinding`, which has no answer where the span that the pattern binds is not in the text. -/
def Reading.guardedBinding (r : Reading) (name : String) (bound : Span) :
    ExceptT Discrepancy Option Unit := do
  match r.layout.captures.get? name with
  | none => throw (.missingName name)
  | some capture =>
      let found := r.text.between (← answer (r.span capture))
      let expected ← r.text.between? bound
      if found = expected then return
      throw (.bindingMismatch r.text.decode name expected.decode found.decode)

/-- `check`, which has no answer where a step leaves the text. -/
def Layout.guardedCheck (layout : Layout) (pool : Pool) (p : Pattern) (text : Text) :
    ExceptT Discrepancy Option Unit := do
  match ← p.guardedFirst text with
  | none => throw (.sourceMismatch text.decode p.render)
  | some bindings =>
      match ← layout.regular.guardedFirst pool text with
      | none => throw (.optimisedMismatch text.decode layout.regular.render)
      | some markers =>
          let reading := Reading.ofMarkers layout text markers
          bindings.entries.forM fun (name, bound) => reading.guardedBinding name bound
          let unused := reading.unusedTags bindings.keys
          if unused.isEmpty then return
          throw (.unusedTags text.decode (", ".intercalate (unused.map toString)))

/-- `certify`, which has no answer where a step leaves the text. -/
def Layout.guardedCertify (layout : Layout) (pool : Pool) (p : Pattern) (count : Nat) :
    ExceptT Discrepancy Option Unit :=
  let p := p.withoutShadowed
  (p.samples count).forM (layout.guardedCheck pool p)

theorem Reading.guardedBinding_eq {r : Reading} {name : String} {bound : Span}
    (h : bound.start ≤ bound.stop ∧ bound.stop ≤ r.text.length) :
    r.guardedBinding name bound = answer (r.checkBinding name bound) := by
  rw [guardedBinding]
  cases hc : r.layout.captures.get? name with
  | none =>
      rw [checkBinding, hc]
      rfl
  | some capture =>
      rw [checkBinding_eq hc, Text.between?, if_pos h]
      dsimp only
      cases r.span capture with
      | error e => rfl
      | ok found =>
          show (if r.text.between found = r.text.between bound then pure () else throw _) =
            answer (if r.text.between found = r.text.between bound then .ok () else .error _)
          split <;> rfl

namespace Layout

variable {layout : Layout} {pool : Pool} {p : Pattern}

theorem guardedCheck_eq (text : Text) :
    layout.guardedCheck pool p text = answer (layout.check pool p text) := by
  simp only [guardedCheck, Pattern.guardedFirst_eq, Tagged.guardedFirst_eq, liftM_some_bind]
  cases hsource : p.firstMatch? text with
  | none =>
      rw [check, hsource]
      rfl
  | some bindings =>
      cases hleft : layout.regular.firstMatch? pool text with
      | none =>
          rw [check, hsource, hleft]
          rfl
      | some markers =>
          have hnames : ∀ e ∈ bindings.entries,
              (Reading.ofMarkers layout text markers).guardedBinding e.1 e.2 =
                answer ((Reading.ofMarkers layout text markers).checkBinding e.1 e.2) := by
            intro e he
            have hbound := Pattern.bounds_of_firstMatch? hsource (OrderedMap.get?_eq_some_iff.2 he)
            rw [Reading.guardedBinding_eq hbound]
          rw [check_eq hsource hleft, ← answer_bind, ← forM_answer hnames]
          dsimp only
          congr 1
          funext _
          split <;> rfl

theorem guardedCertify_eq (count : Nat) :
    layout.guardedCertify pool p count = answer (layout.certify pool p count) :=
  forM_answer fun text _ => guardedCheck_eq text

end Layout

/-! ## Addresses -/

/-- No tag is recorded behind the end of the text. -/
theorem Tagged.le_of_firstMatch? {pool : Pool} {t : Tagged} {text : Text}
    {markers : OrderedMap Tag Nat} (h : t.firstMatch? pool text = some markers) {x : Tag} {q : Nat}
    (hq : markers.get? x = some q) : q ≤ text.length := by
  obtain ⟨m, hm, rfl⟩ := Option.map_eq_some_iff.1 h
  have hend : false = true → 0 = text.toArray.size := nofun
  have hstays := staysIn_of_mem_matchesFrom (Nat.zero_le _) hend (List.mem_of_find?_eq_some hm)
  exact Nat.le_trans (hstays.captured x q hq).2 hstays.stop_le

theorem Layout.le_of_cellsIn {layout : Layout} {markers : OrderedMap Tag Nat} {length cell q : Nat}
    (h : ∀ x q, markers.get? x = some q → q ≤ length) (hq : layout.cellsIn markers cell = some q) :
    q ≤ length := by
  rw [cellsIn] at hq
  split at hq
  · obtain ⟨e, he, rfl⟩ := Option.map_eq_some_iff.1 hq
    exact h e.1 e.2 (OrderedMap.get?_eq_some_iff.2 (List.mem_of_find?_eq_some he))
  · cases hq

/-- An address leads no further behind the end of the text than its offset. -/
theorem Address.resolve?_le {a : Address} {stop q : Nat} {cells : Nat → Option Nat}
    (hcells : ∀ cell q, cells cell = some q → q ≤ stop) (h : a.resolve? 0 stop cells = some q) :
    q ≤ stop + a.offset := by
  have hlocate := (Option.filter_eq_some_iff.1 h).1
  obtain ⟨anchor, offset⟩ := a
  cases anchor with
  | matchStart =>
      cases hlocate
      omega
  | matchEnd =>
      have hlocate : (if offset ≤ stop then some (stop - offset) else none) = some q := hlocate
      split at hlocate
      · cases hlocate
        omega
      · cases hlocate
  | cell c =>
      obtain ⟨q, hq, rfl⟩ := Option.map_eq_some_iff.1 hlocate
      exact Nat.add_le_add_right (hcells c q hq) offset

theorem Reading.position_le {layout : Layout} {pool : Pool} {text : Text}
    {markers : OrderedMap Tag Nat} (hmatch : layout.regular.firstMatch? pool text = some markers)
    {a : Address} {q : Nat} (h : (ofMarkers layout text markers).position a = .ok q) :
    q ≤ text.length + a.offset := by
  have hresolve := (position_eq_ok_iff.1 h).2
  rw [cellPosition?_ofMarkers] at hresolve
  exact Address.resolve?_le (fun cell q hq => Layout.le_of_cellsIn
    (fun x q hx => Tagged.le_of_firstMatch? hmatch hx) hq) hresolve

/-- From any position of a text, the matchers look for no part outside of it, and each match that
they list stays in the text. So certification has an answer, whatever the pattern, the pool and the
layout are: it passes, or it reports a discrepancy. Nor is there an address of the layout that leads
to the largest position, behind which there is none, where offsets are offsets and the text leaves
room for them. -/
theorem matches_stay_in_text :
    (∀ (p : Pattern) (text : Array CodeUnit) (strict : Bool) (i : Nat), i ≤ text.size →
      p.guardedFrom text strict i = some (p.matchesFrom text strict i) ∧
      ∀ m ∈ p.matchesFrom text strict i, m.StaysIn Span.LiesIn text.size i) ∧
    (∀ (t : Tagged) (pool : Pool) (text : Array CodeUnit) (i : Nat), i ≤ text.size →
      t.guardedFrom pool text i false = some (t.matchesFrom pool text i false) ∧
      ∀ m ∈ t.matchesFrom pool text i false, m.StaysIn LiesBetween text.size i) ∧
    ∀ (layout : Layout) (pool : Pool) (p : Pattern) (count : Nat),
      (layout.guardedCertify pool p count).run = some (layout.certify pool p count) ∧
      ∀ text markers, layout.regular.firstMatch? pool text = some markers →
        text.length + maxOffset < maxPosition → ∀ a q, a.offset ≤ maxOffset →
          (Reading.ofMarkers layout text markers).position a = .ok q → q + 1 ≤ maxPosition := by
  refine ⟨?_, ?_, ?_⟩
  · intro p text strict i hi
    exact ⟨p.guardedFrom_eq hi, fun m hm => Pattern.staysIn_of_mem_matchesFrom hi hm⟩
  · intro t pool text i hi
    have hend : false = true → i = text.size := nofun
    exact ⟨t.guardedFrom_eq hi hend, fun m hm => Tagged.staysIn_of_mem_matchesFrom hi hend hm⟩
  · intro layout pool p count
    constructor
    · rw [Layout.guardedCertify_eq]
      rfl
    · intro text markers hmatch hroom a q hoffset hq
      have hle := Reading.position_le hmatch hq
      omega

/-- A layout with an address behind the end of the text, and a stop before the start: both are
reported. The matches of `(x:a*)eof` behind the first unit of `aa`. -/
theorem matches_stay_in_text_edited :
    let p : Pattern := .bind "x" (.chars (.single 97))
    let layout : Layout :=
      ⟨.chars 0, .ofList [("x", ⟨false, .afterStart 9, some (.afterStart 2)⟩)], 3, .empty⟩
    1 ≤ (#[97, 97] : Array CodeUnit).size ∧
      (∀ m ∈ (Pattern.seq (.bind "x" (.star (.chars (.single 97)))) .eof).matchesFrom #[97, 97]
        false 1, m.StaysIn Span.LiesIn 2 1) ∧
      (layout.guardedCertify #[.single 97] p 1).run =
        some (.error (.outOfBounds "a" (.afterStart 2))) ∧
      layout.regular.firstMatch? #[.single 97] [97] = some .empty ∧
      1 + maxOffset < maxPosition ∧ 9 ≤ maxOffset ∧
      (Reading.ofMarkers layout [97] .empty).position (.afterStart 9) = .ok 9 ∧
      9 + 1 ≤ maxPosition := by
  intro p layout
  obtain ⟨hpatterns, -, hlayouts⟩ := matches_stay_in_text
  have hi : 1 ≤ (#[97, 97] : Array CodeUnit).size := by decide
  have hreported : layout.certify #[.single 97] p 1 =
      .error (.outOfBounds "a" (.afterStart 2)) := rfl
  have hmatch : layout.regular.firstMatch? #[.single 97] [97] = some .empty := rfl
  have hroom : 1 + maxOffset < maxPosition := by decide
  have hoffset : 9 ≤ maxOffset := by decide
  have hposition : (Reading.ofMarkers layout [97] .empty).position (.afterStart 9) = .ok 9 := rfl
  obtain ⟨hanswer, haddresses⟩ := hlayouts layout #[.single 97] p 1
  exact ⟨hi, (hpatterns _ _ false 1 hi).2, hanswer.trans (congrArg some hreported), hmatch, hroom,
    hoffset, hposition, haddresses _ _ hmatch hroom _ _ hoffset hposition⟩

end LexTags
