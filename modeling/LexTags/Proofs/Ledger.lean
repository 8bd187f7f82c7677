import LexTags.Tagged.Layout

/-!
# What the ledger of a layout records

All that the passes do to the ledger is to record decisions, so a run of a pass is the
ledger it starts from with a list of events applied to it. As long as no boundary is decided
on twice, the addresses are then those of the events, in order.

A cell belongs to the boundary that it was given out for. `Sound` says that the look-up by
cell finds this boundary: it was entered before any other boundary took its address from it,
and every cell that an address mentions has been given out. It survives an address that
counts from a cell in use, and a new cell for a new boundary; `Grows` is any number of the
latter, which is what asking for addresses amounts to.
-/

namespace LexTags

namespace OrderedMap

variable {κ υ : Type} [DecidableEq κ]

theorem entries_insert_of_notMem {m : OrderedMap κ υ} {k : κ} {v : υ} (h : k ∉ m.keys) :
    (m.insert k v).entries = m.entries ++ [(k, v)] := by
  rw [insert, dif_neg (mt contains_iff.1 h)]

omit [DecidableEq κ] in
theorem mem_keys_of_mem {m : OrderedMap κ υ} {k : κ} {v : υ} (h : (k, v) ∈ m.entries) :
    k ∈ m.keys :=
  List.mem_map.2 ⟨(k, v), h, rfl⟩

theorem get?_eq_some_iff {m : OrderedMap κ υ} {k : κ} {v : υ} :
    m.get? k = some v ↔ (k, v) ∈ m.entries := by
  refine ⟨fun h => ?_, fun h => ?_⟩
  · obtain ⟨e, he, rfl⟩ := Option.map_eq_some_iff.1 h
    have hk : e.1 = k := by simpa using List.find?_some he
    exact hk ▸ List.mem_of_find?_eq_some he
  · rw [get?, Option.map_eq_some_iff]
    refine ⟨(k, v), ?_, rfl⟩
    have hnodup := m.nodup
    generalize m.entries = entries at h hnodup
    induction entries with
    | nil => cases h
    | cons e rest ih =>
        rw [List.map_cons, List.nodup_cons] at hnodup
        rcases List.mem_cons.1 h with rfl | hrest
        · rw [List.find?_cons_of_pos (by simp)]
        · have hne : e.1 ≠ k := fun he => hnodup.1 (he ▸ List.mem_map_of_mem hrest)
          rw [List.find?_cons_of_neg (by simpa using hne)]
          exact ih hrest hnodup.2

theorem get?_eq_none_iff {m : OrderedMap κ υ} {k : κ} : m.get? k = none ↔ k ∉ m.keys := by
  refine ⟨fun h hk => ?_, get?_eq_none_of_notMem⟩
  obtain ⟨e, he, rfl⟩ := List.mem_map.1 hk
  have hget := get?_eq_some_iff.2 he
  rw [h] at hget
  cases hget

/-- Entries under different new keys are written as they are listed. -/
theorem entries_foldl_insert (entries : List (κ × υ)) (m : OrderedMap κ υ)
    (hnodup : (entries.map Prod.fst).Nodup) (hnew : ∀ k ∈ entries.map Prod.fst, k ∉ m.keys) :
    (entries.foldl (fun m e => m.insert e.1 e.2) m).entries = m.entries ++ entries := by
  induction entries generalizing m with
  | nil => exact (List.append_nil _).symm
  | cons e entries ih =>
      obtain ⟨he, hnodup⟩ := List.nodup_cons.1 hnodup
      rw [List.foldl_cons, ih _ hnodup]
      · rw [entries_insert_of_notMem (hnew _ List.mem_cons_self), List.append_assoc]
        rfl
      · intro k hk hmem
        rcases mem_keys_insert.1 hmem with hold | rfl
        · exact hnew k (List.mem_cons_of_mem _ hk) hold
        · exact he hk

theorem entries_ofList {entries : List (κ × υ)} (hnodup : (entries.map Prod.fst).Nodup) :
    (ofList entries).entries = entries := by
  rw [ofList, entries_foldl_insert entries empty hnodup fun _ _ h => nomatch h]
  rfl

end OrderedMap

namespace Layout

/-- The ledger with one more decision. -/
def Ledger.apply (ledger : Ledger) : Event → Ledger
  | .resolved b a =>
      { ledger with
        addresses := ledger.addresses.insert b a
        trace := ledger.trace.push (.resolved b a) }
  | .stored b a =>
      { addresses := ledger.addresses.insert b a
        cells := ledger.cells + 1
        trace := ledger.trace.push (.stored b a) }
  | _ => ledger

/-- The ledger with more decisions, in order. -/
def Ledger.applyAll (ledger : Ledger) (events : List Event) : Ledger :=
  events.foldl Ledger.apply ledger

/-- The addresses that events give out, in order. -/
def placements (events : List Event) : List (Boundary × Address) :=
  events.filterMap fun
    | .resolved b a | .stored b a => some (b, a)
    | _ => none

/-- The boundaries that events give a cell of their own, in order. -/
def owners (events : List Event) : List Boundary :=
  events.filterMap fun
    | .stored b _ => some b
    | _ => none

/-- The boundaries that events find at an address without a cell of their own, in order. -/
def resolvedBoundaries (events : List Event) : List Boundary :=
  events.filterMap fun
    | .resolved b _ => some b
    | _ => none

theorem placements_append (events rest : List Event) :
    placements (events ++ rest) = placements events ++ placements rest :=
  List.filterMap_append

theorem owners_append (events rest : List Event) :
    owners (events ++ rest) = owners events ++ owners rest :=
  List.filterMap_append

theorem resolvedBoundaries_append (events rest : List Event) :
    resolvedBoundaries (events ++ rest) =
      resolvedBoundaries events ++ resolvedBoundaries rest :=
  List.filterMap_append

variable {ledger : Ledger} {b : Boundary} {a : Address}

theorem applyAll_append (events rest : List Event) :
    ledger.applyAll (events ++ rest) = (ledger.applyAll events).applyAll rest :=
  List.foldl_append

theorem run_bind {σ α β : Type} (x : StateM σ α) (f : α → StateM σ β) (s : σ) :
    (x >>= f).run s = (f (x.run s).1).run (x.run s).2 := rfl

theorem addressOf_run_of_none (h : b ∉ ledger.addresses.keys) :
    (addressOf b).run ledger =
      (.atCell ledger.cells, ledger.apply (.stored b (.atCell ledger.cells))) := by
  show addressOf b ledger = _
  rw [addressOf, OrderedMap.get?_eq_none_of_notMem h]
  rfl

theorem addressOf_run_of_some (h : ledger.addresses.get? b = some a) :
    (addressOf b).run ledger = (a, ledger) := by
  show addressOf b ledger = _
  rw [addressOf, h]

/-- Decisions on different new boundaries add their addresses in order. -/
theorem entries_applyAll (events : List Event) (ledger : Ledger)
    (hnodup : ((placements events).map Prod.fst).Nodup)
    (hnew : ∀ b ∈ (placements events).map Prod.fst, b ∉ ledger.addresses.keys) :
    (ledger.applyAll events).addresses.entries =
      ledger.addresses.entries ++ placements events := by
  induction events generalizing ledger with
  | nil => exact (List.append_nil _).symm
  | cons e events ih =>
      match e with
      | .clauseDone .. | .entryDone .. => exact ih ledger hnodup hnew
      | .resolved b a | .stored b a =>
          obtain ⟨hb, hnodup⟩ := List.nodup_cons.1 hnodup
          have hnewb := hnew b List.mem_cons_self
          show ((ledger.apply _).applyAll events).addresses.entries = _
          rw [ih _ hnodup]
          · show (ledger.addresses.insert b a).entries ++ _ = _
            rw [OrderedMap.entries_insert_of_notMem hnewb, List.append_assoc]
            rfl
          · intro b' hb' hmem
            rcases OrderedMap.mem_keys_insert.1 hmem with hold | rfl
            · exact hnew b' (List.mem_cons_of_mem _ hb') hold
            · exact hb hb'

theorem mem_keys_applyAll {events : List Event} {ledger : Ledger} {b : Boundary} :
    b ∈ (ledger.applyAll events).addresses.keys ↔
      b ∈ ledger.addresses.keys ∨ b ∈ (placements events).map Prod.fst := by
  induction events generalizing ledger with
  | nil => exact ⟨.inl, fun h => h.elim id nofun⟩
  | cons e events ih =>
      refine (@ih (ledger.apply e)).trans ?_
      match e with
      | .clauseDone .. | .entryDone .. => rfl
      | .resolved o a | .stored o a =>
          show b ∈ (ledger.addresses.insert o a).keys ∨ _ ↔
            _ ∨ b ∈ o :: (placements events).map Prod.fst
          rw [OrderedMap.mem_keys_insert, List.mem_cons, or_assoc]

theorem cells_applyAll (events : List Event) (ledger : Ledger) :
    (ledger.applyAll events).cells = ledger.cells + (owners events).length := by
  induction events generalizing ledger with
  | nil => rfl
  | cons e events ih =>
      show ((ledger.apply e).applyAll events).cells = _
      rw [ih]
      match e with
      | .clauseDone .. | .entryDone .. | .resolved .. => rfl
      | .stored .. =>
          show ledger.cells + 1 + _ = ledger.cells + ((owners events).length + 1)
          omega

/-! ## Cells and their owners -/

/-- The first boundary of the ledger that is found at each cell is the one it was given to. -/
structure Ledger.Sound (ledger : Ledger) (owners : List Boundary) : Prop where
  cells_eq : ledger.cells = owners.length
  cell_lt : ∀ e ∈ ledger.addresses.entries, ∀ c, e.2.anchor = .cell c → c < owners.length
  owner : ∀ c b, owners[c]? = some b →
    ledger.addresses.entries.find? (·.2 = .atCell c) = some (b, .atCell c)

theorem Ledger.sound_default : (default : Ledger).Sound [] where
  cells_eq := rfl
  cell_lt := fun _ he => nomatch he
  owner := fun _ _ h => nomatch h

variable {owners : List Boundary}

/-- An address that counts from a cell in use, or from none, takes no cell away. -/
theorem Ledger.Sound.resolve (h : ledger.Sound owners) (hb : b ∉ ledger.addresses.keys)
    (ha : ∀ c, a.anchor = .cell c → c < owners.length) :
    (ledger.apply (.resolved b a)).Sound owners := by
  have hentries : (ledger.apply (.resolved b a)).addresses.entries =
      ledger.addresses.entries ++ [(b, a)] := OrderedMap.entries_insert_of_notMem hb
  refine ⟨h.cells_eq, fun e he c hc => ?_, fun c o ho => ?_⟩
  · rw [hentries] at he
    rcases List.mem_append.1 he with hold | hnew
    · exact h.cell_lt e hold c hc
    · rw [List.mem_singleton.1 hnew] at hc
      exact ha c hc
  · rw [hentries, List.find?_append, h.owner c o ho]
    rfl

/-- A new cell belongs to the boundary it is given to. -/
theorem Ledger.Sound.store (h : ledger.Sound owners) (hb : b ∉ ledger.addresses.keys) :
    (ledger.apply (.stored b (.atCell ledger.cells))).Sound (owners ++ [b]) := by
  have hentries : (ledger.apply (.stored b (.atCell ledger.cells))).addresses.entries =
      ledger.addresses.entries ++ [(b, .atCell ledger.cells)] :=
    OrderedMap.entries_insert_of_notMem hb
  refine ⟨?_, fun e he c hc => ?_, fun c o ho => ?_⟩
  · show ledger.cells + 1 = _
    rw [List.length_append, List.length_singleton, h.cells_eq]
  · rw [List.length_append, List.length_singleton]
    rw [hentries] at he
    rcases List.mem_append.1 he with hold | hnew
    · have := h.cell_lt e hold c hc
      omega
    · rw [List.mem_singleton.1 hnew] at hc
      have hcell : ledger.cells = c := Anchor.cell.inj hc
      rw [← hcell, h.cells_eq]
      omega
  · rw [hentries, List.find?_append]
    by_cases hc : c < owners.length
    · rw [List.getElem?_append_left hc] at ho
      rw [h.owner c o ho]
      rfl
    · have hce : c = ledger.cells := by
        obtain ⟨hlt, -⟩ := List.getElem?_eq_some_iff.1 ho
        rw [List.length_append, List.length_singleton] at hlt
        rw [h.cells_eq]
        omega
      have hnone : ledger.addresses.entries.find? (·.2 = .atCell c) = none := by
        rw [List.find?_eq_none]
        intro e he heq
        have hec : e.2.anchor = .cell c := by
          rw [of_decide_eq_true heq]
          rfl
        exact hc (h.cell_lt e he c hec)
      have hob : o = b := by
        rw [hce, h.cells_eq, List.getElem?_append_right (Nat.le_refl _), Nat.sub_self] at ho
        exact (Option.some.inj ho).symm
      rw [hnone, hce, hob]
      simp

/-- The owner of a cell is found there. -/
theorem Ledger.Sound.get?_owner (h : ledger.Sound owners) {c : Nat}
    (ho : owners[c]? = some b) : ledger.addresses.get? b = some (.atCell c) :=
  OrderedMap.get?_eq_some_iff.2 (List.mem_of_find?_eq_some (h.owner c b ho))

/-- One ledger comes from another by giving new boundaries cells of their own. -/
inductive Ledger.Grows (ledger : Ledger) : Ledger → Prop where
  | refl : Grows ledger ledger
  | store {grown : Ledger} {b : Boundary} (h : Grows ledger grown)
      (hb : b ∉ grown.addresses.keys) :
      Grows ledger (grown.apply (.stored b (.atCell grown.cells)))

theorem Ledger.Grows.trans {mid grown : Ledger} (h : ledger.Grows mid) (h' : mid.Grows grown) :
    ledger.Grows grown := by
  induction h' with
  | refl => exact h
  | store _ hb ih => exact ih.store hb

/-- A boundary keeps the address it has. -/
theorem Ledger.Grows.get? {grown : Ledger} (h : ledger.Grows grown)
    (hb : ledger.addresses.get? b = some a) : grown.addresses.get? b = some a := by
  induction h with
  | refl => exact hb
  | @store grown' b' _ hnew ih =>
      show (grown'.addresses.insert b' _).get? b = some a
      have hne : b ≠ b' := fun he => hnew
        (he ▸ OrderedMap.mem_keys_of_mem (OrderedMap.get?_eq_some_iff.1 ih))
      rw [OrderedMap.get?_insert, if_neg hne, ih]

/-- Each boundary that is new owns the cell it is found at. -/
theorem Ledger.Grows.sound {grown : Ledger} (h : ledger.Grows grown)
    (hsound : ledger.Sound owners) :
    ∃ more, grown.Sound (owners ++ more) ∧
      grown.addresses.entries.map Prod.fst = ledger.addresses.entries.map Prod.fst ++ more := by
  induction h with
  | refl => exact ⟨[], by rwa [List.append_nil], (List.append_nil _).symm⟩
  | @store grown' b' _ hnew ih =>
      obtain ⟨more, hs, hentries⟩ := ih
      refine ⟨more ++ [b'], ?_, ?_⟩
      · rw [← List.append_assoc]
        exact hs.store hnew
      · show (grown'.addresses.insert b' _).entries.map Prod.fst = _
        rw [OrderedMap.entries_insert_of_notMem hnew, List.map_append, hentries,
          List.append_assoc]
        rfl

/-- Asking for an address gives one that stays. -/
theorem addressOf_spec (b : Boundary) (ledger : Ledger) :
    ledger.Grows ((addressOf b).run ledger).2 ∧
      ((addressOf b).run ledger).2.addresses.get? b = some ((addressOf b).run ledger).1 := by
  cases hget : ledger.addresses.get? b with
  | some a =>
      rw [addressOf_run_of_some hget]
      exact ⟨.refl, hget⟩
  | none =>
      have hnew := OrderedMap.get?_eq_none_iff.1 hget
      rw [addressOf_run_of_none hnew]
      refine ⟨.store .refl hnew, ?_⟩
      show (ledger.addresses.insert b _).get? b = _
      rw [OrderedMap.get?_insert, if_pos rfl]

/-! ## Captures -/

/-- A capture leads to the boundaries of its name. -/
structure Captures (usage : Usage) (addresses : OrderedMap Boundary Address) (name : String)
    (c : Capture) : Prop where
  optional : c.optional = decide (name ∈ usage.optional)
  start : addresses.get? (.opening name) = some c.start
  stop_of_char : name ∈ usage.charNames → c.stop? = none
  stop : name ∉ usage.charNames →
    ∃ a, c.stop? = some a ∧ addresses.get? (.closing name) = some a

theorem Captures.grows {usage : Usage} {name : String} {c : Capture} {grown : Ledger}
    (h : Captures usage ledger.addresses name c) (hgrows : ledger.Grows grown) :
    Captures usage grown.addresses name c := by
  refine ⟨h.optional, hgrows.get? h.start, h.stop_of_char, fun hname => ?_⟩
  obtain ⟨a, ha, hget⟩ := h.stop hname
  exact ⟨a, ha, hgrows.get? hget⟩

theorem captureOf_run_of_char {usage : Usage} {name : String} (h : name ∈ usage.charNames)
    (ledger : Ledger) :
    (captureOf usage.charNames usage.optional name).run ledger =
      (⟨name ∈ usage.optional, ((addressOf (.opening name)).run ledger).1, none⟩,
        ((addressOf (.opening name)).run ledger).2) := by
  show captureOf usage.charNames usage.optional name ledger = _
  simp only [captureOf, if_pos h]
  rfl

theorem captureOf_run_of_not_char {usage : Usage} {name : String} (h : name ∉ usage.charNames)
    (ledger : Ledger) :
    (captureOf usage.charNames usage.optional name).run ledger =
      let start := (addressOf (.opening name)).run ledger
      let stop := (addressOf (.closing name)).run start.2
      (⟨name ∈ usage.optional, start.1, some stop.1⟩, stop.2) := by
  show captureOf usage.charNames usage.optional name ledger = _
  simp only [captureOf, if_neg h]
  rfl

theorem captureOf_spec (usage : Usage) (name : String) (ledger : Ledger) :
    ledger.Grows ((captureOf usage.charNames usage.optional name).run ledger).2 ∧
      Captures usage ((captureOf usage.charNames usage.optional name).run ledger).2.addresses
        name ((captureOf usage.charNames usage.optional name).run ledger).1 := by
  obtain ⟨hgrows, hget⟩ := addressOf_spec (.opening name) ledger
  by_cases hname : name ∈ usage.charNames
  · rw [captureOf_run_of_char hname]
    exact ⟨hgrows, rfl, hget, fun _ => rfl, fun h => absurd hname h⟩
  · obtain ⟨hgrows', hget'⟩ :=
      addressOf_spec (.closing name) ((addressOf (.opening name)).run ledger).2
    rw [captureOf_run_of_not_char hname]
    exact ⟨hgrows.trans hgrows', rfl, hgrows'.get? hget, fun h => absurd h hname,
      fun _ => ⟨_, rfl, hget'⟩⟩

/-- The boundary is an end of the name that its capture leads to. -/
def Delimits (usage : Usage) (name : String) (b : Boundary) : Prop :=
  b.name = name ∧ (b.side = .closing → name ∉ usage.charNames)

theorem mem_keys_addressOf {o : Boundary} :
    b ∈ ((addressOf o).run ledger).2.addresses.keys ↔ b ∈ ledger.addresses.keys ∨ b = o := by
  cases hget : ledger.addresses.get? o with
  | some a =>
      rw [addressOf_run_of_some hget]
      refine ⟨.inl, fun h => h.elim id fun hb => ?_⟩
      exact hb ▸ OrderedMap.mem_keys_of_mem (OrderedMap.get?_eq_some_iff.1 hget)
  | none =>
      rw [addressOf_run_of_none (OrderedMap.get?_eq_none_iff.1 hget)]
      exact OrderedMap.mem_keys_insert

/-- A capture enters the boundaries that it leads to, and no others. -/
theorem mem_keys_captureOf {usage : Usage} {name : String} :
    b ∈ ((captureOf usage.charNames usage.optional name).run ledger).2.addresses.keys ↔
      b ∈ ledger.addresses.keys ∨ Delimits usage name b := by
  obtain ⟨n, side⟩ := b
  by_cases hname : name ∈ usage.charNames
  · rw [captureOf_run_of_char hname, mem_keys_addressOf]
    cases side <;> simp [Delimits, Boundary.opening, hname]
  · rw [captureOf_run_of_not_char hname, mem_keys_addressOf, mem_keys_addressOf]
    cases side <;> simp [Delimits, Boundary.opening, Boundary.closing, hname]

theorem mapM_cons_run {α β σ : Type} (f : α → StateM σ β) (x : α) (xs : List α) (s : σ) :
    ((x :: xs).mapM f).run s =
      (((f x).run s).1 :: ((xs.mapM f).run ((f x).run s).2).1,
        ((xs.mapM f).run ((f x).run s).2).2) := by
  rw [List.mapM_cons]
  rfl

/-- The captures of a list of names, in order. -/
theorem mapM_captureOf_spec (usage : Usage) (names : List String) (ledger : Ledger) :
    ∃ entries grown,
      (names.mapM fun name => do
        return (name, ← captureOf usage.charNames usage.optional name) :
          StateM Ledger _).run ledger = (entries, grown) ∧
      ledger.Grows grown ∧ entries.map Prod.fst = names ∧
      (∀ e ∈ entries, Captures usage grown.addresses e.1 e.2) ∧
      ∀ b, b ∈ grown.addresses.keys ↔
        b ∈ ledger.addresses.keys ∨ ∃ name ∈ names, Delimits usage name b := by
  induction names generalizing ledger with
  | nil => exact ⟨[], ledger, rfl, .refl, rfl, (fun _ he => nomatch he), fun b => by simp⟩
  | cons name names ih =>
      obtain ⟨hgrows, hcap⟩ := captureOf_spec usage name ledger
      obtain ⟨entries, grown, hrun, hgrows', hnames, hcaps, hkeys⟩ :=
        ih ((captureOf usage.charNames usage.optional name).run ledger).2
      refine ⟨(name, ((captureOf usage.charNames usage.optional name).run ledger).1) :: entries,
        grown, ?_, hgrows.trans hgrows', by rw [List.map_cons, hnames], fun e he => ?_,
        fun b => ?_⟩
      · refine (mapM_cons_run _ _ _ _).trans ?_
        exact congrArg (fun r : List (String × Capture) × Ledger => (_ :: r.1, r.2)) hrun
      · rcases List.mem_cons.1 he with rfl | he
        · exact hcap.grows hgrows'
        · exact hcaps e he
      · simp only [hkeys, mem_keys_captureOf, List.mem_cons, exists_eq_or_imp, or_assoc]

/-- Each name gets a capture that leads to its boundaries, and the ledger only grows by these. -/
theorem capturesOf_spec (usage : Usage) (ledger : Ledger) :
    ∃ captures grown, (capturesOf usage).run ledger = (captures, grown) ∧
      ledger.Grows grown ∧ captures.keys = usage.bound ∧
      (∀ name c, captures.get? name = some c → Captures usage grown.addresses name c) ∧
      ∀ b, b ∈ grown.addresses.keys ↔
        b ∈ ledger.addresses.keys ∨ ∃ name ∈ usage.bound, Delimits usage name b := by
  obtain ⟨entries, grown, hrun, hgrows, hnames, hcaps, hkeys⟩ :=
    mapM_captureOf_spec usage usage.bound.toList ledger
  have hentries := OrderedMap.entries_ofList (hnames ▸ usage.bound.nodup)
  refine ⟨.ofList entries, grown, ?_, hgrows, ?_, fun name c hc => ?_, hkeys⟩
  · rw [capturesOf, run_bind, hrun]
    rfl
  · refine OrderedSet.ext ?_
    show (OrderedMap.ofList entries).entries.map Prod.fst = _
    rw [hentries, hnames]
  · rw [OrderedMap.get?_eq_some_iff, hentries] at hc
    exact hcaps _ hc

end Layout

end LexTags
