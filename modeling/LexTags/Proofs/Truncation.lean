import LexTags.Proofs.Sampling

/-!
# Where the limit only truncates

A limit is meant to bound the work on witnesses, so it cuts every list on the way and not only
the last one. What comes out is always found, in this order, among all the witnesses of the
pattern, which a large enough limit lets through. It need not be the beginning of them, because
of the sequences: their heads are cut first, and those that are closed are dropped afterwards. If
closed heads stand too far in front, none of the open ones is left.

So the limit truncates the witnesses of every part of a pattern if and only if, at each sequence,
cutting the heads leaves as many continuations as the limit would let through. Only the number
counts here: what is left of the continuations is the beginning of them in any case.

Repetitions are not in the way, though they put their body in front of itself. Before the two
rounds they list the single ones, and if the limit cuts these, it is used up by them.
-/

namespace LexTags.Pattern

variable {p a b : Pattern} {heads tails heads' tails' : List Witness} {limit k n : Nat}

/-- The witnesses of a pattern without a limit, in the same order. -/
def allSamples : Pattern → List Witness
  | epsilon => [⟨[], false⟩]
  | eof => [⟨[], true⟩]
  | chars set => set.witness?.toList.map fun c => ⟨[c], false⟩
  | alt l r => l.allSamples ++ r.allSamples
  | seq a b => Witness.continuations a.allSamples b.allSamples
  | star p =>
      ⟨[], false⟩ :: p.allSamples ++ Witness.continuations p.allSamples p.allSamples
  | bind _ p => p.allSamples

/-- The pattern and every pattern that it is made of. -/
def parts : Pattern → List Pattern
  | alt l r => alt l r :: (l.parts ++ r.parts)
  | seq a b => seq a b :: (a.parts ++ b.parts)
  | star p => star p :: p.parts
  | bind name p => bind name p :: p.parts
  | p => [p]

/-- Cutting the heads at a limit leaves as many continuations as the limit lets through. -/
def Witness.Spared (heads tails : List Witness) : Prop :=
  ∀ limit, min limit (continuations heads tails).length ≤
    (continuations (heads.take limit) tails).length

/-! ## Cutting lists -/

/-- A beginning of a list is as good as the list if it is long enough. -/
theorem take_eq_take_of_prefix_iff {α : Type} {xs ys : List α} (h : xs <+: ys) :
    xs.take n = ys.take n ↔ min n ys.length ≤ xs.length := by
  obtain ⟨zs, rfl⟩ := h
  rw [List.length_append]
  constructor
  · intro heq
    have hlength := congrArg List.length heq
    rw [List.length_take, List.length_take, List.length_append] at hlength
    omega
  · intro hle
    rw [List.take_append]
    by_cases hn : n ≤ xs.length
    · rw [Nat.sub_eq_zero_of_le hn, List.take_zero, List.append_nil]
    · obtain rfl : zs = [] := List.length_eq_zero_iff.1 (by omega)
      rw [List.take_nil, List.append_nil]

/-- The first part of a list may be cut before the list is. -/
theorem take_take_append {α : Type} (xs ys : List α) :
    (xs.take n ++ ys).take n = (xs ++ ys).take n := by
  rw [List.take_append, List.take_append, List.take_take, List.length_take, Nat.min_self]
  congr 2
  omega

/-- The last part of a list may be cut before the list is. -/
theorem take_append_take {α : Type} (xs ys : List α) :
    (xs ++ ys.take n).take n = (xs ++ ys).take n := by
  rw [List.take_append, List.take_append, List.take_take, Nat.min_eq_left (Nat.sub_le _ _)]

theorem isPrefix_continuations_take (heads tails : List Witness) :
    Witness.continuations (heads.take k) tails <+: Witness.continuations heads tails := by
  refine ⟨Witness.continuations (heads.drop k) tails, ?_⟩
  rw [Witness.continuations, Witness.continuations, ← List.flatMap_append, List.take_append_drop]
  rfl

/-- Tails beyond the limit are not missed. -/
theorem product_take_tails (heads tails : List Witness) (h : limit ≤ k) :
    Witness.product limit heads (tails.take k) = Witness.product limit heads tails := by
  induction heads generalizing limit with
  | nil => rfl
  | cons head heads ih =>
      rw [Witness.product, Witness.product, List.take_take, Nat.min_eq_left h]
      exact congrArg _ (ih (Nat.le_trans (Nat.sub_le _ _) h))

/-- What a sequence makes of heads and tails that are cut at the limit. -/
theorem product_take (heads tails : List Witness) :
    Witness.product limit (heads.take limit) (tails.take limit) =
      (Witness.continuations (heads.take limit) tails).take limit := by
  rw [product_take_tails _ _ (Nat.le_refl _), product_eq_take]

/-! ## All witnesses and those that are let through -/

theorem continuations_sublist (hheads : heads'.Sublist heads) (htails : tails'.Sublist tails) :
    (Witness.continuations heads' tails').Sublist (Witness.continuations heads tails) := by
  induction hheads with
  | slnil => exact List.Sublist.refl _
  | cons head _ ih => exact ih.trans (List.sublist_append_right _ _)
  | cons_cons head _ ih =>
      refine List.Sublist.append ?_ ih
      dsimp only
      cases head.closed with
      | true => exact List.Sublist.refl _
      | false => exact htails.map _

/-- The limit brings in no witness, and changes no order. -/
theorem sample_sublist (p : Pattern) (limit : Nat) : (p.sample limit).Sublist p.allSamples := by
  induction p with
  | epsilon | eof | chars _ => exact List.take_sublist _ _
  | alt l r ihl ihr => exact (List.take_sublist _ _).trans (ihl.append ihr)
  | seq a b iha ihb =>
      rw [sample, product_eq_take]
      exact (List.take_sublist _ _).trans (continuations_sublist iha ihb)
  | star p ih =>
      rw [sample, product_eq_take]
      refine (List.take_sublist _ _).trans (List.Sublist.append (ih.cons_cons _) ?_)
      exact (List.take_sublist _ _).trans (continuations_sublist ih ih)
  | bind _ p ih => exact ih

/-- A limit that is large enough lets all witnesses through. -/
theorem exists_sample_eq (p : Pattern) :
    ∃ n, ∀ limit, n ≤ limit → p.sample limit = p.allSamples := by
  induction p with
  | epsilon | eof | chars _ =>
      exact ⟨_, fun limit h => List.take_of_length_le h⟩
  | alt l r ihl ihr =>
      obtain ⟨m, hm⟩ := ihl
      obtain ⟨n, hn⟩ := ihr
      refine ⟨m + n + (alt l r).allSamples.length, fun limit h => ?_⟩
      rw [sample, hm limit (by omega), hn limit (by omega)]
      exact List.take_of_length_le (Nat.le_of_add_left_le h)
  | seq a b iha ihb =>
      obtain ⟨m, hm⟩ := iha
      obtain ⟨n, hn⟩ := ihb
      refine ⟨m + n + (seq a b).allSamples.length, fun limit h => ?_⟩
      rw [sample, hm limit (by omega), hn limit (by omega), product_eq_take]
      exact List.take_of_length_le (Nat.le_of_add_left_le h)
  | star p ih =>
      obtain ⟨n, hn⟩ := ih
      refine ⟨n + (star p).allSamples.length, fun limit h => ?_⟩
      have hlength : (star p).allSamples.length ≤ limit := Nat.le_of_add_left_le h
      rw [sample, hn limit (by omega), product_eq_take]
      rw [allSamples, List.length_append] at hlength
      rw [List.take_of_length_le (Nat.le_of_add_left_le hlength)]
      exact List.take_of_length_le (Nat.le_of_add_left_le h)
  | bind _ p ih => exact ih

/-! ## Where the limit only cuts off -/

/-- What a sequence of parts whose witnesses are only cut off is sampled as. -/
theorem sample_seq (ha : a.sample limit = a.allSamples.take limit)
    (hb : b.sample limit = b.allSamples.take limit) :
    (seq a b).sample limit =
      (Witness.continuations (a.allSamples.take limit) b.allSamples).take limit := by
  rw [sample, ha, hb, product_take]

/-- Two rounds are sampled only as long as the limit is not used up by the single ones. -/
theorem sample_star (h : p.sample limit = p.allSamples.take limit) :
    (star p).sample limit = (star p).allSamples.take limit := by
  rw [sample, h, product_take, allSamples, take_append_take]
  by_cases hlimit : p.allSamples.length ≤ limit
  · rw [List.take_of_length_le hlimit]
  · have hused : limit ≤ (p.allSamples.take limit).length := by
      rw [List.length_take]
      omega
    rw [List.take_append_of_le_length (Nat.le_succ_of_le hused),
      List.take_append_of_le_length (by rw [List.length_cons]; omega)]
    cases limit with
    | zero => rfl
    | succ m => rw [List.take_succ_cons, List.take_succ_cons, List.take_take,
        Nat.min_eq_left (Nat.le_succ m)]

/-- Where every sequence spares its heads, the limit only cuts off. -/
theorem sample_eq_take (p : Pattern)
    (h : ∀ a b, seq a b ∈ p.parts → Witness.Spared a.allSamples b.allSamples) (limit : Nat) :
    p.sample limit = p.allSamples.take limit := by
  induction p with
  | epsilon | eof | chars _ => rfl
  | alt l r ihl ihr =>
      rw [sample, allSamples,
        ihl fun a b hab => h a b (List.mem_cons_of_mem _ (List.mem_append_left _ hab)),
        ihr fun a b hab => h a b (List.mem_cons_of_mem _ (List.mem_append_right _ hab))]
      exact (take_append_take _ _).trans (take_take_append _ _)
  | seq a b iha ihb =>
      rw [sample_seq
        (iha fun a b hab => h a b (List.mem_cons_of_mem _ (List.mem_append_left _ hab)))
        (ihb fun a b hab => h a b (List.mem_cons_of_mem _ (List.mem_append_right _ hab)))]
      exact (take_eq_take_of_prefix_iff (isPrefix_continuations_take _ _)).2
        (h a b List.mem_cons_self limit)
  | star p ih => exact sample_star (ih fun a b hab => h a b (List.mem_cons_of_mem _ hab))
  | bind _ p ih => exact ih fun a b hab => h a b (List.mem_cons_of_mem _ hab)

/-- The parts of a part are parts of the whole. -/
theorem mem_parts_of_mem {q r : Pattern} (h : q ∈ p.parts) (hr : r ∈ q.parts) : r ∈ p.parts := by
  induction p with
  | epsilon | eof | chars _ =>
      obtain rfl := List.mem_singleton.1 h
      exact hr
  | alt _ _ ih ih' | seq _ _ ih ih' =>
      rcases List.mem_cons.1 h with rfl | h
      · exact hr
      · exact List.mem_cons_of_mem _ (List.mem_append.2 ((List.mem_append.1 h).imp ih ih'))
  | star _ ih | bind _ _ ih =>
      rcases List.mem_cons.1 h with rfl | h
      · exact hr
      · exact List.mem_cons_of_mem _ (ih h)

/-- Where the limit only cuts off, every sequence spares its heads. -/
theorem spared_of_witnesses_eq (p : Pattern)
    (h : ∀ q ∈ p.parts, ∀ k m, k ≤ m → q.witnesses k = (q.witnesses m).take k) :
    ∀ a b, seq a b ∈ p.parts → Witness.Spared a.allSamples b.allSamples := by
  induction p with
  | epsilon | eof | chars _ =>
      intro a b hab
      cases List.mem_singleton.1 hab
  | alt l r ihl ihr =>
      intro a b hab
      rcases List.mem_cons.1 hab with heq | hab
      · cases heq
      · rcases List.mem_append.1 hab with hl | hr
        · exact ihl (fun q hq => h q (List.mem_cons_of_mem _ (List.mem_append_left _ hq))) a b hl
        · exact ihr (fun q hq => h q (List.mem_cons_of_mem _ (List.mem_append_right _ hq))) a b hr
  | star p ih | bind _ p ih =>
      intro a b hab
      rcases List.mem_cons.1 hab with heq | hab
      · cases heq
      · exact ih (fun q hq => h q (List.mem_cons_of_mem _ hq)) a b hab
  | seq first second ihfirst ihsecond =>
      have hfirst := ihfirst fun q hq =>
        h q (List.mem_cons_of_mem _ (List.mem_append_left _ hq))
      have hsecond := ihsecond fun q hq =>
        h q (List.mem_cons_of_mem _ (List.mem_append_right _ hq))
      intro a b hab
      rcases List.mem_cons.1 hab with heq | hab
      · obtain ⟨rfl, rfl⟩ := Pattern.seq.inj heq
        intro limit
        obtain ⟨n, hn⟩ := exists_sample_eq (seq a b)
        have hcut := h (seq a b) List.mem_cons_self limit (max limit n) (Nat.le_max_left _ _)
        rw [witnesses, witnesses, hn _ (Nat.le_max_right _ _),
          sample_seq (sample_eq_take a hfirst limit) (sample_eq_take b hsecond limit)] at hcut
        have hlength := congrArg List.length hcut
        simp only [List.length_map, List.length_take] at hlength
        rw [← allSamples]
        omega
      · rcases List.mem_append.1 hab with ha | hb
        · exact hfirst a b ha
        · exact hsecond a b hb

/-- The witnesses at a limit are found, in order, among all witnesses, which a large enough limit
lets through. They are the beginning of what a larger limit leads to, for a pattern and all of
its parts, if and only if at each sequence, for every limit, the heads up to the limit have as
many continuations as it lets through. -/
theorem witnesses_eq_take_iff (p : Pattern) :
    (∃ n, ∀ limit, n ≤ limit → p.witnesses limit = p.allSamples.map Witness.text) ∧
      (∀ limit, (p.witnesses limit).Sublist (p.allSamples.map Witness.text)) ∧
      ((∀ q ∈ p.parts, ∀ k m, k ≤ m → q.witnesses k = (q.witnesses m).take k) ↔
        ∀ a b, seq a b ∈ p.parts → Witness.Spared a.allSamples b.allSamples) := by
  refine ⟨?_, fun limit => (sample_sublist p limit).map _, spared_of_witnesses_eq p, ?_⟩
  · obtain ⟨n, hn⟩ := exists_sample_eq p
    exact ⟨n, fun limit h => congrArg _ (hn limit h)⟩
  · intro h q hq k m hkm
    have hcut := sample_eq_take q fun a b hab => h a b (mem_parts_of_mem hq hab)
    rw [witnesses, witnesses, hcut k, hcut m, ← List.map_take, List.take_take,
      Nat.min_eq_left hkm]

/-- In `(eof|a)b` the limit 1 cuts off the only head that is not closed, and nothing is left. -/
theorem witnesses_ne_take :
    let p : Pattern := seq (alt eof (chars (.single 97))) (chars (.single 98))
    p.witnesses 1 = [] ∧ (p.witnesses 2).take 1 = [[97, 98]] :=
  ⟨rfl, rfl⟩

end LexTags.Pattern
