import BitValidity.Proofs.Layout.Nicheless

/-!
# Ranges of an enumeration

Tags are compared as words, and where the tags are words of the width this is the order of the
integers that they stand for. So gathered ranges hold exactly the integers of the tags
(`covered_gather`), each goes from one up to another, and when they hold every integer of the width
there is but one range, which the structural test recognises. An enumeration is therefore found to
be nicheless whenever it accepts every bit pattern (`Enumeration.exists_deriveNicheless`).
-/

namespace BitValidity

namespace IntRange

variable {width : IntWidth} {signed : Bool} {a b c : UInt64} {tags : List UInt64}

/-! ### The order of tags -/

lemma tagLE_iff (ha : a.toNat < 256 ^ width.bytes) (hb : b.toNat < 256 ^ width.bytes) :
    tagLE width signed a b = true ↔ width.integerOf signed a ≤ width.integerOf signed b := by
  cases signed with
  | true => simp [tagLE, IntWidth.integerOf, Int64.le_iff_toInt_le]
  | false =>
    simp [tagLE, IntWidth.integerOf, UInt64.le_iff_toNat_le, Nat.mod_eq_of_lt ha,
      Nat.mod_eq_of_lt hb]

lemma tagLE_refl (a : UInt64) : tagLE width signed a a = true := by
  cases signed <;> simp [tagLE]

lemma tagLE_trans (hab : tagLE width signed a b = true) (hbc : tagLE width signed b c = true) :
    tagLE width signed a c = true := by
  cases signed with
  | true =>
    simp only [tagLE, if_true, decide_eq_true_eq] at *
    exact Int64.le_trans hab hbc
  | false =>
    simp only [tagLE, Bool.false_eq_true, if_false, decide_eq_true_eq] at *
    exact UInt64.le_trans hab hbc

lemma tagLE_total (a b : UInt64) :
    (tagLE width signed a b || tagLE width signed b a) = true := by
  cases signed with
  | true => simpa [tagLE] using Int64.le_total _ _
  | false => simpa [tagLE] using UInt64.le_total _ _

/-- Words of the width that stand for the same integer are the same. -/
lemma integerOf_inj (ha : a.toNat < 256 ^ width.bytes) (hb : b.toNat < 256 ^ width.bytes) :
    width.integerOf signed a = width.integerOf signed b ↔ a = b := by
  constructor
  · rw [integerOf_of_lt ha, integerOf_of_lt hb, ← UInt64.toNat_inj]
    cases signed with
    | true =>
      intro h
      have hmod := congrArg (· % (256 ^ width.bytes : ℕ) : ℤ → ℤ) h
      simp only [if_true, Int.bmod_emod] at hmod
      norm_cast at hmod
      rwa [Nat.mod_eq_of_lt ha, Nat.mod_eq_of_lt hb] at hmod
    | false => simp
  · rintro rfl
    rfl

/-- The word after a word of the width, which is zero after the greatest. -/
lemma toNat_next (a : UInt64) (width : IntWidth) :
    ((a + 1) &&& byteMask width.bytes).toNat = (a.toNat + 1) % 256 ^ width.bytes := by
  have hdvd : 256 ^ width.bytes ∣ 2 ^ 64 := by cases width <;> decide
  rw [toNat_and_byteMask, UInt64.toNat_add]
  exact Nat.mod_mod_of_dvd _ hdvd

/-- A tag follows another when it stands for the next integer. -/
lemma follows_iff (ha : a.toNat < 256 ^ width.bytes) (hb : b.toNat < 256 ^ width.bytes) :
    follows width signed a b = true ↔
      width.integerOf signed b = width.integerOf signed a + 1 := by
  have hnext : ((a + 1) &&& byteMask width.bytes).toNat < 256 ^ width.bytes := by
    rw [toNat_next]
    exact Nat.mod_lt _ (by positivity)
  have hwrap : (a.toNat + 1) % 256 ^ width.bytes =
      if a.toNat + 1 = 256 ^ width.bytes then 0 else a.toNat + 1 := by
    split
    · rename_i heq
      rw [heq, Nat.mod_self]
    · exact Nat.mod_eq_of_lt (by omega)
  have hpow := width.pow_bytes
  have hhalf : 1 < 2 ^ (8 * width.bytes - 1) := by cases width <;> decide
  simp only [follows, Bool.and_eq_true, beq_iff_eq, tagLE_iff ha hnext]
  rw [← UInt64.toNat_inj, integerOf_eq_ite ha, integerOf_eq_ite hb, integerOf_eq_ite hnext,
    toNat_next, hwrap]
  zify at *
  cases signed <;> simp only [Bool.false_eq_true, false_and, true_and, if_false] <;>
    split_ifs at * <;> omega

/-! ### What ranges hold -/

/-- An open range and the tags after it are gathered into ranges that hold what they hold. -/
lemma covered_gatherFrom (opened : IntRange) (hlast : opened.last.toNat < 256 ^ width.bytes)
    (hopened : width.integerOf signed opened.first ≤ width.integerOf signed opened.last)
    (htags : ∀ tag ∈ tags, tag.toNat < 256 ^ width.bytes) :
    covered width signed (gatherFrom width signed opened tags) =
      Set.Icc (width.integerOf signed opened.first) (width.integerOf signed opened.last) ∪
        { x | ∃ tag ∈ tags, width.integerOf signed tag = x } := by
  induction tags generalizing opened with
  | nil =>
    ext x
    simp [gatherFrom, covered]
  | cons tag rest ih =>
    obtain ⟨htag, hrest⟩ := List.forall_mem_cons.mp htags
    rw [gatherFrom]
    split
    · rename_i hfollows
      have hnext := (follows_iff hlast htag).mp hfollows
      rw [ih _ htag (by dsimp only; omega) hrest]
      ext x
      simp only [Set.mem_union, Set.mem_Icc, Set.mem_ofPred_eq, List.exists_mem_cons_iff, hnext,
        ← or_assoc]
      apply or_congr_left
      omega
    · rw [covered_cons, ih ⟨tag, tag⟩ htag le_rfl hrest, Set.Icc_self]
      congr 1
      ext x
      simp [eq_comm]

/-- Gathered ranges hold the integers of the tags. -/
theorem covered_gather (htags : ∀ tag ∈ tags, tag.toNat < 256 ^ width.bytes) :
    covered width signed (gather width signed tags) =
      { x | ∃ tag ∈ tags, width.integerOf signed tag = x } := by
  have hperm := List.mergeSort_perm tags (tagLE width signed)
  simp only [gather]
  simp only [← hperm.mem_iff] at htags ⊢
  split
  · simp_all [covered]
  · rename_i tag rest heq
    rw [heq] at htags ⊢
    obtain ⟨htag, hrest⟩ := List.forall_mem_cons.mp htags
    rw [covered_gatherFrom ⟨tag, tag⟩ htag le_rfl hrest, Set.Icc_self]
    ext x
    simp [eq_comm]

/-- A range goes from its first tag up to its last. -/
lemma tagLE_of_mem_gatherFrom {opened : IntRange}
    (hopened : tagLE width signed opened.first opened.last = true) :
    ∀ range ∈ gatherFrom width signed opened tags,
      tagLE width signed range.first range.last = true := by
  induction tags generalizing opened with
  | nil => simpa [gatherFrom] using hopened
  | cons tag rest ih =>
    rw [gatherFrom]
    split
    · rename_i hfollows
      simp only [follows, Bool.and_eq_true, beq_iff_eq] at hfollows
      apply ih
      exact tagLE_trans hopened (hfollows.1 ▸ hfollows.2)
    · exact List.forall_mem_cons.mpr ⟨hopened, ih (tagLE_refl tag)⟩

lemma tagLE_of_mem_gather :
    ∀ range ∈ gather width signed tags, tagLE width signed range.first range.last = true := by
  simp only [gather]
  split
  · simp
  · exact tagLE_of_mem_gatherFrom (tagLE_refl _)

/-! ### Ranges that hold everything -/

/-- Sorted, tags that are all different stand for increasing integers. -/
lemma pairwise_integerOf_mergeSort (htags : ∀ tag ∈ tags, tag.toNat < 256 ^ width.bytes)
    (hnodup : tags.Nodup) :
    (tags.mergeSort (tagLE width signed)).Pairwise fun a b =>
      width.integerOf signed a < width.integerOf signed b := by
  have hperm := List.mergeSort_perm tags (tagLE width signed)
  have hsorted := @List.pairwise_mergeSort _ (tagLE width signed)
    (fun _ _ _ => tagLE_trans) tagLE_total tags
  apply (hsorted.and (hperm.nodup_iff.mpr hnodup)).imp_of_mem
  rintro a b ha hb ⟨hle, hne⟩
  have ha := htags a (hperm.mem_iff.mp ha)
  have hb := htags b (hperm.mem_iff.mp hb)
  exact lt_of_le_of_ne ((tagLE_iff ha hb).mp hle) fun heq => hne ((integerOf_inj ha hb).mp heq)

/-- Where increasing tags hold every integer after an open range, each follows the one before, and
all of them go into the range. -/
lemma gatherFrom_eq_singleton (opened : IntRange)
    (hlast : opened.last.toNat < 256 ^ width.bytes)
    (htags : ∀ tag ∈ tags, tag.toNat < 256 ^ width.bytes)
    (hsorted : (opened.last :: tags).Pairwise fun a b =>
      width.integerOf signed a < width.integerOf signed b)
    (hcovered : ∀ x ∈ width.domain signed, width.integerOf signed opened.last < x →
      ∃ tag ∈ tags, width.integerOf signed tag = x) :
    ∃ last : UInt64, last.toNat < 256 ^ width.bytes ∧
      gatherFrom width signed opened tags = [⟨opened.first, last⟩] ∧
      ∀ x ∈ width.domain signed, x ≤ width.integerOf signed last := by
  induction tags generalizing opened with
  | nil =>
    refine ⟨opened.last, hlast, rfl, ?_⟩
    intro x hx
    by_contra hlt
    obtain ⟨tag, htag, -⟩ := hcovered x hx (not_le.mp hlt)
    cases htag
  | cons tag rest ih =>
    obtain ⟨htag, hrest⟩ := List.forall_mem_cons.mp htags
    obtain ⟨hlt, hsorted⟩ := List.pairwise_cons.mp hsorted
    have hlt := hlt tag List.mem_cons_self
    have hgreater := (List.pairwise_cons.mp hsorted).1
    -- the integer after the open range is that of a tag, and the first tag is the least
    have hmem : width.integerOf signed opened.last + 1 ∈ width.domain signed := by
      have hl : width.integerOf signed opened.last ∈ width.domain signed :=
        integerOf_mem_domain hlast
      have ht : width.integerOf signed tag ∈ width.domain signed := integerOf_mem_domain htag
      cases signed <;> simp only [IntWidth.domain, Bool.false_eq_true, if_true, if_false,
        Set.mem_Ico] at hl ht ⊢ <;> omega
    have hnext : width.integerOf signed tag = width.integerOf signed opened.last + 1 := by
      obtain ⟨next, hin, heq⟩ := hcovered _ hmem (by omega)
      rcases List.mem_cons.mp hin with rfl | hin
      · exact heq
      · have := hgreater next hin
        omega
    rw [gatherFrom, if_pos ((follows_iff hlast htag).mpr hnext)]
    apply ih _ htag hrest hsorted
    intro x hx hxlt
    obtain ⟨next, hin, heq⟩ := hcovered x hx (by dsimp only at hxlt; omega)
    rcases List.mem_cons.mp hin with rfl | hin
    · exact absurd heq hxlt.ne
    · exact ⟨next, hin, heq⟩

/-- A range of words of the width that holds every integer of the width is seen to do so. -/
lemma coversDomain_of_domain_subset {r : IntRange} (hfirst : r.first.toNat < 256 ^ width.bytes)
    (hlast : r.last.toNat < 256 ^ width.bytes)
    (h : width.domain signed ⊆
      Set.Icc (width.integerOf signed r.first) (width.integerOf signed r.last)) :
    r.coversDomain width signed = true := by
  rw [coversDomain_iff, Nat.mod_eq_of_lt hfirst, Nat.mod_eq_of_lt hlast]
  rw [integerOf_eq_ite hfirst, integerOf_eq_ite hlast] at h
  have hhalf : 1 < 2 ^ (8 * width.bytes - 1) := by cases width <;> decide
  have hpow := width.pow_bytes
  cases signed with
  | true =>
    have hdomain : width.domain true = Set.Ico (-(2 ^ (8 * width.bytes - 1) : ℕ) : ℤ)
        (2 ^ (8 * width.bytes - 1) : ℕ) := by simp [IntWidth.domain]
    have hall : (256 ^ width.bytes : ℤ) = (256 ^ width.bytes : ℕ) := by norm_cast
    rw [hdomain, hall] at h
    simp only [if_true, true_and] at h ⊢
    generalize 2 ^ (8 * width.bytes - 1) = half at *
    generalize 256 ^ width.bytes = all at *
    have hleast := (h (Set.mem_Ico.mpr ⟨le_rfl, by omega⟩)).1
    have hgreatest := (h (show (half : ℤ) - 1 ∈ _ from Set.mem_Ico.mpr ⟨by omega, by omega⟩)).2
    split_ifs at hleast hgreatest <;> omega
  | false =>
    have hdomain : width.domain false = Set.Ico 0 ((256 ^ width.bytes : ℕ) : ℤ) := by
      simp [IntWidth.domain]
    rw [hdomain] at h
    simp only [Bool.false_eq_true, false_and, if_false] at h ⊢
    generalize 256 ^ width.bytes = all at *
    have hleast := (h (Set.mem_Ico.mpr ⟨le_rfl, by omega⟩)).1
    have hgreatest := (h (show (all : ℤ) - 1 ∈ _ from Set.mem_Ico.mpr ⟨by omega, by omega⟩)).2
    omega

/-- Ranges gathered from different tags that hold every integer of the width are one range. -/
theorem any_coversDomain_gather (htags : ∀ tag ∈ tags, tag.toNat < 256 ^ width.bytes)
    (hnodup : tags.Nodup)
    (h : width.domain signed ⊆ covered width signed (gather width signed tags)) :
    (gather width signed tags).any (·.coversDomain width signed) = true := by
  rw [covered_gather htags] at h
  have hsorted : (tags.mergeSort (tagLE width signed)).Pairwise fun a b =>
      width.integerOf signed a < width.integerOf signed b :=
    pairwise_integerOf_mergeSort htags hnodup
  have hperm := List.mergeSort_perm tags (tagLE width signed)
  simp only [gather]
  simp only [← hperm.mem_iff] at htags h
  split
  · rename_i heq
    have hzero : width.integerOf signed 0 ∈ width.domain signed := integerOf_mem_domain (by simp)
    obtain ⟨tag, htag, -⟩ := h hzero
    rw [heq] at htag
    cases htag
  · rename_i tag rest heq
    rw [heq] at htags h hsorted
    obtain ⟨htag, hrest⟩ := List.forall_mem_cons.mp htags
    obtain ⟨last, hlast, hgathered, hgreatest⟩ := gatherFrom_eq_singleton ⟨tag, tag⟩ htag
      hrest hsorted fun x hx hlt => by
        obtain ⟨next, hin, hnext⟩ := h hx
        rcases List.mem_cons.mp hin with rfl | hin
        · exact absurd hnext hlt.ne
        · exact ⟨next, hin, hnext⟩
    rw [hgathered, List.any_cons, List.any_nil, Bool.or_false]
    apply coversDomain_of_domain_subset htag hlast
    intro x hx
    refine ⟨?_, hgreatest x hx⟩
    obtain ⟨next, hin, rfl⟩ := h hx
    rcases List.mem_cons.mp hin with rfl | hin
    · exact le_rfl
    · exact ((List.pairwise_cons.mp hsorted).1 next hin).le

end IntRange

/-! ### Enumerations -/

variable {κ : Type} [Check κ]

/-- Of an enumeration that accepts every bit pattern it is derived that it is nicheless. -/
theorem Enumeration.exists_deriveNicheless {e : Enumeration} {fact : LayoutFact κ}
    (hfact : e.layoutFact = .ok fact) (hall : fact.validity.AcceptsAll) :
    ∃ proof, e.deriveNicheless = .ok proof := by
  refine ⟨.derived .everyTag, (deriveNicheless_eq_ok_iff hfact).mpr ?_⟩
  obtain ⟨width, tags, -, hwidth, htags, rfl⟩ := layoutFact_eq_ok_iff.mp hfact
  have hany := IntRange.any_coversDomain_gather (lt_of_resolveDiscriminants hwidth htags)
    ((resolveDiscriminants_eq_ok_iff hwidth).mp htags).2.2
    (Predicate.acceptsAll_intRanges_iff.mp hall)
  obtain ⟨range, hrange, -⟩ := List.any_eq_true.mp hany
  exact ⟨List.isEmpty_eq_false_iff_exists_mem.mpr ⟨range, hrange⟩, hany, rfl⟩

end BitValidity
