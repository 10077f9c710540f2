import BitValidity.Proofs.Layout.CanonicalRanges
import BitValidity.Proofs.Predicate.Constraints

/-!
# The tags of an enumeration

An enumeration accepts the tags of its discriminants and no others. As its ranges are canonical, the
fact depends on which discriminants there are and not on how they are listed
(`accepts_exactly_discriminants`). It is nicheless when every bit pattern of the width is the tag of
a discriminant, and is said to have no value when there is no discriminant
(`nicheless_iff_every_tag_used`).
-/

namespace BitValidity

variable {κ : Type} [Check κ]

/-! ### Ranges that accept the same -/

namespace IntRange

variable {width : IntWidth} {signed : Bool} {ranges ranges' : List IntRange} {d d' : String}

lemma IsCanonical.covered_subset_domain (h : IsCanonical width signed ranges) :
    covered width signed ranges ⊆ width.domain signed := by
  rintro x ⟨r, hr, hle, hge⟩
  obtain ⟨hfirst, hlast⟩ := h.fits r hr
  have hfirst : width.integerOf signed r.first ∈ width.domain signed := integerOf_mem_domain hfirst
  have hlast : width.integerOf signed r.last ∈ width.domain signed := integerOf_mem_domain hlast
  cases signed with
  | true => exact ⟨hfirst.1.trans hle, hge.trans_lt hlast.2⟩
  | false => exact ⟨hfirst.1.trans hle, hge.trans_lt hlast.2⟩

/-- Canonical ranges that accept the same bytes are the same. -/
theorem IsCanonical.eq_of_accepts_iff (h : IsCanonical width signed ranges)
    (h' : IsCanonical width signed ranges')
    (haccepts : ∀ bytes, (Predicate.intRanges width signed ranges d : Predicate κ).Accepts bytes ↔
      (Predicate.intRanges width signed ranges' d' : Predicate κ).Accepts bytes) :
    ranges = ranges' := by
  have hmem : ∀ x ∈ width.domain signed,
      (x ∈ covered width signed ranges ↔ x ∈ covered width signed ranges') := by
    intro x hx
    obtain ⟨bytes, hlen, rfl⟩ := exists_stored_integerOf_eq hx
    exact (Predicate.accepts_intRanges_iff_covered hlen).symm.trans
      ((haccepts bytes).trans (Predicate.accepts_intRanges_iff_covered hlen))
  apply h.eq_of_covered_eq h'
  ext x
  constructor
  · intro hx
    exact (hmem x (h.covered_subset_domain hx)).mp hx
  · intro hx
    exact (hmem x (h'.covered_subset_domain hx)).mpr hx

/-- Gathered ranges accept the bytes of the tags. -/
lemma accepts_gather_iff {tags : List UInt64} (htags : ∀ tag ∈ tags, tag.toNat < 256 ^ width.bytes)
    {bytes : Bytes} (hlen : bytes.length = width.bytes) :
    (Predicate.intRanges width signed (gather width signed tags) d : Predicate κ).Accepts bytes ↔
      ∃ tag ∈ tags, tag.toNat = LittleEndian.decode bytes := by
  have hword := toNat_ofNat_decode hlen
  have hlt := hword.trans_lt (decode_lt_of_length hlen)
  rw [Predicate.accepts_intRanges_iff_covered hlen, covered_gather htags]
  apply exists_congr
  intro tag
  apply and_congr_right
  intro htag
  rw [integerOf_inj (htags tag htag) hlt, ← UInt64.toNat_inj, hword]

end IntRange

/-! ### Enumerations -/

namespace Enumeration

variable {e other : Enumeration} {fact : LayoutFact κ} {tags : List UInt64}

omit [Check κ] in
lemma toNat_size (h : e.layoutFact = .ok fact) :
    fact.validity.size.toNat = e.tag.width.toNat := by
  obtain ⟨width, tags, -, hwidth, -, rfl⟩ := layoutFact_eq_ok_iff.mp h
  rw [Predicate.size, IntWidth.toNat_toUInt64, Tag.checkedWidth_eq_ok_iff.mp hwidth]

/-- The values of an enumeration are the tags of its discriminants. -/
lemma accepts_iff (h : e.layoutFact = .ok fact)
    (htags : resolveDiscriminants e.name e.tag e.discriminants = .ok tags) {bytes : Bytes}
    (hlen : bytes.length = e.tag.width.toNat) :
    fact.validity.Accepts bytes ↔ ∃ tag ∈ tags, tag.toNat = LittleEndian.decode bytes := by
  obtain ⟨width, resolved, -, hwidth, hresolved, rfl⟩ := layoutFact_eq_ok_iff.mp h
  obtain rfl : tags = resolved := Except.ok.inj (htags.symm.trans hresolved)
  rw [Tag.checkedWidth_eq_ok_iff.mp hwidth] at hlen
  exact IntRange.accepts_gather_iff (lt_of_resolveDiscriminants hwidth htags) hlen

/-- A check of as many bytes as the tag has accepts the tags of discriminants and rejects others. -/
lemma exists_findViolation_iff (h : e.layoutFact = .ok fact)
    (htags : resolveDiscriminants e.name e.tag e.discriminants = .ok tags) {bytes : Bytes}
    (hlen : bytes.length = e.tag.width.toNat) : ∃ outcome,
      fact.validity.findViolation bytes = .ok outcome ∧
        (outcome = none ↔ ∃ tag ∈ tags, tag.toNat = LittleEndian.decode bytes) := by
  have hwf := e.good_of_layoutFact Predicate.layoutClosed_isWellFormed h
  obtain ⟨outcome, houtcome⟩ :=
    Predicate.exists_findViolation hwf (hlen.trans (toNat_size h).symm)
  refine ⟨outcome, houtcome, ?_⟩
  rw [← accepts_iff h htags hlen, Predicate.Accepts, houtcome, Except.ok.injEq]

/-- The same discriminants have the same tags. -/
lemma mem_tags_iff {width : IntWidth} {tags' : List UInt64}
    (hwidth : e.tag.checkedWidth e.name = .ok width)
    (hwidth' : other.tag.checkedWidth other.name = .ok width)
    (htags : resolveDiscriminants e.name e.tag e.discriminants = .ok tags)
    (htags' : resolveDiscriminants other.name other.tag other.discriminants = .ok tags')
    (hvalues : ∀ value, value ∈ Discriminant.values other.discriminants ↔
      value ∈ Discriminant.values e.discriminants) (tag : UInt64) : tag ∈ tags ↔ tag ∈ tags' := by
  rw [((resolveDiscriminants_eq_ok_iff hwidth).mp htags).2.1,
    ((resolveDiscriminants_eq_ok_iff hwidth').mp htags').2.1]
  simp only [List.mem_map, hvalues]

omit [Check κ] in
/-- Discriminants that are those of an enumeration have a fact as well, if none is listed twice. -/
lemma exists_layoutFact_iff (h : e.layoutFact = .ok fact) (htag : other.tag = e.tag)
    (hvalues : ∀ value, value ∈ Discriminant.values other.discriminants ↔
      value ∈ Discriminant.values e.discriminants) :
    (∃ fact' : LayoutFact κ, other.layoutFact = .ok fact') ↔
      (Discriminant.values other.discriminants).Nodup := by
  obtain ⟨width, tags, hoffset, hwidth, htags, rfl⟩ := layoutFact_eq_ok_iff.mp h
  have hwidth' : other.tag.checkedWidth other.name = .ok width := by
    rw [Tag.checkedWidth_eq_ok_iff, htag]
    exact Tag.checkedWidth_eq_ok_iff.mp hwidth
  have hholds : ∀ value ∈ Discriminant.values other.discriminants, other.tag.Holds value := by
    intro value hvalue
    rw [htag]
    exact ((exists_resolved_iff hwidth).mp ⟨tags, htags⟩).1 value ((hvalues value).mp hvalue)
  constructor
  · rintro ⟨fact', h'⟩
    obtain ⟨width', tags', -, hwidth', htags', -⟩ := layoutFact_eq_ok_iff.mp h'
    exact ((exists_resolved_iff hwidth').mp ⟨tags', htags'⟩).2
  · intro hnodup
    obtain ⟨tags', htags'⟩ := (exists_resolved_iff hwidth').mpr ⟨hholds, hnodup⟩
    exact ⟨_, layoutFact_eq_ok_iff.mpr ⟨width, tags', htag ▸ hoffset, hwidth', htags', rfl⟩⟩

omit [Check κ] in
/-- Enumerations with the same tag and the same discriminants have facts that agree. -/
lemma agreesWith_of_values [DecidableEq κ] {fact' : LayoutFact κ} (h : e.layoutFact = .ok fact)
    (h' : other.layoutFact = .ok fact') (htag : other.tag = e.tag)
    (hvalues : ∀ value, value ∈ Discriminant.values other.discriminants ↔
      value ∈ Discriminant.values e.discriminants) : fact.agreesWith fact' = true := by
  obtain ⟨width, tags, -, hwidth, htags, rfl⟩ := layoutFact_eq_ok_iff.mp h
  obtain ⟨width', tags', -, hwidth', htags', rfl⟩ := layoutFact_eq_ok_iff.mp h'
  obtain rfl : width = width' := by
    rw [Tag.checkedWidth_eq_ok_iff, htag, ← IntWidth.ofBytes?_eq_some_iff] at hwidth'
    rw [Tag.checkedWidth_eq_ok_iff, ← IntWidth.ofBytes?_eq_some_iff] at hwidth
    exact Option.some.inj (hwidth.symm.trans hwidth')
  have hgather : IntRange.gather width e.tag.signed tags =
      IntRange.gather width other.tag.signed tags' := by
    rw [htag]
    exact IntRange.gather_eq_of_mem_iff (lt_of_resolveDiscriminants hwidth htags)
      ((resolveDiscriminants_eq_ok_iff hwidth).mp htags).2.2
      ((resolveDiscriminants_eq_ok_iff hwidth').mp htags').2.2
      (mem_tags_iff hwidth hwidth' htags htags' hvalues)
  simp [LayoutFact.agreesWith, Predicate.equivalent, hgather, htag]

/-- Of the bytes of its tag, an enumeration accepts those that store the tag of a discriminant, and
rejects all others. Its ranges increase, each from one end up to the other, and no two of them could
be joined; no other such ranges accept the same bytes. So an enumeration with the same tag and the
same discriminants, in whatever order, has a fact if it lists none twice, and the facts agree. -/
theorem accepts_exactly_discriminants [DecidableEq κ] (h : e.layoutFact = .ok fact) :
    ∃ width tags ranges, e.tag.width.toNat = width.bytes ∧
      resolveDiscriminants e.name e.tag e.discriminants = .ok tags ∧
      fact.validity = .intRanges width e.tag.signed ranges e.name ∧
      (∀ bytes : Bytes, bytes.length = e.tag.width.toNat → ∃ outcome,
        fact.validity.findViolation bytes = .ok outcome ∧
          (outcome = none ↔ ∃ tag ∈ tags, tag.toNat = LittleEndian.decode bytes)) ∧
      IntRange.IsCanonical width e.tag.signed ranges ∧
      (∀ ranges' d, IntRange.IsCanonical width e.tag.signed ranges' →
        (∀ bytes, fact.validity.Accepts bytes ↔
          (Predicate.intRanges width e.tag.signed ranges' d : Predicate κ).Accepts bytes) →
        ranges = ranges') ∧
      ∀ other : Enumeration, other.tag = e.tag →
        (∀ value, value ∈ Discriminant.values other.discriminants ↔
          value ∈ Discriminant.values e.discriminants) →
        ((∃ fact' : LayoutFact κ, other.layoutFact = .ok fact') ↔
            (Discriminant.values other.discriminants).Nodup) ∧
          ∀ fact', other.layoutFact = .ok fact' → fact.agreesWith fact' = true := by
  obtain ⟨width, tags, -, hwidth, htags, hfact⟩ := layoutFact_eq_ok_iff.mp h
  have hvalidity : fact.validity = .intRanges width e.tag.signed
      (IntRange.gather width e.tag.signed tags) e.name := by rw [hfact]
  have hcanonical : IntRange.IsCanonical width e.tag.signed
      (IntRange.gather width e.tag.signed tags) :=
    IntRange.isCanonical_gather (lt_of_resolveDiscriminants hwidth htags)
      ((resolveDiscriminants_eq_ok_iff hwidth).mp htags).2.2
  refine ⟨width, tags, _, Tag.checkedWidth_eq_ok_iff.mp hwidth, htags, hvalidity, ?_, hcanonical,
    ?_, ?_⟩
  · intro bytes hlen
    exact exists_findViolation_iff h htags hlen
  · intro ranges' d hcanonical' haccepts
    rw [hvalidity] at haccepts
    exact hcanonical.eq_of_accepts_iff hcanonical' haccepts
  · intro other htag hvalues
    refine ⟨exists_layoutFact_iff h htag hvalues, ?_⟩
    intro fact' h'
    exact agreesWith_of_values h h' htag hvalues

/-- Five integers of a byte with a sign, the least and the greatest of all among them. -/
def delta : Enumeration := ⟨"delta", ⟨1, true, 0⟩, [some 1, some (-1), none, some (-128), some 127]⟩

/-- The range about zero holds three of them. The greatest is not followed by the least. -/
def deltaFact : LayoutFact Empty :=
  ⟨⟨1, 1⟩, "delta", .intRanges .one true [⟨128, 128⟩, ⟨255, 1⟩, ⟨127, 127⟩] "delta"⟩

lemma layoutFact_delta : delta.layoutFact = .ok deltaFact := by
  cbv

theorem accepts_exactly_discriminants_delta :
    delta.layoutFact = .ok deltaFact ∧
      (∀ bytes : Bytes, bytes.length = 1 → ∃ outcome,
        deltaFact.validity.findViolation bytes = .ok outcome ∧
          (outcome = none ↔ ∃ tag ∈ ([1, 255, 0, 128, 127] : List UInt64),
            tag.toNat = LittleEndian.decode bytes)) ∧
      IntRange.IsCanonical .one true [⟨128, 128⟩, ⟨255, 1⟩, ⟨127, 127⟩] := by
  obtain ⟨width, tags, ranges, hwidth, htags, hvalidity, haccepts, hcanonical, -⟩ :=
    accepts_exactly_discriminants layoutFact_delta
  have hresolved : resolveDiscriminants delta.name delta.tag delta.discriminants =
      .ok [1, 255, 0, 128, 127] := by cbv
  obtain rfl : [1, 255, 0, 128, 127] = tags := Except.ok.inj (hresolved.symm.trans htags)
  obtain ⟨rfl, -, rfl, -⟩ := Predicate.intRanges.inj hvalidity
  exact ⟨layoutFact_delta, haccepts, hcanonical⟩

/-! ### Nicheless enumerations -/

/-- Every bit pattern is accepted when every one of them is the tag of a discriminant. -/
lemma acceptsAll_iff_forall_mem (h : e.layoutFact = .ok fact)
    (htags : resolveDiscriminants e.name e.tag e.discriminants = .ok tags) :
    fact.validity.AcceptsAll ↔
      ∀ n < 2 ^ (8 * e.tag.width.toNat), ∃ tag ∈ tags, tag.toNat = n := by
  rw [Predicate.AcceptsAll, toNat_size h, ← Nat.one_shiftLeft]
  constructor
  · intro hall n hn
    have hlen := LittleEndian.length_encode e.tag.width.toNat n
    obtain ⟨tag, htag, heq⟩ := (accepts_iff h htags hlen).mp (hall _ hlen)
    rw [LittleEndian.decode_encode, Nat.mod_eq_of_lt hn] at heq
    exact ⟨tag, htag, heq⟩
  · intro hused bytes hlen
    have hlt := LittleEndian.decode_lt bytes
    rw [hlen] at hlt
    exact (accepts_iff h htags hlen).mpr (hused _ hlt)

omit [Check κ] in
lemma deriveNicheless_eq_uninhabited_iff (h : e.layoutFact = .ok fact) :
    e.deriveNicheless = .error (.notNicheless e.name .uninhabited) ↔
      fact.validity.admitsNone = true := by
  rw [deriveNicheless_eq h]
  by_cases hnone : fact.validity.admitsNone = true
  · simp [hnone]
  · by_cases hall : fact.validity.admitsAll = true <;>
      simp [hnone, hall, Error.notNicheless, Error.ofCause]

omit [Check κ] in
/-- Ranges are gathered from no tags exactly if there are no discriminants. -/
lemma admitsNone_iff (h : e.layoutFact = .ok fact) :
    fact.validity.admitsNone = true ↔ e.discriminants = [] := by
  obtain ⟨width, tags, -, hwidth, htags, rfl⟩ := layoutFact_eq_ok_iff.mp h
  rw [Predicate.admitsNone, List.isEmpty_iff,
    IntRange.gather_eq_nil_iff (lt_of_resolveDiscriminants hwidth htags),
    ((resolveDiscriminants_eq_ok_iff hwidth).mp htags).2.1, List.map_eq_nil_iff,
    ← List.length_eq_zero_iff, Discriminant.length_values, List.length_eq_zero_iff]

/-- That an enumeration is nicheless is derived exactly if each of the bit patterns of its width is
the tag of a discriminant, and that is if its fact accepts every one of them. It is said to have no
value exactly if it has no discriminants. -/
theorem nicheless_iff_every_tag_used (h : e.layoutFact = .ok fact) :
    ∃ tags, resolveDiscriminants e.name e.tag e.discriminants = .ok tags ∧
      ((∃ proof, e.deriveNicheless = .ok proof) ↔
        ∀ n < 2 ^ (8 * e.tag.width.toNat), ∃ tag ∈ tags, tag.toNat = n) ∧
      ((∃ proof, e.deriveNicheless = .ok proof) ↔
        ∀ bytes : Bytes, bytes.length = e.tag.width.toNat →
          fact.validity.findViolation bytes = .ok none) ∧
      (e.deriveNicheless = .error (.notNicheless e.name .uninhabited) ↔ e.discriminants = []) := by
  have hderives : (∃ proof, e.deriveNicheless = .ok proof) ↔ fact.validity.AcceptsAll := by
    constructor
    · rintro ⟨proof, hproof⟩
      exact acceptsAll_of_deriveNicheless h hproof
    · exact exists_deriveNicheless h
  obtain ⟨width, tags, -, -, htags, -⟩ := layoutFact_eq_ok_iff.mp h
  refine ⟨tags, htags, ?_, ?_, (deriveNicheless_eq_uninhabited_iff h).trans (admitsNone_iff h)⟩
  · exact hderives.trans (acceptsAll_iff_forall_mem h htags)
  · rw [hderives, Predicate.AcceptsAll, toNat_size h]
    rfl

/-- The integers of a byte with a sign, the least of them given and the others counted on. -/
def everyByte : Enumeration := ⟨"byte", ⟨1, true, 0⟩, some (-128) :: List.replicate 255 none⟩

lemma values_everyByte : Discriminant.values everyByte.discriminants =
    (List.range 256).map fun i : ℕ => (i : ℤ) - 128 := by
  decide +kernel

lemma mem_values_everyByte {value : ℤ} :
    value ∈ Discriminant.values everyByte.discriminants ↔ -128 ≤ value ∧ value < 128 := by
  rw [values_everyByte, List.mem_map]
  constructor
  · rintro ⟨i, hi, rfl⟩
    have := List.mem_range.mp hi
    omega
  · intro h
    exact ⟨(value + 128).toNat, List.mem_range.mpr (by omega), by omega⟩

lemma exists_layoutFact_everyByte :
    ∃ fact : LayoutFact Empty, everyByte.layoutFact = .ok fact := by
  have hwidth : everyByte.tag.checkedWidth everyByte.name = .ok .one := rfl
  have hholds : ∀ value ∈ Discriminant.values everyByte.discriminants,
      everyByte.tag.Holds value := by
    intro value hvalue
    obtain ⟨hle, hlt⟩ := mem_values_everyByte.mp hvalue
    exact ⟨hle, Int.le_sub_one_of_lt hlt⟩
  have hnodup : (Discriminant.values everyByte.discriminants).Nodup := by
    rw [values_everyByte]
    refine List.nodup_range.map ?_
    intro i j hij
    simpa using hij
  obtain ⟨tags, htags⟩ := (exists_resolved_iff hwidth).mpr ⟨hholds, hnodup⟩
  exact ⟨_, layoutFact_eq_ok_iff.mpr ⟨.one, tags, rfl, hwidth, htags, rfl⟩⟩

theorem nicheless_iff_every_tag_used_everyByte : ∃ fact : LayoutFact Empty,
    everyByte.layoutFact = .ok fact ∧ ∃ proof, everyByte.deriveNicheless = .ok proof := by
  obtain ⟨fact, hfact⟩ := exists_layoutFact_everyByte
  obtain ⟨tags, htags, hused, -⟩ := nicheless_iff_every_tag_used hfact
  refine ⟨fact, hfact, hused.mpr ?_⟩
  intro n hn
  have hwidth : everyByte.tag.checkedWidth everyByte.name = .ok .one := rfl
  obtain ⟨-, rfl, -⟩ := (resolveDiscriminants_eq_ok_iff hwidth).mp htags
  -- the upper half of the bit patterns is that of the negative integers
  have hmem : (n : ℤ).bmod 256 ∈ Discriminant.values everyByte.discriminants :=
    mem_values_everyByte.mpr ⟨Int.le_bmod (by decide), Int.bmod_lt (by decide)⟩
  refine ⟨_, List.mem_map_of_mem hmem, ?_⟩
  rw [Discriminant.toNat_lowBytes]
  show ((n : ℤ).bmod 256 % (256 : ℕ)).toNat = n
  replace hn : n < 256 := hn
  rw [Int.bmod_emod]
  omega

end Enumeration

end BitValidity
