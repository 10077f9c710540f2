import BitValidity.Proofs.Predicate.Constraints
import BitValidity.Registry.History

/-!
# The valid set of a leaf

A leaf is checked in one way and described for a diagnostic in another: bytes are compared with
zero, or a word is masked or sign extended, and the description holds encoded patterns. Here a set
of patterns is given its meaning, the integers between the ends of its ranges, and the meaning of
what a leaf is described by turns out to be the integers that the leaf accepts
(`findViolation_eq_none_iff_mem_validSet`).
-/

namespace BitValidity

/-! ### The integers of a set of patterns -/

/-- The integer that the pattern denotes, as a number of two's complement or as one without a
sign. -/
def BitPattern.integer (signed : Bool) (p : BitPattern) : ℤ :=
  if signed = true ∧ 2 ^ (8 * p.width - 1) ≤ LittleEndian.decode p.bytes then
    (LittleEndian.decode p.bytes : ℤ) - 256 ^ p.width
  else LittleEndian.decode p.bytes

/-- The integers that lie in one of the ranges. -/
def BitRanges.integers (signed : Bool) (s : BitRanges) : Set ℤ :=
  { x | ∃ r ∈ s.ranges, x ∈ Set.Icc (r.first.integer signed) (r.last.integer signed) }

namespace BitPattern

@[simp] lemma integer_unsigned (p : BitPattern) :
    p.integer false = LittleEndian.decode p.bytes := by
  simp [integer]

lemma decode_ones (width : ℕ) : LittleEndian.decode (ones width).bytes = 256 ^ width - 1 := by
  induction width with
  | zero => rfl
  | succ width ih =>
    have hpos : 0 < 256 ^ width := by positivity
    calc LittleEndian.decode (ones (width + 1)).bytes
        = 255 + 256 * LittleEndian.decode (ones width).bytes := rfl
      _ = 256 ^ (width + 1) - 1 := by rw [ih, pow_succ]; omega

lemma decode_zeros (width : ℕ) : LittleEndian.decode (zeros width).bytes = 0 :=
  LittleEndian.decode_eq_zero_iff.mpr fun _ hb => List.eq_of_mem_replicate hb

/-- The pattern of an integer of a width denotes what the integer is compared as. -/
lemma integer_ofUnsigned {value : UInt64} {width : IntWidth} (signed : Bool)
    (h : value.toNat < 256 ^ width.bytes) :
    (ofUnsigned value width.bytes).integer signed = width.integerOf signed value := by
  have hdecode : LittleEndian.decode (ofUnsigned value width.bytes).bytes = value.toNat := by
    rw [ofUnsigned, LittleEndian.decode_encode, shiftLeft_bytes, Nat.mod_eq_of_lt h]
  rw [integer, hdecode, width_ofUnsigned, integerOf_eq_ite h]

lemma integer_ofMemory {bytes : Bytes} {width : IntWidth} (signed : Bool)
    (hlen : bytes.length = width.bytes) :
    (ofMemory bytes).integer signed =
      width.integerOf signed (UInt64.ofNat (LittleEndian.decode bytes)) := by
  rw [← ofUnsigned_decode hlen]
  apply integer_ofUnsigned
  rw [toNat_ofNat_decode hlen]
  exact decode_lt_of_length hlen

end BitPattern

variable {κ : Type}

namespace Predicate

/-! ### What leaves are described by -/

/-- The integers of the predicate are compared as numbers of two's complement. -/
def comparesSigned : Predicate κ → Bool
  | intRanges _ signed _ _ => signed
  | _ => false

/-- A plain leaf, or one whose ranges have integers of its width for ends. -/
def isDescribedLeaf : Predicate κ → Bool
  | intRanges width _ ranges _ => ranges.all (·.fits width)
  | p => p.isPlainLeaf

section

variable {bytes : Bytes} {size : UInt64} {d : String}

lemma decode_lt_of_size (hlen : bytes.length = size.toNat) :
    LittleEndian.decode bytes < 256 ^ size.toNat := by
  rw [← hlen, ← shiftLeft_bytes]
  exact LittleEndian.decode_lt bytes

lemma mem_validSet_allValid (hlen : bytes.length = size.toNat) :
    (BitPattern.ofMemory bytes).integer false ∈
      (allValid size d : Predicate κ).validSet.integers false := by
  have hlt := decode_lt_of_size hlen
  refine ⟨_, List.mem_singleton_self _, ?_⟩
  simp only [BitPattern.integer_unsigned, BitPattern.decode_zeros, BitPattern.decode_ones,
    Set.mem_Icc, BitPattern.ofMemory]
  omega

/-- All patterns but zero; of no bytes there are none. -/
lemma mem_validSet_nonZero_iff {pointer : Bool} (hlen : bytes.length = size.toNat) :
    (BitPattern.ofMemory bytes).integer false ∈
        (nonZero size d pointer : Predicate κ).validSet.integers false ↔
      LittleEndian.decode bytes ≠ 0 := by
  have hlt := decode_lt_of_size hlen
  by_cases hsize : size = 0
  · subst hsize
    obtain rfl : bytes = [] := List.length_eq_zero_iff.mp hlen
    simp [validSet, BitRanges.integers, BitRanges.empty]
  · have hpos : size.toNat ≠ 0 := fun h => hsize (UInt64.toNat_inj.mp h)
    have hone : LittleEndian.decode (BitPattern.ofUnsigned 1 size.toNat).bytes = 1 := by
      rw [BitPattern.ofUnsigned, LittleEndian.decode_encode, shiftLeft_bytes]
      exact Nat.mod_eq_of_lt (Nat.one_lt_pow hpos (by decide))
    simp only [validSet, if_neg hsize, BitRanges.integers, List.mem_singleton, exists_eq_left,
      BitPattern.integer_unsigned, hone, BitPattern.decode_ones, Set.mem_ofPred_eq, Set.mem_Icc,
      BitPattern.ofMemory]
    omega

lemma mem_validSet_intRanges_iff {width : IntWidth} {signed : Bool} {ranges : List IntRange}
    (hfits : ∀ r ∈ ranges, r.fits width = true) (hlen : bytes.length = width.bytes) :
    (BitPattern.ofMemory bytes).integer signed ∈
        (intRanges width signed ranges d : Predicate κ).validSet.integers signed ↔
      ∃ r ∈ ranges, r.contains width signed (UInt64.ofNat (LittleEndian.decode bytes)) := by
  simp only [validSet, BitRanges.ofUnsigned, BitRanges.integers, Set.mem_ofPred_eq, List.mem_map,
    exists_exists_and_eq_and, BitPattern.integer_ofMemory signed hlen]
  refine exists_congr fun r => and_congr_right fun hr => ?_
  obtain ⟨hfirst, hlast⟩ :
      r.first.toNat < 256 ^ width.bytes ∧ r.last.toNat < 256 ^ width.bytes := by
    simpa [IntRange.fits, shiftLeft_bytes] using hfits r hr
  rw [BitPattern.integer_ofUnsigned signed hfirst, BitPattern.integer_ofUnsigned signed hlast,
    IntRange.contains_iff]

end

variable [Check κ]

/-! ### What leaves accept -/

/-- A described leaf accepts the bytes whose integers it is described by. -/
lemma accepts_iff_mem_validSet {p : Predicate κ} (hleaf : p.isDescribedLeaf = true) {bytes : Bytes}
    (hlen : bytes.length = p.size.toNat) :
    p.Accepts bytes ↔
      (BitPattern.ofMemory bytes).integer p.comparesSigned ∈
        p.validSet.integers p.comparesSigned := by
  cases p with
  | allValid size d =>
    exact iff_of_true (accepts_allValid_iff.mpr hlen) (mem_validSet_allValid hlen)
  | noneValid size d =>
    apply iff_of_false not_accepts_noneValid
    simp [validSet, BitRanges.integers, BitRanges.empty]
  | nonZero size d pointer =>
    have hlen : bytes.length = size.toNat := hlen
    rw [accepts_nonZero_iff_decode_ne_zero, and_iff_right hlen]
    exact (mem_validSet_nonZero_iff hlen).symm
  | intRanges width signed ranges d =>
    have hlen : bytes.length = width.bytes := by simpa [Predicate.size] using hlen
    have hfits : ∀ r ∈ ranges, r.fits width = true := by simpa [isDescribedLeaf] using hleaf
    rw [accepts_intRanges_iff, comparesSigned, mem_validSet_intRanges_iff hfits hlen]
    exact and_iff_right hlen
  | custom | allOf | oneOf | passthrough => simp [isDescribedLeaf, isPlainLeaf] at hleaf

/-- What is reported of a described leaf is about all of its bytes and carries its valid set. -/
lemma exists_eq_ofLeaf {p : Predicate κ} (hleaf : p.isDescribedLeaf = true) {bytes : Bytes}
    {v : Violation} (h : p.findViolation bytes = .ok (some v)) :
    ∃ kind, v = .ofLeaf p bytes kind := by
  have hlen := length_of_findViolation h
  rw [findViolation.eq_def, if_neg (not_not.mpr hlen)] at h
  cases p with
  | allValid size d => simp at h
  | noneValid size d => exact ⟨_, by simpa using h.symm⟩
  | nonZero size d pointer =>
    simp only at h
    split at h
    · exact ⟨_, by simpa using h.symm⟩
    · simp at h
  | intRanges width signed ranges d =>
    obtain ⟨value, -, h⟩ := bind_eq_ok_iff.mp h
    split at h
    · cases h
    · cases h
      exact ⟨_, rfl⟩
  | custom | allOf | oneOf | passthrough => simp [isDescribedLeaf, isPlainLeaf] at hleaf

omit [Check κ] in
lemma isWellFormed_of_isDescribedLeaf {p : Predicate κ} (hleaf : p.isDescribedLeaf = true) :
    p.isWellFormed = true := by
  cases p <;> simp_all [isDescribedLeaf, isPlainLeaf, isWellFormed]

/-- As many bytes as a described leaf covers are checked without a breach, and they pass exactly
when their integer lies in one of the ranges that describe the leaf. A violation shows the bytes
next to the ranges, and their integer is in none of these. -/
theorem findViolation_eq_none_iff_mem_validSet {p : Predicate κ} (hleaf : p.isDescribedLeaf = true)
    {bytes : Bytes} (hlen : bytes.length = p.size.toNat) :
    ∃ outcome, p.findViolation bytes = .ok outcome ∧
      (outcome = none ↔
        (BitPattern.ofMemory bytes).integer p.comparesSigned ∈
          p.validSet.integers p.comparesSigned) ∧
      ∀ v ∈ outcome, v.bits = .ofMemory bytes ∧ v.valid = p.validSet ∧
        v.bits.integer p.comparesSigned ∉ v.valid.integers p.comparesSigned := by
  obtain ⟨outcome, houtcome⟩ := exists_findViolation (isWellFormed_of_isDescribedLeaf hleaf) hlen
  have hiff := accepts_iff_mem_validSet hleaf hlen
  rw [Accepts, houtcome, Except.ok.injEq] at hiff
  refine ⟨outcome, houtcome, hiff, ?_⟩
  rintro v rfl
  obtain ⟨kind, rfl⟩ := exists_eq_ofLeaf hleaf houtcome
  refine ⟨rfl, rfl, ?_⟩
  intro hmem
  cases hiff.mpr hmem

/-- Minus two lies between minus three and two. A range that is the wrong way round adds nothing. -/
theorem findViolation_eq_none_iff_mem_validSet_signed :
    let p : Predicate Empty := .intRanges .two true [⟨0xFFFD, 2⟩, ⟨5, 3⟩] "a small number"
    let bytes : Bytes := [0xFE, 0xFF]
    p.isDescribedLeaf = true ∧ bytes.length = p.size.toNat ∧
      (BitPattern.ofMemory bytes).integer true = -2 ∧
      ∃ outcome, p.findViolation bytes = .ok outcome ∧
        (outcome = none ↔
          (BitPattern.ofMemory bytes).integer true ∈ p.validSet.integers true) ∧
        ∀ v ∈ outcome, v.bits = .ofMemory bytes ∧ v.valid = p.validSet ∧
          v.bits.integer true ∉ v.valid.integers true :=
  ⟨by decide, by decide, by decide, findViolation_eq_none_iff_mem_validSet (by decide) (by decide)⟩

end Predicate

end BitValidity
