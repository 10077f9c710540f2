import BitValidity.Proofs.Predicate.Acceptance

/-!
# Stored integers

An integer is stored in one, two, four or eight bytes. To load it from where it lies inside a value
gives the integer of these bytes, and everywhere else the load is refused, with one exception: the
end of an integer next to `2 ^ 64` wraps, and then bytes are read that are none of the value's
(`loads_inside_or_astray`). Where they lie inside, loading and writing are inverse to each other,
and the two's complement of an integer of the width is undone by sign extension
(`stores_integers_faithfully`).
-/

namespace BitValidity

variable {bytes : Bytes} {offset width : UInt64}

/-! ### Where integers lie -/

/-- There are integers of this width, and the one at the offset ends inside the bytes. The sum is
not one of words. -/
def LiesInside (bytes : Bytes) (offset width : UInt64) : Prop :=
  width ∈ [1, 2, 4, 8] ∧ offset.toNat + width.toNat ≤ bytes.length

instance : Decidable (LiesInside bytes offset width) := inferInstanceAs (Decidable (_ ∧ _))

/-- The integer at the offset ends behind the bytes, but the sum of words does not show it. -/
def GoesUnnoticed (bytes : Bytes) (offset width : UInt64) : Prop :=
  width ∈ [1, 2, 4, 8] ∧ bytes.length < offset.toNat + width.toNat ∧
    (offset + width).toNat ≤ bytes.length

instance : Decidable (GoesUnnoticed bytes offset width) := inferInstanceAs (Decidable (_ ∧ _ ∧ _))

/-! ### Loads by where they read -/

lemma mem_widths_iff : width ∈ [1, 2, 4, 8] ↔ ∃ w : IntWidth, width = w.toUInt64 := by
  constructor
  · intro h
    simp only [List.mem_cons, List.not_mem_nil, or_false] at h
    rcases h with rfl | rfl | rfl | rfl
    exacts [⟨.one, rfl⟩, ⟨.two, rfl⟩, ⟨.four, rfl⟩, ⟨.eight, rfl⟩]
  · rintro ⟨w, rfl⟩
    cases w <;> decide

lemma liesInside_toUInt64_iff {w : IntWidth} :
    LiesInside bytes offset w.toUInt64 ↔ offset.toNat + w.bytes ≤ bytes.length := by
  rw [LiesInside, and_iff_right (mem_widths_iff.mpr ⟨w, rfl⟩), w.toNat_toUInt64]

/-- What lies inside the bytes is loaded. -/
lemma loadUnsigned_of_liesInside (h : LiesInside bytes offset width) :
    loadUnsigned bytes offset width =
      .ok (UInt64.ofNat (LittleEndian.decode ((bytes.drop offset.toNat).take width.toNat))) := by
  obtain ⟨w, rfl⟩ := mem_widths_iff.mp h.1
  exact loadUnsigned_eq_ok offset w (liesInside_toUInt64_iff.mp h)

/-- The value that is loaded from inside the bytes is the integer that is stored there. -/
lemma toNat_of_liesInside (h : LiesInside bytes offset width) :
    (UInt64.ofNat (LittleEndian.decode ((bytes.drop offset.toNat).take width.toNat))).toNat =
      LittleEndian.decode ((bytes.drop offset.toNat).take width.toNat) := by
  obtain ⟨w, rfl⟩ := mem_widths_iff.mp h.1
  exact toNat_ofNat_decode (Predicate.length_part_of_width (liesInside_toUInt64_iff.mp h))

lemma loadUnsigned_of_goesUnnoticed (h : GoesUnnoticed bytes offset width) :
    loadUnsigned bytes offset width = .error (.strayRead offset width bytes.length) := by
  obtain ⟨hwidth, hend, hsum⟩ := h
  obtain ⟨w, rfl⟩ := mem_widths_iff.mp hwidth
  rw [loadUnsigned, if_neg (by omega), if_neg (by simp), Bytes.slice, if_neg (by omega)]
  rfl

/-- Everything else is refused: the sum shows that the end lies behind the bytes, or there are no
integers of the width. -/
lemma exists_loadUnsigned_eq_internal (hinside : ¬ LiesInside bytes offset width)
    (hnoticed : ¬ GoesUnnoticed bytes offset width) :
    ∃ e, loadUnsigned bytes offset width = .error (.internal e) := by
  rw [loadUnsigned]
  split
  · exact ⟨_, rfl⟩
  · rename_i hsum
    split
    · exact ⟨_, rfl⟩
    · rename_i hwidth
      exfalso
      obtain ⟨w, hw⟩ := Option.ne_none_iff_exists'.mp (by simpa using hwidth)
      have hmem : width ∈ [1, 2, 4, 8] := by
        refine mem_widths_iff.mpr ⟨w, UInt64.toNat_inj.mp ?_⟩
        rw [IntWidth.ofBytes?_eq_some_iff.mp hw, w.toNat_toUInt64]
      by_cases hend : offset.toNat + width.toNat ≤ bytes.length
      · exact hinside ⟨hmem, hend⟩
      · exact hnoticed ⟨hmem, by omega, by omega⟩

lemma LiesInside.not_goesUnnoticed (h : LiesInside bytes offset width) :
    ¬ GoesUnnoticed bytes offset width :=
  fun hun => absurd hun.2.1 (Nat.not_lt.mpr h.2)

/-- An end that wraps without notice belongs to an integer that begins at most eight bytes in front
of `2 ^ 64`. -/
lemma GoesUnnoticed.wraps (h : GoesUnnoticed bytes offset width) : 2 ^ 64 ≤ offset.toNat + 8 := by
  obtain ⟨hwidth, hend, hsum⟩ := h
  obtain ⟨w, rfl⟩ := mem_widths_iff.mp hwidth
  rw [UInt64.toNat_add, w.toNat_toUInt64] at hsum
  rw [w.toNat_toUInt64] at hend
  cases w <;> simp only [IntWidth.bytes] at hend hsum <;> omega

/-! ### Bounds of loads -/

/-- A value is loaded exactly from inside the bytes, and it is the integer that is stored there. -/
lemma loadUnsigned_eq_ok_iff {value : UInt64} :
    loadUnsigned bytes offset width = .ok value ↔
      LiesInside bytes offset width ∧
        value.toNat = LittleEndian.decode ((bytes.drop offset.toNat).take width.toNat) := by
  by_cases hinside : LiesInside bytes offset width
  · have hvalue := toNat_of_liesInside hinside
    rw [loadUnsigned_of_liesInside hinside, Except.ok.injEq, and_iff_right hinside,
      ← UInt64.toNat_inj, hvalue, eq_comm]
  · rw [iff_false_intro (not_and_of_not_left _ hinside), iff_false]
    by_cases hun : GoesUnnoticed bytes offset width
    · rw [loadUnsigned_of_goesUnnoticed hun]
      nofun
    · obtain ⟨e, he⟩ := exists_loadUnsigned_eq_internal hinside hun
      rw [he]
      nofun

/-- Bytes that are none of the value's are read exactly where the end wraps without notice. -/
lemma loadUnsigned_eq_strayRead_iff :
    loadUnsigned bytes offset width = .error (.strayRead offset width bytes.length) ↔
      GoesUnnoticed bytes offset width := by
  refine ⟨?_, loadUnsigned_of_goesUnnoticed⟩
  intro hstray
  by_contra hun
  by_cases hinside : LiesInside bytes offset width
  · rw [loadUnsigned_of_liesInside hinside] at hstray
    cases hstray
  · obtain ⟨e, he⟩ := exists_loadUnsigned_eq_internal hinside hun
    rw [he] at hstray
    cases hstray

/-- What is loaded are exactly the integers that lie inside the bytes. What does not lie inside is
refused exactly when the end does not wrap without notice. If it does, the load reads bytes that are
none of the value's, and that happens at the last eight offsets only. -/
theorem loads_inside_or_astray (bytes : Bytes) (offset width : UInt64) :
    (∀ value, loadUnsigned bytes offset width = .ok value ↔
      LiesInside bytes offset width ∧
        value.toNat = LittleEndian.decode ((bytes.drop offset.toNat).take width.toNat)) ∧
    ((¬ LiesInside bytes offset width →
        ∃ e, loadUnsigned bytes offset width = .error (.internal e)) ↔
      ¬ GoesUnnoticed bytes offset width) ∧
    (loadUnsigned bytes offset width = .error (.strayRead offset width bytes.length) ↔
      GoesUnnoticed bytes offset width) ∧
    (GoesUnnoticed bytes offset width → 2 ^ 64 ≤ offset.toNat + 8) := by
  refine ⟨fun value => loadUnsigned_eq_ok_iff, ⟨?_, ?_⟩, loadUnsigned_eq_strayRead_iff,
    GoesUnnoticed.wraps⟩
  · intro hrefused hun
    obtain ⟨e, he⟩ := hrefused fun hinside => hinside.not_goesUnnoticed hun
    rw [loadUnsigned_of_goesUnnoticed hun] at he
    cases he
  · intro hun hinside
    exact exists_loadUnsigned_eq_internal hinside hun

/-- Of two bytes, both are loaded at the first offset, and none of them at the last. -/
theorem loads_inside_or_astray_ends :
    loadUnsigned [1, 2] 0 2 = .ok 513 ∧
      GoesUnnoticed [1, 2] (-1) 2 ∧
      loadUnsigned [1, 2] (-1) 2 = .error (.strayRead (-1) 2 2) ∧
      2 ^ 64 ≤ (-1 : UInt64).toNat + 8 := by
  have hun : GoesUnnoticed [1, 2] (-1) 2 := by decide
  obtain ⟨hloaded, -, -, -⟩ := loads_inside_or_astray [1, 2] 0 2
  obtain ⟨-, -, hstray, hlast⟩ := loads_inside_or_astray [1, 2] (-1) 2
  exact ⟨(hloaded 513).mpr (by decide), hun, hstray.mpr hun, hlast hun⟩

/-- One byte at the last offset of two bytes does not lie inside them, but the load is not refused:
it reads astray. -/
theorem loads_astray_lastOffset :
    loadUnsigned [1, 2] (-1) 1 = .error (.strayRead (-1) 1 2) ∧
      ¬ LiesInside [1, 2] (-1) 1 ∧
      ¬ ∃ e, loadUnsigned [1, 2] (-1) 1 = .error (.internal e) := by
  have hload : loadUnsigned [1, 2] (-1) 1 = .error (.strayRead (-1) 1 2) := by decide
  refine ⟨hload, by decide, ?_⟩
  rintro ⟨e, he⟩
  rw [hload] at he
  cases he

/-! ### Written and loaded -/

namespace LittleEndian

/-- The low bytes of an integer are those of its remainder, and of nothing else. -/
lemma encode_eq_encode_iff {size m n : ℕ} :
    encode size m = encode size n ↔ m ≡ n [MOD 256 ^ size] := by
  rw [Nat.ModEq, ← shiftLeft_bytes, ← decode_encode, ← decode_encode]
  constructor
  · intro h
    rw [h]
  · intro h
    have hm := encode_decode (encode size m)
    have hn := encode_decode (encode size n)
    rw [length_encode] at hm hn
    rw [← hm, h, hn]

end LittleEndian

/-- Of a pattern that is wider than a word only the bytes of a word matter. -/
lemma modEq_word_iff (value value' : UInt64) (size : ℕ) :
    value.toNat ≡ value'.toNat [MOD 256 ^ size] ↔
      value.toNat ≡ value'.toNat [MOD 2 ^ (8 * min size 8)] := by
  have hpow : ∀ n : ℕ, 256 ^ n = 2 ^ (8 * n) := fun n => (Nat.pow_mul 2 8 n).symm
  rcases Nat.le_total size 8 with hsize | hsize
  · rw [min_eq_left hsize, hpow]
  · have hle : 2 ^ 64 ≤ 256 ^ size := by
      rw [hpow]
      exact Nat.pow_le_pow_right (by decide) (by omega)
    have hvalue := value.toNat_lt
    have hvalue' := value'.toNat_lt
    rw [min_eq_right hsize, Nat.ModEq, Nat.ModEq, Nat.mod_eq_of_lt (by omega),
      Nat.mod_eq_of_lt (by omega), Nat.mod_eq_of_lt hvalue, Nat.mod_eq_of_lt hvalue']

namespace BitPattern

lemma ofUnsigned_eq_ofUnsigned_iff {value value' : UInt64} {size size' : ℕ} :
    ofUnsigned value size = ofUnsigned value' size' ↔
      size = size' ∧ value.toNat ≡ value'.toNat [MOD 2 ^ (8 * min size 8)] := by
  constructor
  · intro h
    have hsize : size = size' := by
      have := congrArg width h
      rwa [width_ofUnsigned, width_ofUnsigned] at this
    subst hsize
    rw [ofUnsigned, ofUnsigned, mk.injEq, LittleEndian.encode_eq_encode_iff] at h
    exact ⟨rfl, (modEq_word_iff _ _ _).mp h⟩
  · rintro ⟨rfl, h⟩
    rw [ofUnsigned, ofUnsigned, mk.injEq, LittleEndian.encode_eq_encode_iff]
    exact (modEq_word_iff _ _ _).mpr h

end BitPattern

/-- The word that an integer of the width is stored as: of a negative one, its two's complement. -/
def IntWidth.wordOf (width : IntWidth) (x : ℤ) : UInt64 :=
  UInt64.ofNat (x % 256 ^ width.bytes).toNat

/-- What it takes for words of a width to be written and loaded again, and for the words to stand
for integers with a sign. -/
structure StoresFaithfully (width : IntWidth) : Prop where
  /-- What is loaded of a pattern are the low bytes of what was written. -/
  load_ofUnsigned : ∀ value : UInt64,
    loadUnsigned (BitPattern.ofUnsigned value width.bytes).bytes 0 width.toUInt64 =
      .ok (value &&& byteMask width.bytes)
  /-- What is written of a loaded integer are the bytes that it was loaded from. -/
  ofUnsigned_load : ∀ (bytes : Bytes) (offset : UInt64),
    offset.toNat + width.bytes ≤ bytes.length →
      ∃ value, loadUnsigned bytes offset width.toUInt64 = .ok value ∧
        BitPattern.ofUnsigned value width.bytes =
          .ofMemory ((bytes.drop offset.toNat).take width.bytes)
  /-- Sign extension gives back the integers with a sign. -/
  signExtend_wordOf : ∀ x ∈ width.domain true,
    (signExtend (width.wordOf x) width.bytes).toInt = x
  /-- All words of the width stand for some. -/
  exists_wordOf : ∀ value : UInt64, value.toNat < 2 ^ (8 * width.bytes) →
    ∃ x ∈ width.domain true, value = width.wordOf x
  /-- Words compare like the integers that they stand for. -/
  signExtend_le_iff : ∀ x ∈ width.domain true, ∀ y ∈ width.domain true,
    signExtend (width.wordOf x) width.bytes ≤ signExtend (width.wordOf y) width.bytes ↔ x ≤ y

section

variable {w : IntWidth}

lemma loadUnsigned_ofUnsigned (value : UInt64) :
    loadUnsigned (BitPattern.ofUnsigned value w.bytes).bytes 0 w.toUInt64 =
      .ok (value &&& byteMask w.bytes) := by
  have hlen : (BitPattern.ofUnsigned value w.bytes).bytes.length = w.bytes :=
    LittleEndian.length_encode _ _
  have hinside : LiesInside (BitPattern.ofUnsigned value w.bytes).bytes 0 w.toUInt64 :=
    liesInside_toUInt64_iff.mpr (by simp [hlen])
  have hdecode : LittleEndian.decode (BitPattern.ofUnsigned value w.bytes).bytes =
      (value &&& byteMask w.bytes).toNat := by
    rw [BitPattern.ofUnsigned, LittleEndian.decode_encode, shiftLeft_bytes, toNat_and_byteMask]
  rw [loadUnsigned_of_liesInside hinside, w.toNat_toUInt64, UInt64.toNat_zero, List.drop_zero,
    List.take_of_length_le hlen.le, hdecode, UInt64.ofNat_toNat]

lemma ofUnsigned_loadUnsigned (h : offset.toNat + w.bytes ≤ bytes.length) :
    ∃ value, loadUnsigned bytes offset w.toUInt64 = .ok value ∧
      BitPattern.ofUnsigned value w.bytes =
        .ofMemory ((bytes.drop offset.toNat).take w.bytes) := by
  refine ⟨_, loadUnsigned_eq_ok offset w h, ?_⟩
  rw [Predicate.ofUnsigned_tagOf h, Predicate.part, w.toNat_toUInt64]

lemma toInt_signExtend_wordOf {x : ℤ} (hx : x ∈ w.domain true) :
    (signExtend (w.wordOf x) w.bytes).toInt = x := by
  have h := integerOf_ofNat_emod hx
  rwa [IntWidth.integerOf, if_pos rfl] at h

/-- A word of the width is the two's complement of the integer that it is compared as. -/
lemma wordOf_integerOf {value : UInt64} (h : value.toNat < 256 ^ w.bytes) :
    w.wordOf (w.integerOf true value) = value := by
  have hmod : (value.toNat : ℤ) % 256 ^ w.bytes = value.toNat := by
    exact_mod_cast Nat.mod_eq_of_lt h
  have hbmod : (value.toNat : ℤ).bmod (256 ^ w.bytes) % 256 ^ w.bytes =
      value.toNat % 256 ^ w.bytes := by
    exact_mod_cast Int.bmod_emod
  rw [IntWidth.wordOf, integerOf_of_lt h, if_pos rfl, hbmod, hmod, Int.toNat_natCast,
    UInt64.ofNat_toNat]

end

/-- Whatever the width, integers are written to bytes and loaded from them without loss, and so are
the two's complements of those with a sign, whose order is that of the words after sign extension.
Patterns are equal when they have as many bytes, and their words agree in so many of them. -/
theorem stores_integers_faithfully :
    (∀ width, StoresFaithfully width) ∧
      ∀ (value value' : UInt64) (size size' : ℕ),
        BitPattern.ofUnsigned value size = .ofUnsigned value' size' ↔
          size = size' ∧ value.toNat ≡ value'.toNat [MOD 2 ^ (8 * min size 8)] := by
  refine ⟨fun width => ?_, fun value value' size size' => BitPattern.ofUnsigned_eq_ofUnsigned_iff⟩
  have hpow : 2 ^ (8 * width.bytes) = 256 ^ width.bytes := Nat.pow_mul 2 8 _
  exact
    { load_ofUnsigned := loadUnsigned_ofUnsigned
      ofUnsigned_load := fun bytes offset => ofUnsigned_loadUnsigned
      signExtend_wordOf := fun x => toInt_signExtend_wordOf
      exists_wordOf := by
        intro value hvalue
        rw [hpow] at hvalue
        exact ⟨_, integerOf_mem_domain hvalue, (wordOf_integerOf hvalue).symm⟩
      signExtend_le_iff := by
        intro x hx y hy
        rw [Int64.le_iff_toInt_le, toInt_signExtend_wordOf hx, toInt_signExtend_wordOf hy] }

/-- The last two of three bytes hold minus two, which is less than 256. -/
theorem stores_integers_faithfully_short :
    (1 : UInt64).toNat + IntWidth.two.bytes ≤ 3 ∧
      (∃ value, loadUnsigned [7, 0xFE, 0xFF] 1 IntWidth.two.toUInt64 = .ok value ∧
        BitPattern.ofUnsigned value 2 = .ofMemory [0xFE, 0xFF]) ∧
      -2 ∈ IntWidth.two.domain true ∧ 256 ∈ IntWidth.two.domain true ∧
      signExtend (IntWidth.two.wordOf (-2)) 2 ≤ signExtend (IntWidth.two.wordOf 256) 2 := by
  have hnegative : -2 ∈ IntWidth.two.domain true := by simp [IntWidth.domain, IntWidth.bytes]
  have hpositive : 256 ∈ IntWidth.two.domain true := by simp [IntWidth.domain, IntWidth.bytes]
  obtain ⟨hstores, -⟩ := stores_integers_faithfully
  exact ⟨by decide, (hstores .two).ofUnsigned_load [7, 0xFE, 0xFF] 1 (by decide), hnegative,
    hpositive, ((hstores .two).signExtend_le_iff _ hnegative _ hpositive).mpr (by decide)⟩

end BitValidity
