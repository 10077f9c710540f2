import BitValidity.Storage
import BitValidity.Predicate.Check
import Mathlib.Tactic

/-!
# The arithmetic of words

Masks, sign extension and rounding are defined on 64-bit words. Here each is related to integer
arithmetic: a mask takes a remainder, sign extension takes the sign bit off twice, and a word that
is a power of two is one. `IntWidth.integerOf` is the integer that a word stands for in a field of a
width, so that a range of words is an interval of integers (`IntRange.contains_iff`).
-/

namespace BitValidity

/-- There are as many words below the shift as there are strings of so many bytes. -/
lemma shiftLeft_bytes (width : ℕ) : 1 <<< (8 * width) = 256 ^ width := by
  rw [Nat.shiftLeft_eq, Nat.one_mul, Nat.pow_mul]

namespace IntWidth

/-- There are as many integers of a width as there are byte strings. -/
lemma pow_bytes (width : IntWidth) : 256 ^ width.bytes = 2 ^ (8 * width.bytes - 1) * 2 := by
  cases width <;> rfl

lemma pow_bytes_le (width : IntWidth) : 256 ^ width.bytes ≤ 2 ^ 64 := by
  cases width <;> decide

end IntWidth

/-! ### Sums -/

lemma toNat_add_of_lt {a b : UInt64} (h : a.toNat + b.toNat < 2 ^ 64) :
    (a + b).toNat = a.toNat + b.toNat := by
  rw [UInt64.toNat_add, Nat.mod_eq_of_lt h]

lemma toNat_add_le (a b : UInt64) : (a + b).toNat ≤ a.toNat + b.toNat := by
  rw [UInt64.toNat_add]
  exact Nat.mod_le _ _

/-! ### Stored words -/

section

variable {bytes : Bytes} {width : IntWidth}

lemma decode_lt_of_length (hlen : bytes.length = width.bytes) :
    LittleEndian.decode bytes < 256 ^ width.bytes := by
  rw [← hlen, ← shiftLeft_bytes]
  exact LittleEndian.decode_lt bytes

/-- What is stored in the bytes of an integer is a word. -/
lemma toNat_ofNat_decode (hlen : bytes.length = width.bytes) :
    (UInt64.ofNat (LittleEndian.decode bytes)).toNat = LittleEndian.decode bytes := by
  rw [UInt64.toNat_ofNat']
  exact Nat.mod_eq_of_lt ((decode_lt_of_length hlen).trans_le width.pow_bytes_le)

/-- The pattern of a stored word is that of the bytes in which it is stored. -/
lemma ofUnsigned_decode (hlen : bytes.length = width.bytes) :
    BitPattern.ofUnsigned (UInt64.ofNat (LittleEndian.decode bytes)) width.bytes =
      .ofMemory bytes := by
  rw [BitPattern.ofUnsigned, toNat_ofNat_decode hlen, ← hlen, LittleEndian.encode_decode,
    BitPattern.ofMemory]

end

/-! ### Masks -/

lemma toNat_byteMask (width : IntWidth) : (byteMask width.bytes).toNat = 256 ^ width.bytes - 1 := by
  cases width <;> rfl

lemma toNat_and_byteMask (value : UInt64) (width : IntWidth) :
    (value &&& byteMask width.bytes).toNat = value.toNat % 256 ^ width.bytes := by
  rw [UInt64.toNat_and, toNat_byteMask, show 256 = 2 ^ 8 from rfl, ← Nat.pow_mul,
    Nat.and_two_pow_sub_one_eq_mod]

lemma and_byteMask_of_lt {value : UInt64} {width : IntWidth}
    (h : value.toNat < 256 ^ width.bytes) : value &&& byteMask width.bytes = value := by
  rw [← UInt64.toNat_inj, toNat_and_byteMask, Nat.mod_eq_of_lt h]

/-! ### Sign extension -/

/-- To flip a bit is to add or to subtract it. -/
lemma xor_two_pow (n k : ℕ) :
    ((n ^^^ 2 ^ k : ℕ) : ℤ) = n + 2 ^ k - if n / 2 ^ k % 2 = 1 then 2 ^ (k + 1) else 0 := by
  have hlow : (n ^^^ 2 ^ k) % 2 ^ k = n % 2 ^ k := by simp [Nat.xor_mod_two_pow]
  have hhigh : (n ^^^ 2 ^ k) / 2 ^ k = n / 2 ^ k ^^^ 1 := by simp [Nat.xor_div_two_pow]
  have hflip : ((n / 2 ^ k ^^^ 1 : ℕ) : ℤ) =
      (n / 2 ^ k : ℕ) + 1 - if n / 2 ^ k % 2 = 1 then 2 else 0 := by
    have hdiv : (n / 2 ^ k ^^^ 1) / 2 = n / 2 ^ k / 2 := by
      simpa using Nat.xor_div_two_pow (n := 1) (a := n / 2 ^ k) (b := 1)
    have hmod : (n / 2 ^ k ^^^ 1) % 2 = (n / 2 ^ k % 2) ^^^ 1 := by
      simpa using Nat.xor_mod_two_pow (n := 1) (a := n / 2 ^ k) (b := 1)
    rcases Nat.mod_two_eq_zero_or_one (n / 2 ^ k) with h | h <;> rw [h] at hmod ⊢ <;>
      simp only [Nat.reduceXor] at hmod <;> split <;> omega
  have hx := Nat.div_add_mod (n ^^^ 2 ^ k) (2 ^ k)
  have hn := Nat.div_add_mod n (2 ^ k)
  rw [hlow, hhigh] at hx
  rw [← hx]
  push_cast
  rw [hflip]
  zify at hn
  simp only [pow_succ]
  push_cast
  split <;> linarith

/-- To flip the sign bit and to subtract it takes the bit off twice, modulo words. -/
lemma toInt_xor_sub_two_pow (value sign : UInt64) {k : ℕ} (hsign : sign.toNat = 2 ^ k) :
    ((value ^^^ sign) - sign).toInt64.toInt =
      ((value.toNat : ℤ) - if value.toNat / 2 ^ k % 2 = 1 then 2 ^ (k + 1) else 0).bmod
        (2 ^ 64) := by
  have hx : ((value ^^^ sign).toNat : ℤ) = value.toNat + 2 ^ k -
      if value.toNat / 2 ^ k % 2 = 1 then 2 ^ (k + 1) else 0 := by
    rw [UInt64.toNat_xor, hsign, xor_two_pow]
  have hs : (sign.toNat : ℤ) = 2 ^ k := by rw [hsign]; push_cast; rfl
  calc ((value ^^^ sign) - sign).toInt64.toInt
      = (((value ^^^ sign).toBitVec - sign.toBitVec).toInt) := rfl
    _ = (((value ^^^ sign).toNat : ℤ) - sign.toNat).bmod (2 ^ 64) := by
      rw [BitVec.toInt_sub, BitVec.toInt_eq_toNat_bmod, BitVec.toInt_eq_toNat_bmod,
        Int.bmod_sub_bmod, Int.sub_bmod_bmod]
      rfl
    _ = _ := by rw [hx, hs]; congr 1; ring

/-- Sign extension takes `256 ^ width` off a word that has the sign bit, modulo words. -/
lemma toInt_signExtend (value : UInt64) (width : IntWidth) :
    (signExtend value width.bytes).toInt =
      ((value.toNat : ℤ) -
        if value.toNat / 2 ^ (8 * width.bytes - 1) % 2 = 1 then 256 ^ width.bytes else 0).bmod
        (2 ^ 64) := by
  cases width with
  | one => exact toInt_xor_sub_two_pow value _ (k := 7) rfl
  | two => exact toInt_xor_sub_two_pow value _ (k := 15) rfl
  | four => exact toInt_xor_sub_two_pow value _ (k := 31) rfl
  | eight =>
    have hword : (signExtend value 8).toInt = (value.toNat : ℤ).bmod (2 ^ 64) :=
      BitVec.toInt_eq_toNat_bmod value.toBitVec
    show (signExtend value 8).toInt =
      ((value.toNat : ℤ) - if value.toNat / 2 ^ 63 % 2 = 1 then 256 ^ 8 else 0).bmod (2 ^ 64)
    rw [hword]
    split
    · simp [Int.bmod_def]
    · simp

/-- The sign extension of an integer of a width is its two's complement value. -/
lemma toInt_signExtend_of_lt {value : UInt64} {width : IntWidth}
    (h : value.toNat < 256 ^ width.bytes) :
    (signExtend value width.bytes).toInt = (value.toNat : ℤ).bmod (256 ^ width.bytes) := by
  rw [toInt_signExtend]
  cases width <;> simp only [IntWidth.bytes] at h ⊢ <;> norm_num at h ⊢ <;> split <;>
    simp only [Int.bmod_def] <;> omega

/-! ### Ranges -/

/-- The integer that a word stands for where a range of words is compared. With a sign, bytes above
the width count as far as sign extension leaves them. -/
def IntWidth.integerOf (width : IntWidth) (signed : Bool) (value : UInt64) : ℤ :=
  if signed then (signExtend value width.bytes).toInt
  else (value.toNat % 256 ^ width.bytes : ℕ)

/-- The integers of a width, with or without a sign. -/
def IntWidth.domain (width : IntWidth) (signed : Bool) : Set ℤ :=
  if signed then Set.Ico (-2 ^ (8 * width.bytes - 1)) (2 ^ (8 * width.bytes - 1))
  else Set.Ico 0 (256 ^ width.bytes)

/-- A range of words holds the words whose integers lie between those of its ends. -/
lemma IntRange.contains_iff {r : IntRange} {width : IntWidth} {signed : Bool} {value : UInt64} :
    r.contains width signed value = true ↔
      width.integerOf signed value ∈
        Set.Icc (width.integerOf signed r.first) (width.integerOf signed r.last) := by
  cases signed with
  | true =>
    simp [contains, IntWidth.integerOf, Int64.le_iff_toInt_le]
  | false =>
    simp [contains, IntWidth.integerOf, UInt64.le_iff_toNat_le, toNat_and_byteMask,
      -UInt64.toNat_and]
    norm_cast

lemma integerOf_of_lt {width : IntWidth} {signed : Bool} {value : UInt64}
    (h : value.toNat < 256 ^ width.bytes) :
    width.integerOf signed value =
      if signed then (value.toNat : ℤ).bmod (256 ^ width.bytes) else (value.toNat : ℤ) := by
  cases signed with
  | true => simp [IntWidth.integerOf, toInt_signExtend_of_lt h]
  | false => simp [IntWidth.integerOf, Nat.mod_eq_of_lt h]

/-- With a sign, the upper half of the words of the width stands for the negative integers. -/
lemma integerOf_eq_ite {width : IntWidth} {signed : Bool} {value : UInt64}
    (h : value.toNat < 256 ^ width.bytes) :
    width.integerOf signed value =
      if signed = true ∧ 2 ^ (8 * width.bytes - 1) ≤ value.toNat then
        (value.toNat : ℤ) - 256 ^ width.bytes
      else (value.toNat : ℤ) := by
  rw [integerOf_of_lt h]
  cases signed with
  | true =>
    have hmod : (value.toNat : ℤ) % (256 ^ width.bytes : ℕ) = value.toNat := by
      exact_mod_cast Nat.mod_eq_of_lt h
    simp only [if_true, true_and, Int.bmod_def, hmod]
    have hpow := width.pow_bytes
    zify at hpow ⊢
    split <;> split <;> omega
  | false => simp

/-- A word of the width stands for an integer of the width. -/
lemma integerOf_mem_domain {width : IntWidth} {signed : Bool} {value : UInt64}
    (h : value.toNat < 256 ^ width.bytes) : width.integerOf signed value ∈ width.domain signed := by
  rw [integerOf_of_lt h]
  cases signed with
  | true =>
    have hle := Int.le_bmod (x := value.toNat) (m := 256 ^ width.bytes) (by positivity)
    have hlt := Int.bmod_lt (x := value.toNat) (m := 256 ^ width.bytes) (by positivity)
    rw [width.pow_bytes] at hle hlt ⊢
    push_cast at hle hlt
    simp only [IntWidth.domain, if_true, Set.mem_Ico]
    omega
  | false =>
    simp only [IntWidth.domain, Bool.false_eq_true, if_false, Set.mem_Ico]
    zify at h
    omega

/-- The remainder of an integer modulo the number of words of the width is a word of the width. -/
lemma toNat_ofNat_emod (width : IntWidth) (x : ℤ) :
    (UInt64.ofNat (x % 256 ^ width.bytes).toNat).toNat = (x % 256 ^ width.bytes).toNat := by
  have hlt := Int.emod_lt_of_pos x (b := 256 ^ width.bytes) (by positivity)
  have hword : (256 : ℤ) ^ width.bytes ≤ 2 ^ 64 := by exact_mod_cast width.pow_bytes_le
  rw [UInt64.toNat_ofNat', Nat.mod_eq_of_lt (by omega)]

lemma toNat_emod_lt (width : IntWidth) (x : ℤ) :
    (x % 256 ^ width.bytes).toNat < 256 ^ width.bytes := by
  have hlt := Int.emod_lt_of_pos x (b := 256 ^ width.bytes) (by positivity)
  zify
  omega

/-- An integer of the width is that of its remainder modulo the number of words of the width. -/
lemma integerOf_ofNat_emod {width : IntWidth} {signed : Bool} {x : ℤ}
    (hx : x ∈ width.domain signed) :
    width.integerOf signed (UInt64.ofNat (x % 256 ^ width.bytes).toNat) = x := by
  have hnn : 0 ≤ x % 256 ^ width.bytes := Int.emod_nonneg x (by positivity)
  have hvalue := toNat_ofNat_emod width x
  rw [integerOf_of_lt (by rw [hvalue]; exact toNat_emod_lt width x), hvalue,
    Int.toNat_of_nonneg hnn]
  cases signed with
  | true =>
    rw [IntWidth.domain, if_pos rfl, Set.mem_Ico] at hx
    have := Int.emod_bmod x (256 ^ width.bytes)
    push_cast at this
    simp only [if_true, this]
    have hhalf := width.pow_bytes
    zify at hhalf
    refine Int.bmod_eq_of_le_mul_two ?_ ?_ <;> push_cast <;> omega
  | false =>
    simp only [IntWidth.domain, Bool.false_eq_true, if_false, Set.mem_Ico] at hx
    simpa using Int.emod_eq_of_lt hx.1 hx.2

/-- Every integer of the width is that of a word of the width. -/
lemma exists_integerOf_eq {width : IntWidth} {signed : Bool} {x : ℤ}
    (hx : x ∈ width.domain signed) :
    ∃ value : UInt64, value.toNat < 256 ^ width.bytes ∧ width.integerOf signed value = x := by
  refine ⟨UInt64.ofNat (x % 256 ^ width.bytes).toNat, ?_, integerOf_ofNat_emod hx⟩
  rw [toNat_ofNat_emod]
  exact toNat_emod_lt width x

/-- Every integer of the width is stored in some bytes. -/
lemma exists_stored_integerOf_eq {width : IntWidth} {signed : Bool} {x : ℤ}
    (hx : x ∈ width.domain signed) : ∃ bytes : Bytes, bytes.length = width.bytes ∧
      width.integerOf signed (UInt64.ofNat (LittleEndian.decode bytes)) = x := by
  obtain ⟨value, hvalue, rfl⟩ := exists_integerOf_eq hx
  refine ⟨LittleEndian.encode width.bytes value.toNat, LittleEndian.length_encode _ _, ?_⟩
  rw [LittleEndian.decode_encode, shiftLeft_bytes, Nat.mod_eq_of_lt hvalue, UInt64.ofNat_toNat]

/-! ### The greatest of words -/

lemma toNat_max (a b : UInt64) : (max a b).toNat = max a.toNat b.toNat := by
  show (if a ≤ b then b else a).toNat = _
  split <;> rename_i h <;> rw [UInt64.le_iff_toNat_le] at h <;> omega

lemma max_eq_or (a b : UInt64) : max a b = a ∨ max a b = b := by
  show (if a ≤ b then b else a) = a ∨ (if a ≤ b then b else a) = b
  split <;> simp

variable {α : Type} (f : α → UInt64)

lemma toNat_foldl_max (least : UInt64) (l : List α) :
    (l.foldl (fun a x => max a (f x)) least).toNat =
      (l.map fun x => (f x).toNat).foldl max least.toNat := by
  induction l generalizing least with
  | nil => rfl
  | cons x l ih => rw [List.foldl_cons, ih, toNat_max, List.map_cons, List.foldl_cons]

lemma isGreatest_foldl_max (least : ℕ) (l : List ℕ) :
    IsGreatest {n | n = least ∨ n ∈ l} (l.foldl max least) := by
  induction l generalizing least with
  | nil => simp
  | cons x l ih =>
    obtain ⟨hmem, hupper⟩ := ih (max least x)
    have hmax : max least x ≤ l.foldl max (max least x) := hupper (.inl rfl)
    rw [List.foldl_cons]
    constructor
    · rcases hmem with heq | hmem
      · rcases max_choice least x with h | h <;> rw [h] at heq ⊢ <;> simp [heq]
      · exact .inr (List.mem_cons_of_mem x hmem)
    · rintro n (rfl | hn)
      · exact (le_max_left _ _).trans hmax
      · rcases List.mem_cons.mp hn with rfl | hn
        · exact (le_max_right _ _).trans hmax
        · exact hupper (.inr hn)

lemma le_foldl_max_init (least : UInt64) (l : List α) :
    least.toNat ≤ (l.foldl (fun a x => max a (f x)) least).toNat := by
  rw [toNat_foldl_max]
  exact (isGreatest_foldl_max _ _).2 (.inl rfl)

lemma le_foldl_max {l : List α} {x : α} (hx : x ∈ l) (least : UInt64) :
    (f x).toNat ≤ (l.foldl (fun a x => max a (f x)) least).toNat := by
  rw [toNat_foldl_max]
  exact (isGreatest_foldl_max _ _).2 (.inr (List.mem_map_of_mem hx))

lemma foldl_max_induction {P : UInt64 → Prop} {least : UInt64} {l : List α} (hleast : P least)
    (hf : ∀ x ∈ l, P (f x)) : P (l.foldl (fun a x => max a (f x)) least) := by
  induction l generalizing least with
  | nil => exact hleast
  | cons x l ih =>
    obtain ⟨hx, hl⟩ := List.forall_mem_cons.mp hf
    refine ih (show P (max least (f x)) from ?_) hl
    rcases max_eq_or least (f x) with h | h <;> rwa [h]

/-- The greatest of words does not depend on their order. -/
lemma foldl_max_perm {l l' : List α} (h : l.Perm l') (least : UInt64) :
    l.foldl (fun a x => max a (f x)) least = l'.foldl (fun a x => max a (f x)) least := by
  rw [← UInt64.toNat_inj, toNat_foldl_max, toNat_foldl_max]
  exact (h.map _).foldl_op_eq

/-! ### Powers of two -/

lemma isPowerOfTwo_iff {n : UInt64} : isPowerOfTwo n = true ↔ ∃ k, n.toNat = 2 ^ k := by
  simp only [isPowerOfTwo, Bool.and_eq_true, bne_iff_ne, beq_iff_eq, ne_eq, ← UInt64.toNat_inj,
    UInt64.toNat_and]
  by_cases hzero : n.toNat = 0
  · simp [hzero, (Nat.two_pow_pos _).ne]
  · have hsub : (n - 1).toNat = n.toNat - 1 := by
      have := n.toNat_lt
      rw [UInt64.toNat_sub]
      simp
      omega
    rw [hsub]
    exact (and_iff_right hzero).trans (Nat.and_sub_one_eq_zero_iff_isPowerOfTwo hzero)

lemma exists_toNat_eq_two_pow {n : UInt64} (h : isPowerOfTwo n = true) :
    ∃ k < 64, n.toNat = 2 ^ k := by
  obtain ⟨k, hk⟩ := isPowerOfTwo_iff.mp h
  exact ⟨k, (Nat.pow_lt_pow_iff_right (by decide : 1 < 2)).mp (hk ▸ n.toNat_lt), hk⟩

lemma isPowerOfTwo_toUInt64 (width : IntWidth) : isPowerOfTwo width.toUInt64 = true := by
  cases width <;> rfl

lemma toNat_pos_of_isPowerOfTwo {n : UInt64} (h : isPowerOfTwo n = true) : 0 < n.toNat := by
  obtain ⟨k, -, hk⟩ := exists_toNat_eq_two_pow h
  rw [hk]
  positivity

lemma ne_zero_of_isPowerOfTwo {n : UInt64} (h : isPowerOfTwo n = true) : n ≠ 0 := by
  rintro rfl
  exact absurd h (by decide)

/-- Of two powers of two the lesser divides the greater. -/
lemma toNat_dvd_of_le {a b : UInt64} (ha : isPowerOfTwo a = true) (hb : isPowerOfTwo b = true)
    (hle : a ≤ b) : a.toNat ∣ b.toNat := by
  obtain ⟨k, -, hk⟩ := exists_toNat_eq_two_pow ha
  obtain ⟨l, -, hl⟩ := exists_toNat_eq_two_pow hb
  rw [UInt64.le_iff_toNat_le, hk, hl, Nat.pow_le_pow_iff_right (by decide)] at hle
  rw [hk, hl]
  exact Nat.pow_dvd_pow 2 hle

/-- A multiple of a power of two is followed by another one, or by the end of all words. -/
lemma add_le_of_dvd {a n : UInt64} (ha : isPowerOfTwo a = true) (h : a.toNat ∣ n.toNat) :
    n.toNat + a.toNat ≤ 2 ^ 64 := by
  obtain ⟨k, hk, hpow⟩ := exists_toNat_eq_two_pow ha
  have hword : a.toNat ∣ 2 ^ 64 := hpow ▸ Nat.pow_dvd_pow 2 hk.le
  have hrest : a.toNat ∣ 2 ^ 64 - n.toNat := Nat.dvd_sub hword h
  have hle := Nat.le_of_dvd (by have := n.toNat_lt; omega) hrest
  have := n.toNat_lt
  omega

lemma isPowerOfTwo_max {a b : UInt64} (ha : isPowerOfTwo a = true) (hb : isPowerOfTwo b = true) :
    isPowerOfTwo (max a b) = true := by
  rcases max_eq_or a b with h | h <;> rwa [h]

/-! ### Rounding -/

/-- The least multiple of `a` that is not below `n`. -/
def leastMultiple (a n : ℕ) : ℕ := (n + a - 1) / a * a

section

variable {a n m s : ℕ}

lemma dvd_leastMultiple (a n : ℕ) : a ∣ leastMultiple a n := Nat.dvd_mul_left _ _

lemma le_leastMultiple (ha : 0 < a) (n : ℕ) : n ≤ leastMultiple a n := by
  have hlt := Nat.lt_div_mul_add ha (a := n + a - 1)
  rw [leastMultiple]
  omega

lemma leastMultiple_le (ha : 0 < a) (hle : n ≤ m) (hm : a ∣ m) : leastMultiple a n ≤ m := by
  obtain ⟨k, rfl⟩ := hm
  rw [leastMultiple, Nat.mul_comm]
  refine Nat.mul_le_mul_left _ (Nat.le_of_lt_succ ?_)
  rw [Nat.div_lt_iff_lt_mul ha, Nat.succ_mul, Nat.mul_comm k]
  omega

lemma isLeast_leastMultiple (ha : 0 < a) (n : ℕ) :
    IsLeast {m | n ≤ m ∧ a ∣ m} (leastMultiple a n) :=
  ⟨⟨le_leastMultiple ha n, dvd_leastMultiple a n⟩, fun _ ⟨hle, hm⟩ => leastMultiple_le ha hle hm⟩

/-- Counting from a multiple on is no different from counting from zero on. -/
lemma leastMultiple_add (ha : 0 < a) (hs : a ∣ s) (n : ℕ) :
    leastMultiple a (s + n) = s + leastMultiple a n := by
  obtain ⟨k, rfl⟩ := hs
  rw [leastMultiple, leastMultiple, show a * k + n + a - 1 = n + a - 1 + a * k by omega,
    Nat.add_mul_div_left _ _ ha, Nat.add_mul, Nat.mul_comm k, Nat.add_comm]

end

/-- Rounding gives a multiple, whether a sum wraps or not. -/
lemma dvd_roundUp (n a : UInt64) : a.toNat ∣ (roundUp n a).toNat := by
  have hle := Nat.div_mul_le_self (n + a - 1).toNat a.toNat
  have hlt := (n + a - 1).toNat_lt
  rw [roundUp, UInt64.toNat_mul, UInt64.toNat_div, Nat.mod_eq_of_lt (by omega)]
  exact Nat.dvd_mul_left _ _

lemma toNat_roundUp {n a : UInt64} (ha : 0 < a.toNat) (h : n.toNat + a.toNat ≤ 2 ^ 64) :
    (roundUp n a).toNat = leastMultiple a.toNat n.toNat := by
  have hsum : (n + a - 1).toNat = n.toNat + a.toNat - 1 := by
    rw [UInt64.toNat_sub, UInt64.toNat_add]
    simp
    omega
  have hle := Nat.div_mul_le_self (n.toNat + a.toNat - 1) a.toNat
  rw [roundUp, UInt64.toNat_mul, UInt64.toNat_div, hsum, Nat.mod_eq_of_lt (by omega), leastMultiple]

/-- Rounding through no sum that wraps goes up. -/
lemma le_roundUp {n a : UInt64} (ha : 0 < a.toNat) (h : n.toNat + a.toNat ≤ 2 ^ 64) :
    n.toNat ≤ (roundUp n a).toNat := by
  rw [toNat_roundUp ha h]
  exact le_leastMultiple ha _

/-- Rounding through no sum that wraps goes to the least multiple. -/
lemma roundUp_le {n a : UInt64} {m : ℕ} (ha : 0 < a.toNat) (h : n.toNat + a.toNat ≤ 2 ^ 64)
    (hle : n.toNat ≤ m) (hm : a.toNat ∣ m) : (roundUp n a).toNat ≤ m := by
  rw [toNat_roundUp ha h]
  exact leastMultiple_le ha hle hm

/-- Only what is no multiple is rounded at all. -/
lemma roundUp_eq_self {n a : UInt64} (ha : isPowerOfTwo a = true) (h : a.toNat ∣ n.toNat) :
    roundUp n a = n := by
  have hpos := toNat_pos_of_isPowerOfTwo ha
  have hroom := add_le_of_dvd ha h
  rw [← UInt64.toNat_inj]
  exact le_antisymm (roundUp_le hpos hroom le_rfl h) (le_roundUp hpos hroom)

end BitValidity
