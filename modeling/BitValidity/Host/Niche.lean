import BitValidity.Host.Value

/-!
# Types with a niche

An integer that is never zero and a pointer that is never null leave one bit pattern unused, the one
that is all zero. An option of such a type stores the absence of a value in that niche and needs no
storage of its own.
-/

namespace BitValidity

namespace OneNiche

/-- The words that the values of a type are among. -/
abbrev Word (x : OneNiche) := BitVec (8 * x.width.bytes)

/-- A value: a word that is not zero. -/
structure Value (x : OneNiche) where
  word : x.Word
  ne_zero : word ≠ 0
  deriving DecidableEq

/-- The value of a word, unless that is zero. -/
def create? (x : OneNiche) (word : x.Word) : Option x.Value :=
  if h : word = 0 then none else some ⟨word, h⟩

/-- How a value is stored. -/
def store (x : OneNiche) (value : x.Value) : HostValue (.oneNiche x) :=
  ⟨LittleEndian.encode x.width.bytes value.word.toNat, by simp [HostType.size]⟩

@[simp] theorem create?_eq_none_iff {x : OneNiche} {word : x.Word} :
    x.create? word = none ↔ word = 0 := by
  unfold create?
  split <;> simp only [reduceCtorEq, true_iff, false_iff] <;> assumption

theorem word_of_create? {x : OneNiche} {word : x.Word} {value : x.Value}
    (h : x.create? word = some value) : value.word = word := by
  unfold create? at h
  split at h
  · simp at h
  · cases h
    rfl

end OneNiche

/-! ### Options in the niche -/

/-- A value or none, in the storage of a value. All zero bytes mean none, so that every bit pattern
means something. -/
abbrev NicheOption (x : OneNiche) := HostValue (.nicheOption x)

namespace NicheOption

variable {x : OneNiche}

def empty (x : OneNiche) : NicheOption x := HostValue.zeroed _

def ofValue (value : x.Value) : NicheOption x := (x.store value).reinterpret rfl

def ofOption : Option x.Value → NicheOption x
  | none => empty x
  | some value => ofValue value

def hasValue (o : NicheOption x) : Bool := o.bytes.any (· != 0)

/-- The word that is stored. -/
def word (o : NicheOption x) : x.Word := BitVec.ofNat _ (LittleEndian.decode o.bytes)

theorem toNat_word (o : NicheOption x) : o.word.toNat = LittleEndian.decode o.bytes := by
  have hlen : o.bytes.length = x.width.bytes := by
    simpa [HostType.size] using o.length_eq
  have hlt := LittleEndian.decode_lt o.bytes
  rw [hlen, Nat.shiftLeft_eq, Nat.one_mul] at hlt
  rw [word, BitVec.toNat_ofNat]
  exact Nat.mod_eq_of_lt hlt

theorem word_ne_zero {o : NicheOption x} (h : o.hasValue = true) : o.word ≠ 0 := by
  intro hzero
  have hdecode : LittleEndian.decode o.bytes = 0 := by
    rw [← o.toNat_word, hzero]
    rfl
  simp only [hasValue, List.any_eq_true, bne_iff_ne] at h
  obtain ⟨b, hb, hne⟩ := h
  exact hne (LittleEndian.decode_eq_zero_iff.mp hdecode b hb)

/-- The value, if there is one. -/
def get? (o : NicheOption x) : Option x.Value :=
  if h : o.hasValue then some ⟨o.word, word_ne_zero h⟩ else none

end NicheOption

end BitValidity
