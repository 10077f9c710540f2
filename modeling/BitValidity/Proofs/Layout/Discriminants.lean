import BitValidity.Layout.Discriminant
import BitValidity.Proofs.Outcome
import BitValidity.Proofs.Word

/-!
# Resolved discriminants

A discriminant that is not given is one more than the one before. Resolution computes this in words
with a sign, where the greatest has no successor, and stores the low bytes of each. In unbounded
integers the same is a recursion on the list alone (`Discriminant.values`), and resolution succeeds
exactly when every value is one of the tag and no two of them share their low bytes, which is what
it then answers (`resolveFrom_eq_ok_iff`). As the values of a tag have a width, no two of them share
their low bytes unless they are the same, and from what is stored each can be read back
(`resolves_iff_distinct_in_range`).
-/

namespace BitValidity

namespace Discriminant

variable {width : IntWidth} {signed : Bool}

/-! ### Values -/

/-- The values of discriminants, from one on that is `next` if it is not given. -/
def valuesFrom : ℤ → List (Option Int64) → List ℤ
  | _, [] => []
  | next, given :: rest =>
    let value := (given.map (·.toInt)).getD next
    value :: valuesFrom (value + 1) rest

/-- The values of discriminants: those that are given, and for each other one the successor of the
one before, or zero for the first. -/
def values (given : List (Option Int64)) : List ℤ := valuesFrom 0 given

@[simp] lemma length_valuesFrom (next : ℤ) (given : List (Option Int64)) :
    (valuesFrom next given).length = given.length := by
  induction given generalizing next with
  | nil => rfl
  | cons discriminant rest ih => simp [valuesFrom, ih]

@[simp] lemma length_values (given : List (Option Int64)) :
    (values given).length = given.length :=
  length_valuesFrom 0 given

/-- Discriminants that are all given are the values. -/
lemma values_of_given {given : List (Option Int64)} (h : ∀ d ∈ given, d.isSome = true) :
    values given = given.map fun d => (d.map (·.toInt)).getD 0 := by
  have hfrom (next : ℤ) : valuesFrom next given = given.map fun d => (d.map (·.toInt)).getD 0 := by
    induction given generalizing next with
    | nil => rfl
    | cons d rest ih =>
      obtain ⟨hd, hrest⟩ := List.forall_mem_cons.mp h
      obtain ⟨value, rfl⟩ := Option.isSome_iff_exists.mp hd
      rw [valuesFrom, ih hrest]
      rfl
  exact hfrom 0

/-- The word in which the low bytes of an integer are stored. -/
def lowBytes (width : IntWidth) (value : ℤ) : UInt64 :=
  UInt64.ofNat (value % 256 ^ width.bytes).toNat

lemma toNat_lowBytes (width : IntWidth) (value : ℤ) :
    (lowBytes width value).toNat = (value % 256 ^ width.bytes).toNat :=
  toNat_ofNat_emod width value

lemma toNat_lowBytes_lt (width : IntWidth) (value : ℤ) :
    (lowBytes width value).toNat < 256 ^ width.bytes := by
  rw [toNat_lowBytes]
  exact toNat_emod_lt width value

lemma lowBytes_eq_iff {value : ℤ} {n : ℕ} (hn : n < 256 ^ width.bytes) :
    lowBytes width value = UInt64.ofNat n ↔ (n : ℤ) = value % 256 ^ width.bytes := by
  have hword := width.pow_bytes_le
  have hnn : 0 ≤ value % 256 ^ width.bytes := Int.emod_nonneg _ (by positivity)
  rw [← UInt64.toNat_inj, toNat_lowBytes, UInt64.toNat_ofNat', Nat.mod_eq_of_lt (by omega)]
  omega

/-- The tag of a discriminant holds its low bytes. -/
lemma encode_eq_lowBytes (width : IntWidth) (value : Int64) :
    encode width value = lowBytes width value.toInt := by
  have hnat : value.toInt = (value.toUInt64.toNat : ℤ).bmod (2 ^ 64) :=
    BitVec.toInt_eq_toNat_bmod value.toBitVec
  have hdvd : (256 : ℤ) ^ width.bytes ∣ (2 ^ 64 : ℕ) := by cases width <;> decide
  rw [← UInt64.toNat_inj, encode, toNat_and_byteMask, toNat_lowBytes, hnat,
    ← Int.emod_emod_of_dvd _ hdvd, Int.bmod_emod, Int.emod_emod_of_dvd _ hdvd]
  norm_cast

/-! ### Successors -/

/-- The word, if there is one, stands for the integer. There is none for the successor of the
greatest. -/
def Represents (word? : Option Int64) (value : ℤ) : Prop :=
  match word? with
  | some word => word.toInt = value
  | none => value = 2 ^ 63

lemma represents_successor (value : Int64) : Represents (successor value) (value.toInt + 1) := by
  rw [successor]
  split
  · rename_i h
    rw [h]
    rfl
  · rename_i h
    have hle := value.le_toInt
    have hne : value.toInt ≠ 2 ^ 63 - 1 := by
      intro heq
      exact h (Int64.toInt_inj.mp heq)
    have hlt := value.toInt_lt
    show (value + 1).toInt = value.toInt + 1
    rw [Int64.toInt_add, show (1 : Int64).toInt = 1 from rfl]
    exact Int.bmod_eq_of_le (by norm_num; omega) (by norm_num; omega)

lemma toInt_of_successor {value next : Int64} (h : successor value = some next) :
    next.toInt = value.toInt + 1 := by
  have hrepresents := represents_successor value
  rwa [h] at hrepresents

lemma successor_eq_none_iff {value : Int64} :
    successor value = none ↔ value.toInt = 2 ^ 63 - 1 := by
  have hrepresents := represents_successor value
  cases hsuccessor : successor value with
  | none =>
    rw [hsuccessor] at hrepresents
    have hmax : value.toInt + 1 = 2 ^ 63 := hrepresents
    exact iff_of_true rfl (by omega)
  | some next =>
    have hnext := toInt_of_successor hsuccessor
    have hlt := next.toInt_lt
    exact iff_of_false nofun (by omega)

lemma Represents.or {next : Option Int64} {value : ℤ} (h : Represents next value)
    (given : Option Int64) : Represents (given.or next) ((given.map (·.toInt)).getD value) := by
  cases given with
  | none => exact h
  | some word => rfl

/-! ### Resolution -/

/-- The integers that a tag can hold as discriminants. -/
def range (width : IntWidth) (signed : Bool) : Set ℤ :=
  Set.Icc (least width signed).toInt (greatest width signed).toInt

lemma mem_range_iff {word : Int64} :
    word.toInt ∈ range width signed ↔
      ¬ (word < least width signed ∨ greatest width signed < word) := by
  rw [range, Set.mem_Icc, not_or, Int64.lt_iff_toInt_lt, Int64.lt_iff_toInt_lt, not_lt, not_lt]

/-- The discriminants that a tag can hold are integers of its width. -/
lemma range_subset_domain : range width signed ⊆ width.domain signed := by
  intro value hvalue
  have hleast : (-2 ^ (8 * width.bytes - 1) : ℤ) ≤ (least width true).toInt := by
    cases width <;> decide
  have hgreatest : ((greatest width true).toInt : ℤ) < 2 ^ (8 * width.bytes - 1) := by
    cases width <;> decide
  have hunsigned : ((greatest width false).toInt : ℤ) < 256 ^ width.bytes := by
    cases width <;> decide
  obtain ⟨hle, hge⟩ := hvalue
  cases signed with
  | true => exact ⟨hleast.trans hle, hge.trans_lt hgreatest⟩
  | false => exact ⟨hle, hge.trans_lt hunsigned⟩

/-- An integer of a width is what its low bytes stand for. -/
lemma integerOf_lowBytes {value : ℤ} (h : value ∈ width.domain signed) :
    width.integerOf signed (lowBytes width value) = value :=
  integerOf_ofNat_emod h

/-- No two integers of a width have the same low bytes. -/
lemma nodup_map_lowBytes_iff {values : List ℤ} (h : ∀ d ∈ values, d ∈ width.domain signed) :
    (values.map (lowBytes width)).Nodup ↔ values.Nodup := by
  refine ⟨List.Nodup.of_map _, List.Nodup.map_on ?_⟩
  intro d hd e he heq
  rw [← integerOf_lowBytes (h d hd), ← integerOf_lowBytes (h e he), heq]

/-- There is a tag for each of the discriminants exactly when these are integers of the tag of which
no two have the same low bytes. -/
theorem resolveFrom_eq_ok_iff {owner : String} {given : List (Option Int64)} {index : ℕ}
    {next : Option Int64} {value : ℤ} {seen tags : List UInt64} (hnext : Represents next value) :
    resolveFrom owner width signed given index next seen = .ok tags ↔
      (∀ d ∈ valuesFrom value given, d ∈ range width signed) ∧
        tags = (valuesFrom value given).map (lowBytes width) ∧ tags.Nodup ∧
        ∀ tag ∈ tags, tag ∉ seen := by
  -- any tags may be in use: those of the rest must differ from the first one too
  induction given generalizing index next value seen tags with
  | nil =>
    simp only [resolveFrom, valuesFrom, Except.ok.injEq]
    constructor
    · rintro rfl
      simp
    · rintro ⟨-, rfl, -⟩
      rfl
  | cons discriminant rest ih =>
    have hrepresents := hnext.or discriminant
    rw [resolveFrom, valuesFrom]
    generalize (discriminant.map (·.toInt)).getD value = d at hrepresents ⊢
    cases hword : discriminant.or next with
    | none =>
      -- no word stands for the value, and no tag holds it
      rw [hword] at hrepresents
      apply iff_of_false nofun
      rintro ⟨hrange, -⟩
      have hle := (hrange d List.mem_cons_self).2
      have hlt := (greatest width signed).toInt_lt
      rw [show d = 2 ^ 63 from hrepresents] at hle
      omega
    | some word =>
      rw [hword] at hrepresents
      obtain rfl : word.toInt = d := hrepresents
      simp only [List.forall_mem_cons, mem_range_iff, List.map_cons, ← encode_eq_lowBytes]
      split
      · rename_i hrange
        apply iff_of_false nofun
        rintro ⟨⟨hnot, -⟩, -⟩
        exact hnot hrange
      · rename_i hrange
        split
        · rename_i hseen
          apply iff_of_false nofun
          rintro ⟨-, rfl, -, hnot⟩
          exact hnot _ List.mem_cons_self (List.contains_iff_mem.mp hseen)
        · rename_i hseen
          rw [List.contains_iff_mem] at hseen
          simp only [map_eq_ok_iff, ih (represents_successor word)]
          constructor
          · rintro ⟨tags, ⟨hrest, htags, hnodup, hnew⟩, rfl⟩
            refine ⟨⟨hrange, hrest⟩, by rw [htags], List.nodup_cons.mpr ⟨?_, hnodup⟩,
              List.forall_mem_cons.mpr ⟨hseen, ?_⟩⟩
            · intro hmem
              exact hnew _ hmem List.mem_cons_self
            · intro tag htag hmem
              exact hnew tag htag (List.mem_cons_of_mem _ hmem)
          · rintro ⟨⟨-, hrest⟩, rfl, hnodup, hnew⟩
            obtain ⟨hnot, hnodup⟩ := List.nodup_cons.mp hnodup
            refine ⟨_, ⟨hrest, rfl, hnodup, ?_⟩, rfl⟩
            intro tag htag hmem
            rcases List.mem_cons.mp hmem with rfl | hmem
            · exact hnot htag
            · exact hnew tag (List.mem_cons_of_mem _ htag) hmem

end Discriminant

variable {owner : String} {tag : Tag} {given : List (Option Int64)} {width : IntWidth}
  {tags : List UInt64}

lemma Tag.checkedWidth_eq_ok_iff : tag.checkedWidth owner = .ok width ↔
    tag.width.toNat = width.bytes := by
  rw [← IntWidth.ofBytes?_eq_some_iff]
  simp only [checkedWidth]
  split <;> simp_all

theorem resolveDiscriminants_eq_ok_iff (hwidth : tag.checkedWidth owner = .ok width) :
    resolveDiscriminants owner tag given = .ok tags ↔
      (∀ d ∈ Discriminant.values given, d ∈ Discriminant.range width tag.signed) ∧
        tags = (Discriminant.values given).map (Discriminant.lowBytes width) ∧ tags.Nodup := by
  have hzero : Discriminant.Represents (some 0) 0 := rfl
  rw [resolveDiscriminants, hwidth, ok_bind, Discriminant.resolveFrom_eq_ok_iff hzero]
  simp [Discriminant.values]

/-- Resolved tags are integers of the width. -/
lemma lt_of_resolveDiscriminants (hwidth : tag.checkedWidth owner = .ok width)
    (h : resolveDiscriminants owner tag given = .ok tags) :
    ∀ tag ∈ tags, tag.toNat < 256 ^ width.bytes := by
  obtain ⟨-, rfl, -⟩ := (resolveDiscriminants_eq_ok_iff hwidth).mp h
  refine List.forall_mem_map.mpr ?_
  intro value _
  exact Discriminant.toNat_lowBytes_lt width value

/-! ### Reading a tag back -/

namespace Tag

/-- The values that discriminants can have: the integers of the width of the tag, as long as there
are discriminants for them. -/
def Holds (tag : Tag) (value : ℤ) : Prop :=
  let bits := 8 * tag.width.toNat
  if tag.signed then -2 ^ (bits - 1) ≤ value ∧ value ≤ 2 ^ (bits - 1) - 1
  else 0 ≤ value ∧ value ≤ min (2 ^ bits - 1) (2 ^ 63 - 1)

/-- The value that a stored tag stands for. -/
def read (tag : Tag) (stored : UInt64) : ℤ :=
  if tag.signed then (signExtend stored tag.width.toNat).toInt else stored.toNat

lemma exists_checkedWidth_iff (tag : Tag) (owner : String) :
    (∃ width, tag.checkedWidth owner = .ok width) ↔ tag.width.toNat ∈ [1, 2, 4, 8] := by
  simp only [checkedWidth_eq_ok_iff]
  constructor
  · rintro ⟨width, h⟩
    cases width <;> simp [h, IntWidth.bytes]
  · intro h
    simp only [List.mem_cons, List.not_mem_nil, or_false] at h
    rcases h with h | h | h | h
    · exact ⟨.one, h⟩
    · exact ⟨.two, h⟩
    · exact ⟨.four, h⟩
    · exact ⟨.eight, h⟩

lemma mem_range_iff_holds (hwidth : tag.width.toNat = width.bytes) {value : ℤ} :
    value ∈ Discriminant.range width tag.signed ↔ tag.Holds value := by
  have hleast : (Discriminant.least width tag.signed).toInt =
      if tag.signed then -2 ^ (8 * width.bytes - 1) else 0 := by
    cases width <;> cases tag.signed <;> rfl
  have hgreatest : (Discriminant.greatest width tag.signed).toInt =
      if tag.signed then 2 ^ (8 * width.bytes - 1) - 1
      else min (2 ^ (8 * width.bytes) - 1) (2 ^ 63 - 1) := by
    cases width <;> cases tag.signed <;> decide
  rw [Discriminant.range, Set.mem_Icc, hleast, hgreatest, Holds, hwidth]
  split <;> rfl

/-- A word of the width of the tag is read as the integer that it stands for. -/
lemma read_eq_integerOf (hwidth : tag.width.toNat = width.bytes) {stored : UInt64}
    (hstored : stored.toNat < 256 ^ width.bytes) :
    tag.read stored = width.integerOf tag.signed stored := by
  rw [read, IntWidth.integerOf, hwidth, Nat.mod_eq_of_lt hstored]

end Tag

lemma exists_resolved_iff (hwidth : tag.checkedWidth owner = .ok width) :
    (∃ tags, resolveDiscriminants owner tag given = .ok tags) ↔
      (∀ d ∈ Discriminant.values given, tag.Holds d) ∧ (Discriminant.values given).Nodup := by
  have hbytes := Tag.checkedWidth_eq_ok_iff.mp hwidth
  simp only [resolveDiscriminants_eq_ok_iff hwidth, Tag.mem_range_iff_holds hbytes]
  have hnodup (hholds : ∀ d ∈ Discriminant.values given, tag.Holds d) :
      ((Discriminant.values given).map (Discriminant.lowBytes width)).Nodup ↔
        (Discriminant.values given).Nodup :=
    Discriminant.nodup_map_lowBytes_iff fun d hd =>
      Discriminant.range_subset_domain ((Tag.mem_range_iff_holds hbytes).mpr (hholds d hd))
  constructor
  · rintro ⟨_, hholds, rfl, h⟩
    exact ⟨hholds, (hnodup hholds).mp h⟩
  · rintro ⟨hholds, h⟩
    exact ⟨_, hholds, rfl, (hnodup hholds).mpr h⟩

lemma map_toNat_of_resolveDiscriminants (hwidth : tag.checkedWidth owner = .ok width)
    (h : resolveDiscriminants owner tag given = .ok tags) :
    tags.map (fun stored => (stored.toNat : ℤ)) =
      (Discriminant.values given).map (· % 2 ^ (8 * tag.width.toNat)) := by
  obtain ⟨-, rfl, -⟩ := (resolveDiscriminants_eq_ok_iff hwidth).mp h
  rw [List.map_map]
  refine List.map_congr_left fun d _ => ?_
  have hnn : 0 ≤ d % 256 ^ width.bytes := Int.emod_nonneg d (by positivity)
  rw [Function.comp_apply, Discriminant.toNat_lowBytes, Int.toNat_of_nonneg hnn,
    Tag.checkedWidth_eq_ok_iff.mp hwidth, pow_mul]
  norm_num

lemma map_read_of_resolveDiscriminants (hwidth : tag.checkedWidth owner = .ok width)
    (h : resolveDiscriminants owner tag given = .ok tags) :
    tags.map tag.read = Discriminant.values given := by
  obtain ⟨hrange, rfl, -⟩ := (resolveDiscriminants_eq_ok_iff hwidth).mp h
  rw [List.map_map]
  refine (List.map_congr_left fun d hd => ?_).trans (List.map_id _)
  have hstored := Discriminant.toNat_lowBytes_lt width d
  rw [Function.comp_apply, Tag.read_eq_integerOf (Tag.checkedWidth_eq_ok_iff.mp hwidth) hstored]
  exact Discriminant.integerOf_lowBytes (Discriminant.range_subset_domain (hrange d hd))

/-- Discriminants are resolved exactly when the tag has a width that integers can have, each of the
values is one of the tag, and no two are the same. Each is then stored as its remainder modulo the
number of tags of the width, no two are stored alike, and each is read back as it was. Every value
but the greatest discriminant has a successor, and that is one more. -/
theorem resolves_iff_distinct_in_range (owner : String) (tag : Tag) (given : List (Option Int64)) :
    ((∃ tags, resolveDiscriminants owner tag given = .ok tags) ↔
        tag.width.toNat ∈ [1, 2, 4, 8] ∧ (∀ d ∈ Discriminant.values given, tag.Holds d) ∧
          (Discriminant.values given).Nodup) ∧
      (∀ tags, resolveDiscriminants owner tag given = .ok tags →
        tags.map (fun stored => (stored.toNat : ℤ)) =
            (Discriminant.values given).map (· % 2 ^ (8 * tag.width.toNat)) ∧
          tags.Nodup ∧ tags.map tag.read = Discriminant.values given) ∧
      ∀ value : Int64, (Discriminant.successor value = none ↔ value.toInt = 2 ^ 63 - 1) ∧
        ∀ next, Discriminant.successor value = some next → next.toInt = value.toInt + 1 := by
  have hwidth {tags : List UInt64} (htags : resolveDiscriminants owner tag given = .ok tags) :
      ∃ width, tag.checkedWidth owner = .ok width :=
    (bind_eq_ok_iff.mp htags).imp fun _ h => h.1
  refine ⟨?_, ?_, fun value => ⟨Discriminant.successor_eq_none_iff, fun next =>
    Discriminant.toInt_of_successor⟩⟩
  · rw [← tag.exists_checkedWidth_iff owner]
    constructor
    · rintro ⟨tags, htags⟩
      obtain ⟨width, hchecked⟩ := hwidth htags
      exact ⟨⟨width, hchecked⟩, (exists_resolved_iff hchecked).mp ⟨tags, htags⟩⟩
    · rintro ⟨⟨width, hchecked⟩, h⟩
      exact (exists_resolved_iff hchecked).mpr h
  · intro tags htags
    obtain ⟨width, hchecked⟩ := hwidth htags
    exact ⟨map_toNat_of_resolveDiscriminants hchecked htags,
      ((resolveDiscriminants_eq_ok_iff hchecked).mp htags).2.2,
      map_read_of_resolveDiscriminants hchecked htags⟩

end BitValidity
