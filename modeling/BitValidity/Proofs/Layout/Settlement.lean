import BitValidity.Proofs.Layout.Nicheless
import BitValidity.Proofs.Predicate.Constraints

/-!
# Derivations settle

To derive a layout or a proof ends with what is derived or with an error, whatever the description:
no number is divided by zero, and no predicate is given bytes that it does not cover. The divisors
are alignments, which are tested when a fact is registered, and the width of a tag, which is tested
before anything is divided by it. The bytes that are checked are those of types without any, and
their predicates are well-formed because every fact of the registry is.
-/

namespace BitValidity

variable {κ : Type} {r : Registry κ}

/-! ### Divisors -/

lemma settles_divisor {n : UInt64} (h : n ≠ 0) :
    Settles (liftM (divisor n) : Except Failure UInt64) := by
  rw [divisor, if_neg h]
  exact settles_ok n

lemma Field.settles_place {field : Field} {owner : String} {alignment cursor : UInt64}
    (h : alignment ≠ 0) : Settles (field.place owner alignment cursor) := by
  rw [place]
  split
  · exact (settles_divisor h).bind fun _ _ => settles_pure _
  · refine (settles_divisor h).bind fun _ _ => ?_
    split
    · exact settles_error _
    · exact settles_pure _

lemma settles_resolveSize {owner : String} {declared? : Option UInt64}
    {required alignment : UInt64} {fields : List (PlacedField κ)} (h : alignment ≠ 0) :
    Settles (resolveSize owner declared? required alignment fields) := by
  cases declared? with
  | none => exact (settles_divisor h).bind fun _ _ => settles_pure _
  | some declared =>
    simp only [resolveSize]
    split
    · exact settles_error _
    · refine (settles_divisor h).bind fun _ _ => ?_
      split
      · exact settles_error _
      · exact settles_pure _

/-- An alignment is at least as strict as the natural one. -/
lemma ne_zero_of_resolveAlignment {owner : String} {requested? : Option UInt64}
    {natural alignment : UInt64} (hnatural : 0 < natural.toNat)
    (h : resolveAlignment owner requested? natural = .ok alignment) : alignment ≠ 0 := by
  obtain ⟨-, rfl⟩ := (resolveAlignment_eq_ok_iff hnatural).mp h
  intro hzero
  have hmax := toNat_max natural (requested?.getD 1)
  rw [hzero, UInt64.toNat_zero] at hmax
  omega

/-! ### Aggregates -/

lemma settles_placeFields (hr : r.Consistent) {owner : String} {fields : List Field}
    {cursor : UInt64} : Settles (placeFields r owner fields cursor) := by
  induction fields generalizing cursor with
  | nil => exact settles_ok []
  | cons field rest ih =>
    rw [placeFields]
    apply (settles_liftM_error _).bind
    intro fact hfact
    rw [liftM_error_eq_ok_iff, Registry.fieldFact_eq_ok_iff] at hfact
    apply (Field.settles_place (ne_zero_of_isPowerOfTwo (hr.aligned _ _ hfact))).bind
    intro offset _
    exact ih.bind fun placed _ => settles_pure _

/-- Whether a type without bytes has a value can be told from a predicate that is well-formed. -/
lemma LayoutFact.exists_hasEmptyValue [Check κ] {fact : LayoutFact κ}
    (hwf : fact.validity.isWellFormed = true) (hsize : fact.validity.size = fact.size) :
    ∃ value, fact.hasEmptyValue = .ok value := by
  rw [hasEmptyValue]
  split
  · rename_i hempty
    have hlen : ([] : Bytes).length = fact.validity.size.toNat := by
      rw [hsize, hempty]
      rfl
    obtain ⟨outcome, houtcome⟩ := Predicate.exists_findViolation hwf hlen
    exact ⟨outcome.isNone, bind_eq_ok_iff.mpr ⟨outcome, houtcome, rfl⟩⟩
  · exact ⟨false, rfl⟩

lemma LayoutFact.settles_hasEmptyValue [Check κ] {fact : LayoutFact κ}
    (hwf : fact.validity.isWellFormed = true) (hsize : fact.validity.size = fact.size) :
    Settles (liftM fact.hasEmptyValue : Except Failure Bool) := by
  obtain ⟨value, hvalue⟩ := fact.exists_hasEmptyValue hwf hsize
  rw [hvalue]
  exact settles_ok value

namespace Aggregate

variable {a : Aggregate κ}

lemma settles_sequentialLayout (hr : r.Consistent) : Settles (a.sequentialLayout r) := by
  rw [sequentialLayout]
  apply (settles_placeFields hr).bind
  intro fields _
  apply (settles_liftM_error _).bind
  intro _ _
  apply (settles_liftM_error _).bind
  intro alignment halignment
  rw [liftM_error_eq_ok_iff] at halignment
  -- an aggregate without fields is aligned to one byte
  have hnatural : 0 < (strictestAlignment 1 fields).toNat :=
    le_foldl_max_init (fun p : PlacedField κ => p.fact.alignment) 1 fields
  apply (settles_resolveSize (ne_zero_of_resolveAlignment hnatural halignment)).bind
  intro size _
  exact (settles_liftM_error _).bind fun _ _ => settles_pure _

variable [Check κ]

lemma settles_transparentLayout (hr : r.Consistent) (hfacts : r.FactsWellFormed) :
    Settles (a.transparentLayout r) := by
  rw [transparentLayout]
  apply (settles_liftM_error _).bind
  rintro ⟨fields, inner⟩ hfields
  rw [liftM_error_eq_ok_iff, transparentFields_eq_ok_iff] at hfields
  obtain ⟨-, -, hfields, -⟩ := hfields
  refine Settles.bind ?_ fun _ _ => settles_pure _
  apply Settles.mapM
  intro p hp
  obtain ⟨field, -, hfield⟩ := exists_mem_left hfields (List.mem_of_mem_filter hp)
  exact p.fact.settles_hasEmptyValue (hfacts _ _ hfield.fact_eq) (hr.size_eq _ _ hfield.fact_eq)

theorem settles_layout (hr : r.Consistent) (hfacts : r.FactsWellFormed) :
    Settles (a.layout r) := by
  rw [layout]
  split
  · exact settles_sequentialLayout hr
  · exact settles_transparentLayout hr hfacts
  · exact settles_error _

lemma settles_checkFields {owner : String} {fields : List (PlacedField κ)}
    (hfields : ∀ p ∈ fields, p.fact.validity.isWellFormed = true ∧
      p.fact.validity.size = p.fact.size) : Settles (checkFields r owner fields) := by
  induction fields with
  | nil => exact settles_ok ()
  | cons p rest ih =>
    obtain ⟨⟨hwf, hsize⟩, hrest⟩ := List.forall_mem_cons.mp hfields
    rw [checkFields]
    split
    · apply (p.fact.settles_hasEmptyValue hwf hsize).bind
      intro value _
      split
      · exact ih hrest
      · exact settles_error _
    · split
      · exact ih hrest
      · exact settles_error _

/-- A proof may be derived when more types are known than those that the fields are of. -/
theorem settles_deriveNicheless {r' : Registry κ} (hr : r.Consistent) (hfacts : r.FactsWellFormed)
    (hlayout : a.layout r' = a.layout r) : Settles (a.deriveNicheless r') := by
  rw [deriveNicheless, hlayout]
  apply (settles_layout hr hfacts).bind
  intro layout hlayout
  split
  · exact settles_error _
  · split
    · exact settles_error _
    · refine (settles_checkFields ?_).bind fun _ _ => settles_pure _
      intro p hp
      have hfact := fact_eq_of_layout hlayout p hp
      exact ⟨hfacts _ _ hfact, hr.size_eq _ _ hfact⟩

end Aggregate

/-! ### Tagged unions -/

namespace TaggedUnion

variable {u : TaggedUnion}

lemma settles_checkTagOffset {width : IntWidth} (h : u.tag.width.toNat = width.bytes) :
    Settles u.checkTagOffset := by
  have hwidth : u.tag.width.toUInt64 ≠ 0 := by
    intro hzero
    have hnat := congrArg UInt64.toNat hzero
    rw [UInt32.toNat_toUInt64, h] at hnat
    cases width <;> cases hnat
  rw [checkTagOffset]
  refine (settles_divisor hwidth).bind fun _ _ => ?_
  split
  · exact settles_error _
  · exact settles_pure _

lemma settles_placeVariant (hr : r.Consistent) {start : UInt64} {variant : Variant} :
    Settles (u.placeVariant r start variant) := by
  rw [placeVariant]
  refine (settles_placeFields hr).bind fun _ _ => ?_
  exact (settles_liftM_error _).bind fun _ _ => settles_pure _

theorem settles_layout (hr : r.Consistent) : Settles (u.layout r) := by
  rw [layout]
  apply (settles_liftM_error _).bind
  intro width hwidth
  rw [liftM_error_eq_ok_iff, Tag.checkedWidth_eq_ok_iff] at hwidth
  apply (settles_liftM_error _).bind
  intro tags _
  apply (settles_checkTagOffset hwidth).bind
  intro _ _
  apply (settles_liftM_error _).bind
  intro payload hpayload
  have hpow := (payloadAlignment_spec hr (liftM_error_eq_ok_iff.mp hpayload)).1
  apply (settles_divisor (ne_zero_of_isPowerOfTwo hpow)).bind
  intro _ _
  apply (Settles.mapM fun _ _ => settles_placeVariant hr).bind
  intro placed _
  apply (settles_liftM_error _).bind
  intro alignment halignment
  rw [liftM_error_eq_ok_iff] at halignment
  have hnatural := isPowerOfTwo_max (isPowerOfTwo_toUInt64 width) hpow
  have halignment := ne_zero_of_resolveAlignment (toNat_pos_of_isPowerOfTwo hnatural) halignment
  exact (settles_resolveSize halignment).bind fun _ _ => settles_pure _

theorem settles_deriveNicheless (hr : r.Consistent) : Settles (u.deriveNicheless r) :=
  ((settles_layout hr).map _).bind fun _ _ => settles_error _

end TaggedUnion

/-! ### Registered types -/

variable [Check κ]

namespace LayoutFact

variable {fact : LayoutFact κ}

/-- Whether a type is seen to have no value can be told from a predicate that is well-formed. -/
lemma exists_isUninhabited (hwf : fact.validity.isWellFormed = true)
    (hsize : fact.validity.size = fact.size) :
    ∃ uninhabited, fact.isUninhabited = .ok uninhabited := by
  rw [isUninhabited]
  split
  · exact ⟨true, rfl⟩
  · split
    · obtain ⟨value, hvalue⟩ := fact.exists_hasEmptyValue hwf hsize
      rw [hvalue]
      exact ⟨!value, rfl⟩
    · exact ⟨false, rfl⟩

lemma settles_isUninhabited (hwf : fact.validity.isWellFormed = true)
    (hsize : fact.validity.size = fact.size) :
    Settles (liftM fact.isUninhabited : Except Failure Bool) := by
  obtain ⟨uninhabited, huninhabited⟩ := exists_isUninhabited hwf hsize
  rw [huninhabited]
  exact settles_ok uninhabited

lemma settles_deriveNicheless (hwf : fact.validity.isWellFormed = true)
    (hsize : fact.validity.size = fact.size) : Settles fact.deriveNicheless := by
  rw [deriveNicheless]
  refine (settles_isUninhabited hwf hsize).bind fun uninhabited _ => ?_
  split
  · exact settles_error _
  · split
    · exact settles_pure _
    · split
      · exact settles_error _
      · exact settles_pure _

lemma settles_checkAssertion (hwf : fact.validity.isWellFormed = true)
    (hsize : fact.validity.size = fact.size) (justification : String) :
    Settles (fact.checkAssertion justification) := by
  rw [checkAssertion]
  split
  · exact settles_error _
  · refine (settles_isUninhabited hwf hsize).bind fun uninhabited _ => ?_
    split
    · exact settles_error _
    · exact settles_pure _

end LayoutFact

theorem Registry.settles_deriveNicheless (hr : r.Consistent) (hfacts : r.FactsWellFormed)
    (type : TypeId) : Settles (r.deriveNicheless type) := by
  rw [deriveNicheless]
  split
  · exact settles_ok _
  · apply (settles_liftM_error _).bind
    intro fact hfact
    rw [liftM_error_eq_ok_iff, lookup_eq_ok_iff] at hfact
    exact fact.settles_deriveNicheless (hfacts _ _ hfact) (hr.size_eq _ _ hfact)

/-! ### Descriptions -/

namespace Description

variable {description : Description κ}

theorem settles_fact (hr : r.Consistent) (hfacts : r.FactsWellFormed) :
    Settles (description.fact r) := by
  cases description with
  | leaf draft => exact settles_ok draft
  | aggregate a => exact ((a.settles_layout hr hfacts).map _).map _
  | taggedUnion u => exact ((u.settles_layout hr).map _).map _
  | enumeration e => exact settles_liftM_error _

theorem settles_deriveNicheless (hr : r.Consistent) (hfacts : r.FactsWellFormed) (type : TypeId) :
    Settles (description.deriveNicheless r type) := by
  cases description with
  | leaf draft => exact r.settles_deriveNicheless hr hfacts type
  | aggregate a => exact a.settles_deriveNicheless hr hfacts rfl
  | taggedUnion u => exact u.settles_deriveNicheless hr
  | enumeration e => exact settles_liftM_error _

end Description

end BitValidity
