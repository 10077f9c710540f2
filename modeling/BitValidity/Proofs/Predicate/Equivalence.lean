import BitValidity.Predicate.Extremes
import BitValidity.Proofs.Predicate.Constraints
import BitValidity.Proofs.Predicate.Names

/-!
# Laws of equivalence

Equivalence of predicates is an equivalence relation, and it is sound: of equivalent predicates the
checks come to the same outcome on any bytes, up to descriptions (`SameOutcome`), and the questions
that are asked of the predicates alone have the same answers. So nothing is lost when a fact is
dropped for one with an equivalent predicate that is known already. Only checks of predicates that
are not well-formed can read bytes that were not given to them (`ReadsAstray`), and then the checks
of equivalent predicates read the same.
-/

namespace BitValidity

variable {κ : Type}

/-! ### Outcomes up to descriptions -/

/-- Two checks come to the same outcome. Only the descriptions in it may differ. -/
inductive SameOutcome : Except Breach (Option Violation) → Except Breach (Option Violation) → Prop
    where
  /-- Both accept the bytes. -/
  | accepted : SameOutcome (.ok none) (.ok none)
  /-- Both report the same violation. -/
  | violated (kind : ViolationKind) (offset length : UInt64) (bits : BitPattern) (valid : BitRanges)
      (description description' : String) :
      SameOutcome (.ok (some ⟨kind, offset, length, bits, valid, description⟩))
        (.ok (some ⟨kind, offset, length, bits, valid, description'⟩))
  /-- Both notice a broken precondition. -/
  | raised (e e' : InternalError) : SameOutcome (.error (.internal e)) (.error (.internal e'))

/-- The check reads bytes that were not given to it and does not notice. Nothing is promised of what
it comes to then. -/
def ReadsAstray (outcome : Except Breach (Option Violation)) : Prop :=
  ∃ offset size available, outcome = .error (.strayRead offset size available)

/-- Both or neither of the checks come to an end. -/
lemma SameOutcome.exists_eq_ok_iff {x y : Except Breach (Option Violation)} (h : SameOutcome x y) :
    (∃ outcome, x = .ok outcome) ↔ ∃ outcome, y = .ok outcome := by
  cases h <;> simp

/-- Checks that come to the same outcome do not read astray. -/
lemma SameOutcome.not_readsAstray {x y : Except Breach (Option Violation)} (h : SameOutcome x y) :
    ¬ ReadsAstray x := by
  rintro ⟨offset, size, available, rfl⟩
  cases h

lemma Breach.exists_internal_of_anonymous {b : Breach} {e : InternalError}
    (h : b.anonymous = (Breach.internal e).anonymous) : ∃ e', b = .internal e' := by
  cases b with
  | internal e' => exact ⟨e', rfl⟩
  | strayRead offset size available => cases e <;> cases h
  | zeroDivisor => cases e <;> cases h

/-- Breaches that are not noticed name nothing. -/
lemma Breach.eq_strayRead_of_anonymous {b : Breach} {offset size : UInt64} {available : ℕ}
    (h : b.anonymous = .strayRead offset size available) :
    b = .strayRead offset size available := by
  cases b with
  | internal e => cases e <;> cases h
  | strayRead offset' size' available' => exact h
  | zeroDivisor => cases h

/-- What checks come to is the same up to descriptions if it is the same without names. -/
lemma sameOutcome_or_of_anonymousOutcome_eq {x y : Except Breach (Option Violation)}
    (h : anonymousOutcome x = anonymousOutcome y) (hx : x ≠ .error .zeroDivisor) :
    SameOutcome x y ∨ x = y ∧ ReadsAstray x := by
  cases x with
  | error b =>
    cases y with
    | error b' =>
      have hb : b.anonymous = b'.anonymous := Except.error.inj h
      cases b with
      | internal e =>
        obtain ⟨e', rfl⟩ := Breach.exists_internal_of_anonymous hb.symm
        exact .inl (.raised e e')
      | strayRead offset size available =>
        obtain rfl := Breach.eq_strayRead_of_anonymous hb.symm
        exact .inr ⟨rfl, offset, size, available, rfl⟩
      | zeroDivisor => exact absurd rfl hx
    | ok v'? => cases h
  | ok v? =>
    left
    cases y with
    | error b' => cases h
    | ok v'? =>
      cases v? with
      | none =>
        obtain rfl : v'? = none := by simpa using h.symm
        exact .accepted
      | some v =>
        obtain ⟨kind, offset, length, bits, valid, description⟩ := v
        cases v'? with
        | none => cases h
        | some v' =>
          obtain ⟨kind', offset', length', bits', valid', description'⟩ := v'
          cases h
          exact .violated kind offset length bits valid description description'

namespace Predicate

/-! ### Questions to the predicate alone -/

lemma anonymousFields_eq_map (fields : List (FieldCheck (Predicate κ))) :
    anonymousFields fields =
      fields.map fun field => ⟨field.offset, field.predicate.anonymous, ""⟩ := by
  induction fields with
  | nil => rfl
  | cons field rest ih => simp [anonymousFields, ih]

lemma anonymousVariants_eq_map (variants : List (VariantCheck (Predicate κ))) :
    anonymousVariants variants =
      variants.map fun variant => ⟨variant.tag, variant.payload.anonymous, ""⟩ := by
  induction variants with
  | nil => rfl
  | cons variant rest ih => simp [anonymousVariants, ih]

@[simp] lemma admitsAll_anonymous (p : Predicate κ) : p.anonymous.admitsAll = p.admitsAll := by
  induction p using Predicate.induct with
  | allOf size d fields invariant ihfields ihinvariant =>
    cases invariant with
    | none =>
      simp only [anonymous, admitsAll, fieldsAdmitAll_eq, anonymousFields_eq_map, List.all_map]
      rw [Bool.eq_iff_iff, List.all_eq_true, List.all_eq_true]
      exact forall₂_congr fun field hfield => by rw [Function.comp_apply, ihfields field hfield]
    | some invariant => rfl
  | passthrough d inner ih => exact ih
  | _ => rfl

@[simp] lemma admitsNone_anonymous (p : Predicate κ) : p.anonymous.admitsNone = p.admitsNone := by
  induction p using Predicate.induct with
  | allOf size d fields invariant ihfields ihinvariant =>
    have hfields : (anonymousFields fields).any (·.predicate.admitsNone) =
        fields.any (·.predicate.admitsNone) := by
      rw [anonymousFields_eq_map, List.any_map, Bool.eq_iff_iff, List.any_eq_true, List.any_eq_true]
      exact exists_congr fun field => and_congr_right fun hfield => by
        rw [Function.comp_apply, ihfields field hfield]
    cases invariant <;> simpa only [anonymous, admitsNone, someFieldAdmitsNone_eq] using hfields
  | oneOf size d offset width signed variants ih =>
    simp only [anonymous, admitsNone, variantsAdmitNone_eq, anonymousVariants_eq_map, List.all_map]
    rw [Bool.eq_iff_iff, List.all_eq_true, List.all_eq_true]
    exact forall₂_congr fun variant hvariant => by rw [Function.comp_apply, ih variant hvariant]
  | passthrough d inner ih => exact ih
  | _ => rfl

/-! ### Breaches of checks -/

section

variable [Check κ] {bytes : Bytes}

omit [Check κ] in
lemma slice_ne_zeroDivisor {offset size : UInt64} :
    Bytes.slice bytes offset size ≠ .error .zeroDivisor := by
  rw [Bytes.slice]
  split_ifs <;> simp

omit [Check κ] in
lemma loadUnsigned_ne_zeroDivisor {offset width : UInt64} :
    loadUnsigned bytes offset width ≠ .error .zeroDivisor := by
  rw [loadUnsigned, Bytes.slice]
  split_ifs <;> simp [Except.map]

lemma findFieldViolation_ne_zeroDivisor {fields : List (FieldCheck (Predicate κ))}
    (h : ∀ field ∈ fields, ∀ bytes, field.predicate.findViolation bytes ≠ .error .zeroDivisor) :
    findFieldViolation fields bytes ≠ .error .zeroDivisor := by
  induction fields with
  | nil => simp [findFieldViolation]
  | cons field rest ih =>
    obtain ⟨hfield, hrest⟩ := List.forall_mem_cons.mp h
    rw [findFieldViolation]
    refine bind_ne_error slice_ne_zeroDivisor fun part => bind_ne_error (hfield part) ?_
    rintro (_ | v)
    · exact ih hrest
    · exact pure_ne_error

lemma findVariantViolation_ne_zeroDivisor {variants : List (VariantCheck (Predicate κ))}
    {width : IntWidth} {tag : UInt64} {unknown : Violation}
    (h : ∀ variant ∈ variants, variant.payload.findViolation bytes ≠ .error .zeroDivisor) :
    findVariantViolation variants width tag unknown bytes ≠ .error .zeroDivisor := by
  induction variants with
  | nil => simp [findVariantViolation]
  | cons variant rest ih =>
    obtain ⟨hvariant, hrest⟩ := List.forall_mem_cons.mp h
    rw [findVariantViolation]
    split_ifs
    · exact hvariant
    · exact ih hrest

/-- A check divides nothing, so what goes unnoticed in it is a read. -/
lemma findViolation_ne_zeroDivisor (p : Predicate κ) (bytes : Bytes) :
    p.findViolation bytes ≠ .error .zeroDivisor := by
  induction p using Predicate.induct generalizing bytes with
  | allOf size d fields invariant ihfields ihinvariant =>
    have hfields : findFieldViolation fields bytes ≠ .error .zeroDivisor :=
      findFieldViolation_ne_zeroDivisor ihfields
    cases invariant with
    | none =>
      rw [findViolation]
      split_ifs
      · simp
      · exact hfields
    | some invariant =>
      rw [findViolation]
      split_ifs
      · simp
      · refine bind_ne_error hfields ?_
        rintro (_ | v)
        · exact bind_ne_error (ihinvariant invariant rfl bytes) fun v? => pure_ne_error
        · exact pure_ne_error
  | oneOf size d offset width signed variants ih =>
    rw [findViolation]
    split_ifs
    · simp
    · exact bind_ne_error loadUnsigned_ne_zeroDivisor fun tag =>
        findVariantViolation_ne_zeroDivisor fun variant hvariant => ih variant hvariant bytes
  | passthrough d inner ih =>
    rw [findViolation]
    split_ifs
    · simp
    · exact ih bytes
  | intRanges width signed ranges d =>
    rw [findViolation]
    split_ifs
    · simp
    · refine bind_ne_error loadUnsigned_ne_zeroDivisor fun value => ?_
      split_ifs <;> exact pure_ne_error
  | _ =>
    rw [findViolation]
    split_ifs <;> simp

/-- A check of a well-formed predicate stays inside the bytes, whether it is given as many as the
predicate is about or not. -/
lemma not_readsAstray_of_isWellFormed {p : Predicate κ} (hwf : p.isWellFormed) (bytes : Bytes) :
    ¬ ReadsAstray (p.findViolation bytes) := by
  rintro ⟨offset, size, available, hstray⟩
  by_cases hlen : bytes.length = p.size.toNat
  · obtain ⟨outcome, houtcome⟩ := exists_findViolation hwf hlen
    rw [houtcome] at hstray
    cases hstray
  · rw [findViolation.eq_def, if_pos hlen] at hstray
    cases hstray

end

/-! ### Laws -/

variable [DecidableEq κ]

lemma equivalence_equivalent : Equivalence fun p q : Predicate κ => p.equivalent q = true where
  refl := equivalent_refl
  symm h := equivalent_iff.mpr (equivalent_iff.mp h).symm
  trans h h' := equivalent_iff.mpr ((equivalent_iff.mp h).trans (equivalent_iff.mp h'))

variable [Check κ] {p q : Predicate κ}

/-- Checks of equivalent predicates come to the same outcome, on bytes of any length, or they read
the same bytes astray. -/
lemma sameOutcome_or_of_equivalent (h : p.equivalent q = true) (bytes : Bytes) :
    SameOutcome (p.findViolation bytes) (q.findViolation bytes) ∨
      p.findViolation bytes = q.findViolation bytes ∧ ReadsAstray (p.findViolation bytes) := by
  apply sameOutcome_or_of_anonymousOutcome_eq _ (findViolation_ne_zeroDivisor p bytes)
  rw [← findViolation_anonymous, equivalent_iff.mp h, findViolation_anonymous]

lemma sameOutcome_of_isWellFormed (h : p.equivalent q = true) (hwf : p.isWellFormed)
    (bytes : Bytes) : SameOutcome (p.findViolation bytes) (q.findViolation bytes) := by
  rcases sameOutcome_or_of_equivalent h bytes with hsame | ⟨-, hastray⟩
  · exact hsame
  · exact absurd hastray (not_readsAstray_of_isWellFormed hwf bytes)

/-- Both or neither of the checks of equivalent predicates come to an end. -/
lemma exists_findViolation_iff_of_equivalent (h : p.equivalent q = true) (bytes : Bytes) :
    (∃ outcome, p.findViolation bytes = .ok outcome) ↔
      ∃ outcome, q.findViolation bytes = .ok outcome := by
  rcases sameOutcome_or_of_equivalent h bytes with hsame | ⟨heq, -⟩
  · exact hsame.exists_eq_ok_iff
  · rw [heq]

/-- Equivalence is a relation of the kind that its name promises, between predicates that differ in
names only. Equivalent predicates are about equally many bytes, and if they are well-formed, of any
bytes a check of the one comes to the outcome that a check of the other comes to. If they are not, a
check may read bytes that it was not given, and then the other reads the same. Nor can equivalent
predicates be told apart by their shape: both or neither are taken to accept everything, or nothing,
and their valid sets are the same. -/
theorem equivalent_is_sound :
    (Equivalence fun p q : Predicate κ => p.equivalent q = true) ∧
    (∀ p q : Predicate κ, p.equivalent q = true ↔ p.anonymous = q.anonymous) ∧
    ∀ p q : Predicate κ, p.equivalent q = true →
      p.size = q.size ∧
      (p.isWellFormed →
        ∀ bytes, SameOutcome (p.findViolation bytes) (q.findViolation bytes)) ∧
      (∀ bytes, SameOutcome (p.findViolation bytes) (q.findViolation bytes) ∨
        p.findViolation bytes = q.findViolation bytes ∧ ReadsAstray (p.findViolation bytes)) ∧
      p.admitsAll = q.admitsAll ∧ p.admitsNone = q.admitsNone ∧ p.validSet = q.validSet := by
  refine ⟨equivalence_equivalent, fun p q => equivalent_iff, ?_⟩
  intro p q h
  have hnames := equivalent_iff.mp h
  refine ⟨size_eq_of_equivalent h, sameOutcome_of_isWellFormed h, sameOutcome_or_of_equivalent h,
    ?_, ?_, ?_⟩
  · rw [← admitsAll_anonymous p, hnames, admitsAll_anonymous]
  · rw [← admitsNone_anonymous p, hnames, admitsNone_anonymous]
  · rw [← validSet_anonymous p, hnames, validSet_anonymous]

/-- A byte that is not zero, under two names in an aggregate with two names. Its violation is the
same but for the name. -/
theorem equivalent_is_sound_renamed :
    let p : Predicate Empty := .allOf 2 "pair" [⟨0, .nonZero 1 "first" false, "a"⟩] none
    let q : Predicate Empty := .allOf 2 "couple" [⟨0, .nonZero 1 "left" false, "b"⟩] none
    p.equivalent q = true ∧ p.isWellFormed ∧
      SameOutcome (p.findViolation [0, 1]) (q.findViolation [0, 1]) ∧
      p.findViolation [0, 1] ≠ q.findViolation [0, 1] := by
  intro p q
  have hequivalent : p.equivalent q = true := by decide
  have hwf : p.isWellFormed := by decide
  obtain ⟨-, hsame, -⟩ := equivalent_is_sound.2.2 p q hequivalent
  exact ⟨hequivalent, hwf, hsame hwf [0, 1], by decide⟩

/-- A field behind the end of the bytes and a tag at the last offset. Each predicate is equivalent
to itself and is given as many bytes as it is about, but its check reads astray. -/
theorem not_sameOutcome_of_astray :
    let field : Predicate Empty := .allOf 1 "" [⟨5, .allValid 1 "", ""⟩] none
    let tag : Predicate Empty := .oneOf 2 "" (-1) .one false []
    (field.equivalent field = true ∧ ([0] : Bytes).length = field.size.toNat ∧
      field.findViolation [0] = .error (.strayRead 5 1 1) ∧
      ¬ SameOutcome (field.findViolation [0]) (field.findViolation [0])) ∧
    tag.equivalent tag = true ∧ ([0, 0] : Bytes).length = tag.size.toNat ∧
      tag.findViolation [0, 0] = .error (.strayRead (-1) 1 2) ∧
      ¬ SameOutcome (tag.findViolation [0, 0]) (tag.findViolation [0, 0]) := by
  intro field tag
  have hfield : field.findViolation [0] = .error (.strayRead 5 1 1) := by decide
  have htag : tag.findViolation [0, 0] = .error (.strayRead (-1) 1 2) := by decide
  exact ⟨⟨equivalent_refl field, rfl, hfield, fun h => h.not_readsAstray ⟨_, _, _, hfield⟩⟩,
    equivalent_refl tag, rfl, htag, fun h => h.not_readsAstray ⟨_, _, _, htag⟩⟩

end Predicate

end BitValidity
