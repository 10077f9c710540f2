import BitValidity.Predicate.Extremes
import BitValidity.Proofs.Predicate.Acceptance

/-!
# Predicates that accept nothing

`admitsNone` looks at the shape of a predicate alone, and what it says is right: a predicate that is
taken to accept nothing does accept nothing, well-formed or not (`not_accepts_of_admitsNone`). The
converse is a matter of the parts. An invariant is not looked at, nor is a custom check, and a range
may hold no integer.
-/

namespace BitValidity

namespace Predicate

variable {κ : Type} [Check κ]

/-- Some bytes are a value. -/
def HasValue (p : Predicate κ) : Prop := ∃ bytes, p.Accepts bytes

/-- A predicate that is taken to accept nothing accepts nothing. -/
theorem not_accepts_of_admitsNone {p : Predicate κ} (h : p.admitsNone = true) {bytes : Bytes} :
    ¬ p.Accepts bytes := by
  induction p using Predicate.induct generalizing bytes with
  | allValid size d => cases h
  | noneValid size d => exact not_accepts_noneValid
  | nonZero size d pointer =>
    obtain rfl : size = 0 := by simpa [admitsNone] using h
    intro haccepts
    obtain ⟨hlen, b, hb, -⟩ := accepts_nonZero_iff.mp haccepts
    obtain rfl : bytes = [] := List.length_eq_zero_iff.mp hlen
    cases hb
  | intRanges width signed ranges d =>
    obtain rfl : ranges = [] := by simpa [admitsNone] using h
    intro haccepts
    obtain ⟨-, r, hr, -⟩ := accepts_intRanges_iff.mp haccepts
    cases hr
  | custom size d check => cases h
  | allOf size d fields invariant ihfields ihinvariant =>
    simp only [admitsNone, someFieldAdmitsNone_eq, List.any_eq_true] at h
    obtain ⟨field, hfield, h⟩ := h
    intro haccepts
    exact ihfields field hfield h ((accepts_allOf_iff.mp haccepts).2.1 field hfield).2
  | oneOf size d offset width signed variants ih =>
    simp only [admitsNone, variantsAdmitNone_eq, List.all_eq_true] at h
    intro haccepts
    obtain ⟨variant, hvariant, haccepts⟩ := exists_accepts_of_oneOf haccepts
    exact ih variant hvariant (h variant hvariant) haccepts
  | passthrough d inner ih =>
    intro haccepts
    exact ih h (accepts_passthrough_iff.mp haccepts)

lemma HasValue.admitsNone_eq {p : Predicate κ} (h : p.HasValue) : p.admitsNone = false := by
  obtain ⟨bytes, hbytes⟩ := h
  by_contra hnone
  exact not_accepts_of_admitsNone (Bool.not_eq_false _ ▸ hnone) hbytes

end Predicate

end BitValidity
