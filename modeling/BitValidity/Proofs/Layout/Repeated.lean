import BitValidity.Proofs.Layout.Meaning

/-!
# Repeated fields

Fields of one type, placed one behind the other without a word on where. The size of the type is a
multiple of its alignment, so that nothing is rounded: each field begins where the one before it
ends (`Placed.map_offset`), the whole is as long as all of them together, and it is a value when
each of its stretches is (`Aggregate.IsTiledBy.accepts_iff`).
-/

namespace BitValidity

variable {κ : Type} {r : Registry κ} {fact : LayoutFact κ}

/-! ### Offsets -/

/-- Fields of one type follow each other without padding. -/
lemma Placed.map_offset {fields : List Field} {cursor : UInt64} {placed : List (PlacedField κ)}
    (hfields : ∀ field ∈ fields, field.offset? = none ∧ r.fact? field.type = some fact)
    (hpow : isPowerOfTwo fact.alignment = true)
    (hdvd : fact.alignment.toNat ∣ fact.size.toNat) (hcursor : fact.alignment.toNat ∣ cursor.toNat)
    (hroom : cursor.toNat + fields.length * fact.size.toNat < 2 ^ 64)
    (h : Placed r fields cursor placed) :
    placed.map (·.offset.toNat) =
      (List.range fields.length).map (cursor.toNat + · * fact.size.toNat) := by
  induction h with
  | nil cursor => rfl
  | @cons field known offset cursor rest placed hfact hoffset hrest ih =>
    obtain ⟨⟨hnone, hsame⟩, hfields⟩ := List.forall_mem_cons.mp hfields
    obtain rfl := Option.some.inj (hfact.symm.trans hsame)
    rw [List.length_cons, Nat.succ_mul] at hroom
    have hoffset : offset = cursor := by
      obtain ⟨-, hoffset⟩ := hoffset
      rw [hnone] at hoffset
      exact hoffset.trans (roundUp_eq_self hpow hcursor)
    subst hoffset
    have hstop : (offset + known.size).toNat = offset.toNat + known.size.toNat :=
      toNat_add_of_lt (by omega)
    rw [hstop] at ih
    rw [List.map_cons, ih hfields (Nat.dvd_add hcursor hdvd) (by omega), List.length_cons,
      List.range_succ_eq_map, List.map_cons, List.map_map]
    congr 1
    · simp
    · exact List.map_congr_left fun i _ => by simp only [Function.comp_apply, Nat.succ_mul]; omega

/-! ### Layouts -/

namespace Aggregate

variable {a : Aggregate κ} {layout : AggregateLayout κ}

/-- The aggregate is a sequence of fields of one type, and everything else is left out. -/
structure IsRepeated (r : Registry κ) (fact : LayoutFact κ) (a : Aggregate κ) : Prop where
  representation : a.representation = .sequential
  fields : ∀ field ∈ a.fields, field.offset? = none ∧ r.fact? field.type = some fact
  nonempty : a.fields ≠ []
  alignment : a.alignment? = none
  size : a.size? = none
  invariant : a.invariant? = none

namespace IsRepeated

variable {placed : List (PlacedField κ)}

lemma fact_eq (h : a.IsRepeated r fact) (hplaced : Placed r a.fields 0 placed)
    {p : PlacedField κ} (hp : p ∈ placed) : p.fact = fact :=
  Option.some.inj ((hplaced.fact_eq hp).symm.trans (h.fields _ (hplaced.field_mem hp)).2)

lemma length_pos (h : a.IsRepeated r fact) : 0 < a.fields.length :=
  List.length_pos_iff.mpr h.nonempty

lemma length_placed (hplaced : Placed r a.fields 0 placed) : placed.length = a.fields.length := by
  rw [← hplaced.map_field, List.length_map]

/-- The whole has the alignment of one field. -/
lemma strictestAlignment_eq (h : a.IsRepeated r fact) (hpow : isPowerOfTwo fact.alignment = true)
    (hplaced : Placed r a.fields 0 placed) : strictestAlignment 1 placed = fact.alignment := by
  have hmap : placed.map (·.fact.alignment.toNat) =
      List.replicate a.fields.length fact.alignment.toNat := by
    rw [← length_placed hplaced, ← List.map_const']
    exact List.map_congr_left fun p hp => by rw [h.fact_eq hplaced hp]
  rw [← UInt64.toNat_inj, strictestAlignment, toNat_foldl_max, hmap]
  refine (isGreatest_foldl_max _ _).unique ⟨.inr ?_, ?_⟩
  · exact List.mem_replicate.mpr ⟨h.length_pos.ne', rfl⟩
  · rintro n (rfl | hn)
    · exact toNat_pos_of_isPowerOfTwo hpow
    · exact (List.eq_of_mem_replicate hn).le

lemma map_offset (h : a.IsRepeated r fact) (hpow : isPowerOfTwo fact.alignment = true)
    (hdvd : fact.alignment.toNat ∣ fact.size.toNat)
    (hroom : a.fields.length * fact.size.toNat < 2 ^ 64) (hplaced : Placed r a.fields 0 placed) :
    placed.map (·.offset.toNat) = (List.range a.fields.length).map (· * fact.size.toNat) := by
  rw [hplaced.map_offset h.fields hpow hdvd (dvd_zero _) (by simpa using hroom)]
  simp

lemma offset_add_size_le (h : a.IsRepeated r fact) (hplaced : Placed r a.fields 0 placed)
    (hoffsets : placed.map (·.offset.toNat) =
      (List.range a.fields.length).map (· * fact.size.toNat))
    {p : PlacedField κ} (hp : p ∈ placed) :
    p.offset.toNat + p.fact.size.toNat ≤ a.fields.length * fact.size.toNat := by
  have hmem : p.offset.toNat ∈ placed.map (·.offset.toNat) := List.mem_map_of_mem hp
  rw [hoffsets, List.mem_map] at hmem
  obtain ⟨i, hi, heq⟩ := hmem
  rw [h.fact_eq hplaced hp, ← heq, ← Nat.succ_mul]
  exact Nat.mul_le_mul_right _ (List.mem_range.mp hi)

/-- The last field ends where all of them together do. -/
lemma toNat_lastStop (h : a.IsRepeated r fact)
    (hroom : a.fields.length * fact.size.toNat < 2 ^ 64) (hplaced : Placed r a.fields 0 placed)
    (hoffsets : placed.map (·.offset.toNat) =
      (List.range a.fields.length).map (· * fact.size.toNat)) :
    (lastStop 0 placed).toNat = a.fields.length * fact.size.toNat := by
  have hinside {p : PlacedField κ} (hp : p ∈ placed) := h.offset_add_size_le hplaced hoffsets hp
  have hstop {p : PlacedField κ} (hp : p ∈ placed) :
      p.stop.toNat = p.offset.toNat + p.fact.size.toNat :=
    PlacedField.toNat_stop ((hinside hp).trans_lt hroom)
  apply le_antisymm
  · exact lastStop_le_iff.mpr ⟨Nat.zero_le _, fun p hp => (hstop hp).trans_le (hinside hp)⟩
  · obtain ⟨n, hn⟩ := Nat.exists_eq_succ_of_ne_zero h.length_pos.ne'
    have hlast : n * fact.size.toNat ∈ placed.map (·.offset.toNat) := by
      rw [hoffsets, hn]
      exact List.mem_map_of_mem (List.mem_range.mpr n.lt_succ_self)
    obtain ⟨p, hp, hoffset⟩ := List.mem_map.mp hlast
    rw [hn, Nat.succ_mul, ← hoffset, ← h.fact_eq hplaced hp, ← hstop hp]
    exact le_foldl_max PlacedField.stop hp 0

end IsRepeated

/-- The fields of the layout all have the fact, and fill the whole one behind the other. -/
structure IsTiledBy (a : Aggregate κ) (fact : LayoutFact κ) (layout : AggregateLayout κ) :
    Prop where
  facts : ∀ p ∈ layout.fields, p.fact = fact
  offsets : layout.fields.map (·.offset.toNat) =
    (List.range a.fields.length).map (· * fact.size.toNat)
  inside : ∀ p ∈ layout.fields, p.offset.toNat + p.fact.size.toNat ≤ layout.fact.size.toNat
  size : layout.fact.size.toNat = a.fields.length * fact.size.toNat
  validity : layout.fact.validity =
    .allOf layout.fact.size a.name (layout.fields.map (·.check)) none

variable [Check κ]

theorem IsRepeated.isTiledBy (h : a.IsRepeated r fact) (hr : r.Consistent)
    (hdvd : fact.alignment.toNat ∣ fact.size.toNat)
    (hroom : a.fields.length * fact.size.toNat < 2 ^ 64) (hlayout : a.layout r = .ok layout) :
    a.IsTiledBy fact layout := by
  obtain ⟨-, hlayout⟩ | ⟨htransparent, -⟩ := layout_eq_ok_iff.mp hlayout
  · obtain ⟨placed, alignment, size, hplaced, -, halignment, hsize, -, rfl⟩ :=
      sequentialLayout_eq_ok_iff.mp hlayout
    obtain ⟨field, hfield⟩ := List.exists_mem_of_ne_nil _ h.nonempty
    have hpow := hr.aligned _ _ (h.fields field hfield).2
    have hoffsets := h.map_offset hpow hdvd hroom hplaced
    have hlast := h.toNat_lastStop hroom hplaced hoffsets
    -- neither the alignment nor the size of the whole is more than the fields need
    rw [h.alignment, h.strictestAlignment_eq hpow hplaced] at halignment
    obtain rfl : fact.alignment = alignment := Except.ok.inj halignment
    obtain ⟨-, ⟨-, rfl⟩ | ⟨hdeclared, -⟩⟩ := resolveSize_eq_ok_iff.mp hsize
    · rw [roundUp_eq_self hpow (hlast ▸ hdvd.mul_left _)]
      exact ⟨fun p hp => h.fact_eq hplaced hp, hoffsets,
        fun p hp => hlast ▸ h.offset_add_size_le hplaced hoffsets hp, hlast, by rw [h.invariant]⟩
    · cases h.size.symm.trans hdeclared
  · cases h.representation.symm.trans htransparent

namespace IsTiledBy

/-- The whole is a value when each stretch of it is that is as long as one field. -/
theorem accepts_iff (h : a.IsTiledBy fact layout) (hr : r.Consistent)
    (hfacts : ∀ p ∈ layout.fields, r.fact? p.field.type = some p.fact) {bytes : Bytes}
    (hlen : bytes.length = layout.fact.size.toNat) :
    layout.fact.validity.Accepts bytes ↔ ∀ i < a.fields.length,
      fact.validity.Accepts ((bytes.drop (i * fact.size.toNat)).take fact.size.toNat) := by
  have hfields : (∀ p ∈ layout.fields, p.IsValidIn bytes) ↔
      ∀ n ∈ layout.fields.map (·.offset.toNat),
        fact.validity.Accepts ((bytes.drop n).take fact.size.toNat) := by
    rw [List.forall_mem_map]
    refine forall₂_congr fun p hp => ?_
    rw [PlacedField.IsValidIn, h.facts p hp, Predicate.part]
  rw [h.validity, accepts_allOf_check_iff hr hfacts h.inside hlen, and_iff_left (by simp), hfields,
    h.offsets, List.forall_mem_map]
  simp only [List.mem_range]

omit [Check κ] in
lemma admitsNone_eq_false (h : a.IsTiledBy fact layout) (hsome : fact.validity.admitsNone = false) :
    layout.fact.validity.admitsNone = false := by
  rw [h.validity, Predicate.admitsNone, Predicate.someFieldAdmitsNone_eq, List.any_map,
    List.any_eq_false]
  intro p hp
  simpa [PlacedField.check, h.facts p hp] using hsome

end IsTiledBy

end Aggregate

end BitValidity
