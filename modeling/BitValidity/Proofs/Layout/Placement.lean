import BitValidity.Layout.Fit
import BitValidity.Proofs.Layout.Overlap
import BitValidity.Proofs.Registry.Writes

/-!
# Placed fields

`Placed r fields cursor placed` says that `placed` is what the placement of fields comes to: it
holds exactly when `placeFields` succeeds with `placed`, and does not mention the ways in which a
placement fails. Whether the sums of a placement wrap can be told from where the fields end: they do
not when every field ends, in unbounded arithmetic, before the last multiple of all alignments.
-/

namespace BitValidity

variable {κ : Type} {r : Registry κ}

/-! ### Sums of words -/

@[simp] lemma sumFits_iff {a b : UInt64} : sumFits a b = true ↔ a.toNat + b.toNat < 2 ^ 64 := by
  simp [sumFits]

@[simp] lemma roundUpFits_iff {n alignment : UInt64} :
    roundUpFits n alignment = true ↔ n.toNat + alignment.toNat ≤ 2 ^ 64 := by
  simp [roundUpFits]

/-! ### Facts of fields -/

@[simp] lemma Registry.fieldFact_eq_ok_iff {owner : String} {field : Field}
    {fact : LayoutFact κ} :
    r.fieldFact owner field = .ok fact ↔ r.fact? field.type = some fact := by
  simp [fieldFact]

/-- A field is at the offset that is given for it, or else at the first one where it is aligned. -/
def Field.IsAt (field : Field) (alignment cursor offset : UInt64) : Prop :=
  alignment ≠ 0 ∧
    match field.offset? with
    | none => offset = roundUp cursor alignment
    | some given => offset = given ∧ alignment.toNat ∣ offset.toNat

lemma Field.place_eq_ok_iff {field : Field} {owner : String} {alignment cursor offset : UInt64} :
    field.place owner alignment cursor = .ok offset ↔ field.IsAt alignment cursor offset := by
  simp only [place, IsAt]
  cases field.offset? with
  | none =>
    simp only [bind_eq_ok_iff, pure_eq_ok_iff, liftM_breach_eq_ok_iff, divisor_eq_ok_iff, and_assoc,
      exists_and_left, exists_eq_left', eq_comm (a := offset)]
  | some given =>
    have hdvd : given % alignment ≠ 0 ↔ ¬ alignment.toNat ∣ given.toNat := by
      rw [ne_eq, ← UInt64.toNat_inj, UInt64.toNat_mod, Nat.dvd_iff_mod_eq_zero]
      rfl
    simp only [bind_eq_ok_iff, liftM_breach_eq_ok_iff, divisor_eq_ok_iff, and_assoc,
      exists_and_left, exists_eq_left', hdvd]
    split
    · simp_all
    · aesop

lemma Field.IsAt.dvd {field : Field} {alignment cursor offset : UInt64}
    (h : field.IsAt alignment cursor offset) : alignment.toNat ∣ offset.toNat := by
  obtain ⟨-, h⟩ := h
  split at h
  · rw [h]
    exact dvd_roundUp cursor alignment
  · exact h.2

lemma Field.IsAt.getD_eq {field : Field} {alignment cursor offset : UInt64}
    (h : field.IsAt alignment cursor offset) :
    field.offset?.getD (roundUp cursor alignment) = offset := by
  obtain ⟨-, h⟩ := h
  cases hgiven : field.offset? <;> simp_all

lemma Field.IsAt.pos {field : Field} {alignment cursor offset : UInt64}
    (h : field.IsAt alignment cursor offset) : 0 < alignment.toNat := by
  rw [Nat.pos_iff_ne_zero]
  exact fun hzero => h.1 (UInt64.toNat_inj.mp hzero)

/-- The sums that must not wrap where a field is placed. -/
lemma fieldsFit_cons_iff {field : Field} {fact : LayoutFact κ} {cursor offset : UInt64}
    {rest : List Field} (hfact : r.fact? field.type = some fact)
    (hoffset : field.IsAt fact.alignment cursor offset) :
    fieldsFit r (field :: rest) cursor = true ↔
      (field.offset?.isSome = true ∨ cursor.toNat + fact.alignment.toNat ≤ 2 ^ 64) ∧
        offset.toNat + fact.size.toNat < 2 ^ 64 ∧ fieldsFit r rest (offset + fact.size) = true := by
  simp only [fieldsFit, hfact, hoffset.getD_eq, Bool.and_eq_true, Bool.or_eq_true, sumFits_iff,
    roundUpFits_iff, and_assoc]

/-! ### Placements -/

/-- The fields are placed one behind the other from the cursor on. -/
inductive Placed (r : Registry κ) : List Field → UInt64 → List (PlacedField κ) → Prop where
  | nil (cursor : UInt64) : Placed r [] cursor []
  | cons {field : Field} {fact : LayoutFact κ} {offset cursor : UInt64} {rest : List Field}
      {placed : List (PlacedField κ)} (hfact : r.fact? field.type = some fact)
      (hoffset : field.IsAt fact.alignment cursor offset)
      (hrest : Placed r rest (offset + fact.size) placed) :
      Placed r (field :: rest) cursor (⟨field, fact, offset⟩ :: placed)

theorem placeFields_eq_ok_iff {owner : String} {fields : List Field} {cursor : UInt64}
    {placed : List (PlacedField κ)} :
    placeFields r owner fields cursor = .ok placed ↔ Placed r fields cursor placed := by
  induction fields generalizing cursor placed with
  | nil =>
    simp only [placeFields, Except.ok.injEq]
    constructor
    · rintro rfl
      exact .nil cursor
    · intro h
      cases h
      rfl
  | cons field rest ih =>
    simp only [placeFields, bind_eq_ok_iff, pure_eq_ok_iff, liftM_error_eq_ok_iff,
      Registry.fieldFact_eq_ok_iff, Field.place_eq_ok_iff, ih]
    constructor
    · rintro ⟨fact, hfact, offset, hoffset, placed, hrest, rfl⟩
      exact .cons hfact hoffset hrest
    · rintro (_ | ⟨hfact, hoffset, hrest⟩)
      exact ⟨_, hfact, _, hoffset, _, hrest, rfl⟩

namespace Placed

variable {fields : List Field} {cursor : UInt64} {placed : List (PlacedField κ)}

/-- A placement depends on the facts of its fields alone. -/
lemma mono {r' : Registry κ} (hle : ∀ type fact, r.fact? type = some fact →
    r'.fact? type = some fact) (h : Placed r fields cursor placed) :
    Placed r' fields cursor placed := by
  induction h with
  | nil cursor => exact .nil cursor
  | cons hfact hoffset hrest ih => exact .cons (hle _ _ hfact) hoffset ih

lemma map_field (h : Placed r fields cursor placed) : placed.map (·.field) = fields := by
  induction h with
  | nil cursor => rfl
  | cons hfact hoffset hrest ih => simp [ih]

/-- What is placed is one of the fields, with its fact, at some cursor. -/
lemma of_mem (h : Placed r fields cursor placed) {p : PlacedField κ} (hp : p ∈ placed) :
    p.field ∈ fields ∧ r.fact? p.field.type = some p.fact ∧
      ∃ cursor, p.field.IsAt p.fact.alignment cursor p.offset := by
  induction h with
  | nil cursor => cases hp
  | cons hfact hoffset hrest ih =>
    rcases List.mem_cons.mp hp with rfl | hp
    · exact ⟨List.mem_cons_self, hfact, _, hoffset⟩
    · obtain ⟨hfield, hspec⟩ := ih hp
      exact ⟨List.mem_cons_of_mem _ hfield, hspec⟩

lemma field_mem (h : Placed r fields cursor placed) {p : PlacedField κ} (hp : p ∈ placed) :
    p.field ∈ fields :=
  (h.of_mem hp).1

lemma fact_eq (h : Placed r fields cursor placed) {p : PlacedField κ} (hp : p ∈ placed) :
    r.fact? p.field.type = some p.fact :=
  (h.of_mem hp).2.1

lemma dvd_offset (h : Placed r fields cursor placed) {p : PlacedField κ} (hp : p ∈ placed) :
    p.fact.alignment.toNat ∣ p.offset.toNat := by
  obtain ⟨-, -, cursor, hoffset⟩ := h.of_mem hp
  exact hoffset.dvd

/-- Where no sum wraps, every field ends where it does in unbounded arithmetic. -/
lemma sumFits_of_fieldsFit (h : Placed r fields cursor placed)
    (hfits : fieldsFit r fields cursor = true) :
    ∀ p ∈ placed, p.offset.toNat + p.fact.size.toNat < 2 ^ 64 := by
  induction h with
  | nil cursor => simp
  | @cons field fact offset cursor rest placed hfact hoffset hrest ih =>
    obtain ⟨-, hsum, hrest⟩ := (fieldsFit_cons_iff hfact hoffset).mp hfits
    exact List.forall_mem_cons.mpr ⟨hsum, ih hrest⟩

/-- No sum wraps when the fields end, in unbounded arithmetic, before a word that every alignment
can be added to. -/
lemma fieldsFit_of_le (h : Placed r fields cursor placed) {total : ℕ}
    (hcursor : cursor.toNat ≤ total)
    (hplaced : ∀ p ∈ placed, p.offset.toNat + p.fact.size.toNat ≤ total ∧
      total + p.fact.alignment.toNat ≤ 2 ^ 64)
    (htotal : total < 2 ^ 64) : fieldsFit r fields cursor = true := by
  induction h with
  | nil cursor => rfl
  | @cons field fact offset cursor rest placed hfact hoffset hrest ih =>
    obtain ⟨⟨hstop, hroom⟩, hplaced⟩ := List.forall_mem_cons.mp hplaced
    simp only at hstop hroom
    have hsum : (offset + fact.size).toNat = offset.toNat + fact.size.toNat :=
      toNat_add_of_lt (by omega)
    exact (fieldsFit_cons_iff hfact hoffset).mpr
      ⟨.inr (by omega), by omega, ih (by omega) hplaced⟩

end Placed

/-! ### Placed fields in another order -/

section

variable {fields fields' : List (PlacedField κ)}

lemma strictestAlignment_perm (hperm : fields'.Perm fields) (least : UInt64) :
    strictestAlignment least fields' = strictestAlignment least fields :=
  foldl_max_perm (fun p : PlacedField κ => p.fact.alignment) hperm least

lemma lastStop_perm (hperm : fields'.Perm fields) (least : UInt64) :
    lastStop least fields' = lastStop least fields :=
  foldl_max_perm PlacedField.stop hperm least

/-- Which neighbours are compared does not matter where no field wraps. -/
lemma checkOverlap_perm (hperm : fields'.Perm fields)
    (hsums : ∀ p ∈ fields, p.offset.toNat + p.fact.size.toNat < 2 ^ 64) {owner : String} :
    checkOverlap owner (fields'.map (·.extent)) = .ok () ↔
      checkOverlap owner (fields.map (·.extent)) = .ok () := by
  have hsums' : ∀ p ∈ fields', p.offset.toNat + p.fact.size.toNat < 2 ^ 64 :=
    fun p hp => hsums p (hperm.mem_iff.mp hp)
  rw [checkOverlap_eq_ok_iff (List.forall_mem_map.mpr hsums'),
    checkOverlap_eq_ok_iff (List.forall_mem_map.mpr hsums)]
  exact (hperm.map _).pairwise_iff Extent.Disjoint.symm

end

end BitValidity
