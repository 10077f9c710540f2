import BitValidity.Proofs.Layout.Containment

/-!
# Spans of fields

Where fields lie that are placed one behind the other is a matter of integers: each begins where its
description says, or else at the first offset from the end of the one before where it is aligned.
`spans` computes this in unbounded arithmetic, with no test on the way. A placement in words comes
to the same as long as no sum wraps (`Placed.spans_eq`).
-/

namespace BitValidity

variable {κ : Type} {r : Registry κ}

/-! ### Spans -/

/-- The bytes of a field, and the alignment of its type. -/
structure Span where
  offset : ℕ
  size : ℕ
  alignment : ℕ

namespace Span

/-- The offset behind the bytes. -/
def stop (s : Span) : ℕ := s.offset + s.size

def Occupies (s : Span) (i : ℕ) : Prop := s.offset ≤ i ∧ i < s.stop

/-- No byte lies in both. -/
def Disjoint (s t : Span) : Prop := ∀ i, ¬ (s.Occupies i ∧ t.Occupies i)

end Span

def PlacedField.span (p : PlacedField κ) : Span :=
  ⟨p.offset.toNat, p.fact.size.toNat, p.fact.alignment.toNat⟩

/-- The spans of fields that are placed from `cursor` on. A field of a type without a fact ends the
placement. -/
def spans (r : Registry κ) : List Field → ℕ → List Span
  | [], _ => []
  | field :: rest, cursor =>
    match r.fact? field.type with
    | none => []
    | some fact =>
      let offset := (field.offset?.map (·.toNat)).getD (leastMultiple fact.alignment.toNat cursor)
      ⟨offset, fact.size.toNat, fact.alignment.toNat⟩ :: spans r rest (offset + fact.size.toNat)

/-! ### Placements -/

lemma Field.exists_isAt_iff {field : Field} {alignment : UInt64} (halignment : alignment ≠ 0)
    (cursor : UInt64) :
    (∃ offset, field.IsAt alignment cursor offset) ↔
      ∀ offset ∈ field.offset?, alignment.toNat ∣ offset.toNat := by
  simp only [IsAt]
  cases field.offset? with
  | none => simp [halignment]
  | some given => simp [halignment]

/-- Fields can be placed when there are facts for them and those are aligned that have an offset. -/
lemma exists_placed_iff (hr : r.Consistent) {fields : List Field} {cursor : UInt64} :
    (∃ placed, Placed r fields cursor placed) ↔
      ∀ field ∈ fields, ∃ fact, r.fact? field.type = some fact ∧
        ∀ offset ∈ field.offset?, fact.alignment.toNat ∣ offset.toNat := by
  induction fields generalizing cursor with
  | nil => exact iff_of_true ⟨[], .nil cursor⟩ nofun
  | cons field rest ih =>
    rw [List.forall_mem_cons]
    constructor
    · rintro ⟨_, hplaced⟩
      obtain _ | ⟨hfact, hoffset, hrest⟩ := hplaced
      exact ⟨⟨_, hfact, (Field.exists_isAt_iff hoffset.1 cursor).mp ⟨_, hoffset⟩⟩, ih.mp ⟨_, hrest⟩⟩
    · rintro ⟨⟨fact, hfact, haligned⟩, hrest⟩
      have hne := ne_zero_of_isPowerOfTwo (hr.aligned _ _ hfact)
      obtain ⟨offset, hoffset⟩ := (Field.exists_isAt_iff hne cursor).mpr haligned
      obtain ⟨placed, hrest⟩ := ih.mpr hrest
      exact ⟨_, .cons hfact hoffset hrest⟩

/-- The offset of a field is that of unbounded arithmetic if rounding up to it does not wrap. -/
lemma Field.IsAt.toNat_eq {field : Field} {alignment cursor offset : UInt64}
    (h : field.IsAt alignment cursor offset)
    (hfits : field.offset?.isSome = true ∨ cursor.toNat + alignment.toNat ≤ 2 ^ 64) :
    (field.offset?.map (·.toNat)).getD (leastMultiple alignment.toNat cursor.toNat) =
      offset.toNat := by
  have hpos := h.pos
  obtain ⟨-, h⟩ := h
  cases hgiven : field.offset? with
  | none =>
    rw [hgiven] at h hfits
    rw [h, toNat_roundUp hpos (hfits.resolve_left nofun)]
    rfl
  | some given =>
    rw [hgiven] at h
    rw [h.1]
    rfl

namespace Placed

variable {fields : List Field} {cursor : UInt64} {placed : List (PlacedField κ)}

/-- Where no sum wraps, the fields are placed where they lie in unbounded arithmetic. -/
theorem spans_eq (h : Placed r fields cursor placed) (hfits : fieldsFit r fields cursor = true) :
    spans r fields cursor.toNat = placed.map (·.span) := by
  induction h with
  | nil cursor => rfl
  | @cons field fact offset cursor rest placed hfact hoffset hrest ih =>
    obtain ⟨hround, hsum, hrest⟩ := (fieldsFit_cons_iff hfact hoffset).mp hfits
    have hstop := toNat_add_of_lt hsum
    rw [spans, hfact]
    simp only [hoffset.toNat_eq hround]
    rw [← hstop, ih hrest]
    rfl

end Placed

/-- Where the last of the fields ends, or `start` if there is none. -/
def endOf (start : ℕ) (placed : List (PlacedField κ)) : ℕ :=
  (placed.getLast?.map (·.span.stop)).getD start

lemma endOf_cons (start : ℕ) (p : PlacedField κ) (placed : List (PlacedField κ)) :
    endOf start (p :: placed) = endOf p.span.stop placed := by
  rw [endOf, endOf, List.getLast?_cons, Option.map_some, Option.getD_some]
  cases placed.getLast? <;> rfl

namespace Placed

variable {fields : List Field} {cursor : UInt64} {placed : List (PlacedField κ)}

lemma offset_eq (h : Placed r fields cursor placed) {p : PlacedField κ} (hp : p ∈ placed) :
    ∀ offset ∈ p.field.offset?, p.offset = offset := by
  obtain ⟨-, -, cursor, -, hoffset⟩ := h.of_mem hp
  intro offset hgiven
  rw [Option.mem_def] at hgiven
  rw [hgiven] at hoffset
  exact hoffset.1

/-- Where no sum wraps, a field without an offset is placed at the first one, from the end of the
field before it, where it is aligned. -/
theorem isLeast_offset (h : Placed r fields cursor placed)
    (hfits : fieldsFit r fields cursor = true) {before after : List (PlacedField κ)}
    {p : PlacedField κ} (heq : placed = before ++ p :: after) (hnone : p.field.offset? = none) :
    IsLeast {n | endOf cursor.toNat before ≤ n ∧ p.fact.alignment.toNat ∣ n} p.offset.toNat := by
  induction h generalizing before with
  | nil cursor => simp at heq
  | @cons field fact offset cursor rest placed hfact hoffset hrest ih =>
    obtain ⟨hround, hsum, hrest⟩ := (fieldsFit_cons_iff hfact hoffset).mp hfits
    cases before with
    | nil =>
      obtain ⟨rfl, -⟩ := List.cons.inj heq
      have hnat := hoffset.toNat_eq hround
      rw [hnone, Option.map_none, Option.getD_none] at hnat
      rw [← hnat]
      exact isLeast_leastMultiple hoffset.pos _
    | cons first before =>
      obtain ⟨rfl, htail⟩ := List.cons.inj heq
      have ih := ih hrest htail
      rw [toNat_add_of_lt hsum] at ih
      rw [endOf_cons]
      exact ih

end Placed

end BitValidity
