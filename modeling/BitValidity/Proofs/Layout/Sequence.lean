import BitValidity.Proofs.Layout.Spans
import BitValidity.Proofs.Registry.Safety

/-!
# Sequential layout

Which sequential aggregates have a layout, and what it is, without words and without the order in
which the tests are made. In unbounded arithmetic the spans of the fields settle both: an aggregate
is laid out exactly when its description is one that makes sense (`IsLayable`), and then every
offset that is left out, the alignment and the size are the least that will do (`IsLaidOut`).
-/

namespace BitValidity

variable {κ : Type} {r : Registry κ}

namespace Aggregate

variable {a : Aggregate κ} {layout : AggregateLayout κ}

/-! ### The whole -/

/-- The strictest alignment of a field, raised to what is requested. -/
def wholeAlignment (r : Registry κ) (a : Aggregate κ) : ℕ :=
  max (((spans r a.fields 0).map (·.alignment)).foldl max 1)
    ((a.alignment?.map (·.toNat)).getD 1)

/-- The declared size, or else the least multiple of the alignment that no field ends behind. -/
def wholeSize (r : Registry κ) (a : Aggregate κ) : ℕ :=
  (a.size?.map (·.toNat)).getD
    (leastMultiple (a.wholeAlignment r) (((spans r a.fields 0).map (·.stop)).foldl max 0))

lemma wholeAlignment_pos (r : Registry κ) (a : Aggregate κ) : 0 < a.wholeAlignment r := by
  have hleast : 1 ≤ ((spans r a.fields 0).map (·.alignment)).foldl max 1 :=
    (isGreatest_foldl_max _ _).2 (.inl rfl)
  exact hleast.trans (le_max_left _ _)

/-- The description of the aggregate makes sense. -/
structure IsLayable (r : Registry κ) (a : Aggregate κ) : Prop where
  /-- There is a fact for each field, and an offset that is given is one where it is aligned. -/
  fields : ∀ field ∈ a.fields, ∃ fact, r.fact? field.type = some fact ∧
    ∀ offset ∈ field.offset?, fact.alignment.toNat ∣ offset.toNat
  disjoint : (spans r a.fields 0).Pairwise Span.Disjoint
  requested : ∀ alignment ∈ a.alignment?, ∃ k, alignment.toNat = 2 ^ k
  declared : ∀ size ∈ a.size?,
    (∀ s ∈ spans r a.fields 0, s.stop ≤ size.toNat) ∧ a.wholeAlignment r ∣ size.toNat
  invariant : ∀ p ∈ a.invariant?, p.size.toNat = a.wholeSize r

/-! ### Tests -/

section

variable {fields : List (PlacedField κ)}

lemma checkOverlap_spans_iff (hspans : spans r a.fields 0 = fields.map (·.span))
    (hfits : ∀ p ∈ fields, p.offset.toNat + p.fact.size.toNat < 2 ^ 64) :
    checkOverlap a.name (fields.map (·.extent)) = .ok () ↔
      (spans r a.fields 0).Pairwise Span.Disjoint := by
  rw [checkOverlap_eq_ok_iff (List.forall_mem_map.mpr hfits), hspans, List.pairwise_map,
    List.pairwise_map]
  rfl

lemma toNat_strictestAlignment (hspans : spans r a.fields 0 = fields.map (·.span)) :
    (max (strictestAlignment 1 fields) (a.alignment?.getD 1)).toNat = a.wholeAlignment r := by
  rw [toNat_max, strictestAlignment, toNat_foldl_max, wholeAlignment, hspans, List.map_map]
  cases a.alignment? <;> rfl

lemma toNat_lastStop (hspans : spans r a.fields 0 = fields.map (·.span))
    (hfits : ∀ p ∈ fields, p.offset.toNat + p.fact.size.toNat < 2 ^ 64) :
    (lastStop 0 fields).toNat = ((spans r a.fields 0).map (·.stop)).foldl max 0 := by
  have hstop : fields.map (fun p => p.stop.toNat) = fields.map (fun p => p.span.stop) :=
    List.map_congr_left fun p hp => PlacedField.toNat_stop (hfits p hp)
  rw [lastStop, toNat_foldl_max, hstop, hspans, List.map_map]
  rfl

lemma resolveAlignment_spans_iff (hr : r.Consistent) (hplaced : Placed r a.fields 0 fields)
    {alignment : UInt64} :
    resolveAlignment a.name a.alignment? (strictestAlignment 1 fields) = .ok alignment ↔
      (∀ n ∈ a.alignment?, ∃ k, n.toNat = 2 ^ k) ∧
        alignment = max (strictestAlignment 1 fields) (a.alignment?.getD 1) := by
  have hnatural := isPowerOfTwo_strictestAlignment hr hplaced
  have hrequested : isPowerOfTwo (a.alignment?.getD 1) = true ↔
      ∀ n ∈ a.alignment?, ∃ k, n.toNat = 2 ^ k := by
    cases a.alignment? with
    | none => exact iff_of_true rfl nofun
    | some requested => simp [isPowerOfTwo_iff]
  rw [resolveAlignment_eq_ok_iff (toNat_pos_of_isPowerOfTwo hnatural), hrequested]

variable {alignment : UInt64}

/-- With the alignment of the whole, a size is found unless the declared one makes no sense. -/
lemma resolveSize_spans_iff (hspans : spans r a.fields 0 = fields.map (·.span))
    (hfits : ∀ p ∈ fields, p.offset.toNat + p.fact.size.toNat < 2 ^ 64)
    (halignment : alignment.toNat = a.wholeAlignment r) {size : UInt64} :
    resolveSize a.name a.size? (lastStop 0 fields) alignment fields = .ok size ↔
      (∀ declared ∈ a.size?, (∀ s ∈ spans r a.fields 0, s.stop ≤ declared.toNat) ∧
          a.wholeAlignment r ∣ declared.toNat) ∧
        size = a.size?.getD (roundUp (lastStop 0 fields) alignment) := by
  have hstop (n : ℕ) : (∀ p ∈ fields, p.stop.toNat ≤ n) ↔ ∀ s ∈ spans r a.fields 0, s.stop ≤ n := by
    rw [hspans, List.forall_mem_map]
    exact forall₂_congr fun p hp => by rw [PlacedField.toNat_stop (hfits p hp)]; rfl
  have hne : alignment ≠ 0 := by
    rintro rfl
    exact (a.wholeAlignment_pos r).ne halignment
  rw [resolveSize_eq_ok_iff, and_iff_right hne, ← halignment]
  cases a.size? with
  | none => simp
  | some declared =>
    have hlast (n : ℕ) (h : ∀ p ∈ fields, p.stop.toNat ≤ n) : (lastStop 0 fields).toNat ≤ n :=
      lastStop_le_iff.mpr ⟨Nat.zero_le n, h⟩
    simp only [reduceCtorEq, false_and, false_or, Option.some.injEq, Option.mem_def, forall_eq',
      Option.getD_some]
    constructor
    · rintro ⟨rfl, hall, -, hdvd⟩
      exact ⟨⟨(hstop _).mp hall, hdvd⟩, rfl⟩
    · rintro ⟨⟨hall, hdvd⟩, rfl⟩
      have hall := (hstop _).mpr hall
      exact ⟨rfl, hall, hlast _ hall, hdvd⟩

lemma toNat_size (hspans : spans r a.fields 0 = fields.map (·.span))
    (hfits : ∀ p ∈ fields, p.offset.toNat + p.fact.size.toNat < 2 ^ 64)
    (halignment : alignment.toNat = a.wholeAlignment r)
    (hsize : sizeFits a.size? (lastStop 0 fields) alignment = true) :
    (a.size?.getD (roundUp (lastStop 0 fields) alignment)).toNat = a.wholeSize r := by
  rw [wholeSize, ← toNat_lastStop hspans hfits, ← halignment]
  rw [sizeFits] at hsize
  cases hdeclared : a.size? with
  | none =>
    rw [hdeclared] at hsize
    exact toNat_roundUp (halignment ▸ a.wholeAlignment_pos r) (roundUpFits_iff.mp hsize)
  | some declared => rfl

lemma fieldsFit_of_sumsFit (hfits : a.sumsFit r = true) (hplaced : Placed r a.fields 0 fields) :
    fieldsFit r a.fields 0 = true := by
  simp only [sumsFit, placeFields_eq_ok_iff.mpr hplaced, Bool.and_eq_true] at hfits
  exact hfits.1

lemma sizeFits_of_sumsFit (hfits : a.sumsFit r = true) (hplaced : Placed r a.fields 0 fields)
    (hoverlap : checkOverlap a.name (fields.map (·.extent)) = .ok ())
    (halignment : resolveAlignment a.name a.alignment? (strictestAlignment 1 fields) =
      .ok alignment) :
    sizeFits a.size? (lastStop 0 fields) alignment = true := by
  simp only [sumsFit, placeFields_eq_ok_iff.mpr hplaced, hoverlap, halignment,
    Bool.and_eq_true] at hfits
  exact hfits.2

end

/-! ### Layouts -/

/-- A sequential layout has the spans, the alignment and the size of the whole, and there is none
unless the description makes sense. -/
lemma spec_of_sequentialLayout (hr : r.Consistent) (hfits : a.sumsFit r = true)
    (h : a.sequentialLayout r = .ok layout) :
    a.IsLayable r ∧ layout.fields.map (·.span) = spans r a.fields 0 ∧
      layout.fact.alignment.toNat = a.wholeAlignment r ∧
      layout.fact.size.toNat = a.wholeSize r := by
  obtain ⟨fields, alignment, size, hplaced, hoverlap, halignment, hsize, hinvariant, rfl⟩ :=
    sequentialLayout_eq_ok_iff.mp h
  have hfieldsFit := fieldsFit_of_sumsFit hfits hplaced
  have hsizeFits := sizeFits_of_sumsFit hfits hplaced hoverlap halignment
  have hspans := hplaced.spans_eq hfieldsFit
  have hnowrap := hplaced.sumFits_of_fieldsFit hfieldsFit
  obtain ⟨hrequested, rfl⟩ := (resolveAlignment_spans_iff hr hplaced).mp halignment
  have hwhole := toNat_strictestAlignment hspans
  obtain ⟨hdeclared, rfl⟩ := (resolveSize_spans_iff hspans hnowrap hwhole).mp hsize
  have hwholeSize := toNat_size hspans hnowrap hwhole hsizeFits
  have hdisjoint := (checkOverlap_spans_iff hspans hnowrap).mp hoverlap
  refine ⟨⟨(exists_placed_iff hr).mp ⟨_, hplaced⟩, hdisjoint, hrequested, hdeclared, ?_⟩,
    hspans.symm, hwhole, hwholeSize⟩
  intro p hp
  rw [checkInvariant_eq_ok_iff.mp hinvariant p hp, hwholeSize]

lemma exists_sequentialLayout (hr : r.Consistent) (hfits : a.sumsFit r = true)
    (h : a.IsLayable r) : ∃ layout, a.sequentialLayout r = .ok layout := by
  obtain ⟨fields, hplaced⟩ := (exists_placed_iff hr).mpr h.fields
  have hfieldsFit := fieldsFit_of_sumsFit hfits hplaced
  have hspans := hplaced.spans_eq hfieldsFit
  have hnowrap := hplaced.sumFits_of_fieldsFit hfieldsFit
  have hoverlap := (checkOverlap_spans_iff hspans hnowrap).mpr h.disjoint
  have halignment := (resolveAlignment_spans_iff hr hplaced).mpr ⟨h.requested, rfl⟩
  have hwhole := toNat_strictestAlignment hspans
  have hsize := (resolveSize_spans_iff hspans hnowrap hwhole).mpr ⟨h.declared, rfl⟩
  have hsizeFits := sizeFits_of_sumsFit hfits hplaced hoverlap halignment
  have hinvariant := checkInvariant_eq_ok_iff.mpr fun p hp => UInt64.toNat_inj.mp <| by
    rw [h.invariant p hp, toNat_size hspans hnowrap hwhole hsizeFits]
  exact ⟨_, sequentialLayout_eq_ok_iff.mpr
    ⟨fields, _, _, hplaced, hoverlap, halignment, hsize, hinvariant, rfl⟩⟩

/-- The layout of the aggregate by the rules. What is left out in the description is the least that
will do. -/
structure IsLaidOut (r : Registry κ) (a : Aggregate κ) (layout : AggregateLayout κ) : Prop where
  fields : layout.fields.map (·.field) = a.fields
  facts : ∀ p ∈ layout.fields, r.fact? p.field.type = some p.fact
  given : ∀ p ∈ layout.fields, ∀ offset ∈ p.field.offset?, p.offset = offset
  /-- Fields without an offset follow the field before them. -/
  omitted : ∀ before p after, layout.fields = before ++ p :: after → p.field.offset? = none →
    IsLeast {n | endOf 0 before ≤ n ∧ p.fact.alignment.toNat ∣ n} p.offset.toNat
  alignment : IsGreatest {n | n = 1 ∨ (∃ p ∈ layout.fields, p.fact.alignment.toNat = n) ∨
    ∃ requested ∈ a.alignment?, requested.toNat = n} layout.fact.alignment.toNat
  declaredSize : ∀ size ∈ a.size?, layout.fact.size = size
  omittedSize : a.size? = none → IsLeast
    {n | (∀ p ∈ layout.fields, p.offset.toNat + p.fact.size.toNat ≤ n) ∧
      layout.fact.alignment.toNat ∣ n} layout.fact.size.toNat
  name : layout.fact.name = a.name
  validity : layout.fact.validity =
    .allOf layout.fact.size a.name (layout.fields.map (·.check)) a.invariant?

lemma isGreatest_wholeAlignment (hspans : layout.fields.map (·.span) = spans r a.fields 0) :
    IsGreatest {n | n = 1 ∨ (∃ p ∈ layout.fields, p.fact.alignment.toNat = n) ∨
      ∃ requested ∈ a.alignment?, requested.toNat = n} (a.wholeAlignment r) := by
  obtain ⟨hmem, hupper⟩ := isGreatest_foldl_max 1 ((spans r a.fields 0).map (·.alignment))
  have hfields (n : ℕ) : n ∈ (spans r a.fields 0).map (·.alignment) ↔
      ∃ p ∈ layout.fields, p.fact.alignment.toNat = n := by
    rw [← hspans, List.map_map, List.mem_map]
    rfl
  constructor
  · rcases max_choice (((spans r a.fields 0).map (·.alignment)).foldl max 1)
      ((a.alignment?.map (·.toNat)).getD 1) with hmax | hmax <;> rw [wholeAlignment, hmax]
    · exact hmem.imp_right fun hmem => .inl ((hfields _).mp hmem)
    · cases a.alignment? with
      | none => exact .inl rfl
      | some requested => exact .inr (.inr ⟨requested, rfl, rfl⟩)
  · rintro n (rfl | hn | ⟨requested, hrequested, rfl⟩)
    · exact (hupper (.inl rfl)).trans (le_max_left _ _)
    · exact (hupper (.inr ((hfields n).mpr hn))).trans (le_max_left _ _)
    · rw [wholeAlignment, Option.mem_def.mp hrequested]
      exact le_max_right _ _

lemma isLeast_wholeSize (hspans : layout.fields.map (·.span) = spans r a.fields 0)
    (hnone : a.size? = none) :
    IsLeast {n | (∀ p ∈ layout.fields, p.offset.toNat + p.fact.size.toNat ≤ n) ∧
      a.wholeAlignment r ∣ n} (a.wholeSize r) := by
  have hstops (n : ℕ) : ((spans r a.fields 0).map (·.stop)).foldl max 0 ≤ n ↔
      ∀ p ∈ layout.fields, p.offset.toNat + p.fact.size.toNat ≤ n := by
    rw [isLUB_le_iff (isGreatest_foldl_max _ _).isLUB, ← hspans]
    simp [upperBounds, Span.stop, PlacedField.span]
  have hleast := isLeast_leastMultiple (a.wholeAlignment_pos r)
    (((spans r a.fields 0).map (·.stop)).foldl max 0)
  simp only [hstops] at hleast
  rwa [wholeSize, hnone]

lemma isLaidOut_of_sequentialLayout (hr : r.Consistent) (hfits : a.sumsFit r = true)
    (h : a.sequentialLayout r = .ok layout) : a.IsLaidOut r layout := by
  obtain ⟨-, hspans, halignment, hsize⟩ := spec_of_sequentialLayout hr hfits h
  obtain ⟨fields, alignment, size, hplaced, -, -, hresolve, -, rfl⟩ :=
    sequentialLayout_eq_ok_iff.mp h
  have hfieldsFit := fieldsFit_of_sumsFit hfits hplaced
  constructor
  case fields => exact hplaced.map_field
  case facts => exact fun p hp => hplaced.fact_eq hp
  case given => exact fun p hp => hplaced.offset_eq hp
  case omitted =>
    intro before p after heq hnone
    exact hplaced.isLeast_offset hfieldsFit heq hnone
  case alignment => exact halignment ▸ isGreatest_wholeAlignment hspans
  case declaredSize =>
    intro declared hdeclared
    obtain ⟨-, ⟨hnone, -⟩ | ⟨hsome, -⟩⟩ := resolveSize_eq_ok_iff.mp hresolve
    · cases hnone.symm.trans hdeclared
    · exact Option.some.inj (hsome.symm.trans hdeclared)
  case omittedSize =>
    intro hnone
    exact hsize ▸ halignment ▸ isLeast_wholeSize hspans hnone
  case name => rfl
  case validity => rfl

lemma isPowerOfTwo_of_sequentialLayout (hr : r.Consistent)
    (h : a.sequentialLayout r = .ok layout) : isPowerOfTwo layout.fact.alignment = true := by
  obtain ⟨fields, alignment, size, hplaced, -, halignment, -, -, rfl⟩ :=
    sequentialLayout_eq_ok_iff.mp h
  have hnatural := isPowerOfTwo_strictestAlignment hr hplaced
  obtain ⟨hrequested, rfl⟩ :=
    (resolveAlignment_eq_ok_iff (toNat_pos_of_isPowerOfTwo hnatural)).mp halignment
  exact isPowerOfTwo_max hnatural hrequested

/-- Whatever was registered before, and unless a sum wraps: a sequential aggregate is laid out
exactly when its description makes sense, and then by the rules. Its fact can be registered for any
type without one, as long as the registry is not frozen. -/
theorem laid_out_iff_isLayable [Check κ] [DecidableEq κ] (hr : r.Reachable)
    (hrep : a.representation = .sequential) (hfits : a.sumsFit r = true) :
    ((∃ fact, a.layoutFact r = .ok fact) ↔ a.IsLayable r) ∧
      ∀ fact, a.layoutFact r = .ok fact →
        (∃ layout, a.layout r = .ok layout ∧ layout.fact = fact ∧ a.IsLaidOut r layout) ∧
        ∀ (r' : Registry κ) (type : TypeId) (entry : Entry κ), r'.frozen = false →
          r'.entry? type = some entry → entry.fact? = none →
            ∃ r'', r'.register type fact.draft = .ok r'' ∧ r''.fact? type = some fact := by
  have hconsistent := Registry.ReachableBy.consistent hr
  have hlayout (layout : AggregateLayout κ) :
      a.layout r = .ok layout ↔ a.sequentialLayout r = .ok layout := by
    rw [Aggregate.layout, hrep]
  simp only [layoutFact, map_eq_ok_iff, hlayout]
  refine ⟨⟨?_, ?_⟩, ?_⟩
  · rintro ⟨_, layout, h, rfl⟩
    exact (spec_of_sequentialLayout hconsistent hfits h).1
  · intro h
    obtain ⟨layout, h⟩ := exists_sequentialLayout hconsistent hfits h
    exact ⟨layout.fact, layout, h, rfl⟩
  · rintro _ ⟨layout, h, rfl⟩
    have hlaidOut := isLaidOut_of_sequentialLayout hconsistent hfits h
    refine ⟨⟨layout, h, rfl, hlaidOut⟩, ?_⟩
    intro r' type entry hfrozen hentry hnone
    have hsize : layout.fact.validity.size = layout.fact.size := by rw [hlaidOut.validity]; rfl
    exact Registry.exists_register hsize (isPowerOfTwo_of_sequentialLayout hconsistent h) hfrozen
      hentry hnone

end Aggregate

/-- A word among flags, one of which is put in front of it, with more alignment than these ask
for. -/
def mixedFields : Aggregate Empty :=
  ⟨"mixed", .sequential, [⟨"a", ⟨1⟩, none⟩, ⟨"word", ⟨0⟩, none⟩, ⟨"b", ⟨1⟩, some 4⟩,
    ⟨"c", ⟨1⟩, none⟩], some 16, none, none⟩

/-- The layout of it. The last field follows the one before it in the description, not the word that
ends last. -/
def mixedLayout : AggregateLayout Empty :=
  let flag := Registry.flagFact
  let word : LayoutFact Empty := ⟨⟨8, 8⟩, "word", .allValid 8 "word"⟩
  ⟨[⟨⟨"a", ⟨1⟩, none⟩, flag, 0⟩, ⟨⟨"word", ⟨0⟩, none⟩, word, 8⟩, ⟨⟨"b", ⟨1⟩, some 4⟩, flag, 4⟩,
      ⟨⟨"c", ⟨1⟩, none⟩, flag, 5⟩],
    ⟨⟨16, 16⟩, "mixed", .allOf 16 "mixed" [⟨0, flag.validity, "a"⟩, ⟨8, word.validity, "word"⟩,
      ⟨4, flag.validity, "b"⟩, ⟨5, flag.validity, "c"⟩] none⟩⟩

lemma layout_mixedFields : mixedFields.layout Registry.flagRegistry = .ok mixedLayout := by
  rw [Registry.flagRegistry_eq]
  cbv

theorem laid_out_iff_isLayable_mixedFields :
    Registry.flagRegistry.Reachable ∧ mixedFields.sumsFit Registry.flagRegistry = true ∧
      mixedFields.IsLayable Registry.flagRegistry ∧
      mixedFields.IsLaidOut Registry.flagRegistry mixedLayout := by
  have hr := Registry.reachable_flagRegistry.reachable
  have hfits : mixedFields.sumsFit Registry.flagRegistry = true := by
    rw [Registry.flagRegistry_eq]
    cbv
  have hfact : mixedFields.layoutFact Registry.flagRegistry = .ok mixedLayout.fact := by
    rw [Aggregate.layoutFact, layout_mixedFields]
    rfl
  obtain ⟨hlayable, hlaidOut⟩ := Aggregate.laid_out_iff_isLayable hr rfl hfits
  obtain ⟨⟨layout, hlayout, -, hlaidOut⟩, -⟩ := hlaidOut _ hfact
  obtain rfl := Except.ok.inj (layout_mixedFields.symm.trans hlayout)
  exact ⟨hr, hfits, hlayable.mp ⟨_, hfact⟩, hlaidOut⟩

end BitValidity
