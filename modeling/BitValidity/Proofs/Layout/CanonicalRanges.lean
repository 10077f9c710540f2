import BitValidity.Proofs.Layout.Enumerations

/-!
# Canonical ranges

The same integers can be put into ranges in many ways: ranges can overlap, come in any order, or be
split where they could go on. In canonical ranges none of this happens. Each goes from a word of the
width up to another, and the next one begins only after an integer that is in neither. There is one
canonical list for every set of integers (`IsCanonical.eq_of_covered_eq`), and gathering finds it
(`isCanonical_gather`), so what tags are gathered into does not depend on their order.
-/

namespace BitValidity

namespace IntRange

variable {width : IntWidth} {signed : Bool} {r s : IntRange} {ranges ranges' : List IntRange}

/-- Increasing ranges of integers of the width, none of which could go on to the next. -/
structure IsCanonical (width : IntWidth) (signed : Bool) (ranges : List IntRange) : Prop where
  /-- The ends are words of the width. -/
  fits : ∀ r ∈ ranges, r.first.toNat < 256 ^ width.bytes ∧ r.last.toNat < 256 ^ width.bytes
  ordered : ∀ r ∈ ranges, width.integerOf signed r.first ≤ width.integerOf signed r.last
  /-- An integer lies between any range and those after it. -/
  separate : ranges.Pairwise fun r s =>
    width.integerOf signed r.last + 1 < width.integerOf signed s.first

/-! ### Uniqueness -/

namespace IsCanonical

lemma tail (h : IsCanonical width signed (r :: ranges)) : IsCanonical width signed ranges where
  fits := (List.forall_mem_cons.mp h.fits).2
  ordered := (List.forall_mem_cons.mp h.ordered).2
  separate := (List.pairwise_cons.mp h.separate).2

/-- What the other ranges hold lies after the first one, and not next to it. -/
lemma lt_of_mem_covered (h : IsCanonical width signed (r :: ranges)) {x : ℤ}
    (hx : x ∈ covered width signed ranges) : width.integerOf signed r.last + 1 < x := by
  obtain ⟨s, hs, hfirst, -⟩ := hx
  exact ((List.pairwise_cons.mp h.separate).1 s hs).trans_le hfirst

lemma isLeast_covered (h : IsCanonical width signed (r :: ranges)) :
    IsLeast (covered width signed (r :: ranges)) (width.integerOf signed r.first) := by
  have hle := h.ordered r List.mem_cons_self
  rw [covered_cons]
  constructor
  · exact .inl ⟨le_rfl, hle⟩
  · rintro x (hx | hx)
    · exact hx.1
    · have := h.lt_of_mem_covered hx
      omega

lemma last_add_one_notMem (h : IsCanonical width signed (r :: ranges)) :
    width.integerOf signed r.last + 1 ∉ covered width signed (r :: ranges) := by
  rw [covered_cons]
  rintro (hx | hx)
  · exact absurd hx.2 (by omega)
  · exact (h.lt_of_mem_covered hx).false

lemma mem_covered_tail_iff (h : IsCanonical width signed (r :: ranges)) {x : ℤ} :
    x ∈ covered width signed ranges ↔
      x ∈ covered width signed (r :: ranges) ∧ width.integerOf signed r.last < x := by
  rw [covered_cons]
  constructor
  · intro hx
    have := h.lt_of_mem_covered hx
    exact ⟨.inr hx, by omega⟩
  · rintro ⟨hx | hx, hlt⟩
    · exact absurd hx.2 (not_le.mpr hlt)
    · exact hx

/-- A range that begins with the first one ends with it too, if it holds nothing more. -/
lemma last_le (h : IsCanonical width signed (r :: ranges))
    (hfirst : width.integerOf signed s.first = width.integerOf signed r.first)
    (hs : Set.Icc (width.integerOf signed s.first) (width.integerOf signed s.last) ⊆
      covered width signed (r :: ranges)) :
    width.integerOf signed s.last ≤ width.integerOf signed r.last := by
  have hle := h.ordered r List.mem_cons_self
  by_contra hlt
  -- otherwise it would go on to the integer after the first range
  exact h.last_add_one_notMem (hs ⟨by omega, by omega⟩)

/-- Ranges are canonical in one way only. -/
theorem eq_of_covered_eq (h : IsCanonical width signed ranges)
    (h' : IsCanonical width signed ranges')
    (heq : covered width signed ranges = covered width signed ranges') : ranges = ranges' := by
  induction ranges generalizing ranges' with
  | nil =>
    cases ranges' with
    | nil => rfl
    | cons s ranges' =>
      obtain ⟨r, hr, -⟩ := heq ▸ h'.isLeast_covered.1
      cases hr
  | cons r ranges ih =>
    cases ranges' with
    | nil =>
      obtain ⟨s, hs, -⟩ := heq ▸ h.isLeast_covered.1
      cases hs
    | cons s ranges' =>
      have hfirst := (heq ▸ h.isLeast_covered).unique h'.isLeast_covered
      have hlast : width.integerOf signed r.last = width.integerOf signed s.last := by
        apply le_antisymm
        · exact h'.last_le hfirst (heq ▸ covered_cons r ranges ▸ Set.subset_union_left)
        · exact h.last_le hfirst.symm (heq ▸ covered_cons s ranges' ▸ Set.subset_union_left)
      obtain ⟨hrfirst, hrlast⟩ := h.fits r List.mem_cons_self
      obtain ⟨hsfirst, hslast⟩ := h'.fits s List.mem_cons_self
      have hrs : r = s := by
        cases r
        cases s
        exact congrArg₂ IntRange.mk ((integerOf_inj hrfirst hsfirst).mp hfirst)
          ((integerOf_inj hrlast hslast).mp hlast)
      have hrest : covered width signed ranges = covered width signed ranges' := by
        ext x
        rw [h.mem_covered_tail_iff, h'.mem_covered_tail_iff, heq, hlast]
      rw [hrs, ih h.tail h'.tail hrest]

end IsCanonical

/-! ### Gathered ranges -/

variable {tags tags' : List UInt64}

lemma le_of_mem_gatherFrom {tag : UInt64} {least : ℤ} (htag : least ≤ width.integerOf signed tag)
    (htags : ∀ next ∈ tags, least ≤ width.integerOf signed next) :
    ∀ r ∈ gatherFrom width signed ⟨tag, tag⟩ tags, least ≤ width.integerOf signed r.first := by
  intro r hr
  refine (mem_gatherFrom (P := (least ≤ width.integerOf signed ·)) ?_ htags r hr).1
  exact ⟨htag, htag⟩

/-- Where tags increase, a range that is closed is followed by an integer that is no tag. -/
lemma separate_gatherFrom (opened : IntRange) (hlast : opened.last.toNat < 256 ^ width.bytes)
    (htags : ∀ tag ∈ tags, tag.toNat < 256 ^ width.bytes)
    (hsorted : (opened.last :: tags).Pairwise fun a b =>
      width.integerOf signed a < width.integerOf signed b) :
    (gatherFrom width signed opened tags).Pairwise fun r s =>
      width.integerOf signed r.last + 1 < width.integerOf signed s.first := by
  induction tags generalizing opened with
  | nil => exact List.pairwise_singleton _ _
  | cons tag rest ih =>
    obtain ⟨htag, hrest⟩ := List.forall_mem_cons.mp htags
    obtain ⟨hlt, hsorted⟩ := List.pairwise_cons.mp hsorted
    rw [gatherFrom]
    split
    · exact ih { opened with last := tag } htag hrest hsorted
    · rename_i hfollows
      refine .cons ?_ (ih ⟨tag, tag⟩ htag hrest hsorted)
      intro s hs
      have hle : width.integerOf signed tag ≤ width.integerOf signed s.first :=
        le_of_mem_gatherFrom le_rfl
          (fun next hnext => ((List.pairwise_cons.mp hsorted).1 next hnext).le) s hs
      have hne : width.integerOf signed tag ≠ width.integerOf signed opened.last + 1 :=
        mt (follows_iff hlast htag).mpr hfollows
      have hlt := hlt tag List.mem_cons_self
      omega

/-- Different tags are gathered into canonical ranges. -/
theorem isCanonical_gather (htags : ∀ tag ∈ tags, tag.toNat < 256 ^ width.bytes)
    (hnodup : tags.Nodup) : IsCanonical width signed (gather width signed tags) where
  fits := mem_gather (P := (·.toNat < 256 ^ width.bytes)) htags
  ordered := by
    intro r hr
    obtain ⟨hfirst, hlast⟩ := mem_gather (P := (·.toNat < 256 ^ width.bytes)) htags r hr
    exact (tagLE_iff hfirst hlast).mp (tagLE_of_mem_gather r hr)
  separate := by
    have hperm := List.mergeSort_perm tags (tagLE width signed)
    have hsorted : (tags.mergeSort (tagLE width signed)).Pairwise fun a b =>
        width.integerOf signed a < width.integerOf signed b :=
      pairwise_integerOf_mergeSort htags hnodup
    simp only [gather]
    simp only [← hperm.mem_iff] at htags
    split
    · exact .nil
    · rename_i tag rest heq
      rw [heq] at htags hsorted
      obtain ⟨htag, hrest⟩ := List.forall_mem_cons.mp htags
      exact separate_gatherFrom ⟨tag, tag⟩ htag hrest hsorted

/-- What tags are gathered into depends on which tags there are, and on nothing else. -/
theorem gather_eq_of_mem_iff (htags : ∀ tag ∈ tags, tag.toNat < 256 ^ width.bytes)
    (hnodup : tags.Nodup) (hnodup' : tags'.Nodup) (h : ∀ tag, tag ∈ tags ↔ tag ∈ tags') :
    gather width signed tags = gather width signed tags' := by
  have htags' : ∀ tag ∈ tags', tag.toNat < 256 ^ width.bytes := by
    intro tag htag
    exact htags tag ((h tag).mpr htag)
  apply (isCanonical_gather htags hnodup).eq_of_covered_eq (isCanonical_gather htags' hnodup')
  simp only [covered_gather htags, covered_gather htags', h]

lemma gather_eq_nil_iff (htags : ∀ tag ∈ tags, tag.toNat < 256 ^ width.bytes) :
    gather width signed tags = [] ↔ tags = [] := by
  constructor
  · intro h
    apply List.eq_nil_iff_forall_not_mem.mpr
    intro tag htag
    have hmem : width.integerOf signed tag ∈ covered width signed (gather width signed tags) := by
      rw [covered_gather htags]
      exact ⟨tag, htag, rfl⟩
    rw [h] at hmem
    obtain ⟨r, hr, -⟩ := hmem
    cases hr
  · rintro rfl
    simp [gather]

end IntRange

end BitValidity
