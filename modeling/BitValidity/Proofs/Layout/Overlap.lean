import BitValidity.Layout.Placement
import BitValidity.Proofs.Word
import Mathlib.Data.List.Perm.Subperm

/-!
# Overlap

Extents are sorted by where they begin, and then only neighbours are compared. That is enough: if
each of them ends before the next one begins, so do any two of them, and if two of them share a byte,
some neighbours do. Which of several extents that begin together comes first does not matter, and
neither does an extent without bytes, wherever it lies (`overlap_is_detected_exactly`).
-/

namespace BitValidity

namespace Extent

/-! ### Two extents -/

/-- A byte lies in the stretch, which does not wrap. -/
def Occupies (e : Extent) (i : ℕ) : Prop :=
  e.offset.toNat ≤ i ∧ i < e.offset.toNat + e.size.toNat

/-- No byte lies in both. -/
def Disjoint (a b : Extent) : Prop := ∀ i, ¬ (a.Occupies i ∧ b.Occupies i)

/-- The first ends where the second begins, or before. -/
def Before (a b : Extent) : Prop := a.offset.toNat + a.size.toNat ≤ b.offset.toNat

instance : Trans Before Before Before where
  trans hab hbc := by
    simp only [Before] at *
    omega

lemma Disjoint.symm {a b : Extent} (h : a.Disjoint b) : b.Disjoint a :=
  fun i hi => h i hi.symm

lemma Before.disjoint {a b : Extent} (h : a.Before b) : a.Disjoint b := by
  rintro i ⟨⟨-, hi⟩, ⟨hj, -⟩⟩
  exact absurd (hi.trans_le h) (Nat.not_lt.mpr hj)

lemma disjoint_of_size_eq_zero {a b : Extent} (h : a.size = 0) : a.Disjoint b := by
  rintro i ⟨⟨hi, hj⟩, -⟩
  simp only [h, UInt64.toNat_zero] at hj
  omega

/-- Of two stretches the one that begins first reaches to where the other begins, unless it ends
before that or the other is empty. -/
lemma occupies_of_not_before {a b : Extent} (hnot : ¬ a.Before b) (hb : b.size ≠ 0)
    (hle : a.offset.toNat ≤ b.offset.toNat) :
    a.Occupies b.offset.toNat ∧ b.Occupies b.offset.toNat := by
  rw [ne_eq, ← UInt64.toNat_inj, UInt64.toNat_zero] at hb
  rw [Before, not_le] at hnot
  exact ⟨⟨hle, hnot⟩, le_rfl, by omega⟩

/-- Of two stretches that share no byte, the one that begins first ends before the other begins,
unless that is empty. -/
lemma Disjoint.before {a b : Extent} (h : a.Disjoint b) (hb : b.size ≠ 0)
    (hle : a.offset.toNat ≤ b.offset.toNat) : a.Before b := by
  by_contra hnot
  exact h _ (occupies_of_not_before hnot hb hle)

/-! ### Neighbours -/

/-- A word that ends the first of two stretches shows whether the second begins before it. -/
lemma lt_stop_iff {a b : Extent} (ha : a.offset.toNat + a.size.toNat < 2 ^ 64) :
    b.offset < a.offset + a.size ↔ ¬ a.Before b := by
  rw [UInt64.lt_iff_toNat_lt, toNat_add_of_lt ha, Before, not_le]

lemma findOverlap_eq_none_iff {extents : List Extent}
    (hfits : ∀ e ∈ extents, e.offset.toNat + e.size.toNat < 2 ^ 64) :
    findOverlap extents = none ↔ extents.IsChain Before := by
  induction extents with
  | nil => simp [findOverlap]
  | cons a rest ih =>
    obtain ⟨ha, hrest⟩ := List.forall_mem_cons.mp hfits
    cases rest with
    | nil => simp [findOverlap]
    | cons b rest =>
      rw [findOverlap, List.isChain_cons_cons, ← ih hrest]
      split
      · rename_i hlt
        exact iff_of_false nofun fun h => (lt_stop_iff ha).mp hlt h.1
      · rename_i hnot
        exact (and_iff_right (not_not.mp ((lt_stop_iff ha).not.mp hnot))).symm

/-- What is found are two neighbours, in their order, of which the first reaches into the second. -/
lemma of_findOverlap {extents : List Extent} {a b : Extent}
    (hfits : ∀ e ∈ extents, e.offset.toNat + e.size.toNat < 2 ^ 64)
    (h : findOverlap extents = some (a, b)) : [a, b].Sublist extents ∧ ¬ a.Before b := by
  induction extents with
  | nil => simp [findOverlap] at h
  | cons first rest ih =>
    obtain ⟨hfirst, hrest⟩ := List.forall_mem_cons.mp hfits
    cases rest with
    | nil => simp [findOverlap] at h
    | cons second rest =>
      rw [findOverlap] at h
      split at h
      · rename_i hlt
        simp only [Option.some.injEq, Prod.mk.injEq] at h
        obtain ⟨rfl, rfl⟩ := h
        exact ⟨by simp, (lt_stop_iff hfirst).mp hlt⟩
      · obtain ⟨hsub, hnot⟩ := ih hrest h
        exact ⟨hsub.cons first, hnot⟩

/-! ### Sorted extents -/

/-- What a sort by offsets may make of the extents that are not empty. Those that begin together may
come in any order. -/
structure IsSorting (extents sorted : List Extent) : Prop where
  perm : sorted.Perm (extents.filter (·.size != 0))
  ordered : sorted.Pairwise fun a b => a.offset.toNat ≤ b.offset.toNat

lemma isSorting_sort (extents : List Extent) :
    IsSorting extents (sort (extents.filter (·.size != 0))) where
  perm := List.mergeSort_perm _ _
  ordered := by
    have hsorted := @List.pairwise_mergeSort _ (fun a b : Extent => decide (a.offset ≤ b.offset))
      (by simpa using fun a b c : Extent => UInt64.le_trans)
      (by simpa using fun a b : Extent => UInt64.le_total a.offset b.offset)
      (extents.filter (·.size != 0))
    exact hsorted.imp fun h => UInt64.le_iff_toNat_le.mp (of_decide_eq_true h)

/-- Which extents are empty does not matter, and neither does the order of the others. -/
lemma IsSorting.congr {extents others sorted : List Extent}
    (hperm : (others.filter (·.size != 0)).Perm (extents.filter (·.size != 0))) :
    IsSorting others sorted ↔ IsSorting extents sorted :=
  ⟨fun h => ⟨h.perm.trans hperm, h.ordered⟩, fun h => ⟨h.perm.trans hperm.symm, h.ordered⟩⟩

/-- Extents are disjoint when those are that are not empty. -/
lemma pairwise_filter_iff {extents : List Extent} :
    (extents.filter (·.size != 0)).Pairwise Disjoint ↔ extents.Pairwise Disjoint := by
  rw [List.pairwise_filter]
  refine ⟨List.Pairwise.imp ?_, List.Pairwise.imp fun h _ _ => h⟩
  -- what is empty shares no byte with anything
  intro a b hab
  by_cases ha : a.size = 0
  · exact disjoint_of_size_eq_zero ha
  · by_cases hb : b.size = 0
    · exact (disjoint_of_size_eq_zero hb).symm
    · exact hab (by simpa using ha) (by simpa using hb)

namespace IsSorting

variable {extents sorted : List Extent}

lemma size_ne_zero (h : IsSorting extents sorted) : ∀ e ∈ sorted, e.size ≠ 0 := by
  intro e he
  simpa using List.of_mem_filter (h.perm.mem_iff.mp he)

lemma forall_mem {P : Extent → Prop} (h : IsSorting extents sorted) (hP : ∀ e ∈ extents, P e) :
    ∀ e ∈ sorted, P e :=
  fun e he => hP e (List.mem_of_mem_filter (h.perm.mem_iff.mp he))

/-- Stretches share no byte exactly when, sorted, each ends before the next one begins. -/
lemma isChain_iff (h : IsSorting extents sorted) :
    sorted.IsChain Before ↔ extents.Pairwise Disjoint := by
  rw [← pairwise_filter_iff, ← h.perm.pairwise_iff Disjoint.symm]
  constructor
  · intro hchain
    exact hchain.pairwise.imp Before.disjoint
  · intro hdisjoint
    refine List.Pairwise.isChain ?_
    refine (hdisjoint.and h.ordered).imp_of_mem ?_
    rintro a b - hb ⟨hdisjoint, hle⟩
    exact hdisjoint.before (h.size_ne_zero b hb) hle

/-- Neighbours of which the first reaches into the second are two of the extents, and they share the
byte at which the second begins. -/
lemma shares (h : IsSorting extents sorted)
    (hfits : ∀ e ∈ extents, e.offset.toNat + e.size.toNat < 2 ^ 64) {a b : Extent}
    (hfound : findOverlap sorted = some (a, b)) :
    [a, b].Subperm extents ∧ a.Occupies b.offset.toNat ∧ b.Occupies b.offset.toNat := by
  obtain ⟨hsub, hnot⟩ := of_findOverlap (h.forall_mem hfits) hfound
  have hle : a.offset.toNat ≤ b.offset.toNat := by
    simpa using h.ordered.sublist hsub
  have hb : b.size ≠ 0 := h.size_ne_zero b (hsub.subset (by simp))
  refine ⟨?_, occupies_of_not_before hnot hb hle⟩
  exact (hsub.subperm.trans h.perm.subperm).trans List.filter_sublist.subperm

end IsSorting

/-- The outcomes that a check for overlap may have, over all ways to sort the extents. -/
inductive Checked (owner : String) (extents : List Extent) : Except Error Unit → Prop where
  | passed {sorted : List Extent} (hsorting : IsSorting extents sorted)
      (hnone : findOverlap sorted = none) : Checked owner extents (.ok ())
  | refused {sorted : List Extent} {a b : Extent} (hsorting : IsSorting extents sorted)
      (hfound : findOverlap sorted = some (a, b)) :
      Checked owner extents (.error (.layoutMismatch (.overlap a.name b.name owner b.offset)))

end Extent

/-! ### Checks -/

open Extent

variable {owner : String} {extents : List Extent}

lemma checked_checkOverlap (owner : String) (extents : List Extent) :
    Checked owner extents (checkOverlap owner extents) := by
  have hsorting := isSorting_sort extents
  rw [checkOverlap]
  split
  · rename_i hnone
    exact .passed hsorting hnone
  · rename_i a b hfound
    exact .refused hsorting hfound

/-- Extents of which none wraps pass a check, however they are sorted, exactly when no two of them
share a byte. -/
lemma Extent.Checked.eq_ok_iff {outcome : Except Error Unit}
    (h : Checked owner extents outcome)
    (hfits : ∀ e ∈ extents, e.offset.toNat + e.size.toNat < 2 ^ 64) :
    outcome = .ok () ↔ extents.Pairwise Extent.Disjoint := by
  cases h with
  | passed hsorting hnone =>
    rw [findOverlap_eq_none_iff (hsorting.forall_mem hfits), hsorting.isChain_iff] at hnone
    exact iff_of_true rfl hnone
  | refused hsorting hfound =>
    rw [← hsorting.isChain_iff, ← findOverlap_eq_none_iff (hsorting.forall_mem hfits), hfound]
    exact iff_of_false nofun nofun

/-- What a check reports are two of the extents, and a byte that they share. -/
lemma Extent.Checked.of_error {error : Error} (h : Checked owner extents (.error error))
    (hfits : ∀ e ∈ extents, e.offset.toNat + e.size.toNat < 2 ^ 64) :
    ∃ a b, [a, b].Subperm extents ∧
      error = .layoutMismatch (.overlap a.name b.name owner b.offset) ∧
      a.Occupies b.offset.toNat ∧ b.Occupies b.offset.toNat := by
  cases h with
  | refused hsorting hfound =>
    obtain ⟨hsub, hshare⟩ := hsorting.shares hfits hfound
    exact ⟨_, _, hsub, rfl, hshare⟩

/-- A check depends on the extents that are not empty, and not on their order. -/
lemma Extent.Checked.of_perm {others : List Extent} {outcome : Except Error Unit}
    (hperm : (others.filter (·.size != 0)).Perm (extents.filter (·.size != 0)))
    (h : Checked owner extents outcome) : Checked owner others outcome := by
  cases h with
  | passed hsorting hnone => exact .passed ((IsSorting.congr hperm).mpr hsorting) hnone
  | refused hsorting hfound => exact .refused ((IsSorting.congr hperm).mpr hsorting) hfound

/-- Extents of which none wraps are found not to overlap exactly when no two of them share a
byte. -/
lemma checkOverlap_eq_ok_iff
    (hfits : ∀ e ∈ extents, e.offset.toNat + e.size.toNat < 2 ^ 64) :
    checkOverlap owner extents = .ok () ↔ extents.Pairwise Extent.Disjoint :=
  (checked_checkOverlap owner extents).eq_ok_iff hfits

/-- However extents of which none wraps are sorted, they pass the check exactly when no two of them
share a byte, and what is reported otherwise are two of them and a byte that they share. Extents
without bytes can be put in or left out anywhere, and the others can be given in any order. -/
theorem overlap_is_detected_exactly (owner : String) {extents : List Extent}
    (hfits : ∀ e ∈ extents, e.offset.toNat + e.size.toNat < 2 ^ 64) :
    Checked owner extents (checkOverlap owner extents) ∧
      (∀ outcome, Checked owner extents outcome →
        (outcome = .ok () ↔ extents.Pairwise Extent.Disjoint) ∧
          ∀ error, outcome = .error error → ∃ a b, [a, b].Subperm extents ∧
            error = .layoutMismatch (.overlap a.name b.name owner b.offset) ∧
            a.Occupies b.offset.toNat ∧ b.Occupies b.offset.toNat) ∧
      ∀ others : List Extent,
        (others.filter (·.size != 0)).Perm (extents.filter (·.size != 0)) →
          ∀ outcome, Checked owner others outcome ↔ Checked owner extents outcome := by
  refine ⟨checked_checkOverlap owner extents, ?_, ?_⟩
  · intro outcome h
    refine ⟨h.eq_ok_iff hfits, ?_⟩
    rintro error rfl
    exact h.of_error hfits
  · intro others hperm outcome
    exact ⟨.of_perm hperm.symm, .of_perm hperm⟩

/-- The last extent covers the first, and other ones begin between them. -/
def coveringExtents : List Extent :=
  [⟨6, 1, "flag"⟩, ⟨3, 0, "mark"⟩, ⟨4, 1, "kind"⟩, ⟨0, 8, "whole"⟩]

/-- The extent that lies inside another one has no bytes. -/
def apartExtents : List Extent := [⟨8, 1, "flag"⟩, ⟨3, 0, "mark"⟩, ⟨0, 8, "whole"⟩]

theorem overlap_is_detected_exactly_covering :
    (∀ e ∈ coveringExtents, e.offset.toNat + e.size.toNat < 2 ^ 64) ∧
      checkOverlap "frame" coveringExtents ≠ .ok () ∧
      (∀ e ∈ apartExtents, e.offset.toNat + e.size.toNat < 2 ^ 64) ∧
      checkOverlap "frame" apartExtents = .ok () := by
  have hcovering : ∀ e ∈ coveringExtents, e.offset.toNat + e.size.toNat < 2 ^ 64 := by decide
  have hapart : ∀ e ∈ apartExtents, e.offset.toNat + e.size.toNat < 2 ^ 64 := by decide
  refine ⟨hcovering, ?_, hapart, ?_⟩
  · obtain ⟨hchecked, hexact, -⟩ := overlap_is_detected_exactly "frame" hcovering
    rw [ne_eq, (hexact _ hchecked).1]
    intro h
    have hflag : Extent.Disjoint ⟨6, 1, "flag"⟩ ⟨0, 8, "whole"⟩ :=
      (List.pairwise_cons.mp h).1 _ (by simp)
    exact hflag 6 ⟨⟨by decide, by decide⟩, by decide, by decide⟩
  · obtain ⟨hchecked, hexact, -⟩ := overlap_is_detected_exactly "frame" hapart
    rw [(hexact _ hchecked).1]
    have hbefore : Extent.Before ⟨0, 8, "whole"⟩ ⟨8, 1, "flag"⟩ := Nat.le_refl 8
    refine .cons ?_ (.cons ?_ (.cons nofun .nil))
    · rintro b hb
      rcases List.mem_pair.mp hb with rfl | rfl
      · exact (Extent.disjoint_of_size_eq_zero rfl).symm
      · exact hbefore.disjoint.symm
    · intro b _
      exact Extent.disjoint_of_size_eq_zero rfl

end BitValidity
