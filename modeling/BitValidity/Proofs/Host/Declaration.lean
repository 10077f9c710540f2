import BitValidity.Proofs.Host.Conversion
import BitValidity.Proofs.Registry.Universes

/-!
# Declarations that fail

To declare a universe of host types is to declare the pair and then to look at the facts: each must
describe the storage of its host type. What the registry refuses is not declared. But where a fact
is found not to describe the storage the pair has been written already, and the declaration fails
all the same. This is the only way in which a declaration that fails can be noticed by whoever asks
for universes (`declares_nothing_on_failure_iff`).
-/

namespace BitValidity

variable {κ : Type} {u t : HostType} {r r' : Registry κ} {source target : TypeId}

/-! ### Answers about universes -/

namespace Registry

lemma isNicheless_congr (hproof : r'.proof? = r.proof?) : r'.isNicheless = r.isNicheless := by
  funext type
  rw [isNicheless, isNicheless, hproof]

/-- Whatever is asked about universes has the same answer in both registries. -/
structure SameUniverses (r r' : Registry κ) : Prop where
  isUniverse : ∀ source target, r'.isUniverse source target = r.isUniverse source target
  universesOf : ∀ type, r'.universesOf type = r.universesOf type

namespace SameUniverses

lemma of_eq (hproof : r'.proof? = r.proof?) (huniverses : r'.universes = r.universes) :
    r.SameUniverses r' where
  isUniverse source target := by
    rw [Registry.isUniverse, Registry.isUniverse, isNicheless_congr hproof, huniverses]
  universesOf type := by
    rw [Registry.universesOf, Registry.universesOf, isNicheless_congr hproof, huniverses]

/-- That a nicheless type is a universe of itself need not be declared. -/
lemma of_reflexive (hproof : r'.proof? = r.proof?) (hnicheless : r.isNicheless source = true)
    (huniverses : r'.universes = r.universes ++ [(source, source)]) : r.SameUniverses r' where
  isUniverse other target := by
    rw [Bool.eq_iff_iff, isUniverse_iff, isUniverse_iff, isNicheless_congr hproof, huniverses,
      List.mem_append, List.mem_singleton, Prod.mk.injEq]
    constructor
    · rintro (hself | hdeclared | ⟨rfl, rfl⟩)
      · exact .inl hself
      · exact .inr hdeclared
      · exact .inl ⟨rfl, hnicheless⟩
    · exact Or.imp_right .inl
  universesOf type := by
    have hself : [(source, source)].filter (fun p => p.2 == type && p.1 != type) = [] := by simp
    rw [Registry.universesOf, Registry.universesOf, isNicheless_congr hproof, huniverses,
      List.filter_append, hself, List.append_nil]

end SameUniverses

end Registry

/-! ### Declarations -/

namespace Universe

/-- The pair is new and everything is there to declare it, but a fact does not describe the storage
of its host type. -/
structure DeclaresUnbound (r : Registry κ) (u t : HostType) (source target : TypeId) : Prop where
  unfrozen : r.frozen = false
  nicheless : r.isNicheless source = true
  new : r.isUniverse source target = false
  unbound : ∃ sourceFact targetFact, r.fact? source = some sourceFact ∧
    r.fact? target = some targetFact ∧ sourceFact.toStorage = targetFact.toStorage ∧
    ¬ (u.checkBinding sourceFact = .ok () ∧ t.checkBinding targetFact = .ok ())

/-- Where the registry declares a pair, the evidence is refused for one reason alone: a fact does
not describe the storage of its host type. -/
lemma isBound_iff_exists_ofRegistry {h : u.storage = t.storage} {sourceFact targetFact : LayoutFact κ}
    (hsource : r.fact? source = some sourceFact) (htarget : r.fact? target = some targetFact) :
    (∃ c, ofRegistry r source target h = .ok c) ↔
      u.checkBinding sourceFact = .ok () ∧ t.checkBinding targetFact = .ok () := by
  simp only [ofRegistry_eq_ok_iff, hsource, htarget, Option.some.injEq]
  constructor
  · rintro ⟨c, rfl, rfl, hsourceBinding, htargetBinding, -⟩
    exact ⟨hsourceBinding, htargetBinding⟩
  · rintro ⟨hsourceBinding, htargetBinding⟩
    exact ⟨⟨sourceFact, targetFact, r.options.maxDiagnosticBytes, h⟩, rfl, rfl, hsourceBinding,
      htargetBinding, rfl⟩

/-- To make two types known changes nothing else. -/
lemma intern_intern_spec (r : Registry κ) (u t : HostType) :
    let known := ((r.intern u).2.intern t).2
    known.fact? = r.fact? ∧ known.proof? = r.proof? ∧ known.universes = r.universes ∧
      known.frozen = r.frozen := by
  obtain ⟨hfact, hproof, huniverses⟩ := r.intern_spec u
  obtain ⟨hfact', hproof', huniverses'⟩ := (r.intern u).2.intern_spec t
  exact ⟨hfact'.trans hfact, hproof'.trans hproof, huniverses'.trans huniverses,
    (Registry.frozen_intern t).trans (Registry.frozen_intern u)⟩

/-- The pair is refused, or it is declared and the evidence for it is refused or handed out. -/
lemma run_declare_cases (h : u.storage = t.storage) (r : Registry κ) :
    let source := (r.intern u).1
    let known := (r.intern u).2.intern t
    (∃ e, known.2.declareUniverse source known.1 = .error e ∧
        (declare u t h).run r = (.error (.error e), known.2)) ∨
      ∃ declared, known.2.declareUniverse source known.1 = .ok declared ∧
        ((∃ e, ofRegistry declared source known.1 h = .error e ∧
            (declare u t h).run r = (.error (.error e), declared)) ∨
          ∃ c, ofRegistry declared source known.1 h = .ok c ∧
            (declare u t h).run r = (.ok c, declared)) := by
  intro source known
  rw [run_declare]
  cases hdeclare : known.2.declareUniverse source known.1 with
  | error e => exact .inl ⟨e, rfl, rfl⟩
  | ok declared =>
    refine .inr ⟨declared, rfl, ?_⟩
    dsimp only
    cases hevidence : ofRegistry declared source known.1 h with
    | error e => exact .inl ⟨e, rfl, rfl⟩
    | ok c => exact .inr ⟨c, rfl, rfl⟩

/-- A declaration writes neither facts nor proofs. -/
lemma facts_run_declare (h : u.storage = t.storage) (r : Registry κ) :
    ((declare u t h).run r).2.fact? = r.fact? ∧ ((declare u t h).run r).2.proof? = r.proof? := by
  obtain ⟨hfact, hproof, -, -⟩ := intern_intern_spec r u t
  rcases run_declare_cases h r with
    ⟨e, -, hrun⟩ | ⟨declared, hdeclare, ⟨e, -, hrun⟩ | ⟨c, -, hrun⟩⟩ <;>
  rw [hrun]
  · exact ⟨hfact, hproof⟩
  all_goals
    obtain ⟨-, -, -, hfact', hproof', -⟩ := Registry.declareUniverse_spec hdeclare
    exact ⟨hfact'.trans hfact, hproof'.trans hproof⟩

/-- Where a new pair is declared that is found not to be bound, the declaration fails and has
declared it. -/
lemma DeclaresUnbound.declares {h : u.storage = t.storage}
    (hunbound : DeclaresUnbound r u t (r.intern u).1 ((r.intern u).2.intern t).1) :
    (∃ failure, ((declare u t h).run r).1 = .error failure) ∧
      ((declare u t h).run r).2.isUniverse (r.intern u).1 ((r.intern u).2.intern t).1 = true := by
  obtain ⟨hfact, hproof, -, hfrozen⟩ := intern_intern_spec r u t
  obtain ⟨hopen, hnicheless, -, sourceFact, targetFact, hsource, htarget, hstorage, hbinding⟩ :=
    hunbound
  rw [← hfact] at hsource htarget
  rw [← Registry.isNicheless_congr hproof] at hnicheless
  have hdeclares := Registry.declareUniverse_eq_ok (hfrozen.trans hopen) hsource htarget hnicheless
    hstorage
  rcases run_declare_cases h r with
    ⟨e, hrefused, -⟩ | ⟨declared, hdeclare, ⟨e, -, hrun⟩ | ⟨c, hevidence, -⟩⟩
  · cases hrefused.symm.trans hdeclares
  · rw [hrun]
    obtain ⟨-, -, -, -, -, -, huniverses⟩ := Registry.declareUniverse_spec hdeclare
    exact ⟨⟨_, rfl⟩, Registry.isUniverse_iff.mpr (.inr ((huniverses _).mpr (.inr rfl)))⟩
  · obtain ⟨-, -, -, hfact', -⟩ := Registry.declareUniverse_spec hdeclare
    rw [← hfact'] at hsource htarget
    exact absurd ((isBound_iff_exists_ofRegistry hsource htarget).mp ⟨c, hevidence⟩) hbinding

/-- A declaration that fails leaves the universes as they are, unless a new pair is declared that is
found not to be bound. -/
lemma sameUniverses_of_failure {h : u.storage = t.storage}
    (hbound : ¬ DeclaresUnbound r u t (r.intern u).1 ((r.intern u).2.intern t).1)
    {failure : Failure} (hfail : ((declare u t h).run r).1 = .error failure) :
    r.SameUniverses ((declare u t h).run r).2 := by
  obtain ⟨hfact, hproof, huniverses, hfrozen⟩ := intern_intern_spec r u t
  rcases run_declare_cases h r with
    ⟨e, -, hrun⟩ | ⟨declared, hdeclare, ⟨e, hrefused, hrun⟩ | ⟨c, -, hrun⟩⟩
  · rw [hrun]
    exact .of_eq hproof huniverses
  · rw [hrun]
    have hpairs := Registry.universes_of_declareUniverse hdeclare
    obtain ⟨⟨sourceFact, targetFact, hsource, htarget, hstorage⟩, hnicheless, hopen, hfact', hproof',
      -⟩ := Registry.declareUniverse_spec hdeclare
    rw [Registry.isNicheless_congr hproof] at hnicheless
    -- the evidence is refused, so a fact is not bound, and the pair is not a new one
    have hknown : r.isUniverse (r.intern u).1 ((r.intern u).2.intern t).1 = true := by
      by_contra hnew
      refine hbound ⟨hfrozen ▸ hopen, hnicheless, by simpa using hnew, sourceFact, targetFact,
        hfact ▸ hsource, hfact ▸ htarget, hstorage, ?_⟩
      rw [← hfact'] at hsource htarget
      intro hbinding
      obtain ⟨c, hc⟩ := (isBound_iff_exists_ofRegistry (h := h) hsource htarget).mpr hbinding
      cases hrefused.symm.trans hc
    rw [huniverses] at hpairs
    split at hpairs
    · exact .of_eq (hproof'.trans hproof) hpairs
    · rename_i hundeclared
      obtain ⟨hsame, -⟩ := (Registry.isUniverse_iff.mp hknown).resolve_right hundeclared
      rw [← hsame] at hpairs
      exact .of_reflexive (hproof'.trans hproof) hnicheless hpairs
  · rw [hrun] at hfail
    cases hfail

/-- Whatever is registered: a declaration writes neither facts nor proofs, and if it fails, then no
answer about universes has changed, unless a new pair was declared before it was found that a fact
does not describe the storage of its host type. In that case the pair stays declared. -/
theorem declares_nothing_on_failure_iff (r : Registry κ) (h : u.storage = t.storage) :
    let after := ((declare u t h).run r).2
    after.fact? = r.fact? ∧ after.proof? = r.proof? ∧
      (((∃ failure, ((declare u t h).run r).1 = .error failure) → r.SameUniverses after) ↔
        ¬ DeclaresUnbound r u t (r.intern u).1 ((r.intern u).2.intern t).1) := by
  intro after
  refine ⟨(facts_run_declare h r).1, (facts_run_declare h r).2, ?_, ?_⟩
  · intro hsame hunbound
    obtain ⟨hfails, hdeclared⟩ := hunbound.declares (h := h)
    rw [(hsame hfails).isUniverse, hunbound.new] at hdeclared
    cases hdeclared
  · rintro hbound ⟨failure, hfail⟩
    exact sameUniverses_of_failure hbound hfail

/-- Booleans are not nicheless, so they are not declared a universe. -/
theorem declares_nothing_on_failure_iff_bool :
    HostType.bool.storage = (HostType.int ⟨.one, false⟩).storage ∧
      (∃ failure, ((declare .bool (.int ⟨.one, false⟩) storage_byte.symm).run boolRegistry).1 =
        .error failure) ∧
      boolRegistry.SameUniverses
        ((declare .bool (.int ⟨.one, false⟩) storage_byte.symm).run boolRegistry).2 := by
  have hfails : ∃ failure,
      ((declare .bool (.int ⟨.one, false⟩) storage_byte.symm).run boolRegistry).1 =
        .error failure := ⟨_, rfl⟩
  have hbound : ¬ DeclaresUnbound boolRegistry .bool (.int ⟨.one, false⟩)
      (boolRegistry.intern .bool).1
      ((boolRegistry.intern .bool).2.intern (.int ⟨.one, false⟩)).1 := fun h => nomatch h.nicheless
  have h := declares_nothing_on_failure_iff boolRegistry storage_byte.symm
  exact ⟨storage_byte.symm, hfails, h.2.2.mpr hbound hfails⟩

/-- Two types of four bytes, of which the registry knows only the first half. -/
def narrowed : HostType := .record ⟨"Narrowed", ⟨4, 4⟩, false⟩

def even : HostType := .record ⟨"Even", ⟨4, 4⟩, false⟩

def halvesRegistry : Registry Empty :=
  ((((Registry.empty .standard).after (.idOf narrowed)).after
    (.define ⟨0⟩ (.leaf ⟨⟨2, 2⟩, "Narrowed", some (.allValid 2 "Narrowed")⟩) none)).after
      (.idOf even)).after
        (.define ⟨1⟩ (.leaf ⟨⟨2, 2⟩, "Even", some (.nonZero 2 "Even" false)⟩) none)

/-- The declaration fails, as neither fact has four bytes, and still the one type is a universe of
the other afterwards. -/
theorem declares_on_failure_halves :
    halvesRegistry.Reachable ∧
      (∃ failure, ((declare narrowed even rfl).run halvesRegistry).1 = .error failure) ∧
      halvesRegistry.isUniverse ⟨0⟩ ⟨1⟩ = false ∧
      ((declare narrowed even rfl).run halvesRegistry).2.isUniverse ⟨0⟩ ⟨1⟩ = true := by
  refine ⟨⟨.standard, .step (.step (.step (.step .refl trivial) trivial) trivial) trivial⟩,
    ⟨_, rfl⟩, rfl, rfl⟩

end Universe

end BitValidity
