import BitValidity.Proofs.Predicate.Constraints
import BitValidity.Proofs.Registry.Soundness

/-!
# Conversion through universes

A universe is evidence that was checked once, when it was handed out. What it says of the two types
stays true of the registry (`IsHeldBy.mono`), so conversions through it are right at any later time:
a value is converted exactly when its bytes are a value of the target, and back it always is.
-/

namespace BitValidity

variable {κ : Type} {u t : HostType} {r r' : Registry κ}

/-! ### Evidence -/

namespace Registry

/-- A host type that has a fact is known. -/
lemma lookup_hostTypes_of_fact? {fact : LayoutFact κ}
    (h : r.fact? (r.findHostType t) = some fact) :
    r.hostTypes.lookup t = some (r.findHostType t) := by
  simp only [findHostType] at h ⊢
  cases hlookup : r.hostTypes.lookup t with
  | none => simp [hlookup, fact?, entry?, TypeId.isValid] at h
  | some type => rfl

lemma Extends.findHostType_eq (hle : r.Extends r') {fact : LayoutFact κ}
    (h : r.fact? (r.findHostType t) = some fact) : r'.findHostType t = r.findHostType t :=
  findHostType_of_lookup (hle.hostType _ _ (lookup_hostTypes_of_fact? h))

end Registry

lemma HostType.checkBinding_eq_ok_iff {fact : LayoutFact κ} :
    t.checkBinding fact = .ok () ↔
      (fact.size = t.size ∨ (t.isEmpty = true ∧ fact.size = 0)) ∧
        fact.alignment = t.alignment := by
  simp only [checkBinding]
  split <;> simp_all

namespace Universe

variable {c : Universe κ u t}

/-- The registry holds what the evidence says. -/
structure IsHeldBy (c : Universe κ u t) (r : Registry κ) : Prop where
  source : r.fact? (r.findHostType u) = some c.source
  target : r.fact? (r.findHostType t) = some c.target
  nicheless : r.isNicheless (r.findHostType u) = true
  storage_eq : c.source.toStorage = c.target.toStorage
  sourceBinding : u.checkBinding c.source = .ok ()
  targetBinding : t.checkBinding c.target = .ok ()

/-- Evidence stays right when the registry grows. -/
lemma IsHeldBy.mono (h : c.IsHeldBy r) (hle : r.Extends r') : c.IsHeldBy r' where
  source := hle.findHostType_eq h.source ▸ hle.fact _ _ h.source
  target := hle.findHostType_eq h.target ▸ hle.fact _ _ h.target
  nicheless := hle.findHostType_eq h.source ▸ hle.isNicheless h.nicheless
  storage_eq := h.storage_eq
  sourceBinding := h.sourceBinding
  targetBinding := h.targetBinding

lemma ofRegistry_eq_ok_iff {source target : TypeId} {h : u.storage = t.storage} :
    ofRegistry r source target h = .ok c ↔
      r.fact? source = some c.source ∧ r.fact? target = some c.target ∧
        u.checkBinding c.source = .ok () ∧ t.checkBinding c.target = .ok () ∧
        c.maxDiagnosticBytes = r.options.maxDiagnosticBytes := by
  simp only [ofRegistry, bind_eq_ok_iff, pure_eq_ok_iff, Registry.lookup_eq_ok_iff]
  constructor
  · rintro ⟨source, hsource, target, htarget, ⟨⟩, hsourceBinding, ⟨⟩, htargetBinding, rfl⟩
    exact ⟨hsource, htarget, hsourceBinding, htargetBinding, rfl⟩
  · rintro ⟨hsource, htarget, hsourceBinding, htargetBinding, hmax⟩
    exact ⟨_, hsource, _, htarget, (), hsourceBinding, (), htargetBinding, by cases c; simp_all⟩

/-- The facts and the options that evidence rests on stay. -/
lemma ofRegistry_mono {source target : TypeId} {h : u.storage = t.storage}
    (hc : ofRegistry r source target h = .ok c) (hle : r.Extends r')
    (hoptions : r'.options = r.options) : ofRegistry r' source target h = .ok c := by
  rw [ofRegistry_eq_ok_iff] at hc ⊢
  obtain ⟨hsource, htarget, hsourceBinding, htargetBinding, hmax⟩ := hc
  exact ⟨hle.fact _ _ hsource, hle.fact _ _ htarget, hsourceBinding, htargetBinding,
    hoptions ▸ hmax⟩

/-- Evidence for a pair that the registry knows to be a universe is right. -/
lemma isHeldBy_of_isUniverse (hr : r.Consistent) {source target : TypeId}
    {h : u.storage = t.storage} (hsource : r.findHostType u = source)
    (htarget : r.findHostType t = target) (huniverse : r.isUniverse source target = true)
    (hc : ofRegistry r source target h = .ok c) : c.IsHeldBy r := by
  obtain ⟨hsourceFact, htargetFact, hsourceBinding, htargetBinding, -⟩ :=
    ofRegistry_eq_ok_iff.mp hc
  obtain ⟨hnicheless, sourceFact, targetFact, hs, ht, hstorage⟩ := hr.of_isUniverse huniverse
  obtain rfl : sourceFact = c.source := Option.some.inj (hs.symm.trans hsourceFact)
  obtain rfl : targetFact = c.target := Option.some.inj (ht.symm.trans htargetFact)
  subst hsource htarget
  exact ⟨hsourceFact, htargetFact, hnicheless, hstorage, hsourceBinding, htargetBinding⟩

/-- Evidence is found for a universe whose facts are bound. That both types are known need not be
asked, as they have facts. -/
lemma lookup_eq_ok_iff {h : u.storage = t.storage} :
    lookup r u t h = .ok c ↔
      r.isUniverse (r.findHostType u) (r.findHostType t) = true ∧
        ofRegistry r (r.findHostType u) (r.findHostType t) h = .ok c := by
  simp only [lookup]
  split
  · rename_i hdeclared
    simp only [Bool.and_eq_true] at hdeclared
    exact (and_iff_right hdeclared.2).symm
  · rename_i hdeclared
    refine iff_of_false nofun ?_
    rintro ⟨huniverse, hc⟩
    obtain ⟨hsource, htarget, -⟩ := ofRegistry_eq_ok_iff.mp hc
    simp [Registry.isValid_of_fact? hsource, Registry.isValid_of_fact? htarget, huniverse]
      at hdeclared

lemma isHeldBy_of_lookup (hr : r.Consistent) {h : u.storage = t.storage}
    (hc : lookup r u t h = .ok c) : c.IsHeldBy r := by
  obtain ⟨huniverse, hevidence⟩ := lookup_eq_ok_iff.mp hc
  exact isHeldBy_of_isUniverse hr rfl rfl huniverse hevidence

/-- A declaration makes both types known, declares the pair, and then looks at the facts. -/
lemma run_declare (h : u.storage = t.storage) (r : Registry κ) :
    let known := ((r.intern u).2.intern t)
    (declare u t h).run r =
      match known.2.declareUniverse (r.intern u).1 known.1 with
      | .ok r' => (liftM (ofRegistry r' (r.intern u).1 known.1 h), r')
      | .error e => (.error (.error e), known.2) := by
  intro known
  rw [declare, Session.run_bind, Session.idOf, Session.run_write]
  dsimp only
  rw [Session.run_bind, Session.idOf, Session.run_write]
  dsimp only
  rw [Session.run_bind, Session.declareUniverse, Session.run_update]
  simp only [known]
  cases ((r.intern u).2.intern t).2.declareUniverse (r.intern u).1 ((r.intern u).2.intern t).1 <;> rfl

lemma run_declare_of_lookup (h : u.storage = t.storage) {source target : TypeId}
    (hsource : r.hostTypes.lookup u = some source) (htarget : r.hostTypes.lookup t = some target) :
    (declare u t h).run r =
      match r.declareUniverse source target with
      | .ok r' => (liftM (ofRegistry r' source target h), r')
      | .error e => (.error (.error e), r) := by
  rw [run_declare, Registry.intern_of_lookup hsource, Registry.intern_of_lookup htarget]

/-- A declaration that succeeds made both types known, and the pair is declared afterwards. -/
lemma declare_eq_ok {h : u.storage = t.storage} (hrun : (declare u t h).run r = (.ok c, r')) :
    let known := ((r.intern u).2.intern t)
    known.2.declareUniverse (r.intern u).1 known.1 = .ok r' ∧
      ofRegistry r' (r.intern u).1 known.1 h = .ok c := by
  intro known
  rw [run_declare] at hrun
  split at hrun
  · rename_i declared hdeclare
    rw [Prod.mk.injEq, liftM_error_eq_ok_iff] at hrun
    obtain ⟨hc, rfl⟩ := hrun
    exact ⟨hdeclare, hc⟩
  · cases hrun

/-- Both types are known when their pair has been declared. -/
lemma lookup_of_declareUniverse
    (hdeclare : ((r.intern u).2.intern t).2.declareUniverse (r.intern u).1
      ((r.intern u).2.intern t).1 = .ok r') :
    r'.hostTypes.lookup u = some (r.intern u).1 ∧
      r'.hostTypes.lookup t = some ((r.intern u).2.intern t).1 := by
  obtain ⟨-, -, hfrozen, -, -, hhosts, -⟩ := Registry.declareUniverse_spec hdeclare
  rw [Registry.frozen_intern] at hfrozen
  rw [hhosts]
  refine ⟨Registry.lookup_of_intern (Registry.lookup_intern ?_ u), Registry.lookup_intern hfrozen t⟩
  rwa [Registry.frozen_intern] at hfrozen

/-- What a declaration answers with can be looked up at any later time. -/
lemma lookup_of_declare {s : Registry κ} {h : u.storage = t.storage}
    (hrun : (declare u t h).run r = (.ok c, r')) (hle : r'.Extends s)
    (hoptions : s.options = r'.options) : lookup s u t h = .ok c := by
  obtain ⟨hdeclare, hc⟩ := declare_eq_ok hrun
  obtain ⟨hsource, htarget⟩ := lookup_of_declareUniverse hdeclare
  obtain ⟨-, -, -, -, -, -, huniverses⟩ := Registry.declareUniverse_spec hdeclare
  have hdeclared := hle.declared _ ((huniverses _).mpr (.inr rfl))
  rw [lookup_eq_ok_iff, Registry.findHostType_of_lookup (hle.hostType _ _ hsource),
    Registry.findHostType_of_lookup (hle.hostType _ _ htarget)]
  exact ⟨by simp [Registry.isUniverse, hdeclared], ofRegistry_mono hc hle hoptions⟩

lemma isHeldBy_of_declare {h : u.storage = t.storage} (hr' : r'.Consistent)
    (hrun : (declare u t h).run r = (.ok c, r')) : c.IsHeldBy r' :=
  isHeldBy_of_lookup hr' (lookup_of_declare hrun (.refl r') rfl)

/-! ### Conversion -/

lemma size_eq (c : Universe κ u t) : u.size = t.size := congrArg Storage.size c.storage_eq

lemma IsHeldBy.target_size_le (hc : c.IsHeldBy r) : c.target.size ≤ u.size := by
  obtain ⟨htarget | ⟨-, htarget⟩, -⟩ := HostType.checkBinding_eq_ok_iff.mp hc.targetBinding
  · rw [htarget, c.size_eq]
    exact UInt64.le_refl _
  · rw [htarget, UInt64.le_iff_toNat_le]
    exact Nat.zero_le _

variable [Check κ]

lemma checkedReinterpret_of_none {v : HostValue u}
    (h : c.target.validity.findViolation (v.bytes.take c.target.size.toNat) = .ok none) :
    c.checkedReinterpret v = .ok (v.reinterpret c.size_eq) := by
  rw [checkedReinterpret, h]
  rfl

lemma checkedReinterpret_of_some {v : HostValue u} {violation : Violation}
    (h : c.target.validity.findViolation (v.bytes.take c.target.size.toNat) =
      .ok (some violation)) :
    c.checkedReinterpret v = .error (.error
      (.invalidBitPattern c.source.name c.target.name violation c.maxDiagnosticBytes)) := by
  rw [checkedReinterpret, h]
  rfl

/-- A conversion has one of two outcomes, and the check of the bytes decides which. -/
lemma checkedReinterpret_cases (hc : c.IsHeldBy r) (hr : r.Consistent) (hfacts : r.FactsSound)
    (v : HostValue u) :
    (c.target.validity.findViolation (v.bytes.take c.target.size.toNat) = .ok none ∧
      c.checkedReinterpret v = .ok (v.reinterpret c.size_eq)) ∨
    ∃ violation,
      c.target.validity.findViolation (v.bytes.take c.target.size.toNat) = .ok (some violation) ∧
      c.checkedReinterpret v = .error (.error
        (.invalidBitPattern c.source.name c.target.name violation c.maxDiagnosticBytes)) := by
  have hwf := (Predicate.isSound_iff.mp (hfacts _ _ hc.target)).1
  have hle : c.target.size.toNat ≤ v.bytes.length := by
    rw [v.length_eq]
    exact UInt64.le_iff_toNat_le.mp hc.target_size_le
  have hlen : (v.bytes.take c.target.size.toNat).length = c.target.validity.size.toNat := by
    rw [List.length_take, Nat.min_eq_left hle, hr.size_eq _ _ hc.target]
  obtain ⟨_ | violation, houtcome⟩ := Predicate.exists_findViolation hwf hlen
  · exact .inl ⟨houtcome, checkedReinterpret_of_none houtcome⟩
  · exact .inr ⟨violation, houtcome, checkedReinterpret_of_some houtcome⟩

/-- A value of the target type is a value of the universe, of which every bit pattern is one. -/
lemma source_accepts (hc : c.IsHeldBy r) (hr : r.Consistent) (hproofs : r.ProofsSound)
    (w : HostValue t) : c.source.validity.Accepts (w.bytes.take c.source.size.toNat) := by
  have hsize : c.source.size = c.target.size := congrArg Storage.size hc.storage_eq
  have hle : c.source.size.toNat ≤ w.bytes.length := by
    rw [w.length_eq, hsize, ← c.size_eq]
    exact UInt64.le_iff_toNat_le.mp hc.target_size_le
  refine hproofs _ _ hc.nicheless hc.source _ ?_
  rw [List.length_take, Nat.min_eq_left hle, hr.size_eq _ _ hc.source]

/-! ### Evidence in runs -/

variable [DecidableEq κ]

/-- To declare a universe of host types is to perform three operations. -/
lemma leads_of_declare {h : u.storage = t.storage}
    (hrun : (declare u t h).run r = (.ok c, r')) :
    Registry.Leads Operation.IsAdmissible r r' := by
  obtain ⟨hdeclare, -⟩ := declare_eq_ok hrun
  have hadmissible : ∀ (r : Registry κ) (t : HostType),
      (.idOf t : Operation κ).IsAdmissible r := by
    intro r t
    exact ⟨by simp [Operation.SuppliesSound, Operation.supplied], trivial, trivial⟩
  rw [← Registry.after_declareUniverse hdeclare, ← Registry.after_idOf, ← Registry.after_idOf]
  refine .step (.step (.step .refl (hadmissible r u)) (hadmissible _ t)) ⟨?_, trivial, trivial⟩
  simp [Operation.SuppliesSound, Operation.supplied]

/-- The evidence was handed out by a registry, which is in the given state afterwards, and callers
kept to what they promise until then. -/
inductive HandedOut (c : Universe κ u t) : Registry κ → Prop where
  | declared {r r' : Registry κ} {h : u.storage = t.storage}
      (hr : Registry.ReachableBy Operation.IsAdmissible r)
      (hrun : (declare u t h).run r = (.ok c, r')) : HandedOut c r'
  | lookedUp {r : Registry κ} {h : u.storage = t.storage}
      (hr : Registry.ReachableBy Operation.IsAdmissible r) (hc : lookup r u t h = .ok c) :
      HandedOut c r

namespace HandedOut

lemma reachable (hc : c.HandedOut r) : Registry.ReachableBy Operation.IsAdmissible r := by
  cases hc with
  | declared hr hrun =>
    obtain ⟨options, hr⟩ := hr
    exact ⟨options, hr.trans (leads_of_declare hrun)⟩
  | lookedUp hr hc => exact hr

lemma isHeldBy (hc : c.HandedOut r) : c.IsHeldBy r := by
  have hr := Registry.ReachableBy.consistent hc.reachable
  cases hc with
  | declared _ hrun => exact isHeldBy_of_declare hr hrun
  | lookedUp _ hc => exact isHeldBy_of_lookup hr hc

end HandedOut

/-- Booleans are stored as bytes are. -/
lemma storage_byte : (HostType.int ⟨.one, false⟩).storage = HostType.bool.storage := rfl

/-- Bytes as a universe of booleans. -/
def boolUniverse : Universe Empty (.int ⟨.one, false⟩) .bool :=
  ⟨⟨⟨1, 1⟩, "uint8_t", .allValid 1 "uint8_t"⟩,
    ⟨⟨1, 1⟩, "bool", .intRanges .one false [⟨0, 0⟩, ⟨1, 1⟩] "bool"⟩, 16, storage_byte⟩

/-- A registry that knows bytes and booleans. -/
def boolRegistry : Registry Empty :=
  (((((Registry.empty .standard).after (.idOf (.int ⟨.one, false⟩))).after
    (.register ⟨0⟩ boolUniverse.source.draft)).after (.proveNicheless ⟨0⟩)).after
    (.idOf .bool)).after (.register ⟨1⟩ boolUniverse.target.draft)

lemma reachable_boolRegistry : boolRegistry.ReachableBy Operation.IsAdmissible := by
  refine ⟨.standard, .step (.step (.step (.step (.step .refl ⟨?_, trivial, trivial⟩)
    ⟨?_, trivial, trivial⟩) ⟨?_, trivial, trivial⟩) ⟨?_, trivial, trivial⟩)
    ⟨?_, trivial, trivial⟩⟩ <;>
  simp only [Operation.SuppliesSound, Operation.supplied, LayoutFact.draft, Option.toList_some,
    List.mem_singleton, forall_eq, List.not_mem_nil, IsEmpty.forall_iff, implies_true] <;> rfl

lemma handedOut_boolUniverse :
    boolUniverse.HandedOut ((declare (.int ⟨.one, false⟩) .bool rfl).run boolRegistry).2 :=
  .declared reachable_boolRegistry rfl

end Universe

end BitValidity
