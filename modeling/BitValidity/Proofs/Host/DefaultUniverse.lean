import BitValidity.Proofs.Host.Declaration
import BitValidity.Proofs.Registry.Completeness
import BitValidity.Proofs.Registry.Redefinition

/-!
# The default universe

Storage that may hold any bit pattern is meant to be a universe of every type. It is registered with
the storage that the type has on the host, and then it must have the storage that the fact of the
type describes. That is the same for every fact that is bound to its type, except for the fact
without bytes that an empty class may have (`is_default_universe_iff`).
-/

namespace BitValidity

variable {κ : Type} {r r' : Registry κ} {t u : HostType} {type : TypeId}

/-! ### Identities -/

namespace Registry

/-- Every type of the host that is known has an entry. -/
def ListsHosts (r : Registry κ) : Prop :=
  ∀ t type, r.hostTypes.lookup t = some type → type.value.toNat < r.size

namespace ListsHosts

lemma empty (options : RegistryOptions) : (Registry.empty options : Registry κ).ListsHosts := by
  intro t type h
  simp [Registry.empty] at h

lemma mono (h : r.ListsHosts) (hhosts : r'.hostTypes = r.hostTypes) (hsize : r.size ≤ r'.size) :
    r'.ListsHosts := by
  intro t type hlookup
  rw [hhosts] at hlookup
  exact (h t type hlookup).trans_le hsize

/-- A new type gets the identity of the entry that is made for it. Identities may run out and start
again from the first. -/
lemma intern (h : r.ListsHosts) (t : HostType) : (r.intern t).2.ListsHosts := by
  simp only [Registry.intern]
  split
  · exact h
  split
  · exact h
  intro u type hlookup
  simp only [allocate, List.lookup_append, Option.or_eq_some_iff] at hlookup
  simp only [size, allocate, List.length_append, List.length_singleton]
  rcases hlookup with hknown | ⟨-, hnew⟩
  · exact (h u type hknown).trans (Nat.lt_succ_self _)
  · rw [List.lookup_cons] at hnew
    split at hnew
    · cases hnew
      exact Nat.lt_succ_of_le (Nat.mod_le _ _)
    · cases hnew

lemma exists_entry (h : r.ListsHosts) (hlookup : r.hostTypes.lookup t = some type)
    (hvalid : type.isValid = true) : ∃ entry, r.entry? type = some entry := by
  rw [Registry.entry?, if_pos hvalid]
  exact ⟨_, List.getElem?_eq_getElem (h t type hlookup)⟩

/-- While there are fewer types than identities, a type of the host has an identity or is given one,
and it has no fact under a new one. -/
lemma isFree_of_size_lt (h : r.ListsHosts) (hfrozen : r.frozen = false)
    (hnew : r.fact? (r.findHostType t) = none) (hsize : r.size < 4294967295) :
    (r.intern t).1.isValid = true ∧ r.fact? (r.intern t).1 = none := by
  cases hlookup : r.hostTypes.lookup t with
  | some type =>
    rw [findHostType_of_lookup hlookup] at hnew
    rw [intern_of_lookup hlookup]
    exact ⟨TypeId.isValid_of_lt ((h t type hlookup).trans hsize), hnew⟩
  | none =>
    rw [intern_of_lookup_eq_none hfrozen hlookup]
    have htoNat := toNat_next hsize
    refine ⟨TypeId.isValid_of_lt (by rwa [htoNat]), ?_⟩
    rw [fact?, entry?, htoNat, List.getElem?_eq_none (by exact le_rfl), ite_self]
    rfl

end ListsHosts

variable [Check κ] [DecidableEq κ]

theorem Step.listsHosts {op : Operation κ} (hstep : Step r op r') (h : r.ListsHosts) :
    r'.ListsHosts := by
  have hregister {type : TypeId} {draft : DraftFact κ} {s : Registry κ}
      (hregister : r.register type draft = .ok s) : s.ListsHosts := by
    obtain ⟨-, -, hhosts, hsize⟩ := register_frame hregister
    exact h.mono hhosts hsize.ge
  have hrecord {type : TypeId} {proof : NichelessProof} {s s' : Registry κ} (h : s.ListsHosts)
      (hrecord : s.recordProof type proof = .ok s') : s'.ListsHosts := by
    obtain ⟨-, -, hhosts, hsize⟩ := recordProof_frame hrecord
    exact h.mono hhosts hsize.ge
  cases hstep with
  | refused => exact h
  | interned t => exact h.intern t
  | allocated name => exact h.mono rfl (by simp [size, allocate])
  | registered h | defined _ h => exact hregister h
  | definedNicheless _ h _ h' => exact hrecord (hregister h) h'
  | proved _ h' | asserted _ h' => exact hrecord h h'
  | declared hdeclare =>
    obtain ⟨-, -, -, rfl⟩ := declareUniverse_cases hdeclare
    exact h.mono rfl le_rfl
  | frozen => exact h.mono rfl le_rfl

theorem ReachableBy.listsHosts {Allowed : Registry κ → Operation κ → Prop}
    (h : ReachableBy Allowed r) : r.ListsHosts := by
  apply h.invariant
  · exact .empty
  · intro s op _ _ hstep hs
    exact hstep.listsHosts hs

end Registry

/-! ### Registration -/

variable [Check κ]

/-- Of a fact that accepts everything it is derived that its type is nicheless. -/
lemma LayoutFact.exists_derived_allValid (storage : Storage) (name : String) :
    ∃ rule, (⟨storage, name, .allValid storage.size name⟩ : LayoutFact κ).deriveNicheless =
      .ok (.derived rule) := by
  have hall : (Predicate.allValid storage.size name : Predicate κ).AcceptsAll := fun bytes h =>
    Predicate.accepts_allValid_iff.mpr h
  obtain ⟨proof, hproof⟩ : ∃ proof, (⟨storage, name, .allValid storage.size name⟩ :
      LayoutFact κ).deriveNicheless = .ok proof :=
    LayoutFact.exists_deriveNicheless rfl rfl hall
  obtain ⟨-, ⟨-, rfl⟩ | ⟨-, -, rfl⟩⟩ := LayoutFact.deriveNicheless_eq_ok_iff.mp hproof <;>
  exact ⟨_, hproof⟩

variable [DecidableEq κ]

namespace Session

/-- A type of which nothing but the name is known can be defined as one of which every bit pattern
is a value, and it is derived that it is nicheless. -/
lemma exists_run_define_allValid {entry : Entry κ} (storage : Storage) (name : String)
    (hopen : r.frozen = false) (hentry : r.entry? type = some entry) (hfact : entry.fact? = none)
    (hproof : r.proof? type = none) (hpow : isPowerOfTwo storage.alignment = true) :
    let fact : LayoutFact κ := ⟨storage, name, .allValid storage.size name⟩
    ∃ rule r', (define type (.leaf fact.draft) none).run r = (.ok fact, r') ∧ r.Extends r' ∧
      r'.frozen = false ∧ r'.hostTypes = r.hostTypes ∧ r'.fact? type = some fact ∧
      r'.proof? type = some (.derived rule) := by
  intro fact
  obtain ⟨r₁, hregister, hfact₁⟩ : ∃ r', r.register type fact.draft = .ok r' ∧
      r'.fact? type = some fact := Registry.exists_register rfl hpow hopen hentry hfact
  obtain ⟨-, -, -, -, -, -, hproof₁, hhosts₁, -⟩ := Registry.register_spec hregister
  have hopen₁ := Registry.frozen_of_register hregister
  obtain ⟨rule, hderive⟩ := LayoutFact.exists_derived_allValid (κ := κ) storage name
  have hderive₁ : r₁.deriveNicheless type = .ok (.derived rule) :=
    (Registry.deriveNicheless_eq (hproof₁ ▸ hproof) hfact₁).trans hderive
  obtain ⟨r₂, hrecord⟩ := Registry.exists_recordProof hopen₁ hfact₁ (.derived rule)
  obtain ⟨-, hfact₂, hproof₂, hhosts₂, -⟩ := Registry.recordProof_spec hrecord
  refine ⟨rule, r₂, ?_, (Registry.extends_of_register hregister).trans
    (Registry.extends_of_recordProof hrecord), (Registry.frozen_of_recordProof hrecord).trans hopen₁,
    hhosts₂.trans hhosts₁, ?_, ?_⟩
  · exact run_define_eq_ok_iff.mpr ⟨fact.draft, r₁, rfl, rfl, hregister, hfact₁,
      run_recordIfProven_eq_ok_iff.mpr (.inl ⟨_, hderive₁, hrecord⟩)⟩
  · rw [hfact₂, hfact₁]
  · rw [hproof₂, Function.update_self, hproof₁, hproof, Option.getD_none]

/-- The registry knows the type under the identity, as one of which every bit pattern is a value. -/
structure HasAllValid (r : Registry κ) (u : HostType) (type : TypeId) (name : String) : Prop where
  unfrozen : r.frozen = false
  lookup : r.hostTypes.lookup u = some type
  fact : r.fact? type = some ⟨u.storage, name, .allValid u.size name⟩
  derived : ∃ rule, r.proof? type = some (.derived rule)

lemma exists_run_registerLeaf_allValid (hr : r.Consistent) (hlists : r.ListsHosts)
    (hopen : r.frozen = false) (hvalid : (r.intern u).1.isValid = true)
    (hnew : r.fact? (r.intern u).1 = none) (hpow : isPowerOfTwo u.alignment = true)
    (name : String) :
    ∃ r', (registerLeaf u name (some (.allValid u.size name))).run r = (.ok (r.intern u).1, r') ∧
      r.Extends r' ∧ HasAllValid r' u (r.intern u).1 name := by
  obtain ⟨hfact, hproof, -⟩ := r.intern_spec u
  have hlookup := Registry.lookup_intern hopen u
  obtain ⟨entry, hentry⟩ := (hlists.intern u).exists_entry hlookup hvalid
  have hnone : entry.fact? = none := by rw [← Registry.fact?_eq hentry, hfact, hnew]
  -- there is no proof without a fact
  have hunproven : (r.intern u).2.proof? (r.intern u).1 = none := by
    rw [hproof, Registry.proof?_eq_none_iff, Bool.eq_false_iff]
    intro hnicheless
    obtain ⟨fact, hknown⟩ := hr.proven _ hnicheless
    cases hnew.symm.trans hknown
  obtain ⟨rule, r', hdefine, hle, hopen', hhosts, hfact', hproof'⟩ :=
    exists_run_define_allValid u.storage name ((Registry.frozen_intern u).trans hopen) hentry hnone
      hunproven hpow
  refine ⟨r', ?_, (r.extends_intern u).trans hle, hopen', hhosts ▸ hlookup, hfact', rule, hproof'⟩
  exact run_defineHost_eq_ok_iff.mpr ⟨rfl, _, hdefine⟩

/-- The storage of a type is registered, and then it is declared a universe of the type. -/
lemma exists_run_registerMaybeInvalid (hr : r.Consistent) (hlists : r.ListsHosts)
    (hopen : r.frozen = false) {fact : LayoutFact κ}
    (hfact : r.fact? (r.findHostType t) = some fact) (halignment : fact.alignment = t.alignment)
    (hvalid : (r.intern (.maybeInvalid t)).1.isValid = true)
    (hnew : r.fact? (r.intern (.maybeInvalid t)).1 = none) :
    ∃ name r', (registerMaybeInvalid t).run r = (Universe.declare (.maybeInvalid t) t rfl).run r' ∧
      r.Extends r' ∧ HasAllValid r' (.maybeInvalid t) (r.intern (.maybeInvalid t)).1 name := by
  have hlookup := Registry.lookup_hostTypes_of_fact? hfact
  have hpow : isPowerOfTwo t.alignment = true := halignment ▸ hr.aligned _ _ hfact
  obtain ⟨r', hrun, hle, hknown⟩ := exists_run_registerLeaf_allValid hr hlists hopen hvalid hnew hpow
    s!"MaybeInvalid<{fact.name}>"
  have hrun' : (registerLeaf (.maybeInvalid t) _ (some (.allValid t.size _))).run r = _ := hrun
  refine ⟨_, r', ?_, hle, hknown⟩
  rw [registerMaybeInvalid, run_bind, run_idOf_of_lookup hlookup]
  dsimp only
  rw [run_bind, run_lookup_of_fact hfact]
  dsimp only
  rw [run_bind, hrun']

end Session

/-! ### Declaration -/

omit [DecidableEq κ] in
lemma Universe.exists_checkedReinterpret_iff (c : Universe κ u t) (v : HostValue u) :
    (∃ w, c.checkedReinterpret v = .ok w) ↔
      c.target.validity.findViolation (v.bytes.take c.target.size.toNat) = .ok none := by
  rw [checkedReinterpret]
  rcases c.target.validity.findViolation (v.bytes.take c.target.size.toNat) with
    failure | ⟨_ | violation⟩ <;>
  simp [liftM, monadLift, MonadLift.monadLift]

variable {name : String} {fact : LayoutFact κ}

lemma HostType.storage_maybeInvalid (t : HostType) : (maybeInvalid t).storage = t.storage := rfl

namespace Session.HasAllValid

omit [Check κ] [DecidableEq κ] in
lemma isNicheless (h : HasAllValid r u type name) : r.isNicheless type = true := by
  obtain ⟨rule, hproof⟩ := h.derived
  rw [Registry.isNicheless, hproof]
  rfl

omit [Check κ] [DecidableEq κ] in
/-- With the storage of the fact it can be declared a universe of the type. -/
lemma exists_run_declare (h : HasAllValid r (.maybeInvalid t) type name)
    (hfact : r.fact? (r.findHostType t) = some fact) (hbinding : t.checkBinding fact = .ok ())
    (hstorage : t.storage = fact.toStorage) :
    ∃ c r', (Universe.declare (.maybeInvalid t) t rfl).run r = (.ok c, r') ∧ c.target = fact ∧
      r'.findHostType (.maybeInvalid t) = type ∧ r'.proof? = r.proof? := by
  obtain ⟨r', hdeclare⟩ : ∃ r', r.declareUniverse type (r.findHostType t) = .ok r' :=
    ⟨_, Registry.declareUniverse_eq_ok h.unfrozen h.fact hfact h.isNicheless hstorage⟩
  obtain ⟨-, -, -, hfact', hproof', hhosts, -⟩ := Registry.declareUniverse_spec hdeclare
  let source : LayoutFact κ :=
    ⟨(HostType.maybeInvalid t).storage, name, .allValid (HostType.maybeInvalid t).size name⟩
  have hevidence : Universe.ofRegistry r' type (r.findHostType t) t.storage_maybeInvalid =
      .ok ⟨source, fact, r'.options.maxDiagnosticBytes, t.storage_maybeInvalid⟩ := by
    rw [Universe.ofRegistry_eq_ok_iff, hfact']
    exact ⟨h.fact, hfact, HostType.checkBinding_eq_ok_iff.mpr ⟨.inl rfl, rfl⟩, hbinding, rfl⟩
  have hhost : r'.findHostType (.maybeInvalid t) = type :=
    Registry.findHostType_of_lookup (hhosts ▸ h.lookup)
  rw [Universe.run_declare_of_lookup t.storage_maybeInvalid h.lookup
    (Registry.lookup_hostTypes_of_fact? hfact), hdeclare]
  dsimp only
  rw [hevidence]
  exact ⟨_, r', rfl, rfl, hhost, hproof'⟩

omit [Check κ] [DecidableEq κ] in
/-- With another storage it is refused. -/
lemma run_declare_of_storage_ne (h : HasAllValid r (.maybeInvalid t) type name)
    (hfact : r.fact? (r.findHostType t) = some fact) (hstorage : t.storage ≠ fact.toStorage) :
    ∃ e, (Universe.declare (.maybeInvalid t) t rfl).run r = (.error (.error e), r) ∧
      e.kind = .layoutMismatch := by
  rw [Universe.run_declare_of_lookup t.storage_maybeInvalid h.lookup
      (Registry.lookup_hostTypes_of_fact? hfact),
    Registry.declareUniverse_eq_error h.unfrozen h.fact hfact h.isNicheless hstorage]
  exact ⟨_, rfl, rfl⟩

end Session.HasAllValid

/-- Whatever led to a registry that is not frozen, and whatever type of the host is known there by a
fact that describes its storage, while the storage for any of its bit patterns has no fact yet. To
register that storage succeeds exactly if the fact has the size of the type, which is every fact but
the one without bytes that an empty class may have. Then the storage is derived to be nicheless, and
bytes of it are converted exactly when the fact accepts as many of them as it has. Otherwise the
storages do not match. The storage must be given an identity for this, and a free one is there while
the registry knows fewer types than there are identities. -/
theorem is_default_universe_iff (hr : r.Reachable) (hopen : r.frozen = false)
    (hfact : r.fact? (r.findHostType t) = some fact) (hbinding : t.checkBinding fact = .ok ())
    (hnew : r.fact? (r.findHostType (.maybeInvalid t)) = none) :
    let type := (r.intern (.maybeInvalid t)).1
    let outcome := (Session.registerMaybeInvalid t).run r
    (r.size < 4294967295 → type.isValid = true ∧ r.fact? type = none) ∧
    (type.isValid = true → r.fact? type = none →
      ((∃ c, outcome.1 = .ok c) ↔ fact.size = t.size) ∧
      (∀ c, outcome.1 = .ok c →
        outcome.2.findHostType (.maybeInvalid t) = type ∧
        (∃ rule, outcome.2.proof? type = some (.derived rule)) ∧
        ∀ bytes : Bytes, bytes.length = t.size.toNat →
          ∃ v, MaybeInvalid.ofBytes t bytes = .ok v ∧
            ((∃ w, c.checkedReinterpret v = .ok w) ↔
              fact.validity.findViolation (bytes.take fact.size.toNat) = .ok none)) ∧
      ∀ failure, outcome.1 = .error failure →
        ∃ e, failure = .error e ∧ e.kind = .layoutMismatch) := by
  intro type outcome
  have hlists := Registry.ReachableBy.listsHosts hr
  refine ⟨hlists.isFree_of_size_lt hopen hnew, ?_⟩
  intro hvalid hfree
  obtain ⟨-, halignment⟩ := HostType.checkBinding_eq_ok_iff.mp hbinding
  obtain ⟨name, r', hrun, hle, hknown⟩ := Session.exists_run_registerMaybeInvalid
    (Registry.ReachableBy.consistent hr) hlists hopen hfact halignment hvalid hfree
  have hfact' : r'.fact? (r'.findHostType t) = some fact :=
    hle.findHostType_eq hfact ▸ hle.fact _ _ hfact
  by_cases hsize : fact.size = t.size
  · have hstorage : t.storage = fact.toStorage := by rw [HostType.storage, ← hsize, ← halignment]
    obtain ⟨c, r'', hdeclare, htarget, hhost, hproof⟩ :=
      hknown.exists_run_declare hfact' hbinding hstorage
    have houtcome : outcome = (.ok c, r'') := hrun.trans hdeclare
    rw [houtcome]
    refine ⟨iff_of_true ⟨c, rfl⟩ hsize, ?_, nofun⟩
    rintro c ⟨⟩
    refine ⟨hhost, hproof ▸ hknown.derived, ?_⟩
    intro bytes hlen
    refine ⟨⟨bytes, hlen⟩, dif_pos hlen, ?_⟩
    rw [c.exists_checkedReinterpret_iff, htarget]
  · have hstorage : t.storage ≠ fact.toStorage := fun h => hsize (congrArg Storage.size h).symm
    obtain ⟨e, hdeclare, hkind⟩ := hknown.run_declare_of_storage_ne hfact' hstorage
    have houtcome : outcome = (.error (.error e), r') := hrun.trans hdeclare
    rw [houtcome]
    refine ⟨iff_of_false nofun hsize, nofun, ?_⟩
    rintro failure ⟨⟩
    exact ⟨e, rfl, hkind⟩

/-- Booleans have a fact with the byte that they are stored in. -/
theorem is_default_universe_iff_bool :
    Universe.boolRegistry.Reachable ∧ Universe.boolRegistry.frozen = false ∧
      Universe.boolRegistry.fact? (Universe.boolRegistry.findHostType .bool) =
        some Universe.boolUniverse.target ∧
      HostType.bool.checkBinding Universe.boolUniverse.target = .ok () ∧
      Universe.boolRegistry.fact? (Universe.boolRegistry.findHostType (.maybeInvalid .bool)) =
        none ∧
      ∃ c, ((Session.registerMaybeInvalid .bool).run Universe.boolRegistry).1 = .ok c := by
  have hreach := Universe.reachable_boolRegistry.reachable
  have hfact : Universe.boolRegistry.fact? (Universe.boolRegistry.findHostType .bool) =
      some Universe.boolUniverse.target := rfl
  have hbinding : HostType.bool.checkBinding Universe.boolUniverse.target = .ok () := rfl
  obtain ⟨hroom, hiff⟩ := is_default_universe_iff hreach rfl hfact hbinding rfl
  obtain ⟨hvalid, hfree⟩ := hroom (by decide)
  exact ⟨hreach, rfl, hfact, hbinding, rfl, (hiff hvalid hfree).1.mpr rfl⟩

def unitFact : LayoutFact Empty := ⟨⟨0, 1⟩, "Unit", .allValid 0 "Unit"⟩

def unitRegistry : Registry Empty :=
  ((Registry.empty .standard).after (.idOf .unit)).after (.define ⟨0⟩ (.leaf unitFact.draft) none)

/-- The unit has a byte of storage, and its fact has none. -/
theorem no_default_universe_unit :
    unitRegistry.Reachable ∧ unitRegistry.frozen = false ∧
      unitRegistry.fact? (unitRegistry.findHostType .unit) = some unitFact ∧
      HostType.unit.checkBinding unitFact = .ok () ∧
      unitRegistry.fact? (unitRegistry.findHostType (.maybeInvalid .unit)) = none ∧
      ∃ failure, ((Session.registerMaybeInvalid .unit).run unitRegistry).1 = .error failure :=
  ⟨⟨.standard, .step (.step .refl trivial) trivial⟩, rfl, rfl, rfl, rfl, _, rfl⟩

end BitValidity
