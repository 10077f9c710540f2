import BitValidity.Proofs.Outcome
import BitValidity.Registry.Basic
import Mathlib.Logic.Function.Basic

/-!
# What a write changes

A registry is looked at through `fact?`, `proof?`, the identities of host types and the declared
universes. For each write there is one lemma that says what of this it changes and on what
condition; no later proof looks at the entries. Nothing is ever taken back: after any write a
registry `Extends` the one before.
-/

namespace BitValidity

variable {κ : Type}

/-- The fact that a draft becomes if its predicate is in order. -/
def DraftFact.toFact (draft : DraftFact κ) (validity : Predicate κ) : LayoutFact κ :=
  ⟨draft.toStorage, draft.name, validity⟩

/-- Only the last of all indices is not that of a type. -/
lemma TypeId.isValid_of_lt {type : TypeId} (h : type.value.toNat < 4294967295) :
    type.isValid = true := by
  rw [isValid, bne_iff_ne]
  rintro rfl
  exact absurd h (by decide)

namespace Registry

variable {r r' : Registry κ} {type : TypeId}

/-! ### The empty registry -/

@[simp] lemma entry?_empty (options : RegistryOptions) :
    Registry.entry? (empty options : Registry κ) type = none := by
  simp [empty, entry?]

@[simp] lemma fact?_empty (options : RegistryOptions) :
    (empty options : Registry κ).fact? type = none := by
  simp [fact?]

@[simp] lemma proof?_empty (options : RegistryOptions) :
    (empty options : Registry κ).proof? type = none := by
  simp [proof?]

/-! ### Entries -/

lemma entry?_setEntry {known : Entry κ} (h : r.entry? type = some known) (entry : Entry κ) :
    Registry.entry? (r.setEntry type entry) = Function.update r.entry? type (some entry) := by
  funext other
  simp only [setEntry, entry?] at h ⊢
  by_cases htype : other = type
  · subst htype
    split at h
    · rename_i hvalid
      obtain ⟨hlt, -⟩ := List.getElem?_eq_some_iff.mp h
      simp [hvalid, hlt]
    · cases h
  · have hne : type.value.toNat ≠ other.value.toNat := by
      intro heq
      apply htype
      cases other
      cases type
      simpa [UInt32.toNat_inj, eq_comm] using heq
    simp [Function.update_of_ne htype, List.getElem?_set_ne hne, entry?]

lemma fact?_eq {entry : Entry κ} (h : r.entry? type = some entry) :
    r.fact? type = entry.fact? := by
  simp [fact?, h]

lemma proof?_eq {entry : Entry κ} (h : r.entry? type = some entry) :
    r.proof? type = entry.proof? := by
  simp [proof?, h]

lemma fact?_setEntry {known : Entry κ} (h : r.entry? type = some known) (entry : Entry κ) :
    (r.setEntry type entry).fact? = Function.update r.fact? type entry.fact? := by
  funext other
  simp only [fact?, entry?_setEntry h, Function.update_apply]
  split <;> rfl

lemma proof?_setEntry {known : Entry κ} (h : r.entry? type = some known) (entry : Entry κ) :
    (r.setEntry type entry).proof? = Function.update r.proof? type entry.proof? := by
  funext other
  simp only [proof?, entry?_setEntry h, Function.update_apply]
  split <;> rfl

/-- A type that becomes known has neither a fact nor a proof. -/
lemma entry?_allocate (r : Registry κ) (name : String) (type : TypeId) :
    Registry.entry? (r.allocate name).2 type = r.entry? type ∨
      r.entry? type = none ∧
        Registry.entry? (r.allocate name).2 type = some ⟨name, none, none⟩ := by
  simp only [allocate, entry?]
  split
  · rcases Nat.lt_trichotomy type.value.toNat r.entries.length with h | h | h
    · exact .inl (List.getElem?_append_left h)
    · right
      simp [h]
    · left
      rw [List.getElem?_eq_none (by simp; omega), List.getElem?_eq_none (by omega)]
  · exact .inl rfl

@[simp] lemma fact?_allocate (name : String) : (r.allocate name).2.fact? = r.fact? := by
  funext type
  rcases r.entry?_allocate name type with h | ⟨hnone, hnew⟩
  · simp only [fact?, h]
  · simp only [fact?, hnone, hnew]
    rfl

@[simp] lemma proof?_allocate (name : String) : (r.allocate name).2.proof? = r.proof? := by
  funext type
  rcases r.entry?_allocate name type with h | ⟨hnone, hnew⟩
  · simp only [proof?, h]
  · simp only [proof?, hnone, hnew]
    rfl

/-- The identity that says that there is no type has no fact. -/
lemma isValid_of_fact? {fact : LayoutFact κ} (h : r.fact? type = some fact) :
    type.isValid = true := by
  rw [← Bool.not_eq_false]
  intro hinvalid
  simp [fact?, entry?, hinvalid] at h

@[simp] lemma lookup_eq_ok_iff {fact : LayoutFact κ} :
    r.lookup type = .ok fact ↔ r.fact? type = some fact := by
  simp only [lookup]
  split <;> simp_all

/-! ### Extension -/

/-- What one registry knows the other knows as well, and in the same way. -/
structure Extends (r r' : Registry κ) : Prop where
  fact : ∀ type fact, r.fact? type = some fact → r'.fact? type = some fact
  proof : ∀ type proof, r.proof? type = some proof → r'.proof? type = some proof
  hostType : ∀ t type, r.hostTypes.lookup t = some type → r'.hostTypes.lookup t = some type
  declared : ∀ p ∈ r.universes, p ∈ r'.universes

namespace Extends

lemma refl (r : Registry κ) : r.Extends r :=
  ⟨fun _ _ h => h, fun _ _ h => h, fun _ _ h => h, fun _ h => h⟩

/-- A write that changes neither facts nor proofs need only keep the rest. -/
lemma of_eq (hfact : r'.fact? = r.fact?) (hproof : r'.proof? = r.proof?)
    (hhosts : ∀ t type, r.hostTypes.lookup t = some type → r'.hostTypes.lookup t = some type)
    (huniverses : ∀ p ∈ r.universes, p ∈ r'.universes) : r.Extends r' := by
  refine ⟨?_, ?_, hhosts, huniverses⟩
  · intro type fact h
    rwa [hfact]
  · intro type proof h
    rwa [hproof]

lemma trans {r'' : Registry κ} (h : r.Extends r') (h' : r'.Extends r'') : r.Extends r'' :=
  ⟨fun type fact hfact => h'.fact type fact (h.fact type fact hfact),
    fun type proof hproof => h'.proof type proof (h.proof type proof hproof),
    fun t type ht => h'.hostType t type (h.hostType t type ht),
    fun p hp => h'.declared p (h.declared p hp)⟩

lemma isNicheless (h : r.Extends r') (hproof : r.isNicheless type = true) :
    r'.isNicheless type = true := by
  obtain ⟨proof, hproof⟩ := Option.isSome_iff_exists.mp hproof
  exact Option.isSome_iff_exists.mpr ⟨proof, h.proof type proof hproof⟩

lemma proof?_eq_none (h : r.Extends r') (hnone : r'.proof? type = none) : r.proof? type = none := by
  rw [Option.eq_none_iff_forall_ne_some] at hnone ⊢
  exact fun proof hproof => hnone proof (h.proof type proof hproof)

end Extends

/-! ### Identities -/

lemma intern_spec (r : Registry κ) (t : HostType) :
    (r.intern t).2.fact? = r.fact? ∧ (r.intern t).2.proof? = r.proof? ∧
      (r.intern t).2.universes = r.universes := by
  simp only [intern]
  split
  · exact ⟨rfl, rfl, rfl⟩
  · split
    · exact ⟨rfl, rfl, rfl⟩
    · exact ⟨fact?_allocate t.symbol, proof?_allocate t.symbol, rfl⟩

/-- Unless the registry is frozen, a host type is known once it is interned. -/
lemma lookup_intern (hfrozen : r.frozen = false) (t : HostType) :
    (r.intern t).2.hostTypes.lookup t = some (r.intern t).1 := by
  rw [intern, if_neg (by simp [hfrozen])]
  split
  · assumption
  · rename_i hnone
    simp [allocate, List.lookup_append, hnone]

lemma lookup_of_intern {t u : HostType} {type : TypeId} (h : r.hostTypes.lookup u = some type) :
    (r.intern t).2.hostTypes.lookup u = some type := by
  simp only [intern]
  split
  · exact h
  · split
    · exact h
    · simp [allocate, List.lookup_append, h]

lemma findHostType_of_lookup {t : HostType} (h : r.hostTypes.lookup t = some type) :
    r.findHostType t = type := by
  rw [findHostType, h, Option.getD_some]

/-- A host type that is known has its identity, also in a frozen registry. -/
lemma intern_of_lookup {t : HostType} (h : r.hostTypes.lookup t = some type) :
    r.intern t = (type, r) := by
  rw [intern, findHostType_of_lookup h, h]
  split <;> rfl

/-- A host type that is not known becomes known under the next identity. -/
lemma intern_of_lookup_eq_none {t : HostType} (hfrozen : r.frozen = false)
    (h : r.hostTypes.lookup t = none) :
    r.intern t = (⟨UInt32.ofNat r.size⟩, { (r.allocate t.symbol).2 with
      hostTypes := r.hostTypes ++ [(t, ⟨UInt32.ofNat r.size⟩)] }) := by
  simp [intern, hfrozen, h, allocate]

/-- While there are fewer types than identities, the next identity is that of the next entry. -/
lemma toNat_next (h : r.size < 4294967295) : (UInt32.ofNat r.size).toNat = r.size :=
  UInt32.toNat_ofNat_of_lt' (Nat.lt_trans h (by decide))

lemma frozen_intern (t : HostType) : (r.intern t).2.frozen = r.frozen := by
  simp only [intern]
  split
  · rfl
  · split <;> rfl

lemma options_intern (t : HostType) : (r.intern t).2.options = r.options := by
  simp only [intern]
  split
  · rfl
  · split <;> rfl

lemma extends_intern (r : Registry κ) (t : HostType) : r.Extends (r.intern t).2 := by
  obtain ⟨hfact, hproof, huniverses⟩ := r.intern_spec t
  apply Extends.of_eq hfact hproof
  · intro u type
    exact lookup_of_intern
  · intro p h
    rwa [huniverses]

lemma extends_allocate (r : Registry κ) (name : String) : r.Extends (r.allocate name).2 :=
  .of_eq (fact?_allocate name) (proof?_allocate name) (fun _ _ h => h) fun _ h => h

lemma extends_freeze (r : Registry κ) : r.Extends r.freeze :=
  .of_eq rfl rfl (fun _ _ h => h) fun _ h => h

/-! ### Facts -/

/-- What is known of a type stays when a value is filled in for one of which nothing is known. -/
lemma update_getD_eq_some {β : Type} {known? : TypeId → Option β} {other : TypeId} {known : β}
    (h : known? other = some known) (type : TypeId) (value : β) :
    Function.update known? type (some ((known? type).getD value)) other = some known := by
  by_cases htype : other = type
  · subst htype
    simp [h]
  · rwa [Function.update_of_ne htype]

/-- A registration that succeeds found the draft in order. The registry stays as it is when the type
has a fact already, which agrees with the draft; otherwise the entry of the type is filled in. -/
lemma register_cases [DecidableEq κ] {draft : DraftFact κ} (h : r.register type draft = .ok r') :
    r.frozen = false ∧ ∃ entry validity, r.entry? type = some entry ∧
      draft.validity? = some validity ∧ validity.size = draft.size ∧
      isPowerOfTwo draft.alignment = true ∧
      ((∃ known, entry.fact? = some known ∧ known.agreesWith (draft.toFact validity) = true ∧
          r' = r) ∨
        entry.fact? = none ∧
          r' = r.setEntry type ⟨draft.name, some (draft.toFact validity), entry.proof?⟩) := by
  simp only [register] at h
  split at h
  · cases h
  rename_i hfrozen
  split at h
  · cases h
  · cases h
  rename_i entry validity hentry hvalidity
  split at h
  · cases h
  rename_i hsize
  split at h
  · cases h
  rename_i halignment
  refine ⟨by simpa using hfrozen, entry, validity, hentry, hvalidity, not_not.mp hsize,
    by simpa using halignment, ?_⟩
  split at h
  · rename_i known hknown
    split at h
    · cases h
    · rename_i hagrees
      cases h
      simp only [Bool.or_eq_true, not_or] at hagrees
      exact .inl ⟨known, hknown, by simpa [DraftFact.toFact] using hagrees.2, rfl⟩
  · rename_i hnone
    cases h
    exact .inr ⟨hnone, rfl⟩

/-- What a registration that succeeds found out, and what it changes. -/
theorem register_spec [DecidableEq κ] {draft : DraftFact κ} (h : r.register type draft = .ok r') :
    ∃ validity, draft.validity? = some validity ∧ validity.size = draft.size ∧
      isPowerOfTwo draft.alignment = true ∧
      r'.fact? = Function.update r.fact? type
        (some ((r.fact? type).getD (draft.toFact validity))) ∧
      (∀ known ∈ r.fact? type, known.agreesWith (draft.toFact validity) = true) ∧
      r'.proof? = r.proof? ∧ r'.hostTypes = r.hostTypes ∧ r'.universes = r.universes := by
  obtain ⟨-, entry, validity, hentry, hvalidity, hsize, halignment, hentries⟩ := register_cases h
  refine ⟨validity, hvalidity, hsize, halignment, ?_⟩
  have hfact := fact?_eq hentry
  rcases hentries with ⟨known, hknown, hagrees, rfl⟩ | ⟨hnone, rfl⟩
  · rw [hknown] at hfact
    refine ⟨?_, by simpa [hfact] using hagrees, rfl, rfl, rfl⟩
    rw [hfact, Option.getD_some, ← hfact, Function.update_eq_self]
  · rw [hnone] at hfact
    refine ⟨by rw [fact?_setEntry hentry, hfact]; rfl, by simp [hfact], ?_, rfl, rfl⟩
    rw [proof?_setEntry hentry, ← proof?_eq hentry, Function.update_eq_self]

/-- Where something can be written at all, a type without one can be given any fact that passes the
tests. -/
lemma exists_register [DecidableEq κ] {fact : LayoutFact κ} {entry : Entry κ}
    (hsize : fact.validity.size = fact.size) (hpow : isPowerOfTwo fact.alignment = true)
    (hfrozen : r.frozen = false) (hentry : r.entry? type = some entry)
    (hnone : entry.fact? = none) :
    ∃ r', r.register type fact.draft = .ok r' ∧ r'.fact? type = some fact := by
  refine ⟨r.setEntry type ⟨fact.name, some fact, entry.proof?⟩, ?_, ?_⟩
  · simp [register, hfrozen, hentry, LayoutFact.draft, hsize, hpow, hnone]
  · rw [fact?_setEntry hentry, Function.update_self]

/-- A registration writes to one entry. -/
lemma register_frame [DecidableEq κ] {draft : DraftFact κ} (h : r.register type draft = .ok r') :
    r'.options = r.options ∧ r'.frozen = r.frozen ∧ r'.hostTypes = r.hostTypes ∧
      r'.size = r.size := by
  obtain ⟨-, entry, validity, -, -, -, -, ⟨known, -, -, rfl⟩ | ⟨-, rfl⟩⟩ := register_cases h
  · exact ⟨rfl, rfl, rfl, rfl⟩
  · exact ⟨rfl, rfl, rfl, List.length_set⟩

lemma frozen_of_register [DecidableEq κ] {draft : DraftFact κ}
    (h : r.register type draft = .ok r') : r'.frozen = false :=
  (register_frame h).2.1.trans (register_cases h).1

/-- A fact after a registration is one from before, or that of the draft. -/
lemma fact_of_register [DecidableEq κ] {draft : DraftFact κ} (h : r.register type draft = .ok r')
    {other : TypeId} {fact : LayoutFact κ} (hfact : r'.fact? other = some fact) :
    r.fact? other = some fact ∨
      ∃ validity, draft.validity? = some validity ∧ validity.size = draft.size ∧
        isPowerOfTwo draft.alignment = true ∧ fact = draft.toFact validity := by
  obtain ⟨validity, hvalidity, hsize, halignment, hupdate, -⟩ := register_spec h
  by_cases htype : other = type
  · subst htype
    rw [hupdate, Function.update_self, Option.some_inj] at hfact
    cases hknown : r.fact? other with
    | none =>
      rw [hknown] at hfact
      exact .inr ⟨validity, hvalidity, hsize, halignment, hfact.symm⟩
    | some known =>
      rw [hknown] at hfact
      exact .inl (congrArg some hfact)
  · rw [hupdate, Function.update_of_ne htype] at hfact
    exact .inl hfact

/-- Only the type in question gets a fact when one is registered. -/
lemma eq_of_register [DecidableEq κ] {draft : DraftFact κ} (h : r.register type draft = .ok r')
    {other : TypeId} {fact : LayoutFact κ} (hold : r.fact? other ≠ some fact)
    (hnew : r'.fact? other = some fact) : type = other := by
  by_contra hne
  obtain ⟨validity, -, -, -, hfact, -⟩ := register_spec h
  rw [hfact, Function.update_of_ne (Ne.symm hne)] at hnew
  exact hold hnew

lemma extends_of_register [DecidableEq κ] {draft : DraftFact κ}
    (h : r.register type draft = .ok r') : r.Extends r' := by
  obtain ⟨validity, -, -, -, hfact, -, hproof, hhosts, huniverses⟩ := register_spec h
  refine ⟨?_, fun _ _ h => hproof ▸ h, fun _ _ h => hhosts ▸ h, fun _ h => huniverses ▸ h⟩
  intro other fact hknown
  rw [hfact]
  exact update_getD_eq_some hknown type _

/-! ### Proofs -/

/-- The registry stays as it is when the type has a proof already; otherwise the proof is filled in
beside the fact. -/
lemma recordProof_cases {proof : NichelessProof} (h : r.recordProof type proof = .ok r') :
    ∃ name fact proof?, r.entry? type = some ⟨name, some fact, proof?⟩ ∧
      ((∃ known, proof? = some known ∧ r' = r) ∨
        proof? = none ∧ r' = r.setEntry type ⟨name, some fact, some proof⟩) := by
  simp only [recordProof] at h
  split at h
  · cases h
  split at h
  · rename_i name fact hentry
    cases h
    exact ⟨name, fact, none, hentry, .inr ⟨rfl, rfl⟩⟩
  · rename_i name fact known hentry
    cases h
    exact ⟨name, fact, some known, hentry, .inl ⟨known, rfl, rfl⟩⟩
  · cases h
  · cases h

/-- A proof is recorded of a type that has a fact, and the first one stays. -/
theorem recordProof_spec {proof : NichelessProof} (h : r.recordProof type proof = .ok r') :
    (∃ fact, r.fact? type = some fact) ∧ r'.fact? = r.fact? ∧
      r'.proof? = Function.update r.proof? type (some ((r.proof? type).getD proof)) ∧
      r'.hostTypes = r.hostTypes ∧ r'.universes = r.universes := by
  obtain ⟨name, fact, proof?, hentry, hentries⟩ := recordProof_cases h
  refine ⟨⟨fact, fact?_eq hentry⟩, ?_⟩
  rcases hentries with ⟨known, rfl, rfl⟩ | ⟨rfl, rfl⟩
  · have hproof : r'.proof? type = some known := proof?_eq hentry
    refine ⟨rfl, ?_, rfl, rfl⟩
    rw [hproof, Option.getD_some, ← hproof, Function.update_eq_self]
  · refine ⟨?_, ?_, rfl, rfl⟩
    · rw [fact?_setEntry hentry, ← fact?_eq hentry, Function.update_eq_self]
    · rw [proof?_setEntry hentry, proof?_eq hentry]
      rfl

lemma proof?_eq_none_iff : r.proof? type = none ↔ r.isNicheless type = false := by
  simp [isNicheless]

/-- A proof after one is recorded is one from before, or it is the one in question. -/
lemma proof_of_recordProof {proof : NichelessProof} (h : r.recordProof type proof = .ok r')
    {other : TypeId} {found : NichelessProof} (hfound : r'.proof? other = some found) :
    r.proof? other = some found ∨ r.proof? other = none ∧ other = type ∧ found = proof := by
  obtain ⟨-, -, hproof, -⟩ := recordProof_spec h
  by_cases htype : other = type
  · subst htype
    rw [hproof, Function.update_self, Option.some_inj] at hfound
    cases hknown : r.proof? other with
    | none =>
      rw [hknown] at hfound
      exact .inr ⟨rfl, rfl, hfound.symm⟩
    | some known =>
      rw [hknown] at hfound
      exact .inl (congrArg some hfound)
  · rw [hproof, Function.update_of_ne htype] at hfound
    exact .inl hfound

lemma isNicheless_of_recordProof {proof : NichelessProof}
    (h : r.recordProof type proof = .ok r') : r'.isNicheless type = true := by
  obtain ⟨-, -, hproof, -⟩ := recordProof_spec h
  rw [isNicheless, hproof, Function.update_self]
  rfl

/-- A proof is written to one entry. -/
lemma recordProof_frame {proof : NichelessProof} (h : r.recordProof type proof = .ok r') :
    r'.options = r.options ∧ r'.frozen = r.frozen ∧ r'.hostTypes = r.hostTypes ∧
      r'.size = r.size := by
  obtain ⟨name, fact, proof?, -, ⟨known, -, rfl⟩ | ⟨-, rfl⟩⟩ := recordProof_cases h
  · exact ⟨rfl, rfl, rfl, rfl⟩
  · exact ⟨rfl, rfl, rfl, List.length_set⟩

lemma frozen_of_recordProof {proof : NichelessProof} (h : r.recordProof type proof = .ok r') :
    r'.frozen = r.frozen :=
  (recordProof_frame h).2.1

/-- Where a proof is known, to record one changes nothing. -/
lemma eq_of_recordProof {proof known : NichelessProof} (hknown : r.proof? type = some known)
    (h : r.recordProof type proof = .ok r') : r' = r := by
  obtain ⟨name, fact, proof?, hentry, ⟨_, -, rfl⟩ | ⟨rfl, rfl⟩⟩ := recordProof_cases h
  · rfl
  · cases (proof?_eq hentry).symm.trans hknown

/-- Where something can be written at all, a proof can be recorded of every type that has a fact. -/
lemma exists_recordProof (hfrozen : r.frozen = false) {fact : LayoutFact κ}
    (hfact : r.fact? type = some fact) (proof : NichelessProof) :
    ∃ r', r.recordProof type proof = .ok r' := by
  obtain ⟨⟨name, fact?, proof?⟩, hentry, rfl⟩ := Option.bind_eq_some_iff.mp hfact
  simp only [recordProof, hfrozen, hentry, Bool.false_eq_true, if_false]
  cases proof? with
  | none => exact ⟨_, rfl⟩
  | some known => exact ⟨_, rfl⟩

lemma extends_of_recordProof {proof : NichelessProof} (h : r.recordProof type proof = .ok r') :
    r.Extends r' := by
  obtain ⟨-, hfact, hproof, hhosts, huniverses⟩ := recordProof_spec h
  refine ⟨fun _ _ h => hfact ▸ h, ?_, fun _ _ h => hhosts ▸ h, fun _ h => huniverses ▸ h⟩
  intro other known hknown
  rw [hproof]
  exact update_getD_eq_some hknown type _

/-! ### Universes -/

/-- A declaration that succeeds found a nicheless source with the storage of the target. It lists
the pair, unless the pair is listed already. -/
lemma declareUniverse_cases {source target : TypeId}
    (h : r.declareUniverse source target = .ok r') :
    r.frozen = false ∧
      (∃ u t, r.fact? source = some u ∧ r.fact? target = some t ∧ u.toStorage = t.toStorage) ∧
      r.isNicheless source = true ∧
      r' = { r with
        universes := if (source, target) ∈ r.universes then r.universes
          else r.universes ++ [(source, target)] } := by
  simp only [declareUniverse] at h
  split at h
  · cases h
  rename_i hfrozen
  simp only [bind_eq_ok_iff, lookup_eq_ok_iff] at h
  obtain ⟨u, hu, t, ht, h⟩ := h
  split at h
  · cases h
  rename_i hnicheless
  split at h
  · cases h
  rename_i hstorage
  refine ⟨by simpa using hfrozen, ⟨u, t, hu, ht, not_not.mp hstorage⟩, by simpa using hnicheless,
    ?_⟩
  split at h
  · rename_i hmem
    cases h
    rw [if_pos (by simpa using hmem)]
  · rename_i hmem
    cases h
    rw [if_neg (by simpa using hmem)]

/-- Where something can be written at all, a nicheless type can be declared a universe of any type
that has its storage. -/
lemma declareUniverse_eq_ok {source target : TypeId} (hfrozen : r.frozen = false)
    {u t : LayoutFact κ} (hu : r.fact? source = some u) (ht : r.fact? target = some t)
    (hnicheless : r.isNicheless source = true) (hstorage : u.toStorage = t.toStorage) :
    r.declareUniverse source target = .ok { r with
      universes := if (source, target) ∈ r.universes then r.universes
        else r.universes ++ [(source, target)] } := by
  rw [declareUniverse, if_neg (by simp [hfrozen]), lookup_eq_ok_iff.mpr hu, ok_bind,
    lookup_eq_ok_iff.mpr ht, ok_bind, if_neg (by simp [hnicheless]), if_neg (not_not.mpr hstorage)]
  by_cases hmem : (source, target) ∈ r.universes <;> simp [hmem]

/-- A type of another storage is refused, even where everything else is there. -/
lemma declareUniverse_eq_error {source target : TypeId} (hfrozen : r.frozen = false)
    {u t : LayoutFact κ} (hu : r.fact? source = some u) (ht : r.fact? target = some t)
    (hnicheless : r.isNicheless source = true) (hstorage : u.toStorage ≠ t.toStorage) :
    r.declareUniverse source target =
      .error (.layoutMismatch (.universeStorage u.name u.toStorage t.name t.toStorage)) := by
  rw [declareUniverse, if_neg (by simp [hfrozen]), lookup_eq_ok_iff.mpr hu, ok_bind,
    lookup_eq_ok_iff.mpr ht, ok_bind, if_neg (by simp [hnicheless]), if_pos hstorage]

/-- A pair is listed where it was declared first. -/
lemma universes_of_declareUniverse {source target : TypeId}
    (h : r.declareUniverse source target = .ok r') :
    r'.universes = if (source, target) ∈ r.universes then r.universes
      else r.universes ++ [(source, target)] := by
  obtain ⟨-, -, -, rfl⟩ := declareUniverse_cases h
  rfl

theorem declareUniverse_spec {source target : TypeId}
    (h : r.declareUniverse source target = .ok r') :
    (∃ u t, r.fact? source = some u ∧ r.fact? target = some t ∧ u.toStorage = t.toStorage) ∧
      r.isNicheless source = true ∧ r.frozen = false ∧
      r'.fact? = r.fact? ∧ r'.proof? = r.proof? ∧ r'.hostTypes = r.hostTypes ∧
      ∀ p, p ∈ r'.universes ↔ p ∈ r.universes ∨ p = (source, target) := by
  have huniverses := universes_of_declareUniverse h
  obtain ⟨hfrozen, hstorage, hnicheless, rfl⟩ := declareUniverse_cases h
  refine ⟨hstorage, hnicheless, hfrozen, rfl, rfl, rfl, ?_⟩
  intro p
  rw [huniverses]
  split
  · rename_i hmem
    refine ⟨.inl, ?_⟩
    rintro (hp | rfl)
    · exact hp
    · exact hmem
  · simp

lemma extends_of_declareUniverse {source target : TypeId}
    (h : r.declareUniverse source target = .ok r') : r.Extends r' := by
  obtain ⟨-, -, -, hfact, hproof, hhosts, huniverses⟩ := declareUniverse_spec h
  apply Extends.of_eq hfact hproof
  · intro t type h
    rwa [hhosts]
  · intro p hp
    exact (huniverses p).mpr (.inl hp)

end Registry

end BitValidity
