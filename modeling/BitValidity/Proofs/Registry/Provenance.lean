import BitValidity.Proofs.Registry.Soundness

/-!
# Derived proofs go back to assertions

A derived proof for an aggregate rests on the proofs of the types of its fields, and these may be
assertions. So what is derived is not always right: a false assertion about one type makes it wrong
of another (`derived_proof_of_record_is_wrong`). But an assertion is the only thing that can. What a
derived proof goes back to in the end is asserted, and where these assertions are true, the derived
proof is right, whatever else was asserted along the run (`derived_proof_rests_on_assertions`).
-/

namespace BitValidity

variable {κ : Type}

/-! ### Recordings -/

/-- More recordings make more to rest on. -/
lemma RestsOn.mono {recordings recordings' : List Recording} {type root : TypeId}
    (hsub : recordings ⊆ recordings') (h : RestsOn recordings type root) :
    RestsOn recordings' type root := by
  induction h with
  | asserted hmem horigin => exact .asserted (hsub hmem) horigin
  | consulted hmem hpremise _ ih => exact .consulted (hsub hmem) hpremise ih

namespace Operation

variable {r r' : Registry κ} {op : Operation κ}

lemma recording?_eq_some {type : TypeId} {proof : NichelessProof}
    (hproven : op.provenType? = some type) (hold : r.isNicheless type = false)
    (hproof : r'.proof? type = some proof) :
    op.recording? r r' = some ⟨type, proof.origin, op.premises r⟩ := by
  simp [recording?, hproven, hold, hproof]

/-- What is recorded is found in the registry afterwards. -/
lemma exists_proof_of_recording? {recording : Recording}
    (h : op.recording? r r' = some recording) :
    ∃ proof, r'.proof? recording.type = some proof ∧ proof.origin = recording.origin := by
  obtain ⟨type, -, h⟩ := Option.bind_eq_some_iff.mp h
  split at h
  · cases h
  · obtain ⟨proof, hproof, h⟩ := Option.bind_eq_some_iff.mp h
    cases h
    exact ⟨proof, hproof, rfl⟩

end Operation

namespace Registry

variable [Check κ] {r r' : Registry κ} {recordings : List Recording} {type : TypeId}

/-! ### The trace of a run -/

/-- The types on whose assertions the proof of a type rests accept every bit pattern. -/
def RootsHold (r : Registry κ) (recordings : List Recording) (type : TypeId) : Prop :=
  ∀ root fact, RestsOn recordings type root → r.fact? root = some fact → fact.validity.AcceptsAll

/-- The recordings are those of the proofs of the registry, and a proof is right if the assertions
are that it rests on. -/
structure Traced (r : Registry κ) (recordings : List Recording) : Prop where
  facts : r.FactsSound
  origin : ∀ recording ∈ recordings,
    ∃ proof, r.proof? recording.type = some proof ∧ proof.origin = recording.origin
  right : ∀ type fact, r.isNicheless type = true → r.fact? type = some fact →
    r.RootsHold recordings type → fact.validity.AcceptsAll

lemma RootsHold.mono {recordings' : List Recording} (h : r'.RootsHold recordings' type)
    (hle : r.Extends r') (hsub : recordings ⊆ recordings') : r.RootsHold recordings type := by
  intro root fact hrests hfact
  exact h root fact (hrests.mono hsub) (hle.fact root fact hfact)

namespace Traced

lemma empty (options : RegistryOptions) : (Registry.empty options : Registry κ).Traced [] where
  facts := (Sound.empty options).facts
  origin recording h := by cases h
  right type fact h := by simp [isNicheless] at h

/-- What a proof rests on in the end is asserted. -/
lemma exists_asserted (h : r.Traced recordings) {root : TypeId}
    (hrests : RestsOn recordings type root) :
    ∃ justification, r.proof? root = some (.asserted justification) := by
  induction hrests with
  | consulted _ _ _ ih => exact ih
  | asserted hmem horigin =>
    obtain ⟨proof, hproof, hsame⟩ := h.origin _ hmem
    rw [horigin] at hsame
    cases proof with
    | derived rule => cases hsame
    | asserted justification => exact ⟨justification, hproof⟩

end Traced

variable [DecidableEq κ]

/-- A careful step preserves the trace, with what it records added. -/
theorem Step.traced {op : Operation κ} (hstep : Step r op r') (hr : r.Consistent)
    (h : r.Traced recordings) (hop : op.IsCareful r) :
    r'.Traced (recordings ++ (op.recording? r r').toList) := by
  have hle := hstep.extends
  have hsub := List.subset_append_left recordings (op.recording? r r').toList
  constructor
  · exact hstep.factsSatisfy Predicate.layoutClosed_isSound hr h.facts hop.supplies hop.fits
  · intro recording hmem
    rcases List.mem_append.mp hmem with hmem | hmem
    · obtain ⟨proof, hproof, horigin⟩ := h.origin recording hmem
      exact ⟨proof, hle.proof _ _ hproof, horigin⟩
    · exact Operation.exists_proof_of_recording? (Option.mem_toList.mp hmem)
  · intro type fact hnicheless hfact hroots
    cases hold : r.isNicheless type with
    | true =>
      exact h.right type fact hold (hr.fact_of_extends hle hold hfact) (hroots.mono hle hsub)
    | false =>
      have hmem {proof : NichelessProof} (hproven : op.provenType? = some type)
          (hproof : r'.proof? type = some proof) :
          ⟨type, proof.origin, op.premises r⟩ ∈ recordings ++ (op.recording? r r').toList :=
        List.mem_append_right recordings
          (Option.mem_toList.mpr (Operation.recording?_eq_some hproven hold hproof))
      rcases hstep.of_isNicheless hr h.facts hop hold hnicheless with
        ⟨justification, rfl, -, -, hasserted⟩ | ⟨hproven, hright⟩
      · -- an assertion rests on itself
        exact hroots type fact (.asserted (hmem rfl hasserted) rfl) hfact
      · apply hright fact hfact
        intro premise hpremise known hconsulted hknown
        obtain ⟨proof, hproof⟩ := Option.isSome_iff_exists.mp hnicheless
        apply h.right premise known hconsulted hknown
        intro root rootFact hrests hrootFact
        exact hroots root rootFact
          (.consulted (hmem hproven hproof) hpremise (hrests.mono hsub)) (hle.fact _ _ hrootFact)

/-- A careful run preserves the trace, with what it records added. -/
theorem Traced.afterAll {ops : List (Operation κ)} (h : r.Traced recordings) (hr : r.Consistent)
    (hops : r.AllowsAll Operation.IsCareful ops) :
    (r.afterAll ops).Traced (recordings ++ r.recordings ops) := by
  induction ops generalizing r recordings with
  | nil =>
    rw [Registry.recordings, List.append_nil]
    exact h
  | cons op rest ih =>
    obtain ⟨hop, hrest⟩ := hops
    have hstep := step_after r op
    rw [Registry.recordings, ← List.append_assoc]
    exact ih (hstep.traced hr h hop) (hstep.consistent hr) hrest

/-- Whatever was asserted along a run, truly or not, as long as it kept to what callers promise
otherwise: what a derived proof rests on in the end is asserted, and if the types that were asserted
accept every byte string of their size, then so does the type of the proof. A derived proof that
rests on no assertion is right in any case. -/
theorem derived_proof_rests_on_assertions {options : RegistryOptions} {ops : List (Operation κ)}
    (hops : (empty options).AllowsAll Operation.IsCareful ops) {rule : ProofRule}
    (hproof : ((empty options).afterAll ops).proof? type = some (.derived rule)) :
    let r := (empty options).afterAll ops
    let roots := {root | RestsOn ((empty options).recordings ops) type root}
    (∀ root ∈ roots, ∃ justification, r.proof? root = some (.asserted justification)) ∧
      ∃ fact, r.fact? type = some fact ∧
        ((∀ root ∈ roots, ∀ known, r.fact? root = some known →
            ∀ bytes : Bytes, bytes.length = known.size.toNat →
              known.validity.findViolation bytes = .ok none) →
          ∀ bytes : Bytes, bytes.length = fact.size.toNat →
            fact.validity.findViolation bytes = .ok none) := by
  intro r roots
  have hconsistent : r.Consistent := consistent_afterAll options ops
  have htraced : r.Traced ((empty options).recordings ops) :=
    (Traced.empty options).afterAll (.empty options) hops
  have hnicheless : r.isNicheless type = true := Option.isSome_iff_exists.mpr ⟨_, hproof⟩
  obtain ⟨fact, hfact⟩ := hconsistent.proven type hnicheless
  refine ⟨fun root hroot => htraced.exists_asserted hroot, fact, hfact, ?_⟩
  intro hroots bytes hlen
  rw [← hconsistent.size_eq type fact hfact] at hlen
  refine htraced.right type fact hnicheless hfact ?_ bytes hlen
  intro root known hroot hknown bytes hlen
  exact hroots root hroot known hknown bytes (hconsistent.size_eq root known hknown ▸ hlen)

/-- A record of one byte. -/
def byteRecord : Aggregate Empty :=
  ⟨"record", .sequential, [⟨"id", ⟨0⟩, none⟩], none, none, none⟩

/-- A byte is registered and asserted to be nicheless, and then the record is defined. -/
def recordOps (validity : Predicate Empty) : List (Operation Empty) :=
  [.declareType "id", .register ⟨0⟩ ⟨⟨1, 1⟩, "id", some validity⟩,
    .assertNicheless ⟨0⟩ "every byte is used", .declareType "record",
    .define ⟨1⟩ (.aggregate byteRecord) none]

/-- The registry before the record is defined. -/
def byteRegistry (validity : Predicate Empty) : Registry Empty :=
  ⟨.standard, false,
    [⟨"id", some ⟨⟨1, 1⟩, "id", validity⟩, some (.asserted "every byte is used")⟩,
      ⟨"record", none, none⟩], [], []⟩

/-- The registry when it is defined. -/
def recordRegistry (validity : Predicate Empty) : Registry Empty :=
  ⟨.standard, false,
    [⟨"id", some ⟨⟨1, 1⟩, "id", validity⟩, some (.asserted "every byte is used")⟩,
      ⟨"record", some ⟨⟨1, 1⟩, "record", .allOf 1 "record" [⟨0, validity, "id"⟩] none⟩,
        some (.derived .everyField)⟩], [], []⟩

lemma fits_byteRecord (validity : Predicate Empty) :
    byteRecord.fits (byteRegistry validity) = true := by
  rw [byteRegistry, byteRecord]
  cbv

lemma allowsAll_recordOps {validity : Predicate Empty} (hsound : validity.isSound = true)
    (hbyte : (empty .standard).afterAll ((recordOps validity).take 4) = byteRegistry validity) :
    (empty .standard).AllowsAll Operation.IsCareful (recordOps validity) := by
  refine ⟨⟨?_, trivial⟩, ⟨?_, trivial⟩, ⟨?_, trivial⟩, ⟨?_, trivial⟩, ⟨?_, ?_⟩, trivial⟩
  · simp [Operation.SuppliesSound, Operation.supplied]
  · simpa [Operation.SuppliesSound, Operation.supplied] using hsound
  · simp [Operation.SuppliesSound, Operation.supplied]
  · simp [Operation.SuppliesSound, Operation.supplied]
  · simp [Operation.SuppliesSound, Operation.supplied, Description.supplied, byteRecord]
  · intro draft _
    show byteRecord.fits ((empty .standard).afterAll ((recordOps validity).take 4)) = true
    rw [hbyte]
    exact fits_byteRecord validity

lemma afterAll_recordOps {validity : Predicate Empty}
    (hbyte : (empty .standard).afterAll ((recordOps validity).take 4) = byteRegistry validity)
    (hrecord : (byteRegistry validity).after (.define ⟨1⟩ (.aggregate byteRecord) none) =
      recordRegistry validity) :
    (empty .standard).afterAll (recordOps validity) = recordRegistry validity := by
  rw [← hrecord, ← hbyte, ← afterAll_concat]
  rfl

lemma eq_of_asserted_recordRegistry {validity : Predicate Empty} {root : TypeId}
    {justification : String}
    (h : (recordRegistry validity).proof? root = some (.asserted justification)) : root = ⟨0⟩ := by
  obtain ⟨value⟩ := root
  obtain ⟨entry, hentry, hproof⟩ := Option.bind_eq_some_iff.mp h
  simp only [recordRegistry, entry?] at hentry
  split at hentry
  · obtain hvalue | hvalue | hvalue : value.toNat = 0 ∨ value.toNat = 1 ∨ 2 ≤ value.toNat := by
      omega
    · obtain rfl : value = 0 := UInt32.toNat_inj.mp hvalue
      rfl
    · rw [hvalue] at hentry
      cases hentry
      cases hproof
    · rw [List.getElem?_eq_none hvalue] at hentry
      cases hentry
  · cases hentry

/-- Every byte is used indeed, and so the proof that is derived for the record is right. -/
theorem derived_proof_rests_on_assertions_record :
    (empty .standard).AllowsAll Operation.IsCareful (recordOps (.allValid 1 "id")) ∧
      ((empty .standard).afterAll (recordOps (.allValid 1 "id"))).proof? ⟨1⟩ =
        some (.derived .everyField) ∧
      ∃ fact,
        ((empty .standard).afterAll (recordOps (.allValid 1 "id"))).fact? ⟨1⟩ = some fact ∧
          ∀ bytes : Bytes, bytes.length = fact.size.toNat →
            fact.validity.findViolation bytes = .ok none := by
  have hrecord : (byteRegistry (.allValid 1 "id")).after
      (.define ⟨1⟩ (.aggregate byteRecord) none) = recordRegistry (.allValid 1 "id") := by
    simp only [after, Operation.perform, Session.run_discard, Session.define,
      Session.registerChecked, Session.run_bind, Session.run_pure]
    rw [byteRegistry, byteRecord]
    cbv
  have hafter := afterAll_recordOps rfl hrecord
  have hops : (empty .standard).AllowsAll Operation.IsCareful (recordOps (.allValid 1 "id")) :=
    allowsAll_recordOps rfl rfl
  have hproof : ((empty .standard).afterAll (recordOps (.allValid 1 "id"))).proof? ⟨1⟩ =
      some (.derived .everyField) := by
    rw [hafter]
    rfl
  obtain ⟨hasserted, fact, hfact, hright⟩ := derived_proof_rests_on_assertions hops hproof
  refine ⟨hops, hproof, fact, hfact, hright ?_⟩
  intro root hroot known hknown bytes hlen
  obtain ⟨justification, hroot⟩ := hasserted root hroot
  rw [hafter] at hroot hknown
  obtain rfl := eq_of_asserted_recordRegistry hroot
  cases hknown
  exact Predicate.accepts_allValid_iff.mpr hlen

/-- If the byte must not be zero, then the assertion is false, and the proof that is derived for the
record is wrong. -/
theorem derived_proof_of_record_is_wrong :
    (empty .standard).AllowsAll Operation.IsCareful (recordOps (.nonZero 1 "id" false)) ∧
      ((empty .standard).afterAll (recordOps (.nonZero 1 "id" false))).proof? ⟨1⟩ =
        some (.derived .everyField) ∧
      ∃ fact,
        ((empty .standard).afterAll (recordOps (.nonZero 1 "id" false))).fact? ⟨1⟩ = some fact ∧
          fact.size = 1 ∧ ∃ violation, fact.validity.findViolation [0] = .ok (some violation) := by
  have hrecord : (byteRegistry (.nonZero 1 "id" false)).after
      (.define ⟨1⟩ (.aggregate byteRecord) none) = recordRegistry (.nonZero 1 "id" false) := by
    simp only [after, Operation.perform, Session.run_discard, Session.define,
      Session.registerChecked, Session.run_bind, Session.run_pure]
    rw [byteRegistry, byteRecord]
    cbv
  have hafter := afterAll_recordOps rfl hrecord
  refine ⟨allowsAll_recordOps rfl rfl, ?_, ?_⟩
  · rw [hafter]
    rfl
  · rw [hafter]
    exact ⟨_, rfl, rfl, _, rfl⟩

end Registry

end BitValidity
