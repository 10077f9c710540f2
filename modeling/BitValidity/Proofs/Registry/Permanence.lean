import BitValidity.Proofs.Layout.Containment
import BitValidity.Proofs.Predicate.Names
import BitValidity.Proofs.Registry.Universes

/-!
# What is written stays

A registry is written once. An operation that answers with an error has written nothing
(`unchanged_of_error`), and one that succeeds changes nothing that was written before it: names of
types with facts, facts, proofs and universes stay as they are. Of a type that is registered several
times the facts need not be the same, but all of them agree with the one that is kept, and so they
accept the same bytes (`write_once_after_run`).
-/

namespace BitValidity

variable {κ : Type}

/-! ### Facts that agree -/

section

variable [DecidableEq κ]

namespace LayoutFact

lemma agreesWith_iff {a b : LayoutFact κ} :
    a.agreesWith b = true ↔
      a.toStorage = b.toStorage ∧ a.validity.equivalent b.validity = true := by
  simp [agreesWith]

lemma agreesWith_refl (fact : LayoutFact κ) : fact.agreesWith fact = true :=
  agreesWith_iff.mpr ⟨rfl, Predicate.equivalent_refl fact.validity⟩

lemma accepts_iff_of_agreesWith [Check κ] {a b : LayoutFact κ} (h : a.agreesWith b = true)
    (bytes : Bytes) : a.validity.Accepts bytes ↔ b.validity.Accepts bytes :=
  Predicate.accepts_iff_of_equivalent (agreesWith_iff.mp h).2

end LayoutFact

/-- The fact that a type has after a registration agrees with the one that was registered. -/
lemma Registry.agreesWith_of_register {r r' : Registry κ} {type : TypeId} {draft : DraftFact κ}
    (h : r.register type draft = .ok r') :
    ∃ validity fact, draft.validity? = some validity ∧ r'.fact? type = some fact ∧
      fact.agreesWith (draft.toFact validity) = true := by
  obtain ⟨validity, hvalidity, -, -, hfact, hagrees, -⟩ := register_spec h
  refine ⟨validity, _, hvalidity, by rw [hfact, Function.update_self], ?_⟩
  cases hknown : r.fact? type with
  | none => exact (draft.toFact validity).agreesWith_refl
  | some known => exact hagrees known hknown

end

namespace Registry

variable {r r' : Registry κ} {type : TypeId}

/-! ### Names -/

/-- What has a fact goes by the name of the fact. -/
def Named (r : Registry κ) : Prop :=
  ∀ type entry, r.entry? type = some entry → ∀ fact ∈ entry.fact?, entry.name = fact.name

namespace Named

lemma empty (options : RegistryOptions) : (Registry.empty options : Registry κ).Named := by
  intro type entry h
  simp at h

lemma congr (h : r.Named) (hentry : Registry.entry? r' = r.entry?) : r'.Named := by
  intro type entry htype
  exact h type entry (hentry ▸ htype)

lemma allocate (h : r.Named) (name : String) : (r.allocate name).2.Named := by
  intro type entry hentry
  rcases r.entry?_allocate name type with hsame | ⟨-, hnew⟩
  · exact h type entry (hsame ▸ hentry)
  · obtain rfl := Option.some.inj (hnew.symm.trans hentry)
    simp

lemma intern (h : r.Named) (t : HostType) : (r.intern t).2.Named := by
  simp only [Registry.intern]
  split
  · exact h
  · split
    · exact h
    · exact (h.allocate t.symbol).congr rfl

/-- An entry can be filled in that bears the name of its fact. -/
lemma setEntry (h : r.Named) {known entry : Entry κ} (hknown : r.entry? type = some known)
    (hentry : ∀ fact ∈ entry.fact?, entry.name = fact.name) : (r.setEntry type entry).Named := by
  intro other found hfound
  rw [entry?_setEntry hknown] at hfound
  by_cases htype : other = type
  · rw [htype, Function.update_self, Option.some_inj] at hfound
    exact hfound ▸ hentry
  · rw [Function.update_of_ne htype] at hfound
    exact h other found hfound

lemma register [DecidableEq κ] (h : r.Named) {draft : DraftFact κ}
    (hregister : r.register type draft = .ok r') : r'.Named := by
  obtain ⟨-, entry, validity, hentry, -, -, -, hentries⟩ := register_cases hregister
  rcases hentries with ⟨known, -, -, rfl⟩ | ⟨-, rfl⟩
  · exact h
  · apply h.setEntry hentry
    rintro fact ⟨⟩
    rfl

lemma recordProof (h : r.Named) {proof : NichelessProof}
    (hrecord : r.recordProof type proof = .ok r') : r'.Named := by
  obtain ⟨name, fact, proof?, hentry, hentries⟩ := recordProof_cases hrecord
  rcases hentries with ⟨known, -, rfl⟩ | ⟨-, rfl⟩
  · exact h
  · apply h.setEntry hentry
    exact fun fact => h type _ hentry fact

lemma nameOf_eq (h : r.Named) {fact : LayoutFact κ} (hfact : r.fact? type = some fact) :
    r.nameOf type = fact.name := by
  obtain ⟨entry, hentry, hfact⟩ := Option.bind_eq_some_iff.mp hfact
  simp only [nameOf, hentry]
  exact h type entry hentry fact hfact

end Named

variable [Check κ] [DecidableEq κ]

theorem Step.named {op : Operation κ} (hstep : Step r op r') (h : r.Named) : r'.Named := by
  cases hstep with
  | refused => exact h
  | interned t => exact h.intern t
  | allocated name => exact h.allocate name
  | registered hregister | defined _ hregister => exact h.register hregister
  | definedNicheless _ hregister _ hrecord => exact (h.register hregister).recordProof hrecord
  | proved _ hrecord | asserted _ hrecord => exact h.recordProof hrecord
  | declared hdeclare =>
    obtain ⟨-, -, -, rfl⟩ := declareUniverse_cases hdeclare
    exact h.congr rfl
  | frozen => exact h.congr rfl

theorem Leads.named {Allowed : Registry κ → Operation κ → Prop} (hleads : Leads Allowed r r')
    (h : r.Named) : r'.Named := by
  induction hleads with
  | refl => exact h
  | step _ _ ih => exact (step_after _ _).named ih

/-! ### Operations that fail -/

/-- An operation that answers with an error leaves the registry as it was, in every respect. In
particular a definition cannot fail any more once its fact is registered, unless it breaches a
precondition. -/
theorem unchanged_of_error {op : Operation κ} {e : Error}
    (h : (op.perform.run r).1 = .error (.error e)) : r.after op = r := by
  cases op with
  | idOf t =>
    rw [Operation.perform, Session.run_discard] at h
    cases h
  | declareType name =>
    simp only [after, Operation.perform, Session.run_discard, Session.declareType,
      Session.run_write] at h ⊢
    cases hdeclare : r.declareType name with
    | error e => rfl
    | ok declared =>
      rw [hdeclare] at h
      cases h
  | register type draft => exact Session.unchanged_of_run_update h
  | define type description expected? =>
    simp only [after, Operation.perform, Session.run_discard] at h ⊢
    rcases Session.run_define type description expected? r with
      ⟨_, hrun⟩ | ⟨draft, fact, r', -, -, -, ⟨_, _, -, -, hrun⟩ | ⟨_, -, hrun⟩ | ⟨_, -, hrun⟩⟩
    · rw [hrun]
    -- behind the registration there is a result or a breach, but no error
    all_goals
      rw [hrun] at h
      cases h
  | proveNicheless type =>
    simp only [after, Operation.perform] at h ⊢
    rcases Session.run_proveNicheless type r with ⟨_, hrun⟩ | ⟨_, _, -, -, hrun⟩
    · rw [hrun]
    · rw [hrun] at h
      cases h
  | assertNicheless type justification =>
    simp only [after, Operation.perform] at h ⊢
    rcases Session.run_assertNicheless type justification r with
      ⟨_, hrun⟩ | ⟨_, _, -, -, -, hrun⟩
    · rw [hrun]
    · rw [hrun] at h
      cases h
  | declareUniverse source target => exact Session.unchanged_of_run_update h
  | freeze =>
    rw [Operation.perform, Session.freeze, Session.run_update] at h
    cases h

/-- A layout is derived for the aggregate, but the type has another fact already. -/
theorem unchanged_of_error_word :
    ((Operation.define ⟨0⟩ (.aggregate farField) none).perform.run wordRegistry).1 =
        .error (.error (.duplicateFact "word")) ∧
      wordRegistry.after (.define ⟨0⟩ (.aggregate farField) none) = wordRegistry := by
  have h : ((Operation.define ⟨0⟩ (.aggregate farField) none).perform.run wordRegistry).1 =
      .error (.error (.duplicateFact "word")) := by
    simp only [Operation.perform, Session.run_discard, Session.define, Session.run_bind,
      Session.run_read, Description.fact, Aggregate.layoutFact, layout_farField]
    rfl
  exact ⟨h, unchanged_of_error h⟩

/-! ### Operations that succeed -/

/-- An operation registers what is given or derived, and keeps it. -/
lemma register_of_registered? {op : Operation κ} {draft : DraftFact κ}
    (h : r.registered? op = some (type, draft)) :
    ∃ r', r.register type draft = .ok r' ∧ r'.Extends (r.after op) := by
  cases op with
  | register type' draft' =>
    simp only [registered?, after, Operation.perform, Session.register, Session.run_update] at h ⊢
    cases hregister : r.register type' draft' with
    | error e => simp [hregister, Except.isOk, Except.toBool] at h
    | ok r' =>
      simp only [hregister, Except.isOk, Except.toBool, if_true, Option.some.injEq,
        Prod.mk.injEq] at h
      obtain ⟨rfl, rfl⟩ := h
      exact ⟨r', hregister, .refl r'⟩
  | define type' description expected? =>
    simp only [registered?, after, Operation.perform, Session.run_discard] at h ⊢
    rcases Session.run_define type' description expected? r with
      ⟨e, hrun⟩ | ⟨draft', fact, r', hdraft, hregister, -, hrest⟩
    · simp [hrun, Except.isOk, Except.toBool] at h
    · simp only [hdraft, Except.toOption, Option.map_some, Option.ite_none_right_eq_some,
        Option.some.injEq, Prod.mk.injEq] at h
      obtain ⟨-, rfl, rfl⟩ := h
      refine ⟨r', hregister, ?_⟩
      rcases hrest with ⟨proof, r'', -, hrecord, hrun⟩ | ⟨e, -, hrun⟩ | ⟨b, -, hrun⟩ <;>
      rw [hrun]
      · exact extends_of_recordProof hrecord
      · exact .refl r'
      · exact .refl r'
  | _ => cases h

/-- What an operation registers has the storage of the fact that the type has from then on, and
accepts the same bytes. -/
lemma fact_of_registered? {op : Operation κ} {draft : DraftFact κ}
    (h : r.registered? op = some (type, draft)) :
    ∃ validity fact, draft.validity? = some validity ∧ (r.after op).fact? type = some fact ∧
      fact.toStorage = draft.toStorage ∧
        ∀ bytes, fact.validity.Accepts bytes ↔ validity.Accepts bytes := by
  obtain ⟨r', hregister, hle⟩ := register_of_registered? h
  obtain ⟨validity, fact, hvalidity, hfact, hagrees⟩ := agreesWith_of_register hregister
  exact ⟨validity, fact, hvalidity, hle.fact type fact hfact,
    (LayoutFact.agreesWith_iff.mp hagrees).1, LayoutFact.accepts_iff_of_agreesWith hagrees⟩

/-! ### Runs -/

/-- Pairs of universes are added at the end. -/
lemma prefix_universes_afterAll (r : Registry κ) (ops : List (Operation κ)) :
    r.universes <+: (r.afterAll ops).universes := by
  induction ops using List.reverseRecOn with
  | nil => exact List.prefix_rfl
  | append_singleton ops op ih =>
    rw [afterAll_concat, universes_after]
    exact ih.trans (List.prefix_append _ _)

/-- Universes of a type stay, in the order in which they are listed. -/
lemma sublist_universesOf_afterAll (r : Registry κ) (ops : List (Operation κ)) (type : TypeId) :
    (r.universesOf type).Sublist ((r.afterAll ops).universesOf type) := by
  have hle := (leads_afterAll r ops).extends
  rw [universesOf, universesOf]
  apply List.Sublist.append
  · split
    · rename_i hnicheless
      rw [if_pos (hle.isNicheless hnicheless)]
    · exact List.nil_sublist _
  · exact ((r.prefix_universes_afterAll ops).sublist.filter _).map _

/-- Two registrations of one type, however much happens between them, are of facts with the same
storage that accept the same bytes. -/
lemma agree_of_registered? {op op' : Operation κ} {draft draft' : DraftFact κ}
    (h : r.registered? op = some (type, draft)) (hle : (r.after op).Extends r')
    (h' : r'.registered? op' = some (type, draft')) :
    draft.toStorage = draft'.toStorage ∧
      ∃ validity validity', draft.validity? = some validity ∧ draft'.validity? = some validity' ∧
        ∀ bytes, validity.Accepts bytes ↔ validity'.Accepts bytes := by
  obtain ⟨validity, fact, hvalidity, hfact, hstorage, haccepts⟩ := fact_of_registered? h
  obtain ⟨validity', fact', hvalidity', hfact', hstorage', haccepts'⟩ := fact_of_registered? h'
  -- the fact of the first registration is still there after the second
  have hkept := (hle.trans (step_after r' op').extends).fact type fact hfact
  obtain rfl : fact = fact' := Option.some.inj (hkept.symm.trans hfact')
  exact ⟨hstorage.symm.trans hstorage', validity, validity', hvalidity, hvalidity',
    fun bytes => (haccepts bytes).symm.trans (haccepts' bytes)⟩

/-- Whatever operations were performed on a registry, and whatever is performed later: a type that
has a fact keeps it and goes by its name, a proof stays as it was recorded first, and no universe is
lost. Proofs are of types with facts; the predicate of a fact is about as many bytes as the type
has, and its alignment is a power of two. If an operation registers a type, then the type has the
storage that was given or derived and accepts the same bytes, and a later operation that registers
it again does so with the same storage and the same accepted bytes. -/
theorem write_once_after_run (options : RegistryOptions) (ops later : List (Operation κ)) :
    let r := (empty options).afterAll ops
    (∀ type fact, r.fact? type = some fact →
      (r.afterAll later).fact? type = some fact ∧
        r.nameOf type = fact.name ∧ (r.afterAll later).nameOf type = fact.name) ∧
    (∀ type proof, r.proof? type = some proof → (r.afterAll later).proof? type = some proof) ∧
    (∀ type, (r.universesOf type).Sublist ((r.afterAll later).universesOf type)) ∧
    (∀ type proof, r.proof? type = some proof → ∃ fact, r.fact? type = some fact) ∧
    (∀ type fact, r.fact? type = some fact →
      fact.validity.size = fact.size ∧ ∃ k < 64, fact.alignment.toNat = 2 ^ k) ∧
    ∀ type op draft, r.registered? op = some (type, draft) →
      (∃ validity fact, draft.validity? = some validity ∧ (r.after op).fact? type = some fact ∧
        fact.toStorage = draft.toStorage ∧
          ∀ bytes, fact.validity.Accepts bytes ↔ validity.Accepts bytes) ∧
      ∀ op' draft', ((r.after op).afterAll later).registered? op' = some (type, draft') →
        draft.toStorage = draft'.toStorage ∧
          ∃ validity validity', draft.validity? = some validity ∧
            draft'.validity? = some validity' ∧
              ∀ bytes, validity.Accepts bytes ↔ validity'.Accepts bytes := by
  intro r
  have hconsistent : r.Consistent := consistent_afterAll options ops
  have hnamed : r.Named := (leads_afterAll (empty options) ops).named (.empty options)
  have hlater := leads_afterAll r later
  refine ⟨?_, hlater.extends.proof, r.sublist_universesOf_afterAll later, ?_, ?_, ?_⟩
  · intro type fact hfact
    have hkept := hlater.extends.fact type fact hfact
    exact ⟨hkept, hnamed.nameOf_eq hfact, (hlater.named hnamed).nameOf_eq hkept⟩
  · intro type proof hproof
    exact hconsistent.proven type (by simp [isNicheless, hproof])
  · intro type fact hfact
    exact ⟨hconsistent.size_eq type fact hfact,
      exists_toNat_eq_two_pow (hconsistent.aligned type fact hfact)⟩
  · intro type op draft h
    refine ⟨fact_of_registered? h, ?_⟩
    intro op' draft' h'
    exact agree_of_registered? h (leads_afterAll (r.after op) later).extends h'

end Registry

end BitValidity
