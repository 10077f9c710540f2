import BitValidity.Proofs.Registry.Writes
import BitValidity.Registry.History

/-!
# Steps of a registry

`Step r op r'` lists what an operation can do to a registry: nothing, when it is refused, or the
writes that it consists of, each with what was found out before it. The state that an operation
leaves is always one of these (`step_after`), so an invariant of runs needs one case for each and no
look at sessions.
-/

namespace BitValidity

variable {κ α β : Type}

/-! ### Sessions -/

namespace Session

lemma run_discard (s : Session κ α) (r : Registry κ) :
    (discard s : Session κ Unit).run r = ((s.run r).1.map fun _ => (), (s.run r).2) := by
  rcases h : s.run r with ⟨outcome, r'⟩
  change s r = _ at h
  show (Functor.mapConst () s : Session κ Unit) r = _
  simp only [Functor.mapConst, Function.comp, ExceptT.map, ExceptT.mk, bind, StateT.bind, h]
  cases outcome <;> rfl

lemma run_update (f : Registry κ → Except Error (Registry κ)) (r : Registry κ) :
    (update f).run r =
      match f r with
      | .ok r' => (.ok (), r')
      | .error e => (.error (.error e), r) := by
  rw [update, run_write]
  cases f r <;> rfl

lemma run_update_cases {P : Registry κ → Prop} {f : Registry κ → Except Error (Registry κ)}
    {r : Registry κ} (hfail : P r) (hok : ∀ r', f r = .ok r' → P r') : P ((update f).run r).2 := by
  rw [run_update]
  split
  · exact hok _ ‹_›
  · exact hfail

section

variable {r r' : Registry κ}

lemma run_bind_eq_ok_iff {session : Session κ α} {next : α → Session κ β} {b : β} :
    (session >>= next).run r = (.ok b, r') ↔
      ∃ a r'', session.run r = (.ok a, r'') ∧ (next a).run r'' = (.ok b, r') := by
  rw [run_bind]
  rcases session.run r with ⟨_ | a, r''⟩ <;> simp

lemma run_read_eq_ok_iff {f : Registry κ → Except Failure α} {a : α} :
    (read f).run r = (.ok a, r') ↔ f r = .ok a ∧ r = r' := by
  rw [run_read, Prod.mk.injEq]

lemma run_update_eq_ok_iff {f : Registry κ → Except Error (Registry κ)} {a : Unit} :
    (update f).run r = (.ok a, r') ↔ f r = .ok r' := by
  rw [run_update]
  cases f r <;> simp

lemma run_idOf_eq_ok_iff {t : HostType} {type : TypeId} :
    (idOf t).run r = (.ok type, r') ↔ r.intern t = (type, r') := by
  simp [idOf, run_write, Prod.ext_iff]

end

lemma run_idOf_of_lookup {r : Registry κ} {t : HostType} {type : TypeId}
    (h : r.hostTypes.lookup t = some type) : (idOf t).run r = (.ok type, r) := by
  rw [idOf, run_write, Registry.intern_of_lookup h]

lemma run_lookup_of_fact {r : Registry κ} {type : TypeId} {fact : LayoutFact κ}
    (h : r.fact? type = some fact) : (lookup type).run r = (.ok fact, r) := by
  rw [lookup, ask, run_read, Registry.lookup_eq_ok_iff.mpr h]
  rfl

lemma unchanged_of_run_update {f : Registry κ → Except Error (Registry κ)} {r : Registry κ}
    {failure : Failure} (h : ((update f).run r).1 = .error failure) :
    ((update f).run r).2 = r := by
  rw [run_update] at h ⊢
  cases hf : f r with
  | ok r' =>
    rw [hf] at h
    cases h
  | error e => rfl

section

variable [DecidableEq κ]

/-- A checked registration is refused, or the fact is registered and looked up again. -/
lemma run_registerChecked (type : TypeId) (draft : DraftFact κ) (expected? : Option Storage)
    (r : Registry κ) :
    (∃ e, (registerChecked type draft expected?).run r = (.error e, r)) ∨
      ∃ fact r', r.register type draft = .ok r' ∧ r'.fact? type = some fact ∧
        (registerChecked type draft expected?).run r = (.ok fact, r') := by
  rw [registerChecked, run_bind, ask, run_read]
  cases hexpected : (liftM (draft.checkExpected expected?) : Except Failure Unit) with
  | error e => exact .inl ⟨e, rfl⟩
  | ok _ =>
    dsimp only
    rw [run_bind, register, run_update]
    cases hregister : Registry.register r type draft with
    | error e => exact .inl ⟨_, rfl⟩
    | ok r' =>
      obtain ⟨validity, -, -, -, hfact, -⟩ := Registry.register_spec hregister
      have hknown : r'.fact? type = some ((r.fact? type).getD (draft.toFact validity)) := by
        rw [hfact, Function.update_self]
      refine .inr ⟨_, r', rfl, hknown, ?_⟩
      dsimp only
      rw [lookup, ask, run_read, Registry.lookup_eq_ok_iff.mpr hknown]
      rfl

end

/-- Where a fact was just registered, a proof that is derived is recorded. -/
lemma run_recordIfProven (type : TypeId) (derive : Registry κ → Except Failure NichelessProof)
    {r : Registry κ} (hfrozen : r.frozen = false) {fact : LayoutFact κ}
    (hfact : r.fact? type = some fact) :
    (∃ proof r', derive r = .ok proof ∧ r.recordProof type proof = .ok r' ∧
      (recordIfProven type derive).run r = (.ok (), r')) ∨
    (∃ e, derive r = .error (.error e) ∧ (recordIfProven type derive).run r = (.ok (), r)) ∨
    ∃ b, derive r = .error (.breach b) ∧
      (recordIfProven type derive).run r = (.error (.breach b), r) := by
  simp only [run, recordIfProven]
  cases hderive : derive r with
  | ok proof =>
    obtain ⟨r', hrecord⟩ := Registry.exists_recordProof hfrozen hfact proof
    refine .inl ⟨proof, r', rfl, hrecord, ?_⟩
    show (update (·.recordProof type proof)).run r = _
    rw [run_update, hrecord]
  | error failure =>
    cases failure with
    | error e => exact .inr (.inl ⟨e, rfl, rfl⟩)
    | breach b => exact .inr (.inr ⟨b, rfl, rfl⟩)

/-- To prove a type nicheless is refused, or the derived proof is recorded. -/
lemma run_proveNicheless [Check κ] (type : TypeId) (r : Registry κ) :
    (∃ e, (proveNicheless type).run r = (.error e, r)) ∨
      ∃ proof r', r.deriveNicheless type = .ok proof ∧ r.recordProof type proof = .ok r' ∧
        (proveNicheless type).run r = (.ok (), r') := by
  rw [proveNicheless, run_bind, run_read]
  cases hderive : r.deriveNicheless type with
  | error e => exact .inl ⟨e, rfl⟩
  | ok proof =>
    dsimp only
    rw [recordProof, run_update]
    cases hrecord : r.recordProof type proof with
    | error e => exact .inl ⟨_, rfl⟩
    | ok r' => exact .inr ⟨proof, r', rfl, hrecord, rfl⟩

/-- An assertion is refused, or it is made of a type with a fact that allows it, and its proof is
recorded. -/
lemma run_assertNicheless [Check κ] (type : TypeId) (justification : String) (r : Registry κ) :
    (∃ e, (assertNicheless type justification).run r = (.error e, r)) ∨
      ∃ fact r', r.fact? type = some fact ∧ fact.checkAssertion justification = .ok () ∧
        r.recordProof type (.asserted justification) = .ok r' ∧
        (assertNicheless type justification).run r = (.ok (), r') := by
  rw [assertNicheless, run_bind, lookup, ask, run_read]
  cases hlookup : (liftM (r.lookup type) : Except Failure (LayoutFact κ)) with
  | error e => exact .inl ⟨e, rfl⟩
  | ok fact =>
    have hfact := Registry.lookup_eq_ok_iff.mp (liftM_error_eq_ok_iff.mp hlookup)
    dsimp only
    rw [run_bind, run_read]
    cases hcheck : fact.checkAssertion justification with
    | error e => exact .inl ⟨e, rfl⟩
    | ok _ =>
      dsimp only
      rw [recordProof, run_update]
      cases hrecord : r.recordProof type (.asserted justification) with
      | error e => exact .inl ⟨_, rfl⟩
      | ok r' => exact .inr ⟨fact, r', hfact, hcheck, rfl, rfl⟩

/-- A definition is refused, or the fact is registered. In that case only a breach in the derivation
of a proof makes it fail, and a proof that is derived is recorded. -/
lemma run_define [Check κ] [DecidableEq κ] (type : TypeId) (description : Description κ)
    (expected? : Option Storage) (r : Registry κ) :
    (∃ e, (define type description expected?).run r = (.error e, r)) ∨
    ∃ draft fact r', description.fact r = .ok draft ∧ r.register type draft = .ok r' ∧
      r'.fact? type = some fact ∧
      ((∃ proof r'', description.deriveNicheless r' type = .ok proof ∧
          r'.recordProof type proof = .ok r'' ∧
          (define type description expected?).run r = (.ok fact, r'')) ∨
        (∃ e, description.deriveNicheless r' type = .error (.error e) ∧
          (define type description expected?).run r = (.ok fact, r')) ∨
        ∃ b, description.deriveNicheless r' type = .error (.breach b) ∧
          (define type description expected?).run r = (.error (.breach b), r')) := by
  rw [define, run_bind, run_read]
  cases hdraft : description.fact r with
  | error e => exact .inl ⟨e, rfl⟩
  | ok draft =>
    dsimp only
    rw [run_bind]
    rcases run_registerChecked type draft expected? r with
      ⟨e, hrun⟩ | ⟨fact, r', hregister, hfact, hrun⟩
    · rw [hrun]
      exact .inl ⟨e, rfl⟩
    · rw [hrun]
      dsimp only
      rw [run_bind]
      refine .inr ⟨draft, fact, r', rfl, hregister, hfact, ?_⟩
      rcases run_recordIfProven type (fun r => description.deriveNicheless r type)
        (Registry.frozen_of_register hregister) hfact with
        ⟨proof, r'', hderive, hrecord, hrun⟩ | ⟨e, hderive, hrun⟩ | ⟨b, hderive, hrun⟩ <;>
      rw [hrun]
      · exact .inl ⟨proof, r'', hderive, hrecord, rfl⟩
      · exact .inr (.inl ⟨e, hderive, rfl⟩)
      · exact .inr (.inr ⟨b, hderive, rfl⟩)

end Session

/-! ### Steps -/

namespace Registry

variable [Check κ] [DecidableEq κ]

/-- What an operation can do to a registry. -/
inductive Step (r : Registry κ) : Operation κ → Registry κ → Prop where
  /-- An operation that is refused leaves the registry as it is. -/
  | refused (op : Operation κ) : Step r op r
  | interned (t : HostType) : Step r (.idOf t) (r.intern t).2
  | allocated (name : String) : Step r (.declareType name) (r.allocate name).2
  | registered {type : TypeId} {draft : DraftFact κ} {r' : Registry κ}
      (h : r.register type draft = .ok r') : Step r (.register type draft) r'
  | defined {type : TypeId} {description : Description κ} {expected? : Option Storage}
      {draft : DraftFact κ} {r' : Registry κ} (hdraft : description.fact r = .ok draft)
      (h : r.register type draft = .ok r') : Step r (.define type description expected?) r'
  | definedNicheless {type : TypeId} {description : Description κ} {expected? : Option Storage}
      {draft : DraftFact κ} {proof : NichelessProof} {r' r'' : Registry κ}
      (hdraft : description.fact r = .ok draft) (h : r.register type draft = .ok r')
      (hproof : description.deriveNicheless r' type = .ok proof)
      (hrecord : r'.recordProof type proof = .ok r'') :
      Step r (.define type description expected?) r''
  | proved {type : TypeId} {proof : NichelessProof} {r' : Registry κ}
      (hproof : r.deriveNicheless type = .ok proof) (h : r.recordProof type proof = .ok r') :
      Step r (.proveNicheless type) r'
  | asserted {type : TypeId} {justification : String} {r' : Registry κ}
      (hok : ((Operation.assertNicheless type justification).perform.run r).1 = .ok ())
      (h : r.recordProof type (.asserted justification) = .ok r') :
      Step r (.assertNicheless type justification) r'
  | declared {source target : TypeId} {r' : Registry κ}
      (h : r.declareUniverse source target = .ok r') : Step r (.declareUniverse source target) r'
  | frozen : Step r .freeze r.freeze

@[simp] lemma after_idOf (r : Registry κ) (t : HostType) : r.after (.idOf t) = (r.intern t).2 := by
  show ((discard (Session.idOf t) : Session κ Unit).run r).2 = _
  rw [Session.run_discard]
  rfl

lemma after_declareUniverse {r r' : Registry κ} {source target : TypeId}
    (h : r.declareUniverse source target = .ok r') :
    r.after (.declareUniverse source target) = r' := by
  show ((Session.declareUniverse source target).run r).2 = r'
  rw [Session.declareUniverse, Session.run_update, h]

lemma after_define (r : Registry κ) (type : TypeId) (description : Description κ)
    (expected? : Option Storage) :
    r.after (.define type description expected?) =
      ((Session.define type description expected?).run r).2 := by
  show ((discard (Session.define type description expected?) : Session κ Unit).run r).2 = _
  rw [Session.run_discard]

lemma step_define (r : Registry κ) (type : TypeId) (description : Description κ)
    (expected? : Option Storage) :
    Step r (.define type description expected?)
      ((Session.define type description expected?).run r).2 := by
  rcases Session.run_define type description expected? r with
    ⟨e, hrun⟩ | ⟨draft, fact, r', hdraft, hregister, -, hrest⟩
  · rw [hrun]
    exact .refused _
  · rcases hrest with ⟨proof, r'', hproof, hrecord, hrun⟩ | ⟨e, -, hrun⟩ | ⟨b, -, hrun⟩ <;>
    rw [hrun]
    · exact .definedNicheless hdraft hregister hproof hrecord
    · exact .defined hdraft hregister
    · exact .defined hdraft hregister

/-- The state that an operation leaves is that of one of its steps. -/
theorem step_after (r : Registry κ) (op : Operation κ) : Step r op (r.after op) := by
  cases op with
  | idOf t =>
    rw [after_idOf]
    exact .interned t
  | declareType name =>
    show Step r _ ((discard (Session.declareType name) : Session κ Unit).run r).2
    rw [Session.run_discard, Session.declareType, Session.run_write, declareType]
    cases r.frozen with
    | true => exact .refused _
    | false => exact .allocated name
  | register type draft =>
    apply Session.run_update_cases (.refused _)
    intro r' hregister
    exact .registered hregister
  | define type description expected? =>
    rw [after_define]
    exact step_define r type description expected?
  | proveNicheless type =>
    show Step r _ ((Session.proveNicheless type).run r).2
    rcases Session.run_proveNicheless type r with ⟨e, hrun⟩ | ⟨proof, r', hproof, hrecord, hrun⟩
    · rw [hrun]
      exact .refused _
    · rw [hrun]
      exact .proved hproof hrecord
  | assertNicheless type justification =>
    show Step r _ ((Session.assertNicheless type justification).run r).2
    rcases Session.run_assertNicheless type justification r with
      ⟨e, hrun⟩ | ⟨fact, r', -, -, hrecord, hrun⟩
    · rw [hrun]
      exact .refused _
    · rw [hrun]
      exact .asserted (congrArg Prod.fst hrun) hrecord
  | declareUniverse source target =>
    apply Session.run_update_cases (.refused _)
    intro r' hdeclare
    exact .declared hdeclare
  | freeze => exact .frozen

end Registry

end BitValidity
