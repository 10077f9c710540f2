import BitValidity.Proofs.Layout.Settlement

/-!
# Safety of bounded runs

A run is bounded when every part stays inside its whole: in the predicates that its operations
bring, and in what they place. Nothing else is asked of it. Along such a run the predicate of every
fact stays well-formed, although this is tested nowhere, and so no operation breaches a
precondition: a check of as many bytes as a type has comes to an outcome, and whatever description
is laid out, proven nicheless or defined, the outcome is a result or an error
(`settles_after_bounded_run`).
-/

namespace BitValidity

variable {κ α β : Type}

/-! ### Sessions -/

namespace Session

lemma settles_run_bind {s : Session κ α} {f : α → Session κ β} {r : Registry κ}
    (hs : Settles (s.run r).1)
    (hf : ∀ a, (s.run r).1 = .ok a → Settles ((f a).run (s.run r).2).1) :
    Settles ((s >>= f).run r).1 := by
  rw [run_bind]
  rcases h : s.run r with ⟨outcome, r'⟩
  rw [h] at hs hf
  cases outcome with
  | error failure =>
    rintro breach ⟨⟩
    exact hs breach rfl
  | ok a => exact hf a rfl

lemma settles_run_write (f : Registry κ → Except Error (α × Registry κ)) (r : Registry κ) :
    Settles ((write f).run r).1 := by
  rw [run_write]
  cases f r <;> nofun

lemma settles_run_update (f : Registry κ → Except Error (Registry κ)) (r : Registry κ) :
    Settles ((update f).run r).1 :=
  settles_run_write _ r

lemma settles_run_read {f : Registry κ → Except Failure α} {r : Registry κ} (h : Settles (f r)) :
    Settles ((read f).run r).1 :=
  h

lemma settles_run_ask (f : Registry κ → Except Error α) (r : Registry κ) :
    Settles ((ask f).run r).1 :=
  settles_liftM_error (f r)

lemma settles_run_discard {s : Session κ α} {r : Registry κ} (h : Settles (s.run r).1) :
    Settles ((discard s : Session κ Unit).run r).1 := by
  rw [run_discard]
  exact h.map _

lemma settles_run_registerChecked [DecidableEq κ] (type : TypeId) (draft : DraftFact κ)
    (expected? : Option Storage) (r : Registry κ) :
    Settles ((registerChecked type draft expected?).run r).1 := by
  apply settles_run_bind (settles_run_ask _ r)
  intro _ _
  apply settles_run_bind (settles_run_update _ _)
  intro _ _
  exact settles_run_ask _ _

lemma settles_run_recordIfProven {type : TypeId}
    {derive : Registry κ → Except Failure NichelessProof} {r : Registry κ}
    (h : Settles (derive r)) : Settles ((recordIfProven type derive).run r).1 := by
  simp only [run, recordIfProven]
  split
  · exact settles_run_update _ r
  · exact settles_ok ()
  · rename_i breach hbreach
    exact absurd hbreach (h breach)

end Session

/-! ### Definitions -/

variable [Check κ] [DecidableEq κ] {r r' : Registry κ}

/-- The proof for a type that is defined is derived when its fact is registered. That fact need not
be well-formed, unless it was brought, but no field is of that type. -/
lemma Description.settles_deriveNicheless_of_register (hr : r.Consistent)
    (hfacts : r.FactsWellFormed) {description : Description κ} {draft : DraftFact κ}
    {type : TypeId}
    (hleaf : ∀ leaf, description = .leaf leaf →
      ∀ validity ∈ leaf.validity?, validity.isWellFormed = true)
    (hdraft : description.fact r = .ok draft) (hregister : r.register type draft = .ok r') :
    Settles (description.deriveNicheless r' type) := by
  have hr' := hr.register hregister
  cases description with
  | leaf leaf =>
    cases hdraft
    have hfacts' : r'.FactsWellFormed :=
      Registry.FactsSatisfy.register hfacts (hleaf draft rfl) hregister
    exact r'.settles_deriveNicheless hr' hfacts' type
  | aggregate a =>
    obtain ⟨layout, hlayout, rfl⟩ := Description.fact_aggregate_eq_ok_iff.mp hdraft
    -- the layout was there before the registration, so every field has a well-formed fact
    have hlayout' := a.layout_mono (Registry.extends_of_register hregister).fact hlayout
    exact a.settles_deriveNicheless hr hfacts (hlayout'.trans hlayout.symm)
  | taggedUnion u => exact u.settles_deriveNicheless hr'
  | enumeration e => exact settles_liftM_error _

theorem Session.settles_run_define (hr : r.Consistent) (hfacts : r.FactsWellFormed)
    {description : Description κ}
    (hleaf : ∀ leaf, description = .leaf leaf →
      ∀ validity ∈ leaf.validity?, validity.isWellFormed = true)
    (type : TypeId) (expected? : Option Storage) :
    Settles ((define type description expected?).run r).1 := by
  apply settles_run_bind (settles_run_read (description.settles_fact hr hfacts))
  intro draft hdraft
  apply settles_run_bind (settles_run_registerChecked type draft expected? _)
  intro fact hfact
  rcases run_registerChecked type draft expected? r with
    ⟨e, hrun⟩ | ⟨known, r', hregister, -, hrun⟩
  · simp [hrun] at hfact
  · simp only [run_read, hrun]
    apply settles_run_bind
    · exact settles_run_recordIfProven
        (description.settles_deriveNicheless_of_register hr hfacts hleaf hdraft hregister)
    · intro _ _
      exact settles_pure fact

/-! ### Operations -/

namespace Registry

/-- An operation that brings well-formed predicates breaches no precondition. -/
theorem settles_perform (hr : r.Consistent) (hfacts : r.FactsWellFormed) {op : Operation κ}
    (hop : op.SuppliesWellFormed) : Settles (op.perform.run r).1 := by
  cases op with
  | idOf t => exact Session.settles_run_discard (Session.settles_run_write _ r)
  | declareType name => exact Session.settles_run_discard (Session.settles_run_write _ r)
  | register type draft => exact Session.settles_run_update _ r
  | define type description expected? =>
    apply Session.settles_run_discard
    apply Session.settles_run_define hr hfacts
    rintro leaf rfl validity hvalidity
    exact hop validity (Option.mem_toList.mpr hvalidity)
  | proveNicheless type =>
    apply Session.settles_run_bind
      (Session.settles_run_read (r.settles_deriveNicheless hr hfacts type))
    intro proof _
    exact Session.settles_run_update _ _
  | assertNicheless type justification =>
    apply Session.settles_run_bind (Session.settles_run_ask _ r)
    intro fact hfact
    have hfact : r.fact? type = some fact := lookup_eq_ok_iff.mp (liftM_error_eq_ok_iff.mp hfact)
    apply Session.settles_run_bind
    · exact Session.settles_run_read
        (fact.settles_checkAssertion (hfacts _ _ hfact) (hr.size_eq _ _ hfact) justification)
    · intro _ _
      exact Session.settles_run_update _ _
  | declareUniverse source target => exact Session.settles_run_update _ r
  | freeze => exact Session.settles_run_update _ r

/-- A bounded step keeps every fact well-formed. -/
theorem Step.factsWellFormed {op : Operation κ} (hstep : Step r op r') (hr : r.Consistent)
    (h : r.FactsWellFormed) (hop : op.IsBounded r) : r'.FactsWellFormed :=
  hstep.factsSatisfy Predicate.layoutClosed_isWellFormed hr h hop.supplies hop.fits

/-! ### Runs -/

theorem ReachableBy.factsWellFormed (hr : ReachableBy Operation.IsBounded r) :
    r.FactsWellFormed := by
  refine hr.invariant FactsSatisfy.empty ?_
  intro s op hs hop hstep ih
  exact hstep.factsWellFormed hs ih hop

/-- Whatever bounded run led to a registry: its facts are well-formed, and a check of as many bytes
as a type has comes to an outcome. No layout, no proof and no definition breaches a precondition,
whatever the description; only the predicate of a leaf must be well-formed. Nor does any operation
that brings well-formed predicates. -/
theorem settles_after_bounded_run (hr : ReachableBy Operation.IsBounded r) :
    (∀ type fact, r.fact? type = some fact →
      fact.validity.isWellFormed = true ∧ ∀ bytes : Bytes, bytes.length = fact.size.toNat →
        ∃ outcome, fact.validity.findViolation bytes = .ok outcome) ∧
    (∀ description : Description κ, Settles (description.fact r)) ∧
    (∀ (description : Description κ) (type : TypeId),
      Settles (description.deriveNicheless r type)) ∧
    (∀ type : TypeId, Settles (r.deriveNicheless type)) ∧
    (∀ (description : Description κ) (type : TypeId) (expected? : Option Storage),
      (∀ leaf, description = .leaf leaf →
        ∀ validity ∈ leaf.validity?, validity.isWellFormed = true) →
      Settles ((Session.define type description expected?).run r).1) ∧
    ∀ op : Operation κ, op.SuppliesWellFormed → Settles (op.perform.run r).1 := by
  have hconsistent := ReachableBy.consistent hr
  have hfacts := ReachableBy.factsWellFormed hr
  refine ⟨?_, ?_, ?_, ?_, ?_, ?_⟩
  · intro type fact hfact
    refine ⟨hfacts type fact hfact, ?_⟩
    intro bytes hlen
    rw [← hconsistent.size_eq type fact hfact] at hlen
    exact Predicate.exists_findViolation (hfacts type fact hfact) hlen
  · intro description
    exact description.settles_fact hconsistent hfacts
  · intro description type
    exact description.settles_deriveNicheless hconsistent hfacts type
  · intro type
    exact r.settles_deriveNicheless hconsistent hfacts type
  · intro description type expected? hleaf
    exact Session.settles_run_define hconsistent hfacts hleaf type expected?
  · intro op hop
    exact settles_perform hconsistent hfacts hop

/-- A flag is a byte that is zero or one. -/
def flagFact : LayoutFact Empty := ⟨⟨1, 1⟩, "flag", .intRanges .one false [⟨0, 1⟩] "flag"⟩

/-- A registry that knows words and flags. -/
def flagRegistry : Registry Empty :=
  (wordRegistry.after (.declareType "flag")).after (.register ⟨1⟩ flagFact.draft)

lemma flagRegistry_eq :
    flagRegistry = ⟨.standard, false,
      [⟨"word", some ⟨⟨8, 8⟩, "word", .allValid 8 "word"⟩, none⟩, ⟨"flag", some flagFact, none⟩],
      [], []⟩ := rfl

lemma reachable_flagRegistry : ReachableBy Operation.IsBounded flagRegistry := by
  refine ⟨.standard, .step (.step (.step (.step .refl ⟨?_, trivial⟩) ⟨?_, trivial⟩) ⟨?_, trivial⟩)
    ⟨?_, trivial⟩⟩ <;>
  simp only [Operation.SuppliesWellFormed, Operation.supplied, LayoutFact.draft, flagFact,
    Option.toList_some, List.mem_singleton, forall_eq, List.not_mem_nil, IsEmpty.forall_iff,
    implies_true] <;> rfl

theorem settles_after_bounded_run_flag :
    ReachableBy Operation.IsBounded flagRegistry ∧
      flagRegistry.fact? ⟨1⟩ = some flagFact ∧
      (∃ outcome, flagFact.validity.findViolation [2] = .ok outcome) ∧
      Settles ((Session.define ⟨1⟩ (.aggregate farField) none).run flagRegistry).1 := by
  have h := settles_after_bounded_run reachable_flagRegistry
  exact ⟨reachable_flagRegistry, rfl, (h.1 ⟨1⟩ flagFact rfl).2 [2] rfl,
    h.2.2.2.2.1 (.aggregate farField) ⟨1⟩ none nofun⟩

end Registry

end BitValidity
