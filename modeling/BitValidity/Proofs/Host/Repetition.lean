import BitValidity.Proofs.Host.Conversion
import BitValidity.Proofs.Registry.Finality
import BitValidity.Proofs.Registry.Redefinition

/-!
# Registering the built-in types again

A program that needs the built-in types registers them, whether another has done so or not. It can,
because each step of the registration can be repeated (`Session.IsRepeatable`): what has succeeded
once succeeds ever after, with the same answer, and leaves the registry as it is. That a session can
be repeated follows from its steps, so nothing depends on which types are built in.
-/

namespace BitValidity

variable {κ α β : Type} [Check κ] [DecidableEq κ] {r r' : Registry κ}

/-! ### Later registries -/

/-- The registry has come from the other and can still be written. -/
structure Registry.GrowsTo (r r' : Registry κ) : Prop where
  le : r.Extends r'
  unfrozen : r'.frozen = false
  options_eq : r'.options = r.options

namespace Registry

omit [Check κ] [DecidableEq κ] in
lemma GrowsTo.trans {r'' : Registry κ} (h : r.GrowsTo r') (h' : r'.GrowsTo r'') : r.GrowsTo r'' :=
  ⟨h.le.trans h'.le, h'.unfrozen, h'.options_eq.trans h.options_eq⟩

lemma Leads.growsTo (h : Leads (fun _ op => op ≠ .freeze) r r') (hopen : r.frozen = false) :
    r.GrowsTo r' :=
  ⟨h.extends, h.frozen_eq.trans hopen, h.options_eq⟩

end Registry

/-! ### Sessions that can be repeated -/

namespace Session

/-- The session is made of operations, and if it has succeeded in a registry that can be written,
then it succeeds again when that has grown, with the same answer, and changes nothing. -/
structure IsRepeatable (session : Session κ α) : Prop where
  isRun : session.IsRun
  again : ∀ {r r' s a}, r.frozen = false → session.run r = (.ok a, r') → r'.GrowsTo s →
    s.options.strict = false → session.run s = (.ok a, s)

lemma IsRun.growsTo {session : Session κ α} (h : session.IsRun) {a : α} (hopen : r.frozen = false)
    (hrun : session.run r = (.ok a, r')) : r.GrowsTo r' :=
  (h.leads hrun).growsTo hopen

namespace IsRepeatable

lemma pure (a : α) : IsRepeatable (pure a : Session κ α) where
  isRun := .pure a
  again := by
    rintro r r' s a - ⟨⟩ - -
    rfl

/-- The second part is repeated in a registry that the first has left as it was. -/
lemma bind {session : Session κ α} {next : α → Session κ β} (hfirst : session.IsRepeatable)
    (hnext : ∀ a, (next a).IsRepeatable) : (session >>= next).IsRepeatable where
  isRun := hfirst.isRun.bind fun a => (hnext a).isRun
  again := by
    intro r r' s b hopen hrun hlater hstrict
    obtain ⟨a, r₁, hsession, hrest⟩ := run_bind_eq_ok_iff.mp hrun
    have hopen₁ := (hfirst.isRun.growsTo hopen hsession).unfrozen
    have hlater₁ := ((hnext a).isRun.growsTo hopen₁ hrest).trans hlater
    exact run_bind_eq_ok_iff.mpr ⟨a, s, hfirst.again hopen hsession hlater₁ hstrict,
      (hnext a).again hopen₁ hrest hlater hstrict⟩

lemma annotate (note : Note) {session : Session κ α} (h : session.IsRepeatable) :
    (annotate note session).IsRepeatable where
  isRun := h.isRun.annotate note
  again hopen hrun hlater hstrict :=
    run_annotate_eq_ok_iff.mpr (h.again hopen (run_annotate_eq_ok_iff.mp hrun) hlater hstrict)

lemma forM {f : α → Session κ PUnit} (hf : ∀ a, (f a).IsRepeatable) (as : List α) :
    IsRepeatable (as.forM f) := by
  induction as with
  | nil => exact .pure PUnit.unit
  | cons a as ih => exact (hf a).bind fun _ => ih

end IsRepeatable

/-! ### Steps -/

/-- A type of the host that has become known keeps its identity. -/
lemma isRepeatable_idOf (t : HostType) : IsRepeatable (idOf t : Session κ TypeId) where
  isRun := isRun_idOf t
  again := by
    rintro r r' s type hopen ⟨⟩ hlater -
    exact run_idOf_of_lookup (hlater.le.hostType _ _ (Registry.lookup_intern hopen t))

lemma isRepeatable_lookup (type : TypeId) :
    IsRepeatable (lookup type : Session κ (LayoutFact κ)) where
  isRun := .ask _
  again := by
    intro r r' s fact _ hrun hlater _
    rw [lookup, ask, run_read_eq_ok_iff, liftM_error_eq_ok_iff, Registry.lookup_eq_ok_iff] at hrun
    obtain ⟨hfact, rfl⟩ := hrun
    exact run_lookup_of_fact (hlater.le.fact _ _ hfact)

/-- The pair is declared already, and the evidence for it rests on facts and options that stay. -/
lemma isRepeatable_declare (u t : HostType) (h : u.storage = t.storage) :
    IsRepeatable (Universe.declare u t h : Session κ (Universe κ u t)) where
  isRun := isRun_declare u t h
  again := by
    intro r r' s c hopen hrun hlater _
    obtain ⟨hdeclare, hevidence⟩ := Universe.declare_eq_ok hrun
    obtain ⟨hsource, htarget⟩ := Universe.lookup_of_declareUniverse hdeclare
    rw [Universe.run_declare_of_lookup h (hlater.le.hostType _ _ hsource)
        (hlater.le.hostType _ _ htarget),
      Registry.declareUniverse_of_extends hdeclare hlater.le hlater.unfrozen]
    dsimp only
    rw [Universe.ofRegistry_mono hevidence hlater.le hlater.options_eq]
    rfl

omit [DecidableEq κ] in
/-- A proof of a registered type is there afterwards, or it cannot be derived, and then it cannot be
derived from the same fact later. -/
lemma run_recordIfProven_again {s : Registry κ} {type : TypeId} {fact : LayoutFact κ}
    (hfact : r.fact? type = some fact)
    (hrun : (recordIfProven type (·.deriveNicheless type)).run r = (.ok (), r'))
    (hlater : r'.GrowsTo s) :
    (recordIfProven type (·.deriveNicheless type)).run s = (.ok (), s) := by
  have hle := (of_run_recordIfProven hrun).1
  have hfact' := hlater.le.fact _ _ (hle.fact _ _ hfact)
  rw [run_recordIfProven_eq_ok_iff]
  cases hknown : s.proof? type with
  | some known =>
    obtain ⟨s', hrecord⟩ := Registry.exists_recordProof hlater.unfrozen hfact' known
    obtain rfl := Registry.eq_of_recordProof hknown hrecord
    exact .inl ⟨known, by rw [Registry.deriveNicheless, hknown], hrecord⟩
  | none =>
    -- proofs stay, so none was recorded in the first place
    have hnone' := hlater.le.proof?_eq_none hknown
    have hnone := hle.proof?_eq_none hnone'
    rcases run_recordIfProven_eq_ok_iff.mp hrun with ⟨proof, -, hrecord⟩ | ⟨e, hderive, -⟩
    · have hproven := Registry.isNicheless_of_recordProof hrecord
      rw [Registry.proof?_eq_none_iff.mp hnone'] at hproven
      cases hproven
    · rw [Registry.deriveNicheless_eq hnone hfact] at hderive
      exact .inr ⟨e, (Registry.deriveNicheless_eq hknown hfact').trans hderive, rfl⟩

lemma isRepeatable_define_leaf (type : TypeId) (draft : DraftFact κ)
    (expected? : Option Storage) : IsRepeatable (define type (.leaf draft) expected?) where
  isRun := IsRun.discard_iff.mp (isRun_perform (.define type (.leaf draft) expected?) nofun)
  again := by
    intro r r' s fact hopen hrun hlater hstrict
    obtain ⟨_, r₁, ⟨⟩, hexpected, hregister, hfact, hrecord⟩ := run_define_eq_ok_iff.mp hrun
    have hle := (of_run_recordIfProven hrecord).1.trans hlater.le
    exact run_define_eq_ok_iff.mpr ⟨draft, s, rfl, hexpected,
      Registry.register_of_extends hregister hle hlater.unfrozen hstrict, hle.fact _ _ hfact,
      run_recordIfProven_again hfact hrecord hlater⟩

lemma isRepeatable_defineHost_leaf (t : HostType) (draft : DraftFact κ)
    (expected? : Option Storage) : IsRepeatable (defineHost t (.leaf draft) expected?) := by
  apply (isRepeatable_idOf t).bind
  intro type
  apply (isRepeatable_define_leaf type draft expected?).bind
  intro _
  exact .pure type

lemma isRepeatable_registerLeaf (t : HostType) (name : String) (validity? : Option (Predicate κ)) :
    IsRepeatable (registerLeaf t name validity?) :=
  isRepeatable_defineHost_leaf t _ none

/-! ### Built-in types -/

lemma isRepeatable_registerNonZero (i : IntType) : IsRepeatable (registerNonZero i :
    Session κ (Universe κ (.int i) (.oneNiche (.nonZero i)))) := by
  rw [registerNonZero]
  apply (isRepeatable_idOf _).bind
  intro type
  apply (isRepeatable_lookup type).bind
  intro base
  apply (isRepeatable_registerLeaf _ _ _).bind
  intro _
  exact isRepeatable_declare _ _ _

lemma isRepeatable_registerAllValid (t : HostType) (name : String) :
    IsRepeatable (registerAllValid t name : Session κ Unit) := by
  rw [registerAllValid]
  exact (isRepeatable_registerLeaf _ _ _).bind fun _ => .pure ()

lemma isRepeatable_registerInteger (i : IntType) :
    IsRepeatable (registerInteger i : Session κ Unit) := by
  rw [registerInteger]
  apply (isRepeatable_registerAllValid _ _).bind
  intro _
  exact (isRepeatable_registerNonZero i).bind fun _ => .pure ()

lemma isRepeatable_registerBool : IsRepeatable (registerBool : Session κ Unit) := by
  rw [registerBool]
  apply (isRepeatable_registerLeaf _ _ _).bind
  intro _
  exact (isRepeatable_declare _ _ _).bind fun _ => .pure ()

lemma isRepeatable_registerUnit : IsRepeatable (registerUnit : Session κ Unit) := by
  rw [registerUnit]
  exact (isRepeatable_defineHost_leaf _ _ _).bind fun _ => .pure ()

lemma isRepeatable_registerBuiltins : IsRepeatable (registerBuiltins : Session κ Unit) := by
  rw [registerBuiltins]
  apply IsRepeatable.bind
  · exact .forM (fun i => (isRepeatable_registerInteger i).annotate _) _
  intro _
  apply IsRepeatable.bind
  · apply IsRepeatable.forM
    rintro ⟨t, name⟩
    exact (isRepeatable_registerAllValid t name).annotate _
  intro _
  apply isRepeatable_registerBool.bind
  intro _
  exact isRepeatable_registerUnit

/-- Where the built-in types have been registered in a registry that is not strict, they can be
registered again at any later time, as long as the registry is not frozen. It stays as it is, in
every respect. -/
theorem registering_builtins_again_changes_nothing (hstrict : r.options.strict = false)
    (hrun : (registerBuiltins.run r).1 = .ok ()) {later : List (Action κ)}
    (hlater : ∀ action ∈ later, action ≠ .byIdentity .freeze) :
    let r' := (registerBuiltins.run r).2.afterActions later
    registerBuiltins.run r' = (.ok (), r') := by
  intro r'
  have hopen : r.frozen = false := by
    rw [← Bool.not_eq_true]
    intro hfrozen
    obtain ⟨failure, hrefused⟩ := isRefused_registerBuiltins (κ := κ) hfrozen
    rw [hrefused] at hrun
    cases hrun
  have hfirst := isRun_registerBuiltins.growsTo hopen (Prod.ext hrun rfl)
  have hgrows : (registerBuiltins.run r).2.GrowsTo r' :=
    ⟨(Registry.leads_afterActions _ later).extends,
      Registry.frozen_afterActions hfirst.unfrozen hlater,
      (Registry.leads_afterActions _ later).options_eq⟩
  have hstrict' : r'.options.strict = false := by
    rwa [hgrows.options_eq, hfirst.options_eq]
  exact isRepeatable_registerBuiltins.again hopen (Prod.ext hrun rfl) hgrows hstrict'

lemma registerBuiltins_empty :
    (registerBuiltins.run (.empty .standard : Registry Empty)).1 = .ok () := by
  have hok : (registerBuiltins.run (.empty .standard : Registry Empty)).1.isOk = true := by
    decide +kernel
  obtain ⟨_, hanswer⟩ := isOk_iff.mp hok
  exact hanswer

/-- In between the storage for booleans that may be invalid is registered. -/
theorem registering_builtins_again_changes_nothing_empty :
    let first := (registerBuiltins.run (.empty .standard : Registry Empty))
    let later : List (Action Empty) := [.onHost (.registerMaybeInvalid .bool)]
    first.1 = .ok () ∧ (∀ action ∈ later, action ≠ .byIdentity .freeze) ∧
      registerBuiltins.run (first.2.afterActions later) = (.ok (), first.2.afterActions later) := by
  intro first later
  have hlater : ∀ action ∈ later, action ≠ .byIdentity .freeze := by simp [later]
  exact ⟨registerBuiltins_empty, hlater,
    registering_builtins_again_changes_nothing rfl registerBuiltins_empty hlater⟩

end Session

end BitValidity
