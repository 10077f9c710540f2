import BitValidity.Proofs.Registry.Step

/-!
# Frozen registries

A frozen registry stays as it is. Whatever is there to write is refused and leaves no trace, and the
two things that are not refused, to ask for an identity and to freeze again, have nothing to write
(`freeze_is_final`). So whoever reads a frozen registry reads what was there when it was frozen.
-/

namespace BitValidity

variable {κ α β : Type} {r : Registry κ}

namespace Session

/-- The session fails and leaves the registry as it is. -/
def IsRefused (s : Session κ α) (r : Registry κ) : Prop :=
  ∃ failure, s.run r = (.error failure, r)

namespace IsRefused

lemma bind {s : Session κ α} (h : s.IsRefused r) (f : α → Session κ β) :
    (s >>= f).IsRefused r := by
  obtain ⟨failure, hrun⟩ := h
  refine ⟨failure, ?_⟩
  rw [run_bind, hrun]

/-- A question to the registry writes nothing, so it is enough that what follows is refused. -/
lemma read_bind (g : Registry κ → Except Failure α) {f : α → Session κ β}
    (h : ∀ a, (f a).IsRefused r) : (read g >>= f).IsRefused r := by
  simp only [IsRefused, run_bind, run_read]
  cases g r with
  | error failure => exact ⟨failure, rfl⟩
  | ok a => exact h a

lemma annotate {s : Session κ α} (h : s.IsRefused r) (note : Note) :
    (annotate note s).IsRefused r := by
  obtain ⟨failure, hrun⟩ := h
  change s r = _ at hrun
  simp only [IsRefused, run, Session.annotate, hrun]
  cases failure with
  | error e => exact ⟨.error (e.withNote note), rfl⟩
  | breach b => exact ⟨.breach b, rfl⟩

lemma discard {s : Session κ α} (h : s.IsRefused r) :
    (discard s : Session κ Unit).IsRefused r := by
  obtain ⟨failure, hrun⟩ := h
  refine ⟨failure, ?_⟩
  rw [run_discard, hrun]
  rfl

lemma update {f : Registry κ → Except Error (Registry κ)} {e : Error} (h : f r = .error e) :
    (update f).IsRefused r := by
  refine ⟨.error e, ?_⟩
  rw [run_update, h]

end IsRefused

/-! ### Types by their identity -/

/-- In a frozen registry no type of the host becomes known. -/
lemma run_idOf (hr : r.frozen = true) (t : HostType) :
    (idOf t).run r = (.ok (r.findHostType t), r) := by
  rw [idOf, run_write, Registry.intern, if_pos hr]

lemma isRefused_declareType (hr : r.frozen = true) (name : String) :
    (declareType name).IsRefused r := by
  refine ⟨.error (.registryFrozen (.declaring name)), ?_⟩
  rw [declareType, run_write, Registry.declareType, if_pos hr]

lemma isRefused_register [DecidableEq κ] (hr : r.frozen = true) (type : TypeId)
    (draft : DraftFact κ) : (register type draft).IsRefused r := by
  apply IsRefused.update
  rw [Registry.register, if_pos hr]

lemma isRefused_recordProof (hr : r.frozen = true) (type : TypeId) (proof : NichelessProof) :
    (recordProof type proof).IsRefused r := by
  apply IsRefused.update
  rw [Registry.recordProof, if_pos hr]

lemma isRefused_declareUniverse (hr : r.frozen = true) (source target : TypeId) :
    (declareUniverse source target).IsRefused r := by
  apply IsRefused.update
  rw [Registry.declareUniverse, if_pos hr]

section

variable [Check κ]

lemma isRefused_proveNicheless (hr : r.frozen = true) (type : TypeId) :
    (proveNicheless type).IsRefused r :=
  .read_bind _ fun proof => isRefused_recordProof hr type proof

lemma isRefused_assertNicheless (hr : r.frozen = true) (type : TypeId) (justification : String) :
    (assertNicheless type justification).IsRefused r := by
  apply IsRefused.read_bind
  intro fact
  apply IsRefused.read_bind
  intro _
  exact isRefused_recordProof hr type (.asserted justification)

variable [DecidableEq κ]

/-- A definition registers before it answers, also when the type has the same fact already. -/
lemma isRefused_define (hr : r.frozen = true) (type : TypeId) (description : Description κ)
    (expected? : Option Storage) : (define type description expected?).IsRefused r := by
  apply IsRefused.read_bind
  intro draft
  apply IsRefused.bind
  apply IsRefused.read_bind
  intro _
  exact (isRefused_register hr type draft).bind _

/-! ### Types of the host -/

omit [Check κ] [DecidableEq κ] in
/-- What asks for the identity of a type of the host is refused if it is refused with the identity
that the type has. -/
lemma IsRefused.idOf_bind (hr : r.frozen = true) (t : HostType) {f : TypeId → Session κ α}
    (h : (f (r.findHostType t)).IsRefused r) : (idOf t >>= f).IsRefused r := by
  obtain ⟨failure, hrun⟩ := h
  refine ⟨failure, ?_⟩
  rw [run_bind, run_idOf hr]
  exact hrun

lemma isRefused_defineHost (hr : r.frozen = true) (t : HostType) (description : Description κ)
    (expected? : Option Storage) : (defineHost t description expected?).IsRefused r := by
  apply IsRefused.idOf_bind hr
  exact (isRefused_define hr _ description expected?).bind _

lemma isRefused_registerLeaf (hr : r.frozen = true) (t : HostType) (name : String)
    (validity? : Option (Predicate κ)) : (registerLeaf t name validity?).IsRefused r :=
  isRefused_defineHost hr t _ none

omit [Check κ] [DecidableEq κ] in
lemma isRefused_declare (hr : r.frozen = true) (u t : HostType) (h : u.storage = t.storage) :
    IsRefused (Universe.declare u t h) r := by
  apply IsRefused.idOf_bind hr
  apply IsRefused.idOf_bind hr
  exact (isRefused_declareUniverse hr _ _).bind _

lemma isRefused_registerArray (hr : r.frozen = true) (element : HostType) (count : Nat) :
    (registerArray element count).IsRefused r := by
  rw [registerArray]
  apply IsRefused.idOf_bind hr
  apply IsRefused.read_bind
  intro fact
  exact isRefused_defineHost hr _ _ _

lemma isRefused_registerNonZero (hr : r.frozen = true) (i : IntType) :
    (registerNonZero i).IsRefused r := by
  rw [registerNonZero]
  apply IsRefused.idOf_bind hr
  apply IsRefused.read_bind
  intro base
  exact (isRefused_registerLeaf hr _ _ _).bind _

lemma isRefused_registerNicheOption (hr : r.frozen = true) (x : OneNiche) :
    (registerNicheOption x).IsRefused r := by
  rw [registerNicheOption]
  apply IsRefused.idOf_bind hr
  apply IsRefused.read_bind
  intro base
  exact (isRefused_registerLeaf hr _ _ _).bind _

lemma isRefused_registerMaybeInvalid (hr : r.frozen = true) (t : HostType) :
    (registerMaybeInvalid t).IsRefused r := by
  rw [registerMaybeInvalid]
  apply IsRefused.idOf_bind hr
  apply IsRefused.read_bind
  intro base
  exact (isRefused_registerLeaf hr _ _ _).bind _

/-- The built-in types are registered from the first integer type on. -/
lemma isRefused_registerBuiltins (hr : r.frozen = true) :
    IsRefused (registerBuiltins : Session κ Unit) r := by
  have hinteger : ∀ i, (registerInteger i).IsRefused r := fun i =>
    ((isRefused_registerLeaf hr _ _ _).bind _).bind _
  exact (((hinteger _).annotate _).bind _).bind _

end

end Session

/-! ### Actions -/

variable [Check κ] [DecidableEq κ]

/-- In a frozen registry, whatever is there to write is refused. -/
lemma Action.isRefused (hr : r.frozen = true) {action : Action κ} (hwrites : action.writes = true) :
    action.perform.IsRefused r := by
  cases action with
  | byIdentity op =>
    cases op with
    | idOf t | freeze => cases hwrites
    | declareType name => exact (Session.isRefused_declareType hr name).discard
    | register type draft => exact Session.isRefused_register hr type draft
    | define type description expected? =>
      exact (Session.isRefused_define hr type description expected?).discard
    | proveNicheless type => exact Session.isRefused_proveNicheless hr type
    | assertNicheless type justification =>
      exact Session.isRefused_assertNicheless hr type justification
    | declareUniverse source target => exact Session.isRefused_declareUniverse hr source target
  | onHost op =>
    cases op with
    | registerLeaf t name validity? => exact (Session.isRefused_registerLeaf hr _ _ _).discard
    | defineAggregate t a | defineTransparent t a | defineTaggedUnion t u
    | registerEnumeration enumeration name underlying values =>
      exact (Session.isRefused_defineHost hr _ _ _).discard
    | registerArray element count => exact (Session.isRefused_registerArray hr _ _).discard
    | registerNonZero i => exact (Session.isRefused_registerNonZero hr i).discard
    | registerNonNull pointee name =>
      exact ((Session.isRefused_registerLeaf hr _ _ _).bind _).discard
    | registerNicheOption x => exact (Session.isRefused_registerNicheOption hr x).discard
    | registerMaybeInvalid t => exact (Session.isRefused_registerMaybeInvalid hr t).discard
    | registerBuiltins => exact Session.isRefused_registerBuiltins hr
    | declareUniverse u t h => exact (Session.isRefused_declare hr u t h).discard

/-- No action changes a frozen registry. -/
lemma Action.run_snd (hr : r.frozen = true) (action : Action κ) :
    (action.perform.run r).2 = r := by
  cases hwrites : action.writes with
  | true =>
    obtain ⟨failure, hrun⟩ := Action.isRefused hr hwrites
    rw [hrun]
  | false =>
    cases action with
    | onHost op => cases hwrites
    | byIdentity op =>
      cases op with
      | idOf t =>
        show (Registry.after r (.idOf t)) = r
        rw [Registry.after_idOf, Registry.intern, if_pos hr]
      | freeze =>
        show r.freeze = r
        rw [Registry.freeze, ← hr]
      | _ => cases hwrites

namespace Registry

lemma afterActions_of_frozen (hr : r.frozen = true) (actions : List (Action κ)) :
    r.afterActions actions = r := by
  induction actions with
  | nil => rfl
  | cons action rest ih =>
    show ((action.perform.run r).2).afterActions rest = r
    rw [Action.run_snd hr, ih]

/-- Whatever is performed on a registry that was frozen, on types by their identity or on types of
the host: the registry stays as it was left when it was frozen, whatever is there to write fails,
and the identity of a type of the host is the one that was known, or the invalid one. What can be
asked has the answer that it had before. -/
theorem freeze_is_final (s : Registry κ) (actions : List (Action κ)) :
    let r := (s.after .freeze).afterActions actions
    r = s.after .freeze ∧
    (∀ action : Action κ, action.writes = true →
      ∃ failure, action.perform.run r = (.error failure, r)) ∧
    (∀ t, (Session.idOf t).run r = (.ok (s.findHostType t), r)) ∧
    (∀ t, s.hostTypes.lookup t = none → (Session.idOf t).run r = (.ok .invalid, r)) ∧
    r.size = s.size ∧
    (∀ type, r.fact? type = s.fact? type ∧ r.lookup type = s.lookup type ∧
      r.proof? type = s.proof? type ∧ r.nameOf type = s.nameOf type ∧
      r.universesOf type = s.universesOf type) ∧
    (∀ source target, r.isUniverse source target = s.isUniverse source target) ∧
    ∀ t, r.findHostType t = s.findHostType t := by
  intro r
  have hr : r = s.freeze := afterActions_of_frozen rfl actions
  have hfrozen : r.frozen = true := by rw [hr]; rfl
  have hidOf : ∀ t, (Session.idOf t).run r = (.ok (s.findHostType t), r) := by
    intro t
    rw [Session.run_idOf hfrozen, hr]
    rfl
  refine ⟨hr, fun action h => Action.isRefused hfrozen h, hidOf, ?_, ?_, ?_, ?_, ?_⟩
  · intro t ht
    rw [hidOf, findHostType, ht]
    rfl
  all_goals
    rw [hr]
    intros
  · rfl
  · exact ⟨rfl, rfl, rfl, rfl, rfl⟩
  · rfl
  · rfl

end Registry

end BitValidity
