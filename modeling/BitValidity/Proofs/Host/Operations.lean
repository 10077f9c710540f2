import BitValidity.Proofs.Registry.Consistency

/-!
# Operations on types of the host

What can be done to types of the host is made of operations on types by their identity, with
questions to the registry between them. Whatever it comes to, the registry that it leaves is one
that a run of these operations leaves (`HostOperation.leads_perform`), so that what is known of all
runs is known of registries that are used through types of the host. None of them is to freeze.
-/

namespace BitValidity

variable {κ α β : Type} [Check κ] [DecidableEq κ]

/-! ### Sessions made of operations -/

namespace Session

omit [Check κ] [DecidableEq κ] in
lemma run_annotate_eq_ok_iff {note : Note} {s : Session κ α} {r r' : Registry κ} {a : α} :
    (annotate note s).run r = (.ok a, r') ↔ s.run r = (.ok a, r') := by
  simp only [run, Session.annotate]
  split <;> simp_all

/-- Whatever the session comes to, it leaves what some operations leave that do not freeze. -/
def IsRun (s : Session κ α) : Prop :=
  ∀ r : Registry κ, Registry.Leads (fun _ op => op ≠ .freeze) r (s.run r).2

namespace IsRun

lemma leads {s : Session κ α} {a : α} {r r' : Registry κ} (h : s.IsRun)
    (hrun : s.run r = (.ok a, r')) : Registry.Leads (fun _ op => op ≠ .freeze) r r' := by
  have hleads := h r
  rwa [hrun] at hleads

lemma pure (a : α) : IsRun (pure a : Session κ α) := fun _ => .refl

lemma ask (f : Registry κ → Except Error α) : IsRun (ask f) := fun _ => .refl

lemma bind {s : Session κ α} {f : α → Session κ β} (hs : s.IsRun) (hf : ∀ a, (f a).IsRun) :
    (s >>= f).IsRun := by
  intro r
  have hr := hs r
  rw [run_bind]
  rcases h : s.run r with ⟨outcome, r'⟩
  rw [h] at hr
  cases outcome with
  | error failure => exact hr
  | ok a => exact hr.trans (hf a r')

lemma discard_iff {s : Session κ α} : IsRun (discard s : Session κ Unit) ↔ s.IsRun := by
  simp only [IsRun, run_discard]

lemma annotate (note : Note) {s : Session κ α} (hs : s.IsRun) : (annotate note s).IsRun := by
  intro r
  have hr := hs r
  simp only [run, Session.annotate] at hr ⊢
  split
  · rename_i heq
    rwa [heq] at hr
  · exact hr

lemma forM {f : α → Session κ PUnit} (hf : ∀ a, (f a).IsRun) (as : List α) :
    IsRun (as.forM f) := by
  induction as with
  | nil => exact .pure PUnit.unit
  | cons a as ih => exact (hf a).bind fun _ => ih

end IsRun

/-! ### Steps -/

lemma isRun_perform (op : Operation κ) (h : op ≠ .freeze) : op.perform.IsRun :=
  fun _ => .step .refl h

lemma isRun_idOf (t : HostType) : IsRun (idOf t : Session κ TypeId) :=
  IsRun.discard_iff.mp (isRun_perform (.idOf t) nofun)

lemma isRun_defineHost (t : HostType) (description : Description κ) (expected? : Option Storage) :
    (defineHost t description expected?).IsRun := by
  apply (isRun_idOf t).bind
  intro type
  have hdefine : IsRun (define type description expected?) :=
    IsRun.discard_iff.mp (isRun_perform (.define type description expected?) nofun)
  apply hdefine.bind
  intro _
  exact .pure type

lemma isRun_registerLeaf (t : HostType) (name : String) (validity? : Option (Predicate κ)) :
    (registerLeaf t name validity?).IsRun :=
  isRun_defineHost t _ none

lemma isRun_declare (u t : HostType) (h : u.storage = t.storage) :
    IsRun (Universe.declare u t h : Session κ (Universe κ u t)) := by
  apply (isRun_idOf u).bind
  intro source
  apply (isRun_idOf t).bind
  intro target
  have hdeclare : IsRun (declareUniverse source target : Session κ Unit) :=
    isRun_perform (.declareUniverse source target) nofun
  apply hdeclare.bind
  intro _
  exact .ask _

/-- To look up the fact of a host type makes the type known. -/
lemma isRun_lookup_idOf (t : HostType) {f : TypeId → LayoutFact κ → Session κ α}
    (hf : ∀ type fact, (f type fact).IsRun) :
    IsRun (idOf t >>= fun type => lookup type >>= f type) := by
  apply (isRun_idOf t).bind
  intro type
  exact IsRun.bind (.ask _) (hf type)

/-- A leaf is registered, and then a universe is declared, of it or of another type. -/
lemma isRun_registerLeaf_declare (t : HostType) (name : String) (validity? : Option (Predicate κ))
    {u v : HostType} (h : u.storage = v.storage) :
    IsRun (registerLeaf t name validity? >>= fun _ =>
      (Universe.declare u v h : Session κ (Universe κ u v))) := by
  apply (isRun_registerLeaf t name validity?).bind
  intro _
  exact isRun_declare u v h

lemma isRun_registerArray (element : HostType) (count : Nat) :
    IsRun (registerArray element count : Session κ TypeId) := by
  rw [registerArray]
  apply isRun_lookup_idOf
  intro type fact
  exact isRun_defineHost _ _ _

lemma isRun_registerNonZero (i : IntType) :
    IsRun (registerNonZero i : Session κ (Universe κ (.int i) (.oneNiche (.nonZero i)))) := by
  rw [registerNonZero]
  apply isRun_lookup_idOf
  intro type base
  exact isRun_registerLeaf_declare _ _ _ _

lemma isRun_registerNonNull (pointee name : String) :
    IsRun (registerNonNull pointee name :
      Session κ (Universe κ (.pointer pointee) (.oneNiche (.nonNull pointee)))) := by
  rw [registerNonNull]
  apply (isRun_registerLeaf _ _ _).bind
  intro _
  exact isRun_registerLeaf_declare _ _ _ _

lemma isRun_registerNicheOption (x : OneNiche) :
    IsRun (registerNicheOption x : Session κ (Universe κ (.nicheOption x) (.oneNiche x))) := by
  rw [registerNicheOption]
  apply isRun_lookup_idOf
  intro type base
  exact isRun_registerLeaf_declare _ _ _ _

lemma isRun_registerMaybeInvalid (t : HostType) :
    IsRun (registerMaybeInvalid t : Session κ (Universe κ (.maybeInvalid t) t)) := by
  rw [registerMaybeInvalid]
  apply isRun_lookup_idOf
  intro type base
  exact isRun_registerLeaf_declare _ _ _ _

/-! ### Built-in types -/

lemma isRun_registerAllValid (t : HostType) (name : String) :
    IsRun (registerAllValid t name : Session κ Unit) := by
  rw [registerAllValid]
  exact (isRun_registerLeaf _ _ _).bind fun _ => .pure ()

lemma isRun_registerInteger (i : IntType) : IsRun (registerInteger i : Session κ Unit) := by
  rw [registerInteger]
  apply (isRun_registerAllValid _ _).bind
  intro _
  exact (isRun_registerNonZero i).bind fun _ => .pure ()

lemma isRun_registerBool : IsRun (registerBool : Session κ Unit) := by
  rw [registerBool]
  apply (isRun_registerLeaf _ _ _).bind
  intro _
  exact (isRun_declare _ _ _).bind fun _ => .pure ()

lemma isRun_registerUnit : IsRun (registerUnit : Session κ Unit) := by
  rw [registerUnit]
  exact (isRun_defineHost _ _ _).bind fun _ => .pure ()

lemma isRun_registerBuiltins : IsRun (registerBuiltins : Session κ Unit) := by
  rw [registerBuiltins]
  apply IsRun.bind
  · exact .forM (fun i => (isRun_registerInteger i).annotate _) _
  intro _
  apply IsRun.bind
  · apply IsRun.forM
    rintro ⟨t, name⟩
    exact (isRun_registerAllValid t name).annotate _
  intro _
  apply isRun_registerBool.bind
  intro _
  exact isRun_registerUnit

end Session

/-- Whatever is done to types of the host, and whatever it comes to, the registry that it leaves is
left by operations on types by their identity that do not freeze. -/
theorem HostOperation.leads_perform (op : HostOperation κ) (r : Registry κ) :
    Registry.Leads (fun _ op => op ≠ .freeze) r (op.perform.run r).2 := by
  revert r
  show op.perform.IsRun
  cases op with
  | registerLeaf t name validity? =>
    exact Session.IsRun.discard_iff.mpr (Session.isRun_registerLeaf t name validity?)
  | defineAggregate t a | defineTransparent t a | defineTaggedUnion t u
  | registerEnumeration enumeration name underlying values =>
    exact Session.IsRun.discard_iff.mpr (Session.isRun_defineHost _ _ _)
  | registerArray element count =>
    exact Session.IsRun.discard_iff.mpr (Session.isRun_registerArray element count)
  | registerNonZero i => exact Session.IsRun.discard_iff.mpr (Session.isRun_registerNonZero i)
  | registerNonNull pointee name =>
    exact Session.IsRun.discard_iff.mpr (Session.isRun_registerNonNull pointee name)
  | registerNicheOption x =>
    exact Session.IsRun.discard_iff.mpr (Session.isRun_registerNicheOption x)
  | registerMaybeInvalid t =>
    exact Session.IsRun.discard_iff.mpr (Session.isRun_registerMaybeInvalid t)
  | registerBuiltins => exact Session.isRun_registerBuiltins
  | declareUniverse u t h => exact Session.IsRun.discard_iff.mpr (Session.isRun_declare u t h)

namespace Registry

variable {r : Registry κ} {Allowed : Registry κ → Operation κ → Prop}

/-- Actions of both kinds leave what some operations leave, each of which is performed on types by
their identity or does not freeze. -/
lemma leads_afterActions_of {actions : List (Action κ)}
    (hhost : ∀ s op, op ≠ .freeze → Allowed s op)
    (hidentity : ∀ op, .byIdentity op ∈ actions → ∀ s, Allowed s op) :
    Leads Allowed r (r.afterActions actions) := by
  induction actions generalizing r with
  | nil => exact .refl
  | cons action rest ih =>
    have hfirst : Leads Allowed r (action.perform.run r).2 := by
      cases action with
      | byIdentity op => exact .step .refl (hidentity op List.mem_cons_self r)
      | onHost op => exact (op.leads_perform r).mono hhost
    exact hfirst.trans (ih fun op hop => hidentity op (List.mem_cons_of_mem _ hop))

theorem leads_afterActions (r : Registry κ) (actions : List (Action κ)) :
    Leads (fun _ _ => True) r (r.afterActions actions) :=
  leads_afterActions_of (fun _ _ _ => trivial) fun _ _ _ => trivial

/-- Actions that do not freeze leave a registry that can still be written. -/
theorem frozen_afterActions (hopen : r.frozen = false) {actions : List (Action κ)}
    (hactions : ∀ action ∈ actions, action ≠ .byIdentity .freeze) :
    (r.afterActions actions).frozen = false := by
  have hleads : Leads (fun _ op => op ≠ .freeze) r (r.afterActions actions) := by
    apply leads_afterActions_of fun _ _ h => h
    rintro op hop _ rfl
    exact hactions _ hop rfl
  exact hleads.frozen_eq.trans hopen

/-- What is done to types of the host keeps a registry reachable. -/
theorem Reachable.hostOperation (hr : r.Reachable) (op : HostOperation κ) :
    Registry.Reachable (op.perform.run r).2 := by
  obtain ⟨options, hleads⟩ := hr
  exact ⟨options, hleads.trans ((op.leads_perform r).mono fun _ _ _ => trivial)⟩

end Registry

end BitValidity
