import BitValidity.Proofs.Host.Conversion
import BitValidity.Proofs.Registry.Redefinition

/-!
# The zero niche

Three tests single out the word that a type with one niche has no value for. To create a value the
word is compared to zero, an option has a value if one of its bytes is not zero, and a conversion
checks the bytes by the predicate of the registered fact. They agree, and they agree on the value
(`zero_niche_views_agree`), whatever else is done to the registry. Nor does it matter what was known
of the type before, since only a fact with an equivalent predicate lets it be registered.
-/

namespace BitValidity

variable {κ α : Type} {r r' : Registry κ} {u t : HostType} {x : OneNiche}

/-! ### Words and options -/

lemma OneNiche.decode_encode (word : x.Word) :
    LittleEndian.decode (LittleEndian.encode x.width.bytes word.toNat) = word.toNat := by
  rw [LittleEndian.decode_encode, Nat.shiftLeft_eq, Nat.one_mul]
  exact Nat.mod_eq_of_lt word.isLt

namespace NicheOption

lemma word_eq_of_bytes {o : NicheOption x} {word : x.Word}
    (h : o.bytes = LittleEndian.encode x.width.bytes word.toNat) : o.word = word := by
  apply BitVec.eq_of_toNat_eq
  rw [toNat_word, h, OneNiche.decode_encode]

lemma hasValue_iff {o : NicheOption x} : o.hasValue = true ↔ o.word ≠ 0 := by
  refine ⟨word_ne_zero, ?_⟩
  intro hword
  by_contra hnone
  have hbytes : ∀ b ∈ o.bytes, b = 0 := by simpa [hasValue] using hnone
  apply hword
  apply BitVec.eq_of_toNat_eq
  rw [toNat_word, LittleEndian.decode_eq_zero_iff.mpr hbytes]
  rfl

/-- The option holds the value that is created of its word. -/
lemma get?_eq_create? (o : NicheOption x) : o.get? = x.create? o.word := by
  by_cases hword : o.word = 0
  · rw [get?, dif_neg (mt hasValue_iff.mp (not_not.mpr hword)),
      OneNiche.create?_eq_none_iff.mpr hword]
  · rw [get?, dif_pos (hasValue_iff.mpr hword), OneNiche.create?, dif_neg hword]

end NicheOption

/-! ### Conversions -/

/-- The fact has the size of the type, and all bytes but those of zero are values. -/
structure LayoutFact.ExcludesZero (fact : LayoutFact κ) (x : OneNiche) : Prop where
  size_eq : fact.size = x.width.toUInt64
  validity_eq : ∃ d pointer, fact.validity = .nonZero x.width.toUInt64 d pointer

lemma LayoutFact.excludesZero_of_agreesWith [DecidableEq κ] {fact : LayoutFact κ} {name d : String}
    {pointer : Bool}
    (h : fact.agreesWith ⟨(HostType.oneNiche x).storage, name,
      .nonZero x.width.toUInt64 d pointer⟩ = true) : fact.ExcludesZero x := by
  obtain ⟨hstorage, hequivalent⟩ := agreesWith_iff.mp h
  refine ⟨congrArg Storage.size hstorage, ?_⟩
  cases hvalidity : fact.validity with
  | nonZero size d' pointer' =>
    simp only [hvalidity, Predicate.equivalent, Bool.and_eq_true, beq_iff_eq] at hequivalent
    exact ⟨d', pointer', by rw [hequivalent.1]⟩
  | _ => simp [hvalidity, Predicate.equivalent] at hequivalent

namespace Universe

variable [Check κ] {c : Universe κ u (.oneNiche x)} {word : x.Word} {v : HostValue u}

/-- The bytes of a word are converted to the value that is created of it. -/
lemma checkedReinterpret_of_create? {value : x.Value} (hc : c.target.ExcludesZero x)
    (hv : v.bytes = LittleEndian.encode x.width.bytes word.toNat)
    (hvalue : x.create? word = some value) : c.checkedReinterpret v = .ok (x.store value) := by
  obtain ⟨d, pointer, hvalidity⟩ := hc.validity_eq
  have hlen : v.bytes.length = c.target.size.toNat := by simp [hv, hc.size_eq]
  have hword : word ≠ 0 := by
    intro hzero
    cases (OneNiche.create?_eq_none_iff.mpr hzero).symm.trans hvalue
  have haccepts :
      c.target.validity.findViolation (v.bytes.take c.target.size.toNat) = .ok none := by
    rw [List.take_of_length_le hlen.le, hvalidity]
    refine Predicate.accepts_nonZero_iff_decode_ne_zero.mpr ⟨by rw [hlen, hc.size_eq], ?_⟩
    rw [hv, OneNiche.decode_encode]
    exact fun hzero => hword (BitVec.eq_of_toNat_eq hzero)
  rw [checkedReinterpret_of_none haccepts, Except.ok.injEq]
  simp only [HostValue.reinterpret, OneNiche.store, OneNiche.word_of_create? hvalue, hv]

/-- The bytes of zero are refused. -/
lemma exists_checkedReinterpret_error (hc : c.target.ExcludesZero x)
    (hv : v.bytes = LittleEndian.encode x.width.bytes word.toNat) (hnone : x.create? word = none) :
    ∃ e, c.checkedReinterpret v = .error (.error e) ∧ e.kind = .invalidBitPattern := by
  obtain ⟨d, pointer, hvalidity⟩ := hc.validity_eq
  have hlen : v.bytes.length = x.width.bytes := by simp [hv]
  have hzero : ∀ b ∈ v.bytes, b = 0 := by
    rw [← LittleEndian.decode_eq_zero_iff, hv, OneNiche.decode_encode,
      OneNiche.create?_eq_none_iff.mp hnone]
    rfl
  have hviolation : c.target.validity.findViolation (v.bytes.take c.target.size.toNat) =
      .ok (some (.ofLeaf (.nonZero x.width.toUInt64 d pointer : Predicate κ) v.bytes
        (.ofZero pointer))) := by
    rw [List.take_of_length_le (by simp [hlen, hc.size_eq]), hvalidity]
    simpa [Predicate.findViolation, Predicate.size, hlen] using hzero
  exact ⟨_, checkedReinterpret_of_some hviolation, rfl⟩

end Universe

/-- Whether the word is made a value, or its bytes are converted, or they are kept as an option, or
that option is converted: either all find a value, or none does. -/
structure ViewsAgree [Check κ] (c : Universe κ u (.oneNiche x))
    (d : Universe κ (.nicheOption x) (.oneNiche x)) (word : x.Word) (v : HostValue u)
    (o : NicheOption x) : Prop where
  created_iff : (∃ value, x.create? word = some value) ↔ ∃ w, c.checkedReinterpret v = .ok w
  converted_iff : (∃ w, c.checkedReinterpret v = .ok w) ↔ o.hasValue = true
  hasValue_iff : o.hasValue = true ↔ ∃ w, d.checkedReinterpret o = .ok w
  /-- The value is the same for all, and holds the word. -/
  of_some : ∀ value, x.create? word = some value →
    value.word = word ∧ o.get? = some value ∧ NicheOption.ofValue value = o ∧
      c.checkedReinterpret v = .ok (x.store value) ∧ d.checkedReinterpret o = .ok (x.store value)
  /-- Conversions fail because of the bytes. -/
  of_none : x.create? word = none →
    o.get? = none ∧
      (∃ e, c.checkedReinterpret v = .error (.error e) ∧ e.kind = .invalidBitPattern) ∧
      ∃ e, d.checkedReinterpret o = .error (.error e) ∧ e.kind = .invalidBitPattern

lemma viewsAgree_of_excludesZero [Check κ] {c : Universe κ u (.oneNiche x)}
    {d : Universe κ (.nicheOption x) (.oneNiche x)} {word : x.Word} {v : HostValue u}
    {o : NicheOption x} (hc : c.target.ExcludesZero x) (hd : d.target.ExcludesZero x)
    (hv : v.bytes = LittleEndian.encode x.width.bytes word.toNat) (ho : o.bytes = v.bytes) :
    ViewsAgree c d word v o := by
  have hword : o.word = word := NicheOption.word_eq_of_bytes (ho.trans hv)
  have hget : o.get? = x.create? word := by rw [o.get?_eq_create?, hword]
  cases hvalue : x.create? word with
  | some value =>
    have hconverted := Universe.checkedReinterpret_of_create? hc hv hvalue
    have hconverted' := Universe.checkedReinterpret_of_create? hd (ho.trans hv) hvalue
    have hhas : o.hasValue = true := by
      rw [NicheOption.hasValue_iff, hword, ← OneNiche.word_of_create? hvalue]
      exact value.ne_zero
    refine ⟨iff_of_true ⟨_, hvalue⟩ ⟨_, hconverted⟩, iff_of_true ⟨_, hconverted⟩ hhas,
      iff_of_true hhas ⟨_, hconverted'⟩, ?_, ?_⟩
    · intro other hother
      obtain rfl := Option.some.inj (hvalue.symm.trans hother)
      refine ⟨OneNiche.word_of_create? hvalue, hget.trans hvalue, ?_, hconverted, hconverted'⟩
      cases o
      simp_all [NicheOption.ofValue, HostValue.reinterpret, OneNiche.store,
        OneNiche.word_of_create? hvalue]
    · intro hnone
      cases hvalue.symm.trans hnone
  | none =>
    obtain ⟨e, hfails, hkind⟩ := Universe.exists_checkedReinterpret_error hc hv hvalue
    obtain ⟨e', hfails', hkind'⟩ :=
      Universe.exists_checkedReinterpret_error hd (ho.trans hv) hvalue
    have hhas : ¬ o.hasValue = true := by
      rw [NicheOption.hasValue_iff, hword, not_not]
      exact OneNiche.create?_eq_none_iff.mp hvalue
    refine ⟨iff_of_false ?_ ?_, iff_of_false ?_ hhas, iff_of_false hhas ?_, ?_, ?_⟩
    · simp [hvalue]
    · simp [hfails]
    · simp [hfails]
    · simp [hfails']
    · intro value hvalue'
      cases hvalue.symm.trans hvalue'
    · intro _
      exact ⟨hget.trans hvalue, ⟨e, hfails, hkind⟩, e', hfails', hkind'⟩

/-! ### Registration -/

variable [Check κ] [DecidableEq κ]

namespace Session

/-- A type that is registered by its predicate has a fact that agrees. -/
lemma of_run_registerLeaf {name : String} {validity : Predicate κ} {type : TypeId}
    (hrun : (registerLeaf t name (some validity)).run r = (.ok type, r')) :
    ∃ fact, r'.fact? (r'.findHostType t) = some fact ∧
      fact.agreesWith ⟨t.storage, name, validity⟩ = true := by
  obtain ⟨rfl, _, s, ⟨⟩, hregister, hrecord⟩ := of_run_defineHost hrun
  obtain ⟨_, fact, ⟨⟩, hfact, hagrees⟩ := Registry.agreesWith_of_register hregister
  exact ⟨fact, (of_run_recordIfProven hrecord).1.fact _ _ hfact, hagrees⟩

end Session

namespace Universe

variable {c : Universe κ u t}

/-- The registry is what the declaration of the evidence has left. -/
def DeclaredIn (c : Universe κ u t) (r : Registry κ) : Prop :=
  ∃ before, (declare u t c.storage_eq).run before = (.ok c, r)

lemma DeclaredIn.lookup_eq (hc : c.DeclaredIn r)
    (hleads : Registry.Leads (fun _ _ => True) r r') : lookup r' u t c.storage_eq = .ok c := by
  obtain ⟨before, hrun⟩ := hc
  exact lookup_of_declare hrun hleads.extends hleads.options_eq

end Universe

/-- In the registry the type with one niche has a fact that makes zero its niche. -/
def Registry.HasZeroNiche (r : Registry κ) (x : OneNiche) : Prop :=
  ∃ fact, r.fact? (r.findHostType (.oneNiche x)) = some fact ∧ fact.ExcludesZero x

namespace Registry.HasZeroNiche

omit [Check κ] [DecidableEq κ] in
lemma mono (h : r.HasZeroNiche x) (hle : r.Extends r') : r'.HasZeroNiche x := by
  obtain ⟨fact, hfact, hzero⟩ := h
  exact ⟨fact, hle.findHostType_eq hfact ▸ hle.fact _ _ hfact, hzero⟩

omit [Check κ] [DecidableEq κ] in
/-- Evidence that is looked up has the fact. -/
lemma target {h : u.storage = (HostType.oneNiche x).storage} {c : Universe κ u (.oneNiche x)}
    (hniche : r.HasZeroNiche x) (hc : Universe.lookup r u (.oneNiche x) h = .ok c) :
    c.target.ExcludesZero x := by
  obtain ⟨fact, hfact, hzero⟩ := hniche
  obtain ⟨-, htarget, -⟩ :=
    Universe.ofRegistry_eq_ok_iff.mp (Universe.lookup_eq_ok_iff.mp hc).2
  obtain rfl := Option.some.inj (hfact.symm.trans htarget)
  exact hzero

end Registry.HasZeroNiche

namespace Session

/-- The type with the niche is registered, and then a universe of it is declared. -/
lemma of_run_registerLeaf_declare {name d : String} {pointer : Bool}
    {h : u.storage = (HostType.oneNiche x).storage} {c : Universe κ u (.oneNiche x)}
    (hrun : (registerLeaf (.oneNiche x) name (some (.nonZero x.width.toUInt64 d pointer)) >>=
      fun _ => Universe.declare u (.oneNiche x) h).run r = (.ok c, r')) :
    c.DeclaredIn r' ∧ r'.HasZeroNiche x := by
  obtain ⟨_, s, hleaf, hdeclare⟩ := run_bind_eq_ok_iff.mp hrun
  obtain ⟨fact, hfact, hagrees⟩ := of_run_registerLeaf hleaf
  have hle : s.Extends r' := ((isRun_declare u (.oneNiche x) h).leads hdeclare).extends
  have hniche : s.HasZeroNiche x := ⟨fact, hfact, LayoutFact.excludesZero_of_agreesWith hagrees⟩
  exact ⟨⟨s, hdeclare⟩, hniche.mono hle⟩

lemma of_run_registerNonZero {i : IntType} {c : Universe κ (.int i) (.oneNiche (.nonZero i))}
    (hrun : (registerNonZero i).run r = (.ok c, r')) :
    c.DeclaredIn r' ∧ r'.HasZeroNiche (.nonZero i) := by
  obtain ⟨_, _, -, hrun⟩ := run_bind_eq_ok_iff.mp hrun
  obtain ⟨_, _, -, hrun⟩ := run_bind_eq_ok_iff.mp hrun
  exact of_run_registerLeaf_declare hrun

lemma of_run_registerNonNull {pointee name : String}
    {c : Universe κ (.pointer pointee) (.oneNiche (.nonNull pointee))}
    (hrun : (registerNonNull pointee name).run r = (.ok c, r')) :
    c.DeclaredIn r' ∧ r'.HasZeroNiche (.nonNull pointee) := by
  obtain ⟨_, _, -, hrun⟩ := run_bind_eq_ok_iff.mp hrun
  exact of_run_registerLeaf_declare hrun

lemma declaredIn_of_run_registerNicheOption {d : Universe κ (.nicheOption x) (.oneNiche x)}
    (hrun : (registerNicheOption x).run r = (.ok d, r')) : d.DeclaredIn r' := by
  obtain ⟨_, _, -, hrun⟩ := run_bind_eq_ok_iff.mp hrun
  obtain ⟨_, _, -, hrun⟩ := run_bind_eq_ok_iff.mp hrun
  obtain ⟨_, s, -, hdeclare⟩ := run_bind_eq_ok_iff.mp hrun
  exact ⟨s, hdeclare⟩

/-- The session has succeeded with the answer, and operations have led from what it left to the
registry. -/
def HasAnswered (session : Session κ α) (a : α) (r : Registry κ) : Prop :=
  ∃ before after, session.run before = (.ok a, after) ∧
    Registry.Leads (fun _ _ => True) after r

/-- What was answered when the type and its option were registered is still the evidence for their
universes, and it speaks of a fact that makes zero the niche. -/
lemma lookup_eq_of_hasAnswered {session : Session κ (Universe κ u (.oneNiche x))}
    (hsession : ∀ {before after c}, session.run before = (.ok c, after) →
      c.DeclaredIn after ∧ after.HasZeroNiche x)
    {c : Universe κ u (.oneNiche x)} {d : Universe κ (.nicheOption x) (.oneNiche x)}
    (hc : session.HasAnswered c r) (hd : (registerNicheOption x).HasAnswered d r) :
    (Universe.lookup r u (.oneNiche x) c.storage_eq = .ok c ∧ c.target.ExcludesZero x) ∧
      Universe.lookup r (.nicheOption x) (.oneNiche x) rfl = .ok d ∧ d.target.ExcludesZero x := by
  obtain ⟨_, after, hrun, hleads⟩ := hc
  obtain ⟨_, after', hrun', hleads'⟩ := hd
  obtain ⟨hdeclared, hniche⟩ := hsession hrun
  have hniche' := hniche.mono hleads.extends
  have hlookup := hdeclared.lookup_eq hleads
  have hlookup' := (declaredIn_of_run_registerNicheOption hrun').lookup_eq hleads'
  exact ⟨⟨hlookup, hniche'.target hlookup⟩, hlookup', hniche'.target hlookup'⟩

end Session

/-- How an address is stored. -/
def HostValue.ofAddress (pointee : String) (address : BitVec 64) : HostValue (.pointer pointee) :=
  ⟨LittleEndian.encode 8 address.toNat, by simp [HostType.size]⟩

/-- After the integers that are not zero have been registered, and the option of these, in whatever
registry that was and whatever has been done to it since, all views of every integer agree. What the
registrations answered with is what is found when the universes are looked up now. The same holds of
every address after the pointers that are not null have been registered, under any name. -/
theorem zero_niche_views_agree (r : Registry κ) :
    (∀ (i : IntType) c d, (Session.registerNonZero i).HasAnswered c r →
      (Session.registerNicheOption (.nonZero i)).HasAnswered d r →
      Universe.lookup r (.int i) (.oneNiche (.nonZero i)) rfl = .ok c ∧
      Universe.lookup r (.nicheOption (.nonZero i)) (.oneNiche (.nonZero i)) rfl = .ok d ∧
      ∀ v : i.Value, ViewsAgree c d v (i.store v) ((i.store v).reinterpret rfl)) ∧
    ∀ (pointee name : String) c d, (Session.registerNonNull pointee name).HasAnswered c r →
      (Session.registerNicheOption (.nonNull pointee)).HasAnswered d r →
      Universe.lookup r (.pointer pointee) (.oneNiche (.nonNull pointee)) rfl = .ok c ∧
      Universe.lookup r (.nicheOption (.nonNull pointee)) (.oneNiche (.nonNull pointee)) rfl =
        .ok d ∧
      ∀ address : BitVec 64, ViewsAgree c d address (.ofAddress pointee address)
        ((HostValue.ofAddress pointee address).reinterpret rfl) := by
  constructor
  · intro i c d hc hd
    obtain ⟨⟨hlookup, htarget⟩, hlookup', htarget'⟩ :=
      Session.lookup_eq_of_hasAnswered Session.of_run_registerNonZero hc hd
    exact ⟨hlookup, hlookup', fun v => viewsAgree_of_excludesZero htarget htarget' rfl rfl⟩
  · intro pointee name c d hc hd
    obtain ⟨⟨hlookup, htarget⟩, hlookup', htarget'⟩ :=
      Session.lookup_eq_of_hasAnswered Session.of_run_registerNonNull hc hd
    exact ⟨hlookup, hlookup', fun address => viewsAgree_of_excludesZero htarget htarget' rfl rfl⟩

/-- Registers the numbers of two bytes without zero, the pointers to nodes without null, and the
options of both. -/
def Session.registerNiches : Session Empty Unit := do
  registerAllValid (.int ⟨.two, false⟩) "uint16_t"
  let _ ← registerNonZero ⟨.two, false⟩
  let _ ← registerNicheOption (.nonZero ⟨.two, false⟩)
  let _ ← registerNonNull "Node" "Node"
  let _ ← registerNicheOption (.nonNull "Node")

/-- In two bytes the number 256 has a zero byte and another one. The first address is null. -/
theorem zero_niche_views_agree_short :
    let i : IntType := ⟨.two, false⟩
    ∃ r : Registry Empty, ∃ c d c' d',
      (Session.registerNonZero i).HasAnswered c r ∧
      (Session.registerNicheOption (.nonZero i)).HasAnswered d r ∧
      (Session.registerNonNull "Node" "Node").HasAnswered c' r ∧
      (Session.registerNicheOption (.nonNull "Node")).HasAnswered d' r ∧
      ViewsAgree c d (256 : BitVec 16) (i.store 256) ((i.store 256).reinterpret rfl) ∧
      ViewsAgree c' d' (0 : BitVec 64) (.ofAddress "Node" 0)
        ((HostValue.ofAddress "Node" 0).reinterpret rfl) := by
  intro i
  have hok : (Session.registerNiches.run (.empty .standard)).1.isOk = true := by decide +kernel
  obtain ⟨_, hall⟩ := isOk_iff.mp hok
  obtain ⟨_, r₀, -, hrun⟩ := Session.run_bind_eq_ok_iff.mp (Prod.ext hall rfl)
  obtain ⟨c, r₁, hc, hrun⟩ := Session.run_bind_eq_ok_iff.mp hrun
  obtain ⟨d, r₂, hd, hrun⟩ := Session.run_bind_eq_ok_iff.mp hrun
  obtain ⟨c', r₃, hc', hrun⟩ := Session.run_bind_eq_ok_iff.mp hrun
  obtain ⟨d', r, hd', -⟩ := Session.run_bind_eq_ok_iff.mp hrun
  have hleads₃ := (Session.isRun_registerNicheOption _).leads hd'
  have hleads₂ := ((Session.isRun_registerNonNull _ _).leads hc').trans hleads₃
  have hleads₁ := ((Session.isRun_registerNicheOption _).leads hd).trans hleads₂
  have hnonZero : (Session.registerNonZero i).HasAnswered c r :=
    ⟨r₀, r₁, hc, hleads₁.mono fun _ _ _ => trivial⟩
  have hnonZeroOption : (Session.registerNicheOption (.nonZero i)).HasAnswered d r :=
    ⟨r₁, r₂, hd, hleads₂.mono fun _ _ _ => trivial⟩
  have hnonNull : (Session.registerNonNull "Node" "Node").HasAnswered c' r :=
    ⟨r₂, r₃, hc', hleads₃.mono fun _ _ _ => trivial⟩
  have hnonNullOption : (Session.registerNicheOption (.nonNull "Node")).HasAnswered d' r :=
    ⟨r₃, r, hd', .refl⟩
  obtain ⟨hintegers, hpointers⟩ := zero_niche_views_agree r
  obtain ⟨-, -, hviews⟩ := hintegers i c d hnonZero hnonZeroOption
  obtain ⟨-, -, hviews'⟩ := hpointers "Node" "Node" c' d' hnonNull hnonNullOption
  exact ⟨r, c, d, c', d', hnonZero, hnonZeroOption, hnonNull, hnonNullOption, hviews 256,
    hviews' 0⟩

end BitValidity
