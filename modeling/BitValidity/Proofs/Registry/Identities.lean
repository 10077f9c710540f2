import BitValidity.Proofs.Predicate.Acceptance
import BitValidity.Proofs.Registry.Universes
import BitValidity.Registry.Provenance
import Mathlib.Data.List.Pairwise
import Mathlib.Order.Bounds.Basic

/-!
# Identities

Two questions give identities out. A type of the host gets one when it is asked for the first time,
and a type that exists in descriptions only gets one when it is declared. Both take the next entry
of the same list, and a frozen registry answers the first from what it knows. While there are fewer
types than identities, no identity is given to two types (`identities_never_alias`): the answers of
a run determine the registry's table of host types and the number of its entries, which is what a
step preserves (`Assigns`).
-/

namespace BitValidity

variable {κ : Type}

/-- The type to which an operation can give a fact. -/
def Operation.registeredType? : Operation κ → Option TypeId
  | register type _ | define type _ _ => some type
  | _ => none

namespace Registry

/-! ### Answers -/

/-- The identity that is the answer to an operation, if it asks for one and is not refused. -/
def identity? (r : Registry κ) : Operation κ → Option TypeId
  | .idOf t => ((Session.idOf t).run r).1.toOption
  | .declareType name => ((Session.declareType name).run r).1.toOption
  | _ => none

lemma identity?_idOf (r : Registry κ) (t : HostType) :
    r.identity? (.idOf t) = some (r.intern t).1 :=
  rfl

lemma identity?_declareType (r : Registry κ) (name : String) :
    r.identity? (.declareType name) =
      if r.frozen then none else some ⟨UInt32.ofNat r.size⟩ := by
  rw [identity?, Session.declareType, Session.run_write, declareType]
  cases r.frozen <;> rfl

section

variable [Check κ] [DecidableEq κ]

/-- What operations that are performed one after the other are answered, in this order. -/
def identities (r : Registry κ) : List (Operation κ) → List (Operation κ × TypeId)
  | [] => []
  | op :: rest => (r.identity? op).toList.map (op, ·) ++ (r.after op).identities rest

lemma identities_concat (r : Registry κ) (ops : List (Operation κ)) (op : Operation κ) :
    r.identities (ops ++ [op]) =
      r.identities ops ++ ((r.afterAll ops).identity? op).toList.map (op, ·) := by
  induction ops generalizing r with
  | nil => simp [identities, afterAll]
  | cons first rest ih => simp [identities, ih, afterAll]

end

/-- The indices of the types whose identities are among the answers, as often as they are. -/
def answeredIndices (answers : List (Operation κ × TypeId)) : List ℕ :=
  (answers.filter (·.2.isValid)).map (·.2.value.toNat)

lemma answeredIndices_concat (answers : List (Operation κ × TypeId)) (a : Operation κ × TypeId) :
    answeredIndices (answers ++ [a]) =
      answeredIndices answers ++ if a.2.isValid then [a.2.value.toNat] else [] := by
  simp only [answeredIndices, List.filter_append, List.map_append, List.filter_singleton]
  cases a.2.isValid <;> rfl

/-- The answers are what the identities of a registry come from. -/
structure Assigns (r : Registry κ) (answers : List (Operation κ × TypeId)) : Prop where
  /-- One identity is the answer to two questions only if these are about one type of the host, or
  if twice a type of the host is not known. -/
  distinct : answers.Pairwise fun a b => a.2 = b.2 →
    ∃ t u, a.1 = .idOf t ∧ b.1 = .idOf u ∧ (a.2.isValid = true → t = u)
  /-- Only a frozen registry answers with the identity of no type, and only of types of the host. -/
  valid : ∀ a ∈ answers, a.2.isValid = true ∨ r.frozen = true ∧ ∃ t, a.1 = .idOf t
  /-- A type of the host is known under the identity that it was given. -/
  host : ∀ t type, r.hostTypes.lookup t = some type ↔
    (.idOf t, type) ∈ answers ∧ type.isValid = true
  /-- Identities are given out without a gap, from the first on. -/
  dense : (answeredIndices answers).eraseDups = List.range r.size

namespace Assigns

variable {r r' : Registry κ} {answers : List (Operation κ × TypeId)} {t : HostType} {type : TypeId}

lemma mem_answeredIndices_iff (h : r.Assigns answers) {n : ℕ} :
    n ∈ answeredIndices answers ↔ n < r.size := by
  rw [← List.mem_eraseDups, h.dense, List.mem_range]

/-- What is not the answer to anything is not the identity of an entry. -/
lemma entry?_eq_none (h : r.Assigns answers) (hunanswered : type ∉ answers.map (·.2)) :
    r.entry? type = none := by
  rw [Registry.entry?]
  split
  · apply List.getElem?_eq_none
    by_contra hlt
    obtain ⟨a, ha, heq⟩ := List.mem_map.mp (h.mem_answeredIndices_iff.mpr (Nat.not_le.mp hlt))
    have hid : a.2 = type := congrArg TypeId.mk (UInt32.toNat_inj.mp heq)
    exact hunanswered (List.mem_map.mpr ⟨a, (List.mem_filter.mp ha).1, hid⟩)
  · rfl

/-- Nothing is known under an identity that was not given out. -/
lemma nothing_known (h : r.Assigns answers) (hr : r.Consistent)
    (hunanswered : type ∉ answers.map (·.2)) :
    r.fact? type = none ∧ r.proof? type = none ∧
      ∀ other, r.isUniverse type other = false ∧ r.isUniverse other type = false := by
  have hentry := h.entry?_eq_none hunanswered
  have hfact : r.fact? type = none := by rw [fact?, hentry]; rfl
  refine ⟨hfact, by rw [proof?, hentry]; rfl, fun other => ⟨?_, ?_⟩⟩
  · rw [Bool.eq_false_iff]
    intro huniverse
    obtain ⟨-, u, -, hu, -⟩ := hr.of_isUniverse huniverse
    cases hfact.symm.trans hu
  · rw [Bool.eq_false_iff]
    intro huniverse
    obtain ⟨-, -, t, -, ht, -⟩ := hr.of_isUniverse huniverse
    cases hfact.symm.trans ht

/-- An entry that is not there yet is the answer to nothing. -/
lemma ne_of_size_le (h : r.Assigns answers) (hvalid : type.isValid = true)
    (hle : r.size ≤ type.value.toNat) {a : Operation κ × TypeId} (ha : a ∈ answers) :
    a.2 ≠ type := by
  rintro rfl
  have hmem : a.2.value.toNat ∈ answeredIndices answers :=
    List.mem_map.mpr ⟨a, List.mem_filter.mpr ⟨ha, hvalid⟩, rfl⟩
  exact absurd (h.mem_answeredIndices_iff.mp hmem) (Nat.not_lt.mpr hle)

/-! ### One answer -/

lemma empty (options : RegistryOptions) : (Registry.empty options : Registry κ).Assigns [] where
  distinct := .nil
  valid := by simp
  host := by simp [Registry.empty]
  dense := rfl

/-- A write that gives out no identity. -/
lemma congr (h : r.Assigns answers) (hhosts : r'.hostTypes = r.hostTypes)
    (hsize : r'.size = r.size) (hfrozen : r.frozen = true → r'.frozen = true) :
    r'.Assigns answers where
  distinct := h.distinct
  valid a ha := (h.valid a ha).imp_right (And.imp_left hfrozen)
  host := hhosts ▸ h.host
  dense := hsize ▸ h.dense

/-- Only the type of the host that has an identity is answered with it. -/
lemma eq_idOf (h : r.Assigns answers) (hlookup : r.hostTypes.lookup t = some type)
    {a : Operation κ × TypeId} (ha : a ∈ answers) (heq : a.2 = type) : a.1 = .idOf t := by
  obtain ⟨hmem, hvalid⟩ := (h.host t type).mp hlookup
  by_cases hself : a = (.idOf t, type)
  · rw [hself]
  have hsymm : Std.Symm fun a b : Operation κ × TypeId => a.2 = b.2 →
      ∃ t u, a.1 = .idOf t ∧ b.1 = .idOf u ∧ (a.2.isValid = true → t = u) := by
    constructor
    rintro a b hab heq
    obtain ⟨t, u, ha, hb, htu⟩ := hab heq.symm
    exact ⟨u, t, hb, ha, fun hv => (htu (heq ▸ hv)).symm⟩
  obtain ⟨u, t', hu, ht', htu⟩ := h.distinct.forall ha hmem hself heq
  cases ht'
  rw [hu, htu (heq ▸ hvalid)]

/-- A type of the host that is known is asked for again. -/
lemma known (h : r.Assigns answers) (hlookup : r.hostTypes.lookup t = some type) :
    r.Assigns (answers ++ [(.idOf t, type)]) := by
  obtain ⟨hmem, hvalid⟩ := (h.host t type).mp hlookup
  have hindex : type.value.toNat ∈ answeredIndices answers :=
    List.mem_map.mpr ⟨_, List.mem_filter.mpr ⟨hmem, hvalid⟩, rfl⟩
  constructor
  · refine List.pairwise_append.mpr ⟨h.distinct, List.pairwise_singleton _ _, ?_⟩
    intro a ha b hb heq
    rw [List.mem_singleton.mp hb] at heq ⊢
    exact ⟨t, t, h.eq_idOf hlookup ha heq, rfl, fun _ => rfl⟩
  · intro a ha
    rcases List.mem_append.mp ha with ha | ha
    · exact h.valid a ha
    · rw [List.mem_singleton.mp ha]
      exact .inl hvalid
  · intro u other
    rw [h.host, List.mem_append, List.mem_singleton, or_iff_left_of_imp]
    rintro ⟨⟩
    exact hmem
  · rw [← h.dense, answeredIndices_concat, if_pos hvalid, List.eraseDups_append]
    simp [List.removeAll, hindex]

/-- A frozen registry is asked for a type of the host that it does not know. -/
lemma unknown (h : r.Assigns answers) (hfrozen : r.frozen = true) (t : HostType) :
    r.Assigns (answers ++ [(.idOf t, .invalid)]) := by
  constructor
  · refine List.pairwise_append.mpr ⟨h.distinct, List.pairwise_singleton _ _, ?_⟩
    intro a ha b hb heq
    rw [List.mem_singleton.mp hb] at heq ⊢
    obtain hvalid | ⟨-, u, hu⟩ := h.valid a ha
    · simp [heq, TypeId.isValid] at hvalid
    · exact ⟨u, t, hu, rfl, by simp [heq, TypeId.isValid]⟩
  · intro a ha
    rcases List.mem_append.mp ha with ha | ha
    · exact h.valid a ha
    · rw [List.mem_singleton.mp ha]
      exact .inr ⟨hfrozen, t, rfl⟩
  · intro u other
    rw [h.host, List.mem_append, List.mem_singleton, and_congr_left_iff]
    rintro hvalid
    rw [or_iff_left_of_imp]
    rintro ⟨⟩
    simp [TypeId.isValid] at hvalid
  · rw [h.dense.symm, answeredIndices_concat, if_neg (by simp [TypeId.isValid]), List.append_nil]

/-- The next identity is given out. Only a type of the host is known under it. -/
lemma next {op : Operation κ} (h : r.Assigns answers) (hlt : r.size < 4294967295)
    (hopen : r.frozen = false) (hsize : r'.size = r.size + 1)
    (hhost : ∀ t type, r'.hostTypes.lookup t = some type ↔ r.hostTypes.lookup t = some type ∨
      op = .idOf t ∧ type = ⟨UInt32.ofNat r.size⟩) :
    r'.Assigns (answers ++ [(op, ⟨UInt32.ofNat r.size⟩)]) := by
  have htoNat : (⟨UInt32.ofNat r.size⟩ : TypeId).value.toNat = r.size := toNat_next hlt
  have hvalid := TypeId.isValid_of_lt (htoNat.trans_lt hlt)
  have hnew : r.size ∉ answeredIndices answers := by
    rw [h.mem_answeredIndices_iff]
    exact lt_irrefl _
  have hne {a : Operation κ × TypeId} (ha : a ∈ answers) : a.2 ≠ ⟨UInt32.ofNat r.size⟩ :=
    h.ne_of_size_le hvalid htoNat.ge ha
  constructor
  · refine List.pairwise_append.mpr ⟨h.distinct, List.pairwise_singleton _ _, ?_⟩
    intro a ha b hb heq
    rw [List.mem_singleton.mp hb] at heq
    exact absurd heq (hne ha)
  · intro a ha
    rcases List.mem_append.mp ha with ha | ha
    · refine (h.valid a ha).imp_right ?_
      rintro ⟨hfrozen, -⟩
      cases hopen.symm.trans hfrozen
    · rw [List.mem_singleton.mp ha]
      exact .inl hvalid
  · intro t type
    have hmem : (.idOf t, type) ∈ answers ++ [(op, ⟨UInt32.ofNat r.size⟩)] ↔
        (.idOf t, type) ∈ answers ∨ op = .idOf t ∧ type = ⟨UInt32.ofNat r.size⟩ := by
      simp [eq_comm]
    rw [hhost, h.host, hmem, or_and_right]
    refine or_congr_right (and_iff_left_of_imp ?_).symm
    rintro ⟨-, rfl⟩
    exact hvalid
  · rw [answeredIndices_concat, if_pos hvalid, htoNat, List.eraseDups_append, h.dense, hsize,
      List.range_succ]
    simp [List.removeAll, hnew, List.eraseDups_cons]

end Assigns

/-! ### One operation -/

variable [Check κ] [DecidableEq κ] {r r' : Registry κ} {op : Operation κ} {t : HostType}
  {type : TypeId}

/-- Only the two questions for an identity make a type known. -/
lemma Step.sameTypes (h : Step r op r') (hhost : ∀ t, op ≠ .idOf t)
    (hdeclare : ∀ name, op ≠ .declareType name) :
    r'.hostTypes = r.hostTypes ∧ r'.size = r.size := by
  cases h with
  | refused | frozen => exact ⟨rfl, rfl⟩
  | interned t => exact absurd rfl (hhost t)
  | allocated name => exact absurd rfl (hdeclare name)
  | registered h | defined _ h => exact (register_frame h).2.2
  | definedNicheless _ h _ h' =>
    obtain ⟨-, -, hhosts, hsize⟩ := register_frame h
    obtain ⟨-, -, hhosts', hsize'⟩ := recordProof_frame h'
    exact ⟨hhosts'.trans hhosts, hsize'.trans hsize⟩
  | proved _ h | asserted _ h => exact (recordProof_frame h).2.2
  | declared h =>
    obtain ⟨-, -, -, rfl⟩ := declareUniverse_cases h
    exact ⟨rfl, rfl⟩

lemma frozen_after (h : r.frozen = true) (op : Operation κ) : (r.after op).frozen = true := by
  by_cases hop : op = .freeze
  · rw [hop]
    rfl
  · exact ((step_after r op).frozen_eq hop).trans h

lemma after_declareType (r : Registry κ) (name : String) :
    r.after (.declareType name) = if r.frozen then r else (r.allocate name).2 := by
  show ((discard (Session.declareType name) : Session κ Unit).run r).2 = _
  rw [Session.run_discard, Session.declareType, Session.run_write, declareType]
  cases r.frozen <;> rfl

/-- What an operation is answered is added to the answers. -/
theorem Assigns.after {answers : List (Operation κ × TypeId)} (h : r.Assigns answers)
    (hlt : r.size < 4294967295) (op : Operation κ) :
    (r.after op).Assigns (answers ++ (r.identity? op).toList.map (op, ·)) := by
  by_cases hhost : ∃ t, op = .idOf t
  · obtain ⟨t, rfl⟩ := hhost
    rw [after_idOf, identity?_idOf]
    cases hlookup : r.hostTypes.lookup t with
    | some type =>
      rw [intern_of_lookup hlookup]
      exact h.known hlookup
    | none =>
      cases hfrozen : r.frozen with
      | true =>
        have hintern : r.intern t = (.invalid, r) := by
          simp [intern, hfrozen, findHostType, hlookup]
        rw [hintern]
        exact h.unknown hfrozen t
      | false =>
        rw [intern_of_lookup_eq_none hfrozen hlookup]
        apply h.next hlt hfrozen
        · simp [size, allocate]
        · intro u type
          have hnew : [(t, (⟨UInt32.ofNat r.size⟩ : TypeId))].lookup u = some type ↔
              Operation.idOf (κ := κ) t = .idOf u ∧ type = ⟨UInt32.ofNat r.size⟩ := by
            by_cases htype : u = t
            · simp [htype, eq_comm]
            · have hne : (u == t) = false := beq_eq_false_iff_ne.mpr htype
              simp [List.lookup_cons, hne, Ne.symm htype]
          rw [List.lookup_append, Option.or_eq_some_iff, hnew]
          refine or_congr_right (and_iff_right_of_imp ?_)
          rintro ⟨⟨⟩, -⟩
          exact hlookup
  by_cases hdeclare : ∃ name, op = .declareType name
  · obtain ⟨name, rfl⟩ := hdeclare
    rw [after_declareType, identity?_declareType]
    cases hfrozen : r.frozen with
    | true =>
      simpa using h
    | false =>
      apply h.next hlt hfrozen
      · simp [size, allocate]
      · simp [allocate]
  · obtain ⟨hhosts, hsize⟩ :=
      (step_after r op).sameTypes (not_exists.mp hhost) (not_exists.mp hdeclare)
    have hnone : r.identity? op = none := by
      cases op with
      | idOf t => exact absurd ⟨t, rfl⟩ hhost
      | declareType name => exact absurd ⟨name, rfl⟩ hdeclare
      | _ => rfl
    rw [hnone]
    simpa using h.congr hhosts hsize fun hfrozen => frozen_after hfrozen op

/-- No type is forgotten. -/
lemma Step.size_le (h : Step r op r') : r.size ≤ r'.size := by
  cases h with
  | interned t =>
    simp only [intern]
    split
    · exact le_rfl
    · split
      · exact le_rfl
      · simp [size, allocate]
  | allocated name => simp [size, allocate]
  | refused | frozen => exact le_rfl
  | registered h | defined _ h => exact (register_frame h).2.2.2.ge
  | definedNicheless _ h _ h' =>
    exact (register_frame h).2.2.2.ge.trans (recordProof_frame h').2.2.2.ge
  | proved _ h | asserted _ h => exact (recordProof_frame h).2.2.2.ge
  | declared h =>
    obtain ⟨-, -, -, rfl⟩ := declareUniverse_cases h
    exact le_rfl

/-! ### Writes under an identity -/

/-- A fact is given to one type. -/
lemma Step.fact?_eq (h : Step r op r') (hop : op.registeredType? ≠ some type) :
    r'.fact? type = r.fact? type := by
  have hregister {draft : DraftFact κ} {other : TypeId} {s : Registry κ} (hne : other ≠ type)
      (h : r.register other draft = .ok s) : s.fact? type = r.fact? type := by
    obtain ⟨validity, -, -, -, hfact, -⟩ := register_spec h
    rw [hfact, Function.update_of_ne (Ne.symm hne)]
  cases h with
  | refused | frozen => rfl
  | interned t => rw [(r.intern_spec t).1]
  | allocated name => rw [fact?_allocate]
  | registered h | defined _ h => exact hregister (fun heq => hop (congrArg some heq)) h
  | definedNicheless _ h _ hrecord =>
    rw [(recordProof_spec hrecord).2.1]
    exact hregister (fun heq => hop (congrArg some heq)) h
  | proved _ h | asserted _ h => rw [(recordProof_spec h).2.1]
  | declared h =>
    obtain ⟨-, -, -, rfl⟩ := declareUniverse_cases h
    rfl

/-- A proof is recorded of one type. -/
lemma Step.proof?_eq (h : Step r op r') (hop : op.provenType? ≠ some type) :
    r'.proof? type = r.proof? type := by
  have hrecord {proof : NichelessProof} {other : TypeId} {s s' : Registry κ} (hne : other ≠ type)
      (h : s.recordProof other proof = .ok s') : s'.proof? type = s.proof? type := by
    obtain ⟨-, -, hproof, -⟩ := recordProof_spec h
    rw [hproof, Function.update_of_ne (Ne.symm hne)]
  cases h with
  | refused | frozen => rfl
  | interned t => rw [(r.intern_spec t).2.1]
  | allocated name => rw [proof?_allocate]
  | registered h | defined _ h =>
    obtain ⟨-, -, -, -, -, -, hproof, -⟩ := register_spec h
    rw [hproof]
  | definedNicheless _ h _ h' =>
    obtain ⟨-, -, -, -, -, -, hproof, -⟩ := register_spec h
    rw [hrecord (fun heq => hop (congrArg some heq)) h', hproof]
  | proved _ h | asserted _ h => exact hrecord (fun heq => hop (congrArg some heq)) h
  | declared h =>
    obtain ⟨-, -, -, rfl⟩ := declareUniverse_cases h
    rfl

/-- One pair is declared. -/
lemma Step.mem_universes_iff (h : Step r op r') {source target : TypeId}
    (hop : op ≠ .declareUniverse source target) :
    (source, target) ∈ r'.universes ↔ (source, target) ∈ r.universes := by
  by_cases hdeclare : ∃ u t, op = .declareUniverse u t
  · obtain ⟨u, t, rfl⟩ := hdeclare
    cases h with
    | refused => rfl
    | declared h =>
      obtain ⟨-, -, -, -, -, -, huniverses⟩ := declareUniverse_spec h
      rw [huniverses, or_iff_left]
      rintro ⟨⟩
      exact hop rfl
  · rw [h.universes_eq fun u t heq => hdeclare ⟨u, t, heq⟩]

/-! ### Runs -/

/-- What no operation of a run changes is the same after the run. -/
lemma view_afterAll {β : Type} (view : Registry κ → β) (r : Registry κ) {ops : List (Operation κ)}
    (h : ∀ op ∈ ops, ∀ s : Registry κ, view (s.after op) = view s) :
    view (r.afterAll ops) = view r := by
  induction ops using List.reverseRecOn with
  | nil => rfl
  | append_singleton ops op ih =>
    rw [afterAll_concat, h op (by simp)]
    exact ih fun op hop => h op (List.mem_append_left _ hop)

lemma isUniverse_afterAll (r : Registry κ) {source target : TypeId} {ops : List (Operation κ)}
    (hdeclare : ∀ op ∈ ops, op ≠ .declareUniverse source target)
    (hproof : source = target → ∀ op ∈ ops, op.provenType? ≠ some target) :
    (r.afterAll ops).isUniverse source target = r.isUniverse source target := by
  have hmem := view_afterAll (fun s : Registry κ => ((source, target) ∈ s.universes : Prop)) r
    fun op hop s => propext ((step_after s op).mem_universes_iff (hdeclare op hop))
  rw [Bool.eq_iff_iff, isUniverse_iff, isUniverse_iff, hmem]
  refine or_congr_left (and_congr_right fun heq => ?_)
  rw [isNicheless, view_afterAll (·.proof? target) r fun op hop s =>
    (step_after s op).proof?_eq (hproof heq op hop), ← isNicheless]

lemma assigns_identities (options : RegistryOptions) (ops : List (Operation κ))
    (hsize : ((empty options).afterAll ops).size < 4294967295) :
    ((empty options).afterAll ops).Assigns ((empty options).identities ops) := by
  induction ops using List.reverseRecOn with
  | nil => exact .empty options
  | append_singleton ops op ih =>
    rw [afterAll_concat] at hsize ⊢
    rw [identities_concat]
    have hlt := (step_after _ op).size_le.trans_lt hsize
    exact (ih hlt).after hlt op

/-- A type of the host and a declared one become known before the registry is frozen, and nothing
does afterwards. -/
def markerOps : List (Operation Empty) :=
  [.idOf .bool, .declareType "Marker", .idOf .bool, .freeze, .idOf .byte, .declareType "Late",
    .idOf .bool]

end Registry

end BitValidity
