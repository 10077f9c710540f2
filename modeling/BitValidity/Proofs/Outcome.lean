import BitValidity.Error.Basic
import Mathlib.Data.List.Forall2

/-!
# Outcomes of fallible steps

A chain of steps in `Except` succeeds when each step does. These lemmas take such a chain apart from
its first step on; what is proved of a description, a registry or a session starts from them. A
chain settles, that is, it comes to a result or to an error for its caller, when each step does.
-/

namespace BitValidity

variable {ε α β : Type}

/-! ### Chains -/

@[simp] lemma ok_bind (a : α) (f : α → Except ε β) : (Except.ok a >>= f) = f a := rfl

@[simp] lemma error_bind (e : ε) (f : α → Except ε β) : (Except.error e >>= f) = .error e := rfl

@[simp] lemma bind_eq_ok_iff {x : Except ε α} {f : α → Except ε β} {b : β} :
    (x >>= f) = .ok b ↔ ∃ a, x = .ok a ∧ f a = .ok b := by
  cases x with
  | error e => simp [bind, Except.bind]
  | ok a => simp [bind, Except.bind]

/-- A chain fails in none of the ways in which none of its steps fails. -/
lemma bind_ne_error {x : Except ε α} {f : α → Except ε β} {e : ε} (hx : x ≠ .error e)
    (hf : ∀ a, f a ≠ .error e) : (x >>= f) ≠ .error e := by
  cases x with
  | error e' =>
    rintro ⟨⟩
    exact hx rfl
  | ok a => exact hf a

@[simp] lemma pure_eq_ok_iff {a b : α} : (pure a : Except ε α) = .ok b ↔ a = b := by
  simp [pure, Except.pure]

lemma pure_ne_error {a : α} {e : ε} : (pure a : Except ε α) ≠ .error e := by
  simp [pure, Except.pure]

@[simp] lemma map_eq_ok_iff {x : Except ε α} {f : α → β} {b : β} :
    x.map f = .ok b ↔ ∃ a, x = .ok a ∧ f a = b := by
  cases x <;> simp [Except.map]

@[simp] lemma mapError_eq_ok_iff {x : Except ε α} {f : ε → β} {a : α} :
    x.mapError f = .ok a ↔ x = .ok a := by
  cases x <;> simp [Except.mapError]

@[simp] lemma toOption_eq_some_iff {x : Except ε α} {a : α} :
    x.toOption = some a ↔ x = .ok a := by
  cases x <;> simp [Except.toOption]

lemma isOk_iff {x : Except ε α} : x.isOk = true ↔ ∃ a, x = .ok a := by
  cases x <;> simp [Except.isOk, Except.toBool]

/-! ### Steps of different kinds -/

@[simp] lemma liftM_error_eq_ok_iff {x : Except Error α} {a : α} :
    (liftM x : Except Failure α) = .ok a ↔ x = .ok a := by
  cases x <;> simp [liftM, monadLift, MonadLift.monadLift]

@[simp] lemma liftM_breach_eq_ok_iff {x : Except Breach α} {a : α} :
    (liftM x : Except Failure α) = .ok a ↔ x = .ok a := by
  cases x <;> simp [liftM, monadLift, MonadLift.monadLift]

/-- A list is mapped when each of its elements is. -/
lemma mapM_eq_ok_iff {f : α → Except ε β} {as : List α} {bs : List β} :
    as.mapM f = .ok bs ↔ List.Forall₂ (fun a b => f a = .ok b) as bs := by
  induction as generalizing bs with
  | nil => simp [pure, Except.pure, eq_comm]
  | cons a as ih =>
    simp only [List.mapM_cons, bind_eq_ok_iff, pure_eq_ok_iff, ih]
    constructor
    · rintro ⟨b, hb, bs, hbs, rfl⟩
      exact .cons hb hbs
    · rintro (_ | ⟨hb, hbs⟩)
      exact ⟨_, hb, _, hbs, rfl⟩

/-! ### Settled outcomes -/

/-- The outcome is a result or an error for the caller. No precondition was broken on the way. -/
def Settles (x : Except Failure α) : Prop := ∀ breach, x ≠ .error (.breach breach)

@[simp] lemma settles_ok (a : α) : Settles (.ok a) := nofun

@[simp] lemma settles_pure (a : α) : Settles (pure a) := nofun

@[simp] lemma settles_error (e : Error) : Settles (.error (.error e) : Except Failure α) := nofun

@[simp] lemma settles_liftM_error (x : Except Error α) : Settles (liftM x) := by
  cases x <;> nofun

lemma Settles.bind {x : Except Failure α} {f : α → Except Failure β} (hx : Settles x)
    (hf : ∀ a, x = .ok a → Settles (f a)) : Settles (x >>= f) := by
  cases x with
  | error failure =>
    rintro breach ⟨⟩
    exact hx breach rfl
  | ok a => exact hf a rfl

lemma Settles.map {x : Except Failure α} (hx : Settles x) (f : α → β) : Settles (x.map f) := by
  cases x with
  | error failure =>
    rintro breach ⟨⟩
    exact hx breach rfl
  | ok a => nofun

lemma Settles.mapM {f : α → Except Failure β} {as : List α} (h : ∀ a ∈ as, Settles (f a)) :
    Settles (as.mapM f) := by
  induction as with
  | nil => exact settles_pure []
  | cons a as ih =>
    obtain ⟨ha, has⟩ := List.forall_mem_cons.mp h
    rw [List.mapM_cons]
    exact ha.bind fun b _ => (ih has).bind fun bs _ => settles_pure (b :: bs)

/-! ### Lists that are related -/

variable {R : α → β → Prop} {as : List α} {bs : List β}

/-- Every element on the left of a relation of lists is related to one on the right. -/
lemma exists_mem_right (h : List.Forall₂ R as bs) {a : α} (ha : a ∈ as) : ∃ b ∈ bs, R a b := by
  induction h with
  | nil => cases ha
  | cons hab hrest ih =>
    rcases List.mem_cons.mp ha with rfl | ha
    · exact ⟨_, List.mem_cons_self, hab⟩
    · obtain ⟨b, hb, hab⟩ := ih ha
      exact ⟨b, List.mem_cons_of_mem _ hb, hab⟩

/-- Every element on the right of a relation of lists is related to one on the left. -/
lemma exists_mem_left (h : List.Forall₂ R as bs) {b : β} (hb : b ∈ bs) : ∃ a ∈ as, R a b :=
  exists_mem_right h.flip hb

/-- What holds of any two elements on the left holds of any two on the right, if it carries over. -/
lemma pairwise_of_forall₂ {P : α → α → Prop} {Q : β → β → Prop} (h : List.Forall₂ R as bs)
    (hPQ : ∀ a b a' b', R a b → R a' b' → P a a' → Q b b') (hP : as.Pairwise P) :
    bs.Pairwise Q := by
  induction h with
  | nil => exact .nil
  | cons hab hrest ih =>
    obtain ⟨hP, hPrest⟩ := List.pairwise_cons.mp hP
    refine .cons ?_ (ih hPrest)
    intro b' hb'
    obtain ⟨a', ha', hab'⟩ := exists_mem_left hrest hb'
    exact hPQ _ _ _ _ hab hab' (hP a' ha')

/-- Elements that are related can be related to third ones, one for each pair. -/
lemma exists_forall₂ {γ : Type} {P : α → γ → Prop} {Q : β → γ → Prop} (h : List.Forall₂ R as bs)
    (hPQ : ∀ a ∈ as, ∀ b ∈ bs, R a b → ∃ c, P a c ∧ Q b c) :
    ∃ cs, List.Forall₂ P as cs ∧ List.Forall₂ Q bs cs := by
  induction h with
  | nil => exact ⟨[], .nil, .nil⟩
  | cons hab hrest ih =>
    obtain ⟨c, hP, hQ⟩ := hPQ _ List.mem_cons_self _ List.mem_cons_self hab
    obtain ⟨cs, hPs, hQs⟩ := ih fun a ha b hb =>
      hPQ a (List.mem_cons_of_mem _ ha) b (List.mem_cons_of_mem _ hb)
    exact ⟨c :: cs, .cons hP hPs, .cons hQ hQs⟩

/-- Flags that are related to the elements of a list are all set when these have the property. -/
lemma all_iff_forall_mem {P : α → Prop} {flags : List Bool}
    (h : List.Forall₂ (fun a flag => P a ↔ flag = true) as flags) :
    flags.all id = true ↔ ∀ a ∈ as, P a := by
  induction h with
  | nil => simp
  | cons hflag hrest ih => simp [hflag, ← ih]

end BitValidity
