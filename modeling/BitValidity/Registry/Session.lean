import BitValidity.Registry.Basic

/-!
# Sessions

A session is a program that reads and writes one registry. What it has written before it fails stays
written.
-/

namespace BitValidity

abbrev Session (κ : Type) := ExceptT Failure (StateM (Registry κ))

variable {κ α β : Type}

namespace Session

/-- The outcome of a session, and the registry that it leaves. -/
def run (s : Session κ α) (r : Registry κ) : Except Failure α × Registry κ := s r

/-- Asks the registry. -/
def read (f : Registry κ → Except Failure α) : Session κ α := fun r => (f r, r)

/-- Asks the registry something that only its caller can get wrong. -/
def ask (f : Registry κ → Except Error α) : Session κ α := read fun r => liftM (f r)

/-- Writes to the registry. A write that is refused leaves it as it is. -/
def write (f : Registry κ → Except Error (α × Registry κ)) : Session κ α := fun r =>
  match f r with
  | .ok (a, r') => (.ok a, r')
  | .error e => (.error (.error e), r)

/-- Writes to the registry, for the sake of the registry alone. -/
def update (f : Registry κ → Except Error (Registry κ)) : Session κ Unit :=
  write fun r => (f r).map ((), ·)

/-- Adds a note to the error of a session. -/
def annotate (note : Note) (s : Session κ α) : Session κ α := fun r =>
  match s r with
  | (.error (.error e), r') => (.error (.error (e.withNote note)), r')
  | outcome => outcome

/-! ### Running -/

@[simp] theorem run_pure (a : α) (r : Registry κ) : (pure a : Session κ α).run r = (.ok a, r) := rfl

theorem run_bind (s : Session κ α) (f : α → Session κ β) (r : Registry κ) :
    (s >>= f).run r =
      match s.run r with
      | (.ok a, r') => (f a).run r'
      | (.error e, r') => (.error e, r') := by
  show (match s r with
    | (outcome, r') => ExceptT.bindCont f outcome r') = _
  rcases h : s r with ⟨outcome, r'⟩
  cases outcome <;> simp only [run, h] <;> rfl

@[simp] theorem run_read (f : Registry κ → Except Failure α) (r : Registry κ) :
    (read f).run r = (f r, r) := rfl

theorem run_write (f : Registry κ → Except Error (α × Registry κ)) (r : Registry κ) :
    (write f).run r =
      match f r with
      | .ok (a, r') => (.ok a, r')
      | .error e => (.error (.error e), r) := rfl

/-! ### Steps -/

/-- The identity of a type of the host. -/
def idOf (t : HostType) : Session κ TypeId := write fun r => .ok (r.intern t)

def declareType (name : String) : Session κ TypeId := write (·.declareType name)

def register [DecidableEq κ] (type : TypeId) (draft : DraftFact κ) : Session κ Unit :=
  update (·.register type draft)

def recordProof (type : TypeId) (proof : NichelessProof) : Session κ Unit :=
  update (·.recordProof type proof)

def declareUniverse (source target : TypeId) : Session κ Unit :=
  update (·.declareUniverse source target)

def freeze : Session κ Unit := update fun r => .ok r.freeze

def lookup (type : TypeId) : Session κ (LayoutFact κ) := ask (·.lookup type)

end Session

end BitValidity
