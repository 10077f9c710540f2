import BitValidity.Storage
import BitValidity.Word

/-!
# Types of the host

The types whose values the library reinterprets. Each has fixed storage and a symbol, the name under
which a registry knows the type until a fact gives it a better one. Symbols follow the usual
encoding of type names for linkers: a name is preceded by its length, and a namespace that was
already written is abbreviated.
-/

namespace BitValidity

/-! ### Integers -/

/-- An integer type, by its width and whether it has a sign. -/
structure IntType where
  width : IntWidth
  signed : Bool
  deriving DecidableEq

namespace IntType

def name (i : IntType) : String :=
  match i.width, i.signed with
  | .one, true => "int8_t"
  | .two, true => "int16_t"
  | .four, true => "int32_t"
  | .eight, true => "int64_t"
  | .one, false => "uint8_t"
  | .two, false => "uint16_t"
  | .four, false => "uint32_t"
  | .eight, false => "uint64_t"

def symbol (i : IntType) : String :=
  match i.width, i.signed with
  | .one, true => "a"
  | .two, true => "s"
  | .four, true => "i"
  | .eight, true => "l"
  | .one, false => "h"
  | .two, false => "t"
  | .four, false => "j"
  | .eight, false => "m"

/-- Every integer type, those with a sign first. -/
def all : List IntType :=
  [true, false].flatMap fun signed =>
    [IntWidth.one, .two, .four, .eight].map fun width => ⟨width, signed⟩

end IntType

/-! ### Types with one niche -/

/-- A type all of whose bit patterns but the zero one are values. -/
inductive OneNiche where
  /-- An integer that is not zero. -/
  | nonZero (i : IntType)
  /-- A pointer that is not null. -/
  | nonNull (pointee : String)
  deriving DecidableEq

def OneNiche.width : OneNiche → IntWidth
  | nonZero i => i.width
  | nonNull _ => .eight

/-! ### Types -/

/-- A class type, of which only the storage matters. An empty class occupies storage that holds no
part of its value. -/
structure RecordType where
  name : String
  storage : Storage
  isEmpty : Bool
  deriving DecidableEq

inductive HostType where
  | int (i : IntType)
  | float
  | double
  | byte
  | char
  | bool
  /-- The class that has a single value and no parts. -/
  | unit
  /-- A pointer to anything. -/
  | address
  | pointer (pointee : String)
  | oneNiche (x : OneNiche)
  /-- The values of `x`, and one more that is stored in its niche. -/
  | nicheOption (x : OneNiche)
  /-- Storage of a `t` that may hold any bit pattern. -/
  | maybeInvalid (t : HostType)
  | array (element : HostType) (count : Nat)
  | record (r : RecordType)
  | enumeration (name : String) (underlying : IntType)
  deriving DecidableEq

namespace HostType

def size : HostType → UInt64
  | int i | enumeration _ i => i.width.toUInt64
  | byte | char | bool | unit => 1
  | float => 4
  | double | address | pointer _ => 8
  | oneNiche x | nicheOption x => x.width.toUInt64
  | maybeInvalid t => t.size
  | array element count => UInt64.ofNat count * element.size
  | record r => r.storage.size

def alignment : HostType → UInt64
  | int i | enumeration _ i => i.width.toUInt64
  | byte | char | bool | unit => 1
  | float => 4
  | double | address | pointer _ => 8
  | oneNiche x | nicheOption x => x.width.toUInt64
  | maybeInvalid t => t.alignment
  | array element _ => element.alignment
  | record r => r.storage.alignment

def storage (t : HostType) : Storage := ⟨t.size, t.alignment⟩

def isEmpty : HostType → Bool
  | unit => true
  | record r => r.isEmpty
  | _ => false

def isOneNiche : HostType → Bool
  | oneNiche _ => true
  | _ => false

/-- The type is known to be nicheless without a look at any registry. -/
def isNicheless : HostType → Bool
  | int _ | float | double | byte | char | address | pointer _ | nicheOption _ | maybeInvalid _ => true
  | array element _ => element.isNicheless
  | bool | unit | oneNiche _ | record _ | enumeration _ _ => false

/-! ### Symbols -/

/-- A name after its length. -/
def counted (name : String) : String := toString name.utf8ByteSize ++ name

/-- The name of the library, which is also the namespace of its types. -/
def libraryName : String := "bitguard"

/-- A name in the namespace of the library. Inside a name that has it the namespace is
abbreviated. -/
def qualified (inside : Bool) (name : String) : String :=
  "N" ++ (if inside then "S_" else counted libraryName) ++ counted name

def oneNicheSymbol (inside : Bool) : OneNiche → String
  | .nonZero i => qualified inside "NonZero" ++ "I" ++ i.symbol ++ "EE"
  | .nonNull pointee => qualified inside "NonNull" ++ "I" ++ counted pointee ++ "EE"

/-- The symbol, as it stands alone or inside a name of the library's namespace. -/
def symbolIn (inside : Bool) : HostType → String
  | int i => i.symbol
  | float => "f"
  | double => "d"
  | byte => "St4byte"
  | char => "c"
  | bool => "b"
  | unit => qualified inside "Unit" ++ "E"
  | address => "Pv"
  | pointer pointee => "P" ++ counted pointee
  | oneNiche x => oneNicheSymbol inside x
  | nicheOption x => qualified inside "NicheOption" ++ "I" ++ oneNicheSymbol true x ++ "EE"
  | maybeInvalid t => qualified inside "MaybeInvalid" ++ "I" ++ t.symbolIn true ++ "EE"
  | array element count =>
    "St5arrayI" ++ element.symbolIn inside ++ "Lm" ++ toString count ++ "EE"
  | record r => counted r.name
  | enumeration name _ => counted name

def symbol (t : HostType) : String := t.symbolIn false

end HostType

end BitValidity
