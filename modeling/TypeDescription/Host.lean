import TypeDescription.Expression
import TypeDescription.Modifier
import TypeDescription.TypeId

/-!
# What is asked of a checked program

A `TypeHost` answers questions about the types and symbols of a program that
was checked before.  Types and symbols are handles of its own choice.  The
flag words use fixed bits; a host may set further bits, which nobody reads.
-/

namespace TypeDescription

/-! ## Flags -/

/-- What a type is. -/
structure TypeFlags where
  bits : UInt32
deriving DecidableEq, Inhabited

namespace TypeFlags

/-- Whether all bits of `b` are set in `a`. -/
def contains (a b : TypeFlags) : Bool :=
  a.bits &&& b.bits == b.bits

/-- Whether some bit is set in both. -/
def intersects (a b : TypeFlags) : Bool :=
  a.bits &&& b.bits != 0

def none : TypeFlags := ⟨0⟩
def any : TypeFlags := ⟨1⟩
def unknown : TypeFlags := ⟨2⟩
def string : TypeFlags := ⟨4⟩
def number : TypeFlags := ⟨8⟩
def boolean : TypeFlags := ⟨16⟩
def stringLiteral : TypeFlags := ⟨0x80⟩
def numberLiteral : TypeFlags := ⟨0x100⟩
def booleanLiteral : TypeFlags := ⟨0x200⟩
def esSymbol : TypeFlags := ⟨0x1000⟩
def void : TypeFlags := ⟨0x4000⟩
def undefined : TypeFlags := ⟨0x8000⟩
def null : TypeFlags := ⟨0x10000⟩
def never : TypeFlags := ⟨0x20000⟩
def typeParameter : TypeFlags := ⟨0x40000⟩
def object : TypeFlags := ⟨0x80000⟩
def union : TypeFlags := ⟨0x100000⟩
def intersection : TypeFlags := ⟨0x200000⟩

/-- The types that differ at each place where they stand: literal strings and
numbers. -/
def perPosition : TypeFlags := ⟨0x180⟩

/-- Whether a type gets a node at each place where it stands. -/
def isPerPosition (flags : TypeFlags) : Bool :=
  flags.intersects perPosition && !flags.contains any

end TypeFlags

/-- What kind of object an object type is. -/
structure ObjectFlags where
  bits : UInt32
deriving DecidableEq, Inhabited

namespace ObjectFlags

/-- Whether all bits of `b` are set in `a`. -/
def contains (a b : ObjectFlags) : Bool :=
  a.bits &&& b.bits == b.bits

def none : ObjectFlags := ⟨0⟩
def classType : ObjectFlags := ⟨1⟩
def interfaceType : ObjectFlags := ⟨2⟩
/-- A generic type with its arguments. -/
def reference : ObjectFlags := ⟨4⟩
def tuple : ObjectFlags := ⟨8⟩
def anonymous : ObjectFlags := ⟨16⟩

end ObjectFlags

/-- What a symbol declares. -/
structure SymbolFlags where
  bits : UInt32
deriving DecidableEq, Inhabited

namespace SymbolFlags

/-- Whether all bits of `b` are set in `a`. -/
def contains (a b : SymbolFlags) : Bool :=
  a.bits &&& b.bits == b.bits

def none : SymbolFlags := ⟨0⟩
def parameter : SymbolFlags := ⟨1⟩
def property : SymbolFlags := ⟨4⟩
def function : SymbolFlags := ⟨0x10⟩
def classSymbol : SymbolFlags := ⟨0x20⟩
def interfaceSymbol : SymbolFlags := ⟨0x40⟩
def enumeration : SymbolFlags := ⟨0x100⟩
def typeLiteral : SymbolFlags := ⟨0x800⟩
def method : SymbolFlags := ⟨0x2000⟩
def getAccessor : SymbolFlags := ⟨0x8000⟩
def typeAlias : SymbolFlags := ⟨0x80000⟩
def aliasSymbol : SymbolFlags := ⟨0x200000⟩

end SymbolFlags

/-! ## Questions -/

/-- One way to construct a class: the modifiers, and the parameters in
order. -/
structure Signature (σ : Type) where
  modifiers : Modifiers
  parameters : List σ

/-- A checked program with handles `τ` of types and `σ` of symbols. -/
structure TypeHost (τ σ : Type) where
  typeId : τ → TypeId
  typeFlags : τ → TypeFlags
  objectFlags : τ → ObjectFlags
  stringLiteral? : τ → Option String
  numberLiteral? : τ → Option Double
  booleanLiteral? : τ → Option Bool
  unionMembers : τ → List τ
  typeArguments : τ → List τ
  /-- The generic type of a reference. -/
  referenceTarget? : τ → Option τ
  symbol? : τ → Option σ
  callSignatureCount : τ → Nat
  /-- All properties, inherited ones included. -/
  properties : τ → List σ
  /-- The properties of the declaration itself. -/
  declaredProperties : τ → List σ
  baseTypes : τ → List τ
  /-- The name that refers to the type, if it is written as a reference. -/
  referenceName? : τ → Option String
  /-- The type as messages show it. -/
  display : τ → String
  symbolName : σ → String
  /-- The name of a symbol as a property. -/
  propertyName : σ → String
  symbolFlags : σ → SymbolFlags
  hasValueDeclaration : σ → Bool
  typeOfSymbol? : σ → Option τ
  modifiers : σ → Modifiers
  initializer? : σ → Option Expression
  constructSignatures : σ → List (Signature σ)
  /-- The symbol that an alias stands for. -/
  aliasedSymbol? : σ → Option σ

end TypeDescription
