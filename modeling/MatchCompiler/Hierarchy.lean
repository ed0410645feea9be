import MatchCompiler.LevelSearch
import MatchCompiler.Types

/-!
# Class hierarchies

A lattice of named types under the root type `object`: classes with one parent,
interfaces, and value types. Declarations are numbered in the order in which
they are made. A hierarchy answers the compiler's questions about types.
-/

set_option autoImplicit false

namespace MatchCompiler

inductive TypeKind where
  | reference
  | interface
  | value
deriving DecidableEq, Repr

structure TypeDeclaration where
  name : String
  kind : TypeKind
  parent : Option Ty
  interfaces : List Ty
  /-- No further type can be declared below this one. -/
  isSealed : Bool
deriving DecidableEq, Repr

def TypeDeclaration.supertypes (declaration : TypeDeclaration) : List Ty :=
  declaration.parent.toList ++ declaration.interfaces

structure Hierarchy where
  declarations : Array TypeDeclaration
deriving DecidableEq, Repr

namespace Hierarchy

/-- The root type, present in every hierarchy. -/
def object : Ty := ⟨0⟩

def empty : Hierarchy :=
  ⟨#[{ name := "object", kind := .reference, parent := none, interfaces := [], isSealed := false }]⟩

def size (hierarchy : Hierarchy) : Nat :=
  hierarchy.declarations.size

def declare (hierarchy : Hierarchy) (declaration : TypeDeclaration) : Ty × Hierarchy :=
  (⟨hierarchy.size⟩, ⟨hierarchy.declarations.push declaration⟩)

def addClass (hierarchy : Hierarchy) (name : String) (parent : Option Ty) : Ty × Hierarchy :=
  hierarchy.declare ⟨name, .reference, some (parent.getD object), [], false⟩

def addSealedClass (hierarchy : Hierarchy) (name : String) (parent : Option Ty) :
    Ty × Hierarchy :=
  hierarchy.declare ⟨name, .reference, some (parent.getD object), [], true⟩

/-- A value type is never null, has nothing below it, and converts to `object`. -/
def addValueType (hierarchy : Hierarchy) (name : String) : Ty × Hierarchy :=
  hierarchy.declare ⟨name, .value, some object, [], true⟩

def addInterface (hierarchy : Hierarchy) (name : String) : Ty × Hierarchy :=
  hierarchy.declare ⟨name, .interface, some object, [], false⟩

/-- Puts an interface directly above a type. An unknown type is left alone. -/
def implement (hierarchy : Hierarchy) (type interface : Ty) : Hierarchy :=
  ⟨hierarchy.declarations.modify type.index fun declaration =>
    { declaration with interfaces := declaration.interfaces ++ [interface] }⟩

def find? (hierarchy : Hierarchy) (type : Ty) : Option TypeDeclaration :=
  hierarchy.declarations[type.index]?

def nameOf (hierarchy : Hierarchy) (type : Ty) : String :=
  ((hierarchy.find? type).map (·.name)).getD "<unknown>"

def supertypes (hierarchy : Hierarchy) (type : Ty) : List Ty :=
  ((hierarchy.find? type).map TypeDeclaration.supertypes).getD []

/-- The declared types among `type` and all that lie above it, the nearest first. -/
def ancestry (hierarchy : Hierarchy) (type : Ty) : List Ty :=
  LevelSearch.visits ⟨Ty.index, hierarchy.supertypes, hierarchy.size⟩ [type]

/-- Every link starts at a declared type, but it may lead to an unknown one. -/
def isSubtype (hierarchy : Hierarchy) (sub super : Ty) : Bool :=
  sub == super ||
    (hierarchy.ancestry sub).any fun type => (hierarchy.supertypes type).contains super

def isSealed (hierarchy : Hierarchy) (type : Ty) : Bool :=
  (hierarchy.find? type).any (·.isSealed)

def isInterface (hierarchy : Hierarchy) (type : Ty) : Bool :=
  (hierarchy.find? type).any (·.kind == .interface)

def canBeNull (hierarchy : Hierarchy) (type : Ty) : Bool :=
  (hierarchy.find? type).any (·.kind != .value)

/-- Between unrelated types a test is needed only where some type below both
may still be declared: one side is an interface and the other is not sealed. -/
def classify (hierarchy : Hierarchy) (source target : Ty) : Conversion :=
  if hierarchy.isSubtype source target then .always
  else if hierarchy.isSubtype target source then .tested
  else if hierarchy.isInterface source && !hierarchy.isSealed target ||
      hierarchy.isInterface target && !hierarchy.isSealed source then .tested
  else .never

def oracle (hierarchy : Hierarchy) : TypeOracle where
  classify := hierarchy.classify
  canBeNull := hierarchy.canBeNull

end Hierarchy

end MatchCompiler
