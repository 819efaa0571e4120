import QuasiScript.Position
import QuasiScript.Text.Padded

/-!
# Scopes

Names are declared in scopes. The scopes of a program live in one table and refer to the scope around them by its number;
the global scope has number 0, and what lies around it, nothing, has number -1. A look-up goes outward from scope to scope.
-/
namespace QuasiScript

structure Declaration where
  name : String
  pos : Position
deriving DecidableEq

/-- A scope: the number of the scope around it, and its declarations, ascending by name. -/
structure Scope where
  parent : Int
  names : List Declaration
deriving DecidableEq

namespace Scope

def noScope : Int := -1

def global : Int := 0

def get? (s : Scope) (name : String) : Option Declaration := s.names.find? fun d => d.name == name

/-- Puts a declaration before the first one with a greater name. -/
def insertName (d : Declaration) : List Declaration → List Declaration
  | [] => [d]
  | e :: es => if d.name < e.name then d :: e :: es else e :: insertName d es

end Scope

structure ScopeTable where
  scopes : List Scope
deriving DecidableEq

namespace ScopeTable

def initial : ScopeTable := ⟨[⟨Scope.noScope, []⟩]⟩

def size (t : ScopeTable) : Nat := t.scopes.length

def scope? (t : ScopeTable) (id : Int) : Option Scope :=
  match id with
  | .ofNat k => t.scopes[k]?
  | .negSucc _ => none

def parent? (t : ScopeTable) (id : Int) : Option Int := (t.scope? id).map Scope.parent

/-- Opens an empty scope inside another one, and gives its number. -/
def enter (t : ScopeTable) (parent : Int) : Int × ScopeTable := (t.size, ⟨t.scopes ++ [⟨parent, []⟩]⟩)

def local? (t : ScopeTable) (id : Int) (name : String) : Option Declaration :=
  (t.scope? id).bind fun s => s.get? name

def insert (t : ScopeTable) (id : Int) (d : Declaration) : ScopeTable :=
  ⟨t.scopes.modify id.toNat fun s => { s with names := Scope.insertName d s.names }⟩

/-- Declares a name in a scope. A name that the scope already declares stays as it is, and its earlier declaration is
given. -/
def declare (t : ScopeTable) (id : Int) (name : String) (pos : Position) : Option Declaration × ScopeTable :=
  match t.local? id name with
  | some d => (some d, t)
  | none => (none, t.insert id ⟨name, pos⟩)

inductive LookupError where
  /-- A scope number outside the table. -/
  | noSuchScope
  /-- Scopes that lie inside one another. -/
  | endless
deriving DecidableEq

/-- Looks a name up in a scope and the scopes around it, at most `fuel` of them. -/
def lookupWithin (t : ScopeTable) (name : String) : Nat → Int → Except LookupError (Option Declaration)
  | fuel, id =>
    if id = Scope.noScope then .ok none
    else
      match fuel, t.scope? id with
      | 0, _ => .error .endless
      | _, none => .error .noSuchScope
      | fuel + 1, some s =>
        match s.get? name with
        | some d => .ok (some d)
        | none => lookupWithin t name fuel s.parent

/-- The declaration of a name in the nearest scope that has one, from a scope outward. There are no more scopes to visit
than the table holds. -/
def lookup (t : ScopeTable) (id : Int) (name : String) : Except LookupError (Option Declaration) :=
  t.lookupWithin name (t.size + 1) id

def declares (t : ScopeTable) (id : Int) (name : String) : Bool :=
  match t.lookup id name with
  | .ok (some _) => true
  | _ => false

/-! ## Listing -/

def describeDeclaration (d : Declaration) : String :=
  "  " ++ Text.padRight 20 d.name ++ "  " ++ d.pos.describe ++ "\n"

def describeScope (id : Nat) (s : Scope) : String :=
  (if id = 0 then "Global:\n" else "Scope " ++ toString id ++ " (parent " ++ toString s.parent ++ "):\n") ++
    if s.names.isEmpty then "  (empty)\n" else String.join (s.names.map describeDeclaration)

def describe (t : ScopeTable) : String :=
  String.join (t.scopes.mapIdx describeScope)

end ScopeTable
end QuasiScript
