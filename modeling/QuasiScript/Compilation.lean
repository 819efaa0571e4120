import QuasiScript.Emit.Node
import QuasiScript.Log.Record
import QuasiScript.Reading

/-!
# Compiling units

A unit is a named source text. It is read, then code is generated for it; every phase leaves records. A session
compiles units one after the other with one scope table, and a unit that fails leaves no trace in it.
-/
namespace QuasiScript

inductive Failure where
  | read (error : ReadError)
  | generate (error : CompileError)
deriving DecidableEq

namespace Failure

def message : Failure → String
  | .read e => e.message
  | .generate e => e.message

end Failure

/-- What compiling a unit gives: its code, the scopes after it, and the records on the way. -/
structure Compilation where
  result : Except Failure String
  scopes : ScopeTable
  records : List Log.Record

namespace Compilation

def ofText (d : Dialect) (scopes : ScopeTable) (name : String) (text : List Char) : Compilation :=
  let begun := Log.Record.phase name "read"
  let reading := Reading.ofText d text
  match reading.error with
  | some e =>
    let fault := e.innermost
    ⟨.error (.read e), scopes, [begun, .failed "read" name fault.pos fault.message]⟩
  | none =>
    let records := [begun, .read name reading.nodes.length, .phase name "generate"]
    match Emit.generate d scopes reading.nodes with
    | (.error e, scopes) => ⟨.error (.generate e), scopes, records ++ [.failed "generate" name e.pos e.text]⟩
    | (.ok code, scopes) => ⟨.ok code, scopes, records ++ [.generated name code.utf8ByteSize]⟩

end Compilation

/-- Units compiled one after the other. -/
structure Session where
  dialect : Dialect
  scopes : ScopeTable
  /-- How many units were compiled successfully. -/
  units : Nat

namespace Session

def start (d : Dialect) : Session := ⟨d, .initial, 0⟩

def compile (s : Session) (name : String) (text : List Char) : Compilation × Session :=
  let c := Compilation.ofText s.dialect s.scopes name text
  match c.result with
  | .ok _ => (c, { s with scopes := c.scopes, units := s.units + 1 })
  | .error _ => (c, s)

def declared (s : Session) (name : String) : Bool := s.scopes.declares Scope.global name

end Session
end QuasiScript
