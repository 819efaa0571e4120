/-!
# Tables from names to values

A dialect describes the surface syntax by tables. A table answers look-ups by name; setting a name hides what it held
before, and the order of the other entries does not show.
-/
namespace QuasiScript

structure Table (α : Type) where
  entries : List (String × α)

namespace Table
variable {α : Type}

def get? (t : Table α) (name : String) : Option α := t.entries.lookup name

def contains (t : Table α) (name : String) : Bool := (t.get? name).isSome

def names (t : Table α) : List String := t.entries.map Prod.fst

def erase (t : Table α) (name : String) : Table α := ⟨t.entries.filter fun e => e.1 != name⟩

def set (t : Table α) (name : String) (value : α) : Table α := ⟨(name, value) :: (t.erase name).entries⟩

end Table
end QuasiScript
