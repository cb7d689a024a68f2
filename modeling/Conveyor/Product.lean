-- SUMMARY: Products, and the registries that hand out their identities.
import Conveyor.Table

/-!
# Products

A product is an item type. Its identity is a number within a module, the namespace that it belongs
to; both numbers are handed out in order, and a number that was handed out never changes.
-/

namespace Conveyor

/-- An item type, numbered within a module. -/
structure Product where
  id : Int
  module : Int
deriving DecidableEq, Repr, Inhabited

namespace Product

/-- Products are ordered by number, then by module. -/
def lt (p q : Product) : Bool :=
  p.id < q.id || (p.id = q.id && p.module < q.module)

/-- The products in ascending order. -/
def sorted (ps : List Product) : List Product :=
  ps.mergeSort fun p q => !q.lt p

end Product

/-! ## Registries -/

/-- Module names in registration order; the number of a module is its position. -/
structure ModuleRegistry where
  numbers : Table String Nat
deriving DecidableEq, Repr

namespace ModuleRegistry

/-- The module that every registry starts with. -/
def defaultModule : String := "factory"

/-- The registry that knows the default module only, as number 0. -/
def initial : ModuleRegistry := ⟨(∅ : Table String Nat).insert defaultModule 0⟩

instance : Inhabited ModuleRegistry := ⟨initial⟩

def contains (r : ModuleRegistry) (name : String) : Bool := r.numbers.contains name

def size (r : ModuleRegistry) : Nat := r.numbers.size

/-- The number of a module; an unknown name is registered under the next one. -/
def number (r : ModuleRegistry) (name : String) : Nat × ModuleRegistry :=
  match r.numbers.get? name with
  | some n => (n, r)
  | none => (r.size, ⟨r.numbers.insert name r.size⟩)

end ModuleRegistry

/-- How many products have been created. -/
structure ProductRegistry where
  size : Nat := 0
deriving DecidableEq, Repr, Inhabited

/-- A fresh product in a module. -/
def ProductRegistry.create (r : ProductRegistry) (module : Int) : Product × ProductRegistry :=
  (⟨r.size, module⟩, ⟨r.size + 1⟩)

end Conveyor
