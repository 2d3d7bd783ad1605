import PullScript.Catalogue.Standard
import PullScript.Ty.Parser
import PullScript.Value.Basic

namespace PullScript

namespace Registry

structure Entry where
  builtin : Builtin
  module : String
  ty : Ty

end Registry

/-- Builtins by name, in the order of the catalogue. -/
structure Registry where
  entries : List Registry.Entry := []
deriving Inhabited

namespace Registry

def find? (registry : Registry) (name : String) : Option Entry :=
  registry.entries.find? (·.builtin.name == name)

/-- Adds a builtin at the end. Its signature must have an arrow for each argument, and its name must
be new. -/
def add (registry : Registry) (module : String) (builtin : Builtin) : Except Error Registry := do
  let ty := (← Ty.parse builtin.signature).qualified builtin.name
  if builtin.arity = 0 ∨ ty.arity < builtin.arity then
    throw (.runtime (.tooFewArrows builtin.name builtin.arity builtin.signature))
  if (registry.find? builtin.name).isSome then
    throw (.runtime (.declaredTwice builtin.name))
  return ⟨registry.entries ++ [⟨builtin, module, ty⟩]⟩

def ofModules (modules : List Module) : Except Error Registry :=
  modules.foldlM (fun registry module => module.builtins.foldlM (·.add module.name) registry) {}

def standard : Except Error Registry :=
  ofModules Catalogue.standard

def lookup? (registry : Registry) (name : String) : Option Value :=
  (registry.find? name).map fun entry => .head entry.builtin entry.ty

def names (registry : Registry) : List String :=
  registry.entries.map (·.builtin.name)

end Registry

end PullScript
