import TopicCodec.Descriptor.Validate

/-!
# Registries

A registry holds valid descriptors, one for each canonical name, in ascending order of
the names. A registration that fails leaves it as it was, and none replaces an earlier
one.
-/
namespace TopicCodec

structure Registry where
  entries : List (String × Descriptor)

namespace Registry

def empty : Registry := ⟨[]⟩

/-- Puts an entry in its place; an entry with the same name stays. -/
def insertEntry (name : String) (desc : Descriptor) :
    List (String × Descriptor) → List (String × Descriptor)
  | [] => [(name, desc)]
  | (other, kept) :: rest =>
      if name = other then (other, kept) :: rest
      else if name < other then (name, desc) :: (other, kept) :: rest
      else (other, kept) :: insertEntry name desc rest

/-- The descriptor registered under any spelling of a name. -/
def get? (registry : Registry) (name : String) : Option Descriptor :=
  registry.entries.lookup (Name.canonical name)

/-- Adds a descriptor under its canonical name, in place; also gives the descriptor that is kept. -/
def register (desc : Descriptor) : ExceptT Defect (StateM Registry) Descriptor := do
  let name := desc.canonicalName
  MonadExcept.ofExcept desc.validate
  if ((← get).entries.lookup name).isSome then throw (.duplicateType name)
  modify fun registry => ⟨insertEntry name desc registry.entries⟩
  return desc

def names (registry : Registry) : List String := registry.entries.map (·.1)

def length (registry : Registry) : Nat := registry.entries.length

def isEmpty (registry : Registry) : Bool := registry.entries.isEmpty

end Registry
end TopicCodec
