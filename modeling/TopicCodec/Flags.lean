/-!
# Flag sets

A set of flag bits in one word, used for the attributes of an instruction and
for the attributes of a descriptor.
-/
namespace TopicCodec

structure Flags where
  bits : UInt32
  deriving DecidableEq, Repr

namespace Flags

def empty : Flags := ⟨0⟩

/-- Every flag of `other` is set. -/
def contains (flags other : Flags) : Bool := flags.bits &&& other.bits == other.bits

def union (a b : Flags) : Flags := ⟨a.bits ||| b.bits⟩

instance : Union Flags := ⟨union⟩

end Flags
end TopicCodec
