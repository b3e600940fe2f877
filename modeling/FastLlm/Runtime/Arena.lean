import FastLlm.Runtime.DecodeParams

/-!
# The arena

All memory of a decoder comes from one bump allocator.  Sizes and offsets are 64 bits
wide and wrap.  A block is an allocation of its own, numbered from one; allocation 0
holds what lies outside the arena, the null pointer and the mapped model file.

## Main definitions

* `Arena`, `Arena.alloc` — the allocator.
-/

namespace FastLlm

/-- The allocator, with the offset and the length of every block handed out. -/
structure Arena where
  cap : UInt64
  used : UInt64
  blocks : List (UInt64 × UInt64)
  deriving DecidableEq, Repr

namespace Arena

def create (bytes : UInt64) : Arena := ⟨bytes, 0, []⟩

/-- The next offset that is a multiple of `align`, a power of two. -/
def bump (a : Arena) (align : UInt64) : UInt64 := (a.used + align - 1) &&& ~~~(align - 1)

def alloc (a : Arena) (bytes align : UInt64) : Except String (Arena × Loc) :=
  let off := a.bump align
  if a.cap < off + bytes then .error "arena exhausted"
  else .ok ({ a with used := off + bytes, blocks := a.blocks ++ [(off, bytes)] },
    ⟨a.blocks.length + 1, 0⟩)

end Arena
end FastLlm
