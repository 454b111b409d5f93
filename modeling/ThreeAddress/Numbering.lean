/-!
# Numbering

Triads and temporaries are numbered from one, each kind by a counter of its own.
-/
namespace ThreeAddress

structure Numbering where
  /-- Temporaries given out so far. -/
  temporaries : Nat := 0
  /-- Triad numbers given out so far. -/
  triads : Nat := 0
  deriving DecidableEq, Repr

namespace Numbering

/-- The next temporary and the numbering after it. -/
def nextTemporary (n : Numbering) : Nat × Numbering :=
  (n.temporaries + 1, { n with temporaries := n.temporaries + 1 })

/-- The next triad number and the numbering after it. -/
def nextTriad (n : Numbering) : Nat × Numbering :=
  (n.triads + 1, { n with triads := n.triads + 1 })

end Numbering
end ThreeAddress
