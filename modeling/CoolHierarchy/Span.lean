/-!
# Byte ranges of a source text

A span holds two byte offsets as they were reported. Nothing forces the end to lie behind the
start: an inverted span is kept as it is and counts as empty.
-/

namespace CoolHierarchy

/-- The bytes from `start` up to and not including `stop`. -/
structure Span where
  start : UInt32 := 0
  stop : UInt32 := 0
deriving DecidableEq, Repr, Inhabited

namespace Span

/-- The span of what has no place of its own in the source. -/
def origin : Span := {}

/-- Number of bytes covered; an inverted span covers none. -/
def length (s : Span) : Nat :=
  s.stop.toNat - s.start.toNat

def isEmpty (s : Span) : Bool :=
  s.length == 0

theorem isEmpty_iff {s : Span} : s.isEmpty = true ↔ s.stop.toNat ≤ s.start.toNat := by
  simp only [isEmpty, length, beq_iff_eq]
  omega

/-- A span with bytes in it ends where its start and its length say. -/
theorem start_add_length {s : Span} (h : s.isEmpty = false) :
    s.start.toNat + s.length = s.stop.toNat := by
  have hlt : ¬ s.stop.toNat ≤ s.start.toNat := by
    rw [← isEmpty_iff, h]
    simp
  unfold length
  omega

end Span

end CoolHierarchy
