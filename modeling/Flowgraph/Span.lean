/-!
# Source ranges

A `Span` is a range of bytes inside one source file.  The span that is zero everywhere stands for
"no place": it is what trees built without a source carry.
-/

namespace Flowgraph

structure Span where
  file : UInt64 := 0
  lo : UInt32 := 0
  hi : UInt32 := 0
  deriving DecidableEq, Repr, Inhabited

namespace Span

/-- The span of something that has no place in a source file. -/
def null : Span := ⟨0, 0, 0⟩

def isNull (span : Span) : Bool :=
  span = null

/-- The smallest span that covers both.  A span of another file, or the null span, adds nothing. -/
def cover (span other : Span) : Span :=
  if span.file ≠ other.file ∨ other.isNull then span
  else if span.isNull then other
  else ⟨span.file, min span.lo other.lo, max span.hi other.hi⟩

/-- The number of bytes covered; none if the range ends before it starts. -/
def length (span : Span) : UInt32 :=
  if span.hi ≤ span.lo then 0 else span.hi - span.lo

def isEmpty (span : Span) : Bool :=
  span.length = 0

def render (span : Span) : String :=
  s!"{span.file.toNat}:{span.lo.toNat}-{span.hi.toNat}"

end Span

end Flowgraph
