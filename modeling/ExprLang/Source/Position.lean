/-!
# Positions and spans

A *position* is a byte offset into a named source.  A *span* runs from one
position to another.  Offsets are 32-bit words, so an offset past `2 ^ 32` keeps
its low 32 bits.
-/

namespace ExprLang

/-- A byte offset into a named source. -/
structure Position where
  /-- The offset in bytes from the start of the source. -/
  offset : UInt32
  /-- The name of the source. -/
  file : String
deriving DecidableEq, Repr, Inhabited

/-- A stretch of a source, from `start` up to but not including `stop`. -/
structure Span where
  /-- Where it starts. -/
  start : Position
  /-- The position just after it. -/
  stop : Position
deriving DecidableEq, Repr, Inhabited

/-- The position `offset` bytes into `file`, to 32 bits. -/
def Position.at (file : String) (offset : Nat) : Position := ⟨UInt32.ofNat offset, file⟩

/-- The span from `start` to `stop` in one file. -/
def Span.between (file : String) (start stop : Nat) : Span :=
  ⟨Position.at file start, Position.at file stop⟩

/-- The name of a source that was given none. -/
def unnamedFile : String := "shell"

/-- Below `UInt32.size` a position keeps its offset. -/
theorem Position.offset_at {file : String} {offset : Nat} (h : offset < UInt32.size) :
    (Position.at file offset).offset.toNat = offset := by
  simpa [Position.at] using Nat.mod_eq_of_lt h

end ExprLang
