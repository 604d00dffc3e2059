/-! Places in a source text. A place counts lines and columns from one and characters from zero,
all in code points, so the characters in front of it determine it. -/
namespace DaiScript

structure Position where
  line : Nat
  column : Nat
  index : Nat
  deriving DecidableEq, Repr

namespace Position

def start : Position := ⟨1, 1, 0⟩

def step (p : Position) (c : Char) : Position :=
  if c = '\n' then ⟨p.line + 1, 1, p.index + 1⟩ else ⟨p.line, p.column + 1, p.index + 1⟩

def advance (p : Position) (text : List Char) : Position :=
  text.foldl step p

@[simp] theorem advance_nil (p : Position) : p.advance [] = p := rfl

@[simp] theorem advance_cons (p : Position) (c : Char) (text : List Char) :
    p.advance (c :: text) = (p.step c).advance text := rfl

@[simp] theorem advance_append (p : Position) (first second : List Char) :
    p.advance (first ++ second) = (p.advance first).advance second :=
  List.foldl_append

def shown (p : Position) : String :=
  toString p.line ++ ":" ++ toString p.column

end Position

end DaiScript
