import DaiScript.Token.Kind

/-! The operators of expressions, and the symbols that spell them. Subtraction and negation share a
symbol; all other operators have one of their own. -/
namespace DaiScript

inductive BinaryOp where
  | add | sub | mul | div | mod | pow
  | equal | notEqual | less | greater | lessEqual | greaterEqual
  | and | or
  deriving DecidableEq, Repr

namespace BinaryOp

def symbol : BinaryOp → Symbol
  | add => .plus
  | sub => .minus
  | mul => .star
  | div => .slash
  | mod => .percent
  | pow => .power
  | equal => .equal
  | notEqual => .notEqual
  | less => .less
  | greater => .greater
  | lessEqual => .lessEqual
  | greaterEqual => .greaterEqual
  | and => .and
  | or => .or

def ofKind? : Kind → Option BinaryOp
  | .symbol .plus => some add
  | .symbol .minus => some sub
  | .symbol .star => some mul
  | .symbol .slash => some div
  | .symbol .percent => some mod
  | .symbol .power => some pow
  | .symbol .equal => some equal
  | .symbol .notEqual => some notEqual
  | .symbol .less => some less
  | .symbol .greater => some greater
  | .symbol .lessEqual => some lessEqual
  | .symbol .greaterEqual => some greaterEqual
  | .symbol .and => some and
  | .symbol .or => some or
  | _ => none

theorem ofKind?_eq_some {kind : Kind} {op : BinaryOp} :
    ofKind? kind = some op ↔ kind = .symbol op.symbol := by
  constructor
  · intro h
    unfold ofKind? at h
    split at h <;> first | (cases h; rfl) | contradiction
  · rintro rfl
    cases op <;> rfl

/-- How loosely an operator binds, from one for powers to seven for disjunctions. All of them group
to the left. -/
def level : BinaryOp → Nat
  | pow => 1
  | mul | div | mod => 2
  | add | sub => 3
  | less | greater | lessEqual | greaterEqual => 4
  | equal | notEqual => 5
  | and => 6
  | or => 7

end BinaryOp

inductive UnaryOp where
  | negate | not
  deriving DecidableEq, Repr

namespace UnaryOp

def symbol : UnaryOp → Symbol
  | negate => .minus
  | not => .not

def ofKind? : Kind → Option UnaryOp
  | .symbol .minus => some negate
  | .symbol .not => some not
  | _ => none

theorem ofKind?_eq_some {kind : Kind} {op : UnaryOp} :
    ofKind? kind = some op ↔ kind = .symbol op.symbol := by
  constructor
  · intro h
    unfold ofKind? at h
    split at h <;> first | (cases h; rfl) | contradiction
  · rintro rfl
    cases op <;> rfl

end UnaryOp

inductive UpdateOp where
  | increment | decrement
  deriving DecidableEq, Repr

namespace UpdateOp

def symbol : UpdateOp → Symbol
  | increment => .increment
  | decrement => .decrement

def ofKind? : Kind → Option UpdateOp
  | .symbol .increment => some increment
  | .symbol .decrement => some decrement
  | _ => none

theorem ofKind?_eq_some {kind : Kind} {op : UpdateOp} :
    ofKind? kind = some op ↔ kind = .symbol op.symbol := by
  constructor
  · intro h
    unfold ofKind? at h
    split at h <;> first | (cases h; rfl) | contradiction
  · rintro rfl
    cases op <;> rfl

end UpdateOp

inductive AssignOp where
  | assign | add | sub | mul | div
  deriving DecidableEq, Repr

namespace AssignOp

def symbol : AssignOp → Symbol
  | assign => .assign
  | add => .plusAssign
  | sub => .minusAssign
  | mul => .starAssign
  | div => .slashAssign

def ofKind? : Kind → Option AssignOp
  | .symbol .assign => some assign
  | .symbol .plusAssign => some add
  | .symbol .minusAssign => some sub
  | .symbol .starAssign => some mul
  | .symbol .slashAssign => some div
  | _ => none

theorem ofKind?_eq_some {kind : Kind} {op : AssignOp} :
    ofKind? kind = some op ↔ kind = .symbol op.symbol := by
  constructor
  · intro h
    unfold ofKind? at h
    split at h <;> first | (cases h; rfl) | contradiction
  · rintro rfl
    cases op <;> rfl

def binary? : AssignOp → Option BinaryOp
  | assign => none
  | add => some .add
  | sub => some .sub
  | mul => some .mul
  | div => some .div

end AssignOp

end DaiScript
