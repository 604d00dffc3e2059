import DaiScript.Grammar.Reading
import DaiScript.Tree

/-! How expressions are read. Each layer of the grammar is a reading built from the reading of whole
expressions, which it calls only behind a token it has passed; the recursion is closed in one place,
`expression`. The number that bounds a layer counts the tokens it may still pass. -/
namespace DaiScript.Grammar

open Reading

def moreItems (item : Reading Expr) : Nat → Reading (List Expr)
  | 0 => Process.endless
  | bound + 1 => do
    match ← accept? (.symbol .comma) with
    | some _ =>
      let first ← item
      let more ← moreItems item bound
      return first :: more
    | none => return []

def items (item : Reading Expr) (bound : Nat) : Reading (List Expr) := do
  let first ← item
  let more ← moreItems item bound
  return first :: more

def closedItems (item : Reading Expr) (bound : Nat) (symbol : Symbol) (delimiter : Char) :
    Reading (List Expr) := do
  match ← accept? (.symbol symbol) with
  | some _ => return []
  | none =>
    let all ← items item bound
    close symbol delimiter
    return all

def literal? (t : Token) : Option Literal :=
  match t.kind with
  | .keyword .thik => some (.bool true)
  | .keyword .galat => some (.bool false)
  | .keyword .khali => some .null
  | .number => t.lexeme.number?.map .number
  | .text => t.lexeme.text?.map .text
  | _ => none

def primary (expr : Reading Expr) (bound : Nat) : Reading Expr := do
  let token ← peek
  match literal? token with
  | some value =>
    advance
    return .literal value token.position
  | none =>
    match token.kind with
    | .name =>
      advance
      return .name token.lexeme.nameText token.position
    | .symbol .openParen =>
      advance
      let inner ← expr
      close .closeParen ')'
      return inner
    | .symbol .openBracket =>
      advance
      let all ← closedItems expr bound .closeBracket ']'
      return .array all token.position
    | _ => reject .noExpression

def calls (expr : Reading Expr) (outer : Nat) : Nat → Expr → Reading Expr
  | 0, _ => Process.endless
  | bound + 1, callee => do
    match ← accept? (.symbol .openParen) with
    | some paren =>
      let arguments ← closedItems expr outer .closeParen ')'
      calls expr outer bound (.call callee arguments paren.position)
    | none => return callee

def call (expr : Reading Expr) (bound : Nat) : Reading Expr := do
  let callee ← primary expr bound
  calls expr bound bound callee

/-- A call with at most one update operator behind it. -/
def updated (expr : Reading Expr) (bound : Nat) : Reading Expr := do
  let target ← call expr bound
  let token ← peek
  match UpdateOp.ofKind? token.kind with
  | some op =>
    advance
    return .update op target false token.position
  | none => return target

def unary (expr : Reading Expr) : Nat → Reading Expr
  | 0 => Process.endless
  | bound + 1 => do
    let token ← peek
    match UnaryOp.ofKind? token.kind with
    | some op =>
      advance
      let operand ← unary expr bound
      return .unary op operand token.position
    | none => updated expr bound

/-- The operators of one level and their right operands, grouped to the left. -/
def chain (level : Nat) (operand : Reading Expr) : Nat → Expr → Reading Expr
  | 0, _ => Process.endless
  | bound + 1, left => do
    let token ← peek
    match (BinaryOp.ofKind? token.kind).filter (·.level = level) with
    | some op =>
      advance
      let right ← operand
      chain level operand bound (.binary left op right token.position)
    | none => return left

/-- An expression whose binary operators outside brackets are of the level at most. -/
def binary (expr : Reading Expr) (bound : Nat) : Nat → Reading Expr
  | 0 => unary expr bound
  | level + 1 => do
    let left ← binary expr bound level
    chain (level + 1) (binary expr bound level) bound left

/-- An expression of binary operators, or an assignment to one. Assignments group to the right. -/
def assignment (expr : Reading Expr) (bound : Nat) : Reading Expr := do
  let target ← binary expr bound 7
  let token ← peek
  match AssignOp.ofKind? token.kind with
  | some op =>
    advance
    let value ← expr
    return .assign target op value token.position
  | none => return target

def expressionWithin : Nat → Reading Expr
  | 0 => Process.endless
  | bound + 1 => assignment (expressionWithin bound) bound

/-- Reads with a bound that suffices for every reading that ends. -/
def bounded (reading : Nat → Reading α) : Reading α := fun c => reading c.reach c

def expression : Reading Expr := bounded expressionWithin

def layer (reading : Reading Expr → Nat → Reading α) : Reading α :=
  bounded fun bound => reading (expressionWithin bound) bound

end DaiScript.Grammar
