import DaiScript.Number.Layout
import DaiScript.Tree

/-! The values of programs. -/
namespace DaiScript

inductive Value where
  | number (n : Number)
  | text (s : String)
  | bool (b : Bool)
  | null
  | array (items : List Value)

namespace Value

def ofLiteral : Literal → Value
  | .number n => number n
  | .text s => text s
  | .bool b => bool b
  | .null => null

def typeName : Value → String
  | number _ => "number"
  | text _ => "string"
  | bool _ => "boolean"
  | null => "null"
  | array _ => "array"

def isTruthy : Value → Bool
  | number n => !n.isZero
  | text s => !s.isEmpty
  | bool b => b
  | null => false
  | array items => !items.isEmpty

def isNull : Value → Bool
  | null => true
  | _ => false

def number? : Value → Option Number
  | number n => some n
  | _ => none

mutual

/-- Values of different kinds are never the same, and arrays are the same item by item. -/
def same : Value → Value → Bool
  | number a, number b => a.same b
  | text a, text b => a == b
  | bool a, bool b => a == b
  | null, null => true
  | array a, array b => sameItems a b
  | _, _ => false

def sameItems : List Value → List Value → Bool
  | [], [] => true
  | a :: as, b :: bs => same a b && sameItems as bs
  | _, _ => false

end

mutual

def shown : Value → String
  | number n => Layout.printed.render n
  | text s => s
  | bool b => if b then "thik" else "galat"
  | null => "khali"
  | array items => "[" ++ String.intercalate ", " (shownItems items) ++ "]"

def shownItems : List Value → List String
  | [] => []
  | item :: items => shown item :: shownItems items

end

end Value

end DaiScript
