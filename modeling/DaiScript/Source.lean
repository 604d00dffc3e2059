import DaiScript.Text.Quoted
import DaiScript.Token.Basic

/-! From a text to its tokens, in two steps. The text is first cut into pieces, each the longest
that starts there, without regard to where it stands; then the pieces are placed one behind the
other. A piece is never empty, so cutting ends, and a fault stands right behind the last piece. -/
namespace DaiScript

inductive ScanCause where
  | missingMarker
  | unterminated
  | unexpected (c : Char)
  deriving DecidableEq, Repr

structure ScanError where
  cause : ScanCause
  position : Position
  deriving DecidableEq, Repr

def ScanError.message (e : ScanError) : String :=
  match e.cause with
  | .missingMarker => "Namaste Dai van vai Sururma"
  | .unterminated => "Unterminated string: Rameri Bujera Lekh Ta Vai"
  | .unexpected c => "Unexpected character - K Lekhya Vai K Lekhya '" ++ c.toString ++ "'"

structure Piece where
  span : List Char
  lexeme : Option Lexeme
  deriving DecidableEq, Repr

structure Cut where
  pieces : List Piece
  fault : Option ScanCause
  deriving DecidableEq, Repr

namespace Source

open Text

/-- How many characters of `text` the words of a keyword take, when each follows at least one blank
and the last is not the front of a longer word. -/
def wordsLength? : List String → List Char → Option Nat
  | [], text => if (text.head?.map isWordPart).getD false then none else some 0
  | word :: words, text =>
    let gap := (text.takeWhile isBlank).length
    let rest := text.drop gap
    if gap = 0 then none
    else if word.toList.isPrefixOf rest then
      (wordsLength? words (rest.drop word.length)).map (gap + word.length + ·)
    else none

def keyword? (word : List Char) (text : List Char) : Option (Keyword × Nat) :=
  Keyword.all.findSome? fun k =>
    match k.words with
    | first :: more =>
      if first.toList = word then (wordsLength? more text).map fun used => (k, used) else none
    | [] => none

def fraction : List Char → List Char
  | '.' :: rest => rest.takeWhile Char.isDigit
  | _ => []

def number (c : Char) (text : List Char) : Nat × Lexeme :=
  let whole := c :: text.takeWhile Char.isDigit
  let digits := fraction (text.dropWhile Char.isDigit)
  let spelling := if digits.isEmpty then whole else whole ++ '.' :: digits
  (spelling.length - 1,
    ⟨.number, some (.number (.ofDecimal whole digits)), String.ofList spelling⟩)

def word (c : Char) (text : List Char) : Nat × Lexeme :=
  let more := text.takeWhile isWordPart
  let spelling := c :: more
  match keyword? spelling (text.drop more.length) with
  | some (k, used) => (more.length + used, .keyword k)
  | none =>
    let name := String.ofList spelling
    (more.length, ⟨.name, some (.name name), name⟩)

def string? (c : Char) (text : List Char) : Option (Nat × Lexeme) :=
  (Quoted.decode c text).map fun (value, used) =>
    (used, ⟨.text, some (.text (String.ofList value)),
      String.ofList (c :: Quoted.encode value ++ [c])⟩)

def symbol? (c : Char) (text : List Char) : Option (Nat × Lexeme) :=
  match text.head?.bind (Symbol.pair? c) with
  | some s => some (1, .symbol s)
  | none => (Symbol.single? c).map fun s => (0, .symbol s)

/-- The piece at the front of `c :: text`: how many characters of `text` belong to it, and its
lexeme. -/
def front (c : Char) (text : List Char) : Except ScanCause (Nat × Option Lexeme) :=
  if c = '\n' then .ok (0, some .newline)
  else if isBlank c then .ok ((text.takeWhile isBlank).length, none)
  else if c = '/' ∧ text.head? = some '/' then .ok ((text.takeWhile (· != '\n')).length, none)
  else if c.isDigit then
    let (used, lexeme) := number c text
    .ok (used, some lexeme)
  else if isWordStart c then
    let (used, lexeme) := word c text
    .ok (used, some lexeme)
  else if isQuote c then
    match string? c text with
    | some (used, lexeme) => .ok (used, some lexeme)
    | none => .error .unterminated
  else
    match symbol? c text with
    | some (used, lexeme) => .ok (used, some lexeme)
    | none => .error (.unexpected c)

def cut : List Char → Cut
  | [] => ⟨[], none⟩
  | c :: text =>
    match front c text with
    | .error cause => ⟨[], some cause⟩
    | .ok (used, lexeme) =>
      let rest := cut (text.drop used)
      ⟨⟨c :: text.take used, lexeme⟩ :: rest.pieces, rest.fault⟩
termination_by text => text.length
decreasing_by simp only [List.length_drop, List.length_cons]; omega

/-- The tokens of pieces that stand one behind the other from `p` on. -/
def place : Position → List Piece → List Token
  | _, [] => []
  | p, piece :: pieces =>
    match piece.lexeme with
    | some lexeme => ⟨lexeme, p⟩ :: place (p.advance piece.span) pieces
    | none => place (p.advance piece.span) pieces

def covered (pieces : List Piece) : List Char :=
  pieces.flatMap Piece.span

def tokensFrom (p : Position) (text : List Char) : Except ScanError (List Token) :=
  let result := cut text
  let stop := p.advance (covered result.pieces)
  match result.fault with
  | some cause => .error ⟨cause, stop⟩
  | none => .ok (place p result.pieces ++ [.finish stop])

def marker : List Char := "Namaste Dai".toList

/-- The tokens of a text. With `marked`, the text has to open with the entry phrase, which may
follow white space and is no token. -/
def tokens (source : String) (marked : Bool) : Except ScanError (List Token) :=
  let text := source.toList
  if marked then
    let rest := trimStart text
    let opening := Position.start.advance (text.takeWhile isWhite)
    if marker.isPrefixOf rest then
      tokensFrom (opening.advance marker) (rest.drop marker.length)
    else .error ⟨.missingMarker, opening⟩
  else tokensFrom .start text

end Source

end DaiScript
