import DaiScript.Grammar.Expression

/-! How statements are read. A stream that recovers notes a fault, looks for the next likely start
of a statement and reads on; any other stream hands the fault to its caller. Expressions never
recover, so they are read under the cursor alone. -/
namespace DaiScript

structure Stream where
  cursor : Cursor
  /-- The faults noted so far, in order; none if the stream does not recover. -/
  noted : Option (List SyntaxError)
  deriving DecidableEq, Repr

namespace Stream

def plain (tokens : List Token) : Stream := ⟨.ofTokens tokens, none⟩

def recovering (tokens : List Token) : Stream := ⟨.ofTokens tokens, some []⟩

def faults (s : Stream) : List SyntaxError := s.noted.getD []

end Stream

abbrev Parsing := Process SyntaxError Stream

namespace Grammar

open Reading

def under (reading : Reading α) : Parsing α :=
  Process.within Stream.cursor (fun s c => { s with cursor := c }) reading

/-! ### Recovery -/

/-- The tokens before which a search for the next statement stops. -/
def resumes : Kind → Bool
  | .symbol .closeBrace => true
  | .keyword k =>
    match k with
    | .solti | .lekh | .yadi | .jabaSamma | .vaiVayoRokki | .aghiBadhVai => true
    | _ => false
  | _ => false

/-- Passes tokens up to the end, a token that resumes, or one behind a semicolon. -/
def seekStatement : Nat → Reading Unit
  | 0 => Process.endless
  | bound + 1 => do
    let stop ← Process.read fun c =>
      c.atEnd || c.previous.kind == .symbol .semicolon || resumes c.peek.kind
    if stop then return ()
    else
      advance
      seekStatement bound

def synchronize : Reading Unit := do
  advance
  bounded seekStatement

/-- Deals with the fault of a statement in a sequence that `closing` ends: moves past the statement,
unless the cursor rests on `closing`, and notes the fault or hands it on. -/
def recover (fault : SyntaxError) (closing : Kind) : Parsing Unit := do
  unless ← under (Process.read (·.check closing)) do
    under synchronize
  match ← Process.read Stream.noted with
  | some faults => Process.modify fun s => { s with noted := some (faults ++ [fault]) }
  | none => Process.fail fault

/-! ### Statements -/

def semicolon : Reading Unit := do
  let _ ← expect (.symbol .semicolon)
  return ()

def simple : Reading Stmt := do
  let token ← peek
  match token.kind with
  | .keyword .solti =>
    advance
    let name ← expect .name
    let value ← do
      match ← accept? (.symbol .assign) with
      | some _ => some <$> expression
      | none => pure none
    semicolon
    return .declare name.lexeme.nameText value token.position
  | .keyword .lekh =>
    advance
    let arguments ← do
      if ← Process.read (·.check (.symbol .semicolon)) then pure []
      else layer items
    semicolon
    return .print arguments token.position
  | .keyword .vaiVayoRokki =>
    advance
    semicolon
    return .leave token.position
  | .keyword .aghiBadhVai =>
    advance
    semicolon
    return .next token.position
  | _ =>
    let e ← expression
    semicolon
    return .expr e

def sequence (statement : Parsing Stmt) (closing : Kind) : Nat → Parsing (List Stmt)
  | 0 => Process.endless
  | bound + 1 => do
    under skipNewlines
    if ← under (Process.read fun c => c.atEnd || c.check closing) then return []
    else
      match ← Process.attempt statement with
      | .ok first =>
        let more ← sequence statement closing bound
        return first :: more
      | .error fault =>
        recover fault closing
        sequence statement closing bound

def block (statement : Parsing Stmt) (bound : Nat) : Parsing Stmt := do
  let _ ← under (expect (.symbol .openBrace))
  let body ← sequence statement (.symbol .closeBrace) bound
  under (close .closeBrace '\x7d')
  return .block body

/-- The rest of a conditional behind its keyword. `natra` may stand on a later line; if there is
none, the line breaks looked through are left. -/
def branch (statement : Parsing Stmt) : Parsing Stmt := do
  let test ← under expression
  let _ ← under (expect (.keyword .bhane))
  let consequent ← statement
  let here ← Process.read Stream.cursor
  under skipNewlines
  match ← under (accept? (.keyword .natra)) with
  | some _ =>
    let alternate ← statement
    return .branch test consequent (some alternate)
  | none =>
    under (backTo here)
    return .branch test consequent none

def statementWithin : Nat → Parsing Stmt
  | 0 => Process.endless
  | bound + 1 => do
    under skipNewlines
    let token ← under peek
    match token.kind with
    | .keyword .yadi =>
      under advance
      branch (statementWithin bound)
    | .keyword .jabaSamma =>
      under advance
      let test ← under expression
      let body ← statementWithin bound
      return .loop test body
    | .symbol .openBrace => block (statementWithin bound) bound
    | _ => under simple

/-- Parses with a bound that suffices for every parsing that ends. -/
def spanning (parsing : Nat → Parsing α) : Parsing α := fun s => parsing s.cursor.reach s

def statement : Parsing Stmt := spanning statementWithin

def braced : Parsing Stmt :=
  spanning fun bound => block (statementWithin bound) bound

def statements (closing : Kind) : Parsing (List Stmt) :=
  spanning fun bound => sequence (statementWithin bound) closing bound

end Grammar

namespace Program

/-- The program that tokens spell, or their first fault; none if reading them never ends. -/
def ofTokens (tokens : List Token) : Option (Except SyntaxError Program) :=
  (Grammar.statements .finish (.plain tokens)).result

/-- All faults of a list of tokens, in order; none if reading them never ends. -/
def faults (tokens : List Token) : Option (List SyntaxError) :=
  match Grammar.statements .finish (.recovering tokens) with
  | .done _ s => some s.faults
  | .failed fault s => some (s.faults ++ [fault])
  | .endless => none

end Program

end DaiScript
