import DaiScript.Evaluation
import DaiScript.Grammar.Statement
import DaiScript.Outcome
import DaiScript.Sink
import DaiScript.Source

/-! Running programs. A session keeps its scopes and its sink from one program to the next, and a
program that fails keeps what it did before. Running follows the tree but for loops: the number
`rounds` bounds how often a loop comes round, and a run that needs more rounds counts as endless. -/
namespace DaiScript

variable [Sink]

structure Session where
  scopes : Scopes
  sink : Sink.State

def Session.initial (sink : Sink.State) : Session := ⟨.initial, sink⟩

inductive Flow where
  | normal (value : Value)
  | leave (position : Position)
  | next (position : Position)

abbrev Running := Process Fault Session

namespace Running

def evaluate (evaluating : Evaluating α) : Running α := fun s =>
  match evaluating s.scopes with
  | .ok a scopes => .done a { s with scopes }
  | .error fault scopes => .failed fault { s with scopes }

def define (name : String) (value : Value) : Running Unit :=
  Process.modify fun s => { s with scopes := s.scopes.define name value }

def write (text : String) : Running Unit := fun s =>
  match Sink.write text s.sink with
  | .ok () sink => .done () { s with sink }
  | .error message sink => .failed (.output message) { s with sink }

/-- Runs in a scope of its own, which is closed however the run ends. -/
def inScope (run : Running α) : Running α := fun s =>
  (run { s with scopes := s.scopes.push }).mapState fun s => { s with scopes := s.scopes.pop }

/-- Comes round while the test holds. The value is that of the last round that ran to its end. -/
def repeatWhile (test : Running Value) (body : Running Flow) : Nat → Value → Running Flow
  | 0, _ => Process.endless
  | rounds + 1, value => do
    let holds ← test
    if holds.isTruthy then
      match ← body with
      | .normal value => repeatWhile test body rounds value
      | .next _ => repeatWhile test body rounds value
      | .leave _ => return .normal value
    else return .normal value

end Running

open Running

namespace Stmt

mutual

def exec (rounds : Nat) : Stmt → Running Flow
  | declare name value _ => do
    let value ←
      match value with
      | some e => evaluate e.eval
      | none => pure .null
    define name value
    return .normal value
  | expr e => do
    let value ← evaluate e.eval
    return .normal value
  | print arguments _ => do
    let values ← evaluate (Expr.evalAll arguments)
    write (String.intercalate " " (values.map Value.shown) ++ "\n")
    return .normal .null
  | branch test consequent alternate => do
    let holds ← evaluate test.eval
    if holds.isTruthy then consequent.exec rounds
    else
      match alternate with
      | some statement => statement.exec rounds
      | none => return .normal .null
  | loop test body => repeatWhile (evaluate test.eval) (body.exec rounds) rounds .null
  | block body => inScope (execAll rounds .null body)
  | leave p => return .leave p
  | next p => return .next p

/-- Runs statements in order until one leaves the sequence; `value` is the value so far. -/
def execAll (rounds : Nat) (value : Value) : List Stmt → Running Flow
  | [] => return .normal value
  | statement :: rest => do
    match ← statement.exec rounds with
    | .normal value => execAll rounds value rest
    | flow => return flow

end

end Stmt

namespace Program

/-- The value of the last statement. Loop control that no loop takes is a fault. -/
def exec (rounds : Nat) (program : Program) : Running Value := do
  match ← Stmt.execAll rounds .null program with
  | .normal value => return value
  | .leave p => Process.fail (.broken (.outsideLoop Keyword.vaiVayoRokki.spelling) (some p))
  | .next p => Process.fail (.broken (.outsideLoop Keyword.aghiBadhVai.spelling) (some p))

end Program

inductive Failure where
  | scan (error : ScanError)
  | parse (error : SyntaxError)
  | run (fault : Fault)
  deriving DecidableEq, Repr

namespace Failure

def message : Failure → String
  | scan error => error.message
  | parse error => error.message
  | run fault => fault.message

def category : Failure → Category
  | scan _ => .lexical
  | parse _ => .parse
  | run fault => fault.category

def position? : Failure → Option Position
  | scan error => some error.position
  | parse error => some error.position
  | run fault => fault.position?

end Failure

namespace Program

def ofSource (source : String) (marked : Bool) : Option (Except Failure Program) :=
  match Source.tokens source marked with
  | .error error => some (.error (.scan error))
  | .ok tokens => (ofTokens tokens).map (·.mapError .parse)

end Program

namespace Session

/-- Runs a program text. One that is no program leaves the session as it was. -/
def run (rounds : Nat) (source : String) (marked : Bool) : Process Failure Session Value := fun s =>
  match Program.ofSource source marked with
  | none => .endless
  | some (.error failure) => .failed failure s
  | some (.ok program) =>
    match program.exec rounds s with
    | .done value s => .done value s
    | .failed fault s => .failed (.run fault) s
    | .endless => .endless

end Session

end DaiScript
