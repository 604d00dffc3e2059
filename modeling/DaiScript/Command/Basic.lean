import DaiScript.Command.Files
import DaiScript.Outline.Tree
import DaiScript.Session
import DaiScript.Token.Table

/-! The commands of the command line. A command turns the files it reads into a report: an exit code
and the texts for the two output channels. -/
namespace DaiScript

open scoped Buffer

inductive Command where
  | run (file : String) (debug : Bool)
  | tokens (file : String)
  | tree (file : String)
  | check (file : String)
  | eval (code : String)
  | converse

structure Invocation where
  command : Command
  /-- Whether programs have to open with the entry phrase. -/
  marked : Bool
  /-- Whether a log was asked for. -/
  verbose : Bool

structure Report where
  code : UInt32
  stdout : String
  stderr : String

inductive Stop where
  | file (message : String)
  | program (failure : Failure)
  | faulty (count : Nat)
  | endless

/-- More rounds than any loop takes that ends. -/
def ample : Nat := Nat.pow 2 62

namespace Invocation

def split : List String → List String × List String
  | [] => ([], [])
  | "--" :: rest => ([], rest)
  | argument :: rest =>
    let (flags, others) := split rest
    match argument.toList with
    | '-' :: '-' :: _ => (argument :: flags, others)
    | '-' :: c :: letters =>
      ((c :: letters).map (fun c => "-" ++ c.toString) ++ flags, others)
    | _ => (flags, argument :: others)

def ofArguments? (arguments : List String) : Option Invocation :=
  let (flags, others) := split arguments
  let debug := flags.contains "-d" || flags.contains "--debug"
  let marked := !flags.contains "--no-entry-marker"
  let verbose := flags.contains "-v" || flags.contains "--verbose"
  let command? :=
    match others with
    | ["run", file] => some (Command.run file debug)
    | ["tokens", file] => some (.tokens file)
    | ["ast", file] => some (.tree file)
    | ["check", file] => some (.check file)
    | ["eval", code] => some (.eval code)
    | ["repl"] => some .converse
    | _ => none
  command?.map fun command => ⟨command, marked, verbose⟩

end Invocation

namespace Failure

def report (failure : Failure) : String :=
  "Error: " ++ failure.message ++ "\n" ++
    match failure.position? with
    | some p =>
      "At line " ++ toString p.line ++ ", column " ++ toString p.column ++ "\n"
    | none => ""

end Failure

namespace Stop

def report : Stop → String
  | file message => "Error: " ++ message ++ "\n"
  | program failure => failure.report
  | faulty count => "Found " ++ toString count ++ " syntax error(s).\n"
  | endless => ""

end Stop

structure Channels where
  stdout : String
  stderr : String

abbrev Working := EStateM Stop Channels

namespace Working

def put (text : String) : Working Unit := fun c => .ok () { c with stdout := c.stdout ++ text }

def complain (text : String) : Working Unit := fun c => .ok () { c with stderr := c.stderr ++ text }

def source (files : Files) (file : String) : Working String :=
  match files file with
  | .ok text => pure text
  | .error reason =>
    throw (.file ("Failed to read the input file '" ++ file ++ "': " ++ reason.message))

def scan (text : String) (marked : Bool) : Working (List Token) :=
  match Source.tokens text marked with
  | .ok tokens => pure tokens
  | .error error => throw (.program (.scan error))

def parse (tokens : List Token) : Working Program :=
  match Program.ofTokens tokens with
  | some (.ok program) => pure program
  | some (.error error) => throw (.program (.parse error))
  | none => throw .endless

def play (text : String) (marked : Bool) : Working Unit := do
  match Session.run ample text marked (.initial Buffer.empty) with
  | .done _ s => put s.sink.printed
  | .failed failure s =>
    put s.sink.printed
    throw (.program failure)
  | .endless => throw .endless

def explain (text : String) (marked : Bool) : Working Unit := do
  let tokens ← scan text marked
  put "=== Nepdai Debug Mode ===\n\n"
  put ("Source Code:\n" ++ text ++ "\n\n")
  put ("Tokens:\n" ++ Token.table tokens)
  let program ← parse tokens
  put ("\nAST:\n" ++ program.outline.render 0 ++ "\n\n")
  put "Output:\n"

end Working

open Working

def Command.work (files : Files) (marked : Bool) : Command → Working Unit
  | run file debug => do
    unless Path.extension? file == some "nepdai" do
      throw (.file "File must have .nepdai extension.")
    let text ← source files file
    if debug then explain text marked
    play text marked
  | tokens file => do
    let text ← source files file
    let tokens ← scan text marked
    put (Token.table tokens)
  | tree file => do
    let text ← source files file
    let tokens ← scan text marked
    let program ← parse tokens
    put (program.outline.render 0 ++ "\n")
  | check file => do
    let text ← source files file
    let tokens ← scan text marked
    match Program.faults tokens with
    | none => throw .endless
    | some [] => put (file ++ ": no syntax errors\n")
    | some faults =>
      for fault in faults do
        complain (file ++ ":" ++ fault.position.shown ++ ": " ++ fault.message ++ "\n")
      throw (.faulty faults.length)
  | eval code => play code false
  | converse => pure ()

namespace Invocation

def report (files : Files) (i : Invocation) : Report :=
  match i.command.work files i.marked ⟨"", ""⟩ with
  | .ok () c => ⟨0, c.stdout, c.stderr⟩
  | .error stop c => ⟨1, c.stdout, c.stderr ++ stop.report⟩

end Invocation

end DaiScript
