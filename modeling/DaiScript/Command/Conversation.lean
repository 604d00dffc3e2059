import DaiScript.Command.Basic

/-! Conversations: a session that answers line by line. A line that fails is reported and does not
end the conversation. -/
namespace DaiScript.Conversation

open scoped Buffer

def greeting : String := "=== Nepdai REPL ===\nType \"exit\" to quit\n\n"

def prompt : String := "nepdai> "

structure Reply where
  stdout : String
  stderr : String
  goesOn : Bool

/-- Answers one line. The session's sink is empty before and after. -/
def reply (s : Session) (line : String) : Reply × Session :=
  let text := String.ofList (Text.trim line.toList)
  if text == "" then (⟨"", "", true⟩, s)
  else if text == "exit" || text == "quit" then (⟨"Goodbye!\n", "", false⟩, s)
  else
    match Session.run ample text false s with
    | .done value s =>
      let shown := if value.isNull then "" else "=> " ++ value.shown ++ "\n"
      (⟨s.sink.printed ++ shown, "", true⟩, { s with sink := Buffer.empty })
    | .failed failure s => (⟨s.sink.printed, failure.report, true⟩, { s with sink := Buffer.empty })
    | .endless => (⟨"", "", false⟩, s)

def transcript (s : Session) : List String → String × String
  | [] => (prompt, "")
  | line :: lines =>
    let (answer, s) := reply s line
    if answer.goesOn then
      let (stdout, stderr) := transcript s lines
      (prompt ++ answer.stdout ++ stdout, answer.stderr ++ stderr)
    else (prompt ++ answer.stdout, answer.stderr)

def lines (input : String) : List String :=
  match (input.splitOn "\n").reverse with
  | "" :: rest => rest.reverse
  | all => all.reverse

end DaiScript.Conversation

namespace DaiScript.Invocation

open scoped Buffer

def reportOn (files : Files) (input : String) (i : Invocation) : Report :=
  match i.command with
  | .converse =>
    let (stdout, stderr) :=
      Conversation.transcript (.initial Buffer.empty) (Conversation.lines input)
    ⟨0, Conversation.greeting ++ stdout, stderr⟩
  | _ => i.report files

end DaiScript.Invocation
