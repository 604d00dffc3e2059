import DaiScript.Command.Conversation

/-! The command line: reads arguments, files and lines, and writes reports. -/
namespace DaiScript

open scoped Buffer

/-- The text of a file, or why it cannot be had. -/
def textOfFile (file : String) : IO (Except Unreadable String) := do
  try
    let bytes ← IO.FS.readBinFile file
    match String.fromUTF8? bytes with
    | some text => return .ok text
    | none => return .error .notText
  catch error =>
    match error with
    | .noFileOrDirectory .. => return .error .missing
    | .inappropriateType _ code _ => return .error (if code == 21 then .folder else .behindFile)
    | _ => return .error (.other (toString error))

def Command.file? : Command → Option String
  | run file _ | tokens file | tree file | check file => some file
  | _ => none

def say (stdout stderr : String) : IO Unit := do
  let channel ← IO.getStdout
  channel.putStr stdout
  channel.flush
  let channel ← IO.getStderr
  channel.putStr stderr
  channel.flush

/-- Answers lines as they come, until the conversation or the input ends. -/
partial def converse (s : Session) : IO Unit := do
  say Conversation.prompt ""
  let line ← (← IO.getStdin).getLine
  if line.isEmpty then return
  let (answer, s) := Conversation.reply s line
  say answer.stdout answer.stderr
  if answer.goesOn then converse s

end DaiScript

open DaiScript DaiScript.Buffer in
def main (arguments : List String) : IO UInt32 := do
  match Invocation.ofArguments? arguments with
  | none =>
    say "" "usage: run FILE [-d] | tokens FILE | ast FILE | check FILE | eval CODE | repl\n"
    return 2
  | some invocation =>
    match invocation.command with
    | .converse =>
      say Conversation.greeting ""
      converse (.initial Buffer.empty)
      return 0
    | command =>
      let content ←
        match command.file? with
        | some file => textOfFile file
        | none => pure (.ok "")
      let report := invocation.report fun _ => content
      say report.stdout report.stderr
      return report.code
