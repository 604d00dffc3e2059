/-! Paths and the files found at them. -/
namespace DaiScript

inductive Unreadable where
  | missing
  /-- The path leads to a folder. -/
  | folder
  /-- The path goes on behind a file. -/
  | behindFile
  | notText
  | other (message : String)

namespace Unreadable

def message : Unreadable → String
  | missing => "No such file or directory (os error 2)"
  | folder => "Is a directory (os error 21)"
  | behindFile => "Not a directory (os error 20)"
  | notText => "stream did not contain valid UTF-8"
  | other message => message

end Unreadable

namespace Path

def names (path : String) : List String :=
  (path.splitOn "/").filter fun part => part != "" && part != "."

/-- The part of the last name behind its last point. A point at the front opens no such part. -/
def extension? (path : String) : Option String := do
  let name ← (names path).getLast?
  match (name.splitOn ".").reverse with
  | ending :: first :: rest =>
    if name == ".." || (first == "" && rest.isEmpty) then none else some ending
  | _ => none

end Path

abbrev Files := String → Except Unreadable String

namespace Files

/-- The files of one folder without folders in it, as they are found from inside. Nothing else can
be read; a path of upward steps alone leads to a folder. -/
def ofFolder (folder : List (String × Except Unreadable String)) : Files := fun path =>
  match Path.names path with
  | [] => .error (if path == "" then .missing else .folder)
  | name :: rest =>
    if (name :: rest).all (· == "..") then .error .folder
    else if path.toList.head? == some '/' then .error .missing
    else
      match folder.lookup name with
      | none => .error .missing
      | some text =>
        if rest.isEmpty && (path.splitOn "/").getLast? == some name then text
        else .error .behindFile

end Files

end DaiScript
