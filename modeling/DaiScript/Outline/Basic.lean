/-! Indented outlines of nested data. A group without items stands on one line; any other group
gives every item a line of its own, which a comma ends. -/
namespace DaiScript

inductive Outline where
  | leaf (text : String)
  | labelled (label : String) (inner : Outline)
  | group (opening : String) (items : List Outline) (closing : String)

namespace Outline

def record (name : String) (fields : List Outline) : Outline :=
  group (name ++ " \x7b") fields "\x7d"

def tagged (name : String) (inner : Outline) : Outline :=
  group (name ++ "(") [inner] ")"

def list (items : List Outline) : Outline :=
  group "[" items "]"

def margin (depth : Nat) : String :=
  String.ofList (List.replicate (4 * depth) ' ')

mutual

def render (depth : Nat) : Outline → String
  | leaf text => text
  | labelled label inner => label ++ ": " ++ render depth inner
  | group opening items closing =>
    match items with
    | [] => opening ++ closing
    | first :: rest =>
      opening ++ "\n" ++ renderItems (depth + 1) (first :: rest) ++ margin depth ++ closing

def renderItems (depth : Nat) : List Outline → String
  | [] => ""
  | item :: items => margin depth ++ render depth item ++ ",\n" ++ renderItems depth items

end

def quoted (text : String) : Outline :=
  let escape (c : Char) : List Char :=
    if c = '"' then ['\\', '"']
    else if c = '\\' then ['\\', '\\']
    else if c = '\n' then ['\\', 'n']
    else if c = '\r' then ['\\', 'r']
    else if c = '\t' then ['\\', 't']
    else if c = '\x00' then ['\\', '0']
    else [c]
  leaf ("\"" ++ String.ofList (text.toList.flatMap escape) ++ "\"")

end Outline

end DaiScript
