/-! Where printed text goes. -/
namespace DaiScript

/-- A sink takes a text or says why it does not. Its state may change either way, so it may have
kept a part of what it refuses. -/
class Sink where
  State : Type
  write : String → EStateM String State Unit

structure Buffer where
  printed : String
  /-- Why it takes no text; none while it does. -/
  blocked : Option String

namespace Buffer

def empty : Buffer := ⟨"", none⟩

scoped instance : Sink where
  State := Buffer
  write text b :=
    match b.blocked with
    | some message => .error message b
    | none => .ok () { b with printed := b.printed ++ text }

end Buffer

end DaiScript
