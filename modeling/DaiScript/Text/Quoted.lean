import DaiScript.Text.Blank

/-! The inside of a string literal. A backslash takes the next character with it: `n`, `t` and `r`
name control characters and every other character stands for itself, so the writer may escape both
quotes whatever quote surrounds the text. -/
namespace DaiScript.Text.Quoted

def unescape (c : Char) : Char :=
  if c = 'n' then '\n' else if c = 't' then '\t' else if c = 'r' then '\r' else c

def escape (c : Char) : List Char :=
  if c = '\\' then ['\\', '\\']
  else if c = '"' then ['\\', '"']
  else if c = '\'' then ['\\', '\'']
  else if c = '\n' then ['\\', 'n']
  else if c = '\r' then ['\\', 'r']
  else if c = '\t' then ['\\', 't']
  else [c]

def encode (text : List Char) : List Char :=
  text.flatMap escape

/-- Reads up to the first `quote` that no backslash takes: the decoded text, and how many characters
were read, the closing quote included. There is none if the input ends first. `taken` tells that
the character before was such a backslash. -/
def scan (quote : Char) : Bool → List Char → Option (List Char × Nat)
  | _, [] => none
  | true, c :: rest =>
    (scan quote false rest).map fun (text, used) => (unescape c :: text, used + 1)
  | false, c :: rest =>
    if c = quote then some ([], 1)
    else if c = '\\' then (scan quote true rest).map fun (text, used) => (text, used + 1)
    else (scan quote false rest).map fun (text, used) => (c :: text, used + 1)

def decode (quote : Char) (text : List Char) : Option (List Char × Nat) :=
  scan quote false text

/-- Reading undoes writing inside either quote, and stops right behind the closing one. -/
theorem decode_encode {quote : Char} (h : isQuote quote) (text rest : List Char) :
    decode quote (encode text ++ quote :: rest) = some (text, (encode text).length + 1) := by
  have slash : ('\\' : Char) ≠ quote := by rintro rfl; revert h; decide
  unfold decode
  induction text with
  | nil => simp [encode, scan]
  | cons c text ih =>
    have unfolded : encode (c :: text) = escape c ++ encode text := rfl
    by_cases special : (escape c).length = 1
    · have plain : escape c = [c] := by grind [escape]
      have notSlash : c ≠ '\\' := by rintro rfl; simp [escape] at special
      have notQuote : c ≠ quote := by
        rintro rfl
        simp only [isQuote, Bool.or_eq_true, beq_iff_eq] at h
        rcases h with rfl | rfl <;> simp [escape] at special
      simp [unfolded, plain, scan, notQuote, notSlash, ih]
    · obtain ⟨e, escaped, meaning⟩ : ∃ e, escape c = ['\\', e] ∧ unescape e = c := by
        grind [escape, unescape]
      simp [unfolded, escaped, scan, slash, ih, meaning]

end DaiScript.Text.Quoted
