import Mathlib
import DaiScript.Source

/-! Which stretches of a text are the source of which lexeme. The relation `Denotes` knows no order
of attempts: it says what the source of a lexeme looks like. The pieces that are cut from a text are
then compared with everything else that could start at the same place. -/
namespace DaiScript.Source

open Text

/-- The characters between two quotes, and the text that they stand for. -/
inductive Inside (quote : Char) : List Char → List Char → Prop
  | nil : Inside quote [] []
  | plain {c : Char} {body value : List Char} :
      c ≠ quote → c ≠ '\\' → Inside quote body value → Inside quote (c :: body) (c :: value)
  | escaped {c : Char} {body value : List Char} :
      Inside quote body value → Inside quote ('\\' :: c :: body) (Quoted.unescape c :: value)

inductive Trails : List String → List Char → Prop
  | nil : Trails [] []
  | cons {blanks text : List Char} {word : String} {words : List String} :
      blanks ≠ [] → (∀ b ∈ blanks, isBlank b = true) → Trails words text →
      Trails (word :: words) (blanks ++ (word.toList ++ text))

def Apart (rest : List Char) : Prop := ∀ c ∈ rest.head?, isWordPart c = false

/-- `span`, in front of `rest`, is the source of the lexeme. -/
inductive Denotes : (span rest : List Char) → Lexeme → Prop
  | newline {rest : List Char} : Denotes ['\n'] rest .newline
  | whole {digits rest : List Char} :
      digits ≠ [] → (∀ d ∈ digits, d.isDigit = true) →
      Denotes digits rest
        ⟨.number, some (.number (.ofDecimal digits [])), String.ofList digits⟩
  | fraction {digits decimals rest : List Char} :
      digits ≠ [] → (∀ d ∈ digits, d.isDigit = true) →
      decimals ≠ [] → (∀ d ∈ decimals, d.isDigit = true) →
      Denotes (digits ++ '.' :: decimals) rest
        ⟨.number, some (.number (.ofDecimal digits decimals)),
          String.ofList (digits ++ '.' :: decimals)⟩
  | text {quote : Char} {body value rest : List Char} :
      isQuote quote = true → Inside quote body value →
      Denotes (quote :: body ++ [quote]) rest
        ⟨.text, some (.text (String.ofList value)),
          String.ofList (quote :: Quoted.encode value ++ [quote])⟩
  | name {c : Char} {more rest : List Char} :
      isWordStart c = true → (∀ d ∈ more, isWordPart d = true) →
      (∀ k : Keyword, k.words ≠ [String.ofList (c :: more)]) →
      Denotes (c :: more) rest
        ⟨.name, some (.name (String.ofList (c :: more))), String.ofList (c :: more)⟩
  /-- A keyword is made of whole words. -/
  | keyword {k : Keyword} {word : String} {words : List String} {tail rest : List Char} :
      k.words = word :: words → Trails words tail → Apart rest →
      Denotes (word.toList ++ tail) rest (.keyword k)
  | symbol {s : Symbol} {rest : List Char} : Denotes s.spelling.toList rest (.symbol s)

/-! ### Strings -/

theorem Inside.decode {quote : Char} {body value : List Char} (h : Inside quote body value)
    (slash : '\\' ≠ quote) (rest : List Char) :
    Quoted.decode quote (body ++ quote :: rest) = some (value, body.length + 1) := by
  unfold Quoted.decode
  induction h with
  | nil => simp [Quoted.scan]
  | plain other other' _ ih => simp [Quoted.scan, other, other', ih]
  | escaped _ ih => simp [Quoted.scan, slash, ih]

theorem inside_of_scan {quote : Char} {taken : Bool} {text value : List Char} {used : Nat}
    (h : Quoted.scan quote taken text = some (value, used)) :
    ∃ body rest, text = body ++ quote :: rest ∧ used = body.length + 1 ∧
      Inside quote (if taken then '\\' :: body else body) value := by
  fun_induction Quoted.scan quote taken text generalizing value used with
  | case1 => simp at h
  | case2 c text ih =>
    simp only [Option.map_eq_some_iff, Prod.exists, Prod.mk.injEq] at h
    obtain ⟨value', used', run, rfl, rfl⟩ := h
    obtain ⟨body, rest, rfl, rfl, inside⟩ := ih run
    exact ⟨c :: body, rest, rfl, rfl, .escaped inside⟩
  | case3 text =>
    simp only [Option.some.injEq, Prod.mk.injEq] at h
    obtain ⟨rfl, rfl⟩ := h
    exact ⟨[], text, rfl, rfl, .nil⟩
  | case4 text other ih =>
    simp only [Option.map_eq_some_iff, Prod.exists, Prod.mk.injEq] at h
    obtain ⟨value', used', run, rfl, rfl⟩ := h
    obtain ⟨body, rest, rfl, rfl, inside⟩ := ih run
    exact ⟨'\\' :: body, rest, rfl, rfl, inside⟩
  | case5 c text other other' ih =>
    simp only [Option.map_eq_some_iff, Prod.exists, Prod.mk.injEq] at h
    obtain ⟨value', used', run, rfl, rfl⟩ := h
    obtain ⟨body, rest, rfl, rfl, inside⟩ := ih run
    exact ⟨c :: body, rest, rfl, rfl, .plain other other' inside⟩

/-! ### Words -/

theorem exists_front (p : Char → Bool) (text : List Char) :
    ∃ body rest, text = body ++ rest ∧ (∀ c ∈ body, p c = true) ∧
    ∀ c ∈ rest.head?, p c = false := by
  refine ⟨text.takeWhile p, text.dropWhile p, List.takeWhile_append_dropWhile.symm,
    List.all_eq_true.mp List.all_takeWhile, ?_⟩
  intro c first
  have outside := List.head?_dropWhile_not p text
  rwa [Option.mem_def.mp first] at outside

theorem takeWhile_of_front {p : Char → Bool} {body rest : List Char}
    (inside : ∀ c ∈ body, p c = true) (outside : ∀ c ∈ rest.head?, p c = false) :
    (body ++ rest).takeWhile p = body := by
  rw [List.takeWhile_append_of_pos inside]
  cases rest with
  | nil => simp
  | cons c rest => simp [outside c rfl]

theorem not_isWordPart_of_isBlank {c : Char} (h : isBlank c = true) : isWordPart c = false := by
  simp only [isBlank, Bool.or_eq_true, beq_iff_eq] at h
  rcases h with ((rfl | rfl) | rfl) | rfl <;> decide

theorem not_isBlank_of_isWordPart {c : Char} (h : isWordPart c = true) : isBlank c = false := by
  cases blank : isBlank c with
  | false => rfl
  | true => rw [not_isWordPart_of_isBlank blank] at h; contradiction

theorem isWord_of_mem_words {k : Keyword} {word : String} (h : word ∈ k.words) :
    ∃ c more, word.toList = c :: more ∧ isWordStart c = true ∧ ∀ d ∈ more, isWordPart d = true := by
  have proper : k.words.all (fun w => w.toList.head?.any isWordStart && w.toList.all isWordPart) =
      true := by
    cases k <;> decide
  rw [List.all_eq_true] at proper
  have this := proper word h
  cases text : word.toList with
  | nil => simp [text] at this
  | cons c more =>
    simp only [text, List.head?_cons, Option.any_some, Bool.and_eq_true, List.all_cons,
      List.all_eq_true] at this
    exact ⟨c, more, rfl, this.1, this.2.2⟩

theorem isWordPart_of_isWordStart {c : Char} (h : isWordStart c = true) : isWordPart c = true := by
  simp only [isWordStart, isWordPart, Char.isAlphanum, Bool.or_eq_true] at *
  exact h.imp_left .inl

theorem takeWhile_append_drop (p : Char → Bool) (text : List Char) :
    text.takeWhile p ++ text.drop (text.takeWhile p).length = text := by
  have front := List.takeWhile_prefix (l := text) p
  exact List.prefix_iff_eq_append.mp front

theorem trails_of_wordsLength? {words : List String} {text : List Char} {used : Nat}
    (h : wordsLength? words text = some used) :
    ∃ tail rest, text = tail ++ rest ∧ tail.length = used ∧ Trails words tail ∧ Apart rest := by
  induction words generalizing text used with
  | nil =>
    unfold wordsLength? at h
    split at h
    · cases h
    · next apart =>
      cases h
      refine ⟨[], text, rfl, rfl, .nil, ?_⟩
      intro c first
      simpa [Option.mem_def.mp first] using apart
  | cons word words ih =>
    simp only [wordsLength?] at h
    split at h
    · cases h
    · next someBlank =>
      split at h
      · next front =>
        obtain ⟨used', run, rfl⟩ := Option.map_eq_some_iff.mp h
        obtain ⟨tail, rest, shape, rfl, trails, apart⟩ := ih run
        have spelled := List.prefix_iff_eq_append.mp (List.isPrefixOf_iff_prefix.mp front)
        rw [String.length_toList, shape] at spelled
        refine ⟨text.takeWhile isBlank ++ (word.toList ++ tail), rest, ?_, ?_, ?_, apart⟩
        · rw [List.append_assoc, List.append_assoc, spelled, takeWhile_append_drop]
        · simp only [List.length_append, String.length_toList]
          omega
        · apply Trails.cons _ _ trails
          · exact fun none => someBlank (by rw [none]; rfl)
          · exact List.all_eq_true.mp List.all_takeWhile
      · cases h

theorem Trails.wordsLength? {words : List String} {tail rest : List Char} (h : Trails words tail)
    (proper : ∀ w ∈ words, ∃ c more, w.toList = c :: more ∧ isWordPart c = true)
    (apart : Apart rest) : wordsLength? words (tail ++ rest) = some tail.length := by
  induction h with
  | nil =>
    unfold Source.wordsLength?
    cases rest with
    | nil => rfl
    | cons c rest => simp [apart c rfl]
  | @cons blanks text word words someBlank blank _ ih =>
    obtain ⟨c, more, spelled, part⟩ := proper word (by simp)
    have further := ih fun w hw => proper w (by simp [hw])
    have gap : (blanks ++ (word.toList ++ (text ++ rest))).takeWhile isBlank = blanks := by
      apply takeWhile_of_front blank
      intro first found
      rw [spelled] at found
      cases found
      exact not_isBlank_of_isWordPart part
    have front : word.toList.isPrefixOf (word.toList ++ (text ++ rest)) = true := by
      rw [List.isPrefixOf_iff_prefix]
      exact List.prefix_append _ _
    have onward : (word.toList ++ (text ++ rest)).drop word.length = text ++ rest := by
      rw [← String.length_toList, List.drop_left]
    have positive : blanks.length ≠ 0 := by simpa using someBlank
    simp only [Source.wordsLength?, List.append_assoc, gap, positive, List.drop_left, front, onward,
      further, if_true, if_false, Option.map_some, List.length_append, String.length_toList]
    rw [Nat.add_assoc]

theorem keyword?_eq_some {word text : List Char} {k : Keyword} {used : Nat}
    (h : keyword? word text = some (k, used)) :
    ∃ first more, k.words = first :: more ∧ first.toList = word ∧
      wordsLength? more text = some used := by
  obtain ⟨k', -, found⟩ := List.exists_of_findSome?_eq_some h
  split at found
  · next first more words =>
    split at found
    · next same =>
      obtain ⟨used', run, pair⟩ := Option.map_eq_some_iff.mp found
      cases pair
      exact ⟨first, more, words, same, run⟩
    · cases found
  · cases found

theorem wordsLength?_eq_none {word text : List Char} (h : keyword? word text = none) {k : Keyword}
    {first : String} {more : List String} (words : k.words = first :: more)
    (same : first.toList = word) : wordsLength? more text = none := by
  have missing := List.findSome?_eq_none_iff.mp h k k.mem_all
  simpa [words, same] using missing

private theorem eq_of_head_words {k k' : Keyword} (h : k.words.head? = k'.words.head?) :
    k = k' := by
  revert h
  cases k <;> cases k' <;> decide

inductive Class where
  | line
  | digit
  | letter
  | quote
  | other
  deriving DecidableEq

def Class.of (c : Char) : Class :=
  if c = '\n' then .line
  else if c.isDigit then .digit
  else if isWordStart c then .letter
  else if isQuote c then .quote
  else .other

def Class.ofKind : Kind → Class
  | .newline => .line
  | .number => .digit
  | .name | .keyword _ => .letter
  | .text => .quote
  | .symbol _ | .finish => .other

theorem Class.of_isDigit {c : Char} (h : c.isDigit = true) : Class.of c = .digit := by
  have other : c ≠ '\n' := by rintro rfl; exact absurd h (by decide)
  rw [Class.of, if_neg other, if_pos h]

theorem Class.of_isWordStart {c : Char} (h : isWordStart c = true) : Class.of c = .letter := by
  have other : c ≠ '\n' := by rintro rfl; exact absurd h (by decide)
  have digit : ¬c.isDigit = true := by
    intro digit
    simp only [isWordStart, Char.isAlpha, Char.isUpper, Char.isLower, Char.isDigit, Bool.or_eq_true,
      Bool.and_eq_true, decide_eq_true_eq, beq_iff_eq, ge_iff_le] at h digit
    rcases h with (bounds | bounds) | rfl
    · exact absurd (UInt32.le_trans bounds.1 digit.2) (by decide)
    · exact absurd (UInt32.le_trans bounds.1 digit.2) (by decide)
    · exact absurd digit.2 (by decide)
  rw [Class.of, if_neg other, if_neg digit, if_pos h]

theorem Class.of_isQuote {c : Char} (h : isQuote c = true) : Class.of c = .quote := by
  simp only [isQuote, Bool.or_eq_true, beq_iff_eq] at h
  rcases h with rfl | rfl <;> decide

theorem Denotes.class_eq {c : Char} {span rest more : List Char} {l : Lexeme}
    (h : Denotes span rest l) (shape : span = c :: more) : Class.of c = .ofKind l.kind := by
  cases h with
  | newline => cases shape; rfl
  | whole _ digit => exact Class.of_isDigit (digit c (by rw [shape]; simp))
  | @fraction digits _ _ some digit =>
    cases digits with
    | nil => exact absurd rfl some
    | cons d digits => cases shape; exact Class.of_isDigit (digit c (by simp))
  | text quote _ => cases shape; exact Class.of_isQuote quote
  | name start _ _ => cases shape; exact Class.of_isWordStart start
  | @keyword k word words _ _ hk _ _ =>
    have member : word ∈ k.words := by rw [hk]; simp
    obtain ⟨first, rest, spelled, start, -⟩ := isWord_of_mem_words member
    rw [spelled] at shape
    cases shape
    exact Class.of_isWordStart start
  | @symbol s => cases s <;> (cases shape; rfl)

/-! ### The piece at the front of a text -/

/-- Nothing that starts at the same place is longer. -/
def Longest (span rest : List Char) : Prop :=
  ∀ span' rest' l, Denotes span' rest' l → span' ++ rest' = span ++ rest →
    span'.length ≤ span.length

/-- The longest token at the front of `c :: text` takes `used` characters of `text`. -/
structure Foremost (c : Char) (text : List Char) (used : Nat) (l : Lexeme) : Prop where
  denotes : Denotes (c :: text.take used) (text.drop used) l
  longest : Longest (c :: text.take used) (text.drop used)

theorem foremost_of_length {c : Char} {text : List Char} {used : Nat} {l : Lexeme}
    (span rest : List Char) (whole : span ++ rest = c :: text) (length : span.length = used + 1)
    (h : Denotes span rest l)
    (bound : ∀ span' rest' l', Denotes span' rest' l' → span' ++ rest' = c :: text →
      span'.length ≤ used + 1) : Foremost c text used l := by
  cases span with
  | nil => simp at length
  | cons d more =>
    rw [List.cons_append, List.cons.injEq] at whole
    obtain ⟨rfl, rfl⟩ := whole
    rw [List.length_cons, Nat.add_right_cancel_iff] at length
    subst length
    constructor
    · rwa [List.take_left, List.drop_left]
    · rw [List.take_left, List.drop_left]
      exact bound

theorem length_le_takeWhile {p : Char → Bool} {body : List Char} (inside : ∀ c ∈ body, p c = true)
    (rest : List Char) : body.length ≤ ((body ++ rest).takeWhile p).length := by
  rw [List.takeWhile_append_of_pos inside, List.length_append]
  omega

theorem Denotes.ne_nil {span rest : List Char} {l : Lexeme} (h : Denotes span rest l) :
    span ≠ [] := by
  cases h with
  | whole some _ => exact some
  | @keyword k word words _ _ hk _ _ =>
    have member : word ∈ k.words := by rw [hk]; simp
    obtain ⟨first, rest, spelled, -⟩ := isWord_of_mem_words member
    simp [spelled]
  | @symbol s => cases s <;> decide
  | _ => simp

theorem Denotes.class_of_append {c : Char} {span rest text : List Char} {l : Lexeme}
    (h : Denotes span rest l) (whole : span ++ rest = c :: text) : .ofKind l.kind = Class.of c := by
  cases span with
  | nil => exact absurd rfl h.ne_nil
  | cons d more =>
    cases whole
    exact (h.class_eq rfl).symm

/-! #### Numbers -/

theorem exists_of_fraction_ne_nil {text : List Char} (h : fraction text ≠ []) :
    ∃ rest, text = '.' :: rest := by
  unfold fraction at h
  split at h
  · exact ⟨_, rfl⟩
  · exact absurd rfl h

section

variable {c : Char} {digits rest : List Char} (digit : c.isDigit = true)
  (inside : ∀ d ∈ digits, d.isDigit = true) (outside : ∀ d ∈ rest.head?, d.isDigit = false)

include inside outside in
theorem number_append :
    number c (digits ++ rest) =
      if fraction rest = [] then
        (digits.length,
          ⟨.number, some (.number (.ofDecimal (c :: digits) [])), String.ofList (c :: digits)⟩)
      else (digits.length + 1 + (fraction rest).length,
        ⟨.number, some (.number (.ofDecimal (c :: digits) (fraction rest))),
          String.ofList (c :: digits ++ '.' :: fraction rest)⟩) := by
  have first : (digits ++ rest).takeWhile Char.isDigit = digits := takeWhile_of_front inside outside
  have behind : (digits ++ rest).dropWhile Char.isDigit = rest := by
    rw [List.dropWhile_append_of_pos inside]
    cases rest with
    | nil => rfl
    | cons d rest => simp [outside d rfl]
  simp only [number, first, behind]
  by_cases empty : fraction rest = []
  · simp [empty]
  · simp only [List.isEmpty_iff, empty, if_false, List.length_append, List.length_cons]
    congr 1

include digit inside outside

private theorem takeWhile_digits :
    (c :: (digits ++ rest)).takeWhile Char.isDigit = c :: digits := by
  have all : ∀ d ∈ c :: digits, d.isDigit = true := by simpa [digit] using inside
  exact takeWhile_of_front all outside

private theorem length_le_number (span rest' : List Char) (l : Lexeme) (h : Denotes span rest' l)
    (whole : span ++ rest' = c :: (digits ++ rest)) :
    span.length ≤ (number c (digits ++ rest)).1 + 1 := by
  have same := h.class_of_append whole
  have front := takeWhile_digits digit inside outside
  rw [Class.of_isDigit digit] at same
  rw [number_append inside outside]
  cases h with
  | whole _ all' =>
    have bound := length_le_takeWhile all' rest'
    rw [whole, front, List.length_cons] at bound
    split <;> simp only <;> omega
  | @fraction digits' decimals _ _ all' some' decimal =>
    rw [List.append_assoc, List.cons_append] at whole
    have front' : (digits' ++ '.' :: (decimals ++ rest')).takeWhile Char.isDigit = digits' :=
      takeWhile_of_front all' (by rintro _ ⟨⟩; rfl)
    rw [whole, front] at front'
    subst front'
    have behind := List.append_cancel_left whole
    have bound := length_le_takeWhile decimal rest'
    have found : (fraction rest).length = ((decimals ++ rest').takeWhile Char.isDigit).length := by
      rw [← behind]
      rfl
    have some'' := List.length_pos_iff.mpr some'
    have ne : fraction rest ≠ [] := by
      rw [← List.length_pos_iff]
      omega
    rw [if_neg ne]
    simp only [List.length_append, List.length_cons]
    omega
  | _ => cases same

private theorem foremost_number :
    Foremost c (digits ++ rest) (number c (digits ++ rest)).1 (number c (digits ++ rest)).2 := by
  have bound := length_le_number digit inside outside
  have all : ∀ d ∈ c :: digits, d.isDigit = true := by simpa [digit] using inside
  rw [number_append inside outside] at bound ⊢
  split
  · next empty =>
    rw [if_pos empty] at bound
    exact foremost_of_length (c :: digits) rest rfl rfl (.whole (by simp) all) bound
  · next some =>
    rw [if_neg some] at bound
    obtain ⟨behind, rfl⟩ := exists_of_fraction_ne_nil some
    have decimal : ∀ d ∈ fraction ('.' :: behind), d.isDigit = true :=
      List.all_eq_true.mp List.all_takeWhile
    have whole : c :: digits ++ '.' :: fraction ('.' :: behind) ++
        behind.drop (fraction ('.' :: behind)).length = c :: (digits ++ '.' :: behind) := by
      have front := takeWhile_append_drop Char.isDigit behind
      simp only [List.cons_append, List.append_assoc, fraction, front]
    apply foremost_of_length _ _ whole _ (.fraction (by simp) all some decimal) bound
    simp only [List.length_append, List.length_cons]
    omega

end

/-! #### Words -/

theorem Trails.not_isWordPart {words : List String} {tail rest : List Char} (h : Trails words tail)
    (apart : Apart rest) : ∀ c ∈ (tail ++ rest).head?, isWordPart c = false := by
  cases h with
  | nil => exact apart
  | @cons blanks _ _ _ some blank _ =>
    cases blanks with
    | nil => exact absurd rfl some
    | cons b blanks =>
      rintro _ ⟨⟩
      exact not_isWordPart_of_isBlank (blank b (by simp))

section

variable {c : Char} {more rest : List Char} (start : isWordStart c = true)
  (inside : ∀ d ∈ more, isWordPart d = true) (apart : Apart rest)

include inside apart in
theorem word_of_some {k : Keyword} {used : Nat}
    (found : keyword? (c :: more) rest = some (k, used)) :
    word c (more ++ rest) = (more.length + used, .keyword k) := by
  have first : (more ++ rest).takeWhile isWordPart = more := takeWhile_of_front inside apart
  simp only [word, first, List.drop_left, found]

include inside apart in
theorem word_of_none (found : keyword? (c :: more) rest = none) :
    word c (more ++ rest) = (more.length,
      ⟨.name, some (.name (String.ofList (c :: more))), String.ofList (c :: more)⟩) := by
  have first : (more ++ rest).takeWhile isWordPart = more := takeWhile_of_front inside apart
  simp only [word, first, List.drop_left, found]

include inside apart in
theorem le_word (c : Char) : more.length ≤ (word c (more ++ rest)).1 := by
  cases found : keyword? (c :: more) rest with
  | none => simp [word_of_none inside apart found]
  | some pair => simp [word_of_some inside apart found]

include start inside apart

theorem takeWhile_word : (c :: (more ++ rest)).takeWhile isWordPart = c :: more := by
  have all : ∀ d ∈ c :: more, isWordPart d = true := by
    simpa [isWordPart_of_isWordStart start] using inside
  exact takeWhile_of_front all apart

/-- A keyword at the front starts with the whole word there. -/
theorem keyword_at_front {k : Keyword} {word' : String} {words : List String}
    {tail rest' : List Char} (hk : k.words = word' :: words) (trails : Trails words tail)
    (apart' : Apart rest') (whole : word'.toList ++ tail ++ rest' = c :: (more ++ rest)) :
    word'.toList = c :: more ∧ keyword? (c :: more) rest = some (k, tail.length) := by
  have member : word' ∈ k.words := by rw [hk]; simp
  obtain ⟨d, others, spelled, start', inside'⟩ := isWord_of_mem_words member
  have all' : ∀ e ∈ word'.toList, isWordPart e = true := by
    rw [spelled]
    simpa [isWordPart_of_isWordStart start'] using inside'
  have front := takeWhile_word start inside apart
  have front' : (word'.toList ++ (tail ++ rest')).takeWhile isWordPart = word'.toList :=
    takeWhile_of_front all' (trails.not_isWordPart apart')
  rw [List.append_assoc] at whole
  rw [whole] at front'
  have same : word'.toList = c :: more := front'.symm.trans front
  rw [same] at whole
  have behind := List.append_cancel_left (whole : c :: more ++ (tail ++ rest') = c :: more ++ rest)
  refine ⟨same, ?_⟩
  have proper : ∀ w ∈ words, ∃ c more, w.toList = c :: more ∧ isWordPart c = true := by
    intro w hw
    have member : w ∈ k.words := by rw [hk]; simp [hw]
    obtain ⟨e, rest, spelled, start, -⟩ := isWord_of_mem_words member
    exact ⟨e, rest, spelled, isWordPart_of_isWordStart start⟩
  have length := trails.wordsLength? proper apart'
  rw [behind] at length
  cases found : keyword? (c :: more) rest with
  | none =>
    rw [wordsLength?_eq_none found hk same] at length
    cases length
  | some pair =>
    obtain ⟨k', used⟩ := pair
    obtain ⟨first, more', hk', same', length'⟩ := keyword?_eq_some found
    have equal : first = word' := String.toList_inj.mp (same'.trans same.symm)
    -- No two keywords share their first word.
    have unique : k' = k := eq_of_head_words (by rw [hk, hk', equal]; rfl)
    subst unique
    rw [hk, List.cons.injEq] at hk'
    rw [← hk'.2, length] at length'
    cases length'
    rfl

private theorem length_le_word (span rest' : List Char) (l : Lexeme) (h : Denotes span rest' l)
    (whole : span ++ rest' = c :: (more ++ rest)) :
    span.length ≤ (word c (more ++ rest)).1 + 1 := by
  have same := h.class_of_append whole
  have front := takeWhile_word start inside apart
  rw [Class.of_isWordStart start] at same
  cases h with
  | @name d more' _ start' inside' _ =>
    have all' : ∀ e ∈ d :: more', isWordPart e = true := by
      simpa [isWordPart_of_isWordStart start'] using inside'
    have bound := length_le_takeWhile all' rest'
    rw [whole, front] at bound
    have least := le_word inside apart c
    simp only [List.length_cons] at bound ⊢
    omega
  | keyword hk trails apart' =>
    obtain ⟨spelled, found⟩ := keyword_at_front start inside apart hk trails apart' whole
    rw [word_of_some inside apart found, spelled]
    simp only [List.length_append, List.length_cons]
    omega
  | _ => cases same

theorem foremost_word :
    Foremost c (more ++ rest) (word c (more ++ rest)).1 (word c (more ++ rest)).2 := by
  have bound := length_le_word start inside apart
  cases found : keyword? (c :: more) rest with
  | none =>
    rw [word_of_none inside apart found] at bound ⊢
    apply foremost_of_length (c :: more) rest rfl rfl (.name start inside _) bound
    intro k words
    have missing := wordsLength?_eq_none found words (by simp)
    have present : wordsLength? [] ([] ++ rest) = some 0 := Trails.nil.wordsLength? (by simp) apart
    rw [List.nil_append, missing] at present
    cases present
  | some pair =>
    rw [word_of_some inside apart found] at bound ⊢
    obtain ⟨first, words, hk, same, length⟩ := keyword?_eq_some found
    obtain ⟨tail, rest', rfl, used, trails, apart'⟩ := trails_of_wordsLength? length
    have denotes := Denotes.keyword hk trails apart'
    apply foremost_of_length _ rest' _ _ denotes bound
    · simp [same]
    · simp only [same, List.length_append, List.length_cons]
      omega

end

/-! #### Strings and symbols -/

private theorem foremost_string {c : Char} {text : List Char} {used : Nat} {l : Lexeme}
    (quote : isQuote c = true) (h : string? c text = some (used, l)) : Foremost c text used l := by
  have slash : '\\' ≠ c := by rintro rfl; exact absurd quote (by decide)
  obtain ⟨⟨value, used⟩, run, pair⟩ := Option.map_eq_some_iff.mp h
  cases pair
  obtain ⟨body, rest, rfl, rfl, inside⟩ := inside_of_scan run
  apply foremost_of_length (c :: body ++ [c]) rest (by simp) (by simp) (.text quote inside)
  intro span rest' l' h' whole
  have same := h'.class_of_append whole
  rw [Class.of_isQuote quote] at same
  cases h' with
  | @text quote' body' value' _ _ inside' =>
    have shape : quote' = c ∧ body' ++ quote' :: rest' = body ++ c :: rest := by simpa using whole
    obtain ⟨rfl, shape⟩ := shape
    have run' := inside'.decode slash rest'
    rw [shape, run] at run'
    simp only [Option.some.injEq, Prod.mk.injEq] at run'
    simp only [List.length_append, List.length_cons, List.length_nil]
    omega
  | _ => cases same

private theorem foremost_symbol {c : Char} {text : List Char} {used : Nat} {l : Lexeme}
    (other : Class.of c = .other) (h : symbol? c text = some (used, l)) :
    Foremost c text used l := by
  -- Of all that starts here only a pair of characters can be longer than `c` alone.
  have bound : ∀ span rest l', Denotes span rest l' → span ++ rest = c :: text →
      span.length ≤ 1 ∨ span.length = 2 ∧ ∃ d s, text.head? = some d ∧
        Symbol.pair? c d = some s := by
    intro span rest l' h' whole
    have same := h'.class_of_append whole
    rw [other] at same
    cases h' with
    | @symbol s =>
      obtain ⟨d, spelled⟩ | ⟨d, e, spelled⟩ := s.exists_spelling
      · exact .inl (by simp [spelled])
      · rw [spelled] at whole ⊢
        cases whole
        exact .inr ⟨rfl, e, s, rfl, Symbol.pair?_eq_some.mpr spelled⟩
    | _ => cases same
  unfold symbol? at h
  split at h
  · next s found =>
    cases h
    obtain ⟨d, first, pair⟩ := Option.bind_eq_some_iff.mp found
    obtain ⟨rest, rfl⟩ := List.head?_eq_some_iff.mp first
    have spelled := Symbol.pair?_eq_some.mp pair
    apply foremost_of_length _ rest (by rw [spelled]; rfl) (by rw [spelled]; rfl) .symbol
    intro span rest' l' h' whole
    have := bound span rest' l' h' whole
    omega
  · next missing =>
    obtain ⟨s, single, pair⟩ := Option.map_eq_some_iff.mp h
    cases pair
    have spelled := Symbol.single?_eq_some.mp single
    apply foremost_of_length _ text (by rw [spelled]; rfl) (by rw [spelled]; rfl) .symbol
    intro span rest' l' h' whole
    obtain short | ⟨-, d, s', first, found⟩ := bound span rest' l' h' whole
    · exact short
    · rw [first, Option.bind_some, found] at missing
      cases missing

/-! #### All pieces -/

private theorem foremost_newline {text : List Char} : Foremost '\n' text 0 .newline := by
  apply foremost_of_length ['\n'] text rfl rfl .newline
  intro span rest l h whole
  have same := h.class_of_append whole
  cases h with
  | newline => exact Nat.le_refl 1
  | _ => cases same

theorem foremost_front {c : Char} {text : List Char} {used : Nat} {l : Lexeme}
    (h : front c text = .ok (used, some l)) :
    Foremost c text used l ∧ ¬(c = '/' ∧ text.head? = some '/') := by
  unfold front at h
  split_ifs at h with line blank comment digit start quote
  · cases h
    subst line
    exact ⟨foremost_newline, by simp⟩
  · cases h
  · cases h
  · cases h
    obtain ⟨digits, rest, rfl, inside, outside⟩ := exists_front Char.isDigit text
    exact ⟨foremost_number digit inside outside, comment⟩
  · cases h
    obtain ⟨more, rest, rfl, inside, outside⟩ := exists_front isWordPart text
    exact ⟨foremost_word start inside outside, comment⟩
  · split at h
    · next found =>
      cases h
      exact ⟨foremost_string quote found, comment⟩
    · cases h
  · split at h
    · next found =>
      cases h
      refine ⟨foremost_symbol ?_ found, comment⟩
      simp [Class.of, line, digit, start, quote]
    · cases h

theorem front_eq_none {c : Char} {text : List Char} {used : Nat}
    (h : front c text = .ok (used, none)) :
    (∀ d ∈ c :: text.take used, isBlank d = true) ∨
      ∃ body, c :: text.take used = '/' :: '/' :: body ∧ (∀ d ∈ body, d ≠ '\n') ∧
        ∀ d ∈ (text.drop used).head?, d = '\n' := by
  unfold front at h
  split_ifs at h with line blank comment digit start quote
  · cases h
  · cases h
    obtain ⟨blanks, rest, rfl, inside, outside⟩ := exists_front isBlank text
    left
    rw [takeWhile_of_front inside outside, List.take_left]
    simpa [blank] using inside
  · cases h
    obtain ⟨body, rest, rfl, inside, outside⟩ := exists_front (· != '\n') text
    right
    rw [takeWhile_of_front inside outside, List.take_left, List.drop_left]
    obtain ⟨rfl, second⟩ := comment
    cases body with
    | nil => exact absurd (outside '/' second) (by decide)
    | cons d body =>
      cases second
      rw [List.forall_mem_cons] at inside
      exact ⟨body, rfl, by simpa using inside.2, by simpa using outside⟩
  · cases h
  · cases h
  · split at h <;> cases h
  · split at h <;> cases h

end DaiScript.Source
