import DaiScript.Proofs.Tiling

/-! Tokens as source text. The tokens of a text can be written out with single spaces and are read
again from what is written. A space ends every lexeme, so none is split or runs into the next; and
names never become a keyword, since with only blanks between them they were one in the text
already. -/
namespace DaiScript

def Lexeme.written (l : Lexeme) : String :=
  if l.kind = .newline then "\n" else l.spelling

namespace Source

open Text

/-- The tokens with single spaces between them, and nothing for the end. -/
def written (tokens : List Token) : String :=
  String.intercalate " " ((tokens.filter (·.kind ≠ .finish)).map (·.lexeme.written))

def spaced (texts : List (List Char)) : List Char := texts.flatMap (' ' :: ·)

def Detached (rest : List Char) : Prop := ∀ c ∈ rest.head?, c = ' '

/-! ### Texts with single spaces -/

theorem intercalate_space (first : List Char) (more : List (List Char)) :
    [' '].intercalate (first :: more) = first ++ spaced more := by
  induction more generalizing first with
  | nil => simp [spaced, List.intercalate]
  | cons second more ih =>
    rw [List.intercalate_cons_cons, ih]
    simp [spaced]

theorem detached_spaced (texts : List (List Char)) : Detached (spaced texts) := by
  cases texts <;> simp [Detached, spaced]

theorem Detached.outside {rest : List Char} (h : Detached rest) {p : Char → Bool}
    (stop : p ' ' = false) : ∀ c ∈ rest.head?, p c = false := by
  intro c first
  rw [h c first]
  exact stop

theorem Detached.apart {rest : List Char} (h : Detached rest) : Apart rest := h.outside (by decide)

theorem spelling_eq {k : Keyword} {word : String} {words : List String}
    (h : k.words = word :: words) :
    k.spelling.toList = word.toList ++ spaced (words.map String.toList) := by
  rw [Keyword.spelling, h, String.toList_intercalate, List.map_cons]
  exact intercalate_space _ _

theorem trails_spaced (words : List String) : Trails words (spaced (words.map String.toList)) := by
  induction words with
  | nil => exact .nil
  | cons word words ih => exact @Trails.cons [' '] _ _ _ (by simp) (by simp [isBlank]) ih

private theorem inside_encode {quote : Char} (h : isQuote quote = true) (value : List Char) :
    Inside quote (Quoted.encode value) value := by
  obtain ⟨body, rest, shape, length, inside⟩ := inside_of_scan (Quoted.decode_encode h value [])
  obtain ⟨rfl, -⟩ := List.append_inj shape (by omega)
  exact inside

theorem Denotes.rewritten {span rest rest' : List Char} {l : Lexeme} (h : Denotes span rest l)
    (apart : Apart rest') : Denotes l.written.toList rest' l := by
  cases h with
  | newline => exact .newline
  | whole some digit => simpa [Lexeme.written] using Denotes.whole some digit
  | fraction some digit some' digit' =>
    simpa [Lexeme.written] using Denotes.fraction some digit some' digit'
  | @text quote _ value _ quoted _ =>
    simpa [Lexeme.written] using Denotes.text quoted (inside_encode quoted value)
  | name start inside other => simpa [Lexeme.written] using Denotes.name start inside other
  | @keyword k word words _ _ hk _ _ =>
    have same : (Lexeme.keyword k).written.toList = k.spelling.toList := rfl
    rw [same, spelling_eq hk]
    exact .keyword hk (trails_spaced words) apart
  | @symbol s => exact .symbol

/-! ### What stands between names -/

private theorem Gap.all_blank {gap rest : List Char} (h : Gap gap rest) {c : Char}
    (first : rest.head? = some c) (other : c ≠ '\n') : ∀ b ∈ gap, isBlank b = true := by
  induction h with
  | nil => simp
  | blank hb _ ih =>
    rw [List.forall_mem_cons]
    exact ⟨hb, ih first⟩
  | @comment body gap rest inside stop _ ih =>
    have blank := ih first
    cases gap with
    | nil => exact absurd (stop c first) other
    | cons b gap =>
      have feed : b = '\n' := stop b rfl
      rw [feed, List.forall_mem_cons] at blank
      exact absurd blank.1 (by decide)

theorem isWordPart_of_mem {c : Char} {more : List Char} (start : isWordStart c = true)
    (inside : ∀ d ∈ more, isWordPart d = true) : ∀ d ∈ c :: more, isWordPart d = true :=
  List.forall_mem_cons.mpr ⟨isWordPart_of_isWordStart start, inside⟩

theorem append_inj_of_front {p : Char → Bool} {first second rest rest' : List Char}
    (inside : ∀ c ∈ first, p c = true) (inside' : ∀ c ∈ second, p c = true)
    (outside : ∀ c ∈ rest.head?, p c = false) (outside' : ∀ c ∈ rest'.head?, p c = false)
    (same : first ++ rest = second ++ rest') : first = second ∧ rest = rest' := by
  have front : first = second := by
    rw [← takeWhile_of_front inside outside, same, takeWhile_of_front inside' outside']
  subst front
  exact ⟨rfl, List.append_cancel_left same⟩

private theorem isWordStart_of_class {c : Char} (h : Class.of c = .letter) :
    isWordStart c = true := by
  unfold Class.of at h
  split_ifs at h with line digit start
  exact start

theorem Denotes.not_isBlank {c : Char} {span rest more : List Char} {l : Lexeme}
    (h : Denotes span rest l) (shape : span = c :: more) : isBlank c = false := by
  cases blank : isBlank c with
  | false => rfl
  | true =>
    have same := h.class_eq shape
    have other : Class.of c = .other := by
      simp only [isBlank, Bool.or_eq_true, beq_iff_eq] at blank
      rcases blank with ((rfl | rfl) | rfl) | rfl <;> decide
    rw [other] at same
    cases h with
    | @symbol s => cases s <;> (cases shape; exact absurd blank (by decide))
    | _ => cases same

theorem Denotes.head_not_isBlank {span rest : List Char} {l : Lexeme} (h : Denotes span rest l)
    (text : List Char) : ∀ c ∈ (span ++ text).head?, isBlank c = false := by
  cases span with
  | nil => exact absurd rfl h.ne_nil
  | cons d more =>
    rintro _ ⟨⟩
    exact h.not_isBlank rfl

theorem apart_of_longest {c : Char} {more rest : List Char} (start : isWordStart c = true)
    (inside : ∀ d ∈ more, isWordPart d = true) (longest : Longest (c :: more) rest) :
    Apart rest := by
  intro d first
  obtain ⟨rest, rfl⟩ := List.head?_eq_some_iff.mp first
  by_contra part
  rw [Bool.not_eq_false] at part
  obtain ⟨letters, behind, shape, inside', outside⟩ := exists_front isWordPart (more ++ d :: rest)
  have longer : more.length + 1 ≤ letters.length := by
    have further : ∀ e ∈ more ++ [d], isWordPart e = true :=
      List.forall_mem_append.mpr ⟨inside, List.forall_mem_singleton.mpr part⟩
    have bound := length_le_takeWhile further rest
    rwa [List.append_assoc, List.singleton_append, shape, takeWhile_of_front inside' outside,
      List.length_append] at bound
  have foremost := foremost_word start inside' outside
  have bound := longest _ _ _ foremost.denotes (by simp [shape])
  have least := le_word inside' outside c
  simp only [List.length_cons, List.length_take, List.length_append] at bound
  omega

/-- No word of a keyword but the first and the last opens a keyword. -/
theorem head?_ne_of_inner {k : Keyword} {word : String} (h : word ∈ k.words.tail.dropLast)
    (k' : Keyword) : k'.words.head? ≠ some word := by
  have inner : k.words.tail.dropLast.all
      (fun w => Keyword.all.all fun k' => k'.words.head? != some w) = true := by
    cases k <;> decide
  simpa using List.all_eq_true.mp (List.all_eq_true.mp inner word h) k' k'.mem_all

def forms (tokens : List Token) : List (List Char) := tokens.map (·.lexeme.written.toList)

private theorem Gap.blanks_of_letter {gap span rest : List Char} {l : Lexeme}
    (h : Gap gap (span ++ rest)) (denotes : Denotes span rest l)
    (letter : Class.ofKind l.kind = .letter) (apart : Apart (gap ++ (span ++ rest))) :
    gap ≠ [] ∧ ∀ b ∈ gap, isBlank b = true := by
  cases span with
  | nil => exact absurd rfl denotes.ne_nil
  | cons d more =>
    have start := isWordStart_of_class ((denotes.class_eq rfl).trans letter)
    constructor
    · rintro rfl
      have outside : isWordPart d = false := apart d rfl
      rw [isWordPart_of_isWordStart start] at outside
      cases outside
    · apply h.all_blank rfl
      rintro rfl
      exact absurd start (by decide)

/-- The token that is written first where a word is: a name that is the word, or a keyword that
starts with it. -/
theorem word_of_written {span rest behind behind' : List Char} {l : Lexeme} {word : String}
    (denotes : Denotes span rest l) (longest : Longest span rest)
    (proper : ∃ c more, word.toList = c :: more ∧ isWordStart c = true ∧
      ∀ d ∈ more, isWordPart d = true)
    (detached : Detached behind) (apart : Apart behind')
    (same : l.written.toList ++ behind = word.toList ++ behind') :
    Class.ofKind l.kind = .letter ∧
      (span = word.toList ∧ behind = behind' ∧ Apart rest ∨
        ∃ (k : Keyword) (words : List String) (tail : List Char),
          k.words = word :: words ∧ span = word.toList ++ tail ∧ Apart (tail ++ rest)) := by
  obtain ⟨c, letters, spelled, start, inside⟩ := proper
  have all : ∀ d ∈ word.toList, isWordPart d = true := by
    rw [spelled]
    exact isWordPart_of_mem start inside
  have letter : Class.ofKind l.kind = .letter := by
    rw [← Class.of_isWordStart start]
    apply (denotes.rewritten detached.apart).class_of_append
    rw [same, spelled]
    rfl
  refine ⟨letter, ?_⟩
  cases denotes with
  | @name d more _ start' inside' _ =>
    left
    have all' := isWordPart_of_mem start' inside'
    have shape : d :: more ++ behind = word.toList ++ behind' := by
      simpa [Lexeme.written] using same
    obtain ⟨first, onward⟩ := append_inj_of_front all' all detached.apart apart shape
    exact ⟨first, onward, apart_of_longest start' inside' longest⟩
  | @keyword k first words tail _ hk trails apart' =>
    right
    have member : first ∈ k.words := by rw [hk]; simp
    obtain ⟨d, more, spelled', start', inside'⟩ := isWord_of_mem_words member
    have all' : ∀ e ∈ first.toList, isWordPart e = true := by
      rw [spelled']
      exact isWordPart_of_mem start' inside'
    have shape : first.toList ++ (spaced (words.map String.toList) ++ behind) =
        word.toList ++ behind' := by
      rw [← same, ← List.append_assoc, ← spelling_eq hk]
      rfl
    have outside := (trails_spaced words).not_isWordPart detached.apart
    obtain ⟨equal, -⟩ := append_inj_of_front all' all outside apart shape
    cases String.toList_inj.mp equal
    exact ⟨k, words, tail, hk, rfl, trails.not_isWordPart apart'⟩
  | _ => cases letter

private theorem trails_of_spaced {k : Keyword} {words : List String} {tail : List Char}
    (trails : Trails words tail) (part : words <:+ k.words.tail) {before rest : List Char}
    {tokens : List Token} (tiles : Tiles before rest tokens) (apart : Apart rest)
    {behind : List Char} (apart' : Apart behind) (shape : spaced (forms tokens) = tail ++ behind) :
    ∃ tail' behind', rest = tail' ++ behind' ∧ Trails words tail' ∧ Apart behind' := by
  -- Along the words: each is written by one token, which stands behind blanks in the text.
  induction trails generalizing before rest tokens with
  | nil => exact ⟨[], rest, rfl, .nil, apart⟩
  | @cons blanks text word words some blank further ih =>
    have member : word ∈ k.words := List.mem_of_mem_tail (part.subset (by simp))
    have proper := isWord_of_mem_words member
    cases tiles with
    | last _ =>
      have empty : blanks = [] := (List.append_eq_nil_iff.mp
        (List.append_eq_nil_iff.mp shape.symm).1).1
      exact absurd empty some
    | @token _ gap span rest' l tokens gapped denotes longest comment onward =>
      have detached : Detached (spaced (forms tokens)) := detached_spaced _
      have stop : Apart (text ++ behind) := further.not_isWordPart apart'
      have same : l.written.toList ++ spaced (forms tokens) = word.toList ++ (text ++ behind) := by
        have head : ∀ c ∈ (word.toList ++ (text ++ behind)).head?, isBlank c = false := by
          obtain ⟨c, more, spelled, start, -⟩ := proper
          rw [spelled]
          rintro _ ⟨⟩
          exact not_isBlank_of_isWordPart (isWordPart_of_isWordStart start)
        have one : ∀ b ∈ [' '], isBlank b = true := by simp [isBlank]
        have whole : [' '] ++ (l.written.toList ++ spaced (forms tokens)) =
            blanks ++ (word.toList ++ (text ++ behind)) := by
          simpa [spaced, forms] using shape
        have written := denotes.rewritten detached.apart
        exact (append_inj_of_front one blank (written.head_not_isBlank _) head whole).2
      obtain ⟨letter, kinds⟩ := word_of_written denotes longest proper detached stop same
      rw [List.append_assoc] at apart
      obtain ⟨someGap, blankGap⟩ := gapped.blanks_of_letter denotes letter apart
      obtain ⟨rfl, shape', apartRest⟩ | ⟨k', words', tail', hk, rfl, apartRest⟩ := kinds
      · obtain ⟨tail', behind', rfl, trails', apartTail⟩ :=
          ih ((List.suffix_cons _ _).trans part) onward apartRest shape'
        refine ⟨gap ++ (word.toList ++ tail'), behind', by simp, ?_, apartTail⟩
        exact .cons someGap blankGap trails'
      · -- Only the last word of a keyword may open another one.
        have last : words = [] := by
          by_contra more
          obtain ⟨front, whole⟩ := part
          have inner : word ∈ k.words.tail.dropLast := by
            rw [← whole, List.dropLast_append_of_ne_nil (List.cons_ne_nil _ _),
              List.dropLast_cons_of_ne_nil more]
            simp
          exact head?_ne_of_inner inner k' (by rw [hk]; rfl)
        subst last
        refine ⟨gap ++ (word.toList ++ []), tail' ++ rest', by simp, ?_, apartRest⟩
        exact .cons someGap blankGap .nil

theorem keyword?_spaced {c : Char} {more rest before : List Char} {tokens : List Token}
    (start : isWordStart c = true) (inside : ∀ d ∈ more, isWordPart d = true)
    (other : ∀ k : Keyword, k.words ≠ [String.ofList (c :: more)])
    (longest : Longest (c :: more) rest) (tiles : Tiles before rest tokens) :
    keyword? (c :: more) (spaced (forms tokens)) = none := by
  cases found : keyword? (c :: more) (spaced (forms tokens)) with
  | none => rfl
  | some pair =>
    obtain ⟨k, used⟩ := pair
    obtain ⟨first, words, hk, same, length⟩ := keyword?_eq_some found
    obtain ⟨tail, behind, shape, -, trails, apart⟩ := trails_of_wordsLength? length
    have part : words <:+ k.words.tail := by
      rw [hk]
      exact List.suffix_refl words
    obtain ⟨tail', behind', rfl, trails', apart'⟩ :=
      trails_of_spaced trails part tiles (apart_of_longest start inside longest) apart shape
    have denotes := Denotes.keyword hk trails' apart'
    rw [same] at denotes
    have bound := longest _ _ _ denotes (by simp)
    cases trails' with
    | nil =>
      have name : first = String.ofList (c :: more) := by rw [← same, String.ofList_toList]
      exact absurd (name ▸ hk) (other k)
    | cons some _ _ =>
      have positive := List.length_pos_iff.mpr some
      simp only [List.length_append] at bound
      omega

/-! ### Lexemes in front of a space -/

theorem front_of_isDigit {c : Char} (digit : c.isDigit = true) (text : List Char) :
    front c text = .ok ((number c text).1, some (number c text).2) := by
  have line : c ≠ '\n' := by rintro rfl; exact absurd digit (by decide)
  have slash : c ≠ '/' := by rintro rfl; exact absurd digit (by decide)
  have part : isWordPart c = true := by simp [isWordPart, Char.isAlphanum, digit]
  simp [front, line, slash, not_isBlank_of_isWordPart part, digit]

theorem front_of_isWordStart {c : Char} (start : isWordStart c = true) (text : List Char) :
    front c text = .ok ((word c text).1, some (word c text).2) := by
  have letter := Class.of_isWordStart start
  have slash : c ≠ '/' := by rintro rfl; exact absurd start (by decide)
  have blank := not_isBlank_of_isWordPart (isWordPart_of_isWordStart start)
  unfold Class.of at letter
  split_ifs at letter with line digit
  simp [front, line, slash, blank, digit, start]

private theorem front_of_isQuote {c : Char} (quote : isQuote c = true) {text : List Char}
    {used : Nat} {l : Lexeme} (found : string? c text = some (used, l)) :
    front c text = .ok (used, some l) := by
  simp only [isQuote, Bool.or_eq_true, beq_iff_eq] at quote
  rcases quote with rfl | rfl <;> simp [front, isBlank, isWordStart, isQuote, found]

theorem front_of_other {c : Char} {text : List Char} {used : Nat} {l : Lexeme}
    (other : Class.of c = .other) (blank : isBlank c = false)
    (comment : ¬(c = '/' ∧ text.head? = some '/')) (found : symbol? c text = some (used, l)) :
    front c text = .ok (used, some l) := by
  unfold Class.of at other
  split_ifs at other with line digit start quote
  simp only [front, line, blank, comment, digit, start, quote, found, if_false, Bool.false_eq_true]

section

variable {rest : List Char} (outside : ∀ d ∈ rest.head?, d.isDigit = false)
include outside

theorem front_whole {c : Char} {digits : List Char} (digit : ∀ d ∈ c :: digits, d.isDigit = true)
    (point : rest.head? ≠ some '.') :
    front c (digits ++ rest) = .ok (digits.length,
      some ⟨.number, some (.number (.ofDecimal (c :: digits) [])),
        String.ofList (c :: digits)⟩) := by
  rw [List.forall_mem_cons] at digit
  have none : fraction rest = [] := by
    by_contra some
    obtain ⟨behind, rfl⟩ := exists_of_fraction_ne_nil some
    exact point rfl
  rw [front_of_isDigit digit.1, number_append digit.2 outside, if_pos none]

theorem front_fraction {c : Char} {digits decimals : List Char}
    (digit : ∀ d ∈ c :: digits, d.isDigit = true) (some : decimals ≠ [])
    (digit' : ∀ d ∈ decimals, d.isDigit = true) :
    front c (digits ++ '.' :: decimals ++ rest) = .ok ((digits ++ '.' :: decimals).length,
      .some ⟨.number, .some (.number (.ofDecimal (c :: digits) decimals)),
        String.ofList (c :: digits ++ '.' :: decimals)⟩) := by
  rw [List.forall_mem_cons] at digit
  have found : fraction ('.' :: (decimals ++ rest)) = decimals := takeWhile_of_front digit' outside
  have stop : ∀ d ∈ ('.' :: (decimals ++ rest)).head?, d.isDigit = false := by
    rintro _ ⟨⟩
    decide
  rw [List.append_assoc, List.cons_append, front_of_isDigit digit.1, number_append digit.2 stop,
    found, if_neg some, List.length_append, List.length_cons, Nat.add_assoc, Nat.add_comm 1]

end

theorem front_text {quote : Char} (quoted : isQuote quote = true) (value rest : List Char) :
    front quote (Quoted.encode value ++ [quote] ++ rest) =
      .ok ((Quoted.encode value ++ [quote]).length, some ⟨.text, some (.text (String.ofList value)),
        String.ofList (quote :: Quoted.encode value ++ [quote])⟩) := by
  apply front_of_isQuote quoted
  rw [string?, List.append_assoc, List.singleton_append, Quoted.decode_encode quoted]
  simp

private theorem front_symbol {rest : List Char} (detached : Detached rest) (s : Symbol) {c : Char}
    {more : List Char} (spelled : s.spelling.toList = c :: more) :
    front c (more ++ rest) = .ok (more.length, some (.symbol s)) := by
  have denotes : Denotes (c :: more) rest (.symbol s) := spelled ▸ .symbol
  have other : Class.of c = .other := denotes.class_eq rfl
  have blank := denotes.not_isBlank rfl
  obtain ⟨d, single⟩ | ⟨d, e, pair⟩ := s.exists_spelling
  · cases spelled.symm.trans single
    have missing : rest.head?.bind (Symbol.pair? c) = none := by
      cases rest with
      | nil => rfl
      | cons d rest =>
        cases detached d rfl
        cases found : Symbol.pair? c ' ' with
        | none => exact found
        | some s' => cases s' <;> cases Symbol.pair?_eq_some.mp found
    apply front_of_other other blank
    · rintro ⟨-, second⟩
      exact absurd (detached '/' second) (by decide)
    · rw [List.nil_append, symbol?, missing, Symbol.single?_eq_some.mpr single]
      rfl
  · cases spelled.symm.trans pair
    apply front_of_other other blank
    · rintro ⟨rfl, ⟨⟩⟩
      cases s <;> cases spelled
    · rw [symbol?, List.singleton_append, List.head?_cons, Option.bind_some,
        Symbol.pair?_eq_some.mpr pair]
      rfl

theorem front_keyword {rest : List Char} (apart : Apart rest) {k : Keyword} {c : Char}
    {more : List Char} (spelled : k.spelling.toList = c :: more) :
    front c (more ++ rest) = .ok (more.length, some (.keyword k)) := by
  cases hk : k.words with
  | nil => cases k <;> cases hk
  | cons first words =>
    obtain ⟨d, letters, word, start, inside⟩ :=
      isWord_of_mem_words (by rw [hk]; simp : first ∈ k.words)
    have trails := trails_spaced words
    have outside := trails.not_isWordPart apart
    rw [spelling_eq hk, word, List.cons_append, List.cons.injEq] at spelled
    obtain ⟨rfl, rfl⟩ := spelled
    have found := (keyword_at_front start inside outside hk trails apart
      (by rw [word]; simp)).2
    rw [front_of_isWordStart start, List.append_assoc, word_of_some inside outside found,
      List.length_append]

private theorem front_written {before span rest : List Char} {l : Lexeme} {tokens : List Token}
    (denotes : Denotes span rest l) (longest : Longest span rest)
    (tiles : Tiles before rest tokens) :
    ∃ c more, l.written.toList = c :: more ∧
      front c (more ++ spaced (forms tokens)) = .ok (more.length, some l) := by
  have detached : Detached (spaced (forms tokens)) := detached_spaced _
  have stop : ∀ d ∈ (spaced (forms tokens)).head?, d.isDigit = false := detached.outside (by decide)
  have point : (spaced (forms tokens)).head? ≠ some '.' :=
    fun first => absurd (detached '.' first) (by decide)
  cases denotes with
  | newline => exact ⟨'\n', [], rfl, rfl⟩
  | whole some digit =>
    cases span with
    | nil => exact absurd rfl some
    | cons c digits => exact ⟨c, digits, by simp [Lexeme.written], front_whole stop digit point⟩
  | @fraction digits decimals _ some digit some' digit' =>
    cases digits with
    | nil => exact absurd rfl some
    | cons c digits =>
      exact ⟨c, digits ++ '.' :: decimals, by simp [Lexeme.written],
        front_fraction stop digit some' digit'⟩
  | @text quote _ value _ quoted _ =>
    exact ⟨quote, Quoted.encode value ++ [quote], by simp [Lexeme.written],
      front_text quoted value _⟩
  | @name c more _ start inside other =>
    refine ⟨c, more, by simp [Lexeme.written], ?_⟩
    have found := keyword?_spaced start inside other longest tiles
    rw [front_of_isWordStart start, word_of_none inside detached.apart found]
  | @keyword k _ _ _ _ _ _ _ =>
    cases spelled : k.spelling.toList with
    | nil => cases k <;> cases spelled
    | cons c more => exact ⟨c, more, spelled, front_keyword detached.apart spelled⟩
  | @symbol s =>
    cases spelled : s.spelling.toList with
    | nil => cases s <;> cases spelled
    | cons c more => exact ⟨c, more, spelled, front_symbol detached s spelled⟩

/-! ### Cutting what is written -/

theorem cut_of_front {c : Char} {more rest : List Char} {lexeme : Option Lexeme}
    (h : front c (more ++ rest) = .ok (more.length, lexeme)) :
    cut (c :: (more ++ rest)) = ⟨⟨c :: more, lexeme⟩ :: (cut rest).pieces, (cut rest).fault⟩ := by
  rw [cut, h]
  dsimp only
  rw [List.take_left, List.drop_left]

structure Scans (text : List Char) (lexemes : List Lexeme) : Prop where
  sound : (cut text).fault = none
  found : (cut text).pieces.filterMap Piece.lexeme = lexemes

theorem Scans.nil : Scans [] [] := by
  constructor
  · rw [cut]
  · rw [cut]
    rfl

theorem Scans.token {c : Char} {more rest : List Char} {l : Lexeme} {lexemes : List Lexeme}
    (h : front c (more ++ rest) = .ok (more.length, some l)) (k : Scans rest lexemes) :
    Scans (c :: (more ++ rest)) (l :: lexemes) := by
  constructor <;> rw [cut_of_front h]
  · exact k.sound
  · rw [← k.found]
    rfl

theorem Scans.blanks {gap text : List Char} {lexemes : List Lexeme}
    (blank : ∀ b ∈ gap, isBlank b = true) (stop : ∀ c ∈ text.head?, isBlank c = false)
    (h : Scans text lexemes) : Scans (gap ++ text) lexemes := by
  cases gap with
  | nil => exact h
  | cons b gap =>
    rw [List.forall_mem_cons] at blank
    have other : b ≠ '\n' := by rintro rfl; exact absurd blank.1 (by decide)
    have piece : front b (gap ++ text) = .ok (gap.length, none) := by
      simp [front, other, blank.1, takeWhile_of_front blank.2 stop]
    constructor <;> rw [List.cons_append, cut_of_front piece]
    · exact h.sound
    · exact h.found

theorem scans_written {before span rest : List Char} {l : Lexeme} {tokens : List Token}
    (denotes : Denotes span rest l) (longest : Longest span rest) (tiles : Tiles before rest tokens)
    (h : Scans (spaced (forms tokens)) (tokens.map Token.lexeme)) :
    Scans (l.written.toList ++ spaced (forms tokens)) (l :: tokens.map Token.lexeme) := by
  obtain ⟨c, more, spelled, found⟩ := front_written denotes longest tiles
  rw [spelled]
  exact h.token found

private theorem Tiles.scans_spaced {before text : List Char} {tokens : List Token}
    (h : Tiles before text tokens) : Scans (spaced (forms tokens)) (tokens.map Token.lexeme) := by
  induction h with
  | last => exact .nil
  | @token before gap span rest l tokens _ denotes longest _ tiles ih =>
    have detached : Detached (spaced (forms tokens)) := detached_spaced _
    have front := (denotes.rewritten detached.apart).head_not_isBlank (spaced (forms tokens))
    change Scans ([' '] ++ (l.written.toList ++ spaced (forms tokens))) _
    exact (scans_written denotes longest tiles ih).blanks (by simp [isBlank]) front

private theorem Tiles.scans_intercalate {before text : List Char} {tokens : List Token}
    (h : Tiles before text tokens) :
    Scans ([' '].intercalate (forms tokens)) (tokens.map Token.lexeme) := by
  cases h with
  | last => exact .nil
  | token _ denotes longest _ tiles =>
    have first := scans_written denotes longest tiles tiles.scans_spaced
    rwa [← intercalate_space] at first

private theorem map_lexeme_place (p : Position) (pieces : List Piece) :
    (place p pieces).map Token.lexeme = pieces.filterMap Piece.lexeme := by
  induction pieces generalizing p with
  | nil => rfl
  | cons piece pieces ih =>
    rw [place]
    split
    · next l found => rw [List.map_cons, ih, List.filterMap_cons_some found]
    · next found => rw [ih, List.filterMap_cons_none found]

theorem Scans.tokens {source : String} {lexemes : List Lexeme} (h : Scans source.toList lexemes) :
    ∃ tokens, Source.tokens source false = .ok tokens ∧
      tokens.map Token.lexeme = lexemes ++ [.finish] := by
  refine ⟨place .start (cut source.toList).pieces ++
    [.finish (Position.start.advance (covered (cut source.toList).pieces))], ?_, ?_⟩
  · change tokensFrom .start source.toList = _
    rw [tokensFrom, h.sound]
  · rw [List.map_append, map_lexeme_place, h.found]
    rfl

private theorem toList_written {body : List Token} (inside : ∀ t ∈ body, t.kind ≠ .finish)
    (stop : Position) :
    (written (body ++ [.finish stop])).toList = [' '].intercalate (forms body) := by
  have kept : (body ++ [Token.finish stop]).filter (·.kind ≠ .finish) = body := by
    rw [List.filter_append, List.filter_eq_self.mpr (by simpa using inside)]
    exact List.append_nil body
  rw [written, kept, String.toList_intercalate, List.map_map]
  rfl

/-- The tokens of a text, written out with single spaces, are the tokens of what is written, but for
their places. -/
theorem tokens_written {source : String} {tokens : List Token}
    (h : Source.tokens source false = .ok tokens) :
    ∃ tokens', Source.tokens (written tokens) false = .ok tokens' ∧
      tokens'.map Token.lexeme = tokens.map Token.lexeme := by
  have run : tokensFrom (.behind []) source.toList = .ok tokens := h
  obtain ⟨body, rfl, tiles⟩ := tiles_of_tokensFrom run
  have scans := tiles.scans_intercalate
  rw [← toList_written tiles.kind_ne_finish] at scans
  obtain ⟨tokens', again, same⟩ := scans.tokens
  refine ⟨tokens', again, ?_⟩
  rw [same, List.map_append]
  rfl

theorem tokens_written_phrases :
    let source := "vai\tvayo  rokki;//\njaba\nsamma='\\q\"'"
    let tokens : List Token :=
      [⟨.keyword .vaiVayoRokki, ⟨1, 1, 0⟩⟩, ⟨.symbol .semicolon, ⟨1, 16, 15⟩⟩,
        ⟨.newline, ⟨1, 19, 18⟩⟩, ⟨⟨.name, some (.name "jaba"), "jaba"⟩, ⟨2, 1, 19⟩⟩,
        ⟨.newline, ⟨2, 5, 23⟩⟩, ⟨⟨.name, some (.name "samma"), "samma"⟩, ⟨3, 1, 24⟩⟩,
        ⟨.symbol .assign, ⟨3, 6, 29⟩⟩, ⟨⟨.text, some (.text "q\""), "'q\\\"'"⟩, ⟨3, 7, 30⟩⟩,
        .finish ⟨3, 12, 35⟩]
    let again := "vai vayo rokki ; \n jaba \n samma = 'q\\\"'"
    Source.tokens source false = .ok tokens ∧ written tokens = again ∧
      ∃ tokens', Source.tokens again false = .ok tokens' ∧
        tokens'.map Token.lexeme = tokens.map Token.lexeme := by
  intro source tokens again
  have read : Source.tokens source false = .ok tokens := by decide +kernel
  have spelled : written tokens = again := by decide +kernel
  have rescanned := tokens_written read
  rw [spelled] at rescanned
  exact ⟨read, spelled, rescanned⟩

end Source

end DaiScript
