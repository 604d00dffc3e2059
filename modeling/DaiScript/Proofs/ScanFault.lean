import DaiScript.Proofs.Boundary

/-! Where scanning fails. A text without tokens splits at one place: what is in front has tokens,
does not end in a comment and ends right at the error, and the next character starts no token. It
does so only if it belongs to no token at all, is half of a symbol, or opens a string that nothing
closes. -/
namespace DaiScript

namespace Text.Quoted

def slashes (text : List Char) : Nat := (text.reverse.takeWhile (· == '\\')).length

/-- Wherever the quote stands in the text, a backslash takes it: the number of those in front is
odd. -/
def Unclosed (quote : Char) (text : List Char) : Prop :=
  ∀ body rest, text = body ++ quote :: rest → slashes body % 2 = 1

/-- Whether a character is a backslash that takes the next one; `taken` tells it of the one
before. -/
def takes (taken : Bool) (c : Char) : Bool := !taken && c == '\\'

private theorem foldl_takes (body : List Char) :
    body.foldl takes false = decide (slashes body % 2 = 1) := by
  induction body using List.reverseRecOn with
  | nil => rfl
  | append_singleton body c ih =>
    rw [List.foldl_append, ih]
    by_cases slash : c = '\\'
    · have one : slashes (body ++ [c]) = slashes body + 1 := by simp [slashes, slash]
      rw [one]
      obtain even | odd := Nat.mod_two_eq_zero_or_one (slashes body)
      · simp [takes, slash, even, Nat.add_mod]
      · simp [takes, odd, Nat.add_mod]
    · simp [takes, slashes, slash]

theorem forall_taken_cons {quote c : Char} {taken : Bool} {text : List Char} :
    (∀ body rest, c :: text = body ++ quote :: rest → body.foldl takes taken = true) ↔
      (c = quote → taken = true) ∧
        ∀ body rest, text = body ++ quote :: rest → body.foldl takes (takes taken c) = true := by
  constructor
  · intro h
    refine ⟨?_, ?_⟩
    · rintro rfl
      exact h [] text rfl
    · rintro body rest rfl
      exact h (c :: body) rest rfl
  · rintro ⟨first, later⟩ body rest shape
    cases body with
    | nil => exact first (List.cons.inj shape).1
    | cons d body =>
      cases shape
      exact later body rest rfl

private theorem scan_eq_none_iff {quote : Char} {taken : Bool} {text : List Char} :
    scan quote taken text = none ↔
      ∀ body rest, text = body ++ quote :: rest → body.foldl takes taken = true := by
  fun_induction scan quote taken text with
  | case1 => simp
  | case2 c text ih =>
    rw [Option.map_eq_none_iff, ih, forall_taken_cons]
    simp [takes]
  | case3 text =>
    rw [forall_taken_cons]
    simp
  | case4 text other ih =>
    rw [Option.map_eq_none_iff, ih, forall_taken_cons]
    simp [takes, other]
  | case5 c text other other' ih =>
    have plain : takes false c = false := by simp [takes, other']
    rw [Option.map_eq_none_iff, ih, forall_taken_cons, plain]
    simp [other]

theorem decode_eq_none_iff {quote : Char} {text : List Char} :
    decode quote text = none ↔ Unclosed quote text := by
  rw [decode, scan_eq_none_iff]
  simp only [foldl_takes, decide_eq_true_eq, Unclosed]

end Text.Quoted

namespace Source

open Text

/-- A character that stands in no token but a string: no blank, line feed or quote, no ASCII letter
or digit, no underscore, and in no symbol. -/
structure Foreign (c : Char) : Prop where
  blank : isBlank c = false
  line : c ≠ '\n'
  quote : isQuote c = false
  word : isWordPart c = false
  symbol : ∀ s : Symbol, c ∉ s.spelling.toList

inductive Stuck : (c : Char) → (rest : List Char) → ScanCause → Prop
  | foreign {c : Char} {rest : List Char} : Foreign c → Stuck c rest (.unexpected c)
  | half {c : Char} {rest : List Char} :
      c = '&' ∨ c = '|' → rest.head? ≠ some c → Stuck c rest (.unexpected c)
  | unclosed {c : Char} {rest : List Char} :
      isQuote c = true → Quoted.Unclosed c rest → Stuck c rest .unterminated

private theorem single?_of_mem_spelling {s : Symbol} {c : Char} (h : c ∈ s.spelling.toList) :
    (∃ s', Symbol.single? c = some s') ∨ c = '&' ∨ c = '|' := by
  have proper : s.spelling.toList.all
      (fun c => (Symbol.single? c).isSome || (c == '&' || c == '|')) = true := by
    cases s <;> decide
  simpa [Option.isSome_iff_exists] using List.all_eq_true.mp proper c h

private theorem stuck_of_front {c : Char} {rest : List Char} {cause : ScanCause}
    (h : front c rest = .error cause) : Stuck c rest cause := by
  unfold front at h
  split_ifs at h with line blank comment digit start quote
  · split at h
    · cases h
    · next missing =>
      cases h
      rw [string?, Option.map_eq_none_iff] at missing
      exact .unclosed quote (Quoted.decode_eq_none_iff.mp missing)
  · split at h
    · cases h
    · next missing =>
      cases h
      unfold symbol? at missing
      split at missing
      · cases missing
      · next alone =>
        rw [Option.map_eq_none_iff] at missing
        by_cases double : c = '&' ∨ c = '|'
        · refine .half double fun second => ?_
          rw [second] at alone
          obtain rfl | rfl := double <;> cases alone
        · refine .foreign ⟨by simpa using blank, line, by simpa using quote, ?_, ?_⟩
          · simp only [isWordStart, Bool.or_eq_true, not_or, Bool.not_eq_true] at start
            simp [isWordPart, Char.isAlphanum, start, digit]
          · intro s member
            obtain ⟨s', single⟩ | both := single?_of_mem_spelling member
            · rw [missing] at single
              cases single
            · exact double both

private theorem Foreign.symbol?_eq_none {c : Char} (h : Foreign c) (rest : List Char) :
    symbol? c rest = none := by
  have alone : rest.head?.bind (Symbol.pair? c) = none := by
    rw [Option.bind_eq_none_iff]
    intro d _
    cases found : Symbol.pair? c d with
    | none => rfl
    | some s => exact absurd (by rw [Symbol.pair?_eq_some.mp found]; simp) (h.symbol s)
  have single : Symbol.single? c = none := by
    cases found : Symbol.single? c with
    | none => rfl
    | some s => exact absurd (by rw [Symbol.single?_eq_some.mp found]; simp) (h.symbol s)
  rw [symbol?, alone, single]
  rfl

private theorem Stuck.front_eq {c : Char} {rest : List Char} {cause : ScanCause}
    (h : Stuck c rest cause) :
    front c rest = .error cause := by
  cases h with
  | foreign alien =>
    have word := alien.word
    simp only [isWordPart, Char.isAlphanum, Bool.or_eq_false_iff] at word
    have slash : c ≠ '/' := by
      rintro rfl
      exact alien.symbol .slash (by decide)
    simp [front, alien.line, alien.blank, alien.quote, isWordStart, word, slash,
      alien.symbol?_eq_none]
  | half double second =>
    have alone : rest.head?.bind (Symbol.pair? c) = none := by
      rw [Option.bind_eq_none_iff]
      rintro d first
      cases found : Symbol.pair? c d with
      | none => rfl
      | some s =>
        have spelled := Symbol.pair?_eq_some.mp found
        obtain rfl | rfl := double <;> cases s <;> cases spelled <;> exact absurd first second
    obtain rfl | rfl := double <;>
      simp [front, isBlank, isWordStart, isQuote, symbol?, alone, Symbol.single?]
  | unclosed quote unclosed =>
    have missing : string? c rest = none := by
      rw [string?, Quoted.decode_eq_none_iff.mpr unclosed]
      rfl
    simp only [isQuote, Bool.or_eq_true, beq_iff_eq] at quote
    obtain rfl | rfl := quote <;> simp [front, isBlank, isWordStart, isQuote, missing]

theorem Stuck.ends {c : Char} {rest : List Char} {cause : ScanCause} (h : Stuck c rest cause) :
    Ends (c :: rest) := by
  cases h with
  | foreign alien =>
    apply ends_cons alien.word alien.blank
    · rintro rfl
      exact alien.symbol .dot (by decide)
    · intro e s spelled
      exact absurd (by rw [spelled]; simp) (alien.symbol s)
  | half double _ =>
    obtain rfl | rfl := double <;>
      exact ends_cons rfl rfl (by decide) (by intro e s spelled; cases s <;> cases spelled; rfl)
  | unclosed quote _ =>
    simp only [isQuote, Bool.or_eq_true, beq_iff_eq] at quote
    obtain rfl | rfl := quote <;>
      exact ends_cons rfl rfl (by decide) (by intro e s spelled; cases s <;> cases spelled)

private theorem Stuck.ne_slash {c : Char} {rest : List Char} {cause : ScanCause}
    (h : Stuck c rest cause) :
    c ≠ '/' := by
  rintro rfl
  cases h with
  | foreign alien => exact alien.symbol .slash (by decide)
  | half double _ => exact absurd double (by decide)
  | unclosed quote _ => exact absurd quote (by decide)

private theorem Stuck.ne_lineFeed {c : Char} {rest : List Char} {cause : ScanCause}
    (h : Stuck c rest cause) :
    c ≠ '\n' := by
  rintro rfl
  cases h with
  | foreign alien => exact alien.line rfl
  | half double _ => exact absurd double (by decide)
  | unclosed quote _ => exact absurd quote (by decide)

/-- What is cut in front of a fault is cut alike when it stands alone, and is not in a comment. -/
theorem exists_stuck {text : List Char} {cause : ScanCause} (h : (cut text).fault = some cause) :
    ∃ before c rest, text = before ++ c :: rest ∧ Stuck c rest cause ∧
      cut before = ⟨(cut text).pieces, none⟩ ∧ ¬InComment before := by
  fun_induction cut text with
  | case1 => cases h
  | case2 c text cause' found =>
    cases h
    exact ⟨[], c, text, rfl, stuck_of_front found, by rw [cut], not_inComment_nil⟩
  | case3 c text used lexeme found behind ih =>
    obtain ⟨before, d, rest, shape, stuck, alike, outside⟩ := ih h
    obtain ⟨more, rfl, rfl⟩ : ∃ more, text = more ++ (before ++ d :: rest) ∧
        used = more.length := by
      refine ⟨text.take used, ?_, ?_⟩
      · rw [← shape, List.take_append_drop]
      · have rest := congrArg List.length shape
        simp only [List.length_drop, List.length_append, List.length_cons] at rest
        rw [List.length_take]
        omega
    have alone : front c (more ++ before) = .ok (more.length, lexeme) := by
      rw [← List.append_assoc] at found
      exact front_of_append stuck.ends.apart found (by simp)
    refine ⟨c :: (more ++ before), d, rest, by simp, stuck, ?_, ?_⟩
    · rw [cut_of_front alone, alike, List.take_left]
    · intro inComment
      obtain ⟨rfl, rfl, second⟩ | later := inComment.of_cons alone
      · -- The comment would go on up to a line feed.
        have second' : (more ++ ([] ++ d :: rest)).head? = some '/' := head?_append_eq_some second
        have run := front_comment second'
        rw [found, Except.ok.injEq, Prod.mk.injEq] at run
        obtain ⟨-, rfl⟩ := run
        obtain blank | ⟨body, -, -, next⟩ := front_eq_none found
        · exact absurd (blank '/' (by simp)) (by decide)
        · rw [List.drop_left] at next
          exact stuck.ne_lineFeed (next d rfl)
      · exact outside later

/-- Behind sound text that is not in a comment, scanning goes no further than to where it is
stuck. -/
theorem Stuck.cut_eq {before rest : List Char} {c : Char} {cause : ScanCause}
    (h : Stuck c rest cause) (sound : (cut before).fault = none) (outside : ¬InComment before) :
    cut (before ++ c :: rest) = ⟨(cut before).pieces, some cause⟩ := by
  have stop : cut (c :: rest) = ⟨[], some cause⟩ := by rw [cut, h.front_eq]
  have slash : (c :: rest).head? ≠ some '/' := by simpa using h.ne_slash
  rw [cut_ends h.ends slash before sound fun inside => absurd inside outside, stop, List.append_nil]

private theorem tokens_of_sound {text : List Char} (sound : (cut text).fault = none) :
    tokens (String.ofList text) false =
      .ok (place .start (cut text).pieces ++ [.finish (.behind text)]) := by
  change tokensFrom .start (String.ofList text).toList = _
  rw [String.toList_ofList, tokensFrom, sound]
  dsimp only
  rw [(tiles_cut text [] sound).2, Position.start_advance]

/-- Errors of a text are exact, and the first. A text fails with an error if and only if it splits
there: the text in front has tokens and ends at the place of the error, outside a comment, and
nothing starts with the next character. -/
theorem tokens_eq_error_iff (source : String) (e : ScanError) :
    tokens source false = .error e ↔
      ∃ before c rest, source.toList = before ++ c :: rest ∧ e.position = .behind before ∧
        (∃ body, tokens (String.ofList before) false = .ok (body ++ [.finish e.position])) ∧
        ¬InComment before ∧ Stuck c rest e.cause := by
  have run : tokens source false = tokensFrom .start source.toList := rfl
  rw [run, tokensFrom]
  constructor
  · intro h
    split at h
    · next cause faulty =>
      cases h
      obtain ⟨before, c, rest, shape, stuck, alike, outside⟩ := exists_stuck faulty
      have sound : (cut before).fault = none := by rw [alike]
      have all := (tiles_cut before [] sound).2
      rw [alike] at all
      have placed : Position.start.advance (covered (cut source.toList).pieces) =
          .behind before := by
        rw [all, Position.start_advance]
      have read := tokens_of_sound sound
      rw [← placed] at read
      exact ⟨before, c, rest, shape, placed, ⟨_, read⟩, outside, stuck⟩
    · cases h
  · rintro ⟨before, c, rest, shape, placed, ⟨body, read⟩, outside, stuck⟩
    have sound := sound_iff.mp ⟨_, read⟩
    rw [shape, stuck.cut_eq sound outside]
    dsimp only
    rw [(tiles_cut before [] sound).2, Position.start_advance, ← placed]

end Source

end DaiScript
