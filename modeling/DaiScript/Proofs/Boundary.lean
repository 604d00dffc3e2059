import DaiScript.Proofs.Rescanning

/-! Where a text may be divided. Words, keywords, numbers, symbols and comments look ahead, so a
text may be cut otherwise when more follows it. Cutting off what is behind a piece never changes the
piece, unless a word is divided; and what follows changes nothing if it goes on with none of these.
Only a comment takes whatever comes next, up to a line feed. -/
namespace DaiScript.Source

open Text

variable {c : Char} {text stop : List Char} {used : Nat} {lexeme : Option Lexeme}

theorem Apart.append {rest : List Char} (h : Apart rest) (k : Apart stop) :
    Apart (rest ++ stop) := by
  cases rest with
  | nil => exact k
  | cons d rest =>
    rintro _ ⟨⟩
    exact h d rfl

theorem Apart.of_append {rest : List Char} (h : Apart (rest ++ stop)) : Apart rest := by
  cases rest with
  | nil => simp [Apart]
  | cons d rest =>
    rintro _ ⟨⟩
    exact h d rfl

theorem Apart.not_isDigit (h : Apart stop) : ∀ d ∈ stop.head?, d.isDigit = false := by
  intro d first
  have other := h d first
  simp only [isWordPart, Char.isAlphanum, Bool.or_eq_false_iff] at other
  exact other.1.2

/-! ### What is cut off behind a piece -/

theorem takeWhile_of_append {p : Char → Bool}
    (short : ((text ++ stop).takeWhile p).length ≤ text.length) :
    text.takeWhile p = (text ++ stop).takeWhile p := by
  rw [List.takeWhile_append] at short ⊢
  split
  · next all =>
    rw [if_pos all, List.length_append] at short
    have none : stop.takeWhile p = [] := List.eq_nil_of_length_eq_zero (by omega)
    rw [none, List.append_nil]
    exact (List.takeWhile_prefix p).eq_of_length all
  · rfl

theorem fraction_of_append (short : (fraction (text ++ stop)).length < text.length) :
    fraction text = fraction (text ++ stop) := by
  cases text with
  | nil => exact absurd short (Nat.not_lt_zero _)
  | cons d text =>
    by_cases point : d = '.'
    · subst point
      exact takeWhile_of_append (Nat.lt_succ_iff.mp short)
    · simp [fraction, point]

private theorem number_of_append (apart : Apart stop)
    (short : (number c (text ++ stop)).1 ≤ text.length) :
    number c text = number c (text ++ stop) := by
  obtain ⟨digits, rest, rfl, inside, outside⟩ := exists_front Char.isDigit text
  have outside' : ∀ d ∈ (rest ++ stop).head?, d.isDigit = false := by
    cases rest with
    | nil => exact apart.not_isDigit
    | cons d rest => simpa using outside
  rw [List.append_assoc] at short ⊢
  rw [number_append inside outside'] at short
  have same : fraction rest = fraction (rest ++ stop) := by
    split at short
    · next none =>
      cases rest with
      | nil => exact none.symm
      | cons d rest => exact fraction_of_append (by rw [none]; exact Nat.succ_pos _)
    · simp only [List.length_append] at short
      exact fraction_of_append (by omega)
  rw [number_append inside outside, number_append inside outside', same]

theorem keyword?_eq_some_iff {letters rest : List Char} {k : Keyword} (start : isWordStart c = true)
    (inside : ∀ d ∈ letters, isWordPart d = true) (apart : Apart rest) :
    keyword? (c :: letters) rest = some (k, used) ↔
      ∃ first words tail behind, k.words = first :: words ∧ first.toList = c :: letters ∧
        rest = tail ++ behind ∧ tail.length = used ∧ Trails words tail ∧ Apart behind := by
  constructor
  · intro found
    obtain ⟨first, words, hk, same, length⟩ := keyword?_eq_some found
    obtain ⟨tail, behind, shape, used, trails, apart'⟩ := trails_of_wordsLength? length
    exact ⟨first, words, tail, behind, hk, same, shape, used, trails, apart'⟩
  · rintro ⟨first, words, tail, behind, hk, same, rfl, rfl, trails, apart'⟩
    exact (keyword_at_front start inside apart hk trails apart' (by simp [same])).2

private theorem word_of_append (start : isWordStart c = true) (apart : Apart stop)
    (short : (word c (text ++ stop)).1 ≤ text.length) : word c text = word c (text ++ stop) := by
  obtain ⟨letters, rest, rfl, inside, outside⟩ := exists_front isWordPart text
  have outside' : Apart (rest ++ stop) := Apart.append outside apart
  rw [List.append_assoc] at short ⊢
  cases found : keyword? (c :: letters) (rest ++ stop) with
  | none =>
    have missing : keyword? (c :: letters) rest = none := by
      cases found' : keyword? (c :: letters) rest with
      | none => rfl
      | some pair =>
        obtain ⟨first, words, tail, behind, hk, same, rfl, length, trails, apart'⟩ :=
          (keyword?_eq_some_iff start inside outside).mp found'
        have again := (keyword?_eq_some_iff start inside outside').mpr
          ⟨first, words, tail, behind ++ stop, hk, same,
            by simp, length, trails, apart'.append apart⟩
        rw [found] at again
        cases again
    rw [word_of_none inside outside missing, word_of_none inside outside' found]
  | some pair =>
    obtain ⟨k, length⟩ := pair
    rw [word_of_some inside outside' found, List.length_append] at short
    obtain ⟨first, words, tail, behind, hk, same, shape, rfl, trails, apart'⟩ :=
      (keyword?_eq_some_iff start inside outside').mp found
    obtain ⟨more, rfl, rfl⟩ : ∃ more, rest = tail ++ more ∧ behind = more ++ stop := by
      obtain ⟨more, rfl, rfl⟩ | ⟨more, rfl, rfl⟩ := List.append_eq_append_iff.mp shape
      · rw [List.length_append] at short
        have none : more = [] := List.eq_nil_of_length_eq_zero (by omega)
        exact ⟨[], by simp [none], by simp [none]⟩
      · exact ⟨more, rfl, rfl⟩
    have again := (keyword?_eq_some_iff start inside outside).mpr
      ⟨first, words, tail, more, hk, same, rfl, rfl, trails, apart'.of_append⟩
    rw [word_of_some inside outside again, word_of_some inside outside' found]

private theorem string?_of_append {l : Lexeme} (quote : isQuote c = true)
    (h : string? c (text ++ stop) = some (used, l)) (short : used ≤ text.length) :
    string? c text = some (used, l) := by
  have slash : '\\' ≠ c := by rintro rfl; exact absurd quote (by decide)
  obtain ⟨⟨value, length⟩, run, pair⟩ := Option.map_eq_some_iff.mp h
  cases pair
  obtain ⟨body, behind, shape, rfl, inside⟩ := inside_of_scan run
  obtain ⟨more, rfl⟩ : ∃ more, text = body ++ c :: more := by
    have front : body ++ [c] <+: text ++ stop := ⟨behind, by simp [shape]⟩
    obtain ⟨more, rfl⟩ :=
      List.prefix_of_prefix_length_le front (List.prefix_append _ _) (by simpa using short)
    exact ⟨more, by simp⟩
  have again : Quoted.decode c (body ++ c :: more) = _ := Inside.decode inside slash more
  rw [string?, again]
  rfl

private theorem symbol?_of_append {l : Lexeme} (h : symbol? c (text ++ stop) = some (used, l))
    (short : used ≤ text.length) : symbol? c text = some (used, l) := by
  cases text with
  | cons d text => exact h
  | nil =>
    rw [List.nil_append] at h
    unfold symbol? at h ⊢
    split at h
    · cases h
      exact absurd short (by decide)
    · exact h

theorem head?_append_eq_some {d : Char} (h : text.head? = some d) :
    (text ++ stop).head? = some d := by
  rw [List.head?_append, h]
  rfl

theorem front_of_append (apart : Apart stop) (h : front c (text ++ stop) = .ok (used, lexeme))
    (short : used ≤ text.length) : front c text = .ok (used, lexeme) := by
  unfold front at h ⊢
  by_cases line : c = '\n'
  · rwa [if_pos line] at h ⊢
  by_cases blank : isBlank c = true
  · rw [if_neg line, if_pos blank] at h ⊢
    cases h
    rw [takeWhile_of_append short]
  by_cases comment : c = '/' ∧ (text ++ stop).head? = some '/'
  · rw [if_neg line, if_neg blank, if_pos comment] at h
    cases h
    have inside : text.head? = some '/' := by
      cases text with
      | nil =>
        obtain ⟨rest, rfl⟩ := List.head?_eq_some_iff.mp comment.2
        exact absurd short (by simp)
      | cons d text => exact comment.2
    rw [if_neg line, if_neg blank, if_pos ⟨comment.1, inside⟩, takeWhile_of_append short]
  have clear : ¬(c = '/' ∧ text.head? = some '/') :=
    fun both => comment ⟨both.1, head?_append_eq_some both.2⟩
  rw [if_neg line, if_neg blank, if_neg comment] at h
  rw [if_neg line, if_neg blank, if_neg clear]
  split_ifs at h ⊢ with digit start quote
  · cases h
    rw [number_of_append apart short]
    rfl
  · cases h
    rw [word_of_append start apart short]
    rfl
  · split at h
    · next found =>
      cases h
      rw [string?_of_append quote found short]
    · cases h
  · split at h
    · next found =>
      cases h
      rw [symbol?_of_append found short]
    · cases h

/-! ### What follows a text -/

/-- No piece in front goes on into the text, but for strings and comments. -/
structure Ends (stop : List Char) : Prop where
  apart : Apart stop
  blank : ∀ d ∈ stop.head?, isBlank d = false
  point : stop.head? ≠ some '.'
  pair : ∀ d ∈ stop.head?, ∀ e s, Symbol.single? e = some s → Symbol.pair? e d = none

theorem ends_cons {d : Char} {rest : List Char} (apart : isWordPart d = false)
    (blank : isBlank d = false) (point : d ≠ '.')
    (pair : ∀ e, ∀ s : Symbol, s.spelling.toList = [e, d] → Symbol.single? e = none) :
    Ends (d :: rest) where
  apart := by rintro _ ⟨⟩; exact apart
  blank := by rintro _ ⟨⟩; exact blank
  point := by simpa using point
  pair := by
    rintro _ ⟨⟩ e s single
    cases found : Symbol.pair? e d with
    | none => rfl
    | some s' =>
      rw [pair e s' (Symbol.pair?_eq_some.mp found)] at single
      cases single

theorem length_takeWhile_le {p : Char → Bool} (outside : ∀ d ∈ stop.head?, p d = false)
    (text : List Char) : ((text ++ stop).takeWhile p).length ≤ text.length := by
  obtain ⟨body, rest, rfl, inside, outside'⟩ := exists_front p text
  rw [List.append_assoc, takeWhile_of_front inside, List.length_append]
  · exact Nat.le_add_right _ _
  · cases rest with
    | nil => exact outside
    | cons d rest => simpa using outside'

private theorem Ends.number_le (ends : Ends stop) (c : Char) (text : List Char) :
    (number c (text ++ stop)).1 ≤ text.length := by
  obtain ⟨digits, rest, rfl, inside, outside⟩ := exists_front Char.isDigit text
  cases rest with
  | nil =>
    have point : fraction stop = [] := by
      by_contra some
      obtain ⟨behind, rfl⟩ := exists_of_fraction_ne_nil some
      exact ends.point rfl
    rw [List.append_nil, number_append inside ends.apart.not_isDigit, if_pos point]
  | cons d rest =>
    have outside' : ∀ e ∈ (d :: rest ++ stop).head?, e.isDigit = false := by simpa using outside
    rw [List.append_assoc, number_append inside outside', List.length_append, List.length_cons]
    split
    · exact Nat.le_add_right _ _
    · next some =>
      obtain ⟨behind, shape⟩ := exists_of_fraction_ne_nil some
      cases shape
      have bound : (fraction ('.' :: (rest ++ stop))).length ≤ rest.length :=
        length_takeWhile_le ends.apart.not_isDigit rest
      rw [List.cons_append]
      omega

private theorem Trails.mem {words : List String} {tail : List Char} (h : Trails words tail)
    (proper : ∀ w ∈ words, ∀ d ∈ w.toList, isWordPart d = true) :
    ∀ d ∈ tail, isBlank d = true ∨ isWordPart d = true := by
  induction h with
  | nil => simp
  | @cons blanks text word words _ blank _ ih =>
    rw [List.forall_mem_cons] at proper
    intro d member
    rw [List.mem_append, List.mem_append] at member
    obtain member | member | member := member
    · exact .inl (blank d member)
    · exact .inr (proper.1 d member)
    · exact ih proper.2 d member

private theorem Ends.word_le (ends : Ends stop) (start : isWordStart c = true) (text : List Char) :
    (word c (text ++ stop)).1 ≤ text.length := by
  obtain ⟨letters, rest, rfl, inside, outside⟩ := exists_front isWordPart text
  have outside' : Apart (rest ++ stop) := Apart.append outside ends.apart
  rw [List.append_assoc, List.length_append]
  cases found : keyword? (c :: letters) (rest ++ stop) with
  | none =>
    rw [word_of_none inside outside' found]
    exact Nat.le_add_right _ _
  | some pair =>
    obtain ⟨k, length⟩ := pair
    obtain ⟨first, words, tail, behind, hk, same, shape, rfl, trails, apart⟩ :=
      (keyword?_eq_some_iff start inside outside').mp found
    rw [word_of_some inside outside' found, Nat.add_le_add_iff_left]
    have proper : ∀ w ∈ words, ∀ d ∈ w.toList, isWordPart d = true := by
      intro w member
      have part : w ∈ k.words := by
        rw [hk]
        exact List.mem_cons_of_mem first member
      obtain ⟨d, more, spelled, start', parts⟩ := isWord_of_mem_words part
      rw [spelled]
      exact isWordPart_of_mem start' parts
    obtain ⟨more, rfl, rfl⟩ | ⟨more, rfl, rfl⟩ := List.append_eq_append_iff.mp shape
    · -- The words of a keyword would go on into what follows.
      cases more with
      | nil => simp
      | cons d more =>
        obtain blank | part := trails.mem proper d (by simp)
        · exact absurd blank (by simp [ends.blank d rfl])
        · exact absurd part (by simp [ends.apart d rfl])
    · simp

private theorem string?_append {l : Lexeme} (quote : isQuote c = true)
    (h : string? c text = some (used, l)) (stop : List Char) :
    string? c (text ++ stop) = some (used, l) ∧ used ≤ text.length := by
  have slash : '\\' ≠ c := by rintro rfl; exact absurd quote (by decide)
  obtain ⟨⟨value, length⟩, run, pair⟩ := Option.map_eq_some_iff.mp h
  cases pair
  obtain ⟨body, behind, rfl, rfl, inside⟩ := inside_of_scan run
  have again : Quoted.decode c (body ++ c :: (behind ++ stop)) = _ :=
    Inside.decode inside slash (behind ++ stop)
  refine ⟨?_, by simp⟩
  rw [string?, List.append_assoc, List.cons_append, again]
  rfl

private theorem Ends.symbol?_append {l : Lexeme} (ends : Ends stop)
    (h : symbol? c text = some (used, l)) :
    symbol? c (text ++ stop) = some (used, l) ∧ used ≤ text.length := by
  cases text with
  | cons d text =>
    refine ⟨h, ?_⟩
    unfold symbol? at h
    split at h
    · cases h
      simp
    · obtain ⟨s, -, pair⟩ := Option.map_eq_some_iff.mp h
      cases pair
      simp
  | nil =>
    obtain ⟨s, single, pair⟩ := Option.map_eq_some_iff.mp h
    cases pair
    have alone : stop.head?.bind (Symbol.pair? c) = none := by
      cases stop with
      | nil => rfl
      | cons d stop => exact ends.pair d rfl c s single
    rw [List.nil_append, symbol?, alone, single]
    exact ⟨rfl, Nat.le_refl 0⟩

/-- What follows a text leaves the piece at its front alone. A comment has to end in the text, or
where the text ends. -/
theorem front_ends (ends : Ends stop)
    (shut : c = '/' → (text ++ stop).head? = some '/' →
      text.head? = some '/' ∧ ('\n' ∈ text ∨ ∀ d ∈ stop.head?, d = '\n'))
    (h : front c text = .ok (used, lexeme)) :
    front c (text ++ stop) = .ok (used, lexeme) ∧ used ≤ text.length := by
  suffices bounded : ∃ used' lexeme', front c (text ++ stop) = .ok (used', lexeme') ∧
      used' ≤ text.length by
    obtain ⟨used', lexeme', run, short⟩ := bounded
    have back := front_of_append ends.apart run short
    rw [h] at back
    cases back
    exact ⟨run, short⟩
  unfold front at h ⊢
  by_cases line : c = '\n'
  · rw [if_pos line]
    exact ⟨_, _, rfl, Nat.zero_le _⟩
  by_cases blank : isBlank c = true
  · rw [if_neg line, if_pos blank]
    exact ⟨_, _, rfl, length_takeWhile_le ends.blank text⟩
  by_cases comment : c = '/' ∧ (text ++ stop).head? = some '/'
  · rw [if_neg line, if_neg blank, if_pos comment]
    refine ⟨_, _, rfl, ?_⟩
    obtain ⟨-, feed | next⟩ := shut comment.1 comment.2
    · obtain ⟨front, behind, rfl⟩ := List.append_of_mem feed
      have stops : ∀ d ∈ ('\n' :: behind ++ stop).head?, (d != '\n') = false := by simp
      rw [List.append_assoc, List.length_append]
      exact Nat.le_add_right_of_le (length_takeWhile_le stops front)
    · apply length_takeWhile_le
      intro d first
      simp [next d first]
  have clear : ¬(c = '/' ∧ text.head? = some '/') :=
    fun both => comment ⟨both.1, head?_append_eq_some both.2⟩
  rw [if_neg line, if_neg blank, if_neg clear] at h
  rw [if_neg line, if_neg blank, if_neg comment]
  split_ifs at h ⊢ with digit start quote
  · exact ⟨_, _, rfl, ends.number_le c text⟩
  · exact ⟨_, _, rfl, ends.word_le start text⟩
  · split at h
    · next found =>
      obtain ⟨again, short⟩ := string?_append quote found stop
      rw [again]
      exact ⟨_, _, rfl, short⟩
    · cases h
  · split at h
    · next found =>
      obtain ⟨again, short⟩ := ends.symbol?_append found
      rw [again]
      exact ⟨_, _, rfl, short⟩
    · cases h

/-! ### Comments and the end of a text -/

def Sound (text : List Char) : Prop :=
  ∃ tokens, Source.tokens (String.ofList text) false = .ok tokens

theorem sound_iff : Sound text ↔ (cut text).fault = none := by
  unfold Sound
  change (∃ tokens, tokensFrom .start (String.ofList text).toList = .ok tokens) ↔ _
  rw [String.toList_ofList, tokensFrom]
  cases (cut text).fault <;> simp

def InComment (text : List Char) : Prop :=
  ∃ front body, text = front ++ '/' :: '/' :: body ∧ '\n' ∉ body ∧ Sound front

theorem not_inComment_nil : ¬InComment [] := by
  rintro ⟨front, body, shape, -⟩
  simp at shape

theorem ends_slashes (body : List Char) : Ends ('/' :: '/' :: body) :=
  ends_cons rfl rfl (by decide) (by intro e s spelled; cases s <;> cases spelled)

theorem front_comment (h : text.head? = some '/') :
    front '/' text = .ok ((text.takeWhile (· != '\n')).length, none) := by
  simp [front, isBlank, h]

private theorem takeWhile_line (none : '\n' ∉ text) : text.takeWhile (· != '\n') = text := by
  rw [List.takeWhile_eq_self_iff]
  intro d member
  have other : d ≠ '\n' := by rintro rfl; exact none member
  simpa using other

private theorem inComment_slashes {body : List Char} (none : '\n' ∉ body) :
    InComment ('/' :: '/' :: body) :=
  ⟨[], body, rfl, none, sound_iff.mpr Scans.nil.sound⟩

section

variable {more rest : List Char} (found : front c (more ++ rest) = .ok (more.length, lexeme))
include found

theorem InComment.cons (h : InComment rest) : InComment (c :: (more ++ rest)) := by
  obtain ⟨front, body, rfl, feed, sound⟩ := h
  refine ⟨c :: (more ++ front), body, by simp, feed, ?_⟩
  rw [← List.append_assoc] at found
  have short := front_of_append (ends_slashes body).apart found (by simp)
  rw [sound_iff] at sound ⊢
  rw [cut_of_front short]
  exact sound

theorem InComment.of_cons (h : InComment (c :: (more ++ rest))) :
    rest = [] ∧ c = '/' ∧ more.head? = some '/' ∨ InComment rest := by
  obtain ⟨front, body, shape, feed, sound⟩ := h
  by_cases comment : c = '/' ∧ (more ++ rest).head? = some '/' ∧ '\n' ∉ more ++ rest
  · left
    obtain ⟨rfl, second, none⟩ := comment
    rw [front_comment second, takeWhile_line none, Except.ok.injEq, Prod.mk.injEq,
      List.length_append] at found
    have empty : rest = [] := List.eq_nil_of_length_eq_zero (by omega)
    rw [empty, List.append_nil] at second
    exact ⟨empty, rfl, second⟩
  · right
    cases front with
    | nil =>
      obtain ⟨rfl, onward⟩ := List.cons.inj shape
      refine absurd ⟨rfl, ?_, ?_⟩ comment
      · rw [onward]
        rfl
      · rw [onward]
        simpa using feed
    | cons d front =>
      rw [List.cons_append, List.cons.injEq] at shape
      obtain ⟨rfl, onward⟩ := shape
      rw [sound_iff, cut] at sound
      cases first : Source.front c front with
      | error cause =>
        rw [first] at sound
        cases sound
      | ok piece =>
        obtain ⟨used, lexeme'⟩ := piece
        rw [first] at sound
        have shut : c = '/' → (front ++ '/' :: '/' :: body).head? = some '/' →
            front.head? = some '/' ∧ ('\n' ∈ front ∨
              ∀ d ∈ ('/' :: '/' :: body).head?, d = '\n') := by
          rintro rfl second
          have feed' : '\n' ∈ front := by
            by_contra none
            apply comment
            rw [onward]
            exact ⟨rfl, second, by simp [none, feed]⟩
          refine ⟨?_, .inl feed'⟩
          cases front with
          | nil => cases feed'
          | cons d front => exact second
        obtain ⟨run, short⟩ := front_ends (ends_slashes body) shut first
        rw [← onward, found] at run
        cases run
        refine ⟨front.drop more.length, body, ?_, feed, sound_iff.mpr sound⟩
        rw [← List.drop_append_of_le_length short, ← onward, List.drop_left]

end

/-- In front of what goes on with none of its pieces, a text is cut as it is cut alone. -/
theorem cut_ends (ends : Ends stop) (slash : stop.head? ≠ some '/') (text : List Char)
    (sound : (cut text).fault = none) (shut : InComment text → ∀ d ∈ stop.head?, d = '\n') :
    cut (text ++ stop) = ⟨(cut text).pieces ++ (cut stop).pieces, (cut stop).fault⟩ := by
  fun_induction cut text with
  | case1 => rfl
  | case2 c text cause found => cases sound
  | case3 c text used lexeme found behind ih =>
    have shut' : c = '/' → (text ++ stop).head? = some '/' →
        text.head? = some '/' ∧ ('\n' ∈ text ∨ ∀ d ∈ stop.head?, d = '\n') := by
      rintro rfl second
      cases text with
      | nil => exact absurd second slash
      | cons d text =>
        cases second
        refine ⟨rfl, ?_⟩
        by_cases feed : '\n' ∈ text
        · exact .inl (List.mem_cons_of_mem _ feed)
        · exact .inr (shut (inComment_slashes feed))
    obtain ⟨again, short⟩ := front_ends ends shut' found
    have piece : front c (text.take used ++ text.drop used) =
        .ok ((text.take used).length, lexeme) := by
      rw [List.take_append_drop, List.length_take_of_le short]
      exact found
    have onward := ih sound fun h => shut (by simpa using h.cons piece)
    rw [List.cons_append, cut, again]
    dsimp only
    rw [List.drop_append_of_le_length short, List.take_append_of_le_length short, onward]
    rfl

end DaiScript.Source
