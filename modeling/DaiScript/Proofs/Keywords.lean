import DaiScript.Proofs.Rescanning

/-! Keywords of several words are never missed. What stands between two names is a gap, and without
a line break between them it is made of the blanks that may stand inside a keyword, so names that
spell one would have been one. -/
namespace DaiScript.Source

open Text

def Spelt (k : Keyword) (span : List Char) : Prop :=
  ∃ word words tail, k.words = word :: words ∧ span = word.toList ++ tail ∧ Trails words tail

theorem Tiles.split {before text : List Char} {earlier later : List Token} {t : Token}
    (h : Tiles before text (earlier ++ t :: later)) :
    ∃ front span rest, text = front ++ span ++ rest ∧ t.position = .behind (before ++ front) ∧
      Denotes span rest t.lexeme ∧ Longest span rest ∧
      Tiles (before ++ front ++ span) rest later := by
  induction earlier generalizing before text with
  | nil =>
    cases h with
    | @token _ gap span rest l _ _ denotes longest _ further =>
      exact ⟨gap, span, rest, rfl, rfl, denotes, longest, further⟩
  | cons first earlier ih =>
    cases h with
    | @token _ gap span rest l _ _ _ _ _ further =>
      obtain ⟨front, span', rest', rfl, placed, denotes, longest, onward⟩ := ih further
      refine ⟨gap ++ span ++ front, span', rest', by simp, ?_, denotes, longest, ?_⟩
      · rw [placed]
        simp
      · simpa using onward

theorem Denotes.spelt {span rest : List Char} {l : Lexeme} {k : Keyword} (h : Denotes span rest l)
    (kind : l.kind = .keyword k) : Spelt k span ∧ Apart rest := by
  cases h with
  | keyword hk trails apart =>
    cases kind
    exact ⟨⟨_, _, _, hk, rfl, trails⟩, apart⟩
  | _ => cases kind

private theorem Denotes.written_eq_nameText {span rest : List Char} {l : Lexeme}
    (h : Denotes span rest l) (kind : l.kind = .name) : l.written = l.nameText := by
  cases h with
  | name _ _ _ => rfl
  | _ => cases kind

private theorem Tiles.forms_eq {before text : List Char} {names later : List Token}
    (h : Tiles before text (names ++ later)) (kinds : ∀ t ∈ names, t.kind = .name) :
    forms (names ++ later) = (names.map (·.lexeme.nameText)).map String.toList ++ forms later := by
  induction names generalizing before text with
  | nil => rfl
  | cons t names ih =>
    rw [List.forall_mem_cons] at kinds
    cases h with
    | token _ denotes _ _ further =>
      have same := denotes.written_eq_nameText kinds.1
      have onward := ih further kinds.2
      unfold forms at onward ⊢
      rw [List.cons_append, List.map_cons, onward, same]
      rfl

private theorem spaced_append (first second : List (List Char)) :
    spaced (first ++ second) = spaced first ++ spaced second :=
  List.flatMap_append

private theorem Tiles.names_ne {before text : List Char} {earlier names later : List Token}
    (h : Tiles before text (earlier ++ (names ++ later))) (kinds : ∀ t ∈ names, t.kind = .name)
    (k : Keyword) : names.map (·.lexeme.nameText) ≠ k.words := by
  intro spelled
  cases names with
  | nil => cases k <;> cases spelled
  | cons t names =>
    rw [List.forall_mem_cons] at kinds
    rw [List.cons_append] at h
    obtain ⟨front, span, rest, -, -, denotes, longest, further⟩ := h.split
    have onward := further.forms_eq kinds.2
    obtain ⟨l, p⟩ := t
    cases denotes with
    | @name c more _ start inside other =>
      have missing := keyword?_spaced start inside other longest further
      have apart : Apart (spaced (forms later)) := (detached_spaced _).apart
      have trails := trails_spaced (names.map (·.lexeme.nameText))
      rw [onward, spaced_append] at missing
      have found :=
        (keyword_at_front start inside (trails.not_isWordPart apart) spelled.symm trails apart
        (by simp [Lexeme.nameText, Lexeme.text?])).2
      rw [missing] at found
      cases found
    | _ => cases kinds.1

private theorem infix_of_kind_ne {tokens body : List Token} {p : Position}
    (h : tokens <:+: body ++ [.finish p]) (kinds : ∀ t ∈ tokens, t.kind ≠ .finish) :
    tokens <:+: body := by
  obtain last | inside := List.infix_concat_iff.mp h
  · obtain rfl | ⟨front, rfl, -⟩ := List.suffix_concat_iff.mp last
    · exact List.nil_infix
    · exact absurd rfl (kinds (.finish p) (by simp))
  · exact inside

/-- Keywords of several words are never missed. No names that follow one another are the words of a
keyword; and the token of a keyword covers text that is its words with blanks between them, and that
no word character follows. -/
theorem keywords_whole {source : String} {tokens : List Token}
    (h : Source.tokens source false = .ok tokens) :
    (∀ names, names <:+: tokens → (∀ t ∈ names, t.kind = .name) →
      ∀ k : Keyword, names.map (·.lexeme.nameText) ≠ k.words) ∧
    ∀ earlier t later, tokens = earlier ++ t :: later → ∀ k : Keyword, t.kind = .keyword k →
      ∃ before span rest more, source.toList = before ++ span ++ rest ∧
      t.position = .behind before ∧
        Spelt k span ∧ Apart rest ∧ later = more ++ [.finish (.behind source.toList)] ∧
        Tiles (before ++ span) rest more := by
  have run : tokensFrom (.behind []) source.toList = .ok tokens := h
  obtain ⟨body, rfl, tiles⟩ := tiles_of_tokensFrom run
  constructor
  · intro names part kinds
    have inner : ∀ t ∈ names, t.kind ≠ .finish := by
      intro t member
      rw [kinds t member]
      exact Kind.noConfusion
    obtain ⟨earlier, later, rfl⟩ := infix_of_kind_ne part inner
    rw [List.append_assoc] at tiles
    exact tiles.names_ne kinds
  · intro earlier t later shape k kind
    obtain rfl | ⟨more, last, rfl⟩ := List.eq_nil_or_concat later
    · obtain ⟨-, same⟩ := List.append_inj' shape rfl
      cases same
      cases kind
    · have behind : body ++ [.finish (.behind ([] ++ source.toList))] =
          earlier ++ t :: more ++ [last] := by
        rw [shape]
        simp
      obtain ⟨rfl, same⟩ := List.append_inj' behind rfl
      cases same
      obtain ⟨before, span, rest, whole, placed, denotes, -, further⟩ := tiles.split
      obtain ⟨spelt, apart⟩ := denotes.spelt kind
      exact ⟨before, span, rest, more, whole, placed, spelt, apart, List.concat_eq_append, further⟩

theorem keywords_whole_overlapping :
    let source := "aghi\tbadh  vai vayo rokki jaba\nsamma"
    let vayo : Token := ⟨⟨.name, some (.name "vayo"), "vayo"⟩, ⟨1, 16, 15⟩⟩
    let rokki : Token := ⟨⟨.name, some (.name "rokki"), "rokki"⟩, ⟨1, 21, 20⟩⟩
    let later : List Token :=
      [vayo, rokki, ⟨⟨.name, some (.name "jaba"), "jaba"⟩, ⟨1, 27, 26⟩⟩, ⟨.newline, ⟨1, 31, 30⟩⟩,
        ⟨⟨.name, some (.name "samma"), "samma"⟩, ⟨2, 1, 31⟩⟩, .finish ⟨2, 6, 36⟩]
    Source.tokens source false = .ok (⟨.keyword .aghiBadhVai, .start⟩ :: later) ∧
      (∀ k : Keyword, [vayo, rokki].map (·.lexeme.nameText) ≠ k.words) ∧
      ∃ before span rest, source.toList = before ++ span ++ rest ∧ .start = Position.behind before ∧
        Spelt .aghiBadhVai span ∧ Apart rest := by
  intro source vayo rokki later
  have read : Source.tokens source false = .ok (⟨.keyword .aghiBadhVai, .start⟩ :: later) := by
    decide +kernel
  obtain ⟨missed, found⟩ := keywords_whole read
  refine ⟨read, ?_, ?_⟩
  · apply missed [vayo, rokki] ⟨[_], later.drop 2, rfl⟩
    simp [vayo, rokki, Token.kind]
  · obtain ⟨before, span, rest, more, whole, placed, spelt, apart, -⟩ := found [] _ later rfl _ rfl
    exact ⟨before, span, rest, whole, placed, spelt, apart⟩

end DaiScript.Source
