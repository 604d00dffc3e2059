import DaiScript.Proofs.Fence

/-! Faults do not cascade over a semicolon. In front of it a statement may be broken in any way:
neither the statement nor the search for the next one gets past the semicolon, so reading starts
afresh behind it. Braces apart, what is reported of two pieces of tokens is what is reported of
each. -/
namespace DaiScript

open Grammar

theorem Ensuing.of_find? {tokens : List Token} (ended : ∃ t ∈ tokens, t.kind = .finish)
    (other : ∀ t, tokens.find? (·.kind ≠ .newline) = some t → t.kind ≠ .keyword .natra) :
    Ensuing tokens := by
  obtain ⟨breaks, rest, rfl, newlines, solid⟩ := exists_breaks tokens
  have skipped : breaks.find? (·.kind ≠ .newline) = none := by simpa using newlines
  obtain ⟨f, hf, finish⟩ := ended
  have inside : f ∈ rest := by
    refine (List.mem_append.mp hf).resolve_left fun early => ?_
    have := newlines f early
    simp [finish] at this
  cases rest with
  | nil => cases inside
  | cons t rest =>
    have solid : t.kind ≠ .newline := solid t rfl
    have found : (breaks ++ t :: rest).find? (·.kind ≠ .newline) = some t := by
      rw [List.find?_append, skipped]
      simp [solid]
    exact .intro newlines solid (other t found) ⟨f, inside, finish⟩

namespace Grammar

theorem reports_bind_pure (p : Parsing α) (f : α → β) (s : Stream) :
    reports ((p >>= fun a => Pure.pure (f a)) s) = reports (p s) := by
  rw [Process.bind_apply]
  cases p s <;> rfl

end Grammar

namespace Continuations

private theorem exists_crossed {P : Continuations} (bare : ¬P.braced) {k k' n m spare : Nat}
    {s t : Stream} (wider : k ≤ k') (enough : n + spare ≤ m) (arrived : P.Arrived s t)
    (ends : sequence (statementWithin k) .finish n s ≠ .endless) :
    ∃ behind rounds, spare ≤ rounds ∧
      reports (sequence (statementWithin k') .finish m t) =
        reports (sequence (statementWithin k') .finish rounds ⟨.between behind P.tail',
          some (reports (sequence (statementWithin k) .finish n s))⟩) := by
  have outcome : P.SequencesAgree (statementWithin k') .finish spare _ _ :=
    sequencesAgree_sequence (parseAlike_statementWithin wider) (.inr bare) enough arrived
  cases run : sequence (statementWithin k) .finish n s with
  | endless => exact absurd run ends
  | failed e s => rw [run] at outcome; cases outcome
  | done body s =>
    rw [run] at outcome
    generalize sequence (statementWithin k') .finish m t = o at outcome
    cases outcome with
    | stopped front =>
      have inside := front.1.peek_eq.2
      obtain ended | ended := stop_of_sequence run
      · exact absurd (beq_iff_eq.mp ended) inside
      · simp [Cursor.check, Cursor.atEnd] at ended
    | @crossed _ _ behind rounds enough exhausted =>
      obtain ⟨c, noted⟩ := s
      cases noted with
      | none => exact absurd rfl exhausted.recovers
      | some noted => exact ⟨behind, rounds, enough, reports_bind_pure _ _ _⟩
    | lost braced _ _ => exact absurd braced bare

end Continuations

/-- A semicolon stops a cascade of faults. Tokens without braces that end with a semicolon, however
broken, and any tokens behind them that do not go on with `natra`, have together the faults that
they have apart. -/
theorem Program.faults_append_of_semicolon {body rest : List Token} {semicolon stop : Token}
    (hsemicolon : semicolon.kind = .symbol .semicolon) (hstop : stop.kind = .finish)
    (inside : ∀ t ∈ body, t.kind ≠ .finish) (bare : ∀ t ∈ body, t.kind.isBrace = false)
    (ended : ∃ t ∈ rest, t.kind = .finish)
    (other : ∀ t, rest.find? (·.kind ≠ .newline) = some t → t.kind ≠ .keyword .natra) :
    ∃ first second, faults (body ++ [semicolon] ++ [stop]) = some first ∧
      faults rest = some second ∧ faults (body ++ [semicolon] ++ rest) =
      some (first ++ second) := by
  have ensuing := Ensuing.of_find? ended other
  let P : Continuations := ⟨[stop], rest, False, .finish hstop, ensuing, ensuing.length_pos⟩
  have fenced : Fenced False (body ++ [semicolon]) := by
    refine ⟨⟨semicolon, by simp, by rw [hsemicolon]; rfl⟩, ?_, ?_⟩
    · rw [List.forall_mem_append]
      exact ⟨inside, by simp [hsemicolon]⟩
    · rw [List.forall_mem_append]
      exact ⟨fun t ht => by simp [bare t ht], by simp [hsemicolon, Kind.isBrace]⟩
  have arrived : P.Arrived ⟨.between [] (body ++ [semicolon] ++ [stop]), some []⟩
      ⟨.between [] (body ++ [semicolon] ++ rest), some []⟩ := ⟨.before (.intro fenced), rfl, nofun⟩
  obtain ⟨f, hf, finish⟩ := ended
  have ended' : ∃ t ∈ body ++ [semicolon] ++ [stop], t.kind = .finish := ⟨stop, by simp, hstop⟩
  obtain ⟨first, hfirst, run⟩ := Program.exists_faults ended'
  obtain ⟨second, hsecond, run'⟩ := Program.exists_faults ⟨f, hf, finish⟩
  obtain ⟨both, hboth, run''⟩ :=
    Program.exists_faults ⟨f, List.mem_append_right (body ++ [semicolon]) hf, finish⟩
  let size := (body ++ [semicolon] ++ [stop]).length
  have left : (Cursor.ofTokens (body ++ [semicolon] ++ [stop])).left < size :=
    Cursor.Grounded.left_lt ⟨rfl, ended'⟩
  have bound : (body ++ [semicolon] ++ rest).length ≤ size + rest.length := by
    simp only [size, List.length_append]
    omega
  obtain ⟨behind, rounds, enough, crossed⟩ :=
    P.exists_crossed id (Nat.le_add_right size rest.length)
    (Nat.le_refl (size + rest.length)) arrived
    (parses_sequence (formsBelow_statementWithin _) ⟨rfl, ended'⟩ left left).not_endless
  rw [run'' bound bound, run (Nat.le_refl _) (Nat.le_refl _),
    run' (Nat.le_add_left _ _) enough] at crossed
  exact ⟨first, second, hfirst, hsecond, hboth.trans (congrArg some crossed)⟩

theorem Program.faults_append_of_semicolon_yadi :
    let body : List Token := [⟨.keyword .yadi, ⟨1, 1, 0⟩⟩, ⟨.keyword .bhane, ⟨1, 6, 5⟩⟩]
    let semicolon : Token := ⟨.symbol .semicolon, ⟨1, 12, 11⟩⟩
    let rest : List Token := [⟨.newline, ⟨1, 13, 12⟩⟩, ⟨.symbol .closeParen, ⟨2, 1, 13⟩⟩,
      ⟨.symbol .semicolon, ⟨2, 2, 14⟩⟩, .finish ⟨2, 3, 15⟩]
    let fault : SyntaxError := ⟨.noExpression "'bhane'", ⟨1, 6, 5⟩⟩
    let fault' : SyntaxError := ⟨.noExpression "')'", ⟨2, 1, 13⟩⟩
    (∀ t ∈ body, t.kind ≠ .finish) ∧ (∀ t ∈ body, t.kind.isBrace = false) ∧
      faults (body ++ [semicolon] ++ [.finish ⟨1, 13, 12⟩]) = some [fault] ∧
      faults rest = some [fault'] ∧ faults (body ++ [semicolon] ++ rest) =
        some [fault, fault'] := by
  intro body semicolon rest fault fault'
  have inside : ∀ t ∈ body, t.kind ≠ .finish := by decide
  have bare : ∀ t ∈ body, t.kind.isBrace = false := by decide
  have one : faults (body ++ [semicolon] ++ [.finish ⟨1, 13, 12⟩]) = some [fault] := by
    dsimp only [body, semicolon, fault]
    cbv
  have other : faults rest = some [fault'] := by
    dsimp only [rest, fault']
    cbv
  have ended : ∃ t ∈ rest, t.kind = .finish := by decide
  have onward : ∀ t, rest.find? (·.kind ≠ .newline) = some t → t.kind ≠ .keyword .natra := by
    intro t found
    cases found
    decide
  have hsemicolon : semicolon.kind = .symbol .semicolon := rfl
  have hstop : (Token.finish ⟨1, 13, 12⟩).kind = .finish := rfl
  obtain ⟨first, second, hfirst, hsecond, both⟩ :=
    faults_append_of_semicolon hsemicolon hstop inside bare ended onward
  rw [one] at hfirst
  rw [other] at hsecond
  cases hfirst
  cases hsecond
  exact ⟨inside, bare, one, other, both⟩

end DaiScript
