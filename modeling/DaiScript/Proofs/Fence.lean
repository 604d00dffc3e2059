import DaiScript.Proofs.Ahead

/-! Tokens that part behind a semicolon or a closing brace. No expression passes these two, and a
statement that passes one of them last does not look at what follows, `natra` apart. So two streams
with the same tokens up to such a fence do the same up to it; only a block that is still open there
looks further. -/
namespace DaiScript

open Grammar Reading

inductive Blank : List Token → Prop
  | intro {breaks more : List Token} {t : Token} :
      (∀ b ∈ breaks, b.kind = .newline) → t.kind = .finish → Blank (breaks ++ t :: more)

/-- The tokens may stand behind a statement: there is an end of input among them, and the first of
them that is no line break is not `natra`. -/
inductive Ensuing : List Token → Prop
  | intro {breaks more : List Token} {t : Token} :
      (∀ b ∈ breaks, b.kind = .newline) → t.kind ≠ .newline → t.kind ≠ .keyword .natra →
      (∃ f ∈ t :: more, f.kind = .finish) → Ensuing (breaks ++ t :: more)

theorem Blank.finish {t : Token} (h : t.kind = .finish) : Blank [t] := by
  change Blank ([] ++ [t])
  exact .intro (by simp) h

theorem Blank.ensuing {tail : List Token} (h : Blank tail) : Ensuing tail := by
  obtain @⟨breaks, more, t, newlines, finish⟩ := h
  exact .intro newlines (by simp [finish]) (by simp [finish]) ⟨t, List.mem_cons_self, finish⟩

theorem Ensuing.length_pos {tail : List Token} (h : Ensuing tail) : 0 < tail.length := by
  obtain ⟨-, -, -, -⟩ := h
  simp

section

variable {tail : List Token} (behind : List Token)

theorem Blank.pastNewlines (h : Blank tail) :
    (Cursor.between behind tail).pastNewlines.peek.kind = .finish := by
  obtain @⟨breaks, more, t, newlines, finish⟩ := h
  rw [Cursor.pastNewlines_append newlines, Cursor.pastNewlines_cons (by simp [finish])]
  exact finish

theorem Ensuing.pastNewlines (h : Ensuing tail) :
    (Cursor.between behind tail).pastNewlines.peek.kind ≠ .keyword .natra := by
  obtain @⟨breaks, more, t, newlines, other, other', -⟩ := h
  rw [Cursor.pastNewlines_append newlines, Cursor.pastNewlines_cons other]
  exact other'

theorem Ensuing.grounded (h : Ensuing tail) (body : List Token) :
    (Cursor.between behind (body ++ tail)).Grounded := by
  obtain @⟨breaks, more, t, -, -, -, f, hf, finish⟩ := h
  exact ⟨rfl, f, by simp [Cursor.between, List.mem_cons.mp hf], finish⟩

end

def Kind.isFence : Kind → Bool
  | .symbol .semicolon | .symbol .closeBrace => true
  | _ => false

/-- The tokens go up to a fence. Braces stand among them only if they may. -/
structure Fenced (braced : Prop) (body : List Token) : Prop where
  fence : ∃ t, body.getLast? = some t ∧ t.kind.isFence = true
  inside : ∀ t ∈ body, t.kind ≠ .finish
  brace : ∀ t ∈ body, t.kind.isBrace = true → braced

namespace Fenced

variable {braced : Prop} {t : Token} {body breaks : List Token}

theorem tail (h : Fenced braced (t :: body)) : body = [] ∨ Fenced braced body := by
  obtain ⟨⟨last, final, fence⟩, inside, brace⟩ := h
  cases body with
  | nil => exact .inl rfl
  | cons u body =>
    rw [List.getLast?_cons_cons] at final
    exact .inr ⟨⟨last, final, fence⟩, fun v hv => inside v (List.mem_cons_of_mem t hv),
      fun v hv => brace v (List.mem_cons_of_mem t hv)⟩

theorem tail_of_other (h : Fenced braced (t :: body)) (other : t.kind.isFence = false) :
    Fenced braced body := by
  refine h.tail.resolve_left ?_
  rintro rfl
  obtain ⟨last, final, fence⟩ := h.fence
  rw [List.getLast?_singleton] at final
  cases final
  rw [other] at fence
  contradiction

private theorem of_breaks (h : Fenced braced (breaks ++ body))
    (newlines : ∀ b ∈ breaks, b.kind = .newline) :
    Fenced braced body := by
  induction breaks with
  | nil => exact h
  | cons b breaks ih =>
    rw [List.forall_mem_cons] at newlines
    exact ih (h.tail_of_other (by rw [newlines.1]; rfl)) newlines.2

theorem exists_cons (h : Fenced braced body) :
    ∃ t rest, body = t :: rest ∧ t.kind ≠ .finish := by
  cases body with
  | nil =>
    obtain ⟨_, final, -⟩ := h.fence
    cases final
  | cons t rest => exact ⟨t, rest, rfl, h.inside t List.mem_cons_self⟩

end Fenced

namespace Grammar

theorem under_bind (r : Reading α) (next : α → Reading β) :
    under (r >>= next) = under r >>= fun a => under (next a) := by
  funext s
  rw [Process.bind_apply, under_apply, under_apply, Process.bind_apply]
  cases r s.cursor <;> rfl

/-! Readings that pass the token under the cursor, or reject it. -/

section

variable {c : Cursor} {u : Token}

theorem expect_on {kind : Kind} (inside : kind ≠ .finish) (grounded : c.Grounded)
    (peek : c.peek = u) :
    expect kind c = if u.kind = kind then .done u c.advance
      else .failed ⟨.unexpected kind.describe u.describe, u.position⟩ c := by
  subst peek
  exact expect_eq grounded inside

theorem close_on {symbol : Symbol} {delimiter : Char} (grounded : c.Grounded) (peek : c.peek = u) :
    close symbol delimiter c = if u.kind = .symbol symbol then .done () c.advance
      else .failed ⟨.unclosed delimiter u.describe, u.position⟩ c := by
  subst peek
  exact close_eq grounded

end

end Grammar

/-! ### Continuations -/

/-- Two ways to go on behind a fence, in the first of which nothing is left to read. -/
structure Continuations where
  tail : List Token
  tail' : List Token
  /-- Whether braces may stand in front of the fence. -/
  braced : Prop
  blank : Blank tail
  ensuing : Ensuing tail'
  longer : tail.length ≤ tail'.length

namespace Continuations

variable (P : Continuations)

inductive Before : Cursor → Cursor → Prop
  | intro {behind body : List Token} : Fenced P.braced body →
      Before (.between behind (body ++ P.tail)) (.between behind (body ++ P.tail'))

inductive Upto : Cursor → Cursor → Prop
  | before {c d : Cursor} : P.Before c d → Upto c d
  | behind {behind : List Token} : Upto (.between behind P.tail) (.between behind P.tail')

variable {P} {c d : Cursor}

theorem Upto.grounded (h : P.Upto c d) : c.Grounded ∧ d.Grounded := by
  obtain @⟨_, _, ⟨fenced⟩⟩ | _ := h
  · exact ⟨P.blank.ensuing.grounded _ _, P.ensuing.grounded _ _⟩
  · exact ⟨P.blank.ensuing.grounded _ [], P.ensuing.grounded _ []⟩

namespace Before

theorem peek_eq (h : P.Before c d) : d.peek = c.peek ∧ c.peek.kind ≠ .finish := by
  obtain ⟨fenced⟩ := h
  obtain ⟨t, rest, rfl, inside⟩ := fenced.exists_cons
  exact ⟨rfl, inside⟩

theorem check_eq (h : P.Before c d) (kind : Kind) : d.check kind = c.check kind := by
  rw [Cursor.check, Cursor.check, Cursor.atEnd, Cursor.atEnd, h.peek_eq.1]

private theorem previous_eq (h : P.Before c d) : d.previous = c.previous := by
  obtain @⟨behind, body, fenced⟩ := h
  obtain ⟨t, rest, rfl, inside⟩ := fenced.exists_cons
  cases behind <;> rfl

theorem advance (h : P.Before c d) (other : c.peek.kind.isFence = false) :
    P.Before c.advance d.advance := by
  obtain @⟨behind, body, fenced⟩ := h
  obtain ⟨t, rest, rfl, inside⟩ := fenced.exists_cons
  rw [List.cons_append, List.cons_append, advance_cons inside, advance_cons inside]
  exact .intro (fenced.tail_of_other other)

theorem advance_upto (h : P.Before c d) : P.Upto c.advance d.advance := by
  obtain @⟨behind, body, fenced⟩ := h
  obtain ⟨t, rest, rfl, inside⟩ := fenced.exists_cons
  rw [List.cons_append, List.cons_append, advance_cons inside, advance_cons inside]
  obtain rfl | rest := fenced.tail
  · exact .behind
  · exact .before (.intro rest)

theorem pastNewlines (h : P.Before c d) :
    P.Before c.pastNewlines d.pastNewlines ∧ c.pastNewlines.peek.kind ≠ .newline := by
  obtain @⟨behind, body, fenced⟩ := h
  obtain ⟨breaks, rest, rfl, newlines, other⟩ := exists_breaks body
  have rest' := fenced.of_breaks newlines
  obtain ⟨t, more, rfl, inside⟩ := rest'.exists_cons
  have other : t.kind ≠ .newline := other t rfl
  rw [List.append_assoc, List.append_assoc, Cursor.pastNewlines_append newlines,
    Cursor.pastNewlines_append newlines, List.cons_append, List.cons_append,
    Cursor.pastNewlines_cons other, Cursor.pastNewlines_cons other]
  exact ⟨.intro rest', other⟩

end Before

theorem Upto.reach (h : P.Upto c d) : c.reach ≤ d.reach := by
  have longer := P.longer
  obtain @⟨_, _, ⟨fenced⟩⟩ | _ := h
  · simp only [Cursor.reach, Cursor.between, List.length_append]
    omega
  · simp only [Cursor.reach, Cursor.between]
    omega

def stops (kind : Kind) : Bool := kind.isIdle || kind.isFence

theorem stops_finish : stops .finish = true := rfl

theorem isInner_of_stops {kind : Kind} (h : stops kind = true) : kind.isInner = false := by
  unfold stops at h
  rw [Bool.or_eq_true] at h
  obtain idle | fence := h
  · exact isInner_of_isIdle idle
  · unfold Kind.isFence at fence
    split at fence
    · rfl
    · rfl
    · contradiction

private theorem isFence_of_not_stops {kind : Kind} (h : stops kind = false) :
    kind.isFence = false :=
  (Bool.or_eq_false_iff.mp h).2

def tracking (P : Continuations) : Tracking where
  move := id
  cursors := P.Before
  error e e' := e' = e
  excused e := e = none
  mute := stops
  outer := isInner_of_stops
  ended := rfl
  grounded h := (Upto.before h).grounded
  idle h mute := by rwa [h.peek_eq.1]
  solid h _ := h.peek_eq.1
  advance h solid := h.advance (isFence_of_not_stops solid)
  reject cause h := by
    rw [h.peek_eq.1]
    exact .inr rfl
  reach h := .of_le rfl (Upto.before h).reach

/-! ### Streams -/

def InFront (P : Continuations) (s t : Stream) : Prop :=
  P.Before s.cursor t.cursor ∧ t.noted = s.noted ∧ s.noted ≠ none

def Arrived (P : Continuations) (s t : Stream) : Prop :=
  P.Upto s.cursor t.cursor ∧ t.noted = s.noted ∧ s.noted ≠ none

structure Exhausted (s : Stream) : Prop where
  grounded : s.cursor.Grounded
  ended : s.cursor.peek.kind = .finish
  recovers : s.noted ≠ none

/-- What becomes of a statement in front of a fence: it is read alike, at most up to the fence; it
fails alike, in front of the fence; or it has an open block, and then the first stream fails at its
end. -/
inductive AgreeToFence (P : Continuations) :
    Outcome SyntaxError Stream α → Outcome SyntaxError Stream α → Prop
  | done {a : α} {s t : Stream} : P.Arrived s t → AgreeToFence P (.done a s) (.done a t)
  | failed {e : SyntaxError} {s t : Stream} : P.InFront s t →
    AgreeToFence P (.failed e s) (.failed e t)
  | lost {e : SyntaxError} {s : Stream} {o : Outcome SyntaxError Stream α} :
      P.braced → Exhausted s → AgreeToFence P (.failed e s) o
  | endless {o : Outcome SyntaxError Stream α} : AgreeToFence P .endless o

def ParseAlikeToFence (P : Continuations) (p q : Parsing α) : Prop :=
  ∀ ⦃s t⦄, P.InFront s t → P.AgreeToFence (p s) (q t)

variable {s t : Stream}

theorem InFront.arrived (h : P.InFront s t) : P.Arrived s t :=
  ⟨.before h.1, h.2⟩

theorem InFront.grounded (h : P.InFront s t) : s.cursor.Grounded ∧ t.cursor.Grounded :=
  h.arrived.1.grounded

theorem InFront.pastNewlines (h : P.InFront s t) :
    P.InFront s.pastNewlines t.pastNewlines ∧ s.pastNewlines.cursor.peek.kind ≠ .newline :=
  ⟨⟨h.1.pastNewlines.1, h.2⟩, h.1.pastNewlines.2⟩

namespace AgreeToFence

theorem bind {p q : Parsing α} {next next' : α → Parsing β} (h : P.AgreeToFence (p s) (q t))
    (k : ∀ a s t, P.Arrived s t → P.AgreeToFence (next a s) (next' a t)) :
    P.AgreeToFence ((p >>= next) s) ((q >>= next') t) := by
  rw [Process.bind_apply, Process.bind_apply]
  generalize p s = o at h
  generalize q t = o' at h
  cases h with
  | done arrived => exact k _ _ _ arrived
  | failed front => exact .failed front
  | lost braced exhausted => exact .lost braced exhausted
  | endless => exact .endless

theorem under_bind {r : Reading α} (h : Process.Matches P.tracking.readings Eq r r)
    {next next' : α → Parsing β} (front : P.InFront s t)
    (k : ∀ a s t, P.InFront s t → P.AgreeToFence (next a s) (next' a t)) :
    P.AgreeToFence ((under r >>= next) s) ((under r >>= next') t) := by
  rw [Process.bind_apply, Process.bind_apply, under_apply, under_apply]
  have outcome := h front.1
  generalize r s.cursor = o at outcome
  generalize r t.cursor = o' at outcome
  cases outcome with
  | done same related =>
    cases same
    exact k _ _ _ ⟨related, front.2⟩
  | failed same related =>
    cases same
    exact .failed ⟨related, front.2⟩
  | endless => exact .endless
  | excusedFailed excused => cases excused
  | excusedEndless => exact .endless

theorem pass_bind {r : Reading α} {kind : Kind} {value : Token → α} {fault : Token → SyntaxError}
    (step : ∀ {c : Cursor} {u : Token}, c.Grounded → c.peek = u →
      r c = if u.kind = kind then .done (value u) c.advance else .failed (fault u) c)
    {next next' : α → Parsing β} (front : P.InFront s t)
    (k : ∀ a s t, P.Arrived s t → P.AgreeToFence (next a s) (next' a t)) :
    P.AgreeToFence ((under r >>= next) s) ((under r >>= next') t) := by
  obtain ⟨hs, ht⟩ := front.grounded
  rw [Process.bind_apply, Process.bind_apply, under_apply, under_apply, step hs rfl,
    step ht front.1.peek_eq.1]
  by_cases hk : s.cursor.peek.kind = kind
  · rw [if_pos hk, if_pos hk]
    exact k _ _ _ ⟨front.1.advance_upto, front.2⟩
  · rw [if_neg hk, if_neg hk]
    exact .failed front

theorem expect_bind {kind : Kind} (inside : kind ≠ .finish) {next next' : Token → Parsing β}
    (front : P.InFront s t) (k : ∀ u s t, P.Arrived s t → P.AgreeToFence (next u s) (next' u t)) :
    P.AgreeToFence ((under (expect kind) >>= next) s) ((under (expect kind) >>= next') t) :=
  pass_bind (expect_on inside) front k

theorem close_bind {symbol : Symbol} {delimiter : Char} {next next' : Unit → Parsing β}
    (front : P.InFront s t) (k : ∀ u s t, P.Arrived s t → P.AgreeToFence (next u s) (next' u t)) :
    P.AgreeToFence ((under (close symbol delimiter) >>= next) s)
      ((under (close symbol delimiter) >>= next') t) :=
  pass_bind close_on front k

end AgreeToFence

/-! ### Readings -/

theorem expression_matches : Process.Matches P.tracking.readings Eq expression expression :=
  Tracking.expression_matches_same rfl

theorem expect_matches {kind : Kind} (solid : stops kind = false) :
    Process.Matches P.tracking.readings Eq (expect kind) (expect kind) :=
  Tracking.expect_matches_same rfl solid

theorem unended_matches : Process.Matches P.tracking.readings Eq unended unended :=
  Tracking.unended_matches_same rfl (fun _ => rfl) fun related => Before.check_eq related _

private theorem parseAlike_simple : P.ParseAlikeToFence (under simple) (under simple) := by
  intro s t front
  rw [simple_eq, under_bind]
  apply AgreeToFence.under_bind unended_matches front
  intro a s t front
  rw [under_bind]
  exact AgreeToFence.expect_bind (by simp) front fun _ _ _ arrived => .done arrived

/-! ### Conditionals -/

theorem Upto.natra (h : P.Upto c d) :
    c.pastNewlines.peek.kind ≠ .keyword .natra ∧ d.pastNewlines.peek.kind ≠ .keyword .natra ∨
      P.Before c.pastNewlines d.pastNewlines := by
  obtain @⟨_, _, before⟩ | _ := h
  · exact .inr before.pastNewlines.1
  · exact .inl ⟨P.blank.ensuing.pastNewlines _, P.ensuing.pastNewlines _⟩

section

variable {statement statement' : Parsing Stmt} (h : P.ParseAlikeToFence statement statement')
include h

private theorem agree_otherwise (test : Expr) (consequent : Stmt) (arrived : P.Arrived s t) :
    P.AgreeToFence (otherwise statement test consequent s)
      (otherwise statement' test consequent t) := by
  obtain ⟨hs, ht⟩ := arrived.1.grounded
  rw [otherwise_eq hs, otherwise_eq ht]
  obtain ⟨other, other'⟩ | before := arrived.1.natra
  · rw [if_neg other, if_neg other']
    exact .done arrived
  · rw [before.peek_eq.1]
    split
    · next hk =>
      have front : P.InFront { s with cursor := s.cursor.pastNewlines.advance }
          { t with cursor := t.cursor.pastNewlines.advance } :=
        ⟨before.advance (by rw [hk]; rfl), arrived.2⟩
      exact (h front).bind fun _ _ _ arrived => .done arrived
    · exact .done arrived

private theorem parseAlike_branch : P.ParseAlikeToFence (branch statement) (branch statement') := by
  intro s t front
  rw [branch_eq, branch_eq]
  apply AgreeToFence.under_bind expression_matches front
  intro test s t front
  apply AgreeToFence.under_bind (expect_matches rfl) front
  intro _ s t front
  exact (h front).bind fun consequent _ _ arrived => agree_otherwise h test consequent arrived

end

/-! ### Recovery -/

theorem Before.passed (h : P.Before c d) (other : c.peek.kind ≠ .symbol .closeBrace) :
    P.Before c.advance d.advance ∨ c.advance.previous.kind = .symbol .semicolon ∧
      d.advance.previous.kind = .symbol .semicolon := by
  cases fence : c.peek.kind.isFence with
  | false => exact .inl (h.advance fence)
  | true =>
    have semicolon : c.peek.kind = .symbol .semicolon := by
      unfold Kind.isFence at fence
      split at fence
      · assumption
      · contradiction
      · contradiction
    obtain ⟨hc, hd⟩ := (Upto.before h).grounded
    obtain ⟨same, inside⟩ := h.peek_eq
    rw [hc.previous_advance inside, hd.previous_advance (by rwa [same]), same]
    exact .inr ⟨semicolon, semicolon⟩

/-- The search for the next statement stops in front of a closing brace and behind a semicolon, so
it does not get past the fence. -/
theorem seekStatement_upto {n m : Nat} (wider : n ≤ m) {c d : Cursor} (h : P.Upto c d)
    (passed : P.Before c d ∨
      c.previous.kind = .symbol .semicolon ∧ d.previous.kind = .symbol .semicolon) :
    seekStatement n c = .endless ∨ ∃ c' d', seekStatement n c = .done () c' ∧
      seekStatement m d = .done () d' ∧ P.Upto c' d' := by
  induction n generalizing m c d with
  | zero => exact .inl rfl
  | succ n ih =>
    obtain ⟨m, rfl⟩ := Nat.exists_eq_add_of_le' (show 1 ≤ m by omega)
    rw [seekStatement_succ, seekStatement_succ]
    obtain before | ⟨semicolon, semicolon'⟩ := passed
    · rw [Cursor.atEnd, Cursor.atEnd, before.previous_eq, before.peek_eq.1]
      split
      · exact .inr ⟨c, d, rfl, rfl, h⟩
      · next going =>
        have other : c.peek.kind ≠ .symbol .closeBrace := by
          intro hk
          simp [hk, resumes] at going
        exact ih (by omega) before.advance_upto (before.passed other)
    · rw [semicolon, semicolon']
      simp only [beq_self_eq_true, Bool.or_true, Bool.true_or, if_true]
      exact .inr ⟨c, d, rfl, rfl, h⟩

/-- A closing brace in front of the fence is passed by the sequence that it closes, not by
recovery. -/
theorem resumed_upto {closing : Kind} {c d : Cursor} (h : P.Before c d)
    (guard : c.peek.kind = .symbol .closeBrace → closing = .symbol .closeBrace) :
    resumed closing c = .endless ∨ ∃ c' d', resumed closing c = .done () c' ∧
      resumed closing d = .done () d' ∧ P.Upto c' d' := by
  unfold resumed
  rw [h.check_eq]
  split
  · exact .inr ⟨c, d, rfl, rfl, .before h⟩
  · next resting =>
    have other : c.peek.kind ≠ .symbol .closeBrace := by
      intro hk
      rw [guard hk] at resting
      simp [Cursor.check, Cursor.atEnd, hk] at resting
    have wider : c.advance.reach ≤ d.advance.reach := h.advance_upto.reach
    exact seekStatement_upto wider h.advance_upto (h.passed other)

private theorem recover_upto {fault : SyntaxError} {closing : Kind} (front : P.InFront s t)
    (guard : s.cursor.peek.kind = .symbol .closeBrace → closing = .symbol .closeBrace) :
    recover fault closing s = .endless ∨ ∃ s' t', recover fault closing s = .done () s' ∧
      recover fault closing t = .done () t' ∧ P.Arrived s' t' := by
  obtain ⟨c, _⟩ := s
  obtain ⟨d, noted⟩ := t
  obtain ⟨before, rfl, recovers⟩ := front
  rw [recover_eq, recover_eq]
  dsimp only at before guard ⊢
  obtain endless | ⟨c', d', run, run', upto⟩ := resumed_upto before guard
  · rw [endless]
    exact .inl rfl
  · cases noted with
    | none => exact absurd rfl recovers
    | some faults =>
      rw [run, run']
      exact .inr ⟨_, _, rfl, rfl, upto, rfl, nofun⟩

/-! ### At the end -/

namespace Exhausted

theorem pastNewlines (h : Exhausted s) : s.pastNewlines = s := by
  have still := h.grounded.pastNewlines_eq (by simp [h.ended])
  unfold Stream.pastNewlines
  rw [still]

theorem recover (h : Exhausted s) (fault : SyntaxError) (closing : Kind) :
    ∃ s', Grammar.recover fault closing s = .done () s' ∧ Exhausted s' ∧ s'.noted ≠ some [] := by
  obtain ⟨grounded, ended, recovers⟩ := h
  obtain ⟨c, noted⟩ := s
  rw [recover_eq]
  dsimp only
  rw [resumed_of_end closing ended]
  cases noted with
  | none => exact absurd rfl recovers
  | some faults => exact ⟨_, rfl, ⟨grounded, ended, Option.some_ne_none _⟩, by simp⟩

theorem sequence (h : Exhausted s) (statement : Parsing Stmt) (closing : Kind) (n : Nat) :
    Grammar.sequence statement closing n s = .endless ∨
      Grammar.sequence statement closing n s = .done [] s := by
  cases n with
  | zero => exact .inl rfl
  | succ n =>
    have stopped : (s.pastNewlines.cursor.atEnd || s.pastNewlines.cursor.check closing) = true := by
      rw [h.pastNewlines, Cursor.atEnd, h.ended]
      rfl
    rw [sequence_of_stopped h.grounded stopped, h.pastNewlines]
    exact .inr rfl

end Exhausted

/-! ### Sequences -/

/-- What becomes of a sequence in front of a fence or just behind it: both streams stop there; or
the first comes to its end behind the fence, and the second goes on there with `spare` rounds at
least; or a block was still open at the end of the first, which has noted so. -/
inductive SequencesAgree (P : Continuations) (statement : Parsing Stmt) (closing : Kind)
    (spare : Nat) :
    Outcome SyntaxError Stream (List Stmt) → Outcome SyntaxError Stream (List Stmt) → Prop
  | stopped {body : List Stmt} {s t : Stream} : P.InFront s t →
      SequencesAgree P statement closing spare (.done body s) (.done body t)
  | crossed {body : List Stmt} {s : Stream} {behind : List Token} {rounds : Nat} :
      spare ≤ rounds → Exhausted s →
      SequencesAgree P statement closing spare (.done body s)
        ((sequence statement closing rounds >>= fun more => Pure.pure (body ++ more))
          ⟨.between behind P.tail', s.noted⟩)
  | lost {body : List Stmt} {s : Stream} {o : Outcome SyntaxError Stream (List Stmt)} :
      P.braced → Exhausted s → s.noted ≠ some [] →
        SequencesAgree P statement closing spare (.done body s) o
  | endless {o : Outcome SyntaxError Stream (List Stmt)} :
      SequencesAgree P statement closing spare .endless o

theorem SequencesAgree.cons {statement : Parsing Stmt} {closing : Kind} {spare : Nat} (first : Stmt)
    {p q : Parsing (List Stmt)} (h : P.SequencesAgree statement closing spare (p s) (q t)) :
    P.SequencesAgree statement closing spare ((p >>= fun rest => Pure.pure (first :: rest)) s)
      ((q >>= fun rest => Pure.pure (first :: rest)) t) := by
  rw [Process.bind_apply, Process.bind_apply]
  generalize p s = o at h
  generalize found : q t = o' at h
  cases h with
  | stopped front => exact .stopped front
  | @crossed body s' behind rounds enough exhausted =>
    have onward : P.SequencesAgree statement closing spare (.done (first :: body) s')
        ((sequence statement closing rounds >>= fun more => Pure.pure (first :: body ++ more))
          ⟨.between behind P.tail', s'.noted⟩) := .crossed enough exhausted
    rw [← Process.bind_apply, bind_assoc]
    exact onward
  | lost braced exhausted blotted => exact .lost braced exhausted blotted
  | endless => exact .endless

theorem Before.braced_of_peek (h : P.Before c d) (brace : c.peek.kind.isBrace = true) :
    P.braced := by
  obtain @⟨behind, body, fenced⟩ := h
  obtain ⟨t, rest, rfl, inside⟩ := fenced.exists_cons
  exact fenced.brace t List.mem_cons_self brace

section

variable {statement statement' : Parsing Stmt} (h : P.ParseAlikeToFence statement statement')
include h

private theorem sequencesAgree_round {closing : Kind}
    (guard : closing = .symbol .closeBrace ∨ ¬P.braced) {more more' : Parsing (List Stmt)}
    {spare : Nat}
    (k : ∀ {s t}, P.Arrived s t → P.SequencesAgree statement' closing spare (more s) (more' t))
    (stuck : ∀ {s}, Exhausted s → more s = .endless ∨ more s = .done [] s) (front : P.InFront s t) :
    P.SequencesAgree statement' closing spare (round statement closing more s)
      (round statement' closing more' t) := by
  rw [round_eq, round_eq]
  have outcome := h front
  generalize statement s = o at outcome
  generalize statement' t = o' at outcome
  cases outcome with
  | endless => exact .endless
  | done arrived => exact (k arrived).cons _
  | @failed e s t front =>
    have guard' : s.cursor.peek.kind = .symbol .closeBrace → closing = .symbol .closeBrace := by
      intro hk
      refine guard.resolve_right fun bare => bare ?_
      exact front.1.braced_of_peek (by rw [hk]; rfl)
    dsimp only
    rw [Process.bind_apply, Process.bind_apply]
    obtain endless | ⟨s', t', run, run', arrived⟩ := recover_upto front guard'
    · rw [endless]
      exact .endless
    · rw [run, run']
      exact k arrived
  | @lost e s o braced exhausted =>
    obtain ⟨s', run, exhausted', blotted⟩ := exhausted.recover e closing
    dsimp only
    rw [Process.bind_apply, run]
    dsimp only
    obtain endless | done := stuck exhausted'
    · rw [endless]
      exact .endless
    · rw [done]
      exact .lost braced exhausted' blotted

theorem sequencesAgree_sequence {closing : Kind} (guard : closing = .symbol .closeBrace ∨ ¬P.braced)
    {n m spare : Nat} (enough : n + spare ≤ m) (arrived : P.Arrived s t) :
    P.SequencesAgree statement' closing spare (sequence statement closing n s)
      (sequence statement' closing m t) := by
  induction n generalizing m s t with
  | zero => exact .endless
  | succ n ih =>
    obtain ⟨m, rfl⟩ := Nat.exists_eq_add_of_le' (show 1 ≤ m by omega)
    obtain ⟨hs, ht⟩ := arrived.1.grounded
    obtain ⟨c, _⟩ := s
    obtain ⟨d, noted⟩ := t
    obtain ⟨upto, rfl, recovers⟩ := arrived
    dsimp only at upto hs ht recovers ⊢
    obtain @⟨_, _, before⟩ | @⟨behind⟩ := upto
    · have front : P.InFront ⟨c, noted⟩ ⟨d, noted⟩ := ⟨before, rfl, recovers⟩
      obtain ⟨front', -⟩ := front.pastNewlines
      rw [sequence_eq hs, sequence_eq ht, Cursor.atEnd, Cursor.atEnd, front'.1.peek_eq.1,
        front'.1.check_eq]
      split
      · exact .stopped front'
      · exact sequencesAgree_round h guard (fun arrived => ih (by omega) arrived)
          (fun exhausted => exhausted.sequence _ _ _) front'
    · have ended := P.blank.pastNewlines behind
      have atEnd : (Cursor.between behind P.tail).pastNewlines.atEnd = true := beq_iff_eq.mpr ended
      obtain ⟨breaks, -, walk, -⟩ := hs.passes_pastNewlines
      have exhausted : Exhausted ⟨(Cursor.between behind P.tail).pastNewlines, noted⟩ :=
        ⟨walk.grounded hs, ended, recovers⟩
      have run : sequence statement closing (n + 1) ⟨.between behind P.tail, noted⟩ =
          .done [] ⟨(Cursor.between behind P.tail).pastNewlines, noted⟩ := by
        apply sequence_of_stopped hs
        exact Bool.or_eq_true_iff.mpr (.inl atEnd)
      have crossed : P.SequencesAgree statement' closing spare (.done [] _)
          ((sequence statement' closing (m + 1) >>= fun more => Pure.pure ([] ++ more))
            ⟨.between behind P.tail', noted⟩) := .crossed (by omega) exhausted
      rw [run]
      simp only [List.nil_append, bind_pure] at crossed
      exact crossed

/-- A block that is still open behind the fence is not closed at the end of the first stream. -/
theorem agree_block {n m : Nat} (wider : n ≤ m) (front : P.InFront s t)
    (opening : s.cursor.peek.kind = .symbol .openBrace) :
    P.AgreeToFence (block statement n s) (block statement' m t) := by
  have braced : P.braced := front.1.braced_of_peek (by rw [opening]; rfl)
  apply AgreeToFence.expect_bind (by simp) front
  intro _ s t arrived
  have unclosed : ∀ {body : List Stmt} {s : Stream} {o : Outcome SyntaxError Stream Stmt},
      Exhausted s →
      P.AgreeToFence ((do under (close .closeBrace '\x7d'); return Stmt.block body) s) o := by
    intro body s o exhausted
    have other : s.cursor.peek.kind ≠ .symbol .closeBrace := by simp [exhausted.ended]
    rw [Process.bind_apply, under_apply, close_eq exhausted.grounded, if_neg other]
    exact .lost braced exhausted
  have outcome : P.SequencesAgree statement' (.symbol .closeBrace) 0 _ _ :=
    sequencesAgree_sequence h (.inl rfl) wider arrived
  rw [Process.bind_apply, Process.bind_apply]
  generalize sequence statement _ n s = o at outcome
  generalize sequence statement' _ m t = o' at outcome
  cases outcome with
  | stopped front => exact AgreeToFence.close_bind front fun _ _ _ arrived => .done arrived
  | crossed _ exhausted => exact unclosed exhausted
  | lost _ exhausted _ => exact unclosed exhausted
  | endless => exact .endless

end

theorem parseAlike_statementWithin {k k' : Nat} (wider : k ≤ k') :
    P.ParseAlikeToFence (statementWithin k) (statementWithin k') := by
  induction k generalizing k' with
  | zero => exact fun _ _ _ => .endless
  | succ k ih =>
    obtain ⟨k', rfl⟩ := Nat.exists_eq_add_of_le' (show 1 ≤ k' by omega)
    have inner : P.ParseAlikeToFence (statementWithin k) (statementWithin k') := ih (by omega)
    intro s t front
    rw [statementWithin_eq front.grounded.1, statementWithin_eq front.grounded.2]
    replace front := front.pastNewlines.1
    generalize s.pastNewlines = s at front
    generalize t.pastNewlines = t at front
    have keyword : ∀ {p q : Parsing Stmt} {word : Keyword}, s.cursor.peek.kind = .keyword word →
        P.ParseAlikeToFence p q → P.AgreeToFence ((under advance >>= fun _ => p) s)
          ((under advance >>= fun _ => q) t) := by
      intro p q word hk alike
      exact alike ⟨front.1.advance (by rw [hk]; rfl), front.2⟩
    rw [front.1.peek_eq.1]
    generalize hk : s.cursor.peek.kind = kind
    unfold entered
    split
    · exact keyword hk (parseAlike_branch inner)
    · apply keyword hk
      intro s t front
      apply AgreeToFence.under_bind expression_matches front
      intro test s t front
      exact (inner front).bind fun _ _ _ arrived => .done arrived
    · exact agree_block inner (by omega) front hk
    · exact parseAlike_simple front

end Continuations

end DaiScript
