import DaiScript.Proofs.Joining

/-! Places are told and never asked for. Reading, recovery and runs hand on the places of tokens and
nodes, and nothing depends on them; so texts that differ in layout only are one text to a
session. -/
namespace DaiScript

open Grammar

def SyntaxError.moved (move : Position → Position) (e : SyntaxError) : SyntaxError :=
  { e with position := move e.position }

def Program.moved (move : Position → Position) (program : Program) : Program :=
  Stmt.transportAll id move program

def Program.readMoved (move : Position → Position) :
    Except SyntaxError Program → Except SyntaxError Program
  | .ok program => .ok (program.moved move)
  | .error e => .error (e.moved move)

def Cursor.moved (move : Position → Position) (c : Cursor) : Cursor :=
  ⟨c.behind.map (Token.moved move), c.ahead.map (Token.moved move), c.beyond⟩

/-! ### Cursors -/

namespace Cursor

variable (move : Position → Position) (c : Cursor)

theorem kind_peek_moved : (c.moved move).peek.kind = c.peek.kind := by
  obtain ⟨behind, ahead, beyond⟩ := c
  cases ahead <;> cases behind <;> rfl

theorem atEnd_moved : (c.moved move).atEnd = c.atEnd := by
  rw [atEnd, atEnd, kind_peek_moved]

private theorem check_moved (kind : Kind) : (c.moved move).check kind = c.check kind := by
  rw [check, check, atEnd_moved, kind_peek_moved]

theorem advance_moved : (c.moved move).advance = c.advance.moved move := by
  unfold advance
  rw [atEnd_moved]
  split
  · rfl
  · obtain ⟨behind, ahead, beyond⟩ := c
    cases ahead <;> rfl

theorem pastNewlines_moved : (c.moved move).pastNewlines = c.pastNewlines.moved move := by
  have same : (fun t : Token => t.kind == .newline) ∘ Token.moved move =
      fun t : Token => t.kind == .newline := rfl
  simp [pastNewlines, moved, List.takeWhile_map, List.dropWhile_map, same]

private theorem kind_previous_moved : (c.moved move).previous.kind = c.previous.kind := by
  have first : ∀ o : Option Token,
      ((o.map (Token.moved move)).getD (.finish .start)).kind = (o.getD (.finish .start)).kind := by
    intro o
    cases o <;> rfl
  obtain ⟨behind, ahead, beyond⟩ := c
  cases beyond with
  | zero =>
    cases behind with
    | nil => simpa [previous, moved] using first ahead.head?
    | cons t behind => rfl
  | succ n => simpa [previous, moved, Option.map_or] using first (behind.getLast?.or ahead.head?)

theorem reach_moved : (c.moved move).reach = c.reach := by
  simp [reach, moved]

variable {c}

theorem Grounded.moved (h : c.Grounded) : (c.moved move).Grounded := by
  obtain ⟨within, t, ht, finish⟩ := h
  exact ⟨within, t.moved move, List.mem_map_of_mem ht, finish⟩

theorem Grounded.peek_moved (h : c.Grounded) : (c.moved move).peek = c.peek.moved move := by
  unfold peek Cursor.moved
  rw [h.ahead_eq]
  rfl

end Cursor

/-! ### Recovery -/

namespace Grammar

theorem seekStatement_succ (bound : Nat) (c : Cursor) :
    seekStatement (bound + 1) c =
      if c.atEnd || c.previous.kind == .symbol .semicolon || resumes c.peek.kind then .done () c
      else seekStatement bound c.advance := by
  change (if c.atEnd || c.previous.kind == .symbol .semicolon || resumes c.peek.kind
    then Pure.pure ()
    else Reading.advance >>= fun _ => seekStatement bound : Reading Unit) c = _
  split <;> rfl

theorem resumed_of_end (closing : Kind) {c : Cursor} (ended : c.peek.kind = .finish) :
    resumed closing c = .done () c := by
  have atEnd : c.atEnd = true := beq_iff_eq.mpr ended
  have still : c.advance = c := by rw [Cursor.advance, if_pos atEnd]
  unfold resumed
  rw [Cursor.check, atEnd]
  change seekStatement (c.advance.ahead.length + 3 + 1) c.advance = _
  rw [still, seekStatement_succ, atEnd]
  rfl

private theorem seekStatement_moved (move : Position → Position) (bound : Nat) (c : Cursor) :
    seekStatement bound (c.moved move) = (seekStatement bound c).mapState (Cursor.moved move) := by
  induction bound generalizing c with
  | zero => rfl
  | succ bound ih =>
    rw [seekStatement_succ, seekStatement_succ, Cursor.atEnd_moved, Cursor.kind_previous_moved,
      Cursor.kind_peek_moved, Cursor.advance_moved, ih]
    split <;> rfl

private theorem resumed_moved (move : Position → Position) (closing : Kind) (c : Cursor) :
    resumed closing (c.moved move) = (resumed closing c).mapState (Cursor.moved move) := by
  unfold resumed
  rw [Cursor.check_moved]
  split
  · rfl
  · change seekStatement (c.moved move).advance.reach (c.moved move).advance =
      (seekStatement c.advance.reach c.advance).mapState (Cursor.moved move)
    rw [Cursor.advance_moved, Cursor.reach_moved, seekStatement_moved]

private theorem grounded_of_resumed {closing : Kind} {c d : Cursor} (grounded : c.Grounded)
    (run : resumed closing c = .done () d) : d.Grounded := by
  unfold resumed at run
  split at run
  · cases run
    exact grounded
  · obtain ⟨used, walk, -⟩ := (reads_synchronize grounded).of_done run
    exact walk.grounded grounded

end Grammar

/-! ### Reading -/

def StreamTracking.moving (move : Position → Position) : StreamTracking where
  move := move
  cursors c d := c.Grounded ∧ d = c.moved move
  error e e' := e' = e.moved move
  excused _ := False
  mute := Kind.isIdle
  outer := isInner_of_isIdle
  ended := isIdle_finish
  full := isIdle_iff
  grounded := by
    rintro c _ ⟨grounded, rfl⟩
    exact ⟨grounded, grounded.moved move⟩
  idle := by
    rintro c _ ⟨-, rfl⟩ idle
    rwa [Cursor.kind_peek_moved]
  solid := by
    rintro c _ ⟨grounded, rfl⟩ -
    exact grounded.peek_moved move
  advance := by
    rintro c _ ⟨grounded, rfl⟩ solid
    have inside : c.peek.kind ≠ .finish := by
      intro finish
      rw [finish] at solid
      contradiction
    exact ⟨(grounded.passes_advance inside).grounded grounded, Cursor.advance_moved move c⟩
  reject := by
    rintro c _ cause ⟨grounded, rfl⟩
    rw [grounded.peek_moved]
    exact .inr rfl
  reach := by
    rintro c _ ⟨-, rfl⟩
    rw [Cursor.reach_moved]
    exact .refl _
  notes first second := second = first.map (List.map (SyntaxError.moved move))
  plain excused := excused.elim
  skip := by
    rintro c _ ⟨grounded, rfl⟩
    obtain ⟨breaks, -, walk, -⟩ := grounded.passes_pastNewlines
    exact .inl ⟨walk.grounded grounded, Cursor.pastNewlines_moved move c⟩
  natra := by
    rintro c _ ⟨-, rfl⟩
    rw [Cursor.pastNewlines_moved, Cursor.kind_peek_moved]
  recover := by
    rintro ⟨c, noted⟩ ⟨_, _⟩ e _ closing ⟨grounded, rfl⟩ rfl rfl
    rw [recover_eq, recover_eq]
    dsimp only
    rw [resumed_moved]
    cases run : resumed closing c with
    | endless => exact .endless
    | failed e d => exact absurd run (resumed_ne_failed closing c d e)
    | done _ d =>
      have rest := grounded_of_resumed grounded run
      cases noted with
      | none => exact .failed rfl ⟨⟨rest, rfl⟩, rfl⟩
      | some faults => exact .done rfl ⟨⟨rest, rfl⟩, by simp⟩

theorem statements_matches (move : Position → Position) (closing : Kind) :
    Process.Matches (StreamTracking.moving move).parsings
      (fun body body' => body' = Program.moved move body)
      (statements closing) (statements closing) := by
  intro s t related
  have lasts := (StreamTracking.moving move).reach related.1
  exact StreamTracking.sequence_matches (StreamTracking.statementWithin_matches lasts)
    (.statementWithin _) ⟨⟨.noExpression "", .start⟩, id⟩ closing lasts related

section

variable {move : Position → Position} {o o' : Outcome SyntaxError Stream Program}
variable (h : Outcome.Matches (StreamTracking.moving move).parsings
  (fun program program' => program' = program.moved move) o o')
include h

private theorem result_of_matches : o'.result = o.result.map (Program.readMoved move) := by
  cases h with
  | done value state =>
    cases value
    rfl
  | failed error state =>
    cases error
    rfl
  | endless => rfl
  | excusedFailed excused => exact excused.elim
  | excusedEndless excused => exact excused.elim

private theorem reports_of_matches : reports o' = (reports o).map (SyntaxError.moved move) := by
  have faults : ∀ {s t : Stream}, (StreamTracking.moving move).parsings.state s t →
      t.faults = s.faults.map (SyntaxError.moved move) := by
    rintro ⟨c, noted⟩ ⟨d, _⟩ ⟨-, rfl⟩
    cases noted <;> rfl
  cases h with
  | done value state => exact faults state
  | failed error state =>
    cases error
    rw [reports, reports, faults state, List.map_append]
    rfl
  | endless => rfl
  | excusedFailed excused => exact excused.elim
  | excusedEndless excused => exact excused.elim

end

section

variable {tokens : List Token} (move : Position → Position)

omit move in
theorem Program.ofTokens_ne_none (ended : tokens = [] ∨ ∃ t ∈ tokens, t.kind = .finish) :
    ofTokens tokens ≠ none := by
  have ends : statements .finish (.plain tokens) ≠ .endless := statements_ends ended none
  unfold ofTokens
  cases run : statements .finish (.plain tokens) with
  | endless => exact absurd run ends
  | _ => nofun

omit move in
theorem Program.faults_ne_none (ended : tokens = [] ∨ ∃ t ∈ tokens, t.kind = .finish) :
    faults tokens ≠ none := by
  rw [faults_eq (statements_ends ended _)]
  nofun

theorem Program.ofTokens_moved (ended : tokens = [] ∨ ∃ t ∈ tokens, t.kind = .finish) :
    ofTokens (tokens.map (Token.moved move)) = (ofTokens tokens).map (readMoved move) := by
  obtain rfl | ended := ended
  · rfl
  · apply result_of_matches
    exact statements_matches move .finish ⟨⟨⟨rfl, ended⟩, rfl⟩, rfl⟩

theorem Program.faults_moved (ended : tokens = [] ∨ ∃ t ∈ tokens, t.kind = .finish) :
    faults (tokens.map (Token.moved move)) =
      (faults tokens).map (List.map (SyntaxError.moved move)) := by
  obtain rfl | ended := ended
  · rfl
  · have ended' : ∃ t ∈ tokens.map (Token.moved move), t.kind = .finish := by
      obtain ⟨t, ht, finish⟩ := ended
      exact ⟨t.moved move, List.mem_map_of_mem ht, finish⟩
    rw [faults_eq (statements_ends (.inr ended) _), faults_eq (statements_ends (.inr ended') _),
      Option.map_some]
    congr 1
    apply reports_of_matches
    exact statements_matches move .finish ⟨⟨⟨rfl, ended⟩, rfl⟩, rfl⟩

end

/-! ### Layout -/

def Position.erase (_ : Position) : Position := .start

section

variable {tokens tokens' : List Token} (same : tokens.map Token.lexeme = tokens'.map Token.lexeme)
include same

theorem map_erase_eq : tokens.map (Token.moved .erase) = tokens'.map (Token.moved .erase) := by
  have placed : Token.moved .erase = (fun l => ⟨l, .start⟩) ∘ Token.lexeme := rfl
  rw [placed, ← List.map_map, ← List.map_map, same]

theorem ended_of_lexemes (ended : tokens = [] ∨ ∃ t ∈ tokens, t.kind = .finish) :
    tokens' = [] ∨ ∃ t ∈ tokens', t.kind = .finish := by
  obtain rfl | ⟨t, ht, finish⟩ := ended
  · exact .inl (List.map_eq_nil_iff.mp same.symm)
  · right
    have inside : t.lexeme ∈ tokens'.map Token.lexeme := same ▸ List.mem_map_of_mem ht
    obtain ⟨t', ht', lexeme⟩ := List.mem_map.mp inside
    exact ⟨t', ht', (congrArg Lexeme.kind lexeme).trans finish⟩

theorem Program.ofTokens_congr (ended : tokens = [] ∨ ∃ t ∈ tokens, t.kind = .finish) :
    (ofTokens tokens).map (readMoved .erase) = (ofTokens tokens').map (readMoved .erase) := by
  rw [← ofTokens_moved .erase ended, ← ofTokens_moved .erase (ended_of_lexemes same ended),
    map_erase_eq same]

theorem Program.faults_congr (ended : tokens = [] ∨ ∃ t ∈ tokens, t.kind = .finish) :
    (faults tokens).map (List.map (SyntaxError.moved .erase)) =
      (faults tokens').map (List.map (SyntaxError.moved .erase)) := by
  rw [← faults_moved .erase ended, ← faults_moved .erase (ended_of_lexemes same ended),
    map_erase_eq same]

end

section

variable [Sink]

theorem Program.exec_congr {program program' : Program}
    (same : program.moved .erase = program'.moved .erase) (rounds : Nat) (s : Session) :
    (program.exec rounds s).mapError (Fault.moved .erase) =
      (program'.exec rounds s).mapError (Fault.moved .erase) := by
  rw [← exec_moved (.refl rounds) program .erase s False.elim,
    ← exec_moved (.refl rounds) program' .erase s False.elim]
  exact congrArg (exec rounds · s) same

theorem Session.run_of_error {source : String} {marked : Bool} {tokens : List Token}
    {e : SyntaxError} (read : Source.tokens source marked = .ok tokens)
    (failed : Program.ofTokens tokens = some (.error e)) (rounds : Nat) (s : Session) :
    run rounds source marked s = .failed (.parse e) s := by
  rw [run, Program.ofSource, read]
  dsimp only
  rw [failed]
  rfl

theorem Session.run_congr {source source' : String} {marked marked' : Bool}
    {tokens tokens' : List Token} (read : Source.tokens source marked = .ok tokens)
    (read' : Source.tokens source' marked' = .ok tokens')
    (same : tokens.map Token.lexeme = tokens'.map Token.lexeme) (rounds : Nat) (s : Session) :
    (run rounds source marked s).mapError (Failure.moved .erase) =
      (run rounds source' marked' s).mapError (Failure.moved .erase) := by
  have ended : tokens = [] ∨ ∃ t ∈ tokens, t.kind = .finish := by
    obtain ⟨body, stop, rfl, -⟩ := Source.exists_body read
    exact .inr ⟨.finish stop, by simp, rfl⟩
  have alike := Program.ofTokens_congr same ended
  obtain ⟨result, spelled⟩ := Option.ne_none_iff_exists'.mp (Program.ofTokens_ne_none ended)
  obtain ⟨result', spelled'⟩ :=
    Option.ne_none_iff_exists'.mp (Program.ofTokens_ne_none (ended_of_lexemes same ended))
  rw [spelled, spelled', Option.map_some, Option.map_some, Option.some_inj] at alike
  cases result with
  | error e =>
    cases result' with
    | ok program => cases alike
    | error e' =>
      rw [run_of_error read spelled, run_of_error read' spelled']
      exact congrArg (fun e => Outcome.failed (Failure.parse e) s) (Except.error.inj alike)
  | ok program =>
    cases result' with
    | error e => cases alike
    | ok program' =>
      have ran := Program.exec_congr (Except.ok.inj alike) rounds s
      rw [run_eq (Program.ofSource_eq_some_ok.mpr ⟨tokens, read, spelled⟩),
        run_eq (Program.ofSource_eq_some_ok.mpr ⟨tokens', read', spelled'⟩)]
      have swap : ∀ q : Running Value, (q.mapError .run).mapError (Failure.moved .erase) =
          (q.mapError (Fault.moved .erase)).mapError Failure.run := by
        intro q
        rw [Process.mapError_mapError, Process.mapError_mapError]
        rfl
      calc ((program.exec rounds).mapError .run).mapError (Failure.moved .erase) s
        _ = ((program.exec rounds s).mapError (Fault.moved .erase)).mapError .run :=
          congrFun (swap _) s
        _ = ((program'.exec rounds s).mapError (Fault.moved .erase)).mapError .run := by rw [ran]
        _ = ((program'.exec rounds).mapError .run).mapError (Failure.moved .erase) s :=
          (congrFun (swap _) s).symm

/-- Places never change what is done. Tokens with the same lexemes are read as the same program or
with the same faults, programs that differ in places only run alike in every session, and so do
sources with the same lexemes; all but for the places told. -/
theorem layout_immaterial :
    (∀ tokens tokens' : List Token, (tokens = [] ∨ ∃ t ∈ tokens, t.kind = .finish) →
      tokens.map Token.lexeme = tokens'.map Token.lexeme →
        (Program.ofTokens tokens ≠ none ∧ Program.ofTokens tokens' ≠ none ∧
          (Program.ofTokens tokens).map (Program.readMoved .erase) =
            (Program.ofTokens tokens').map (Program.readMoved .erase)) ∧
        Program.faults tokens ≠ none ∧ Program.faults tokens' ≠ none ∧
          (Program.faults tokens).map (List.map (SyntaxError.moved .erase)) =
            (Program.faults tokens').map (List.map (SyntaxError.moved .erase))) ∧
    (∀ program program' : Program, program.moved .erase = program'.moved .erase → ∀ s : Session,
      (∀ rounds, (program.exec rounds s).mapError (Fault.moved .erase) =
        (program'.exec rounds s).mapError (Fault.moved .erase)) ∧
      ((∃ rounds, program.exec rounds s ≠ .endless) ↔
        ∃ rounds, program'.exec rounds s ≠ .endless)) ∧
    ∀ (source source' : String) (marked marked' : Bool) (tokens tokens' : List Token),
      Source.tokens source marked = .ok tokens → Source.tokens source' marked' = .ok tokens' →
      tokens.map Token.lexeme = tokens'.map Token.lexeme → ∀ (rounds : Nat) (s : Session),
        (Session.run rounds source marked s).mapError (Failure.moved .erase) =
          (Session.run rounds source' marked' s).mapError (Failure.moved .erase) := by
  refine ⟨?_, ?_, ?_⟩
  · intro tokens tokens' ended same
    have ended' := ended_of_lexemes same ended
    exact ⟨⟨Program.ofTokens_ne_none ended, Program.ofTokens_ne_none ended',
      Program.ofTokens_congr same ended⟩, Program.faults_ne_none ended,
      Program.faults_ne_none ended', Program.faults_congr same ended⟩
  · intro program program' same s
    have alike := fun rounds => Program.exec_congr same rounds s
    refine ⟨alike, exists_congr fun rounds => not_congr ?_⟩
    rw [← Outcome.mapError_eq_endless, alike, Outcome.mapError_eq_endless]
  · intro source source' marked marked' tokens tokens' read read' same
    exact Session.run_congr read read' same

end

open scoped Buffer

theorem layout_immaterial_spaced :
    let source := "lekh thik;x;"
    let source' := "Namaste Dai\tlekh thik ; x ; // y"
    let tokens : List Token :=
      [⟨.keyword .lekh, ⟨1, 1, 0⟩⟩, ⟨.keyword .thik, ⟨1, 6, 5⟩⟩, ⟨.symbol .semicolon, ⟨1, 10, 9⟩⟩,
        ⟨⟨.name, some (.name "x"), "x"⟩, ⟨1, 11, 10⟩⟩, ⟨.symbol .semicolon, ⟨1, 12, 11⟩⟩,
        .finish ⟨1, 13, 12⟩]
    let tokens' : List Token :=
      [⟨.keyword .lekh, ⟨1, 13, 12⟩⟩, ⟨.keyword .thik, ⟨1, 18, 17⟩⟩,
        ⟨.symbol .semicolon, ⟨1, 23, 22⟩⟩, ⟨⟨.name, some (.name "x"), "x"⟩, ⟨1, 25, 24⟩⟩,
        ⟨.symbol .semicolon, ⟨1, 27, 26⟩⟩, .finish ⟨1, 33, 32⟩]
    Source.tokens source false = .ok tokens ∧ Source.tokens source' true = .ok tokens' ∧
      tokens.map Token.lexeme = tokens'.map Token.lexeme ∧
      (∃ t, Session.run 0 source false (.initial Buffer.empty) =
        .failed (.run (.broken (.undefined "x") (some ⟨1, 11, 10⟩))) t ∧
          t.sink.printed = "thik\n") ∧
      ∃ t, (Session.run 0 source' true (.initial Buffer.empty)).mapError (Failure.moved .erase) =
        .failed (.run (.broken (.undefined "x") (some .start))) t ∧ t.sink.printed = "thik\n" := by
  intro source source' tokens tokens'
  have read : Source.tokens source false = .ok tokens := by decide +kernel
  have read' : Source.tokens source' true = .ok tokens' := by decide +kernel
  have formed : Program.ofTokens tokens = some (.ok
      [.print [.literal (.bool true) ⟨1, 6, 5⟩] ⟨1, 1, 0⟩, .expr (.name "x" ⟨1, 11, 10⟩)]) := by
    dsimp only [tokens]
    cbv
  have ran : ∃ t, Session.run 0 source false (.initial Buffer.empty) =
      .failed (.run (.broken (.undefined "x") (some ⟨1, 11, 10⟩))) t ∧
        t.sink.printed = "thik\n" := by
    rw [Session.run_eq (Program.ofSource_eq_some_ok.mpr ⟨tokens, read, formed⟩)]
    exact ⟨_, rfl, rfl⟩
  have same : tokens.map Token.lexeme = tokens'.map Token.lexeme := rfl
  refine ⟨read, read', same, ran, ?_⟩
  obtain ⟨t, ran, printed⟩ := ran
  have alike :=
    layout_immaterial.2.2 source source' false true tokens tokens' read read' same 0
      (.initial Buffer.empty)
  rw [ran] at alike
  exact ⟨t, alike.symm, printed⟩

end DaiScript
