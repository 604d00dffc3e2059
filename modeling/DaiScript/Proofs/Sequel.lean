import DaiScript.Proofs.StatementTracking

/-! A program behind another. The tokens of a program that is read may be followed by a line break
and more tokens instead of the end: the program is read all the same, and reading goes on behind it.
Only `natra` must not come next, which would be taken for a part of a conditional. -/
namespace DaiScript

open Grammar Reading

/-- The tokens may stand behind a program: they go on with a line break or the end, and the first of
them that is no line break is not `natra`. -/
inductive Sequel : List Token → Prop
  | intro {breaks more : List Token} {t : Token} :
      (∀ b ∈ breaks, b.kind = .newline) → t.kind ≠ .newline → t.kind ≠ .keyword .natra →
      (breaks ≠ [] ∨ t.kind = .finish) → (∃ f ∈ t :: more, f.kind = .finish) →
      Sequel (breaks ++ t :: more)

theorem Sequel.finish {t : Token} (h : t.kind = .finish) : Sequel [t] := by
  change Sequel ([] ++ [t])
  exact .intro (by simp) (by simp [h]) (by simp [h]) (.inr h) ⟨t, by simp, h⟩

theorem Sequel.grounded {tail : List Token} (h : Sequel tail) {behind : List Token} :
    (Cursor.between behind tail).Grounded := by
  obtain ⟨-, -, -, -, f, hf, finish⟩ := h
  exact ⟨rfl, f, List.mem_append_right _ hf, finish⟩

/-- The second cursor has the tokens of the first ahead, at other places, and then `tail` in place
of the end. -/
inductive Cursor.Leads (move : Position → Position) (tail : List Token) : Cursor → Cursor → Prop
  | intro {behind behind' body : List Token} {last : Token} :
      (∀ t ∈ body, t.kind ≠ .finish) → last.kind = .finish →
      Leads move tail (.between behind (body ++ [last]))
        (.between behind' (body.map (Token.moved move) ++ tail))

theorem exists_breaks (tokens : List Token) :
    ∃ breaks rest, tokens = breaks ++ rest ∧ (∀ b ∈ breaks, b.kind = .newline) ∧
      ∀ t ∈ rest.head?, t.kind ≠ .newline := by
  refine ⟨tokens.takeWhile (·.kind == .newline), tokens.dropWhile (·.kind == .newline),
    List.takeWhile_append_dropWhile.symm, ?_, ?_⟩
  · intro b hb
    simpa using List.mem_takeWhile_imp hb
  · intro t ht
    have stopped := List.head?_dropWhile_not (fun t : Token => t.kind == .newline) tokens
    rw [Option.mem_def.mp ht] at stopped
    simpa using stopped

namespace Cursor.Leads

variable {move : Position → Position} {tail : List Token} {c d : Cursor}

theorem pastNewlines (h : c.Leads move tail d) :
    c.pastNewlines.Leads move tail d.pastNewlines ∧ c.pastNewlines.peek.kind ≠ .finish ∨
      c.pastNewlines.peek.kind = .finish ∧
        ∃ behind, d.pastNewlines = (Cursor.between behind tail).pastNewlines := by
  obtain @⟨behind, behind', body, last, inside, ended⟩ := h
  obtain ⟨breaks, rest, rfl, newlines, other⟩ := exists_breaks body
  have moved : ∀ b ∈ breaks.map (Token.moved move), b.kind = .newline := by simpa using newlines
  rw [List.map_append, List.append_assoc, List.append_assoc, pastNewlines_append newlines,
    pastNewlines_append moved]
  cases rest with
  | nil =>
    right
    rw [List.nil_append, pastNewlines_cons (by simp [ended])]
    exact ⟨ended, _, rfl⟩
  | cons t rest =>
    left
    have stopped : t.kind ≠ .newline := other t rfl
    rw [List.cons_append, List.map_cons, List.cons_append, pastNewlines_cons stopped,
      pastNewlines_cons (by exact stopped)]
    have unfinished : ∀ b ∈ t :: rest, b.kind ≠ .finish :=
      fun b hb => inside b (List.mem_append_right _ hb)
    exact ⟨.intro unfinished ended, unfinished t List.mem_cons_self⟩

theorem grounded (h : c.Leads move tail d) (sequel : Sequel tail) : c.Grounded ∧ d.Grounded := by
  obtain @⟨behind, behind', body, last, inside, ended⟩ := h
  obtain ⟨-, -, -, -, f, hf, finish⟩ := sequel
  refine ⟨⟨rfl, last, ?_, ended⟩, rfl, f, ?_, finish⟩
  · exact List.mem_append_right _ List.mem_cons_self
  · exact List.mem_append_right _ (List.mem_append_right _ hf)

theorem idle (h : c.Leads move tail d) (sequel : Sequel tail)
    (idle : c.peek.kind.isIdle = true) : d.peek.kind.isIdle = true := by
  obtain @⟨behind, behind', body, last, inside, ended⟩ := h
  cases body with
  | cons t body => exact idle
  | nil =>
    obtain @⟨breaks, more, t, newlines, -, -, start, -⟩ := sequel
    cases breaks with
    | nil =>
      have finish : t.kind = .finish := start.resolve_left (by simp)
      change t.kind.isIdle = true
      rw [finish]
      rfl
    | cons b breaks =>
      change b.kind.isIdle = true
      rw [newlines b List.mem_cons_self]
      rfl

theorem solid (h : c.Leads move tail d) (solid : c.peek.kind.isIdle = false) :
    d.peek = c.peek.moved move ∧ c.advance.Leads move tail d.advance := by
  obtain @⟨behind, behind', body, last, inside, ended⟩ := h
  cases body with
  | nil =>
    change last.kind.isIdle = false at solid
    rw [ended] at solid
    contradiction
  | cons t body =>
    rw [List.forall_mem_cons] at inside
    refine ⟨rfl, ?_⟩
    rw [List.cons_append, List.map_cons, List.cons_append, advance_cons inside.1,
      advance_cons (by exact inside.1)]
    exact .intro inside.2 ended

private theorem natra_iff (h : c.Leads move tail d) (sequel : Sequel tail) :
    d.pastNewlines.peek.kind = .keyword .natra ↔ c.pastNewlines.peek.kind = .keyword .natra := by
  obtain ⟨onward, -⟩ | ⟨stopped, behind, rest⟩ := h.pastNewlines
  · cases kind : c.pastNewlines.peek.kind.isIdle with
    | false =>
      rw [(onward.solid kind).1]
      rfl
    | true =>
      have kind' := onward.idle sequel kind
      apply iff_of_false
      · intro found
        rw [found] at kind'
        contradiction
      · intro found
        rw [found] at kind
        contradiction
  · obtain @⟨breaks, more, t, newlines, other, other', -, -⟩ := sequel
    rw [rest, pastNewlines_append newlines, pastNewlines_cons other, stopped]
    exact iff_of_false other' (by simp)

theorem reach (h : c.Leads move tail d) (sequel : Sequel tail) : c.reach ≤ d.reach := by
  obtain @⟨behind, behind', body, last, inside, ended⟩ := h
  obtain ⟨-, -, -, -, -⟩ := sequel
  simp only [Cursor.reach, Cursor.between, List.length_append, List.length_map, List.length_cons,
    List.length_nil]
  omega

end Cursor.Leads

def Sequel.tracking {tail : List Token} (sequel : Sequel tail) (move : Position → Position) :
    StreamTracking where
  move := move
  cursors := Cursor.Leads move tail
  error _ _ := False
  excused _ := True
  mute := Kind.isIdle
  outer := isInner_of_isIdle
  ended := isIdle_finish
  full := isIdle_iff
  grounded h := h.grounded sequel
  idle h := h.idle sequel
  solid h kind := (h.solid kind).1
  advance h kind := (h.solid kind).2
  reject _ _ := .inl trivial
  reach h := .of_le trivial (h.reach sequel)
  notes first second := first = none ∧ second = none
  plain _ h := ⟨h.1, trivial⟩
  skip h := h.pastNewlines.imp And.left fun stopped => ⟨stopped.1, fun _ => trivial⟩
  natra h := h.natra_iff sequel
  recover _ _ _ error := error.elim

namespace Grammar

/-! ### Sequences -/

theorem sequence_eq {statement : Parsing Stmt} {closing : Kind} {bound : Nat} {s : Stream}
    (grounded : s.cursor.Grounded) :
    sequence statement closing (bound + 1) s =
      if s.pastNewlines.cursor.atEnd || s.pastNewlines.cursor.check closing then
        .done [] s.pastNewlines
      else
        Grammar.round statement closing (sequence statement closing bound) s.pastNewlines := by
  have run : (sequence statement closing (bound + 1) >>= Pure.pure) s = _ :=
    StreamTracking.sequence_bind_eq grounded
  rw [bind_pure, bind_pure] at run
  exact run

theorem sequence_of_stopped {statement : Parsing Stmt} {closing : Kind} {bound : Nat} {s : Stream}
    (grounded : s.cursor.Grounded)
    (stopped : (s.pastNewlines.cursor.atEnd || s.pastNewlines.cursor.check closing) = true) :
    sequence statement closing (bound + 1) s = .done [] s.pastNewlines := by
  rw [sequence_eq grounded, if_pos stopped]

theorem sequence_of_going {statement : Parsing Stmt} {closing : Kind} {bound : Nat} {s : Stream}
    (grounded : s.cursor.Grounded)
    (going : (s.pastNewlines.cursor.atEnd || s.pastNewlines.cursor.check closing) = false) :
    sequence statement closing (bound + 1) s =
      Grammar.round statement closing (sequence statement closing bound) s.pastNewlines := by
  rw [sequence_eq grounded, going, if_neg Bool.false_ne_true]

theorem statementWithin_eq {bound : Nat} {s : Stream} (grounded : s.cursor.Grounded) :
    statementWithin (bound + 1) s =
      entered bound s.pastNewlines.cursor.peek.kind s.pastNewlines := by
  rw [statementWithin_succ, Process.bind_apply, under_skipNewlines_eq grounded]
  rfl

theorem sequence_of_end {statement : Parsing Stmt} {bound : Nat} {c : Cursor}
    {noted : Option (List SyntaxError)} (grounded : c.Grounded)
    (stopped : c.pastNewlines.peek.kind = .finish) :
    sequence statement .finish (bound + 1) ⟨c, noted⟩ = .done [] ⟨c.pastNewlines, noted⟩ := by
  apply sequence_of_stopped grounded
  change (c.pastNewlines.atEnd || _) = true
  rw [Cursor.atEnd, stopped]
  rfl

theorem sequence_of_inside {statement : Parsing Stmt} {bound : Nat} {c : Cursor}
    {noted : Option (List SyntaxError)} (grounded : c.Grounded)
    (inside : c.pastNewlines.peek.kind ≠ .finish) :
    sequence statement .finish (bound + 1) ⟨c, noted⟩ =
      Grammar.round statement .finish (sequence statement .finish bound)
        ⟨c.pastNewlines, noted⟩ := by
  apply sequence_of_going grounded
  change (c.pastNewlines.atEnd || c.pastNewlines.check .finish) = false
  simp [Cursor.atEnd, Cursor.check, inside]

theorem sequence_congr {statement : Parsing Stmt} {closing : Kind} {bound : Nat} {s t : Stream}
    (hs : s.cursor.Grounded) (ht : t.cursor.Grounded) (same : s.pastNewlines = t.pastNewlines) :
    sequence statement closing bound s = sequence statement closing bound t := by
  cases bound with
  | zero => rfl
  | succ bound => rw [sequence_eq hs, sequence_eq ht, same]

theorem exists_of_round {statement : Parsing Stmt} (agrees : Agrees statement) {closing : Kind}
    {more : Parsing (List Stmt)} {c : Cursor} {body : List Stmt} {s : Stream}
    (run : Grammar.round statement closing more ⟨c, none⟩ = .done body s) :
    ∃ first rest d, statement ⟨c, none⟩ = .done first d ∧ more d = .done rest s ∧
      body = first :: rest := by
  cases first : statement ⟨c, none⟩ with
  | endless =>
    rw [round_eq, first] at run
    cases run
  | failed e d =>
    obtain ⟨cursor, rfl⟩ := agrees.failed_state first
    obtain stuck | ⟨d, handed⟩ := round_plain closing more first
    · rw [stuck] at run
      cases run
    · rw [handed] at run
      cases run
  | done a d =>
    rw [round_eq, first] at run
    obtain ⟨rest, f, onward, done⟩ := Process.bind_eq_done_iff.mp run
    cases done
    exact ⟨a, rest, d, rfl, onward, rfl⟩

private theorem sequence_newline {statement : Parsing Stmt} {closing : Kind} {bound : Nat}
    {behind rest : List Token} {line : Token} {noted : Option (List SyntaxError)}
    (newline : line.kind = .newline) (ended : ∃ f ∈ rest, f.kind = .finish) :
    sequence statement closing bound ⟨.between behind (line :: rest), noted⟩ =
      sequence statement closing bound ⟨.between (line :: behind) rest, noted⟩ := by
  have past := Cursor.pastNewlines_append (List.forall_mem_singleton.mpr newline) behind rest
  obtain ⟨f, hf, finish⟩ := ended
  apply sequence_congr ⟨rfl, f, List.mem_cons_of_mem line hf, finish⟩ ⟨rfl, f, hf, finish⟩
  exact congrArg (Stream.mk · noted) past

private theorem statement_leads {tail : List Token} (sequel : Sequel tail)
    {move : Position → Position} {k k' : Nat} (wider : k ≤ k') {c d : Cursor} {a : Stmt}
    {stop : Stream} (leads : c.Leads move tail d) (below : c.left < k)
    (read : statementWithin k ⟨c, none⟩ = .done a stop) :
    ∃ f f', stop = ⟨f, none⟩ ∧ f.Leads move tail f' ∧ f.left < c.left ∧
      statementWithin k' ⟨d, none⟩ = .done (a.transport id move) ⟨f', none⟩ := by
  let T := sequel.tracking move
  have state : T.parsings.state ⟨c, none⟩ ⟨d, none⟩ := ⟨leads, rfl, rfl⟩
  obtain ⟨f, noted⟩ := stop
  obtain ⟨_, ⟨f', noted'⟩, read', rfl, moved, plain, plain'⟩ :=
    (T.statementWithin_matches (.of_le trivial wider) state).of_done read
  cases plain
  cases plain'
  obtain ⟨used, walk, passed, -⟩ :=
    (formsBelow_statementWithin k ⟨c, none⟩ (leads.grounded sequel).1 below).of_done read
  have fewer : c.left = used.length + f.left := walk.cursor.left_eq
  have length := List.length_pos_iff.mpr passed
  exact ⟨f, f', rfl, moved, by omega, read'⟩

/-- What is read up to the end of the first stream is read from the second in front of its tail,
with rounds left for the tokens of the tail. -/
theorem sequence_leads {tail : List Token} (sequel : Sequel tail) {move : Position → Position}
    {k k' : Nat} (wider : k ≤ k') {n m spare : Nat} {c d : Cursor} {body : List Stmt}
    {stop : Stream} (leads : c.Leads move tail d) (below : c.left < k) (enough : c.left + spare ≤ m)
    (run : sequence (statementWithin k) .finish n ⟨c, none⟩ = .done body stop) :
    ∃ rounds behind, spare ≤ rounds ∧
      sequence (statementWithin k') .finish m ⟨d, none⟩ =
        (sequence (statementWithin k') .finish rounds >>= fun rest =>
          Pure.pure (Stmt.transportAll id move body ++ rest)) ⟨.between behind tail, none⟩ := by
  induction n generalizing c d body m with
  | zero => cases run
  | succ n ih =>
    obtain ⟨hc, hd⟩ := leads.grounded sequel
    obtain ⟨breaks, -, walk, other⟩ := hc.passes_pastNewlines
    have start := walk.left_eq
    obtain ⟨onward, inside⟩ | ⟨stopped, behind, rest⟩ := leads.pastNewlines
    · rw [sequence_of_inside hc inside] at run
      obtain ⟨first, rest, f, read, further, rfl⟩ := exists_of_round (.statementWithin k) run
      obtain ⟨f, f', rfl, moved, fewer, read'⟩ :=
        statement_leads sequel wider onward (by omega) read
      have inside' : d.pastNewlines.peek.kind ≠ .finish := by
        rw [(onward.solid (isIdle_of_ne other inside)).1]
        exact inside
      cases m with
      | zero => omega
      | succ m =>
        have fits : f.left + spare ≤ m := by omega
        obtain ⟨rounds, behind, spared, same⟩ := ih moved (by omega) fits further
        refine ⟨rounds, behind, spared, ?_⟩
        rw [sequence_of_inside hd inside', round_eq, read']
        dsimp only
        rw [Process.bind_apply, same, ← Process.bind_apply, bind_assoc]
        rfl
    · rw [sequence_of_end hc stopped] at run
      cases run
      refine ⟨m, behind, by omega, ?_⟩
      change _ = (sequence (statementWithin k') .finish m >>= Pure.pure) _
      rw [bind_pure]
      apply sequence_congr hd sequel.grounded
      unfold Stream.pastNewlines
      rw [rest]

/-! ### Programs -/

theorem Forms.starts {used : List Token} {a : Stmt} (h : Forms used (.stmt a)) :
    ∃ t more, used = t :: more ∧ (t.kind = .newline ∨ starts t.kind = true) := by
  cases h with
  | newline hk _ => exact ⟨_, _, rfl, .inl hk⟩
  | declare hk _ _ | define hk _ _ _ _ | printNone hk _ | print hk _ _ | branch hk _ _ _
  | branchElse hk _ _ _ _ _ _ | loop hk _ _ | leave hk _ | next hk _ | block hk _ _ _ =>
    exact ⟨_, _, rfl, .inr (by rw [hk]; rfl)⟩
  | expr spelled _ =>
    obtain ⟨t, more, rfl, operand⟩ := spelled.head_operand
    exact ⟨t, _, rfl, .inr (starts_of_operand operand)⟩

theorem statements_eq (tokens : List Token) :
    statements .finish (.plain tokens) =
      sequence (statementWithin (tokens.length + 4)) .finish (tokens.length + 4)
        ⟨.between [] tokens, none⟩ := rfl

theorem ofTokens_eq_some_ok {tokens : List Token} {program : Program} :
    Program.ofTokens tokens = some (.ok program) ↔
      ∃ s, statements .finish (.plain tokens) = .done program s := by
  unfold Program.ofTokens
  cases statements .finish (.plain tokens) <;> simp [Outcome.result]

private theorem ne_natra_of_ofTokens {breaks more : List Token} {t : Token} {program : Program}
    (newlines : ∀ b ∈ breaks, b.kind = .newline) (other : t.kind ≠ .newline)
    (ended : ∃ f ∈ t :: more, f.kind = .finish)
    (parsed : Program.ofTokens (breaks ++ t :: more) = some (.ok program)) :
    t.kind ≠ .keyword .natra := by
  intro natra
  have past : (Cursor.between [] (breaks ++ t :: more)).pastNewlines =
      .between (breaks.reverse ++ []) (t :: more) := by
    rw [Cursor.pastNewlines_append newlines, Cursor.pastNewlines_cons other]
  have inside : (Cursor.between [] (breaks ++ t :: more)).pastNewlines.peek.kind ≠ .finish := by
    rw [past]
    change t.kind ≠ .finish
    rw [natra]
    nofun
  have grounded : (Cursor.between [] (breaks ++ t :: more)).Grounded := by
    obtain ⟨f, hf, finish⟩ := ended
    exact ⟨rfl, f, List.mem_append_right _ hf, finish⟩
  have grounded' : (Cursor.between (breaks.reverse ++ []) (t :: more)).Grounded := ⟨rfl, ended⟩
  obtain ⟨s, run⟩ := ofTokens_eq_some_ok.mp parsed
  rw [statements_eq, sequence_of_inside grounded inside, past] at run
  obtain ⟨first, rest, d, read, -, -⟩ := exists_of_round (.statementWithin _) run
  have short : (Cursor.between (breaks.reverse ++ []) (t :: more)).left <
      (breaks ++ t :: more).length + 4 := by
    have fits : _ < (t :: more).length := grounded'.left_lt
    rw [List.length_append]
    omega
  obtain ⟨used, walk, -, forms⟩ :=
    (formsBelow_statementWithin _ ⟨_, none⟩ grounded' short).of_done read
  obtain ⟨u, others, rfl, start⟩ := (forms rfl).starts
  have ahead : t :: more = u :: (others ++ d.cursor.ahead) := walk.cursor.ahead
  obtain ⟨rfl, -⟩ := List.cons.inj ahead
  rw [natra] at start
  obtain start | start := start <;> cases start

private theorem sequel_of_ofTokens {tokens : List Token} {program : Program}
    (ended : ∃ f ∈ tokens, f.kind = .finish)
    (parsed : Program.ofTokens tokens = some (.ok program)) {line : Token}
    (newline : line.kind = .newline) (move : Position → Position) :
    Sequel (line :: tokens.map (Token.moved move)) := by
  obtain ⟨f, hf, finish⟩ := ended
  obtain ⟨breaks, rest, rfl, newlines, other⟩ := exists_breaks tokens
  have late : f ∈ rest := by
    refine (List.mem_append.mp hf).resolve_left fun early => ?_
    rw [newlines f early] at finish
    cases finish
  cases rest with
  | nil => simp at late
  | cons t more =>
    have other : t.kind ≠ .newline := other t rfl
    have starting : t.kind ≠ .keyword .natra :=
      ne_natra_of_ofTokens newlines other ⟨f, late, finish⟩ parsed
    have breaking : ∀ b ∈ line :: breaks.map (Token.moved move), b.kind = .newline := by
      simpa [newline] using newlines
    have ended : ∃ f ∈ t.moved move :: more.map (Token.moved move), f.kind = .finish :=
      ⟨f.moved move, List.mem_map_of_mem late, finish⟩
    rw [List.map_append, List.map_cons, ← List.cons_append]
    exact .intro breaking other starting (.inl (List.cons_ne_nil _ _)) ended

theorem sequence_of_ofTokens {tail : List Token} (sequel : Sequel tail) (move : Position → Position)
    {body : List Token} {stop : Position} {program : Program}
    (inside : ∀ t ∈ body, t.kind ≠ .finish)
    (parsed : Program.ofTokens (body ++ [.finish stop]) = some (.ok program)) (behind : List Token)
    {k m spare : Nat} (wide : body.length + 5 ≤ k) (enough : body.length + spare ≤ m) :
    ∃ rounds behind', spare ≤ rounds ∧
      sequence (statementWithin k) .finish m
          ⟨.between behind (body.map (Token.moved move) ++ tail), none⟩ =
        (sequence (statementWithin k) .finish rounds >>= fun rest =>
          Pure.pure (Stmt.transportAll id move program ++ rest)) ⟨.between behind' tail, none⟩ := by
  have leads : (Cursor.between [] (body ++ [.finish stop])).Leads move tail
      (.between behind (body.map (Token.moved move) ++ tail)) := .intro inside rfl
  have short : _ < (body ++ [Token.finish stop]).length := (leads.grounded sequel).1.left_lt
  obtain ⟨s, run⟩ := ofTokens_eq_some_ok.mp parsed
  rw [statements_eq] at run
  rw [List.length_append, List.length_singleton] at short run
  exact sequence_leads sequel (by omega) leads (by omega) (by omega) run

theorem ofTokens_joined {body body' : List Token} {stop stop' : Position}
    {program program' : Program} (inside : ∀ t ∈ body, t.kind ≠ .finish)
    (inside' : ∀ t ∈ body', t.kind ≠ .finish)
    (first : Program.ofTokens (body ++ [.finish stop]) = some (.ok program))
    (second : Program.ofTokens (body' ++ [.finish stop']) = some (.ok program'))
    (move : Position → Position) :
    Program.ofTokens
        (body ++ ⟨.newline, stop⟩ :: (body' ++ [Token.finish stop']).map (Token.moved move)) =
      some (.ok (program ++ Stmt.transportAll id move program')) := by
  have tail : Sequel (⟨.newline, stop⟩ :: (body' ++ [Token.finish stop']).map (Token.moved move)) :=
    sequel_of_ofTokens ⟨.finish stop', by simp, rfl⟩ second rfl move
  have tail' : Sequel [(Token.finish stop').moved move] := .finish rfl
  have shape : (body' ++ [Token.finish stop']).map (Token.moved move) =
      body'.map (Token.moved move) ++ [(Token.finish stop').moved move] := List.map_append
  have whole : body.map (Token.moved id) = body := List.map_id body
  rw [shape] at tail ⊢
  apply ofTokens_eq_some_ok.mpr
  rw [statements_eq]
  generalize size : (body ++ ⟨.newline, stop⟩ ::
    (body'.map (Token.moved move) ++ [(Token.finish stop').moved move])).length + 4 = bound
  rw [List.length_append, List.length_cons, List.length_append, List.length_map,
    List.length_singleton] at size
  have wide : body.length + 5 ≤ bound := by omega
  have wide' : body'.length + 5 ≤ bound := by omega
  have enough : body.length + (body'.length + 1) ≤ bound := by omega
  obtain ⟨rounds, behind, spared, same⟩ :=
    sequence_of_ofTokens tail id inside first [] wide enough
  obtain ⟨rounds', behind', spared', same'⟩ :=
    sequence_of_ofTokens tail' move inside' second (⟨.newline, stop⟩ :: behind) wide' spared
  obtain ⟨t, ended⟩ : ∃ t, sequence (statementWithin bound) .finish rounds'
      ⟨.between behind' [(Token.finish stop').moved move], none⟩ = .done [] t := by
    obtain ⟨n, rfl⟩ := Nat.exists_eq_add_of_le' spared'
    exact ⟨_, sequence_of_end tail'.grounded rfl⟩
  have finish : ∃ f ∈ body'.map (Token.moved move) ++ [(Token.finish stop').moved move],
      f.kind = .finish := ⟨_, List.mem_append_right _ List.mem_cons_self, rfl⟩
  rw [whole] at same
  rw [same, Process.bind_apply, sequence_newline rfl finish, same', Process.bind_apply, ended,
    Stmt.transportAll_id]
  exact ⟨t, congrArg (fun rest => Outcome.done (program ++ rest) t) (List.append_nil _)⟩

end Grammar

end DaiScript
