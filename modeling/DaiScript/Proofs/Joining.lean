import DaiScript.Proofs.Lines
import DaiScript.Proofs.Sequel
import DaiScript.Proofs.Transport

/-! Two programs in one text. A text that holds one program and, from a new line on, another one
does what the two texts do one after the other. Errors of the second program point below the
first. -/
namespace DaiScript

open Running

variable {ε ε' ε'' σ α β : Type}

/-! ### Errors in other words -/

namespace Outcome

def mapError (f : ε → ε') : Outcome ε σ α → Outcome ε' σ α
  | done value state => done value state
  | failed error state => failed (f error) state
  | endless => endless

theorem mapError_eq_endless {f : ε → ε'} {o : Outcome ε σ α} :
    o.mapError f = .endless ↔ o = .endless := by
  cases o <;> simp [mapError]

end Outcome

namespace Process

def mapError (f : ε → ε') (p : Process ε σ α) : Process ε' σ α := fun s => (p s).mapError f

theorem mapError_bind (f : ε → ε') (p : Process ε σ α) (next : α → Process ε σ β) :
    (p >>= next).mapError f = p.mapError f >>= fun a => (next a).mapError f := by
  funext s
  simp only [mapError, bind_apply]
  cases p s <;> rfl

theorem mapError_mapError (f : ε → ε') (g : ε' → ε'') (p : Process ε σ α) :
    (p.mapError f).mapError g = p.mapError fun e => g (f e) := by
  funext s
  simp only [mapError]
  cases p s <;> rfl

end Process

def Failure.moved (places : Position → Position) : Failure → Failure
  | .scan error => .scan { error with position := places error.position }
  | .parse error => .parse { error with position := places error.position }
  | .run fault => .run (fault.moved places)

/-! ### Texts one after the other -/

theorem Program.ofSource_eq_some_ok {source : String} {marked : Bool} {program : Program} :
    ofSource source marked = some (.ok program) ↔
      ∃ tokens, Source.tokens source marked = .ok tokens ∧
      ofTokens tokens = some (.ok program) := by
  unfold ofSource
  cases Source.tokens source marked with
  | error error => simp
  | ok tokens =>
    dsimp only
    constructor
    · intro h
      obtain ⟨result, formed, ok⟩ := Option.map_eq_some_iff.mp h
      cases result with
      | error error => cases ok
      | ok program =>
        cases ok
        exact ⟨tokens, rfl, formed⟩
    · rintro ⟨_, ⟨⟩, formed⟩
      rw [formed]
      rfl

theorem Program.ofSource_joined {first second : String} {program program' : Program}
    (parsed : ofSource first false = some (.ok program))
    (parsed' : ofSource second false = some (.ok program')) :
    ofSource (first ++ "\n" ++ second) false =
      some (.ok (program ++ Stmt.transportAll id (.below first.toList) program')) := by
  obtain ⟨tokens, read, formed⟩ := ofSource_eq_some_ok.mp parsed
  obtain ⟨tokens', read', formed'⟩ := ofSource_eq_some_ok.mp parsed'
  obtain ⟨body, stop, rfl, inside⟩ := Source.exists_body read
  obtain ⟨body', stop', rfl, inside'⟩ := Source.exists_body read'
  exact ofSource_eq_some_ok.mpr ⟨_, Source.tokens_joined read read',
    Grammar.ofTokens_joined inside inside' formed formed' _⟩

/-! ### Programs one after the other -/

section

variable [Sink]

theorem Stmt.execAll_append (rounds : Nat) (value : Value) (first second : List Stmt) :
    execAll rounds value (first ++ second) = (do
      match ← execAll rounds value first with
      | .normal value => execAll rounds value second
      | flow => return flow) := by
  induction first generalizing value with
  | nil =>
    rw [List.nil_append, execAll]
    rfl
  | cons s first ih =>
    rw [List.cons_append, execAll, execAll, bind_assoc]
    congr 1
    funext flow
    cases flow with
    | normal value => exact ih value
    | leave p => rfl
    | next p => rfl

theorem Stmt.execAll_cons_congr (rounds : Nat) (value value' : Value) (s : Stmt)
    (body : List Stmt) :
    execAll rounds value (s :: body) = execAll rounds value' (s :: body) := by
  rw [execAll, execAll]

theorem Program.exec_append (rounds : Nat) (first second : Program) :
    Program.exec rounds (first ++ second) = (do
      let value ← first.exec rounds
      let value' ← second.exec rounds
      return if second.isEmpty then value else value') := by
  unfold Program.exec
  rw [Stmt.execAll_append, bind_assoc, bind_assoc]
  congr 1
  funext flow
  cases flow with
  | leave p => rfl
  | next p => rfl
  | normal value =>
    cases second with
    | nil => rfl
    | cons s second =>
      dsimp only
      rw [Stmt.execAll_cons_congr rounds value .null, pure_bind]
      exact (bind_pure _).symm

/-! ### Programs at other places -/

def Simulation.moving (places : Position → Position) : Simulation where
  names := id
  places := places
  known _ := True
  scopes _ s t := t = s
  get := by
    rintro depth s _ name rfl -
    rfl
  unbound _ _ _ := rfl
  assign := by
    rintro depth s _ name value s' rfl - stored
    exact ⟨s', stored, rfl⟩
  define := by
    rintro depth s _ name value rfl -
    rfl
  push := by
    rintro depth s _ rfl
    rfl
  pop := by
    rintro depth s _ rfl
    rfl

private theorem Simulation.program_matches {S : Simulation} {excused : Option Fault → Prop}
    {depth : Nat} (program : Program) (known : ∀ n ∈ Stmt.namesAll program, S.known n)
    {rounds rounds' : Nat} (lasts : Lasts (excused none) rounds rounds') :
    Process.Matches (S.inside excused depth) Eq (program.exec rounds)
      (Program.exec rounds' (Stmt.transportAll S.names S.places program)) := by
  unfold Program.exec
  apply (execAll_matches program known lasts .null).bind
  rintro flow _ rfl
  cases flow with
  | normal value => exact .pure rfl
  | leave p => exact .fail rfl
  | next p => exact .fail rfl

/-- The sessions are the same, and faults point to other places. A run that never ends needs no
counterpart if it may be `impatient`. -/
def relocation (places : Position → Position) (impatient : Prop) : Correspondence Fault Session :=
  (Simulation.moving places).inside (·.elim impatient fun _ => False) 0

theorem relocation_state_iff {places : Position → Position} {impatient : Prop} {s t : Session} :
    (relocation places impatient).state s t ↔ t = s := by
  cases s
  cases t
  rw [Session.mk.injEq]
  rfl

private theorem eq_of_relocation {places : Position → Position} {impatient : Prop}
    {o o' : Outcome Fault Session α} (h : Outcome.Matches (relocation places impatient) Eq o o')
    (ends : impatient → o ≠ .endless) : o' = o.mapError (·.moved places) := by
  cases h with
  | done value state =>
    cases value
    cases relocation_state_iff.mp state
    rfl
  | failed error state =>
    cases error
    cases relocation_state_iff.mp state
    rfl
  | endless => rfl
  | excusedFailed excused => exact excused.elim
  | excusedEndless excused => exact absurd rfl (ends excused)

/-- A program at other places does the same, and its faults point there; and so it does with more
rounds, if it comes to an end with fewer. -/
theorem Program.exec_moved {impatient : Prop} {rounds rounds' : Nat}
    (lasts : Lasts impatient rounds rounds') (program : Program) (places : Position → Position)
    (s : Session) (ends : impatient → program.exec rounds s ≠ .endless) :
    Program.exec rounds' (Stmt.transportAll id places program) s =
      (program.exec rounds s).mapError (·.moved places) := by
  have same : Process.Matches (relocation places impatient) Eq (program.exec rounds)
      (Program.exec rounds' (Stmt.transportAll id places program)) :=
    Simulation.program_matches program (fun _ _ => trivial) lasts
  exact eq_of_relocation (same (relocation_state_iff.mpr rfl)) ends

/-! ### Sessions -/

namespace Session

theorem run_eq {source : String} {marked : Bool} {program : Program}
    (parsed : Program.ofSource source marked = some (.ok program)) (rounds : Nat) :
    run rounds source marked = (program.exec rounds).mapError .run := by
  funext s
  unfold run Process.mapError
  rw [parsed]
  dsimp only
  cases program.exec rounds s <;> rfl

theorem run_of_le {rounds rounds' : Nat} (le : rounds ≤ rounds') {source : String} {marked : Bool}
    {s : Session} (ends : run rounds source marked s ≠ .endless) :
    run rounds' source marked s = run rounds source marked s := by
  cases parsed : Program.ofSource source marked with
  | none =>
    unfold run
    rw [parsed]
  | some result =>
    cases result with
    | error failure =>
      unfold run
      rw [parsed]
    | ok program =>
      rw [run_eq parsed] at ends
      rw [run_eq parsed, run_eq parsed]
      have same := Program.exec_moved (.of_le trivial le) program id s
        fun _ never => ends (Outcome.mapError_eq_endless.mpr never)
      rw [Stmt.transportAll_id] at same
      unfold Process.mapError
      rw [same]
      cases program.exec rounds s <;> simp [Outcome.mapError]

def Diverges (source : String) (s : Session) : Prop :=
  ∀ rounds, run rounds source false s = .endless

end Session

theorem Session.run_joined_eq {first second : String} {program program' : Program}
    (parsed : Program.ofSource first false = some (.ok program))
    (parsed' : Program.ofSource second false = some (.ok program')) (rounds : Nat) :
    run rounds (first ++ "\n" ++ second) false = (do
      let value ← run rounds first false
      let value' ← (run rounds second false).mapError (.moved (.below first.toList))
      return if program'.isEmpty then value else value') := by
  have moved : Program.exec rounds (Stmt.transportAll id (.below first.toList) program') =
      (program'.exec rounds).mapError (.moved (.below first.toList)) := by
    funext s
    exact Program.exec_moved (.refl rounds) program' _ s False.elim
  have count : (Stmt.transportAll id (.below first.toList) program').isEmpty =
      program'.isEmpty := by
    cases program' <;> rfl
  rw [run_eq (Program.ofSource_joined parsed parsed'), run_eq parsed, run_eq parsed',
    Program.exec_append, Process.mapError_bind, moved, count]
  congr 1
  funext value
  rw [Process.mapError_bind, Process.mapError_mapError, Process.mapError_mapError]
  rfl

theorem Session.run_joined_eq_endless {first second : String} {program program' : Program}
    (parsed : Program.ofSource first false = some (.ok program))
    (parsed' : Program.ofSource second false = some (.ok program')) {rounds : Nat} {s : Session} :
    run rounds (first ++ "\n" ++ second) false s = .endless ↔
      run rounds first false s = .endless ∨
        ∃ value t, run rounds first false s = .done value t ∧
        run rounds second false t = .endless := by
  rw [run_joined_eq parsed parsed', Process.bind_eq_endless_iff]
  simp only [Process.bind_eq_endless_iff, Process.mapError, Outcome.mapError_eq_endless,
    Process.pure_apply, reduceCtorEq, and_false, exists_false, or_false]

/-- The joined text never ends just if the first program does not, or leaves a session in which the
second does not. -/
theorem Session.diverges_joined {first second : String} {program program' : Program}
    (parsed : Program.ofSource first false = some (.ok program))
    (parsed' : Program.ofSource second false = some (.ok program')) (s : Session) :
    Diverges (first ++ "\n" ++ second) s ↔
      Diverges first s ∨
        ∃ rounds value t, run rounds first false s = .done value t ∧ Diverges second t := by
  constructor
  · intro never
    by_cases ends : Diverges first s
    · exact .inl ends
    right
    obtain ⟨rounds, ends⟩ := not_forall.mp ends
    obtain ⟨value, t, done, -⟩ :=
      ((run_joined_eq_endless parsed parsed').mp (never rounds)).resolve_left ends
    refine ⟨rounds, value, t, done, fun rounds' => ?_⟩
    -- With rounds enough for both, the joined text gets to the second program, which never ends.
    by_contra ends'
    have enough := run_of_le (Nat.le_max_left rounds rounds') ends
    have enough' := run_of_le (Nat.le_max_right rounds rounds') ends'
    obtain never | ⟨_, _, done', never⟩ :=
      (run_joined_eq_endless parsed parsed').mp (never (max rounds rounds'))
    · exact ends (enough.symm.trans never)
    · rw [enough, done] at done'
      cases done'
      exact ends' (enough'.symm.trans never)
  · rintro (never | ⟨rounds, value, t, done, never⟩) rounds'
    · exact (run_joined_eq_endless parsed parsed').mpr (.inl (never rounds'))
    · apply (run_joined_eq_endless parsed parsed').mpr
      by_cases ends : run rounds' first false s = .endless
      · exact .inl ends
      · -- Both runs of the first program end, so they end alike.
        have enough := run_of_le (Nat.le_max_left rounds rounds') (by rw [done]; nofun)
        have enough' := run_of_le (Nat.le_max_right rounds rounds') ends
        exact .inr ⟨value, t, by rw [← enough', enough, done], never rounds'⟩

/-- Two programs, each spelled by a text of its own, may be joined by a line feed. The joined text
spells the statements of the first and then those of the second, which stand below the first. It
runs like the first text and, if that succeeds, the second after it, whose errors point below the
first. Its value is that of the last statement. It never ends just if one of the two runs never
does. -/
theorem Session.run_joined {first second : String} {program program' : Program}
    (parsed : Program.ofSource first false = some (.ok program))
    (parsed' : Program.ofSource second false = some (.ok program')) :
    Program.ofSource (first ++ "\n" ++ second) false =
        some (.ok (program ++ Stmt.transportAll id (.below first.toList) program')) ∧
      (∀ rounds s, run rounds (first ++ "\n" ++ second) false s = (do
        let value ← run rounds first false
        let value' ← (run rounds second false).mapError (.moved (.below first.toList))
        return if program'.isEmpty then value else value') s) ∧
      ∀ s, Diverges (first ++ "\n" ++ second) s ↔
        Diverges first s ∨
          ∃ rounds value t, run rounds first false s = .done value t ∧ Diverges second t := by
  refine ⟨Program.ofSource_joined parsed parsed', ?_, diverges_joined parsed parsed'⟩
  intro rounds s
  rw [run_joined_eq parsed parsed']

end

open scoped Buffer

theorem Session.run_joined_comment :
    let first := "yadi thik bhane lekh galat; // natra"
    let second := "lekh thik;\nx;"
    let program : Program :=
      [.branch (.literal (.bool true) ⟨1, 6, 5⟩)
        (.print [.literal (.bool false) ⟨1, 22, 21⟩] ⟨1, 17, 16⟩) none]
    let program' : Program :=
      [.print [.literal (.bool true) ⟨1, 6, 5⟩] ⟨1, 1, 0⟩, .expr (.name "x" ⟨2, 1, 11⟩)]
    Program.ofSource first false = some (.ok program) ∧
      Program.ofSource second false = some (.ok program') ∧
      Program.ofSource (first ++ "\n" ++ second) false =
        some (.ok [.branch (.literal (.bool true) ⟨1, 6, 5⟩)
          (.print [.literal (.bool false) ⟨1, 22, 21⟩] ⟨1, 17, 16⟩) none,
          .print [.literal (.bool true) ⟨2, 6, 42⟩] ⟨2, 1, 37⟩, .expr (.name "x" ⟨3, 1, 48⟩)]) ∧
      ∃ t, run 1 (first ++ "\n" ++ second) false (.initial Buffer.empty) =
          .failed (.run (.broken (.undefined "x") (some ⟨3, 1, 48⟩))) t ∧
        t.sink.printed = "galat\nthik\n" := by
  intro first second program program'
  let tokens : List Token :=
    [⟨.keyword .yadi, ⟨1, 1, 0⟩⟩, ⟨.keyword .thik, ⟨1, 6, 5⟩⟩, ⟨.keyword .bhane, ⟨1, 11, 10⟩⟩,
      ⟨.keyword .lekh, ⟨1, 17, 16⟩⟩, ⟨.keyword .galat, ⟨1, 22, 21⟩⟩,
      ⟨.symbol .semicolon, ⟨1, 27, 26⟩⟩, .finish ⟨1, 37, 36⟩]
  let tokens' : List Token :=
    [⟨.keyword .lekh, ⟨1, 1, 0⟩⟩, ⟨.keyword .thik, ⟨1, 6, 5⟩⟩, ⟨.symbol .semicolon, ⟨1, 10, 9⟩⟩,
      ⟨.newline, ⟨1, 11, 10⟩⟩, ⟨⟨.name, some (.name "x"), "x"⟩, ⟨2, 1, 11⟩⟩,
      ⟨.symbol .semicolon, ⟨2, 2, 12⟩⟩, .finish ⟨2, 3, 13⟩]
  have read : Source.tokens first false = .ok tokens := by decide +kernel
  have read' : Source.tokens second false = .ok tokens' := by decide +kernel
  have formed : Program.ofTokens tokens = some (.ok program) := by
    dsimp only [tokens, program]
    cbv
  have formed' : Program.ofTokens tokens' = some (.ok program') := by
    dsimp only [tokens', program']
    cbv
  have parsed := Program.ofSource_eq_some_ok.mpr ⟨tokens, read, formed⟩
  have parsed' := Program.ofSource_eq_some_ok.mpr ⟨tokens', read', formed'⟩
  obtain ⟨shape, same, -⟩ := run_joined parsed parsed'
  have below : Position.below first.toList = fun p => ⟨p.line + 1, p.column, p.index + 37⟩ := by
    have lines : first.toList.count '\n' = 0 := by decide +kernel
    have length : first.toList.length = 36 := by decide +kernel
    funext p
    rw [Position.below, lines, length]
  rw [below] at shape same
  refine ⟨parsed, parsed', shape, ?_⟩
  rw [same, run_eq parsed, run_eq parsed']
  exact ⟨_, rfl, rfl⟩

end DaiScript
