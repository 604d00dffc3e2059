import DaiScript.Proofs.EntryPhrase
import DaiScript.Proofs.Execution

/-! String literals. A text is written between quotes with its escapes, and is read from there as it
was, whatever stands behind the literal; and to print a literal prints the text. -/
namespace DaiScript

open Running Text

/-! ### Programs of one printing statement -/

section

variable [Sink] {s : Session} {sink : Sink.State} {e : Expr} {value : Value}

theorem Stmt.exec_print (known : e.eval = pure value)
    (takes : Sink.write (value.shown ++ "\n") s.sink = .ok () sink) (rounds : Nat) (p : Position) :
    (Stmt.print [e] p).exec rounds s = .done (.normal .null) { s with sink } := by
  have one : Expr.evalAll [e] = pure [value] := by
    rw [Expr.evalAll, Expr.evalAll, known]
    rfl
  have written : write (value.shown ++ "\n") s = .done () { s with sink } := by
    rw [write, takes]
  rw [Stmt.exec, one, evaluate_pure, pure_bind, List.map_singleton, String.intercalate_singleton,
    Process.bind_apply, written]
  rfl

theorem Session.run_print {source : String} {tokens : List Token} {p : Position}
    (read : Source.tokens source false = .ok tokens)
    (parsed : Program.ofTokens tokens = some (.ok [.print [e] p])) (known : e.eval = pure value)
    (takes : Sink.write (value.shown ++ "\n") s.sink = .ok () sink) (rounds : Nat) :
    Session.run rounds source false s = .done .null { s with sink } := by
  have ran : Program.exec rounds [.print [e] p] s = .done .null { s with sink } := by
    rw [Program.exec, Stmt.execAll, bind_assoc, Process.bind_apply, Stmt.exec_print known takes]
    rfl
  rw [Session.run, Program.ofSource, read]
  dsimp only
  rw [parsed]
  dsimp only [Option.map_some, Except.mapError]
  rw [ran]

end

namespace Source

theorem Scans.printing {text : List Char} {lexemes : List Lexeme} (apart : Apart text)
    (h : Scans text lexemes) : Scans ("lekh".toList ++ text) (.keyword .lekh :: lexemes) := by
  have spelled : Keyword.lekh.spelling.toList = 'l' :: "ekh".toList := by decide
  exact h.token (front_keyword apart spelled)

theorem scans_semicolon : Scans [';'] [.symbol .semicolon] := by
  have piece : front ';' ([] ++ []) = .ok (([] : List Char).length, some (.symbol .semicolon)) :=
    rfl
  exact Scans.nil.token piece

theorem apart_of_blank {gap : List Char} (blank : ∀ b ∈ gap, isBlank b = true) : Apart gap :=
  fun b first => not_isWordPart_of_isBlank (blank b (List.mem_of_mem_head? first))

/-! ### Literals in front of a text -/

private theorem tokensFrom_cons {c : Char} {more rest : List Char} {l : Lexeme}
    (h : front c (more ++ rest) = .ok (more.length, some l)) (p : Position) :
    tokensFrom p (c :: (more ++ rest)) =
      (tokensFrom (p.advance (c :: more)) rest).map (⟨l, p⟩ :: ·) := by
  rw [tokensFrom, cut_of_front h, tokensFrom]
  dsimp only
  rw [covered_cons, Position.advance_append]
  cases (cut rest).fault <;> rfl

def literal (quote : Char) (value : String) : String :=
  String.ofList (quote :: Quoted.encode value.toList ++ [quote])

section

variable {quote : Char} (quoted : isQuote quote = true) (value : String)
include quoted

theorem front_literal (rest : List Char) :
    front quote (Quoted.encode value.toList ++ [quote] ++ rest) =
      .ok ((Quoted.encode value.toList ++ [quote]).length,
        some ⟨.text, some (.text value), literal quote value⟩) := by
  rw [front_text quoted, String.ofList_toList]
  rfl

private theorem tokens_literal {rest : String} {tokens : List Token}
    (read : Source.tokens rest false = .ok tokens) :
    Source.tokens (literal quote value ++ rest) false =
      .ok (⟨⟨.text, some (.text value), literal quote value⟩, .start⟩ ::
        tokens.map (Token.moved (.after (literal quote value).toList))) := by
  have run : tokensFrom .start rest.toList = .ok tokens := read
  have shape : (literal quote value ++ rest).toList =
      quote :: (Quoted.encode value.toList ++ [quote] ++ rest.toList) := by
    simp [literal]
  change tokensFrom .start (literal quote value ++ rest).toList = _
  rw [shape, tokensFrom_cons (front_literal quoted value rest.toList), Position.start_advance,
    tokensFrom_behind, run, literal, String.toList_ofList]
  rfl

private theorem scans_literal {gap gap' : List Char} (blank : ∀ b ∈ gap, isBlank b = true)
    (blank' : ∀ b ∈ gap', isBlank b = true) :
    Scans ("lekh".toList ++ (gap ++ ((literal quote value).toList ++ (gap' ++ [';']))))
      [.keyword .lekh, ⟨.text, some (.text value), literal quote value⟩, .symbol .semicolon] := by
  have spelled : (literal quote value).toList =
      quote :: (Quoted.encode value.toList ++ [quote]) := by
    simp [literal]
  have other : isBlank quote = false ∧ isWordPart quote = false := by
    simp only [isQuote, Bool.or_eq_true, beq_iff_eq] at quoted
    obtain rfl | rfl := quoted <;> decide
  have closing := scans_semicolon.blanks blank' (by simp [isBlank])
  have quoting := closing.token (front_literal quoted value _)
  rw [spelled]
  apply Scans.printing
  · exact (apart_of_blank blank).append (by rintro _ ⟨⟩; exact other.2)
  · exact quoting.blanks blank (by rintro _ ⟨⟩; exact other.1)

/-- A text is read from its literal as it was, in either quotes and in front of anything that has
tokens, which stand behind the literal then; and to print the literal prints the text and a line
feed, in every session whose sink takes it. -/
theorem literal_read_back [Sink] :
    (∀ (rest : String) (tokens : List Token), Source.tokens rest false = .ok tokens →
      let move := Position.after (literal quote value).toList
      Source.tokens (literal quote value ++ rest) false =
          .ok (⟨⟨.text, some (.text value), literal quote value⟩, .start⟩ ::
            tokens.map (Token.moved move)) ∧
        ∀ text, move (.behind text) = .behind ((literal quote value).toList ++ text)) ∧
    ∀ gap gap' : String, (∀ b ∈ gap.toList, isBlank b = true) →
      (∀ b ∈ gap'.toList, isBlank b = true) →
      ∀ (rounds : Nat) (s : Session) (sink : Sink.State),
        Sink.write (value ++ "\n") s.sink = .ok () sink →
          Session.run rounds ("lekh" ++ gap ++ literal quote value ++ gap' ++ ";") false s =
            .done .null { s with sink } := by
  constructor
  · intro rest tokens read move
    exact ⟨tokens_literal quoted value read, Position.after_behind _⟩
  · intro gap gap' blank blank' rounds s sink takes
    have scans := scans_literal quoted value blank blank'
    have shape : ("lekh" ++ gap ++ literal quote value ++ gap' ++ ";").toList = "lekh".toList ++
        (gap.toList ++ ((literal quote value).toList ++ (gap'.toList ++ [';']))) := by
      simp
    rw [← shape] at scans
    obtain ⟨tokens, read, lexemes⟩ := scans.tokens
    simp only [List.cons_append, List.nil_append, List.map_eq_cons_iff,
      List.map_eq_nil_iff] at lexemes
    obtain ⟨⟨_, p⟩, _, rfl, rfl, ⟨_, q⟩, _, rfl, rfl, ⟨_, r⟩, _, rfl, rfl, ⟨_, e⟩, _, rfl,
        rfl, rfl⟩ :=
      lexemes
    have shown : (Value.ofLiteral (.text value)).shown = value := by
      rw [Value.ofLiteral, Value.shown]
    exact Session.run_print read rfl (by rw [Expr.eval]) (by rwa [shown]) rounds

end

open scoped Buffer

theorem literal_read_back_mixed :
    let value := "\\'\"\n"
    literal '\'' value = "'\\\\\\'\\\"\\n'" ∧ Source.tokens "\n;" false =
        .ok [⟨.newline, ⟨1, 1, 0⟩⟩, ⟨.symbol .semicolon, ⟨2, 1, 1⟩⟩, .finish ⟨2, 2, 2⟩] ∧
      Source.tokens (literal '\'' value ++ "\n;") false =
        .ok [⟨⟨.text, some (.text value), literal '\'' value⟩, ⟨1, 1, 0⟩⟩, ⟨.newline, ⟨1, 11, 10⟩⟩,
          ⟨.symbol .semicolon, ⟨2, 1, 11⟩⟩, .finish ⟨2, 2, 12⟩] ∧
      Session.run 0 ("lekh" ++ "" ++ literal '\'' value ++ "\t" ++ ";") false
          (.initial Buffer.empty) =
        .done .null (.initial { Buffer.empty with printed := value ++ "\n" }) := by
  intro value
  have quoted : isQuote '\'' = true := by decide
  have read : Source.tokens "\n;" false =
      .ok [⟨.newline, ⟨1, 1, 0⟩⟩, ⟨.symbol .semicolon, ⟨2, 1, 1⟩⟩, .finish ⟨2, 2, 2⟩] := by
    decide +kernel
  obtain ⟨scanned, printed⟩ := literal_read_back quoted value
  refine ⟨by decide +kernel, read, ?_, ?_⟩
  · rw [(scanned _ _ read).1]
    decide +kernel
  · exact printed "" "\t" (by simp) (by simp [isBlank]) 0 (.initial Buffer.empty) _ rfl

end Source

end DaiScript
