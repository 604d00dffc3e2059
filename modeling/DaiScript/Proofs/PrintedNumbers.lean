import DaiScript.Proofs.Literals
import DaiScript.Proofs.Numerals

/-! Printed numbers in programs. A numeral without a power of ten is a token, with a minus sign in
front of it for a negative number; so a number that is printed in positional notation is its own
program text. -/
namespace DaiScript

open Running Text

/-! ### Numerals as tokens -/

namespace Numeral

def zero : Numeral := below 0 (List.forall_mem_nil _)

private theorem ofDecimal_eq (m : Numeral) : Number.ofDecimal m.whole m.decimals = m.scaled 0 := by
  have shape : Number.digitsValue (m.whole ++ m.decimals) =
      Number.digitsValue (m.whole ++ m.decimals) * 10 ^ 0 := (Nat.mul_one _).symm
  rw [Number.ofDecimal, shape]
  exact Number.nearest_pow (by simp)

def lexeme (m : Numeral) : Lexeme := ⟨.number, some (.number (m.scaled 0)), String.ofList m.text⟩

end Numeral

namespace Source

private theorem Scans.numeral {rest : List Char} {lexemes : List Lexeme} (m : Numeral)
    (outside : ∀ c ∈ rest.head?, c.isDigit = false) (point : rest.head? ≠ some '.')
    (h : Scans rest lexemes) : Scans (m.text ++ rest) (m.lexeme :: lexemes) := by
  obtain ⟨c, more, whole⟩ := List.exists_cons_of_ne_nil m.ne_nil
  have digit : ∀ d ∈ c :: more, d.isDigit = true := fun d member =>
    m.isDigit_of_mem_whole (whole ▸ member)
  have value := m.ofDecimal_eq
  rw [whole] at value
  by_cases none : m.decimals = []
  · have shape : m.text = c :: more := by simp [Numeral.text, none, whole]
    have piece := front_whole outside digit point
    rw [none] at value
    rw [value, ← shape] at piece
    rw [shape]
    exact h.token piece
  · have shape : m.text = c :: (more ++ '.' :: m.decimals) := by simp [Numeral.text, none, whole]
    have piece := front_fraction outside digit none fun _ => m.isDigit_of_mem_decimals
    rw [value, List.cons_append, ← shape] at piece
    rw [shape]
    exact h.token piece

theorem Scans.minus {text : List Char} {lexemes : List Lexeme}
    (single : ∀ c ∈ text.head?, c.isDigit = true) (h : Scans text lexemes) :
    Scans ('-' :: text) (.symbol .minus :: lexemes) := by
  have found : symbol? '-' text = some (0, .symbol .minus) := by
    cases text with
    | nil => rfl
    | cons c text =>
      have digit := single c rfl
      have missing : Symbol.pair? '-' c = none := by
        unfold Symbol.pair?
        split <;> simp_all
      rw [symbol?, List.head?_cons, Option.bind_some, missing]
      rfl
  have piece : front '-' ([] ++ text) = .ok (([] : List Char).length, some (.symbol .minus)) :=
    front_of_other (by decide) (by decide) (fun slashes => absurd slashes.1 (by decide)) found
  exact h.token piece

theorem Scans.signed {rest : List Char} {lexemes : List Lexeme} (negative : Bool) (m : Numeral)
    (outside : ∀ c ∈ rest.head?, c.isDigit = false) (point : rest.head? ≠ some '.')
    (h : Scans rest lexemes) : Scans ((Layout.signed negative m "").toList ++ rest)
      ((if negative then [.symbol .minus] else []) ++ m.lexeme :: lexemes) := by
  have unsigned := h.numeral m outside point
  cases negative with
  | true =>
    obtain ⟨c, more, text, digit⟩ := m.exists_text
    have single : ∀ d ∈ (m.text ++ rest).head?, d.isDigit = true := by
      rw [text]
      rintro _ ⟨⟩
      exact digit
    simpa [Layout.signed] using unsigned.minus single
  | false => simpa [Layout.signed] using unsigned

private theorem not_isBlank_head_signed (negative : Bool) (m : Numeral) (rest : List Char) :
    ∀ c ∈ ((Layout.signed negative m "").toList ++ rest).head?, isBlank c = false := by
  obtain ⟨d, more, text, digit⟩ := m.exists_text
  cases negative with
  | true =>
    simp only [Layout.signed, if_true, String.toList_append]
    rintro _ ⟨⟩
    decide
  | false =>
    have part : isWordPart d = true := by simp [isWordPart, Char.isAlphanum, digit]
    simpa [Layout.signed, text] using not_isBlank_of_isWordPart part

private theorem scans_signed {gap gap' : List Char} (blank : ∀ b ∈ gap, isBlank b = true)
    (blank' : ∀ b ∈ gap', isBlank b = true) (apart : gap ≠ []) (negative : Bool) (m : Numeral) :
    Scans ("lekh".toList ++ (gap ++ ((Layout.signed negative m "").toList ++ (gap' ++ [';']))))
      (.keyword .lekh :: ((if negative then [.symbol .minus] else []) ++
        [m.lexeme, .symbol .semicolon])) := by
  have outside : Apart (gap' ++ [';']) :=
    (apart_of_blank blank').append (by simp [Apart, isWordPart])
  have point : (gap' ++ [';']).head? ≠ some '.' := by
    cases gap' with
    | nil => decide
    | cons b gap' =>
      rintro ⟨⟩
      exact absurd (blank' _ List.mem_cons_self) (by decide)
  have closing := scans_semicolon.blanks blank' (by simp [isBlank])
  have number := closing.signed negative m outside.not_isDigit point
  apply Scans.printing
  · obtain ⟨b, gap, rfl⟩ := List.exists_cons_of_ne_nil apart
    rintro _ ⟨⟩
    exact not_isWordPart_of_isBlank (blank b List.mem_cons_self)
  · exact number.blanks blank (not_isBlank_head_signed negative m _)

end Source

theorem Session.run_signed [Sink] {gap gap' : String} (blank : ∀ b ∈ gap.toList, isBlank b = true)
    (blank' : ∀ b ∈ gap'.toList, isBlank b = true) (apart : gap ≠ "") {negative : Bool}
    {m : Numeral} {s : Session} {sink : Sink.State}
    (takes : Sink.write (Layout.printed.render
      (if negative then (m.scaled 0).negate else m.scaled 0) ++ "\n") s.sink = .ok () sink)
    (rounds : Nat) :
    Session.run rounds ("lekh" ++ gap ++ Layout.signed negative m "" ++ gap' ++ ";") false s =
      .done .null { s with sink } := by
  have scans := Source.scans_signed blank blank' (by simpa using apart) negative m
  have shape : ("lekh" ++ gap ++ Layout.signed negative m "" ++ gap' ++ ";").toList =
      "lekh".toList ++
      (gap.toList ++ ((Layout.signed negative m "").toList ++ (gap'.toList ++ [';']))) := by
    simp
  rw [← shape] at scans
  obtain ⟨tokens, read, lexemes⟩ := scans.tokens
  cases negative with
  | true =>
    simp only [if_true, List.cons_append, List.nil_append, List.map_eq_cons_iff,
      List.map_eq_nil_iff] at lexemes
    obtain ⟨⟨_, p⟩, _, rfl, rfl, ⟨_, o⟩, _, rfl, rfl, ⟨_, q⟩, _, rfl, rfl, ⟨_, r⟩, _, rfl, rfl,
      ⟨_, e⟩, _, rfl, rfl, rfl⟩ := lexemes
    have negated : (Expr.unary .negate (.literal (.number (m.scaled 0)) q) o).eval =
        pure (.number (m.scaled 0).negate) := by
      rw [Expr.eval, Expr.eval]
      rfl
    exact Session.run_print read rfl negated (by rwa [Value.shown]) rounds
  | false =>
    simp only [Bool.false_eq_true, if_false, List.cons_append, List.nil_append,
      List.map_eq_cons_iff, List.map_eq_nil_iff] at lexemes
    obtain ⟨⟨_, p⟩, _, rfl, rfl, ⟨_, q⟩, _, rfl, rfl, ⟨_, r⟩, _, rfl, rfl, ⟨_, e⟩, _, rfl,
        rfl, rfl⟩ :=
      lexemes
    exact Session.run_print read rfl (by rw [Expr.eval])
      (by rwa [Value.ofLiteral, Value.shown]) rounds

/-! ### Numbers that are printed in positional notation -/

namespace Number

theorem key_of_not_isNegative {n : Number} (h : n.isNegative = false) : n.key = n.magnitude := by
  simp [key, h]

theorem isNegative_nearest (a b : Nat) : (nearest a b).isNegative = false := by
  apply isNegative_ofParts
  have : infinite < 2 ^ 63 := by decide
  simp only [nearestUnits]
  omega

def Moderate (n : Number) : Prop :=
  (nearest 1 (10 ^ 6)).atMost n.absolute = true ∧ n.absolute.less (.ofNat (10 ^ 21)) = true

theorem Moderate.isPositional {n : Number} (h : n.Moderate) :
    Layout.printed.isPositional n.magnitude = true := by
  obtain ⟨low, high⟩ := h
  simp only [atMost, less, Bool.and_eq_true, decide_eq_true_eq] at low high
  have least := low.2
  have most := high.2
  rw [key_of_not_isNegative (isNegative_nearest _ _), key_of_not_isNegative n.isNegative_absolute,
    magnitude_absolute, Int.ofNat_le] at least
  rw [ofNat, key_of_not_isNegative (isNegative_nearest _ _),
    key_of_not_isNegative n.isNegative_absolute, magnitude_absolute, Int.ofNat_lt] at most
  simp only [Layout.printed, Bool.and_eq_true, decide_eq_true_eq]
  exact ⟨least, most⟩

private theorem Moderate.ne_zero {n : Number} (h : n.Moderate) : n.magnitude ≠ 0 := by
  intro zero
  have near := h.isPositional
  rw [zero] at near
  exact absurd near (by decide +kernel)

end Number

private theorem Layout.exists_signed {n : Number} (finite : n.magnitude < Number.infinite)
    (near : n.isZero = true ∨ n.Moderate) :
    ∃ negative m, printed.render n = signed negative m "" ∧
      printed.render (if negative then (m.scaled 0).negate else m.scaled 0) = printed.render n := by
  obtain zero | moderate := near
  · have text : printed.render n = "0" := render_printed_zero (by simpa [Number.isZero] using zero)
    have value : (Numeral.zero.scaled 0).magnitude = 0 := by decide +kernel
    exact ⟨false, .zero, text, (render_printed_zero value).trans text.symm⟩
  · obtain ⟨m, text, value⟩ :=
      exists_signed_positional finite moderate.ne_zero moderate.isPositional
    refine ⟨n.isNegative, m, text, ?_⟩
    rw [value, n.sign_absolute]

namespace Number

/-- Printed numbers read back. What is printed for a finite number is read as a number equal to it;
and for zero and numbers from a millionth up to below `1e21` it is a program text that prints itself
and a line feed, in every session whose sink takes it. -/
theorem printed_read_back [Sink] {n : Number} (number : n.isNaN = false)
    (bounded : n.isInfinite = false) :
    (∃ m, ofText? (Layout.printed.render n) = some m ∧ m.same n = true) ∧
    (n.isZero = true ∨ n.Moderate →
      ∀ gap gap' : String, (∀ b ∈ gap.toList, isBlank b = true) →
      (∀ b ∈ gap'.toList, isBlank b = true) →
        gap ≠ "" → ∀ (rounds : Nat) (s : Session) (sink : Sink.State),
          Sink.write (Layout.printed.render n ++ "\n") s.sink = .ok () sink →
            Session.run rounds ("lekh" ++ gap ++ Layout.printed.render n ++ gap' ++ ";") false s =
              .done .null { s with sink }) := by
  have finite := isFinite_iff.mp ⟨number, bounded⟩
  refine ⟨ofText?_render finite, ?_⟩
  intro near gap gap' blank blank' apart rounds s sink takes
  obtain ⟨negative, m, text, same⟩ := Layout.exists_signed finite near
  rw [← same] at takes
  rw [text]
  exact Session.run_signed blank blank' apart takes rounds

open scoped Buffer

theorem printed_read_back_millionth :
    let n := (nearest 1 (10 ^ 6)).negate
    n.isNaN = false ∧ n.isInfinite = false ∧ n.Moderate ∧ Layout.printed.render n = "-0.000001" ∧
      (∃ m, ofText? "-0.000001" = some m ∧ m.same n = true) ∧
      Session.run 0 ("lekh" ++ " " ++ "-0.000001" ++ "" ++ ";") false (.initial Buffer.empty) =
        .done .null (.initial { Buffer.empty with printed := "-0.000001\n" }) := by
  intro n
  have number : n.isNaN = false := by decide +kernel
  have bounded : n.isInfinite = false := by decide +kernel
  have near : n.Moderate := ⟨by decide +kernel, by decide +kernel⟩
  have text : Layout.printed.render n = "-0.000001" := by decide +kernel
  have back := printed_read_back number bounded
  rw [text] at back
  refine ⟨number, bounded, near, text, back.1, ?_⟩
  exact back.2 (.inr near) " " "" (by simp [isBlank]) (by simp) (by decide) 0
    (.initial Buffer.empty) _ rfl

end Number

end DaiScript
