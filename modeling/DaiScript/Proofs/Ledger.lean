import DaiScript.Proofs.Offsets

/-! The faults that a recovering stream notes, and the tokens they are charged to. They are noted in
the order of the tokens at which they were raised, and no token but the end is charged twice:
recovery passes the token at fault, or rests on the brace that closes the block. Each fault is paid
for by a token passed, and each one raised at the end by a brace that was left open. -/
namespace DaiScript

open Grammar Reading

def SyntaxError.RaisedAt (tokens : List Token) (e : SyntaxError) (i : Nat) : Prop :=
  ∃ t, tokens[i]? = some t ∧ e.Blames t

def solids (tokens : List Token) : Nat := tokens.countP (·.kind ≠ .newline)

def openings (tokens : List Token) : Nat := tokens.countP (·.kind = .symbol .openBrace)

def closings (tokens : List Token) : Nat := tokens.countP (·.kind = .symbol .closeBrace)

section

variable (first second : List Token)

@[simp] theorem solids_append : solids (first ++ second) = solids first + solids second :=
  List.countP_append

@[simp] theorem openings_append : openings (first ++ second) = openings first + openings second :=
  List.countP_append

@[simp] theorem closings_append : closings (first ++ second) = closings first + closings second :=
  List.countP_append

end

theorem closings_eq_zero {tokens : List Token}
    (h : ∀ t ∈ tokens, t.kind ≠ .symbol .closeBrace) : closings tokens = 0 := by
  unfold closings
  rw [List.countP_eq_zero]
  simpa using h

theorem solids_pos {t : Token} (h : t.kind ≠ .newline) (rest : List Token) :
    0 < solids (t :: rest) := by
  unfold solids
  rw [List.countP_pos_iff]
  exact ⟨t, List.mem_cons_self, by simpa using h⟩

/-! ### Entries -/

/-- From `s` to `d`, faults were noted that were raised at the tokens with the offsets `sites`. They
come in order, and none of them twice but for that of the end. -/
structure Entries (s : Stream) (used : List Token) (d : Stream) (sites : List Nat) : Prop where
  passes : s.cursor.Passes used d.cursor
  noted : ∃ more, d.noted = s.noted.map (· ++ more) ∧
    List.Forall₂ (SyntaxError.RaisedAt s.cursor.tokens) more sites
  ordered : sites.Pairwise fun i j => i < j ∨ i = s.cursor.stop ∧ j = s.cursor.stop
  lower : ∀ i ∈ sites, s.cursor.offset ≤ i
  upper : ∀ i ∈ sites, i ≤ d.cursor.offset

namespace Entries

variable {s d f : Stream} {used more : List Token} {sites later : List Nat}

theorem none {c : Cursor} (h : s.cursor.Passes used c) : Entries s used { s with cursor := c } [] :=
  ⟨h, ⟨[], by cases s.noted <;> simp, .nil⟩, .nil, by simp, by simp⟩

theorem trans (h : Entries s used d sites) (k : Entries d more f later)
    (apart : ∀ i ∈ sites, ∀ j ∈ later, i < j ∨ i = s.cursor.stop ∧ j = s.cursor.stop) :
    Entries s (used ++ more) f (sites ++ later) := by
  obtain ⟨first, noted, raised⟩ := h.noted
  obtain ⟨second, noted', raised'⟩ := k.noted
  have onward := h.passes.offset_eq
  have onward' := k.passes.offset_eq
  rw [h.passes.tokens_eq] at raised'
  have ordered := k.ordered
  rw [h.passes.stop_eq] at ordered
  refine ⟨h.passes.trans k.passes, ⟨first ++ second, ?_, List.rel_append raised raised'⟩,
    List.pairwise_append.mpr ⟨h.ordered, ordered, apart⟩, ?_, ?_⟩
  · rw [noted', noted]
    cases s.noted <;> simp
  · rw [List.forall_mem_append]
    exact ⟨h.lower, fun i hi => by have := k.lower i hi; omega⟩
  · rw [List.forall_mem_append]
    exact ⟨fun i hi => by have := h.upper i hi; omega, k.upper⟩

theorem recovers (h : Entries s used d sites) (recovers : s.noted ≠ .none) : d.noted ≠ .none := by
  obtain ⟨more, noted, -⟩ := h.noted
  rw [noted]
  simpa using recovers

end Entries

/-! ### Statements -/

/-- What a statement is charged with. No fault is noted at its first token, nor at the token behind
it; a token is left for the fault that it may fail with; and the faults noted at the end are covered
by the braces opened. -/
structure Charged (s : Stream) (used : List Token) (d : Stream) (sites : List Nat) : Prop
    extends Entries s used d sites where
  inner : ∀ i ∈ sites, s.cursor.offset < i
  settled : ∀ i ∈ sites, i = d.cursor.offset → i = s.cursor.stop
  fewer : sites = [] ∨ sites.length < solids used
  atEnd : sites.count s.cursor.stop ≤ openings used
  balance : closings used ≤ openings used

def Charges (s : Stream) (used : List Token) (d : Stream) : Prop :=
  ∃ sites, Charged s used d sites

namespace Charges

variable {s d f : Stream} {used more : List Token} {c : Cursor}

theorem of_passes (h : s.cursor.Passes used c) (balance : closings used ≤ openings used) :
    Charges s used { s with cursor := c } :=
  ⟨[], .none h, by simp, by simp, .inl rfl, by simp, balance⟩

theorem of_passesBraceless (h : s.cursor.PassesBraceless used c) :
    Charges s used { s with cursor := c } := by
  apply of_passes h.toPasses
  rw [closings_eq_zero]
  · exact Nat.zero_le _
  · intro t ht hk
    have bare := h.bare t ht
    rw [hk] at bare
    contradiction

theorem of_newlines (newlines : ∀ b ∈ used, b.kind = .newline) (h : s.cursor.Passes used c) :
    Charges s used { s with cursor := c } :=
  of_passesBraceless ⟨h, fun t ht => by rw [newlines t ht]; rfl⟩

theorem trans (h : Charges s used d) (k : Charges d more f) : Charges s (used ++ more) f := by
  obtain ⟨sites, h⟩ := h
  obtain ⟨later, k⟩ := k
  have onward := h.passes.offset_eq
  have stop := h.passes.stop_eq
  have bound := f.cursor.offset_le_stop
  rw [k.passes.stop_eq, stop] at bound
  refine ⟨sites ++ later, h.toEntries.trans k.toEntries ?_, ?_, ?_, ?_, ?_, ?_⟩
  · intro i hi j hj
    have := h.upper i hi
    have := h.settled i hi
    have := k.inner j hj
    have := k.upper j hj
    omega
  · rw [List.forall_mem_append]
    exact ⟨h.inner, fun i hi => by have := k.inner i hi; omega⟩
  · rw [List.forall_mem_append]
    constructor
    · intro i hi same
      have := h.upper i hi
      have := h.settled i hi
      have := k.passes.offset_eq
      omega
    · intro i hi same
      rw [k.settled i hi same, stop]
  · have := h.fewer
    have := k.fewer
    simp only [List.append_eq_nil_iff, List.length_append, solids_append]
    grind
  · have := h.atEnd
    have := k.atEnd
    rw [stop] at this
    rw [List.count_append, openings_append]
    omega
  · have := h.balance
    have := k.balance
    rw [closings_append, openings_append]
    omega

theorem cursor (h : Charges s used d) : s.cursor.Passes used d.cursor := by
  obtain ⟨sites, h⟩ := h
  exact h.passes

theorem recovers (h : Charges s used d) (recovers : s.noted ≠ none) : d.noted ≠ none := by
  obtain ⟨sites, h⟩ := h
  exact h.toEntries.recovers recovers

end Charges

def SyntaxError.OnSpot (_ : Stream) (e : SyntaxError) (d : Stream) : Prop :=
  e.Blames d.cursor.peek

instance : TokenMoves Charges SyntaxError.OnSpot where
  stay s := .of_passes (.refl s.cursor) (Nat.le_refl _)
  go := Charges.trans
  back := fun _ met => met

namespace Grammar

abbrev Accounts (p : Parsing α) (s : Stream) (post : List Token → α → Prop) : Prop :=
  Ends Charges SyntaxError.OnSpot p s post

def AccountsBelow (k : Nat) (statement : Parsing Stmt) : Prop :=
  ∀ s : Stream, s.cursor.Grounded → s.noted ≠ none → s.cursor.left < k →
    Accounts statement s fun used _ => used ≠ []

theorem accounts_under {r : Reading α} {s : Stream} {post : List Token → α → Prop}
    (h : Ends Cursor.PassesBraceless SyntaxError.Here r s.cursor post) :
    Accounts (under r) s post := by
  unfold Accounts
  unfold Ends at h ⊢
  rw [under_apply]
  cases run : r s.cursor with
  | endless => rw [run] at h; exact h
  | done a d =>
    rw [run] at h
    obtain ⟨used, walk, hp⟩ := h
    exact ⟨used, .of_passesBraceless walk, hp⟩
  | failed e d =>
    rw [run] at h
    obtain ⟨⟨used, walk⟩, blamed⟩ := h
    exact ⟨⟨used, .of_passesBraceless walk⟩, blamed⟩

private theorem Accounts.strengthen {p : Parsing α} {s : Stream}
    {post formed : List Token → α → Prop} (h : Accounts p s post) (parses : Parses p s formed) :
    Accounts p s formed := by
  unfold Accounts at *
  unfold Parses at parses
  unfold Ends at *
  cases run : p s with
  | endless => rw [run] at h; exact h
  | failed e d => rw [run] at h; exact h
  | done a d =>
    rw [run] at h parses
    obtain ⟨used, charges, -⟩ := h
    obtain ⟨other, walk, hp⟩ := parses
    cases charges.cursor.unique walk.cursor
    exact ⟨used, charges, hp⟩

end Grammar

/-! ### Sequences -/

structure Staged (closing : Kind) (s : Stream) (used : List Token) (d : Stream) (sites : List Nat) :
    Prop extends Entries s used d sites where
  settled : ∀ i ∈ sites, i = d.cursor.offset → i = s.cursor.stop
  few : sites.length ≤ solids used
  atEnd : sites.count s.cursor.stop ≤ openings used
  balance : closing = .symbol .closeBrace → closings used ≤ openings used

/-- What a sequence is charged with. The last fault may be one raised at the token that ends the
sequence, so at the end of input there is one more than braces opened. -/
structure Collected (closing : Kind) (s : Stream) (used : List Token) (d : Stream)
    (sites : List Nat) : Prop extends Entries s used d sites where
  few : sites.length ≤ solids used
  atEnd : sites.count s.cursor.stop ≤ openings used + 1
  balance : closing = .symbol .closeBrace → closings used ≤ openings used

section

variable {closing : Kind} {s d f : Stream} {used more : List Token} {sites later : List Nat}

theorem Charged.staged (h : Charged s used d sites) : Staged closing s used d sites where
  toEntries := h.toEntries
  settled := h.settled
  few := by
    obtain rfl | fewer := h.fewer
    · exact Nat.zero_le _
    · exact Nat.le_of_lt fewer
  atEnd := h.atEnd
  balance _ := h.balance

theorem Staged.trans (h : Staged closing s used d sites) (k : Collected closing d more f later) :
    Collected closing s (used ++ more) f (sites ++ later) := by
  have stop := h.passes.stop_eq
  have bound := f.cursor.offset_le_stop
  rw [k.passes.stop_eq, stop] at bound
  refine ⟨h.toEntries.trans k.toEntries ?_, ?_, ?_, ?_⟩
  · intro i hi j hj
    have := h.upper i hi
    have := h.settled i hi
    have := k.lower j hj
    have := k.upper j hj
    omega
  · have := h.few
    have := k.few
    rw [List.length_append, solids_append]
    omega
  · have := h.atEnd
    have := k.atEnd
    rw [stop] at this
    rw [List.count_append, openings_append]
    omega
  · intro same
    have := h.balance same
    have := k.balance same
    rw [closings_append, openings_append]
    omega

theorem Collected.nil {s : Stream} : Collected closing s [] s [] where
  toEntries := .none (.refl s.cursor)
  few := Nat.zero_le _
  atEnd := Nat.zero_le _
  balance _ := Nat.le_refl _

/-- A block is charged with what its statements are charged with: its opening brace pays for the
fault it may fail with, and covers one at the end. -/
theorem Collected.charged {opening : Token} {c c' : Cursor} (hk : opening.kind = .symbol .openBrace)
    (first : s.cursor.Passes [opening] c)
    (h : Collected (.symbol .closeBrace) { s with cursor := c } used d sites)
    (last : d.cursor.Passes more c') (settled : more = [] → d.cursor.offset = s.cursor.stop)
    (closed : closings more ≤ 1) :
    Charged s ([opening] ++ used ++ more) { d with cursor := c' } sites := by
  have start := first.offset_eq
  have stop := first.stop_eq
  have onward := last.offset_eq
  rw [List.length_singleton] at start
  have lower : ∀ i ∈ sites, s.cursor.offset < i := by
    intro i hi
    have := h.lower i hi
    dsimp only at this
    omega
  have entries : Entries s ([opening] ++ used ++ more) { d with cursor := c' }
      ([] ++ sites ++ []) := by
    apply ((Entries.none first).trans h.toEntries (by simp)).trans (.none last)
    simp
  rw [List.nil_append, List.append_nil] at entries
  refine ⟨entries, lower, ?_, .inr ?_, ?_, ?_⟩
  · intro i hi same
    have := h.upper i hi
    cases more with
    | nil =>
      have := settled rfl
      dsimp only at same
      rw [List.length_nil] at onward
      omega
    | cons t rest =>
      rw [List.length_cons] at onward
      dsimp only at same
      omega
  · have := h.few
    have := solids_pos (t := opening) (by simp [hk]) []
    rw [solids_append, solids_append]
    omega
  · have := h.atEnd
    rw [stop] at this
    have : openings [opening] = 1 := by simp [openings, hk]
    rw [openings_append, openings_append]
    omega
  · have := h.balance rfl
    have : openings [opening] = 1 := by simp [openings, hk]
    have : closings [opening] = 0 := by simp [closings, hk]
    rw [openings_append, openings_append, closings_append, closings_append]
    omega

private theorem Charged.entries_fault {e : SyntaxError} {c : Cursor} (h : Charged s used d sites)
    (grounded : s.cursor.Grounded) (blamed : e.Blames d.cursor.peek)
    (moved : d.cursor.Passes more c) :
    Entries s (used ++ more) ⟨c, d.noted.map (· ++ [e])⟩ (sites ++ [d.cursor.offset]) := by
  have raised : SyntaxError.RaisedAt d.cursor.tokens e d.cursor.offset :=
    ⟨_, (h.passes.grounded grounded).getElem?_offset, blamed⟩
  have last : Entries d more ⟨c, d.noted.map (· ++ [e])⟩ [d.cursor.offset] := by
    refine ⟨moved, ⟨[e], rfl, .cons raised .nil⟩, List.pairwise_singleton _ _, by simp, ?_⟩
    have := moved.offset_eq
    simp only [List.mem_singleton]
    omega
  apply h.toEntries.trans last
  intro i hi j hj
  cases List.mem_singleton.mp hj
  have := h.upper i hi
  have := h.settled i hi
  omega

theorem Charged.few_fault (h : Charged s used d sites) {c : Cursor} (moved : d.cursor.Passes more c)
    (solid : s.cursor.peek.kind ≠ .newline) (some : used ++ more ≠ []) :
    (sites ++ [d.cursor.offset]).length ≤ solids (used ++ more) := by
  rw [List.length_append, List.length_singleton]
  obtain rfl | fewer := h.fewer
  · obtain ⟨rest, whole⟩ := (h.passes.trans moved).head some
    rw [whole]
    exact solids_pos solid rest
  · rw [solids_append]
    omega

/-- Recovery rests on the token at fault, which then ends the sequence, or passes it. -/
theorem Charged.exists_recover {e : SyntaxError} (h : Charged s used d sites)
    (grounded : s.cursor.Grounded) (recovers : s.noted ≠ none) (blamed : e.Blames d.cursor.peek)
    (solid : s.cursor.peek.kind ≠ .newline)
    (going : (s.cursor.atEnd || s.cursor.check closing) = false) :
    ∃ more f, recover e closing d = .done () f ∧ used ++ more ≠ [] ∧
      (Staged closing s (used ++ more) f (sites ++ [d.cursor.offset]) ∨
        (f.cursor.atEnd || f.cursor.check closing) = true ∧
          Collected closing s (used ++ more) f (sites ++ [d.cursor.offset])) := by
  have hd := h.passes.grounded grounded
  obtain ⟨more, c, run, walk, moved⟩ := exists_resumed hd closing
  have recovered : recover e closing d = .done () ⟨c, d.noted.map (· ++ [e])⟩ := by
    rw [recover_eq, run]
    cases noted : d.noted with
    | none => exact absurd noted (h.toEntries.recovers recovers)
    | some faults => rfl
  have entries := h.entries_fault grounded blamed walk
  refine ⟨more, _, recovered, ?_⟩
  obtain ⟨rfl, resting⟩ | ⟨rest, rfl, going', passed⟩ := moved
  · cases walk.eq_of_nil
    have some : used ++ [] ≠ [] := by
      intro nothing
      rw [List.append_nil] at nothing
      subst nothing
      rw [h.passes.eq_of_nil, going] at resting
      contradiction
    refine ⟨some, .inr ⟨resting, entries, h.few_fault walk solid some, ?_, ?_⟩⟩
    · have := h.atEnd
      have : [d.cursor.offset].count s.cursor.stop ≤ 1 := List.count_le_length
      rw [List.count_append, List.append_nil]
      omega
    · intro _
      rw [List.append_nil]
      exact h.balance
  · have some : used ++ d.cursor.peek :: rest ≠ [] := by simp
    obtain ⟨inside, other⟩ := Bool.or_eq_false_iff.mp going'
    have onward := walk.offset_eq
    rw [List.length_cons] at onward
    refine ⟨some, .inl ⟨entries, ?_, h.few_fault walk solid some, ?_, ?_⟩⟩
    · intro i hi same
      have : i ≤ d.cursor.offset := by
        obtain hi | hi := List.mem_append.mp hi
        · exact h.upper i hi
        · exact Nat.le_of_eq (List.mem_singleton.mp hi)
      dsimp only at same
      omega
    · have before : d.cursor.offset ≠ s.cursor.stop := by
        rw [← h.passes.stop_eq, ne_eq, hd.offset_eq_stop]
        simpa [Cursor.atEnd] using inside
      have := h.atEnd
      rw [List.count_append, List.count_singleton, openings_append, beq_false_of_ne before]
      simp only [Bool.false_eq_true, if_false]
      omega
    · rintro rfl
      have := h.balance
      have unclosed : closings (d.cursor.peek :: rest) = 0 := by
        apply closings_eq_zero
        rw [List.forall_mem_cons]
        constructor
        · simpa [Cursor.check, inside] using other
        · intro t ht hk
          have := passed t ht
          rw [hk] at this
          contradiction
      rw [closings_append, openings_append, unclosed]
      omega

end

namespace Grammar

section

variable {k : Nat} {statement : Parsing Stmt} (below : AccountsBelow k statement)
include below

omit below in
private theorem sequence_of_stop {closing : Kind} (solid : closing ≠ .newline) {bound : Nat}
    {s : Stream} (grounded : s.cursor.Grounded)
    (stopped : (s.cursor.atEnd || s.cursor.check closing) = true) :
    sequence statement closing (bound + 1) s = .done [] s := by
  have still : s.pastNewlines = s := by
    have other : s.cursor.peek.kind ≠ .newline := by
      intro newline
      simp [Cursor.check, Cursor.atEnd, newline, solid.symm] at stopped
    unfold Stream.pastNewlines
    rw [grounded.pastNewlines_eq other]
  rw [← still] at stopped
  rw [sequence_of_stopped grounded stopped, still]

private theorem exists_collected_round {closing : Kind} (solid : closing ≠ .newline) {bound : Nat}
    {s : Stream} (grounded : s.cursor.Grounded) (recovers : s.noted ≠ none)
    (fits : s.cursor.left < k) (enough : s.cursor.left ≤ bound)
    (other : s.cursor.peek.kind ≠ .newline)
    (going : (s.cursor.atEnd || s.cursor.check closing) = false)
    (ih : ∀ {d : Stream}, d.cursor.Grounded → d.noted ≠ none → d.cursor.left < k →
      d.cursor.left < bound → ∃ body used f sites,
        sequence statement closing bound d = .done body f ∧
        Collected closing d used f sites) :
    ∃ body used d sites,
      round statement closing (sequence statement closing bound) s = .done body d ∧
      Collected closing s used d sites := by
  have spec := below s grounded recovers fits
  rw [round_eq]
  cases run : statement s with
  | endless => exact absurd run spec.not_endless
  | done a d =>
    obtain ⟨used, ⟨sites, charged⟩, some⟩ := spec.of_done run
    have shorter := charged.passes.left_eq
    have length := List.length_pos_iff.mpr some
    obtain ⟨body, more, f, later, run', collected⟩ := ih (charged.passes.grounded grounded)
      (charged.toEntries.recovers recovers) (by omega) (by omega)
    have whole : (sequence statement closing bound >>= fun rest => Pure.pure (a :: rest)) d =
        .done (a :: body) f := by
      rw [Process.bind_apply, run']
      rfl
    exact ⟨a :: body, used ++ more, f, sites ++ later, whole, charged.staged.trans collected⟩
  | failed e d =>
    obtain ⟨⟨used, sites, charged⟩, blamed⟩ := spec.of_failed run
    obtain ⟨more, f, recovered, some, outcome⟩ :=
      charged.exists_recover grounded recovers blamed other going
    have length := List.length_pos_iff.mpr some
    have onward : (recover e closing >>= fun _ => sequence statement closing bound) d =
        sequence statement closing bound f := by
      rw [Process.bind_apply, recovered]
    dsimp only
    rw [onward]
    obtain staged | ⟨stopped, collected⟩ := outcome
    · have shorter := staged.passes.left_eq
      obtain ⟨body, rest, g, later, run', collected⟩ := ih (staged.passes.grounded grounded)
        (staged.toEntries.recovers recovers) (by omega) (by omega)
      exact ⟨body, _, g, _, run', staged.trans collected⟩
    · have shorter := collected.passes.left_eq
      obtain ⟨bound, rfl⟩ := Nat.exists_eq_add_of_le' (show 1 ≤ bound by omega)
      exact ⟨[], _, f, _,
        sequence_of_stop solid (collected.passes.grounded grounded) stopped, collected⟩

/-- A sequence in front of an end of input is read to its closing token or to the end, and is
charged with every fault noted in it. -/
theorem exists_collected {closing : Kind} (solid : closing ≠ .newline) {bound : Nat} {s : Stream}
    (grounded : s.cursor.Grounded) (recovers : s.noted ≠ none) (fits : s.cursor.left < k)
    (enough : s.cursor.left < bound) :
    ∃ body used d sites, sequence statement closing bound s = .done body d ∧
      Collected closing s used d sites := by
  induction bound generalizing s with
  | zero => omega
  | succ bound ih =>
    obtain ⟨breaks, newlines, walk, other⟩ := grounded.passes_pastNewlines
    have hs := walk.grounded grounded
    have shorter := walk.left_eq
    obtain ⟨none, skipped⟩ : Charges s breaks s.pastNewlines := .of_newlines newlines walk
    have whole : ∀ {body : List Stmt} {used : List Token} {d : Stream} {sites : List Nat},
        sequence statement closing (bound + 1) s = .done body d →
        Collected closing s.pastNewlines used d sites → ∃ body used d sites,
          sequence statement closing (bound + 1) s = .done body d ∧
            Collected closing s used d sites :=
      fun run collected => ⟨_, _, _, _, run, skipped.staged.trans collected⟩
    cases stopped : s.pastNewlines.cursor.atEnd || s.pastNewlines.cursor.check closing with
    | true => exact whole (sequence_of_stopped grounded stopped) .nil
    | false =>
      have fits' : s.pastNewlines.cursor.left < k := show s.cursor.pastNewlines.left < k by omega
      have enough' : s.pastNewlines.cursor.left ≤ bound :=
        show s.cursor.pastNewlines.left ≤ bound by omega
      obtain ⟨body, used, d, sites, run, collected⟩ :=
        exists_collected_round (s := s.pastNewlines) below solid hs recovers fits' enough'
          other stopped ih
      exact whole ((sequence_of_going grounded stopped).trans run) collected

theorem exists_block {bound : Nat} {s : Stream} (grounded : s.cursor.Grounded)
    (recovers : s.noted ≠ none) (fits : s.cursor.left ≤ k) (enough : s.cursor.left ≤ bound)
    (opening : s.cursor.peek.kind = .symbol .openBrace) :
    ∃ body used d sites,
      Collected (.symbol .closeBrace) { s with cursor := s.cursor.advance } used d sites ∧
      (d.cursor.peek.kind = .symbol .closeBrace ∧
          block statement bound s = .done (.block body) { d with cursor := d.cursor.advance } ∨
        d.cursor.peek.kind = .finish ∧ ∃ e, block statement bound s = .failed e d ∧
          e.Blames d.cursor.peek) := by
  have first := grounded.passes_advance (by simp [opening])
  have hc := first.grounded grounded
  have shorter := first.left_eq
  rw [List.length_singleton] at shorter
  obtain ⟨body, used, d, sites, run, collected⟩ :=
    exists_collected (s := { s with cursor := s.cursor.advance }) below
      (show Kind.symbol .closeBrace ≠ .newline by simp) hc recovers
      (show s.cursor.advance.left < k by omega) (show s.cursor.advance.left < bound by omega)
  refine ⟨body, used, d, sites, collected, ?_⟩
  rw [block_of_sequence grounded opening run, Process.bind_apply, under_apply,
    close_eq (collected.passes.grounded hc)]
  by_cases hk : d.cursor.peek.kind = .symbol .closeBrace
  · rw [if_pos hk]
    exact .inl ⟨hk, rfl⟩
  · rw [if_neg hk]
    refine .inr ⟨?_, _, rfl, rfl, rfl⟩
    obtain ended | closed := stop_of_sequence run
    · exact beq_iff_eq.mp ended
    · simp [Cursor.check, hk] at closed

private theorem accounts_block {bound : Nat} {s : Stream} (grounded : s.cursor.Grounded)
    (recovers : s.noted ≠ none) (fits : s.cursor.left ≤ k) (enough : s.cursor.left ≤ bound)
    (opening : s.cursor.peek.kind = .symbol .openBrace) :
    Accounts (block statement bound) s fun _ _ => True := by
  have first := grounded.passes_advance (by simp [opening])
  obtain ⟨body, used, d, sites, collected, outcome⟩ :=
    exists_block below grounded recovers fits enough opening
  have hd := collected.passes.grounded (first.grounded grounded)
  unfold Accounts Ends
  obtain ⟨hk, run⟩ | ⟨ended, e, run, blamed⟩ := outcome
  · rw [run]
    have last := hd.passes_advance (by simp [hk])
    exact ⟨_,
      ⟨sites, collected.charged opening first last (by simp) List.countP_le_length⟩, trivial⟩
  · rw [run]
    have stopped : d.cursor.offset = s.cursor.stop := by
      rw [← first.stop_eq, hd.offset_eq_stop.mpr ended]
      exact collected.passes.stop_eq
    exact ⟨⟨_, sites, collected.charged opening first (.refl _) (fun _ => stopped)
      (by simp [closings])⟩, blamed⟩

private theorem accounts_otherwise {test : Expr} {consequent : Stmt} {s : Stream}
    (grounded : s.cursor.Grounded) (recovers : s.noted ≠ none) (fits : s.cursor.left ≤ k) :
    Accounts (otherwise statement test consequent) s fun _ _ => True := by
  have run : otherwise statement test consequent s = _ := otherwise_eq grounded
  by_cases hk : s.cursor.pastNewlines.peek.kind = .keyword .natra
  · rw [if_pos hk] at run
    obtain ⟨breaks, newlines, walk, -⟩ := grounded.passes_pastNewlines
    have hd := walk.grounded grounded
    have step := walk.trans (hd.passes_advance (by simp [hk]))
    have shorter := step.left_eq
    rw [List.length_append, List.length_singleton] at shorter
    have moved : Charges s (breaks ++ [s.cursor.pastNewlines.peek])
        { s with cursor := s.cursor.pastNewlines.advance } := by
      apply Charges.of_passesBraceless ⟨step, ?_⟩
      rw [List.forall_mem_append]
      exact ⟨fun b hb => by rw [newlines b hb]; rfl, by simp [hk, Kind.isBrace]⟩
    apply Ends.further run moved
    apply (below { s with cursor := s.cursor.pastNewlines.advance }
      (step.grounded grounded) recovers
      (show s.cursor.pastNewlines.advance.left < k by omega)).bind
    intro alternate used f _ _
    exact .pure trivial
  · rw [if_neg hk] at run
    have same : otherwise statement test consequent s =
        (Pure.pure (Stmt.branch test consequent none) : Parsing Stmt) s := run
    exact .congr same (.pure trivial)

private theorem accounts_branch {s : Stream} (grounded : s.cursor.Grounded)
    (recovers : s.noted ≠ none) (fits : s.cursor.left < k) :
    Accounts (branch statement) s fun _ _ => True := by
  rw [branch_eq]
  apply (accounts_under (braceless_expression grounded)).bind
  intro test used d charges _
  have hd := charges.cursor.grounded grounded
  have shorter := charges.cursor.left_eq
  apply (accounts_under (braceless_expect hd rfl (by simp))).bind
  intro bhane used' d' charges' _
  have hd' := charges'.cursor.grounded hd
  have shorter' := charges'.cursor.left_eq
  have recovers' := charges'.recovers (charges.recovers recovers)
  apply (below d' hd' recovers' (by omega)).bind
  intro consequent used'' f charges'' _
  have shorter'' := charges''.cursor.left_eq
  exact accounts_otherwise below (charges''.cursor.grounded hd') (charges''.recovers recovers')
    (by omega)

end

private theorem accounts_entered {k : Nat} (below : AccountsBelow k (statementWithin k))
    {s : Stream} (grounded : s.cursor.Grounded) (recovers : s.noted ≠ none)
    (fits : s.cursor.left ≤ k) :
    Accounts (entered k s.cursor.peek.kind) s fun _ _ => True := by
  have keyword : ∀ {p : Parsing Stmt} {word : Keyword}, s.cursor.peek.kind = .keyword word →
      (∀ d : Stream, d.cursor.Grounded → d.noted ≠ none → d.cursor.left < k →
        Accounts p d fun _ _ => True) →
      Accounts (under advance >>= fun _ => p) s fun _ _ => True := by
    intro p word hk h
    have step := grounded.passes_advance (by simp [hk])
    have shorter := step.left_eq
    rw [List.length_singleton] at shorter
    have moved : Charges s [s.cursor.peek] { s with cursor := s.cursor.advance } :=
      .of_passesBraceless ⟨step, by simp [hk, Kind.isBrace]⟩
    exact .bind_of_done rfl moved (h { s with cursor := s.cursor.advance } (step.grounded grounded)
      recovers (show s.cursor.advance.left < k by omega))
  generalize hk : s.cursor.peek.kind = kind
  unfold entered
  split
  · exact keyword hk fun d hd noted left => accounts_branch below hd noted left
  · apply keyword hk
    intro d hd noted left
    apply (accounts_under (braceless_expression hd)).bind
    intro test used f charges _
    have shorter := charges.cursor.left_eq
    apply (below f (charges.cursor.grounded hd) (charges.recovers noted) (by omega)).bind
    intro body _ _ _ _
    exact .pure trivial
  · exact accounts_block below grounded recovers fits fits hk
  · exact (accounts_under (braceless_simple grounded)).mono fun _ _ _ => trivial

theorem accountsBelow_statementWithin (k : Nat) : AccountsBelow k (statementWithin k) := by
  induction k with
  | zero => intro s _ _ fits; omega
  | succ k below =>
    intro s grounded recovers fits
    obtain ⟨breaks, newlines, walk, -⟩ := grounded.passes_pastNewlines
    have shorter := walk.left_eq
    have plain : Accounts (statementWithin (k + 1)) s fun _ _ => True := by
      apply Ends.further (statementWithin_eq grounded) (Charges.of_newlines newlines walk)
      exact accounts_entered (s := s.pastNewlines) below (walk.grounded grounded) recovers
        (show s.cursor.pastNewlines.left ≤ k by omega)
    exact plain.strengthen
      ((formsBelow_statementWithin (k + 1) s grounded fits).mono fun _ _ formed => formed.1)

end Grammar

end DaiScript
