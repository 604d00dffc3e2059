import DaiScript.Proofs.Ledger

/-! The list of all faults of a program. It is in the order of the tokens, it names no token twice
but for the end, and it is bounded: there are no more faults than tokens, and no more of them at the
end than braces that might still be open there. -/
namespace DaiScript

open Grammar

/-! ### Where faults are raised -/

/-- The tokens, each with its own offset for the index of its place. -/
def Token.numbered (tokens : List Token) : List Token :=
  tokens.mapIdx fun i t => { t with position := { t.position with index := i } }

/-- The offsets of the tokens at which the faults of a list were raised, in the order of the faults.
A fault has the place of its token, so among numbered tokens it tells which token that was. -/
def Program.sites (tokens : List Token) : Option (List Nat) :=
  (faults (Token.numbered tokens)).map (List.map (·.position.index))

def Token.place (tokens : List Token) (p : Position) : Position :=
  (tokens[p.index]?.map Token.position).getD p

private theorem Token.map_moved_numbered (tokens : List Token) :
    (Token.numbered tokens).map (Token.moved (Token.place tokens)) = tokens := by
  unfold Token.numbered
  apply List.ext_getElem?
  intro i
  simp only [List.getElem?_map, List.getElem?_mapIdx, Option.map_map]
  cases found : tokens[i]? with
  | none => rfl
  | some t => simp [Token.moved, Token.place, found]

private theorem SyntaxError.RaisedAt.index_eq {tokens : List Token} {e : SyntaxError} {i : Nat}
    (h : e.RaisedAt (Token.numbered tokens) i) : e.position.index = i := by
  obtain ⟨t, found, -, place⟩ := h
  rw [Token.numbered, List.getElem?_mapIdx] at found
  obtain ⟨u, -, rfl⟩ := Option.map_eq_some_iff.mp found
  rw [place]

theorem SyntaxError.RaisedAt.moved {tokens : List Token} {e : SyntaxError} {i : Nat}
    (h : e.RaisedAt tokens i) (move : Position → Position) :
    (e.moved move).RaisedAt (tokens.map (Token.moved move)) i := by
  obtain ⟨t, found, cause, place⟩ := h
  refine ⟨t.moved move, by rw [List.getElem?_map, found]; rfl, cause, ?_⟩
  exact congrArg move place

/-! ### Programs -/

section

variable {tokens : List Token} (ended : ∃ t ∈ tokens, t.kind = .finish)
include ended

theorem Program.exists_sites :
    ∃ errors sites, faults tokens = some errors ∧
    List.Forall₂ (SyntaxError.RaisedAt tokens) errors sites ∧
      sites.Pairwise (fun i j => i < j ∨
        i = (Cursor.ofTokens tokens).stop ∧ j = (Cursor.ofTokens tokens).stop) ∧
      sites.count (Cursor.ofTokens tokens).stop ≤
        openings (tokens.takeWhile (·.kind != .finish)) + 1 ∧
      sites.length ≤ solids (tokens.takeWhile (·.kind != .finish)) := by
  have grounded : (Cursor.ofTokens tokens).Grounded := ⟨rfl, ended⟩
  have short : (Cursor.ofTokens tokens).left < tokens.length := grounded.left_lt
  obtain ⟨body, used, d, sites, run, collected⟩ :=
    exists_collected (s := .recovering tokens) (accountsBelow_statementWithin (tokens.length + 4))
      (show Kind.finish ≠ .newline by simp) grounded (by simp [Stream.recovering])
      (show (Cursor.ofTokens tokens).left < tokens.length + 4 by omega)
      (show (Cursor.ofTokens tokens).left < tokens.length + 4 by omega)
  have hd := collected.passes.grounded grounded
  have stopped : d.cursor.peek.kind = .finish := by
    obtain atEnd | closed := stop_of_sequence run
    · exact beq_iff_eq.mp atEnd
    · simp [Cursor.check, Cursor.atEnd] at closed
  have front : tokens.takeWhile (·.kind != .finish) = used :=
    collected.passes.takeWhile_eq hd stopped
  obtain ⟨errors, noted, raised⟩ := collected.noted
  have found : faults tokens = some errors := by
    have whole : statements .finish (.recovering tokens) = .done body d := run
    rw [Program.faults, whole]
    simp [Stream.faults, noted, Stream.recovering]
  rw [front]
  exact ⟨errors, sites, found, raised, collected.ordered, collected.atEnd, collected.few⟩

omit ended in
private theorem count_le_one {stop : Nat} {sites : List Nat}
    (ordered : sites.Pairwise fun i j => i < j ∨ i = stop ∧ j = stop) {i : Nat} (other : i ≠ stop) :
    sites.count i ≤ 1 := by
  by_contra twice
  have both : [i, i].Sublist sites := List.replicate_sublist_iff.mpr (Nat.lt_of_not_le twice)
  have related := List.rel_of_pairwise_cons (ordered.sublist both) List.mem_cons_self
  omega

/-- The faults are listed in the order of the tokens at which they were raised. No two of them were
raised at one token, unless it is the first end of input; there were at most one more raised there
than braces opened before it; and there are at most as many faults as tokens before it that are no
line breaks. -/
theorem Program.faults_ordered :
    let front := tokens.takeWhile (·.kind != .finish)
    ∃ errors sites, faults tokens = some errors ∧ Program.sites tokens = some sites ∧
      List.Forall₂ (SyntaxError.RaisedAt tokens) errors sites ∧ sites.Pairwise (· ≤ ·) ∧
      (∀ i, i ≠ front.length → sites.count i ≤ 1) ∧
      sites.count front.length ≤ 1 + openings front ∧ errors.length ≤ solids front := by
  intro front
  have whole := Token.map_moved_numbered tokens
  generalize place : Token.place tokens = move at whole
  have ended' : ∃ t ∈ Token.numbered tokens, t.kind = .finish := by
    rw [← whole] at ended
    simpa using ended
  obtain ⟨errors, sites, found, raised, ordered, atEnd, few⟩ := Program.exists_sites ended'
  have located : errors.map (·.position.index) = sites := by
    rw [← List.forall₂_eq_eq_eq, List.forall₂_map_left_iff]
    exact raised.imp fun _ _ raisedAt => raisedAt.index_eq
  have same : front =
      ((Token.numbered tokens).takeWhile (·.kind != .finish)).map (Token.moved move) := by
    change tokens.takeWhile (·.kind != .finish) = _
    conv_lhs => rw [← whole, List.takeWhile_map]
    rfl
  have stop : (Cursor.ofTokens (Token.numbered tokens)).stop = front.length := by
    rw [same, List.length_map]
    exact Nat.zero_add _
  have opened : openings front =
      openings ((Token.numbered tokens).takeWhile (·.kind != .finish)) := by
    rw [same]
    exact List.countP_map
  have solid : solids front = solids ((Token.numbered tokens).takeWhile (·.kind != .finish)) := by
    rw [same]
    exact List.countP_map
  rw [stop] at ordered atEnd
  refine ⟨errors.map (SyntaxError.moved move), sites, ?_, ?_, ?_, ?_,
    fun i => count_le_one ordered, ?_, ?_⟩
  · conv_lhs => rw [← whole]
    rw [Program.faults_moved move (.inr ended'), found]
    rfl
  · rw [Program.sites, found, ← located]
    rfl
  · rw [List.forall₂_map_left_iff]
    refine raised.imp fun e i raisedAt => ?_
    rw [← whole]
    exact raisedAt.moved move
  · exact ordered.imp fun h => by omega
  · omega
  · rw [List.length_map, raised.length_eq]
    omega

end

theorem Program.faults_ordered_open :
    let tokens : List Token := [⟨.symbol .openBrace, ⟨1, 1, 0⟩⟩, ⟨.symbol .plus, ⟨1, 3, 2⟩⟩,
      ⟨.symbol .semicolon, ⟨1, 4, 3⟩⟩, ⟨.keyword .lekh, ⟨1, 6, 5⟩⟩, .finish ⟨1, 10, 9⟩]
    (∃ t ∈ tokens, t.kind = .finish) ∧ Program.sites tokens = some [1, 4, 4] ∧
      ∃ errors, faults tokens = some errors ∧
        List.Forall₂ (SyntaxError.RaisedAt tokens) errors [1, 4, 4] ∧ errors.length ≤ 4 := by
  intro tokens
  have ended : ∃ t ∈ tokens, t.kind = .finish := by decide
  have located : Program.sites tokens = some [1, 4, 4] := by
    dsimp only [tokens]
    cbv
  obtain ⟨errors, sites, found, same, raised, -, -, -, few⟩ := Program.faults_ordered ended
  rw [located] at same
  cases same
  exact ⟨ended, located, errors, found, raised, few⟩

end DaiScript
