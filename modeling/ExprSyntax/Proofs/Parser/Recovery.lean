import ExprSyntax.Proofs.Parser.Reuse
import ExprSyntax.Proofs.Parser.StackLimit

/-!
# Restarting after an error

`synchronize` goes to the first restart point behind the current token (`isLeast_synchronize`). An
`attempt` is a parse and, where no tree comes back, a restart. It takes at least one token if there
is one in front of the next end marker (`position_lt_attempt`) and does not pass that marker, so a
reader that keeps attempting gets there (`exists_attempts`), and no token is taken twice on the way.
-/

namespace ExprSyntax

/-! ## Restart points -/

/-- The keywords with which statements begin. -/
def TokenKind.statementKeywords : List TokenKind :=
  [kwClass, kwFun, kwVar, kwFor, kwIf, kwWhile, kwPrint, kwReturn]

theorem TokenKind.beginsStatement_iff {k : TokenKind} :
    k.beginsStatement ↔ k ∈ statementKeywords := by
  cases k <;> decide

/-- A reader can restart at an end marker, behind a semicolon, and at a keyword with which a
statement begins. -/
def RestartsAt (tokens : Array Token) (i : Nat) : Prop :=
  tokens[i]?.map Token.kind = some .eof ∨
    tokens[i - 1]?.map Token.kind = some .semicolon ∨
    ∃ k ∈ TokenKind.statementKeywords, tokens[i]?.map Token.kind = some k

namespace Parser

theorem getElem?_previous (p : Parser) : p.tokens[p.position - 1]? = some p.previous :=
  Array.getElem?_eq_getElem _

theorem restartsAt_position_iff {p : Parser} :
    RestartsAt p.tokens p.position ↔
      p.atEnd ∨ p.previous.kind = .semicolon ∨ p.current.kind.beginsStatement := by
  simp [RestartsAt, getElem?_position, getElem?_previous, atEnd, TokenKind.beginsStatement_iff]

theorem position_advance {p : Parser} (h : ¬ p.atEnd) : p.advance.position = p.position + 1 := by
  simp [advance, h]

theorem isLeast_skipToRestart (p : Parser) :
    IsLeast {i | p.position ≤ i ∧ RestartsAt p.tokens i} p.skipToRestart.position := by
  fun_induction skipToRestart p with
  | case1 p hend =>
    exact ⟨⟨Nat.le_refl _, restartsAt_position_iff.2 (.inl hend)⟩, fun i hi => hi.1⟩
  | case2 p _ hsemi =>
    exact ⟨⟨Nat.le_refl _, restartsAt_position_iff.2 (.inr (.inl hsemi))⟩, fun i hi => hi.1⟩
  | case3 p _ _ hbegins =>
    exact ⟨⟨Nat.le_refl _, restartsAt_position_iff.2 (.inr (.inr hbegins))⟩, fun i hi => hi.1⟩
  | case4 p hend hsemi hbegins ih =>
    have hnot : ¬ RestartsAt p.tokens p.position := by
      rw [restartsAt_position_iff]
      simp [hend, hsemi, hbegins]
    rw [position_advance hend, (forward_advance p).tokens] at ih
    refine ⟨⟨Nat.le_of_succ_le ih.1.1, ih.1.2⟩, fun i hi => ih.2 ⟨?_, hi.2⟩⟩
    refine Nat.lt_of_le_of_ne hi.1 fun he => hnot ?_
    rw [he]
    exact hi.2

theorem synchronize_of_atEnd {p : Parser} (h : p.atEnd) : p.synchronize = p := by
  simp [synchronize, advance, skipToRestart, h]

theorem isLeast_synchronize {p : Parser} (h : ¬ p.atEnd) :
    IsLeast {i | p.position + 1 ≤ i ∧ RestartsAt p.tokens i} p.synchronize.position := by
  have hleast := isLeast_skipToRestart p.advance
  rwa [position_advance h, (forward_advance p).tokens] at hleast

/-! ## Attempts -/

/-- A parse and, where no tree comes back, a restart. -/
def attempt (p : Parser) : Parser :=
  match p.parse with
  | (.ok _, q) => q
  | (.error _, q) => q.synchronize

theorem forward_attempt (p : Parser) : Forward p p.attempt := by
  unfold attempt
  split
  · exact .of_parse ‹_›
  · exact (Forward.of_parse ‹_›).trans (forward_synchronize _)

/-- A parser that has not moved stands at the token at which it stood. -/
theorem Forward.current_eq {p q : Parser} (h : Forward p q) (hpos : q.position = p.position) :
    q.current = p.current := by
  have hq := q.getElem?_position
  rw [h.tokens, hpos, getElem?_position] at hq
  exact (Option.some.inj hq).symm

/-- A tree takes a token, and so does a restart. Where there is nothing to restart from, the parse
has gone to an end marker. -/
theorem position_lt_attempt {p : Parser} (h : ¬ p.atEnd) : p.position < p.attempt.position := by
  unfold attempt
  split
  · rename_i e q hparse
    have hread : (p.read .expression).result = .ok e := by
      have hres := congrArg Prod.fst hparse
      cases hr : (p.read .expression).result with
      | ok e' => simpa [parse, hr, Except.mapError] using hres
      | error err => simp [parse, hr, Except.mapError] at hres
    have hlt := position_lt_of_read hread
    rwa [show (p.read .expression).after = q from congrArg Prod.snd hparse] at hlt
  · rename_i d q hparse
    have hf := Forward.of_parse hparse
    by_cases hend : q.atEnd
    · rw [synchronize_of_atEnd hend]
      refine Nat.lt_of_le_of_ne hf.position fun hpos => h ?_
      rwa [atEnd, ← hf.current_eq hpos.symm]
    · exact Nat.lt_of_le_of_lt hf.position (isLeast_synchronize hend).1.1

/-! ## Getting through the tokens -/

theorem forward_iterate_attempt (p : Parser) (i : Nat) : Forward p (attempt^[i] p) := by
  induction i with
  | zero => exact .refl p
  | succ i ih =>
    rw [Function.iterate_succ_apply']
    exact ih.trans (forward_attempt _)

/-- Attempts come to an end marker, at the latest when each has taken one of the tokens in front. -/
theorem exists_attempts (p : Parser) :
    ∃ n, n ≤ p.toEnd ∧ (∀ i, i < n → ¬ (attempt^[i] p).atEnd) ∧ (attempt^[n] p).atEnd := by
  induction h : p.toEnd using Nat.strong_induction_on generalizing p with
  | _ k ih =>
    by_cases hend : p.atEnd
    · exact ⟨0, Nat.zero_le _, nofun, hend⟩
    · have hlt := position_lt_attempt hend
      have hsum := (forward_attempt p).position_add_toEnd
      obtain ⟨n, hn, hbefore, hat⟩ := ih p.attempt.toEnd (by omega) p.attempt rfl
      refine ⟨n + 1, by omega, fun i hi => ?_, by rwa [Function.iterate_succ_apply]⟩
      cases i with
      | zero => exact hend
      | succ i =>
        rw [Function.iterate_succ_apply]
        exact hbefore i (Nat.lt_of_succ_lt_succ hi)

/-- The places of the tokens that an attempt takes. -/
def taken (p : Parser) : Set Nat :=
  Set.Ico p.position p.attempt.position

/-- An attempt begins where the one before has ended. -/
theorem disjoint_taken (p : Parser) {i j : Nat} (h : i ≠ j) :
    Disjoint (attempt^[i] p).taken (attempt^[j] p).taken := by
  have hnext : ∀ i, (attempt^[i] p).attempt = attempt^[i + 1] p := fun i =>
    (Function.iterate_succ_apply' attempt i p).symm
  have hmono : Monotone fun i => (attempt^[i] p).position := by
    refine monotone_nat_of_le_succ fun i => ?_
    rw [← hnext]
    exact (forward_attempt _).position
  rw [taken, taken, hnext, hnext]
  exact hmono.pairwise_disjoint_on_Ico_succ h

/-- From an end marker a restart does not go on; from any other token it goes to the first restart
point behind that token, and there always is one. So a reader that attempts until it stands at an
end marker makes at most as many attempts as there are tokens in front of the next marker. It stops
at that marker, and no token has been taken in two attempts. -/
theorem restart_recovers (p : Parser) :
    (p.current.kind = .eof → p.synchronize.position = p.position) ∧
      (p.current.kind ≠ .eof →
        IsLeast {i | p.position + 1 ≤ i ∧ RestartsAt p.tokens i} p.synchronize.position) ∧
      p.synchronize.tokens = p.tokens ∧
      ∃ n, n ≤ p.toEnd ∧ (∀ i, i < n → (attempt^[i] p).current.kind ≠ .eof) ∧
        (attempt^[n] p).current.kind = .eof ∧
        (attempt^[n] p).position = p.position + p.toEnd ∧
        (∀ i, (attempt^[i] p).tokens = p.tokens) ∧
        ∀ i j, i ≠ j → Disjoint (attempt^[i] p).taken (attempt^[j] p).taken := by
  refine ⟨fun h => ?_, fun h => isLeast_synchronize (by simpa [atEnd] using h),
    (forward_synchronize p).tokens, ?_⟩
  · rw [synchronize_of_atEnd (by simpa [atEnd] using h)]
  · obtain ⟨n, hn, hbefore, hend⟩ := exists_attempts p
    have hsum := (forward_iterate_attempt p n).position_add_toEnd
    rw [toEnd_eq_zero_iff.2 hend] at hsum
    refine ⟨n, hn, fun i hi => ?_, ?_, hsum, fun i => (forward_iterate_attempt p i).tokens,
      fun i j => disjoint_taken p⟩
    · simpa [atEnd] using hbefore i hi
    · simpa [atEnd] using hend

/-- The token at which a restart begins is never where it ends, though it may be a keyword. A
semicolon counts only when it has been passed. -/
example :
    let semicolon : Token := ⟨.semicolon, ";", none, 1⟩
    let word : Token := ⟨.kwVar, "var", none, 1⟩
    ((ofTokens [word, semicolon, word, .eof 1] 0).synchronize.position,
      (ofTokens [word, word, semicolon, .eof 1] 0).synchronize.position) = (2, 1) := by
  cbv

end Parser

end ExprSyntax
