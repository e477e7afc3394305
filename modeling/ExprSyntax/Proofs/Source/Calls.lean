import ExprSyntax.Proofs.Source.Cursor
import ExprSyntax.Proofs.Source.LineNumbers

/-!
# The calls of a scan

A call of `scanToken?` looks at nothing outside of the source: it always gives something, the cursor
`behind` the segment that starts where it does (`scanToken?_eq`). So each call gets further and
stays in range (`Call.InRange`), no more of them can be made than there are characters, and together
they give what `scan` gives (`scans_in_range`).
-/

namespace ExprSyntax

namespace Segment

variable {c : Char} {cs : List Char} {k : TokenKind}

theorem token?_first (hx : (extent c cs).1 = .lexeme k) (line : Nat) :
    (first line c cs).token? = some ⟨k, (first line c cs).lexeme, (first line c cs).literal? k,
      (first line c cs).endLine⟩ := by
  simp [token?, first, hx]

theorem diagnostic?_first (hx : (extent c cs).1 = .lexeme k) (line : Nat) :
    (first line c cs).diagnostic? = none := by
  simp [diagnostic?, first, hx]

/-- A lexeme at the head of a text is one of the notation, and has the value that it has there. -/
theorem means_first (hx : (extent c cs).1 = .lexeme k) (line : Nat) :
    Described (first line c cs).piece.cls (first line c cs).text (afterFirst c cs) ∧
      (first line c cs).piece.Means k ((first line c cs).literal? k) := by
  have hfits : Fits (first line c cs) (afterFirst c cs) :=
    (stray_or_fits line c cs).resolve_left fun h => by simp [h] at hx
  have hy := hfits.yields
  rw [token?_first hx] at hy
  exact ⟨hfits.described, hy.means⟩

/-- It has a line feed in it only if it is a string. -/
theorem lineFeed_not_mem_first (hx : (extent c cs).1 = .lexeme k) (hk : k ≠ .string) (line : Nat) :
    '\n' ∉ (first line c cs).text := by
  obtain ⟨hd, hm⟩ := means_first hx line
  exact hd.lineFeed_not_mem hm.isLexeme (hm.cls_ne_closedString hk)

end Segment

open Segment

namespace Cursor

variable {s : Cursor}

/-! ## One call -/

/-- The cursor behind a segment, with what the segment gives. -/
def behind (s : Cursor) (g : Segment) : Cursor :=
  { s.past g.text with
    tokens := s.tokens ++ g.token?.toList
    diagnostics := s.diagnostics ++ g.diagnostic?.toList }

theorem behind_of_none {g : Segment} (ht : g.token? = none) (hd : g.diagnostic? = none) :
    s.behind g = s.past g.text := by
  rw [behind, ht, hd, Option.toList_none, Option.toList_none, List.append_nil, List.append_nil]
  rfl

theorem behind_of_report {g : Segment} {d : Diagnostic} (ht : g.token? = none)
    (hd : g.diagnostic? = some d) : s.behind g = (s.past g.text).report d := by
  rw [behind, ht, hd, Option.toList_none, List.append_nil]
  rfl

section
variable {c : Char} {cs : List Char} {k : TokenKind} (h : s.ahead = c :: cs)
  (hs : s.start = s.position)
include h

theorem ahead_eq_first (line : Nat) : s.ahead = (first line c cs).text ++ afterFirst c cs :=
  h.trans (text_first_append line c cs).symm

theorem ahead_behind (line : Nat) : (s.behind (first line c cs)).ahead = afterFirst c cs := by
  show (s.past (first line c cs).text).ahead = _
  rw [ahead_past, ahead_eq_first h line, List.drop_left]

include hs

theorem lexeme?_past (line : Nat) :
    (s.past (first line c cs).text).lexeme? = some (first line c cs).lexeme :=
  lexeme?_move (ahead_eq_first h line) hs (List.cons_ne_nil _ _)

/-- A lexeme is cut out and becomes a token, with the value that is due to it. -/
theorem addToken?_past (hx : (extent c cs).1 = .lexeme k) :
    (s.past (first s.line c cs).text).addToken? k ((first s.line c cs).literal? k) =
      some (s.behind (first s.line c cs)) := by
  rw [addToken?, lexeme?_past h hs, behind, token?_first hx, diagnostic?_first hx,
    Option.toList_none, List.append_nil]
  rfl

/-- No line ends inside of a lexeme that is no string. -/
theorem addToken?_move {n : Nat} {v : Option Literal} (hx : extent c cs = (.lexeme k, n))
    (hk : k ≠ .string) (hv : (first s.line c cs).literal? k = v) :
    (s.move (n + 1)).addToken? k v = some (s.behind (first s.line c cs)) := by
  have hcls : (extent c cs).1 = .lexeme k := by rw [hx]
  have hlen : (first s.line c cs).text.length = n + 1 := by rw [length_text_first, hx]
  rw [← hlen, move_length (lineFeed_not_mem_first hcls hk s.line), ← hv]
  exact addToken?_past h hs hcls

theorem addToken?_symbol {n : Nat} (hx : extent c cs = (.lexeme k, n))
    (hk : k ∈ TokenKind.symbols) :
    (s.move (n + 1)).addToken? k none = some (s.behind (first s.line c cs)) :=
  addToken?_move h hs hx (TokenKind.ne_of_spelled (.inl hk)).1 (literal?_spelled (.inl hk) _)

theorem addPaired?_eq {single double : TokenKind} (hp : paired? c = some (single, double)) :
    (s.move 1).addPaired? single double = some (s.behind (first s.line c cs)) := by
  have hx : extent c cs = _ := extent_paired hp
  unfold addPaired? accept?
  rw [peek?_eq, ahead_move_one h]
  by_cases hh : cs.head? = some '='
  · rw [if_pos hh] at hx ⊢
    rw [move_move]
    exact addToken?_symbol h hs hx (spelled_iff.1 (.double hp)).1
  · rw [if_neg hh] at hx ⊢
    exact addToken?_symbol h hs hx (spelled_iff.1 (.single hp)).1

theorem slash?_eq (hc : c = '/') : (s.move 1).slash? = some (s.behind (first s.line c cs)) := by
  subst hc
  have hx : extent '/' cs = _ := extent_slash
  have hrest := ahead_move_one h
  unfold slash? accept?
  rw [peek?_eq, hrest]
  by_cases hh : cs.head? = some '/'
  · rw [if_pos hh] at hx ⊢
    obtain ⟨rest, rfl⟩ := List.head?_eq_some_iff.1 hh
    have hbody : ('/' :: rest).takeWhile (· ≠ '\n') = '/' :: rest.takeWhile (· ≠ '\n') :=
      List.takeWhile_cons_of_pos (by decide)
    have hf : first s.line '/' ('/' :: rest) =
        ⟨.comment, '/' :: '/' :: rest.takeWhile (· ≠ '\n'), s.line⟩ := by
      rw [first, hx, ← hbody, take_takeWhile]
    have hfeed : '\n' ∉ '/' :: '/' :: rest.takeWhile (· ≠ '\n') := by
      simpa using not_mem_takeWhile '\n' rest
    dsimp only
    rw [hf, behind_of_none rfl rfl, ← move_length hfeed, skipWhile_move_one hrest, move_move,
      Nat.add_comm 1]
    rfl
  · rw [if_neg hh] at hx ⊢
    exact addToken?_symbol h hs hx (by decide)

/-- What is cut out of a number can be read, so that no number is made of it that is none. -/
theorem number?_eq (hc : c.isDigit) :
    (s.move 1).number? = some (s.behind (first s.line c cs)) := by
  have hx : extent c cs = _ := extent_digit (isDigit_iff.1 hc)
  have hcls : (extent c cs).1 = .lexeme .number := by rw [hx]
  have hmove : ((s.move 1).skipWhile Char.isDigit).skipFraction =
      s.move (first s.line c cs).text.length := by
    rw [length_text_first, hx, skipWhile_move_one h, skipFraction_eq, move_move, ahead_move, h,
      List.drop_succ_cons, Nat.add_right_comm]
  obtain ⟨-, hm⟩ := means_first hcls s.line
  obtain ⟨-, x, hx', hvalue⟩ := hm.exists_number
  have hread : Binary64.ofText? (first s.line c cs).lexeme = some x := hx'
  have hadd := addToken?_past h hs hcls
  rw [hvalue] at hadd
  unfold number?
  dsimp only
  rw [hmove, move_length (lineFeed_not_mem_first hcls nofun s.line), lexeme?_past h hs,
    Option.bind_some, hread, Option.getD_some, hadd]

theorem word?_eq (hc : isWordStart c) :
    (s.move 1).word? = some (s.behind (first s.line c cs)) := by
  have hx : extent c cs = _ := extent_letter (isWordStart_iff.1 hc)
  have hlex : (s.move ((cs.takeWhile isWordPart).length + 1)).lexeme? =
      some (String.ofList (c :: cs.takeWhile isWordPart)) := by
    have happend : s.ahead = c :: cs.takeWhile isWordPart ++ cs.dropWhile isWordPart := by
      rw [h, List.cons_append, List.takeWhile_append_dropWhile]
    exact lexeme?_move happend hs (List.cons_ne_nil _ _)
  unfold word?
  dsimp only
  rw [skipWhile_move_one h, hlex, Option.bind_some]
  cases hw : TokenKind.keyword? (String.ofList (c :: cs.takeWhile isWordPart)) with
  | none =>
    rw [hw] at hx
    exact addToken?_move h hs hx nofun rfl
  | some k =>
    have hk := (TokenKind.keyword?_eq_some_iff.1 hw).1
    rw [hw] at hx
    have hv := literal?_spelled (.inr hk) (first s.line c cs)
    exact addToken?_move h hs hx (TokenKind.ne_of_spelled (.inr hk)).1 hv

end

/-- A quote without another one behind it opens a string that reaches to the end. -/
theorem string?_open {inside : List Char} (h : s.ahead = '"' :: inside) (hq : '"' ∉ inside) :
    (s.move 1).string? = some (s.behind (first s.line '"' inside)) := by
  have hself : inside.takeWhile (· ≠ '"') = inside :=
    List.takeWhile_eq_self_iff.2 (ne_of_not_mem hq)
  have hend : (s.past ('"' :: inside)).atEnd := by simp [atEnd_iff, h]
  have hf : first s.line '"' inside = ⟨.openString, '"' :: inside, s.line⟩ := by
    rw [first, extent_open hq, List.take_length]
  unfold string?
  dsimp only
  rw [skipInside_move_one h, hself, if_pos hend, hf, behind_of_report rfl rfl]
  rfl

/-- The next quote closes the string, even if it is the next character or the last one. -/
theorem string?_closed {inside rest : List Char} (h : s.ahead = '"' :: (inside ++ '"' :: rest))
    (hs : s.start = s.position) (hq : '"' ∉ inside) :
    (s.move 1).string? = some (s.behind (first s.line '"' (inside ++ '"' :: rest))) := by
  have hquote : (s.past ('"' :: inside)).ahead = '"' :: rest := by simp [h]
  have hnot : ¬ (s.past ('"' :: inside)).atEnd := by simp [atEnd_iff, h]
  have hclosed : (s.past ('"' :: inside)).advance = s.past ('"' :: inside ++ ['"']) := by
    have hfeed : '\n' ∉ ['"'] := by decide
    rw [advance_of_cons hquote]
    exact (move_length hfeed).trans (past_past ..)
  have hslice : (s.past ('"' :: inside ++ ['"'])).slice? (s.start + 1)
      (s.position + ('"' :: inside ++ ['"']).length - 1) = some (String.ofList inside) := by
    have happend : s.ahead = '"' :: inside ++ ['"'] ++ rest := by simp [h]
    exact slice?_inside happend hs
  have hf : first s.line '"' (inside ++ '"' :: rest) =
      ⟨.lexeme .string, '"' :: inside ++ ['"'], s.line⟩ := by
    rw [first, extent_closed hq, List.take_length_add_append]
    rfl
  have hcls : (extent '"' (inside ++ '"' :: rest)).1 = .lexeme .string := congrArg Segment.cls hf
  have hvalue : (first s.line '"' (inside ++ '"' :: rest)).literal? .string =
      some (.string (String.ofList inside)) := by
    rw [hf]
    simp [literal?]
  have hadd := addToken?_past h hs hcls
  rw [hvalue, hf] at hadd
  unfold string?
  dsimp only
  rw [skipInside_move_one h, takeWhile_inside rest hq, if_neg hnot, hclosed, hf, ← hadd]
  exact congrArg (Option.bind · _) hslice

theorem string?_eq {c : Char} {cs : List Char} (h : s.ahead = c :: cs) (hs : s.start = s.position)
    (hc : c = '"') : (s.move 1).string? = some (s.behind (first s.line c cs)) := by
  subst hc
  by_cases hq : '"' ∈ cs
  · obtain ⟨inside, rest, rfl, hinside⟩ := List.eq_append_cons_of_mem hq
    exact string?_closed h hs hinside
  · exact string?_open h hq

theorem blank_eq {c : Char} {cs : List Char} (hc : isBlank c) :
    (s.move 1).countLine c = s.behind (first s.line c cs) := by
  have hx : extent c cs = _ := extent_whitespace (isBlank_iff.1 hc)
  rw [countLine_move_one, first, hx, behind_of_none rfl rfl]
  rfl

theorem stray_eq {c : Char} {cs : List Char} (hx : extent c cs = (.stray, 0)) (hc : c ≠ '\n') :
    (s.move 1).report (.lexical s.line "Unexpected character.") =
      s.behind (first s.line c cs) := by
  have hfeed : '\n' ∉ [c] := fun hmem => hc (List.mem_singleton.1 hmem).symm
  have hf : first s.line c cs = ⟨.stray, [c], s.line⟩ := by
    rw [first, hx]
    rfl
  rw [hf, behind_of_report rfl rfl, ← move_length hfeed]
  rfl

/-- A call inside of the source gives the cursor behind the segment that starts there. -/
theorem scanToken?_eq {c : Char} {cs : List Char} (h : s.ahead = c :: cs)
    (hs : s.start = s.position) : s.scanToken? = some (s.behind (first s.line c cs)) := by
  have hpeek : s.peek? = some c := by rw [peek?_eq, h, List.head?_cons]
  unfold scanToken?
  rw [hpeek]
  dsimp only
  rw [advance_of_cons h]
  cases hsym : symbol? c with
  | some k => exact addToken?_symbol h hs (extent_symbol hsym) (spelled_iff.1 (.alone hsym)).1
  | none =>
    cases hpair : paired? c with
    | some kinds => exact addPaired?_eq h hs hpair
    | none =>
      -- the other tests in their order: what passes none of them is a stray character
      dsimp only
      by_cases hslash : c = '/'
      · rw [if_pos hslash, slash?_eq h hs hslash]
      rw [if_neg hslash]
      by_cases hblank : isBlank c
      · rw [if_pos hblank, blank_eq hblank]
      rw [if_neg hblank]
      by_cases hquote : c = '"'
      · rw [if_pos hquote, string?_eq h hs hquote]
      rw [if_neg hquote]
      by_cases hdigit : c.isDigit
      · rw [if_pos hdigit, number?_eq h hs hdigit]
      rw [if_neg hdigit]
      by_cases hword : isWordStart c
      · rw [if_pos hword, word?_eq h hs hword]
      rw [if_neg hword]
      have hx : extent c cs = (.stray, 0) := by
        simp [extent, hsym, hpair, hslash, hblank, hquote, hdigit, hword]
      exact congrArg some (stray_eq hx fun hfeed => hblank (by rw [hfeed]; rfl))

/-- A string without a character in it, at the end of the source. -/
example : (ofSource "\"\"").scanToken?.map (fun s => (s.position, s.tokens.map Token.literal)) =
    some (2, [some (.string "")]) := by
  cbv

/-! ## What a call keeps to -/

/-- The call adds the token `t`, whose lexeme it has cut out of the source. The places between the
quotes of a string are in order, even if nothing stands there, and its value is what has been cut
out there. A number is digits, with a point and digits behind them or without, and its value is what
it is read as. -/
structure Call.Adds (call : Call) (t : Token) : Prop where
  tokens : call.after.tokens = call.before.tokens ++ [t]
  lexeme : call.after.lexeme? = some t.lexeme
  string : t.kind = .string → call.after.start + 1 ≤ call.after.position - 1 ∧
    ∃ inside, call.after.slice? (call.after.start + 1) (call.after.position - 1) = some inside ∧
      t.literal = some (.string inside)
  number : t.kind = .number → Described .number t.lexeme.toList [] ∧
    ∃ x, Binary64.ofText? t.lexeme = some x ∧ t.literal = some (.number x)

/-- The call starts inside of the source `input`, gets further and stays in range. -/
structure Call.InRange (input : Array Char) (call : Call) : Prop where
  input_eq : call.before.input = input ∧ call.after.input = input
  start_before : call.before.start = call.before.position
  position_before : call.before.position < input.size
  start_after : call.after.start = call.before.start
  start_lt_position : call.after.start < call.after.position
  position_after : call.after.position ≤ input.size
  lexeme : call.after.lexeme?.isSome
  line_le : call.before.line ≤ call.after.line
  tokens : call.after.tokens = call.before.tokens ∨ ∃ t, call.Adds t

section
variable {c : Char} {cs : List Char} {k : TokenKind} (h : s.ahead = c :: cs)
  (hs : s.start = s.position)
include h hs

theorem adds_first (hx : (extent c cs).1 = .lexeme k) :
    ∃ t, Call.Adds ⟨s, s.behind (first s.line c cs)⟩ t := by
  obtain ⟨hd, hm⟩ := means_first hx s.line
  refine ⟨⟨k, (first s.line c cs).lexeme, (first s.line c cs).literal? k,
    (first s.line c cs).endLine⟩, ?_, ?_, ?_, ?_⟩
  · show s.tokens ++ (first s.line c cs).token?.toList = _
    rw [token?_first hx]
    rfl
  · exact lexeme?_past h hs s.line
  · rintro rfl
    obtain ⟨inside, htext, hvalue⟩ := hm.exists_inside
    have happend : s.ahead = '"' :: inside ++ ['"'] ++ afterFirst c cs := by
      rw [ahead_eq_first h s.line, ← htext]
      rfl
    have hslice := slice?_inside happend hs
    rw [← htext] at hslice
    exact ⟨le_of_slice?_eq_some hslice, _, hslice, hvalue⟩
  · rintro rfl
    obtain ⟨hcls, hread⟩ := hm.exists_number
    rw [hcls] at hd
    refine ⟨?_, hread⟩
    rw [Segment.lexeme, String.toList_ofList]
    exact hd.of_isLexeme rfl []

/-- Each call stays in range. -/
theorem inRange_first : Call.InRange s.input ⟨s, s.behind (first s.line c cs)⟩ where
  input_eq := ⟨rfl, rfl⟩
  start_before := hs
  position_before := by
    have happend : s.ahead = [c] ++ cs := h
    exact position_add_le happend (List.cons_ne_nil _ _)
  start_after := rfl
  start_lt_position := by
    show s.start < s.position + (first s.line c cs).text.length
    rw [hs, length_text_first]
    omega
  position_after := position_add_le (ahead_eq_first h s.line) (List.cons_ne_nil _ _)
  lexeme := Option.isSome_of_eq_some (lexeme?_past h hs s.line)
  line_le := Nat.le_add_right ..
  tokens := by
    cases hx : (extent c cs).1 with
    | lexeme k => exact .inr (adds_first h hs hx)
    | blank | comment | openString | stray =>
      have ht : (first s.line c cs).token? = none := by simp [token?, first, hx]
      left
      show s.tokens ++ (first s.line c cs).token?.toList = s.tokens
      rw [ht, Option.toList_none, List.append_nil]

end

/-! ## All calls -/

theorem Scans.deterministic {calls calls' : List Call} {last last' : Cursor}
    (h : Scans s calls last) (h' : Scans s calls' last') : calls' = calls ∧ last' = last := by
  induction h generalizing calls' with
  | done hend =>
    cases h' with
    | done => exact ⟨rfl, rfl⟩
    | call hnot => exact absurd hend hnot
  | call hnot hcall _ ih =>
    cases h' with
    | done hend => exact absurd hend hnot
    | call _ hcall' hrun =>
      obtain rfl := Option.some.inj (hcall.symm.trans hcall')
      obtain ⟨rfl, rfl⟩ := ih hrun
      exact ⟨rfl, rfl⟩

/-- From every place of a source the calls come to its end, and give its segments. -/
theorem exists_scans (s : Cursor) : ∃ calls last, Scans s calls last ∧
    calls.length ≤ s.ahead.length ∧ (∀ call ∈ calls, call.InRange s.input) ∧
    last.finish = ⟨s.tokens ++ (segments s.line s.ahead).filterMap token? ++
      [Token.eof (s.line + s.ahead.count '\n')],
      s.diagnostics ++ (segments s.line s.ahead).filterMap diagnostic?⟩ := by
  match h : s.ahead with
  | [] => exact ⟨[], s, .done (atEnd_iff.2 h), Nat.le_refl 0, nofun, by simp [finish]⟩
  | c :: cs =>
    -- a mark moves nothing, so the call starts with the same text ahead
    have hmark : s.mark.ahead = c :: cs := h
    have hnot : ¬ s.atEnd := by simp [atEnd_iff, h]
    have hrest := ahead_behind hmark s.line
    have hlen := length_afterFirst_le c cs
    obtain ⟨calls, last, hrun, hle, hin, hlast⟩ := exists_scans (s.mark.behind (first s.line c cs))
    have hline : (s.mark.behind (first s.line c cs)).line = (first s.line c cs).endLine := rfl
    rw [hrest] at hle hlast
    refine ⟨_, last, .call hnot (scanToken?_eq hmark rfl) hrun, ?_, ?_, ?_⟩
    · rw [List.length_cons, List.length_cons]
      omega
    · exact List.forall_mem_cons.2 ⟨inRange_first hmark rfl, hin⟩
    · rw [hlast, segments_cons, filterMap_cons_toList, filterMap_cons_toList, hline,
        endLine_first_add_count, ← List.append_assoc, ← List.append_assoc s.diagnostics]
      rfl
termination_by s.ahead.length
decreasing_by
  rw [hrest, h]
  exact Nat.lt_succ_of_le hlen

/-- Scanning a source with a cursor always ends, and in one way only: after at most as many calls as
there are characters, all of them in range, with the tokens and the diagnostics of the source. -/
theorem scans_in_range (source : String) : ∃ calls last, Scans (ofSource source) calls last ∧
    (∀ calls' last', Scans (ofSource source) calls' last' → calls' = calls ∧ last' = last) ∧
    calls.length ≤ source.length ∧ (∀ call ∈ calls, call.InRange source.toList.toArray) ∧
    last.finish = scan source := by
  obtain ⟨calls, last, hrun, hlen, hin, hlast⟩ := exists_scans (ofSource source)
  refine ⟨calls, last, hrun, fun _ _ => hrun.deterministic, ?_, hin, hlast.trans ?_⟩
  · rw [← String.length_toList]
    exact hlen
  · simp [ofSource, ahead, scan]

end Cursor

end ExprSyntax
