import ExprSyntax.Proofs.Grammar.Derivation
import ExprSyntax.Proofs.Parser.CallStack

/-!
# Parsing on a stack of limited size

`readBy` is the body of each method with its calls left open, and `readOnStack` makes these calls on
a stack that takes one activation less. It gives what the method reads if no chain of calls is
longer than the stack, and gives up if one is (`givesIff_readOnStack`). So a stack that is as high
as the bound on nesting asks for is not felt (`stackFits_parse`).
-/

namespace ExprSyntax

/-- `o` is `x` if `P` holds, and nothing otherwise. -/
def GivesIff {α : Type} (o : Option α) (x : α) (P : Prop) : Prop :=
  P ∧ o = some x ∨ ¬ P ∧ o = none

namespace GivesIff

variable {α β : Type} {o : Option α} {x : α} {P Q : Prop}

theorem congr (h : GivesIff o x P) (hPQ : P ↔ Q) : GivesIff o x Q := by
  rwa [GivesIff, ← hPQ]

theorem eq_some_iff (h : GivesIff o x P) {y : α} : o = some y ↔ y = x ∧ P := by
  rcases h with ⟨hp, rfl⟩ | ⟨hp, rfl⟩ <;> simp [hp, eq_comm]

theorem isSome_iff (h : GivesIff o x P) : o.isSome ↔ P := by
  rcases h with ⟨hp, rfl⟩ | ⟨hp, rfl⟩ <;> simp [hp]

theorem map (h : GivesIff o x P) (f : α → β) : GivesIff (o.map f) (f x) P := by
  rcases h with ⟨hp, rfl⟩ | ⟨hp, rfl⟩
  · exact .inl ⟨hp, rfl⟩
  · exact .inr ⟨hp, rfl⟩

theorem bind (h : GivesIff o x P) {f : α → Option β} {y : β} (hf : GivesIff (f x) y Q) :
    GivesIff (o.bind f) y (P ∧ Q) := by
  rcases h with ⟨hp, rfl⟩ | ⟨hp, rfl⟩
  · exact hf.congr (and_iff_right hp).symm
  · exact .inr ⟨fun hpq => hp hpq.1, rfl⟩

end GivesIff

/-! ## Methods with their calls left open -/

namespace Reading

variable {p : Parser}

/-- What is read behind a token that has been taken. -/
def behindTaken {q : Parser} {kinds : List TokenKind} (h : p.accept? kinds = some q)
    (r : Reading q) : Reading p :=
  .behind (Parser.forward_accept h) r

/-- Goes on from a tree, if that can be done; an error ends the reading. -/
def andThen? (r : Reading p) (next : Expr → (q : Parser) → p.Forward q → Option (Reading q)) :
    Option (Reading p) :=
  match r.result with
  | .ok tree => (next tree r.after r.forward).map (.behind r.forward)
  | .error _ => some r

theorem andThen?_of_ok {r : Reading p} {e : Expr} (h : r.result = .ok e)
    (next : Expr → (q : Parser) → p.Forward q → Option (Reading q)) :
    r.andThen? next = (next e r.after r.forward).map (.behind r.forward) := by
  simp [andThen?, h]

theorem andThen?_of_error {r : Reading p} {e : SyntaxError} (h : r.result = .error e)
    (next : Expr → (q : Parser) → p.Forward q → Option (Reading q)) :
    r.andThen? next = some r := by
  simp [andThen?, h]

theorem givesIff_andThen? {r : Reading p}
    {next? : Expr → (q : Parser) → p.Forward q → Option (Reading q)}
    {next : Expr → (q : Parser) → p.Forward q → Reading q} {Q : Prop}
    (h : ∀ e, r.result = .ok e →
      GivesIff (next? e r.after r.forward) (next e r.after r.forward) Q) :
    GivesIff (r.andThen? next?) (r.andThen next) (∀ e, r.result = .ok e → Q) := by
  cases hr : r.result with
  | ok e =>
    rw [andThen?_of_ok hr, andThen_of_ok hr]
    exact ((h e hr).map _).congr ⟨fun hq _ _ => hq, fun hq => hq e rfl⟩
  | error e =>
    rw [andThen?_of_error hr, andThen_of_error hr]
    exact .inl ⟨nofun, rfl⟩

end Reading

namespace Parser

/-- What is inside of a group or behind a sign, if it can be read. -/
def nested? (p : Parser) (inside : (q : Parser) → Option (Reading q)) : Option (Reading p) :=
  match h : p.enter with
  | .ok q => (inside q).map fun r => ⟨r.result, r.after.leave, forward_leave h r.forward⟩
  | .error error => some (.fail p error)

/-- The loop of a level, with the operands read by `operand`. -/
def chainBy (operand : (q : Parser) → Option (Reading q)) (l : Precedence) (left : Expr)
    (p : Parser) : Option (Reading p) :=
  match h : p.accept? l.operators with
  | some q =>
    (operand q).bind fun right =>
      (right.andThen? fun e r _ => chainBy operand l (.binary left q.previous e) r).map
        (.behindTaken h)
  | none => some (.done p left)
termination_by p.remaining
decreasing_by
  have := remaining_accept_lt h
  have := Forward.remaining_le ‹_›
  omega

/-- The body of a method, with the calls that it makes left to `call`. -/
def readBy (call : Method → (q : Parser) → Option (Reading q)) :
    Method → (p : Parser) → Option (Reading p)
  | .expression, p => call (.phrase .expression) p
  | .phrase (.binary l), p =>
    (call (.phrase l.operand) p).bind fun r =>
      r.andThen? fun left q _ => chainBy (call (.phrase l.operand)) l left q
  | .phrase .unary, p =>
    match h : p.accept? TokenKind.signs with
    | some q =>
      (q.nested? (call (.phrase .unary))).map fun r =>
        .behindTaken h (r.map (.unary q.previous))
    | none => call (.phrase .primary) p
  | .phrase .primary, p =>
    match h : p.accept? [.leftParen] with
    | some q =>
      (q.nested? (call .expression)).map fun r =>
        .behindTaken h (r.andThen fun e q _ => closeGroup e q)
    | none => some (readLeaf p)

/-- Reads with a stack of `size` activations, and gives up if that is not enough. -/
def readOnStack : (size : Nat) → Method → (p : Parser) → Option (Reading p)
  | 0, _, _ => none
  | size + 1, m, p => readBy (readOnStack size) m p

/-! ## What the bodies give -/

/-- Two bodies that look at the current token alike. -/
theorem givesIff_accept? {p : Parser} {kinds : List TokenKind} {P : Prop}
    {take? : (q : Parser) → p.accept? kinds = some q → Option (Reading p)}
    {take : (q : Parser) → p.accept? kinds = some q → Reading p}
    {leave? : p.accept? kinds = none → Option (Reading p)}
    {leave : p.accept? kinds = none → Reading p}
    (htake : ∀ q hq, GivesIff (take? q hq) (take q hq) P)
    (hleave : ∀ hn, GivesIff (leave? hn) (leave hn) P) :
    GivesIff
      (match h : p.accept? kinds with
        | some q => take? q h
        | none => leave? h)
      (match h : p.accept? kinds with
        | some q => take q h
        | none => leave h) P := by
  split
  · exact htake _ _
  · exact hleave _

/-- Two bodies that open a nesting level alike. -/
theorem givesIff_enter {p : Parser} {P : Prop}
    {inside? : (q : Parser) → p.enter = .ok q → Option (Reading p)}
    {inside : (q : Parser) → p.enter = .ok q → Reading p}
    {deep? : (e : SyntaxError) → p.enter = .error e → Option (Reading p)}
    {deep : (e : SyntaxError) → p.enter = .error e → Reading p}
    (hinside : ∀ q hq, GivesIff (inside? q hq) (inside q hq) P)
    (hdeep : ∀ e he, GivesIff (deep? e he) (deep e he) P) :
    GivesIff
      (match h : p.enter with
        | .ok q => inside? q h
        | .error e => deep? e h)
      (match h : p.enter with
        | .ok q => inside q h
        | .error e => deep e h) P := by
  split
  · exact hinside _ _
  · exact hdeep _ _

theorem givesIff_nested? {p : Parser} {m : Method} {inside : (q : Parser) → Option (Reading q)}
    (h : ∀ q, GivesIff (inside q) (m.read q) (inside q).isSome) :
    GivesIff (p.nested? inside) (p.nested fun q _ => m.read q)
      (∀ q, p.enter = .ok q → (inside q).isSome) := by
  unfold nested? nested
  refine givesIff_enter (fun q hq => ?_) fun e he => ?_
  · refine ((h q).map _).congr ⟨fun hi r hr => ?_, fun hi => hi q hq⟩
    rwa [← Except.ok.inj (hq.symm.trans hr)]
  · refine .inl ⟨fun q hq => ?_, rfl⟩
    cases he.symm.trans hq

/-- All operands that the loop of a level gets to from `p` on can be read. -/
def OperandsFit (call : Method → (q : Parser) → Option (Reading q)) (l : Precedence)
    (p : Parser) : Prop :=
  ∀ q r, Turns l p q → q.accept? l.operators = some r → (call (.phrase l.operand) r).isSome

section
variable {call : Method → (q : Parser) → Option (Reading q)}
  (hcall : ∀ m q, GivesIff (call m q) (m.read q) (call m q).isSome)
include hcall

theorem givesIff_chainBy (l : Precedence) (left : Expr) (p : Parser) :
    GivesIff (chainBy (call (.phrase l.operand)) l left p) (p.readChain l left)
      (OperandsFit call l p) := by
  rw [chainBy, readChain]
  refine givesIff_accept? (fun q hq => ?_) fun hn => ?_
  · have hlt := remaining_accept_lt hq
    have hle := (q.read l.operand).forward.remaining_le
    have hrest : GivesIff
        ((q.read l.operand).andThen? fun e r _ =>
          chainBy (call (.phrase l.operand)) l (.binary left q.previous e) r)
        ((q.read l.operand).andThen fun e r _ => readChain l (.binary left q.previous e) r)
        (∀ e, (q.read l.operand).result = .ok e →
          OperandsFit call l (q.read l.operand).after) :=
      Reading.givesIff_andThen? fun e _ => givesIff_chainBy l _ _
    refine ((hcall (.phrase l.operand) q).bind (hrest.map _)).congr ⟨?_, fun h => ⟨?_, ?_⟩⟩
    · rintro ⟨hoperand, hrest⟩ r s ht hs
      cases ht with
      | refl => rwa [← Option.some.inj (hq.symm.trans hs)]
      | turn hr hread ht =>
        obtain rfl := Option.some.inj (hq.symm.trans hr)
        exact hrest _ hread _ _ ht hs
    · exact h p q .refl hq
    · exact fun e he r s ht => h r s (.turn hq he ht)
  · refine .inl ⟨fun q r ht hr => ?_, rfl⟩
    cases ht with
    | refl => cases hn.symm.trans hr
    | turn hq => cases hn.symm.trans hq
termination_by p.remaining

/-- The body of a method gives what the method reads if all its calls can be read. -/
theorem givesIff_readBy (m : Method) (p : Parser) :
    GivesIff (readBy call m p) (m.read p)
      (∀ b, Calls ⟨m, p⟩ b → (call b.method b.parser).isSome) := by
  cases m with
  | expression =>
    refine (hcall (.phrase .expression) p).congr ⟨?_, fun h => h _ .equality⟩
    rintro h _ ⟨⟩
    exact h
  | phrase n =>
    cases n with
    | binary l =>
      have hchain : GivesIff
          ((p.read l.operand).andThen? fun left q _ =>
            chainBy (call (.phrase l.operand)) l left q)
          ((p.read l.operand).andThen fun left q _ => readChain l left q)
          (∀ left, (p.read l.operand).result = .ok left →
            OperandsFit call l (p.read l.operand).after) :=
        Reading.givesIff_andThen? fun left _ => givesIff_chainBy hcall l left _
      rw [Method.read, read, readBy]
      refine ((hcall (.phrase l.operand) p).bind hchain).congr ⟨?_, fun h => ⟨h _ .operand, ?_⟩⟩
      · rintro ⟨hoperand, hrest⟩ _ (_ | _ | ⟨hleft, ht, hr⟩)
        · exact hoperand
        · exact hrest _ hleft _ _ ht hr
      · exact fun left hleft q r ht hr => h _ (.rightOperand hleft ht hr)
    | unary =>
      rw [Method.read, read, readBy]
      refine givesIff_accept? (fun q hq => ?_) fun hn => ?_
      · have hin := givesIff_nested? (p := q) (m := .phrase .unary) (hcall (.phrase .unary))
        refine (hin.map _).congr ⟨?_, fun h r hr => h _ (.sign hq hr)⟩
        rintro h _ (_ | _ | _ | ⟨hq', hr⟩ | hn)
        · obtain rfl := Option.some.inj (hq.symm.trans hq')
          exact h _ hr
        · cases hq.symm.trans hn
      · refine (hcall (.phrase .primary) p).congr ⟨?_, fun h => h _ (.unsigned hn)⟩
        rintro h _ (_ | _ | _ | ⟨hq, hr⟩ | _)
        · cases hn.symm.trans hq
        · exact h
    | primary =>
      rw [Method.read, read, readBy]
      refine givesIff_accept? (fun q hq => ?_) fun hn => ?_
      · have hin := givesIff_nested? (p := q) (m := .expression) (hcall .expression)
        refine (hin.map _).congr ⟨?_, fun h r hr => h _ (.group hq hr)⟩
        rintro h _ (_ | _ | _ | _ | _ | ⟨hq', hr⟩)
        obtain rfl := Option.some.inj (hq.symm.trans hq')
        exact h _ hr
      · refine .inl ⟨?_, rfl⟩
        rintro _ (_ | _ | _ | _ | _ | ⟨hq, hr⟩)
        cases hn.symm.trans hq

end

/-! ## A stack of limited size -/

theorem givesIff_readOnStack (size : Nat) (m : Method) (p : Parser) :
    GivesIff (readOnStack size m p) (m.read p) (StackFits size ⟨m, p⟩) := by
  induction size generalizing m p with
  | zero => exact .inr ⟨not_stackFits_zero _, rfl⟩
  | succ size ih =>
    have hcall : ∀ m q,
        GivesIff (readOnStack size m q) (m.read q) (readOnStack size m q).isSome :=
      fun m q => (ih m q).congr (ih m q).isSome_iff.symm
    refine (givesIff_readBy hcall m p).congr ?_
    rw [stackFits_succ_iff]
    exact forall₂_congr fun b _ => (ih b.method b.parser).isSome_iff

/-- Reads one expression on a stack of `size` activations, and gives up if that is not enough. -/
def parseOnStack (size : Nat) (p : Parser) : Option (Except Diagnostic Expr × Parser) :=
  (readOnStack size .expression p).map fun r =>
    (r.result.mapError SyntaxError.diagnostic, r.after)

theorem givesIff_parseOnStack (size : Nat) (p : Parser) :
    GivesIff (parseOnStack size p) p.parse (StackFits size ⟨.expression, p⟩) :=
  (givesIff_readOnStack size .expression p).map _

/-! ## Parsing -/

/-- Tokens of one kind and line are closed on that line. -/
theorem closeList_replicate {t : Token} (ht : t.kind ≠ .eof) (hline : t.line = 1) (n : Nat) :
    Token.closeList (List.replicate n t) = List.replicate n t ++ [Token.eof 1] := by
  cases n with
  | zero => rfl
  | succ n => simp [Token.closeList, List.getLast?_replicate, ht, hline]

/-- An expression that is read takes a token. -/
theorem position_lt_of_read {p : Parser} {e : Expr} (h : (p.read .expression).result = .ok e) :
    p.position < (p.read .expression).after.position := by
  have hr := reads_read .expression p
  rw [Reading.outcome_of_ok h] at hr
  obtain ⟨read, hread, he, -⟩ := hr.derives
  have hpos := (p.read .expression).forward.position_eq hread
  have := List.length_pos_iff.2 (Task.derives_phrase.1 he).ne_nil
  omega

/-- Whatever the tokens are, a parse within the bound `m` has at most `7 * (m + 1)` methods active
at once, which `m` groups reach: on a stack of this size it ends as it does without a limit, and a
smaller one is enough exactly if no more calls are active. Every parse ends, and an expression that
is read takes a token. -/
theorem stackFits_parse (tokens : List Token) (m : Nat) :
    let p := ofTokens tokens m
    StackFits (7 * (m + 1)) ⟨.expression, p⟩ ∧
      parseOnStack (7 * (m + 1)) p = some p.parse ∧
      (∀ size, (parseOnStack size p).isSome ↔ StackFits size ⟨.expression, p⟩) ∧
      (∃ o, Reads m (.phrase .expression) (Token.closeList tokens) o ∧ p.parse.1 = o.result ∧
        p.parse.2.ahead = o.rest) ∧
      (∀ (q : Parser) (e : Expr), (q.read .expression).result = .ok e →
        q.position < (q.read .expression).after.position) ∧
      ∃ stack, (⟨.expression, ofTokens (List.replicate m ⟨.leftParen, "(", none, 1⟩) m⟩ ::
        stack).IsChain Calls ∧ stack.length + 1 = 7 * (m + 1) := by
  intro p
  have hallow : p.allowance = m := rfl
  have hfits : StackFits (7 * (m + 1)) ⟨.expression, p⟩ := hallow ▸ stackFits_expression p
  have hreads := reads_read .expression p
  rw [ahead_ofTokens] at hreads
  refine ⟨hfits, (givesIff_parseOnStack _ p).eq_some_iff.2 ⟨rfl, hfits⟩,
    fun size => (givesIff_parseOnStack size p).isSome_iff,
    ⟨_, hreads, parse_fst p, ahead_parse_snd p⟩, fun q e => position_lt_of_read, ?_⟩
  have hend : (Token.eof 1).kind ∉ TokenKind.signs := by decide
  have hgroups : (ofTokens (List.replicate m ⟨.leftParen, "(", none, 1⟩) m).ahead =
      List.replicate m ⟨.leftParen, "(", none, 1⟩ ++ [Token.eof 1] := by
    rw [ahead_ofTokens, closeList_replicate (by decide) rfl]
  exact exists_chain_of_groups rfl hend m hgroups rfl

end Parser

end ExprSyntax
