import ExprSyntax.Proofs.Parser.Reading

/-!
# The calls that are active at once

Every phrase is read by a method of its own, which calls others for the phrases inside. `Calls a b`:
while `a` is active it calls `b`, at the head of its phrase, in a turn of its loop, or one nesting
level further in. The calls that are active at one moment are a chain of `Calls`, and a chain
descends in `Activation.height`: a nesting level is worth all seven methods, so the length of the
input does not matter (`Calls.height_lt`, `stackFits_expression`). As many groups as the bound
allows reach this height (`exists_chain_of_groups`).
-/

namespace ExprSyntax

namespace Parser

/-- The methods of the grammar: one for each nonterminal, and one for an expression, which is left
to the one for an equality. -/
inductive Method where
  | expression
  | phrase (n : Nonterminal)
deriving DecidableEq

def Method.read : Method → (p : Parser) → Reading p
  | expression, p => p.read .expression
  | phrase n, p => p.read n

/-- A call of a method, with the parser on which it is called. -/
structure Activation where
  method : Method
  parser : Parser

/-- The loop of a level gets from one parser to another: each turn takes an operator and an
operand. -/
inductive Turns (l : Precedence) : Parser → Parser → Prop
  | refl {p} : Turns l p p
  | turn {p q r right} : p.accept? l.operators = some q → (q.read l.operand).result = .ok right →
      Turns l (q.read l.operand).after r → Turns l p r

inductive Calls : Activation → Activation → Prop
  | equality {p} : Calls ⟨.expression, p⟩ ⟨.phrase .expression, p⟩
  | operand {l p} : Calls ⟨.phrase (.binary l), p⟩ ⟨.phrase l.operand, p⟩
  | rightOperand {l p left q r} : (p.read l.operand).result = .ok left →
      Turns l (p.read l.operand).after q → q.accept? l.operators = some r →
      Calls ⟨.phrase (.binary l), p⟩ ⟨.phrase l.operand, r⟩
  | sign {p q r} : p.accept? TokenKind.signs = some q → q.enter = .ok r →
      Calls ⟨.phrase .unary, p⟩ ⟨.phrase .unary, r⟩
  | unsigned {p} : p.accept? TokenKind.signs = none →
      Calls ⟨.phrase .unary, p⟩ ⟨.phrase .primary, p⟩
  | group {p q r} : p.accept? [.leftParen] = some q → q.enter = .ok r →
      Calls ⟨.phrase .primary, p⟩ ⟨.expression, r⟩

/-! ## The height of a stack -/

/-- How many methods can be active from this one on while no nesting level is opened. -/
def Method.height : Method → Nat
  | expression => 7
  | phrase (.binary .equality) => 6
  | phrase (.binary .comparison) => 5
  | phrase (.binary .term) => 4
  | phrase (.binary .factor) => 3
  | phrase .unary => 2
  | phrase .primary => 1

/-- Every nesting level that is still to be opened can add all seven methods. -/
def Activation.height (a : Activation) : Nat :=
  7 * a.parser.allowance + a.method.height

theorem Method.height_operand (l : Precedence) :
    (phrase l.operand).height + 1 = (phrase (.binary l)).height := by
  cases l <;> rfl

theorem Method.height_pos (m : Method) : 0 < m.height := by
  rcases m with _ | (_ | _ | _ | _) | _ | _ <;> decide

theorem Turns.forward {l : Precedence} {p q : Parser} (h : Turns l p q) : Forward p q := by
  induction h with
  | refl => exact .refl _
  | turn hq _ _ ih => exact ((forward_accept hq).trans (Reading.forward _)).trans ih

/-- What is called is called lower. -/
theorem Calls.height_lt {a b : Activation} (h : Calls a b) : b.height < a.height := by
  cases h with
  | equality => exact Nat.lt_succ_self _
  | @operand l p =>
    have := Method.height_operand l
    simp only [Activation.height]
    omega
  | @rightOperand l p _ _ r _ ht hr =>
    have hsame : r.allowance = p.allowance :=
      (((Reading.forward _).trans ht.forward).trans (forward_accept hr)).allowance_eq
    have := Method.height_operand l
    simp only [Activation.height, hsame]
    omega
  | sign hq hr | group hq hr =>
    have hsame := (forward_accept hq).allowance_eq
    have hdown := (of_enter_eq_ok hr).2
    simp only [Activation.height, Method.height]
    omega
  | unsigned => exact Nat.lt_succ_self _

/-- No stack that begins with `a` is higher than `a`. -/
theorem length_le_height {a : Activation} {stack : List Activation}
    (h : (a :: stack).IsChain Calls) : (a :: stack).length ≤ a.height := by
  induction stack generalizing a with
  | nil =>
    have := a.method.height_pos
    simp only [List.length_singleton, Activation.height]
    omega
  | cons b stack ih =>
    obtain ⟨hab, hstack⟩ := List.isChain_cons_cons.1 h
    have hb := ih hstack
    have hlt := hab.height_lt
    simp only [List.length_cons] at hb ⊢
    omega

/-- Every stack that begins with `a` has at most `size` activations. -/
def StackFits (size : Nat) (a : Activation) : Prop :=
  ∀ stack, (a :: stack).IsChain Calls → (a :: stack).length ≤ size

theorem not_stackFits_zero (a : Activation) : ¬ StackFits 0 a := by
  intro h
  exact absurd (h [] (.singleton a)) (by simp)

theorem stackFits_succ_iff {size : Nat} {a : Activation} :
    StackFits (size + 1) a ↔ ∀ b, Calls a b → StackFits size b := by
  constructor
  · intro h b hab stack hstack
    have hlen := h (b :: stack) (List.isChain_cons_cons.2 ⟨hab, hstack⟩)
    exact Nat.le_of_succ_le_succ hlen
  · intro h stack hstack
    cases stack with
    | nil => exact Nat.le_add_left 1 size
    | cons b stack =>
      obtain ⟨hab, hstack⟩ := List.isChain_cons_cons.1 hstack
      exact Nat.succ_le_succ (h b hab stack hstack)

/-- The nesting levels to spare bound the stack. -/
theorem stackFits_expression (p : Parser) :
    StackFits (7 * (p.allowance + 1)) ⟨.expression, p⟩ :=
  fun _ h => length_le_height h

/-! ## Groups need all of it -/

section
variable {p : Parser} {t : Token} {ts : List Token}

theorem current_eq_of_ahead (h : p.ahead = t :: ts) : p.current = t := by
  rw [ahead_eq_cons] at h
  exact (List.cons.inj h).1

theorem accept?_eq_none (h : p.ahead = t :: ts) {kinds : List TokenKind} (hk : t.kind ∉ kinds) :
    p.accept? kinds = none := by
  simp [accept?, looksAt, current_eq_of_ahead h, hk]

theorem accept?_eq_some_advance (h : p.ahead = t :: ts) {kinds : List TokenKind}
    (hk : t.kind ∈ kinds) (he : t.kind ≠ .eof) :
    p.accept? kinds = some p.advance ∧ p.advance.ahead = ts := by
  have hcur := current_eq_of_ahead h
  have hend : ¬ p.atEnd := by simp [atEnd, hcur, he]
  have hahead := ahead_eq_cons_advance hend
  rw [h] at hahead
  exact ⟨by simp [accept?, looksAt, atEnd, hcur, hk, he], (List.cons.inj hahead).2.symm⟩

theorem exists_enter_eq_ok (h : 0 < p.allowance) : ∃ q, p.enter = .ok q := by
  unfold allowance at h
  rw [enter, if_neg (by omega)]
  exact ⟨_, rfl⟩

end

/-- In front of a token that is no sign all seven methods are called, each by the one before. -/
theorem exists_chain_primary {p : Parser} (h : p.accept? TokenKind.signs = none) :
    ∃ calls, calls.length = 6 ∧ ∀ rest, (⟨.phrase .primary, p⟩ :: rest).IsChain Calls →
      (⟨.expression, p⟩ :: (calls ++ rest)).IsChain Calls := by
  refine ⟨[⟨.phrase (.binary .equality), p⟩, ⟨.phrase (.binary .comparison), p⟩,
    ⟨.phrase (.binary .term), p⟩, ⟨.phrase (.binary .factor), p⟩, ⟨.phrase .unary, p⟩,
    ⟨.phrase .primary, p⟩], rfl, fun rest hrest => ?_⟩
  simp only [List.cons_append, List.nil_append, List.isChain_cons_cons]
  exact ⟨.equality, .operand, .operand, .operand, .operand, .unsigned h, hrest⟩

/-- As many groups as can be opened take seven methods each. -/
theorem exists_chain_of_groups {t u : Token} (ht : t.kind = .leftParen)
    (hu : u.kind ∉ TokenKind.signs) (n : Nat) {p : Parser}
    (hp : p.ahead = List.replicate n t ++ [u]) (hn : p.allowance = n) :
    ∃ stack, (⟨.expression, p⟩ :: stack).IsChain Calls ∧ stack.length + 1 = 7 * (n + 1) := by
  have hsign : TokenKind.leftParen ∉ TokenKind.signs := by decide
  induction n generalizing p with
  | zero =>
    obtain ⟨calls, hlen, hcalls⟩ := exists_chain_primary (accept?_eq_none hp hu)
    exact ⟨calls ++ [], hcalls [] (.singleton _), by simp [hlen]⟩
  | succ n ih =>
    rw [List.replicate_succ, List.cons_append] at hp
    have hparen : t.kind ∈ [TokenKind.leftParen] := by simp [ht]
    obtain ⟨hq, hahead⟩ := accept?_eq_some_advance hp hparen (by simp [ht])
    have hallow := (forward_accept hq).allowance_eq
    obtain ⟨r, hr⟩ := exists_enter_eq_ok (p := p.advance) (by omega)
    obtain ⟨hra, hrb⟩ := of_enter_eq_ok hr
    obtain ⟨stack, hstack, hlen'⟩ := ih (p := r) (by rw [hra, hahead]) (by omega)
    obtain ⟨calls, hlen, hcalls⟩ := exists_chain_primary (accept?_eq_none hp (ht ▸ hsign))
    refine ⟨calls ++ ⟨.expression, r⟩ :: stack, hcalls _ ?_, ?_⟩
    · exact List.isChain_cons_cons.2 ⟨.group hq hr, hstack⟩
    · simp only [List.length_append, List.length_cons]
      omega

end Parser

end ExprSyntax
