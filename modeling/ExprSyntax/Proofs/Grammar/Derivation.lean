import ExprSyntax.Proofs.Grammar.Reads

/-!
# Derivations of the expression grammar

`Derives n ts e`: the nonterminal `n` derives the tokens `ts`, and `e` is the tree of the
derivation. What is read of a token list is derived (`Reads.derives`), and what is derived is read,
unless an operator follows that belongs to it (`Derives.reads`).
-/

namespace ExprSyntax

/-- The productions of the grammar, with the tree of each. -/
inductive Derives : Nonterminal → List Token → Expr → Prop
  | operand {l ts e} : Derives l.operand ts e → Derives (.binary l) ts e
  | binary {l ls left op rs right} : Derives (.binary l) ls left → op.kind ∈ l.operators →
      Derives l.operand rs right → Derives (.binary l) (ls ++ op :: rs) (.binary left op right)
  | unary {op ts e} : op.kind = .bang ∨ op.kind = .minus → Derives .unary ts e →
      Derives .unary (op :: ts) (.unary op e)
  | primary {ts e} : Derives .primary ts e → Derives .unary ts e
  | value {t v} : t.kind = .number ∨ t.kind = .string → t.literal = some v →
      Derives .primary [t] (.literal v)
  | kwTrue {t} : t.kind = .kwTrue → Derives .primary [t] (.literal (.bool true))
  | kwFalse {t} : t.kind = .kwFalse → Derives .primary [t] (.literal (.bool false))
  | kwNil {t} : t.kind = .kwNil → Derives .primary [t] (.literal .nil)
  | group {t ts e u} : t.kind = .leftParen → Derives .expression ts e → u.kind = .rightParen →
      Derives .primary (t :: (ts ++ [u])) (.grouping e)

/-- The largest number of groupings and unary operators on a path to a leaf. -/
def Expr.nesting : Expr → Nat
  | literal _ => 0
  | grouping e => e.nesting + 1
  | unary _ e => e.nesting + 1
  | binary l _ r => max l.nesting r.nesting

/-- The kinds of the operators that stand between two operands. -/
def TokenKind.binaryOperators : List TokenKind :=
  [bangEqual, equalEqual, less, lessEqual, greater, greaterEqual, minus, plus, slash, star]

/-! ## Operators that follow -/

/-- The operators of the levels inside of `l`. -/
def Precedence.innerOperators : Precedence → List TokenKind
  | equality => comparison.operators ++ (term.operators ++ factor.operators)
  | comparison => term.operators ++ factor.operators
  | term => factor.operators
  | factor => []

namespace Nonterminal

def innerOperators : Nonterminal → List TokenKind
  | binary l => l.innerOperators
  | unary => []
  | primary => []

/-- The operators that a phrase of `n` takes as far as it can. -/
def takenOperators : Nonterminal → List TokenKind
  | binary l => l.operators ++ l.innerOperators
  | unary => []
  | primary => []

theorem takenOperators_operand (l : Precedence) :
    l.operand.takenOperators = l.innerOperators := by
  cases l <;> rfl

theorem innerOperators_subset (n : Nonterminal) : n.innerOperators ⊆ n.takenOperators := by
  cases n with
  | binary l => exact List.subset_append_right _ _
  | unary | primary => exact List.Subset.refl _

/-- The levels inside of an operand are inside of the level that it is an operand of. -/
theorem innerOperators_operand_subset (l : Precedence) :
    l.operand.innerOperators ⊆ l.innerOperators :=
  takenOperators_operand l ▸ innerOperators_subset l.operand

theorem not_mem_innerOperators {l : Precedence} {k : TokenKind} (h : k ∈ l.operators) :
    k ∉ l.innerOperators := by
  revert h
  cases l <;> cases k <;> decide

theorem mem_takenOperators_expression {k : TokenKind} :
    k ∈ expression.takenOperators ↔ k ∈ TokenKind.binaryOperators := by
  cases k <;> decide

end Nonterminal

/-! ## What is read is derived -/

/-- What a task reads, as productions: a chain makes a longer phrase of one for its left operand. -/
def Task.Derives : Task → List Token → Expr → Prop
  | phrase n, ts, e => ExprSyntax.Derives n ts e
  | chain l left, ts, e =>
    ∀ ls, ExprSyntax.Derives (.binary l) ls left → ExprSyntax.Derives (.binary l) (ls ++ ts) e

@[simp] theorem Task.derives_phrase {n : Nonterminal} {ts : List Token} {e : Expr} :
    (phrase n).Derives ts e ↔ ExprSyntax.Derives n ts e := Iff.rfl

/-- The nesting of what has been read. -/
def Task.nesting : Task → Nat
  | phrase _ => 0
  | chain _ left => left.nesting

theorem derives_of_constant? {t : Token} {v : Literal} (h : t.kind.constant? = some v) :
    Derives .primary [t] (.literal v) := by
  unfold TokenKind.constant? at h
  split at h
  · cases h; exact .kwFalse ‹_›
  · cases h; exact .kwTrue ‹_›
  · cases h; exact .kwNil ‹_›
  · cases h

theorem Reads.derives {b : Nat} {task : Task} {ts rest : List Token} {e : Expr}
    (h : Reads b task ts (.parsed e rest)) : ∃ read, ts = read ++ rest ∧ task.Derives read e ∧
      (task.nesting ≤ b → e.nesting ≤ b) := by
  generalize ho : Outcome.parsed e rest = o at h
  induction h generalizing e rest with
  | operand _ _ ih ihc =>
    obtain ⟨ls, rfl, hleft, hnest⟩ := ih rfl
    obtain ⟨rs, rfl, hchain, hnest'⟩ := ihc ho
    exact ⟨ls ++ rs, (List.append_assoc ..).symm, hchain ls (.operand hleft),
      fun _ => hnest' (hnest (Nat.zero_le _))⟩
  | stop =>
    cases ho
    exact ⟨[], rfl, fun ls hls => by rwa [List.append_nil], id⟩
  | @step _ _ left op _ right _ _ hop _ _ ih ihc =>
    obtain ⟨rs, rfl, hright, hnest⟩ := ih rfl
    obtain ⟨more, rfl, hchain, hnest'⟩ := ihc ho
    refine ⟨op :: (rs ++ more), by simp, fun ls hls => ?_, fun hleft => hnest' ?_⟩
    · simpa using hchain (ls ++ op :: rs) (.binary hls hop hright)
    · exact Nat.max_le.2 ⟨hleft, hnest (Nat.zero_le _)⟩
  | sign hop _ ih =>
    cases ho
    obtain ⟨ts, rfl, hts, hnest⟩ := ih rfl
    exact ⟨_ :: ts, rfl, .unary (TokenKind.mem_signs.1 hop) hts,
      fun _ => Nat.succ_le_succ (hnest (Nat.zero_le _))⟩
  | unsigned _ _ ih =>
    obtain ⟨ts, h, hts, hnest⟩ := ih ho
    exact ⟨ts, h, .primary hts, hnest⟩
  | constant hv =>
    cases ho
    exact ⟨[_], rfl, derives_of_constant? hv, fun _ => Nat.zero_le _⟩
  | value hk hv =>
    cases ho
    exact ⟨[_], rfl, .value (by simpa using hk) hv, fun _ => Nat.zero_le _⟩
  | group ht hu _ ih =>
    cases ho
    obtain ⟨ts, rfl, hts, hnest⟩ := ih rfl
    exact ⟨_ :: (ts ++ [_]), by simp, .group ht hts hu,
      fun _ => Nat.succ_le_succ (hnest (Nat.zero_le _))⟩
  | operandFailed | stepFailed | signFailed | signDeep | valueMissing | groupFailed | groupOpen
  | groupDeep | unexpected => cases ho

/-! ## What follows what is read -/

/-- `next` does not go on with the task; a chain relies on the operand in front of it for the
operators of the levels inside. -/
def Task.EndsAt (ts : List Token) (next : Token) : Task → Prop
  | phrase n => next.kind ∉ n.takenOperators
  | chain l _ => (∀ t ∈ ts.head?, t.kind ∉ l.innerOperators) →
      next.kind ∉ (Nonterminal.binary l).takenOperators

/-- A chain behind an operand of its level ends where the level ends. -/
theorem endsAt_of_operand {l : Precedence} {left : Expr} {ts : List Token} {next : Token} {b : Nat}
    {o : Outcome} (h : Reads b (.chain l left) ts o)
    (ho : ∀ t rest, ts = t :: rest → t.kind ∉ l.operand.takenOperators)
    (hc : (Task.chain l left).EndsAt ts next) :
    next.kind ∉ (Nonterminal.binary l).takenOperators := by
  refine hc fun t ht => ?_
  rw [← Nonterminal.takenOperators_operand]
  cases h <;> simp_all

theorem Reads.endsAt {b : Nat} {task : Task} {ts rest : List Token} {e : Expr} {next : Token}
    (h : Reads b task ts (.parsed e (next :: rest))) : task.EndsAt ts next := by
  generalize ho : Outcome.parsed e (next :: rest) = o at h
  induction h generalizing e rest next with
  | operand _ hc ih ihc =>
    exact endsAt_of_operand hc (fun t ts hts => ih (by rw [hts])) (ihc ho)
  | stop hk =>
    cases ho
    intro hinner
    rw [Nonterminal.takenOperators, List.mem_append]
    exact not_or.2 ⟨hk, hinner _ rfl⟩
  | step _ _ hc ih ihc =>
    intro _
    exact endsAt_of_operand hc (fun t ts hts => ih (by rw [hts])) (ihc ho)
  | sign | unsigned | constant | value | group => exact List.not_mem_nil
  | operandFailed | stepFailed | signFailed | signDeep | valueMissing | groupFailed | groupOpen
  | groupDeep | unexpected => cases ho

/-! ## What is derived is read -/

/-- What becomes of a phrase `e` of `n` and the tokens behind it: a level reads on, the others have
all of their phrase. -/
def Continues (b : Nat) (e : Expr) (ts : List Token) (o : Outcome) : Nonterminal → Prop
  | .binary l => Reads b (.chain l e) ts o
  | .unary => o = .parsed e ts
  | .primary => o = .parsed e ts

/-- An operand ends in front of a token that is no operator of the levels inside. -/
theorem continues_operand {l : Precedence} {next : Token} (h : next.kind ∉ l.innerOperators)
    (b : Nat) (e : Expr) (ts : List Token) :
    Continues b e (next :: ts) (.parsed e (next :: ts)) l.operand := by
  rw [← Nonterminal.takenOperators_operand] at h
  cases hn : l.operand with
  | binary l' =>
    rw [hn] at h
    exact .stop fun hk => h (List.mem_append_left _ hk)
  | unary | primary => rfl

theorem Derives.ne_nil {n : Nonterminal} {ts : List Token} {e : Expr} (h : Derives n ts e) :
    ts ≠ [] := by
  induction h with
  | operand _ ih | primary _ ih => exact ih
  | binary _ _ _ ihl => exact List.append_ne_nil_of_left_ne_nil ihl _
  | unary | value | kwTrue | kwFalse | kwNil | group => exact List.cons_ne_nil _ _

theorem Derives.exists_head {ts : List Token} {e : Expr} (h : Derives .primary ts e) :
    ∃ t ts', ts = t :: ts' ∧ t.kind ∉ TokenKind.signs := by
  cases h with
  | value hk => exact ⟨_, _, rfl, by rcases hk with hk | hk <;> rw [hk] <;> decide⟩
  | kwTrue hk | kwFalse hk | kwNil hk | group hk => exact ⟨_, _, rfl, by rw [hk]; decide⟩

theorem Derives.reads {n : Nonterminal} {ts : List Token} {e : Expr} (h : Derives n ts e) {b : Nat}
    (hb : e.nesting ≤ b) {next : Token} {rest : List Token} {o : Outcome}
    (hnext : next.kind ∉ n.innerOperators) (ho : Continues b e (next :: rest) o n) :
    Reads b (.phrase n) (ts ++ next :: rest) o := by
  induction h generalizing b next rest o with
  | @operand l _ _ _ ih =>
    have hin := fun hk => hnext (Nonterminal.innerOperators_operand_subset l hk)
    exact .operand (ih hb hin (continues_operand hnext b _ rest)) ho
  | @binary l ls left op rs right _ hop _ ihl ihr =>
    obtain ⟨hbl, hbr⟩ := Nat.max_le.1 hb
    have hin := fun hk => hnext (Nonterminal.innerOperators_operand_subset l hk)
    have hright := ihr hbr hin (continues_operand hnext b right rest)
    rw [List.append_assoc]
    exact ihl hbl (Nonterminal.not_mem_innerOperators hop) (.step hop hright ho)
  | unary hop _ ih =>
    obtain ⟨b, rfl⟩ := Nat.exists_eq_add_one.2 (Nat.lt_of_lt_of_le (Nat.succ_pos _) hb)
    cases ho
    exact .sign (TokenKind.mem_signs.2 hop) (ih (Nat.le_of_succ_le_succ hb) hnext rfl)
  | primary h ih =>
    obtain ⟨t, ts, rfl, ht⟩ := h.exists_head
    exact .unsigned ht (ih hb hnext ho)
  | value hk hv =>
    cases ho
    exact .value (by simpa using hk) hv
  | kwTrue hk | kwFalse hk | kwNil hk =>
    cases ho
    exact .constant (by rw [hk]; rfl)
  | @group t ts e u ht _ hu ih =>
    obtain ⟨b, rfl⟩ := Nat.exists_eq_add_one.2 (Nat.lt_of_lt_of_le (Nat.succ_pos _) hb)
    cases ho
    have hclose : u.kind ∉ Nonterminal.expression.takenOperators := by rw [hu]; decide
    have hin : Reads b (.phrase .expression) (ts ++ u :: next :: rest)
        (.parsed e (u :: next :: rest)) :=
      ih (Nat.le_of_succ_le_succ hb) (fun hk => hclose (List.mem_append_right _ hk))
        (.stop fun hk => hclose (List.mem_append_left _ hk))
    rw [List.cons_append, List.append_assoc]
    exact .group ht hu hin

/-- An expression is read as far as it is derived if no operator follows it. -/
theorem Derives.reads_expression {ts : List Token} {e : Expr} (h : Derives .expression ts e)
    {b : Nat} (hb : e.nesting ≤ b) {next : Token} (hnext : next.kind ∉ TokenKind.binaryOperators)
    (rest : List Token) :
    Reads b (.phrase .expression) (ts ++ next :: rest) (.parsed e (next :: rest)) := by
  rw [← Nonterminal.mem_takenOperators_expression] at hnext
  have hstop : Reads b (.chain .equality e) (next :: rest) (.parsed e (next :: rest)) :=
    .stop fun hk => hnext (List.mem_append_left _ hk)
  exact h.reads hb (fun hk => hnext (List.mem_append_right _ hk)) hstop

end ExprSyntax
