import ExprSyntax.Proofs.Grammar.Derivation
import ExprSyntax.Proofs.Grammar.Lookahead

/-!
# Viable prefixes

A token list is viable if further tokens make an expression of it, within a bound on nesting or
without one. A reading that fails has a viable list in front of the offender
(`Reads.viable_of_failed`); with the offender it is not viable any more (`Reads.not_viable`), or
only without the bound when the expression is nested too deeply.
-/

namespace ExprSyntax

/-- Further tokens, none of them an end marker, make an expression of `ts`, nested within the bound
if there is one. -/
def Viable (bound : Option Nat) (ts : List Token) : Prop :=
  ∃ more tree, (∀ t ∈ more, t.kind ≠ .eof) ∧ Derives .expression (ts ++ more) tree ∧
    ∀ b ∈ bound, tree.nesting ≤ b

/-- As `Viable`, for what any task reads. -/
def Task.Viable (bound : Option Nat) (task : Task) (ts : List Token) : Prop :=
  ∃ more tree, (∀ t ∈ more, t.kind ≠ .eof) ∧ task.Derives (ts ++ more) tree ∧
    ∀ b ∈ bound, tree.nesting ≤ b

/-! ## Completing what has been read -/

/-- A token to close a group with. -/
def Token.closing : Token := ⟨.rightParen, ")", none, 1⟩

/-- A token that is an expression. -/
def Token.leaf : Token := ⟨.kwNil, "nil", none, 1⟩

namespace Task.Viable

/-- The completion of a part completes the whole that is built around it. -/
theorem around {bound bound' : Option Nat} {task task' : Task} {ts : List Token}
    (h : task.Viable bound ts) (before after : List Token) (build : Expr → Expr)
    (hafter : ∀ t ∈ after, t.kind ≠ .eof)
    (hbuild : ∀ us e, task.Derives us e → task'.Derives (before ++ us ++ after) (build e))
    (hnest : ∀ e : Expr, (∀ b ∈ bound, e.nesting ≤ b) → ∀ b ∈ bound', (build e).nesting ≤ b) :
    task'.Viable bound' (before ++ ts) := by
  obtain ⟨more, e, hmore, he, hb⟩ := h
  refine ⟨more ++ after, build e, fun t ht => ?_, ?_, hnest e hb⟩
  · rcases List.mem_append.1 ht with ht | ht
    · exact hmore t ht
    · exact hafter t ht
  · simpa using hbuild _ _ he

theorem operand {bound : Option Nat} {l : Precedence} {ts : List Token}
    (h : (phrase l.operand).Viable bound ts) : (phrase (.binary l)).Viable bound ts :=
  h.around [] [] id (List.forall_mem_nil _)
    (fun us e he => by simpa using Derives.operand he) fun _ he => he

theorem chain {bound : Option Nat} {l : Precedence} {left : Expr} {ls ts : List Token}
    (hleft : ExprSyntax.Derives l.operand ls left) (h : (chain l left).Viable bound ts) :
    (phrase (.binary l)).Viable bound (ls ++ ts) :=
  h.around ls [] id (List.forall_mem_nil _)
    (fun us e he => by simpa using he ls (.operand hleft)) fun _ he => he

theorem step {bound : Option Nat} {l : Precedence} {left right : Expr} {op : Token}
    {rs ts : List Token} (hop : op.kind ∈ l.operators)
    (hright : ExprSyntax.Derives l.operand rs right)
    (h : (Task.chain l (.binary left op right)).Viable bound ts) :
    (Task.chain l left).Viable bound (op :: rs ++ ts) :=
  h.around (op :: rs) [] id (List.forall_mem_nil _)
    (fun us e he ls hls => by simpa using he (ls ++ op :: rs) (.binary hls hop hright))
    fun _ he => he

theorem rightOperand {bound : Option Nat} {l : Precedence} {left : Expr} {op : Token}
    {ts : List Token} (hop : op.kind ∈ l.operators) (hleft : ∀ b ∈ bound, left.nesting ≤ b)
    (h : (phrase l.operand).Viable bound ts) : (Task.chain l left).Viable bound (op :: ts) :=
  h.around [op] [] (.binary left op) (List.forall_mem_nil _)
    (fun us e he ls hls => by simpa using Derives.binary hls hop he)
    fun e he b hb => Nat.max_le.2 ⟨hleft b hb, he b hb⟩

theorem sign {bound : Option Nat} {op : Token} {ts : List Token}
    (hop : op.kind ∈ TokenKind.signs) (h : (phrase .unary).Viable bound ts) :
    (phrase .unary).Viable (bound.map (· + 1)) (op :: ts) :=
  h.around [op] [] (.unary op) (List.forall_mem_nil _)
    (fun us e he => by simpa using Derives.unary (TokenKind.mem_signs.1 hop) he)
    fun e he b hb => by
      obtain ⟨a, ha, rfl⟩ := Option.map_eq_some_iff.1 hb
      exact Nat.succ_le_succ (he a ha)

theorem unsigned {bound : Option Nat} {ts : List Token} (h : (phrase .primary).Viable bound ts) :
    (phrase .unary).Viable bound ts :=
  h.around [] [] id (List.forall_mem_nil _)
    (fun us e he => by simpa using Derives.primary he) fun _ he => he

theorem group {bound : Option Nat} {t : Token} {ts : List Token} (ht : t.kind = .leftParen)
    (h : (phrase .expression).Viable bound ts) :
    (phrase .primary).Viable (bound.map (· + 1)) (t :: ts) :=
  h.around [t] [.closing] .grouping (by simp [Token.closing])
    (fun us e he => by simpa using Derives.group (u := .closing) ht he rfl)
    fun e he b hb => by
      obtain ⟨a, ha, rfl⟩ := Option.map_eq_some_iff.1 hb
      exact Nat.succ_le_succ (he a ha)

theorem of_derives {bound : Option Nat} {task : Task} {ts : List Token} {e : Expr}
    (h : task.Derives ts e) (hb : ∀ b ∈ bound, e.nesting ≤ b) : task.Viable bound ts :=
  ⟨[], e, List.forall_mem_nil _, by rwa [List.append_nil], hb⟩

theorem primary_nil (bound : Option Nat) : (phrase .primary).Viable bound [] :=
  ⟨[.leaf], .literal .nil, by simp [Token.leaf], Derives.kwNil rfl, fun _ _ => Nat.zero_le _⟩

theorem expression_nil (bound : Option Nat) : (phrase .expression).Viable bound [] :=
  .operand (.operand (.operand (.operand (primary_nil bound).unsigned)))

end Task.Viable

/-! ## In front of an offender -/

/-- What has been read in front of the offender of a failed reading is viable within the bound, and
with an offender that is nested too deeply it is viable without. -/
theorem Reads.viable_of_failed {b : Nat} {task : Task} {ts rest : List Token} {err : SyntaxError}
    (h : Reads b task ts (.failed err rest)) (hb : task.nesting ≤ b) :
    ∃ read behind, ts = read ++ err.offender :: behind ∧ rest = err.left behind ∧
      task.Viable (some b) read ∧
      (err.fault = .nestedTooDeeply → task.Viable none (read ++ [err.offender])) := by
  generalize ho : Outcome.failed err rest = o at h
  induction h generalizing err rest with
  | operand h _ _ ihc =>
    obtain ⟨ls, rfl, hleft, hnest⟩ := h.derives
    obtain ⟨read, behind, rfl, hrest, hv, hdeep⟩ := ihc (hnest (Nat.zero_le _)) ho
    refine ⟨ls ++ read, behind, by simp, hrest, hv.chain hleft, fun hf => ?_⟩
    rw [List.append_assoc]
    exact (hdeep hf).chain hleft
  | operandFailed _ ih =>
    obtain ⟨read, behind, hts, hrest, hv, hdeep⟩ := ih (Nat.zero_le _) ho
    exact ⟨read, behind, hts, hrest, hv.operand, fun hf => (hdeep hf).operand⟩
  | @step _ _ _ op _ _ _ _ hop h _ _ ihc =>
    obtain ⟨rs, rfl, hright, hnest⟩ := h.derives
    obtain ⟨read, behind, rfl, hrest, hv, hdeep⟩ :=
      ihc (Nat.max_le.2 ⟨hb, hnest (Nat.zero_le _)⟩) ho
    refine ⟨op :: rs ++ read, behind, by simp, hrest, hv.step hop hright, fun hf => ?_⟩
    rw [List.append_assoc]
    exact (hdeep hf).step hop hright
  | @stepFailed _ _ _ op _ _ _ hop _ ih =>
    obtain ⟨read, behind, rfl, hrest, hv, hdeep⟩ := ih (Nat.zero_le _) ho
    refine ⟨op :: read, behind, rfl, hrest, hv.rightOperand hop ?_,
      fun hf => (hdeep hf).rightOperand hop nofun⟩
    rintro _ ⟨⟩
    exact hb
  | @signFailed _ op _ _ _ hop _ ih =>
    obtain ⟨read, behind, rfl, hrest, hv, hdeep⟩ := ih (Nat.zero_le _) ho
    exact ⟨op :: read, behind, rfl, hrest, hv.sign hop, fun hf => (hdeep hf).sign hop⟩
  | signDeep hop =>
    cases ho
    exact ⟨[], _, rfl, rfl, (Task.Viable.primary_nil _).unsigned,
      fun _ => (Task.Viable.primary_nil none).unsigned.sign hop⟩
  | unsigned _ _ ih =>
    obtain ⟨read, behind, hts, hrest, hv, hdeep⟩ := ih (Nat.zero_le _) ho
    exact ⟨read, behind, hts, hrest, hv.unsigned, fun hf => (hdeep hf).unsigned⟩
  | valueMissing | unexpected =>
    cases ho
    exact ⟨[], _, rfl, rfl, Task.Viable.primary_nil _, nofun⟩
  | @groupFailed _ t _ _ _ ht _ ih =>
    obtain ⟨read, behind, rfl, hrest, hv, hdeep⟩ := ih (Nat.zero_le _) ho
    exact ⟨t :: read, behind, rfl, hrest, hv.group ht, fun hf => (hdeep hf).group ht⟩
  | @groupOpen _ t _ _ _ rest ht _ h =>
    cases ho
    obtain ⟨read, rfl, he, hnest⟩ := h.derives
    have hv : (Task.phrase .expression).Viable (some _) read :=
      .of_derives he (by rintro _ ⟨⟩; exact hnest (Nat.zero_le _))
    exact ⟨t :: read, rest, rfl, rfl, hv.group ht, nofun⟩
  | groupDeep ht =>
    cases ho
    exact ⟨[], _, rfl, rfl, Task.Viable.primary_nil _,
      fun _ => (Task.Viable.expression_nil none).group ht⟩
  | stop | sign | constant | value | group => cases ho

/-- The tokens that a fault can be blamed on. -/
def SyntaxFault.Blames : SyntaxFault → Token → Prop
  | expectedExpression, t => t.kind.constant? = none ∧ t.kind ∉ [.number, .string, .leftParen]
  | expectedRightParen, t => t.kind ≠ .rightParen
  | nestedTooDeeply, t => t.kind = .leftParen ∨ t.kind = .bang ∨ t.kind = .minus
  | missingValue, t => (t.kind = .number ∨ t.kind = .string) ∧ t.literal = none

theorem Reads.blames_of_failed {b : Nat} {task : Task} {ts rest : List Token} {err : SyntaxError}
    (h : Reads b task ts (.failed err rest)) : err.fault.Blames err.offender := by
  generalize ho : Outcome.failed err rest = o at h
  induction h generalizing err rest with
  | operand _ _ _ ih | step _ _ _ _ ih | operandFailed _ ih | stepFailed _ _ ih | signFailed _ _ ih
  | unsigned _ _ ih | groupFailed _ _ ih => exact ih ho
  | signDeep hop =>
    cases ho
    exact .inr (TokenKind.mem_signs.1 hop)
  | groupDeep ht =>
    cases ho
    exact .inl ht
  | valueMissing hk hv =>
    cases ho
    exact ⟨by simpa using hk, hv⟩
  | groupOpen _ hu _ =>
    cases ho
    exact hu
  | unexpected hv hk =>
    cases ho
    exact ⟨hv, hk⟩
  | stop | sign | constant | value | group => cases ho

/-- The tokens that can be nested too deeply or lack a value. -/
theorem Reads.offender_of_failed {b : Nat} {task : Task} {ts rest : List Token} {err : SyntaxError}
    (h : Reads b task ts (.failed err rest)) :
    (err.fault = .nestedTooDeeply →
        err.offender.kind = .leftParen ∨ err.offender.kind = .bang ∨ err.offender.kind = .minus) ∧
      (err.fault = .missingValue →
        (err.offender.kind = .number ∨ err.offender.kind = .string) ∧
          err.offender.literal = none) := by
  have hblames := h.blames_of_failed
  obtain ⟨fault, offender⟩ := err
  constructor <;>
  · rintro rfl
    exact hblames

/-- No expression begins with the tokens up to the offender of a failed reading: within the bound,
and, unless the bound is what failed, without it. -/
theorem Reads.not_viable {b : Nat} {read behind : List Token} {err : SyntaxError}
    (h : Reads b (.phrase .expression) (read ++ err.offender :: behind)
      (.failed err (err.left behind)))
    (bound : Option Nat) (hbound : bound = some b ∨ err.fault ≠ .nestedTooDeeply) :
    ¬ Viable bound (read ++ [err.offender]) := by
  rintro ⟨more, e, -, he, hb⟩
  have hclosed : (Token.eof 1).kind ∉ TokenKind.binaryOperators := by decide
  have hparsed := he.reads_expression (Nat.le_max_right b e.nesting) hclosed []
  have hfailed := h.failed_of_behind (more ++ [.eof 1])
  have hraised : Reads (max b e.nesting) (.phrase .expression)
      (read ++ err.offender :: (more ++ [.eof 1])) (.failed err (err.left (more ++ [.eof 1]))) := by
    rcases hbound with rfl | hf
    · rwa [Nat.max_eq_left (hb b rfl)]
    · exact hfailed.mono (Nat.le_max_left _ _) hf
  simp only [List.append_assoc, List.cons_append, List.nil_append] at hparsed
  cases hparsed.deterministic hraised

end ExprSyntax
