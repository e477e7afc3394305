import ExprSyntax.Proofs.Grammar.Reads

/-!
# What a reading depends on

A reading does not depend on the tokens behind the one at which it stops: for an error that is its
offender, for a tree the next token, and of this only the kind (`Reads.local`). A bound that was
not run into can be raised (`Reads.mono`).
-/

namespace ExprSyntax

/-- Whether the token to blame has been taken when the fault is found. -/
def SyntaxFault.taken : SyntaxFault → Bool
  | expectedExpression => false
  | expectedRightParen => false
  | nestedTooDeeply => true
  | missingValue => true

/-- What is left after an error with the tokens `behind` behind its offender. -/
def SyntaxError.left (e : SyntaxError) (behind : List Token) : List Token :=
  if e.fault.taken then behind else e.offender :: behind

theorem SyntaxError.left_injective {e : SyntaxError} {behind behind' : List Token}
    (h : e.left behind = e.left behind') : behind = behind' := by
  unfold left at h
  split at h
  · exact h
  · exact (List.cons.inj h).2

/-- The outcome is the same whatever stands behind the token at which the reading stopped. -/
def Outcome.Local (b : Nat) (task : Task) (ts : List Token) : Outcome → Prop
  | parsed e rest => ∃ read, ts = read ++ rest ∧ ∀ rest' : List Token,
      rest'.head?.map Token.kind = rest.head?.map Token.kind →
        Reads b task (read ++ rest') (.parsed e rest')
  | failed err rest => ∃ read behind, ts = read ++ err.offender :: behind ∧
      rest = err.left behind ∧ ∀ behind' : List Token,
        Reads b task (read ++ err.offender :: behind') (.failed err (err.left behind'))

/-- Goes on with `o` behind what has been read in front of it. -/
theorem Outcome.Local.prepend {b : Nat} {task task' : Task} {ts rest : List Token} {o : Outcome}
    (ho : o.Local b task rest) (read : List Token) (hts : ts = read ++ rest)
    (h : ∀ (rest' : List Token) (o' : Outcome),
      rest'.head?.map Token.kind = rest.head?.map Token.kind → Reads b task rest' o' →
        Reads b task' (read ++ rest') o') : o.Local b task' ts := by
  cases o with
  | parsed e last =>
    obtain ⟨more, rfl, hmore⟩ := ho
    refine ⟨read ++ more, by simp [hts], fun last' hl => ?_⟩
    rw [List.append_assoc]
    refine h _ _ ?_ (hmore last' hl)
    cases more with
    | nil => exact hl
    | cons => rfl
  | failed err last =>
    obtain ⟨more, behind, rfl, hlast, hmore⟩ := ho
    refine ⟨read ++ more, behind, by simp [hts], hlast, fun behind' => ?_⟩
    rw [List.append_assoc]
    refine h _ _ ?_ (hmore behind')
    cases more <;> rfl

theorem Reads.local {b : Nat} {task : Task} {ts : List Token} {o : Outcome}
    (h : Reads b task ts o) : o.Local b task ts := by
  induction h with
  | operand _ _ ih ihc =>
    obtain ⟨read, hts, hread⟩ := ih
    exact ihc.prepend read hts fun rest' _ hk hc => .operand (hread rest' hk) hc
  | operandFailed _ ih =>
    obtain ⟨read, behind, hts, hrest, hread⟩ := ih
    exact ⟨read, behind, hts, hrest, fun behind' => .operandFailed (hread behind')⟩
  | @stop _ l left t ts ht =>
    refine ⟨[], rfl, fun rest' hk => ?_⟩
    cases rest' with
    | nil => cases hk
    | cons t' ts' =>
      have hkind : t'.kind = t.kind := Option.some.inj hk
      exact .stop (hkind ▸ ht)
  | @step _ _ _ op _ _ _ _ hop _ _ ih ihc =>
    obtain ⟨read, hts, hread⟩ := ih
    exact ihc.prepend (op :: read) (by rw [hts]; rfl)
      fun rest' _ hk hc => .step hop (hread rest' hk) hc
  | @stepFailed _ _ _ op _ _ _ hop _ ih =>
    obtain ⟨read, behind, hts, hrest, hread⟩ := ih
    exact ⟨op :: read, behind, by rw [hts]; rfl, hrest,
      fun behind' => .stepFailed hop (hread behind')⟩
  | @sign _ op _ _ _ hop _ ih =>
    obtain ⟨read, hts, hread⟩ := ih
    exact ⟨op :: read, by rw [hts]; rfl, fun rest' hk => .sign hop (hread rest' hk)⟩
  | @signFailed _ op _ _ _ hop _ ih =>
    obtain ⟨read, behind, hts, hrest, hread⟩ := ih
    exact ⟨op :: read, behind, by rw [hts]; rfl, hrest,
      fun behind' => .signFailed hop (hread behind')⟩
  | signDeep hop => exact ⟨[], _, rfl, rfl, fun _ => .signDeep hop⟩
  | @unsigned _ t _ _ ht _ ih =>
    refine ih.prepend [] rfl fun rest' o' hk h => ?_
    cases rest' with
    | nil => cases hk
    | cons t' ts' =>
      have hkind : t'.kind = t.kind := Option.some.inj hk
      exact .unsigned (hkind ▸ ht) h
  | @constant _ t _ _ hv => exact ⟨[t], rfl, fun _ _ => .constant hv⟩
  | @value _ t _ _ hk hv => exact ⟨[t], rfl, fun _ _ => .value hk hv⟩
  | valueMissing hk hv => exact ⟨[], _, rfl, rfl, fun _ => .valueMissing hk hv⟩
  | @group _ t _ _ u _ ht hu _ ih =>
    obtain ⟨read, hts, hread⟩ := ih
    refine ⟨t :: (read ++ [u]), by simp [hts], fun rest' _ => ?_⟩
    rw [List.cons_append, List.append_assoc]
    exact .group ht hu (hread (u :: rest') rfl)
  | @groupFailed _ t _ _ _ ht _ ih =>
    obtain ⟨read, behind, hts, hrest, hread⟩ := ih
    exact ⟨t :: read, behind, by rw [hts]; rfl, hrest,
      fun behind' => .groupFailed ht (hread behind')⟩
  | @groupOpen _ t _ _ u rest ht hu _ ih =>
    obtain ⟨read, hts, hread⟩ := ih
    exact ⟨t :: read, rest, by rw [hts]; rfl, rfl,
      fun behind' => .groupOpen ht hu (hread (u :: behind') rfl)⟩
  | groupDeep ht => exact ⟨[], _, rfl, rfl, fun _ => .groupDeep ht⟩
  | unexpected hv hk => exact ⟨[], _, rfl, rfl, fun _ => .unexpected hv hk⟩

/-- A failed reading stays as it is whatever stands behind the offender. -/
theorem Reads.failed_of_behind {b : Nat} {task : Task} {read behind : List Token}
    {err : SyntaxError}
    (h : Reads b task (read ++ err.offender :: behind) (.failed err (err.left behind)))
    (behind' : List Token) :
    Reads b task (read ++ err.offender :: behind') (.failed err (err.left behind')) := by
  obtain ⟨read', behind₀, hts, hrest, hread⟩ := h.local
  cases SyntaxError.left_injective hrest
  cases List.append_cancel_right hts
  exact hread behind'

/-- The reading was not ended by the bound on nesting. -/
def Outcome.WithinBound : Outcome → Prop
  | parsed _ _ => True
  | failed err _ => err.fault ≠ .nestedTooDeeply

theorem Reads.mono {b b' : Nat} {task : Task} {ts : List Token} {o : Outcome}
    (h : Reads b task ts o) (hb : b ≤ b') (ho : o.WithinBound) : Reads b' task ts o := by
  induction h generalizing b' with
  | operand _ _ ih ihc => exact .operand (ih hb trivial) (ihc hb ho)
  | operandFailed _ ih => exact .operandFailed (ih hb ho)
  | stop ht => exact .stop ht
  | step hop _ _ ih ihc => exact .step hop (ih hb trivial) (ihc hb ho)
  | stepFailed hop _ ih => exact .stepFailed hop (ih hb ho)
  | sign hop _ ih =>
    obtain ⟨b', rfl⟩ := Nat.exists_eq_add_one.2 (Nat.lt_of_lt_of_le (Nat.succ_pos _) hb)
    exact .sign hop (ih (Nat.le_of_succ_le_succ hb) trivial)
  | signFailed hop _ ih =>
    obtain ⟨b', rfl⟩ := Nat.exists_eq_add_one.2 (Nat.lt_of_lt_of_le (Nat.succ_pos _) hb)
    exact .signFailed hop (ih (Nat.le_of_succ_le_succ hb) ho)
  | signDeep | groupDeep => exact absurd rfl ho
  | unsigned ht _ ih => exact .unsigned ht (ih hb ho)
  | constant hv => exact .constant hv
  | value hk hv => exact .value hk hv
  | valueMissing hk hv => exact .valueMissing hk hv
  | group ht hu _ ih =>
    obtain ⟨b', rfl⟩ := Nat.exists_eq_add_one.2 (Nat.lt_of_lt_of_le (Nat.succ_pos _) hb)
    exact .group ht hu (ih (Nat.le_of_succ_le_succ hb) trivial)
  | groupFailed ht _ ih =>
    obtain ⟨b', rfl⟩ := Nat.exists_eq_add_one.2 (Nat.lt_of_lt_of_le (Nat.succ_pos _) hb)
    exact .groupFailed ht (ih (Nat.le_of_succ_le_succ hb) ho)
  | groupOpen ht hu _ ih =>
    obtain ⟨b', rfl⟩ := Nat.exists_eq_add_one.2 (Nat.lt_of_lt_of_le (Nat.succ_pos _) hb)
    exact .groupOpen ht hu (ih (Nat.le_of_succ_le_succ hb) trivial)
  | unexpected hv hk => exact .unexpected hv hk

end ExprSyntax
