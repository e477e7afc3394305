import ExprSyntax.Command.Arguments

/-!
# Words of a command line

The words that stand for choices, and the forms of an argument: `Word.ofArgument` tells `--` from
the long flags, which it cuts at their first equals sign, and from what is no flag.
-/

namespace ExprSyntax

namespace Command

/-! ## Choices -/

def PrintChoice.word : PrintChoice → String
  | ast => "ast"
  | rpn => "rpn"
  | both => "both"

def ColorChoice.word : ColorChoice → String
  | auto => "auto"
  | always => "always"
  | never => "never"

theorem PrintChoice.ofWord?_eq_some_iff {word : String} {choice : PrintChoice} :
    PrintChoice.ofWord? word = some choice ↔ word = choice.word := by
  constructor
  · unfold PrintChoice.ofWord?
    split <;> rintro ⟨⟩ <;> rfl
  · rintro rfl
    cases choice <;> rfl

theorem ColorChoice.ofWord?_eq_some_iff {word : String} {choice : ColorChoice} :
    ColorChoice.ofWord? word = some choice ↔ word = choice.word := by
  constructor
  · unfold ColorChoice.ofWord?
    split <;> rintro ⟨⟩ <;> rfl
  · rintro rfl
    cases choice <;> rfl

/-! ## Forms of an argument -/

/-- The text is no flag. -/
def IsPlain (text : String) : Prop :=
  text = "-" ∨ text.toList.head? ≠ some '-'

theorem ofArgument_plain {text : String} (h : IsPlain text) :
    Word.ofArgument text = .plain text := by
  rcases h with rfl | h
  · rfl
  · cases hl : text.toList with
    | nil => simp [Word.ofArgument, hl]
    | cons c cs =>
      have hc : c ≠ '-' := by simpa [hl] using h
      simp [Word.ofArgument, hl, hc]

/-- A long flag is cut at its first equals sign. -/
theorem ofArgument_long {arg name : String} {attached? : Option String}
    (harg : arg.toList = '-' :: '-' :: (name.toList ++ attached?.elim [] ('=' :: ·.toList)))
    (hname : name.toList ≠ []) (hequals : '=' ∉ name.toList) :
    Word.ofArgument arg = .long name attached? := by
  have hne : ∀ c ∈ name.toList, decide (c ≠ '=') = true := fun c hc =>
    decide_eq_true fun he => hequals (he ▸ hc)
  obtain ⟨c, cs, hcs⟩ : ∃ c cs, name.toList ++ attached?.elim [] ('=' :: ·.toList) = c :: cs :=
    List.exists_cons_of_ne_nil (List.append_ne_nil_of_left_ne_nil hname _)
  have ht : (c :: cs).takeWhile (· ≠ '=') = name.toList := by
    rw [← hcs, List.takeWhile_append_of_pos hne]
    cases attached? <;> simp
  have hd : (c :: cs).dropWhile (· ≠ '=') = attached?.elim [] ('=' :: ·.toList) := by
    rw [← hcs, List.dropWhile_append_of_pos hne]
    cases attached? <;> simp
  rw [Word.ofArgument, harg, hcs]
  show Word.long (String.ofList ((c :: cs).takeWhile (· ≠ '='))) _ = _
  rw [ht, hd, String.ofList_toList]
  cases attached? with
  | none => rfl
  | some value => simp

theorem toList_of_ofArgument_long {arg name : String} {attached? : Option String}
    (h : Word.ofArgument arg = .long name attached?) :
    arg.toList = '-' :: '-' :: (name.toList ++ attached?.elim [] ('=' :: ·.toList)) := by
  unfold Word.ofArgument at h
  split at h
  · cases h
  · rename_i cs _ harg
    obtain ⟨rfl, hattached⟩ := Word.long.inj h
    have hd : attached?.elim [] ('=' :: ·.toList) = cs.dropWhile (· ≠ '=') := by
      have hequals := List.head?_dropWhile_not (· ≠ '=') cs
      rw [← hattached]
      cases hd : cs.dropWhile (· ≠ '=') with
      | nil => rfl
      | cons c value =>
        rw [hd] at hequals
        have hc : c = '=' := by simpa using hequals
        simp [hc]
    rw [harg, String.toList_ofList, hd, List.takeWhile_append_dropWhile]
  · cases h
  · cases h

theorem of_ofArgument_plain {arg text : String} (h : Word.ofArgument arg = .plain text) :
    text = arg ∧ IsPlain arg := by
  unfold Word.ofArgument at h
  split at h
  · cases h
  · cases h
  · cases h
  · rename_i hshort
    refine ⟨(Word.plain.inj h).symm, ?_⟩
    match harg : arg.toList with
    | [] => exact .inr (by simp [harg])
    | [c] =>
      by_cases hc : c = '-'
      · exact .inl (String.toList_inj.1 (harg.trans (by rw [hc]; rfl)))
      · exact .inr (by simpa [harg] using hc)
    | c :: d :: cs =>
      refine .inr fun hc => hshort d cs ?_
      simpa [harg] using hc

theorem of_ofArgument_endOfFlags {arg : String} (h : Word.ofArgument arg = .endOfFlags) :
    arg = "--" := by
  unfold Word.ofArgument at h
  split at h
  · exact String.toList_inj.1 ‹_›
  · cases h
  · cases h
  · cases h

end Command

end ExprSyntax
