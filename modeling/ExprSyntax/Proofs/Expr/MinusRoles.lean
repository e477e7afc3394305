import ExprSyntax.Proofs.Expr.RoundTrip
import ExprSyntax.Proofs.Expr.StackMachine
import ExprSyntax.Proofs.Source.Lexemes

/-!
# The two roles of a minus

In the reverse Polish notation of arithmetic a word tells what it is, but for `-`, which is a sign
or the operator between two operands. The text tells the tree exactly as far as it is known which of
the two each `-` is. It is known where all of them play one role, since the words tell how many
signs there are (`Expr.bare_eq_iff_of_reversePolish_eq`). In general it is not: `-(1 - 2)` and `1 -
-2` are written alike (`Expr.reversePolish_not_injective`).
-/

namespace ExprSyntax

/-! ## Words of arithmetic -/

def arithmeticWords : List String :=
  ["+", "-", "*", "/"]

/-- The words that can play a role in arithmetic. -/
def WordRole.Takes : WordRole → String → Prop
  | operand, w => ∃ x, x ≠ Binary64.nan ∧ w = x.text
  | sign, w => w = "-"
  | operator, w => w ∈ arithmeticWords

/-- The role of a word if every `-` has the role `minus`. -/
def WordRole.ofWord (minus : WordRole) (w : String) : WordRole :=
  if w = "-" then minus else if w ∈ arithmeticWords then operator else operand

namespace WordRole.Takes

variable {role : WordRole} {w : String}

/-- No operator reads as a number. -/
theorem not_mem_of_operand (h : operand.Takes w) : w ∉ arithmeticWords := by
  obtain ⟨x, hx, rfl⟩ := h
  have hnone : ∀ v ∈ arithmeticWords, Binary64.ofText? v = none := by decide
  intro hmem
  have hread := hnone _ hmem
  rw [Binary64.ofText?_text_of_ne_nan hx] at hread
  cases hread

theorem space_not_mem (h : role.Takes w) : ' ' ∉ w.toList := by
  cases role with
  | operand =>
    obtain ⟨x, hx, rfl⟩ := h
    intro hspace
    rcases Binary64.mem_text hx ' ' hspace with hdigit | hmem
    · exact absurd hdigit (by decide)
    · exact absurd hmem (by decide)
  | sign =>
    obtain rfl : w = "-" := h
    decide
  | operator =>
    have hall : ∀ v ∈ arithmeticWords, v.toList.contains ' ' = false := by decide
    simpa using hall w h

theorem operand_iff (h : role.Takes w) : role = operand ↔ w ∉ arithmeticWords := by
  constructor
  · rintro rfl
    exact not_mem_of_operand h
  · intro hw
    cases role with
    | operand => rfl
    | sign => exact absurd (h ▸ by decide) hw
    | operator => exact absurd h hw

/-- A word tells its role if the role of `-` is known. -/
theorem eq_ofWord {minus : WordRole} (h : role.Takes w) (hm : w = "-" → role = minus) :
    role = ofWord minus w := by
  unfold ofWord
  split
  · exact hm ‹_›
  · rename_i hw
    split
    · rename_i hmem
      cases role with
      | operand => exact absurd hmem (not_mem_of_operand h)
      | sign => exact absurd h hw
      | operator => rfl
    · exact h.operand_iff.2 ‹_›

end WordRole.Takes

namespace Expr

/-- The tree is made of numbers, groupings, the sign `-` and the operators `+`, `-`, `*`, `/`. -/
def Arithmetic : Expr → Prop
  | literal v => ∃ x, v = .number x
  | grouping e => e.Arithmetic
  | unary op e => op.kind = .minus ∧ e.Arithmetic
  | binary l op r => l.Arithmetic ∧ op.kind ∈ [.plus, .minus, .star, .slash] ∧ r.Arithmetic

/-- The tree without its groupings. -/
def bare : Expr → Expr
  | literal v => literal v
  | grouping e => e.bare
  | unary op e => unary op e.bare
  | binary l op r => binary l.bare op r.bare

/-- Every `-` in the tree has the same role. -/
def MinusIs (e : Expr) (role : WordRole) : Prop :=
  ∀ m ∈ e.marked, m.2 = "-" → m.1 = role

/-- Neither groupings nor lines are seen in the notation. -/
theorem marked_bare_unplaced (e : Expr) : e.bare.unplaced.marked = e.marked := by
  induction e with
  | literal v => rfl
  | grouping e ih => exact ih
  | unary op e ih => exact congrArg (· ++ _) ih
  | binary l op r ihl ihr => exact congrArg (· ++ _) (congrArg₂ (· ++ ·) ihl ihr)

/-! ## What the marked words tell -/

theorem lexeme_mem_arithmeticWords {op : Token} (h : op.Plain)
    (hk : op.kind ∈ [.plus, .minus, .star, .slash]) : op.lexeme ∈ arithmeticWords := by
  have hall : ∀ k ∈ [TokenKind.plus, .minus, .star, .slash],
      k.spelling?.getD "" ∈ arithmeticWords := by decide
  have hword := hall _ hk
  rwa [h.1] at hword

theorem ne_nan_of_ofLexemes {x : Binary64} (h : (literal (.number x)).OfLexemes) : x ≠ .nan := by
  rintro rfl
  rcases h with ⟨m, hm⟩ | h
  · cases hm
  · cases h

/-- In the tree of a run each word can play its role. -/
theorem takes_of_mem_marked {e : Expr} (ha : e.Arithmetic) (hl : e.OfLexemes) :
    ∀ m ∈ e.marked, m.1.Takes m.2 := by
  induction e with
  | literal v =>
    obtain ⟨x, rfl⟩ := ha
    intro m hm
    rw [List.mem_singleton.1 hm]
    exact ⟨x, ne_nan_of_ofLexemes hl, rfl⟩
  | grouping e ih => exact ih ha hl
  | unary op e ih =>
    obtain ⟨hk, ha⟩ := ha
    obtain ⟨hop, hl⟩ := hl
    rw [marked, List.forall_mem_append, List.forall_mem_singleton]
    refine ⟨ih ha hl, ?_⟩
    have hs := hop.1
    rw [hk] at hs
    exact (Option.some.inj hs).symm
  | binary l op r ihl ihr =>
    obtain ⟨hal, hk, har⟩ := ha
    obtain ⟨hll, hop, hlr⟩ := hl
    rw [marked, List.forall_mem_append, List.forall_mem_append, List.forall_mem_singleton]
    exact ⟨⟨ihl hal hll, ihr har hlr⟩, lexeme_mem_arithmeticWords hop hk⟩

/-- The operator of a spelling. -/
def operatorSpelled (w : String) : Token :=
  ⟨(TokenKind.all.find? fun k => k.spelling? = some w).getD .eof, w, none, 0⟩

theorem operatorSpelled_lexeme {op : Token} (h : op.Plain) :
    operatorSpelled op.lexeme = op.unplaced := by
  obtain ⟨k, w, v, line⟩ := op
  obtain ⟨hs, rfl⟩ := h
  have hfind : (TokenKind.all.find? fun k => k.spelling? = some w).isSome :=
    List.find?_isSome.2 ⟨k, k.mem_all, decide_eq_true hs⟩
  obtain ⟨k', hk'⟩ := Option.isSome_iff_exists.1 hfind
  have hs' : k'.spelling? = some w := by simpa using List.find?_some hk'
  obtain rfl : k' = k := TokenKind.eq_of_spelling? hs' hs
  rw [operatorSpelled, hk']
  rfl

/-- Words taken for the nodes of a tree. -/
def nodes : Interpretation Expr where
  operand w := literal (.number ((Binary64.ofText? w).getD .nan))
  sign w e := unary (operatorSpelled w) e
  operator w l r := binary l (operatorSpelled w) r

/-- The tree of its words, as the stack machine builds it. -/
theorem value_nodes {e : Expr} (ha : e.Arithmetic) (hl : e.OfLexemes) :
    nodes.value e = e.bare.unplaced := by
  induction e with
  | literal v =>
    obtain ⟨x, rfl⟩ := ha
    have hread : Binary64.ofText? (Literal.number x).text = some x :=
      Binary64.ofText?_text_of_ne_nan (ne_nan_of_ofLexemes hl)
    simp only [Interpretation.value, nodes, hread, Option.getD_some]
    rfl
  | grouping e ih => exact ih ha hl
  | unary op e ih =>
    have he := ih ha.2 hl.2
    exact congrArg₂ unary (operatorSpelled_lexeme hl.1) he
  | binary l op r ihl ihr =>
    have hleft := ihl ha.1 hl.1
    have hright := ihr ha.2.2 hl.2.2
    have hop := operatorSpelled_lexeme hl.2.1
    simp only [Interpretation.value, nodes] at hleft hright ⊢
    rw [hleft, hright, hop]
    rfl

/-! ## How many signs there are -/

section
variable {e f : Expr}

theorem countP_operand_marked (h : ∀ m ∈ e.marked, m.1.Takes m.2) :
    e.marked.countP (·.1 = .operand) = e.words.countP (· ∉ arithmeticWords) := by
  rw [words, List.countP_map]
  refine List.countP_congr fun m hm => ?_
  simpa using (h m hm).operand_iff

/-- Trees of the same words have the same number of signs. -/
theorem countP_sign_eq (he : ∀ m ∈ e.marked, m.1.Takes m.2) (hf : ∀ m ∈ f.marked, m.1.Takes m.2)
    (hw : e.words = f.words) :
    e.marked.countP (·.1 = .sign) = f.marked.countP (·.1 = .sign) := by
  have hlen : e.marked.length = f.marked.length := by
    simpa [words] using congrArg List.length hw
  have hoperands := countP_operand_marked he
  rw [hw, ← countP_operand_marked hf] at hoperands
  -- what is neither an operand nor one of the operators, one less than operands, is a sign
  have hcount := e.length_marked
  have hcount' := f.length_marked
  omega

theorem minusIs_operator_iff (h : ∀ m ∈ e.marked, m.1.Takes m.2) :
    e.MinusIs .operator ↔ e.marked.countP (·.1 = .sign) = 0 := by
  rw [List.countP_eq_zero]
  refine forall₂_congr fun m hm => ?_
  obtain ⟨role, w⟩ := m
  have htakes := h _ hm
  cases role with
  | operand =>
    have hw : w ≠ "-" := by
      rintro rfl
      exact htakes.not_mem_of_operand (by decide)
    simp [hw]
  | sign =>
    obtain rfl : w = "-" := htakes
    simp
  | operator => simp

theorem minusIs_sign_iff (h : ∀ m ∈ e.marked, m.1.Takes m.2) :
    e.MinusIs .sign ↔ e.marked.countP (·.1 = .sign) = e.words.count "-" := by
  have hsigns : (e.marked.filter (·.2 = "-")).countP (·.1 = .sign) =
      e.marked.countP (·.1 = .sign) := by
    rw [List.countP_filter]
    refine List.countP_congr fun m hm => ?_
    have htakes := h m hm
    obtain ⟨role, w⟩ := m
    cases role <;> simp_all [WordRole.Takes]
  have hminus : (e.marked.filter (·.2 = "-")).length = e.words.count "-" := by
    rw [← List.countP_eq_length_filter, List.count, words, List.countP_map]
    exact List.countP_congr fun m _ => by simp
  rw [← hsigns, ← hminus, List.countP_eq_length]
  simp [MinusIs, List.mem_filter]

/-- Whether every `-` plays one role, and which, is seen in the words. -/
theorem minusIs_of_words_eq (he : ∀ m ∈ e.marked, m.1.Takes m.2)
    (hf : ∀ m ∈ f.marked, m.1.Takes m.2) (hw : e.words = f.words) {role : WordRole}
    (h : e.MinusIs role) : f.MinusIs role := by
  cases role with
  | operand =>
    -- a minus is no operand, so there is none in `e`, and none in the same words of `f`
    intro m hm hminus
    have hmem : "-" ∈ e.words := by
      rw [hw, ← hminus]
      exact List.mem_map_of_mem hm
    obtain ⟨m', hm', hminus'⟩ := List.mem_map.1 hmem
    have htakes := he m' hm'
    rw [h m' hm' hminus', hminus'] at htakes
    exact absurd (by decide) htakes.not_mem_of_operand
  | sign => rwa [minusIs_sign_iff hf, ← countP_sign_eq he hf hw, ← hw, ← minusIs_sign_iff he]
  | operator => rwa [minusIs_operator_iff hf, ← countP_sign_eq he hf hw, ← minusIs_operator_iff he]

/-- The words tell their roles if every `-` plays the same. -/
theorem MinusIs.roles_eq {role : WordRole} (h : e.MinusIs role)
    (he : ∀ m ∈ e.marked, m.1.Takes m.2) : e.roles = e.words.map (.ofWord role) := by
  rw [roles, words, List.map_map]
  exact List.map_congr_left fun m hm => (he m hm).eq_ofWord (h m hm)

theorem marked_eq_of_roles_eq (hw : e.words = f.words) (hr : e.roles = f.roles) :
    e.marked = f.marked := by
  rw [List.zip_of_prod hr hw]
  exact (List.zip_of_prod rfl rfl).symm

end

/-! ## What the text tells -/

/-- If two sources of arithmetic are written alike in reverse Polish notation, their trees are the
same up to groupings and lines exactly if each `-` has the same role in both. That is so, and the
values are the same whatever the words mean, if all of them have one role in one of the trees. -/
theorem bare_eq_iff_of_reversePolish_eq {a b : String} {e f : Expr}
    (ha : run [] a = (some e, [])) (hb : run [] b = (some f, [])) (he : e.Arithmetic)
    (hf : f.Arithmetic) (h : e.render .reversePolish = f.render .reversePolish) :
    (e.bare.unplaced = f.bare.unplaced ↔ e.roles = f.roles) ∧
      ∀ role, e.MinusIs role ∨ f.MinusIs role → e.bare.unplaced = f.bare.unplaced ∧
        ∀ (α : Type) (I : Interpretation α), I.value e = I.value f := by
  have hle : e.OfLexemes := ofLexemes_of_run (congrArg Prod.fst ha)
  have hlf : f.OfLexemes := ofLexemes_of_run (congrArg Prod.fst hb)
  have hte := takes_of_mem_marked he hle
  have htf := takes_of_mem_marked hf hlf
  have hw : e.words = f.words :=
    words_eq_of_reversePolish_eq (List.forall_mem_map.2 fun m hm => (hte m hm).space_not_mem)
      (List.forall_mem_map.2 fun m hm => (htf m hm).space_not_mem) h
  have hbare (hm : e.marked = f.marked) : e.bare.unplaced = f.bare.unplaced := by
    rw [← value_nodes he hle, ← value_nodes hf hlf, nodes.value_eq_of_marked_eq hm]
  refine ⟨⟨fun heq => ?_, fun hr => hbare (marked_eq_of_roles_eq hw hr)⟩, fun role hrole => ?_⟩
  · rw [roles, ← marked_bare_unplaced, heq, marked_bare_unplaced, roles]
  · have hme : e.MinusIs role := hrole.elim id (minusIs_of_words_eq htf hte hw.symm)
    have hmf : f.MinusIs role := minusIs_of_words_eq hte htf hw hme
    have hr : e.roles = f.roles := by rw [hme.roles_eq hte, hmf.roles_eq htf, hw]
    have hm := marked_eq_of_roles_eq hw hr
    exact ⟨hbare hm, fun α I => I.value_eq_of_marked_eq hm⟩

/-- Two layouts of one product, with other groupings and an operator on another line. -/
theorem bare_eq_iff_of_reversePolish_eq_product :
    let one : Expr := .literal (.number (.finite false .one))
    let two : Expr := .literal (.number (.finite false .two))
    let three : Expr := .literal (.number (.finite false .three))
    let op (k : TokenKind) (line : Nat) : Token := { Token.spelled k with line }
    let e : Expr := .binary (.grouping (.binary one (op .minus 1) two)) (op .star 1) three
    let f : Expr := .binary (.grouping (.binary (.grouping one) (op .minus 1) two)) (op .star 2)
      (.grouping three)
    run [] "(1 - 2) * 3" = (some e, []) ∧ run [] "((1) - 2)\n* (3)" = (some f, []) ∧
      e.Arithmetic ∧ f.Arithmetic ∧ e.render .reversePolish = f.render .reversePolish ∧
      e.MinusIs .operator ∧ e.roles = f.roles ∧ e.bare.unplaced = f.bare.unplaced := by
  intro one two three op e f
  have ha : run [] "(1 - 2) * 3" = (some e, []) := by decide +kernel
  have hb : run [] "((1) - 2)\n* (3)" = (some f, []) := by decide +kernel
  have he : e.Arithmetic := ⟨⟨⟨_, rfl⟩, by decide, ⟨_, rfl⟩⟩, by decide, ⟨_, rfl⟩⟩
  have hf : f.Arithmetic := ⟨⟨⟨_, rfl⟩, by decide, ⟨_, rfl⟩⟩, by decide, ⟨_, rfl⟩⟩
  have htext : e.render .reversePolish = f.render .reversePolish := by decide +kernel
  have hminus : e.MinusIs .operator := by
    unfold MinusIs
    decide +kernel
  obtain ⟨hroles, hone⟩ := bare_eq_iff_of_reversePolish_eq ha hb he hf htext
  have hbare := (hone .operator (.inl hminus)).1
  exact ⟨ha, hb, he, hf, htext, hminus, hroles.1 hbare, hbare⟩

/-- The negated difference and the difference of a negative number are written alike, though they
are other trees and other numbers. -/
theorem reversePolish_not_injective :
    let one : Expr := .literal (.number (.finite false .one))
    let two : Expr := .literal (.number (.finite false .two))
    let minus : Token := .spelled .minus
    let e : Expr := .unary minus (.grouping (.binary one minus two))
    let f : Expr := .binary one minus (.unary minus two)
    let integers : Interpretation Int :=
      ⟨fun w => Nat.ofDigitChars 10 w.toList 0, fun _ x => -x, fun _ x y => x - y⟩
    run [] "-(1 - 2)" = (some e, []) ∧ run [] "1 - -2" = (some f, []) ∧
      e.Arithmetic ∧ f.Arithmetic ∧
      e.render .reversePolish = "1 2 - -" ∧ f.render .reversePolish = "1 2 - -" ∧
      e.bare.unplaced ≠ f.bare.unplaced ∧ integers.value e = 1 ∧ integers.value f = 3 := by
  intro one two minus e f integers
  have he : e.Arithmetic := ⟨rfl, ⟨_, rfl⟩, by decide, ⟨_, rfl⟩⟩
  have hf : f.Arithmetic := ⟨⟨_, rfl⟩, by decide, rfl, ⟨_, rfl⟩⟩
  exact ⟨by decide +kernel, by decide +kernel, he, hf, by decide +kernel, by decide +kernel,
    nofun, by decide +kernel, by decide +kernel⟩

end Expr

end ExprSyntax
