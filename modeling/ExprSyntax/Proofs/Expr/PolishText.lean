import ExprSyntax.Expr.Polish
import ExprSyntax.Proofs.Expr.Phrase
import ExprSyntax.Proofs.Parser.NestingBound
import ExprSyntax.Proofs.Parser.Respelling
import ExprSyntax.Proofs.Source.Lexemes

/-!
# The text of the Polish notation

A word of the Polish notation ends where a space or a closing parenthesis follows
(`IsWordText.cut`), so the text of a tree tells where each of its subtrees ends, whatever stands
behind the tree (`Expr.Legible.polish_cut`). Two trees without strings are written alike only if
they differ in no more than what is not written of their operators (`Expr.polish_eq_iff`); the
strings are left out since nothing marks them in the notation.
-/

namespace ExprSyntax

/-! ## Words -/

/-- No character is one that parts words in the notation. -/
def IsWordText (cs : List Char) : Prop :=
  ∀ c ∈ cs, c ≠ ' ' ∧ c ≠ '(' ∧ c ≠ ')'

/-- A word, or a tree, can end in front of these characters. -/
def EndsWord (rest : List Char) : Prop :=
  ∀ c ∈ rest.head?, c = ' ' ∨ c = ')'

theorem endsWord_nil : EndsWord [] := nofun

theorem endsWord_space (rest : List Char) : EndsWord (' ' :: rest) := by
  simp [EndsWord]

theorem endsWord_close (rest : List Char) : EndsWord (')' :: rest) := by
  simp [EndsWord]

namespace IsWordText

variable {w w' rest rest' : List Char}

theorem eq_nil_of_endsWord (hw : IsWordText w) (h : EndsWord (w ++ rest)) : w = [] := by
  cases w with
  | nil => rfl
  | cons c w =>
    obtain ⟨hspace, -, hclose⟩ := hw c List.mem_cons_self
    exact absurd (h c rfl) (not_or.2 ⟨hspace, hclose⟩)

/-- Where a word ends is told by what the characters are. -/
theorem cut (hw : IsWordText w) (hw' : IsWordText w') (hr : EndsWord rest) (hr' : EndsWord rest')
    (h : w ++ rest = w' ++ rest') : w = w' ∧ rest = rest' := by
  rcases List.append_eq_append_iff.1 h with ⟨more, rfl, rfl⟩ | ⟨more, rfl, rfl⟩
  · have hmore : IsWordText more := fun c hc => hw' c (List.mem_append_right w hc)
    obtain rfl := hmore.eq_nil_of_endsWord hr
    exact ⟨(List.append_nil w).symm, rfl⟩
  · have hmore : IsWordText more := fun c hc => hw c (List.mem_append_right w' hc)
    obtain rfl := hmore.eq_nil_of_endsWord hr'
    exact ⟨List.append_nil w', rfl⟩

/-- What is not in parentheses does not begin with one. -/
theorem append_ne_open (hw : IsWordText w) (hr : EndsWord rest) (cs : List Char) :
    w ++ rest ≠ '(' :: cs := by
  intro h
  cases w with
  | nil =>
    have hopen : '(' = ' ' ∨ '(' = ')' := hr '(' (congrArg List.head? h)
    exact absurd hopen (by decide)
  | cons c w => exact (hw c List.mem_cons_self).2.1 (List.cons.inj h).1

/-- A node tells its first word. -/
theorem cut_node (hw : IsWordText w) (hw' : IsWordText w')
    (h : '(' :: (w ++ ' ' :: rest) = '(' :: (w' ++ ' ' :: rest')) : w = w' ∧ rest = rest' := by
  obtain ⟨rfl, hrest⟩ := hw.cut hw' (endsWord_space _) (endsWord_space _) (List.cons.inj h).2
  exact ⟨rfl, (List.cons.inj hrest).2⟩

end IsWordText

/-! ## Legible trees -/

/-- The value is no string, and a number only if it is one. -/
def Literal.Legible : Literal → Prop
  | number x => x ≠ .nan
  | string _ => False
  | bool _ => True
  | nil => True

/-- The lexeme is a word, and not the word of groupings. -/
def Token.Legible (t : Token) : Prop :=
  IsWordText t.lexeme.toList ∧ t.lexeme ≠ "group"

/-- What is written of an operator. -/
def Token.lexemeOnly (t : Token) : Token :=
  ⟨.identifier, t.lexeme, none, 0⟩

theorem isWordText_group : IsWordText "group".toList := by
  simp [IsWordText]

namespace Token.Legible

variable {op op' : Token} {rest rest' : List Char}

theorem cut_node (h : op.Legible) (h' : op'.Legible)
    (heq : '(' :: (op.lexeme.toList ++ ' ' :: rest) = '(' :: (op'.lexeme.toList ++ ' ' :: rest')) :
    op.lexemeOnly = op'.lexemeOnly ∧ rest = rest' := by
  obtain ⟨hword, hrest⟩ := h.1.cut_node h'.1 heq
  exact ⟨by rw [lexemeOnly, lexemeOnly, String.toList_inj.1 hword], hrest⟩

theorem node_ne_group (h : op.Legible) :
    '(' :: (op.lexeme.toList ++ ' ' :: rest) ≠ '(' :: ("group".toList ++ ' ' :: rest') := fun heq =>
  h.2 (String.toList_inj.1 (h.1.cut_node isWordText_group heq).1)

end Token.Legible

namespace Literal

/-- The value that is no string and has this text. -/
def ofText? (text : String) : Option Literal :=
  if text = "true" then some (bool true)
  else if text = "false" then some (bool false)
  else if text = "nil" then some nil
  else (Binary64.ofText? text).map number

variable {v w : Literal}

theorem Legible.ofText?_text (h : v.Legible) : ofText? v.text = some v := by
  cases v with
  | number x =>
    have hread := Binary64.ofText?_text_of_ne_nan h
    have hname : ∀ name ∈ ["true", "false", "nil"], x.text ≠ name := by
      have hnone : ∀ name ∈ ["true", "false", "nil"], Binary64.ofText? name = none := by
        decide
      rintro name hmem rfl
      rw [hnone _ hmem] at hread
      cases hread
    rw [text, ofText?, if_neg (hname _ (by decide)), if_neg (hname _ (by decide)),
      if_neg (hname _ (by decide)), hread, Option.map_some]
  | string s => exact absurd h id
  | bool b => cases b <;> decide
  | nil => decide

theorem Legible.text_injective (hv : v.Legible) (hw : w.Legible) (h : v.text = w.text) : v = w := by
  have hread := hv.ofText?_text
  rw [h, hw.ofText?_text] at hread
  exact (Option.some.inj hread).symm

theorem Legible.isWordText (h : v.Legible) : IsWordText v.text.toList := by
  cases v with
  | number x =>
    intro c hc
    rcases Binary64.mem_text h c hc with hdigit | hmem
    · refine ⟨?_, ?_, ?_⟩ <;>
      · rintro rfl
        exact absurd hdigit (by decide)
    · have hall : ∀ c ∈ ['-', '.', 'i', 'n', 'f'], c ≠ ' ' ∧ c ≠ '(' ∧ c ≠ ')' := by simp
      exact hall c hmem
  | string s => exact absurd h id
  | bool b => cases b <;> simp [IsWordText, text]
  | nil => simp [IsWordText, text]

end Literal

namespace Expr

/-- All words of the notation of the tree can be told from each other. -/
def Legible : Expr → Prop
  | literal v => v.Legible
  | grouping e => e.Legible
  | unary op e => op.Legible ∧ e.Legible
  | binary l op r => l.Legible ∧ op.Legible ∧ r.Legible

/-! ## The characters of a tree -/

theorem flatMap_polishOnto (e : Expr) (rest : List String) :
    (e.polishOnto rest).flatMap String.toList =
      e.polish.toList ++ rest.flatMap String.toList := by
  have h := e.polishOnto_append [] rest
  rw [List.nil_append] at h
  rw [h, List.flatMap_append, polish, String.toList_join]

theorem toList_polish_literal (v : Literal) : (literal v).polish.toList = v.text.toList := by
  simp [polish, polishOnto]

theorem toList_polish_grouping (e : Expr) (rest : List Char) : (grouping e).polish.toList ++ rest =
    '(' :: ("group".toList ++ ' ' :: (e.polish.toList ++ ')' :: rest)) := by
  rw [polish, polishOnto]
  simp [flatMap_polishOnto]

theorem toList_polish_unary (op : Token) (e : Expr) (rest : List Char) :
    (unary op e).polish.toList ++ rest =
      '(' :: (op.lexeme.toList ++ ' ' :: (e.polish.toList ++ ')' :: rest)) := by
  rw [polish, polishOnto]
  simp [flatMap_polishOnto]

theorem toList_polish_binary (l : Expr) (op : Token) (r : Expr) (rest : List Char) :
    (binary l op r).polish.toList ++ rest =
      '(' :: (op.lexeme.toList ++ ' ' :: (l.polish.toList ++ ' ' :: (r.polish.toList ++
        ')' :: rest))) := by
  rw [polish, polishOnto]
  simp [flatMap_polishOnto]

/-! ## Cutting -/

/-- Only a leaf is written as a word. -/
theorem Legible.literal_cut {v : Literal} {f : Expr} (hv : v.Legible) (hf : f.Legible)
    {rest rest' : List Char} (hr : EndsWord rest) (hr' : EndsWord rest')
    (h : (literal v).polish.toList ++ rest = f.polish.toList ++ rest') :
    literal v = f ∧ rest = rest' := by
  have hword := hv.isWordText
  rw [toList_polish_literal] at h
  cases f with
  | literal w =>
    have hw : w.Legible := hf
    rw [toList_polish_literal] at h
    obtain ⟨htext, hrest⟩ := hword.cut hw.isWordText hr hr' h
    exact ⟨congrArg literal (hv.text_injective hw (String.toList_inj.1 htext)), hrest⟩
  | grouping f =>
    rw [toList_polish_grouping] at h
    exact absurd h (hword.append_ne_open hr _)
  | unary op f =>
    rw [toList_polish_unary] at h
    exact absurd h (hword.append_ne_open hr _)
  | binary l op r =>
    rw [toList_polish_binary] at h
    exact absurd h (hword.append_ne_open hr _)

/-- A tree and what stands behind it are told by their text. -/
theorem Legible.polish_cut {e f : Expr} (he : e.Legible) (hf : f.Legible) {rest rest' : List Char}
    (hr : EndsWord rest) (hr' : EndsWord rest')
    (h : e.polish.toList ++ rest = f.polish.toList ++ rest') :
    e.mapOps Token.lexemeOnly = f.mapOps Token.lexemeOnly ∧ rest = rest' := by
  -- by induction on the one tree; the other has another text if its root is another
  induction e generalizing f rest rest' with
  | literal v =>
    obtain ⟨rfl, hrest⟩ := literal_cut he hf hr hr' h
    exact ⟨rfl, hrest⟩
  | grouping e ih =>
    cases f with
    | literal w => cases (literal_cut hf he hr' hr h.symm).1
    | grouping f =>
      rw [toList_polish_grouping, toList_polish_grouping] at h
      obtain ⟨-, h⟩ := isWordText_group.cut_node isWordText_group h
      obtain ⟨htree, hrest⟩ := ih he (f := f) hf (endsWord_close _) (endsWord_close _) h
      exact ⟨congrArg grouping htree, (List.cons.inj hrest).2⟩
    | unary op f =>
      rw [toList_polish_grouping, toList_polish_unary] at h
      exact absurd h hf.1.node_ne_group.symm
    | binary l op r =>
      rw [toList_polish_grouping, toList_polish_binary] at h
      exact absurd h hf.2.1.node_ne_group.symm
  | unary op e ih =>
    cases f with
    | literal w => cases (literal_cut hf he hr' hr h.symm).1
    | grouping f =>
      rw [toList_polish_unary, toList_polish_grouping] at h
      exact absurd h he.1.node_ne_group
    | unary op' f =>
      rw [toList_polish_unary, toList_polish_unary] at h
      obtain ⟨hsame, h⟩ := he.1.cut_node hf.1 h
      obtain ⟨htree, hrest⟩ := ih he.2 hf.2 (endsWord_close _) (endsWord_close _) h
      exact ⟨congrArg₂ unary hsame htree, (List.cons.inj hrest).2⟩
    | binary l op' r =>
      -- behind the first operand the one node ends and the other goes on
      rw [toList_polish_unary, toList_polish_binary] at h
      obtain ⟨-, h⟩ := he.1.cut_node hf.2.1 h
      obtain ⟨-, hrest⟩ := ih he.2 hf.1 (endsWord_close _) (endsWord_space _) h
      exact absurd (List.cons.inj hrest).1 (by decide)
  | binary l op r ihl ihr =>
    cases f with
    | literal w => cases (literal_cut hf he hr' hr h.symm).1
    | grouping f =>
      rw [toList_polish_binary, toList_polish_grouping] at h
      exact absurd h he.2.1.node_ne_group
    | unary op' f =>
      rw [toList_polish_binary, toList_polish_unary] at h
      obtain ⟨-, h⟩ := he.2.1.cut_node hf.1 h
      obtain ⟨-, hrest⟩ := ihl he.1 hf.2 (endsWord_space _) (endsWord_close _) h
      exact absurd (List.cons.inj hrest).1 (by decide)
    | binary l' op' r' =>
      obtain ⟨hl, hop, hright⟩ := he
      obtain ⟨hl', hop', hright'⟩ := hf
      rw [toList_polish_binary, toList_polish_binary] at h
      obtain ⟨hsame, h⟩ := hop.cut_node hop' h
      obtain ⟨hleft, h⟩ := ihl hl hl' (endsWord_space _) (endsWord_space _) h
      obtain ⟨htree, hrest⟩ :=
        ihr hright hright' (endsWord_close _) (endsWord_close _) (List.cons.inj h).2
      refine ⟨?_, (List.cons.inj hrest).2⟩
      rw [mapOps, mapOps, hleft, hsame, htree]

theorem polish_mapOps_lexemeOnly (e : Expr) : (e.mapOps Token.lexemeOnly).polish = e.polish :=
  polish_mapOps (f := Token.lexemeOnly) (fun _ => rfl) e

/-! ## Trees of sources -/

/-- No value in the tree is a string. -/
def Stringless : Expr → Prop
  | literal v => ∀ s, v ≠ .string s
  | grouping e => e.Stringless
  | unary _ e => e.Stringless
  | binary l _ r => l.Stringless ∧ r.Stringless

/-- The spelling of a sign or an operator is a word. -/
theorem legible_of_plain {op : Token} (h : op.Plain)
    (hk : op.kind = .bang ∨ 0 < op.kind.tightness) : op.Legible := by
  have hall : ∀ k ∈ TokenKind.all, k = .bang ∨ 0 < k.tightness →
      k.spelling?.getD "" ∈ ["!", "!=", "==", "<", "<=", ">", ">=", "-", "+", "/", "*"] := by
    decide
  have hmem := hall op.kind op.kind.mem_all hk
  have hword : ∀ w ∈ ["!", "!=", "==", "<", "<=", ">", ">=", "-", "+", "/", "*"],
      IsWordText w.toList ∧ w ≠ "group" := by
    simp [IsWordText]
  rw [h.1] at hmem
  exact hword _ hmem

/-- A tree of lexemes is legible if it is the tree of a phrase and has no strings. -/
theorem OfLexemes.legible {e : Expr} (h : e.OfLexemes) (hs : e.Shaped) (hv : e.Stringless) :
    e.Legible := by
  induction e with
  | literal v =>
    cases v with
    | number x =>
      show x ≠ .nan
      rintro rfl
      obtain ⟨m, hm⟩ | hinfinite := h
      · cases hm
      · cases hinfinite
    | string s => exact hv s rfl
    | bool | nil => trivial
  | grouping e ih => exact ih h hs hv
  | unary op e ih =>
    refine ⟨legible_of_plain h.1 ?_, ih h.2 hs.2.2 hv⟩
    rcases hs.1 with hk | hk
    · exact .inl hk
    · exact .inr (hk ▸ by decide)
  | binary l op r ihl ihr =>
    obtain ⟨hpos, -, -, hl, hr⟩ := hs
    exact ⟨ihl h.1 hl hv.1, legible_of_plain h.2.1 (.inr hpos), ihr h.2.2 hr hv.2⟩

theorem legible_of_parseWithin {m : Nat} {source : String} {e : Expr}
    (h : (Parser.parseWithin m (scan source).tokens).1 = .ok e) (hv : e.Stringless) :
    e.Legible := by
  have hparse : (Parser.ofTokens (scan source).tokens m).parse = (.ok e, _) := Prod.ext h rfl
  obtain ⟨_, -, he, -⟩ := Parser.derives_of_parse hparse
  exact (Parser.ofLexemes_of_parse hparse fun _ => lexical_of_mem_ahead).legible he.shaped.1 hv

/-- Two legible trees are written alike exactly if they differ in no more than kinds, values and
lines of their operators. Legible are all trees without strings that are parsed from a source. -/
theorem polish_eq_iff :
    (∀ e f : Expr, e.Legible → f.Legible →
      (e.render .polish = f.render .polish ↔
        e.mapOps Token.lexemeOnly = f.mapOps Token.lexemeOnly)) ∧
    ∀ m source e, (Parser.parseWithin m (scan source).tokens).1 = .ok e → e.Stringless →
      e.Legible := by
  refine ⟨fun e f he hf => ⟨fun h => ?_, fun h => ?_⟩, fun _ _ _ => legible_of_parseWithin⟩
  · have htext : e.polish.toList ++ [] = f.polish.toList ++ [] :=
      congrArg (String.toList · ++ []) h
    exact (he.polish_cut hf endsWord_nil endsWord_nil htext).1
  · show e.polish = f.polish
    rw [← e.polish_mapOps_lexemeOnly, h, f.polish_mapOps_lexemeOnly]

/-- The negated difference and the difference of a negated value, which the reverse Polish notation
writes alike, differ in Polish notation. -/
theorem polish_ne_of_roles_ne :
    let minus : Token := .spelled .minus
    let e : Expr := .unary minus (.grouping (.binary (.literal (.bool true)) minus (.literal .nil)))
    let f : Expr := .binary (.literal (.bool true)) minus (.unary minus (.literal .nil))
    e.Legible ∧ f.Legible ∧ e.render .reversePolish = f.render .reversePolish ∧
      e.render .polish ≠ f.render .polish := by
  intro minus e f
  have hminus : minus.Legible := legible_of_plain ⟨rfl, rfl⟩ (.inr (by decide))
  have he : e.Legible := ⟨hminus, trivial, hminus, trivial⟩
  have hf : f.Legible := ⟨trivial, hminus, hminus, trivial⟩
  refine ⟨he, hf, rfl, fun h => ?_⟩
  have hsame := (polish_eq_iff.1 e f he hf).1 h
  cases hsame

end Expr

end ExprSyntax
