import ExprSyntax.Proofs.Expr.MinusRoles

/-!
# Evaluating reverse Polish notation

Where no `-` is a sign, each word of the reverse Polish notation tells what it is: a number if it
reads as one, the sign `!`, or an operator. So the text alone is evaluated on a stack, word by word,
and what is left is the value of the tree (`evaluate_render`), whatever numbers, sign and operators
mean.

* Splitting the text at whitespace gives the words of the tree (`textWords_intercalate`,
  `isUnbroken_of_mem_words`).
* The words of a tree put its value on any stack (`Operations.run_words`).
-/

namespace ExprSyntax

/-! ## Words of a text -/

/-- The characters that are whitespace in Unicode. -/
def isSpace (c : Char) : Bool :=
  (9 ≤ c.toNat && c.toNat ≤ 13) || (0x2000 ≤ c.toNat && c.toNat ≤ 0x200a) ||
    c.toNat ∈ [0x20, 0x85, 0xa0, 0x1680, 0x2028, 0x2029, 0x202f, 0x205f, 0x3000]

/-- What stands between whitespace, in order. -/
def cutWords (cs : List Char) : List (List Char) :=
  (cs.splitOnP isSpace).filter (!·.isEmpty)

/-- The words of a text; between two of them there may be any whitespace. -/
def textWords (text : String) : List String :=
  (cutWords text.toList).map String.ofList

/-- The characters are a word: there is no whitespace among them. -/
def IsUnbroken (w : List Char) : Prop :=
  w ≠ [] ∧ ∀ c ∈ w, isSpace c = false

namespace IsUnbroken

variable {w : List Char}

theorem cutWords_eq (h : IsUnbroken w) : cutWords w = [w] := by
  rw [cutWords, List.splitOnP_eq_singleton h.2, List.filter_cons_of_pos (by simp [h.1]),
    List.filter_nil]

theorem cutWords_append (h : IsUnbroken w) (rest : List Char) :
    cutWords (w ++ ' ' :: rest) = w :: cutWords rest := by
  rw [cutWords, List.splitOnP_append_cons_of_forall_mem h.2 ' ' rfl,
    List.filter_cons_of_pos (by simp [h.1]), cutWords]

end IsUnbroken

theorem cutWords_intercalate {ws : List (List Char)} (h : ∀ w ∈ ws, IsUnbroken w) :
    cutWords ([' '].intercalate ws) = ws := by
  induction ws with
  | nil => rfl
  | cons w ws ih =>
    obtain ⟨hw, hws⟩ := List.forall_mem_cons.1 h
    cases ws with
    | nil => rw [List.intercalate_singleton, hw.cutWords_eq]
    | cons v vs =>
      rw [List.intercalate_cons_cons, List.append_assoc, List.singleton_append,
        hw.cutWords_append, ih hws]

theorem textWords_intercalate {ws : List String} (h : ∀ w ∈ ws, IsUnbroken w.toList) :
    textWords (String.intercalate " " ws) = ws := by
  have hcut : cutWords ([' '].intercalate (ws.map String.toList)) = ws.map String.toList :=
    cutWords_intercalate (List.forall_mem_map.2 h)
  have hspace : " ".toList = [' '] := rfl
  rw [textWords, String.toList_intercalate, hspace, hcut, List.map_map]
  simp

/-! ## Words of a tree -/

theorem isSpace_eq_false_of_isDigit {c : Char} (h : c.isDigit) : isSpace c = false := by
  simp [Char.isDigit, UInt32.le_iff_toNat_le] at h
  simp [isSpace]
  omega

/-- A number is written as one word. -/
theorem isUnbroken_text {x : Binary64} (hx : x ≠ .nan) : IsUnbroken x.text.toList := by
  constructor
  · intro hnil
    have hread := Binary64.ofText?_text_of_ne_nan hx
    rw [String.toList_eq_nil_iff.1 hnil] at hread
    cases hread
  · intro c hc
    rcases Binary64.mem_text hx c hc with hdigit | hmem
    · exact isSpace_eq_false_of_isDigit hdigit
    · have hall : ['-', '.', 'i', 'n', 'f'].all (!isSpace ·) = true := rfl
      simpa using List.all_eq_true.1 hall c hmem

theorem isUnbroken_of_mem {w : String} (h : w ∈ "!" :: arithmeticWords) : IsUnbroken w.toList := by
  have hall : ∀ w ∈ "!" :: arithmeticWords,
      w.toList.isEmpty = false ∧ w.toList.any isSpace = false := by decide
  simpa [IsUnbroken] using hall w h

namespace Expr

/-- The tree is made of numbers, groupings, the sign `!` and the operators `+`, `-`, `*`, `/`,
whatever the kinds of their tokens. -/
def Unsigned : Expr → Prop
  | literal v => ∃ x, v = .number x ∧ x ≠ .nan
  | grouping e => e.Unsigned
  | unary op e => op.lexeme = "!" ∧ e.Unsigned
  | binary l op r => l.Unsigned ∧ op.lexeme ∈ arithmeticWords ∧ r.Unsigned

theorem words_unary (op : Token) (e : Expr) : (unary op e).words = e.words ++ [op.lexeme] := by
  simp [words, marked]

theorem words_binary (l : Expr) (op : Token) (r : Expr) :
    (binary l op r).words = l.words ++ (r.words ++ [op.lexeme]) := by
  simp [words, marked]

theorem isUnbroken_of_mem_words {e : Expr} (h : e.Unsigned) :
    ∀ w ∈ e.words, IsUnbroken w.toList := by
  induction e with
  | literal v =>
    obtain ⟨x, rfl, hx⟩ := h
    exact List.forall_mem_singleton.2 (isUnbroken_text hx)
  | grouping e ih => exact ih h
  | unary op e ih =>
    obtain ⟨hop, he⟩ := h
    rw [words_unary, List.forall_mem_append, List.forall_mem_singleton, hop]
    exact ⟨ih he, isUnbroken_of_mem List.mem_cons_self⟩
  | binary l op r ihl ihr =>
    obtain ⟨hl, hop, hr⟩ := h
    rw [words_binary, List.forall_mem_append, List.forall_mem_append, List.forall_mem_singleton]
    exact ⟨ihl hl, ihr hr, isUnbroken_of_mem (List.mem_cons_of_mem _ hop)⟩

end Expr

/-! ## Values -/

universe u

/-- What numbers, the sign `!` and the four operators mean. -/
structure Operations (α : Type u) where
  number : Binary64 → α
  not : α → α
  add : α → α → α
  sub : α → α → α
  mul : α → α → α
  div : α → α → α

namespace Operations

variable {α : Type u} (S : Operations α)

/-- What an operator means, by its word. -/
def operator? : String → Option (α → α → α)
  | "+" => some S.add
  | "-" => some S.sub
  | "*" => some S.mul
  | "/" => some S.div
  | _ => none

/-- The value of a tree; a grouping has that of what is in it. -/
def value? : Expr → Option α
  | .literal (.number x) => some (S.number x)
  | .literal _ => none
  | .grouping e => value? e
  | .unary op e => if op.lexeme = "!" then (value? e).map S.not else none
  | .binary l op r =>
    match S.operator? op.lexeme, value? l, value? r with
    | some f, some x, some y => some (f x y)
    | _, _, _ => none

/-! ## The stack -/

/-- Takes the value on top, and puts what `f` makes of it in its place. -/
def onTop (f : α → α) : List α → Option (List α)
  | x :: stack => some (f x :: stack)
  | [] => none

/-- Takes the two values on top, the right operand first. -/
def onTopTwo (f : α → α → α) : List α → Option (List α)
  | y :: x :: stack => some (f x y :: stack)
  | _ => none

/-- One word: what reads as a number is pushed, all else takes its operands from the stack. -/
def step (stack : List α) (w : String) : Option (List α) :=
  match Binary64.ofText? w with
  | some x => some (S.number x :: stack)
  | none =>
    if w = "!" then onTop S.not stack
    else (S.operator? w).bind fun f => onTopTwo f stack

/-- The words in turn; nothing if one finds too few values or is none of arithmetic. -/
def run (words : List String) (stack : List α) : Option (List α) :=
  words.foldlM S.step stack

/-- What a text leaves on a stack that is empty at first. -/
def evaluate (text : String) : Option (List α) :=
  S.run (textWords text) []

section
variable {stack stack' : List α}

theorem run_append_of_run {ws : List String} (h : S.run ws stack = some stack')
    (vs : List String) : S.run (ws ++ vs) stack = S.run vs stack' := by
  rw [run, List.foldlM_append]
  exact congrArg (Option.bind · _) h

theorem run_singleton (w : String) : S.run [w] stack = S.step stack w := by
  simp [run]

theorem step_number {x : Binary64} (hx : x ≠ .nan) :
    S.step stack x.text = some (S.number x :: stack) := by
  simp only [step, Binary64.ofText?_text_of_ne_nan hx]

theorem step_not (x : α) : S.step (x :: stack) "!" = some (S.not x :: stack) := by
  have hread : Binary64.ofText? "!" = none := by decide
  simp only [step, hread, if_true]
  rfl

theorem exists_operator {w : String} (hw : w ∈ arithmeticWords) :
    ∃ f, S.operator? w = some f := by
  simp only [arithmeticWords, List.mem_cons, List.not_mem_nil, or_false] at hw
  rcases hw with rfl | rfl | rfl | rfl <;> exact ⟨_, rfl⟩

theorem step_operator {w : String} (hw : w ∈ arithmeticWords) {f : α → α → α}
    (hf : S.operator? w = some f) (x y : α) :
    S.step (y :: x :: stack) w = some (f x y :: stack) := by
  have hread : ∀ w ∈ arithmeticWords, Binary64.ofText? w = none ∧ w ≠ "!" := by decide
  obtain ⟨hnone, hne⟩ := hread w hw
  simp only [step, hnone, if_neg hne, hf]
  rfl

end

/-- The words of a tree put its value on the stack. -/
theorem run_words {e : Expr} (h : e.Unsigned) (stack : List α) :
    ∃ x, S.value? e = some x ∧ S.run e.words stack = some (x :: stack) := by
  induction e generalizing stack with
  | literal v =>
    obtain ⟨x, rfl, hx⟩ := h
    exact ⟨S.number x, rfl, (S.run_singleton _).trans (S.step_number hx)⟩
  | grouping e ih => exact ih h stack
  | unary op e ih =>
    obtain ⟨hop, he⟩ := h
    obtain ⟨x, hx, hrun⟩ := ih he stack
    refine ⟨S.not x, by rw [value?, if_pos hop, hx, Option.map_some], ?_⟩
    rw [Expr.words_unary, S.run_append_of_run hrun, run_singleton, hop, step_not]
  | binary l op r ihl ihr =>
    obtain ⟨hl, hop, hr⟩ := h
    obtain ⟨x, hx, hleft⟩ := ihl hl stack
    obtain ⟨y, hy, hright⟩ := ihr hr (x :: stack)
    obtain ⟨f, hf⟩ := S.exists_operator hop
    refine ⟨f x y, by simp only [value?, hf, hx, hy], ?_⟩
    rw [Expr.words_binary, S.run_append_of_run hleft, S.run_append_of_run hright, run_singleton,
      S.step_operator hop hf]

end Operations

/-- The reverse Polish notation of a tree in which no `-` is a sign evaluates to the value of the
tree, and nothing else is left on the stack. -/
theorem evaluate_render {α : Type u} (S : Operations α) (e : Expr) (h : e.Unsigned) :
    ∃ x, S.value? e = some x ∧ S.evaluate (e.render .reversePolish) = some [x] := by
  obtain ⟨x, hx, hrun⟩ := S.run_words h []
  refine ⟨x, hx, ?_⟩
  rw [Operations.evaluate, Expr.render, Expr.reversePolish_eq,
    textWords_intercalate (Expr.isUnbroken_of_mem_words h), hrun]

/-- A quotient of a difference from a negative number, with values that show how they came about. -/
theorem evaluate_render_quotient :
    let op (w : String) : Token := ⟨.identifier, w, none, 1⟩
    let half : Expr := .literal (.number (.finite true .half))
    let two : Expr := .literal (.number (.finite false .two))
    let e : Expr := .binary (.grouping (.binary half (op "-") two)) (op "/")
      (.unary (op "!") (.literal (.number (.infinite false))))
    let node (w x y : String) : String := "[" ++ x ++ w ++ y ++ "]"
    let S : Operations String :=
      ⟨Binary64.text, fun x => "!" ++ x, node "+", node "-", node "*", node "/"⟩
    e.Unsigned ∧ e.render .reversePolish = "-0.5 2 - inf ! /" ∧
      S.value? e = some "[[-0.5-2]/!inf]" ∧
      S.evaluate "-0.5 2 - inf ! /" = some ["[[-0.5-2]/!inf]"] := by
  intro op half two e node S
  have hdifference : (Expr.grouping (.binary half (op "-") two)).Unsigned :=
    ⟨⟨_, rfl, nofun⟩, by decide, ⟨_, rfl, nofun⟩⟩
  have he : e.Unsigned := ⟨hdifference, by decide, rfl, ⟨_, rfl, nofun⟩⟩
  have htext : e.render .reversePolish = "-0.5 2 - inf ! /" := by decide +kernel
  have hvalue : S.value? e = some "[[-0.5-2]/!inf]" := by decide +kernel
  obtain ⟨x, hx, heval⟩ := evaluate_render S e he
  rw [htext] at heval
  obtain rfl : x = "[[-0.5-2]/!inf]" := Option.some.inj (hx.symm.trans hvalue)
  exact ⟨he, htext, hvalue, heval⟩

end ExprSyntax
