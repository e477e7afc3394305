import ExprSyntax.Proofs.Expr.Phrase
import ExprSyntax.Proofs.Parser.NestingBound

/-!
# The depth of a tree that is read

A tree grows deeper by a grouping, by a sign and by an operator. The first two are nesting levels,
and the bound on nesting limits them; operators of one level that follow each other make a chain of
left operands, which no bound limits. Between two nesting levels a path goes through at most four
chains, one for each level of operators, so the bound and the longest chain together limit the depth
(`Shaped.depth_le`). The limit is reached (`exists_parse_of_depth`), so no bound on nesting limits
the depth by itself (`not_exists_depth_bound`).
-/

namespace ExprSyntax

theorem TokenKind.tightness_le (k : TokenKind) : k.tightness ≤ 4 := by
  cases k <;> decide

namespace Expr

/-- The number of operators of tightness `t` from the root down along the left operands. -/
def chain (t : Nat) : Expr → Nat
  | binary l op _ => if op.kind.tightness = t then l.chain t + 1 else 0
  | literal _ | grouping _ | unary _ _ => 0

/-- The number of operators in the longest chain of one level. -/
def longestChain : Expr → Nat
  | literal _ => 0
  | grouping e => e.longestChain
  | unary _ e => e.longestChain
  | binary l op r => max (l.chain op.kind.tightness + 1) (max l.longestChain r.longestChain)

/-- In `1 - 2 - 3 * 4 == 5` two differences are a chain. -/
example :
    let op (k : TokenKind) : Token := ⟨k, "", none, 1⟩
    let difference : Expr := .binary (.literal .nil) (op .minus) (.literal .nil)
    let product : Expr := .binary (.literal .nil) (op .star) (.literal .nil)
    let e : Expr :=
      .binary (.binary difference (op .minus) product) (op .equalEqual) (.literal .nil)
    e.chain 1 = 1 ∧ e.longestChain = 2 ∧ e.depth = 4 := by
  decide

/-! ## What limits the depth -/

theorem chain_le_longestChain (e : Expr) (t : Nat) : e.chain t ≤ e.longestChain := by
  cases e with
  | binary l op r =>
    unfold chain longestChain
    split
    · rename_i ht
      rw [ht]
      exact Nat.le_max_left _ _
    · exact Nat.zero_le _
  | literal | grouping | unary => exact Nat.zero_le _

/-- What binds tighter than `t` has chains of the levels behind `t` only, with `k` operators
each. -/
theorem chain_add_le {e : Expr} {t k : Nat} (ht : t < e.tightness) (hk : e.longestChain ≤ k) :
    e.chain e.tightness + (4 - e.tightness) * k ≤ (4 - t) * k := by
  cases e with
  | binary l op r =>
    have hchain := chain_le_longestChain (binary l op r) op.kind.tightness
    have hlevels : (4 - op.kind.tightness + 1) * k ≤ (4 - t) * k := by
      have hlt : t < op.kind.tightness := ht
      have hle := op.kind.tightness_le
      exact Nat.mul_le_mul_right k (by omega)
    rw [Nat.succ_mul] at hlevels
    show (binary l op r).chain op.kind.tightness + (4 - op.kind.tightness) * k ≤ (4 - t) * k
    omega
  | literal | grouping | unary => simp [chain, tightness]

/-- All chains outside of the nesting levels are four at most. -/
theorem Shaped.depth_le_succ_mul {e : Expr} (h : e.Shaped) {m k : Nat} (hk : e.longestChain ≤ k)
    (hd : e.depth ≤ m * (4 * k + 1) + (e.chain e.tightness + (4 - e.tightness) * k) + 1) :
    e.depth ≤ (m + 1) * (4 * k + 1) := by
  have hchains : e.chain e.tightness + (4 - e.tightness) * k ≤ 4 * k :=
    chain_add_le (t := 0) h.le_tightness hk
  rw [Nat.succ_mul]
  omega

/-- Each nesting level has four chains inside, and outside of all of them are the chain at the root
and one of each tighter level. -/
theorem Shaped.depth_le_chain {e : Expr} (h : e.Shaped) {m k : Nat} (hm : e.nesting ≤ m)
    (hk : e.longestChain ≤ k) :
    e.depth ≤ m * (4 * k + 1) + (e.chain e.tightness + (4 - e.tightness) * k) + 1 := by
  induction e generalizing m with
  | literal v => exact Nat.le_add_left 1 _
  | grouping e ih =>
    obtain ⟨m, rfl⟩ := Nat.exists_eq_add_one.2 (Nat.lt_of_lt_of_le (Nat.succ_pos _) hm)
    have he : e.Shaped := h
    have hinside := he.depth_le_succ_mul hk (ih he (Nat.le_of_succ_le_succ hm) hk)
    show 1 + e.depth ≤ _
    omega
  | unary op e ih =>
    obtain ⟨m, rfl⟩ := Nat.exists_eq_add_one.2 (Nat.lt_of_lt_of_le (Nat.succ_pos _) hm)
    have he : e.Shaped := h.2.2
    have hinside := he.depth_le_succ_mul hk (ih he (Nat.le_of_succ_le_succ hm) hk)
    show 1 + e.depth ≤ _
    omega
  | binary l op r ihl ihr =>
    obtain ⟨hpos, hleft, hright, hl, hr⟩ := h
    obtain ⟨hml, hmr⟩ := Nat.max_le.1 hm
    obtain ⟨-, hkl, hkr⟩ : _ ∧ l.longestChain ≤ k ∧ r.longestChain ≤ k := by
      simpa only [longestChain, Nat.max_le] using hk
    have hdl := ihl hl hml hkl
    have hdr := ihr hr hmr hkr
    have hroot : (binary l op r).chain op.kind.tightness = l.chain op.kind.tightness + 1 :=
      if_pos rfl
    -- a left operand of the same level goes on with the chain, a tighter one begins another
    have hchainl : l.chain l.tightness + (4 - l.tightness) * k ≤
        l.chain op.kind.tightness + (4 - op.kind.tightness) * k := by
      rcases Nat.eq_or_lt_of_le hleft with heq | hlt
      · rw [← heq]
      · exact Nat.le_add_left_of_le (chain_add_le hlt hkl)
    have hchainr := chain_add_le hright hkr
    show 1 + max l.depth r.depth ≤ m * (4 * k + 1) +
      ((binary l op r).chain op.kind.tightness + (4 - op.kind.tightness) * k) + 1
    rw [hroot]
    omega

/-- The nesting and the longest chain of a shaped tree limit its depth. -/
theorem Shaped.depth_le {e : Expr} (h : e.Shaped) {m k : Nat} (hm : e.nesting ≤ m)
    (hk : e.longestChain ≤ k) : e.depth ≤ (m + 1) * (4 * k + 1) :=
  h.depth_le_succ_mul hk (h.depth_le_chain hm hk)

/-! ## Trees of every depth -/

/-- The tree with `n` operators behind it, each with `nil` on its right. -/
def extend (op : Token) (e : Expr) : Nat → Expr
  | 0 => e
  | n + 1 => binary (e.extend op n) op (literal .nil)

/-- The tree with `n` operators of each level behind it, the tightest first. -/
def extendAll (n : Nat) (e : Expr) : Expr :=
  (((e.extend (.spelled .star) n).extend (.spelled .plus) n).extend (.spelled .less) n).extend
    (.spelled .equalEqual) n

/-- Groups nested `m` times, with `n` operators of each level at each nesting level. -/
def deep (n : Nat) : (m : Nat) → Expr
  | 0 => extendAll n (literal .nil)
  | m + 1 => extendAll n (grouping (deep n m))

theorem depth_pos (e : Expr) : 0 < e.depth := by
  cases e with
  | literal => exact Nat.one_pos
  | grouping | unary | binary => exact Nat.lt_of_lt_of_le Nat.one_pos (Nat.le_add_right 1 _)

theorem depth_extend (op : Token) (e : Expr) (n : Nat) : (e.extend op n).depth = e.depth + n := by
  induction n with
  | zero => rfl
  | succ n ih =>
    have hpos := e.depth_pos
    show 1 + max (e.extend op n).depth 1 = e.depth + (n + 1)
    omega

theorem nesting_extend (op : Token) (e : Expr) (n : Nat) :
    (e.extend op n).nesting = e.nesting := by
  induction n with
  | zero => rfl
  | succ n ih => exact (Nat.max_zero _).trans ih

theorem depth_extendAll (n : Nat) (e : Expr) : (extendAll n e).depth = e.depth + 4 * n := by
  simp only [extendAll, depth_extend]
  omega

theorem nesting_extendAll (n : Nat) (e : Expr) : (extendAll n e).nesting = e.nesting := by
  simp only [extendAll, nesting_extend]

theorem depth_deep (n m : Nat) : (deep n m).depth = (m + 1) * (4 * n + 1) := by
  induction m with
  | zero =>
    show (extendAll n _).depth = _
    rw [depth_extendAll, Nat.one_mul]
    exact Nat.add_comm 1 _
  | succ m ih =>
    have hlevel : (m + 1 + 1) * (4 * n + 1) = (m + 1) * (4 * n + 1) + (4 * n + 1) :=
      Nat.succ_mul _ _
    show (extendAll n _).depth = _
    rw [depth_extendAll, hlevel, ← ih]
    show 1 + (deep n m).depth + 4 * n = _
    omega

theorem nesting_deep (n m : Nat) : (deep n m).nesting = m := by
  induction m with
  | zero => exact nesting_extendAll n _
  | succ m ih => exact (nesting_extendAll n _).trans (congrArg (· + 1) ih)

/-- Shaped, binding at least as tightly as `t`, and with chains of at most `k` operators. -/
structure Limited (e : Expr) (t k : Nat) : Prop where
  shaped : e.Shaped
  le_tightness : t ≤ e.tightness
  longestChain_le : e.longestChain ≤ k

theorem chain_eq_zero {e : Expr} {t : Nat} (h : t < e.tightness) : e.chain t = 0 := by
  cases e with
  | binary l op r => exact if_neg (Nat.ne_of_gt h)
  | literal | grouping | unary => rfl

theorem chain_extend {op : Token} {e : Expr} (h : op.kind.tightness < e.tightness) (n : Nat) :
    (e.extend op n).chain op.kind.tightness = n := by
  induction n with
  | zero => exact chain_eq_zero h
  | succ n ih => exact (if_pos rfl).trans (congrArg (· + 1) ih)

/-- A chain behind what binds tighter is a chain of its own. -/
theorem Limited.extend {e : Expr} {op : Token} {k : Nat} (h : e.Limited (op.kind.tightness + 1) k)
    (hop : 0 < op.kind.tightness) {n : Nat} (hn : n ≤ k) :
    (e.extend op n).Limited op.kind.tightness k := by
  induction n with
  | zero => exact ⟨h.shaped, Nat.le_of_succ_le h.le_tightness, h.longestChain_le⟩
  | succ n ih =>
    obtain ⟨hs, ht, hk⟩ := ih (Nat.le_of_succ_le hn)
    have hright : op.kind.tightness < (literal .nil).tightness :=
      Nat.lt_of_le_of_lt op.kind.tightness_le (by decide)
    refine ⟨⟨hop, ht, hright, hs, trivial⟩, Nat.le_refl _, ?_⟩
    show max ((e.extend op n).chain op.kind.tightness + 1) (max (e.extend op n).longestChain 0) ≤ k
    rw [chain_extend h.le_tightness]
    omega

theorem Limited.extendAll {e : Expr} {k : Nat} (h : e.Limited 5 k) :
    (e.extendAll k).Limited 1 k := by
  have hk := Nat.le_refl k
  have hstar : (e.extend (.spelled .star) k).Limited 4 k := h.extend (by decide) hk
  have hplus : ((e.extend (.spelled .star) k).extend (.spelled .plus) k).Limited 3 k :=
    hstar.extend (by decide) hk
  have hless : (((e.extend (.spelled .star) k).extend (.spelled .plus) k).extend
      (.spelled .less) k).Limited 2 k := hplus.extend (by decide) hk
  exact hless.extend (by decide) hk

theorem limited_deep (k m : Nat) : (deep k m).Limited 1 k := by
  induction m with
  | zero => exact Limited.extendAll ⟨trivial, by decide, Nat.zero_le k⟩
  | succ m ih => exact Limited.extendAll ⟨ih.shaped, Nat.le_succ 5, ih.longestChain_le⟩

end Expr

/-! ## Parsing -/

namespace Parser

/-- The tokens of a shaped tree are parsed as the tree within every bound on its nesting. -/
theorem parseWithin_tokens {e : Expr} (h : e.Shaped) {m : Nat} (hm : e.nesting ≤ m) :
    (parseWithin m (e.tokens ++ [Token.eof 1])).1 = .ok e := by
  have hclosed : Token.closeList (e.tokens ++ [Token.eof 1]) = e.tokens ++ [Token.eof 1] := by
    simp [Token.closeList, Token.eof]
  have hend : (Token.eof 1).kind ∉ TokenKind.binaryOperators := by decide
  obtain ⟨q, hq, -⟩ := parse_of_derives ((ahead_ofTokens _ m).trans hclosed) h.derives hm hend
  exact congrArg Prod.fst hq

/-- The tree of a parse is shaped, and nested within the bound. -/
theorem shaped_of_parseWithin {m : Nat} {tokens : List Token} {e : Expr}
    (h : (parseWithin m tokens).1 = .ok e) : e.Shaped ∧ e.nesting ≤ m := by
  obtain ⟨_, -, he, hnest, -⟩ := derives_of_parse (Prod.ext h rfl)
  exact ⟨he.shaped.1, hnest⟩

theorem exists_parse_of_depth (m k : Nat) :
    ∃ tokens e, (parseWithin m tokens).1 = .ok e ∧ e.longestChain ≤ k ∧
      e.depth = (m + 1) * (4 * k + 1) := by
  have hdeep := Expr.limited_deep k m
  exact ⟨_, _, parseWithin_tokens hdeep.shaped (Nat.le_of_eq (Expr.nesting_deep k m)),
    hdeep.longestChain_le, Expr.depth_deep k m⟩

/-- A bound `m` on nesting and a bound `k` on the operators of one level in a chain limit the depth
of every tree that is read to `(m + 1) * (4 * k + 1)`, and no smaller limit holds. -/
theorem depth_of_parseWithin (m k : Nat) :
    (∀ tokens e, (parseWithin m tokens).1 = .ok e → e.longestChain ≤ k →
      e.depth ≤ (m + 1) * (4 * k + 1)) ∧
    ∃ tokens e, (parseWithin m tokens).1 = .ok e ∧ e.longestChain ≤ k ∧
      e.depth = (m + 1) * (4 * k + 1) := by
  refine ⟨fun tokens e h hk => ?_, exists_parse_of_depth m k⟩
  obtain ⟨hs, hm⟩ := shaped_of_parseWithin h
  exact hs.depth_le hm hk

/-- The bound on nesting alone limits the depth of no tree: a chain of operators is as long as it
likes. -/
theorem not_exists_depth_bound :
    ¬ ∃ B : Nat → Nat, ∀ m tokens e, (parseWithin m tokens).1 = .ok e → e.depth ≤ B m := by
  rintro ⟨B, hB⟩
  obtain ⟨tokens, e, he, -, hdepth⟩ := exists_parse_of_depth defaultMaxDepth (B defaultMaxDepth)
  have hle := hB _ tokens e he
  have hlt : 4 * B defaultMaxDepth + 1 ≤ (defaultMaxDepth + 1) * (4 * B defaultMaxDepth + 1) :=
    Nat.le_mul_of_pos_left _ (Nat.succ_pos _)
  omega

end Parser

end ExprSyntax
