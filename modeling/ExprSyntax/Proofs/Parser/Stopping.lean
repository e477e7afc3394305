import ExprSyntax.Proofs.Parser.NestingBound

/-!
# What a parse has seen when it stops

A parse looks at no token behind the one at which it stops: with other tokens there it gives the
same tree or diagnostic and stops at the same place (`parseWithin_eq_of_take_eq`). After a tree it
has looked at no more of that token than its kind (`parseWithin_eq_of_parsed`), and it never goes
past an end marker (`parseWithin_le_of_eof`).
-/

namespace ExprSyntax

namespace Parser

section
variable {tokens tokens' : List Token} {m : Nat}

/-- Of the token behind a tree only the kind has been looked at, and of those behind that
nothing. -/
theorem parseWithin_eq_of_parsed {e : Expr} {n : Nat} (h : parseWithin m tokens = (.ok e, n))
    (hread : (Token.closeList tokens').take n = (Token.closeList tokens).take n)
    (hkind : (Token.closeList tokens')[n]?.map Token.kind =
      (Token.closeList tokens)[n]?.map Token.kind) :
    parseWithin m tokens' = parseWithin m tokens := by
  have hres : (parseWithin m tokens).1 = .ok e := congrArg Prod.fst h
  have hr := reads_of_parse_ok (Prod.ext hres rfl)
  rw [ahead_ofTokens] at hr
  obtain ⟨read, hts, hlocal⟩ := hr.local
  have hn := parseWithin_of_parsed hts hr
  obtain rfl : n = read.length := congrArg Prod.snd (h.symm.trans hn)
  have hts' : Token.closeList tokens' = read ++ (Token.closeList tokens').drop read.length := by
    conv_lhs => rw [← List.take_append_drop read.length (Token.closeList tokens'), hread, hts,
      List.take_left]
  have hnext : ((Token.closeList tokens').drop read.length).head?.map Token.kind =
      (ofTokens tokens m).parse.2.ahead.head?.map Token.kind := by
    rw [List.head?_drop, hkind, hts, List.getElem?_append_right (Nat.le_refl _), Nat.sub_self,
      List.head?_eq_getElem?]
  have hr' := hlocal _ hnext
  rw [← hts'] at hr'
  rw [h]
  exact parseWithin_of_parsed hts' hr'

/-- After an error nothing has been looked at behind the offender. -/
theorem parseWithin_eq_of_failed {d : Diagnostic} {n : Nat}
    (h : parseWithin m tokens = (.error d, n))
    (hread : (Token.closeList tokens').take (n + 1) = (Token.closeList tokens).take (n + 1)) :
    parseWithin m tokens' = parseWithin m tokens := by
  have hres : (parseWithin m tokens).1 = .error d := congrArg Prod.fst h
  obtain ⟨err, rfl, hr⟩ := reads_of_parse_error (Prod.ext hres rfl)
  rw [ahead_ofTokens] at hr
  obtain ⟨read, behind, hts, hrest, hlocal⟩ := hr.local
  rw [hrest] at hr
  have hn : parseWithin m tokens = _ := parseWithin_of_failed hts hr
  have hle : (read ++ [err.offender]).length ≤ n + 1 := by
    rw [show n = _ from congrArg Prod.snd (h.symm.trans hn), List.length_append]
    exact Nat.succ_le_succ (Nat.le_add_right ..)
  -- the offender is among the tokens that the lists share, so the other list goes on behind it
  have hshared : read ++ [err.offender] <+: (Token.closeList tokens').take (n + 1) := by
    rw [hread, List.prefix_take_iff]
    exact ⟨⟨behind, by rw [hts, List.append_assoc, List.singleton_append]⟩, hle⟩
  obtain ⟨behind', hts'⟩ := hshared.trans (List.take_prefix ..)
  rw [List.append_assoc, List.singleton_append] at hts'
  have hr' := hlocal behind'
  rw [hts'] at hr'
  rw [hn]
  exact parseWithin_of_failed hts'.symm hr'

/-- An end marker closes what stands in front of it, whatever stands behind. -/
theorem exists_closeList_append (before : List Token) (t : Token) (behind : List Token) :
    ∃ rest, Token.closeList (before ++ t :: behind) = before ++ t :: rest := by
  unfold Token.closeList
  split
  · exact ⟨behind, rfl⟩
  · exact ⟨_, by rw [List.append_assoc, List.cons_append]⟩

/-- What a parse gives depends on the tokens up to the one at which it stops. -/
theorem parseWithin_eq_of_take_eq
    (h : (Token.closeList tokens').take ((parseWithin m tokens).2 + 1) =
      (Token.closeList tokens).take ((parseWithin m tokens).2 + 1)) :
    parseWithin m tokens' = parseWithin m tokens := by
  rcases hp : parseWithin m tokens with ⟨_ | e, n⟩ <;> rw [hp] at h
  · rw [parseWithin_eq_of_failed hp h, hp]
  · have hread := congrArg (List.take n) h
    have hnext := congrArg (·[n]?) h
    simp only [List.take_take, Nat.min_eq_left (Nat.le_succ n)] at hread
    simp only [List.getElem?_take_of_succ] at hnext
    rw [parseWithin_eq_of_parsed hp hread (congrArg _ hnext), hp]

/-- No parse goes past an end marker. -/
theorem parseWithin_le_of_eof {before behind : List Token} {t : Token} (ht : t.kind = .eof)
    (h : Token.closeList tokens = before ++ t :: behind) :
    (parseWithin m tokens).2 ≤ before.length := by
  apply Nat.le_of_not_lt
  intro hlt
  have hget : (ofTokens tokens m).tokens[before.length]? = some t := by
    rw [← Array.getElem?_toList, tokens_ofTokens, h]
    simp
  exact (forward_parse (ofTokens tokens m)).kind_ne_eof _ (Nat.zero_le _) hlt t hget ht

end

/-- Two lists that agree up to the token at which the parse of the one stops are parsed alike: they
give the same tree or diagnostic, and the parser stops there in both. After a tree that token may be
any other of its kind. So it does not matter what stands behind an end marker. -/
theorem parseWithin_eq_of_agree (tokens tokens' : List Token) (m : Nat) :
    let ts := Token.closeList tokens
    let ts' := Token.closeList tokens'
    let stop := (parseWithin m tokens).2
    (ts'.take (stop + 1) = ts.take (stop + 1) → parseWithin m tokens' = parseWithin m tokens) ∧
      (∀ tree, (parseWithin m tokens).1 = .ok tree → ts'.take stop = ts.take stop →
        ts'[stop]?.map Token.kind = ts[stop]?.map Token.kind →
          parseWithin m tokens' = parseWithin m tokens) ∧
      ∀ before marker behind behind', marker.kind = .eof →
        parseWithin m (before ++ marker :: behind') =
          parseWithin m (before ++ marker :: behind) := by
  intro ts ts' stop
  refine ⟨parseWithin_eq_of_take_eq, fun tree h => parseWithin_eq_of_parsed (Prod.ext h rfl), ?_⟩
  intro before marker behind behind' hk
  obtain ⟨rest, hrest⟩ := exists_closeList_append before marker behind
  obtain ⟨rest', hrest'⟩ := exists_closeList_append before marker behind'
  have hle : (parseWithin m (before ++ marker :: behind)).2 + 1 ≤ (before ++ [marker]).length := by
    rw [List.length_append]
    exact Nat.succ_le_succ (parseWithin_le_of_eof hk hrest)
  apply parseWithin_eq_of_take_eq
  rw [hrest, hrest', List.append_cons before marker rest, List.append_cons before marker rest',
    List.take_append_of_le_length hle, List.take_append_of_le_length hle]

/-- In `(nil nil` the parse stops at the second operand, whatever follows that. Behind a tree there
may be another name on another line. -/
theorem parseWithin_eq_of_agree_unclosed :
    let paren : Token := ⟨.leftParen, "(", none, 1⟩
    let unclosed : List Token := [paren, .leaf, .leaf, .eof 1]
    let unclosed' : List Token := [paren, .leaf, .leaf, ⟨.rightParen, ")", none, 2⟩, .eof 2]
    let named : List Token := [.leaf, ⟨.identifier, "a", none, 1⟩, .eof 1]
    let named' : List Token := [.leaf, ⟨.identifier, "b", some .nil, 3⟩, .leaf]
    (parseWithin 1 unclosed).2 = 2 ∧ parseWithin 1 unclosed' = parseWithin 1 unclosed ∧
      parseWithin 1 named = (.ok (.literal .nil), 1) ∧
      parseWithin 1 named' = parseWithin 1 named := by
  intro paren unclosed unclosed' named named'
  have hstop : (parseWithin 1 unclosed).2 = 2 := by cbv
  have hnamed : parseWithin 1 named = (.ok (.literal .nil), 1) := by cbv
  obtain ⟨hagree, -, -⟩ := parseWithin_eq_of_agree unclosed unclosed' 1
  obtain ⟨-, hkind, -⟩ := parseWithin_eq_of_agree named named' 1
  rw [hstop] at hagree
  rw [hnamed] at hkind
  exact ⟨hstop, hagree rfl, hnamed, (hkind _ rfl rfl rfl).trans hnamed.symm⟩

end Parser

end ExprSyntax
