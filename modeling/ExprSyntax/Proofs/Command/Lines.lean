import ExprSyntax.Command.Lines
import Mathlib

/-!
# What the lines of an input are

`Lined bytes ls`: the input `bytes` falls into the lines `ls`. Every input does so in one way, and
`lines` finds it (`lines_eq_iff`).
-/

namespace ExprSyntax

namespace Command

/-- An input and its lines: a line ends at its first line feed, with or without one carriage return
in front, or at the end of the input. -/
inductive Lined : List UInt8 → List (List UInt8) → Prop
  | nil : Lined [] []
  | last {line} : line ≠ [] → lineFeed ∉ line → Lined line [line]
  | feed {line rest ls} : lineFeed ∉ line → line.getLast? ≠ some carriageReturn → Lined rest ls →
      Lined (line ++ lineFeed :: rest) (line :: ls)
  | returnFeed {line rest ls} : lineFeed ∉ line → Lined rest ls →
      Lined (line ++ carriageReturn :: lineFeed :: rest) (line :: ls)

/-! ## One line -/

theorem dropReturn_concat (line : List UInt8) :
    dropReturn (line ++ [carriageReturn]) = line := by
  simp [dropReturn]

theorem dropReturn_of_getLast?_ne {line : List UInt8}
    (h : line.getLast? ≠ some carriageReturn) : dropReturn line = line :=
  if_neg h

theorem ne_lineFeed_of_not_mem {line : List UInt8} (h : lineFeed ∉ line) :
    ∀ b ∈ line, decide (b ≠ lineFeed) = true :=
  fun _ hb => decide_eq_true fun he => h (he ▸ hb)

/-! ## The loop -/

theorem linesOnto_last (done : Array (List UInt8)) {line : List UInt8} (hne : line ≠ [])
    (h : lineFeed ∉ line) : linesOnto done line = done.push line := by
  have hl := ne_lineFeed_of_not_mem h
  have ht : line.takeWhile (· ≠ lineFeed) = line := List.takeWhile_eq_self_iff.2 hl
  have hd : line.dropWhile (· ≠ lineFeed) = [] := List.dropWhile_eq_nil_iff.2 hl
  cases line with
  | nil => contradiction
  | cons b bs =>
    rw [linesOnto]
    split
    · rw [ht]
    · rename_i heq
      rw [hd] at heq
      cases heq

theorem linesOnto_feed (done : Array (List UInt8)) {line : List UInt8} (h : lineFeed ∉ line)
    (rest : List UInt8) :
    linesOnto done (line ++ lineFeed :: rest) = linesOnto (done.push (dropReturn line)) rest := by
  have hl := ne_lineFeed_of_not_mem h
  have ht : (line ++ lineFeed :: rest).takeWhile (· ≠ lineFeed) = line := by
    rw [List.takeWhile_append_of_pos hl, List.takeWhile_cons_of_neg (by decide), List.append_nil]
  have hd : (line ++ lineFeed :: rest).dropWhile (· ≠ lineFeed) = lineFeed :: rest := by
    rw [List.dropWhile_append_of_pos hl, List.dropWhile_cons_of_neg (by decide)]
  cases hb : line ++ lineFeed :: rest with
  | nil => simp at hb
  | cons b bs =>
    rw [hb] at ht hd
    rw [linesOnto]
    split
    · rename_i heq
      rw [hd] at heq
      cases heq
    · rename_i heq
      rw [hd] at heq
      cases heq
      rw [ht]

theorem Lined.toList_linesOnto {bytes : List UInt8} {ls : List (List UInt8)}
    (h : Lined bytes ls) (done : Array (List UInt8)) :
    (linesOnto done bytes).toList = done.toList ++ ls := by
  induction h generalizing done with
  | nil => simp [linesOnto]
  | last hne hl => simp [linesOnto_last done hne hl]
  | feed hl hr _ ih => simp [linesOnto_feed done hl, ih, dropReturn_of_getLast?_ne hr]
  | @returnFeed line rest ls hl _ ih =>
    have hl' : lineFeed ∉ line ++ [carriageReturn] := by
      simpa [hl] using show lineFeed ≠ carriageReturn by decide
    rw [show line ++ carriageReturn :: lineFeed :: rest =
        (line ++ [carriageReturn]) ++ lineFeed :: rest by simp,
      linesOnto_feed done hl', ih, dropReturn_concat]
    simp

/-! ## Every input has its lines -/

theorem exists_lined (bytes : List UInt8) : ∃ ls, Lined bytes ls := by
  by_cases hm : lineFeed ∈ bytes
  · obtain ⟨line, rest, hbytes, hl⟩ := List.eq_append_cons_of_mem hm
    obtain ⟨ls, h⟩ := exists_lined rest
    by_cases hr : line.getLast? = some carriageReturn
    · obtain ⟨front, rfl⟩ := List.getLast?_eq_some_iff.1 hr
      have hfront : lineFeed ∉ front := fun hm => hl (List.mem_append_left _ hm)
      refine ⟨front :: ls, ?_⟩
      simpa [hbytes] using Lined.returnFeed hfront h
    · exact ⟨line :: ls, hbytes ▸ .feed hl hr h⟩
  · by_cases hne : bytes = []
    · exact ⟨[], hne ▸ .nil⟩
    · exact ⟨[bytes], .last hne hm⟩
termination_by bytes.length
decreasing_by
  rw [hbytes]
  simp only [List.length_append, List.length_cons]
  omega

theorem lines_eq_iff {bytes : List UInt8} {ls : List (List UInt8)} :
    lines bytes = ls ↔ Lined bytes ls := by
  have hlines : ∀ ls, Lined bytes ls → lines bytes = ls := fun ls h => by
    simpa [lines] using h.toList_linesOnto #[]
  constructor
  · rintro rfl
    obtain ⟨ls, h⟩ := exists_lined bytes
    rwa [hlines ls h]
  · exact hlines ls

/-- A line can be cut off with its line feed before more of the input is there. -/
theorem lines_append_lineFeed {line : List UInt8} (h : lineFeed ∉ line) (rest : List UInt8) :
    lines (line ++ lineFeed :: rest) = lines (line ++ [lineFeed]) ++ lines rest := by
  have hrest : (linesOnto #[dropReturn line] rest).toList = dropReturn line :: lines rest := by
    obtain ⟨ls, hls⟩ := exists_lined rest
    rw [hls.toList_linesOnto, lines_eq_iff.2 hls]
    rfl
  have hone : lines (line ++ [lineFeed]) = [dropReturn line] := by
    rw [lines, linesOnto_feed #[] h, linesOnto]
    rfl
  rw [hone, lines, linesOnto_feed #[] h]
  exact hrest

end Command

end ExprSyntax
