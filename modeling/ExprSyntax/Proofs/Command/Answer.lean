import ExprSyntax.Command.Execute
import ExprSyntax.Proofs.Command.Arguments
import ExprSyntax.Proofs.Source.Run

/-!
# What a source is answered

The command scans and parses a source by itself and looks at its own log. Yet what it leaves in the
log and what it writes are those of `run` with the log as it was (`answer_eq`), so a file is
answered as `run` on an empty log says (`execute_file`).
-/

namespace ExprSyntax

namespace Command

/-! ## Texts -/

theorem ofLines_ne_empty {l : String} {ls : List String} : ofLines (l :: ls) ≠ "" := by
  simp [ofLines]

theorem report_eq_ofLines (color : Bool) (ds : List Diagnostic) :
    Diagnostic.report color ds = ofLines (ds.map (Diagnostic.formatted color)) := by
  simp [Diagnostic.report, ofLines, Function.comp_def]

theorem report_eq_empty_iff {color : Bool} {ds : List Diagnostic} :
    Diagnostic.report color ds = "" ↔ ds = [] := by
  rw [report_eq_ofLines]
  cases ds with
  | nil => simp [ofLines]
  | cons d ds => simp [ofLines_ne_empty]

/-! ## What is asked for -/

/-- The tokens of a source, one a line, if the options ask for them. -/
def listing (o : Options) (source : String) : String :=
  if o.tokens then String.join ((scan source).tokens.map fun t => t.text ++ "\n") else ""

/-- The forms of a tree that the options ask for, each on lines of its own. -/
def forms (o : Options) (tree : Expr) : String :=
  (if o.print = .rpn then "" else tree.polish ++ "\n") ++
    (if o.print = .ast then "" else tree.reversePolish ++ "\n")

theorem listing_eq (o : Options) (source : String) :
    listing o source = if o.tokens then ofLines ((scan source).tokens.map Token.text) else "" := by
  simp [listing, ofLines, Function.comp_def]

theorem forms_eq (o : Options) (tree : Expr) :
    forms o tree = ofLines (o.print.orders.map tree.render) := by
  cases h : o.print <;> simp [forms, ofLines, PrintChoice.orders, Expr.render, h]

/-! ## The answer of a console -/

theorem print_listing (o : Options) (c : Console) (source : String) :
    (if o.tokens then c.print (ofLines ((scan source).tokens.map Token.text)) else c) =
      c.print (listing o source) := by
  rw [listing_eq]
  split
  · rfl
  · simp [Console.print]

/-- What a console has after an answer: what `run` leaves in its log and gives back, and the
listing in front of it. -/
theorem answer_eq (o : Options) (color : Bool) (c : Console) (source : String) :
    c.answer o color source =
      { log := (run c.log source).2
        stdout := c.stdout ++ listing o source ++ ((run c.log source).1.map (forms o)).getD ""
        stderr := c.stderr ++ Diagnostic.report color (run c.log source).2 } := by
  rw [snd_run, run, Console.answer]
  dsimp only
  rw [print_listing]
  cases h : parseTokens (scan source).tokens with
  | error d => simp [parseLog, Console.print, Console.report, Console.complain]
  | ok tree =>
    by_cases hl : c.log ++ (scan source).diagnostics = []
    · have hr : Diagnostic.report color [] = "" := rfl
      simp [parseLog, Console.print, Console.report, hl, hr, forms_eq, Except.toOption]
    · simp [parseLog, Console.print, Console.report, Console.complain, hl]

/-! ## A file -/

/-- The bytes of a text. -/
def encode (text : String) : List UInt8 :=
  text.toUTF8.data.toList

theorem decode?_encode (text : String) : decode? (encode text) = some text := by
  have h : (⟨(encode text).toArray⟩ : ByteArray) = text.toUTF8 := by
    simp [encode]
  rw [decode?, h]
  exact dif_pos text.isValidUTF8

theorem enabled_eq {choice : ColorChoice} (h : choice ≠ .auto) (terminal : Bool) :
    choice.enabled terminal = decide (choice = .always) := by
  cases choice with
  | auto => contradiction
  | always | never => rfl

/-- With a file that has the text `source`, the command gives back what `run` makes of the source
with an empty log: the tree in the forms asked for, or all that the log then holds. -/
theorem execute_file {args : List String} {g : Given} {path : String}
    {read : String → Except ReadError (List UInt8)} {source : String}
    (hargs : Gives args .nothing g) (hscript : g.script? = some path)
    (hcolor : g.options.color ≠ .auto) (hread : read path = .ok (encode source))
    (input : List UInt8) (terminal : Bool) :
    let out := execute args read input terminal
    let tree? := (run [] source).1
    let log := (run [] source).2
    out.code = (if tree?.isSome then 0 else 65) ∧
      out.stdout = listing g.options source ++ (tree?.map (forms g.options)).getD "" ∧
      out.stderr = Diagnostic.report (g.options.color = .always) log ∧
      (out.stderr = "" ↔ out.code = 0) := by
  intro out tree? log
  have hrequest : request args = .ok (.run g.options) := request_eq_run_iff.2 ⟨g, hargs, rfl⟩
  have hpath : g.options.script = some path := hscript
  have hout : out =
      (Console.start.answer g.options (decide (g.options.color = .always)) source).exit
        (if log.isEmpty then 0 else dataCode) := by
    simp only [out, execute, hrequest, hpath, hread, runFile, decode?_encode, enabled_eq hcolor]
    rw [answer_eq]
    rfl
  have hgate : tree?.isSome = log.isEmpty := isSome_fst_run [] source
  rw [hout, answer_eq, hgate]
  refine ⟨rfl, ?_, ?_, ?_⟩
  · simp [Console.exit, Console.start, tree?]
  · simp [Console.exit, Console.start, log]
  · show "" ++ Diagnostic.report _ log = "" ↔ _
    rw [String.empty_append, report_eq_empty_iff]
    cases log with
    | nil => simp [Console.exit]
    | cons d ds => simp [Console.exit, dataCode]

/-- A sum is written in both forms; a stray character takes the tree away, not the listing. -/
theorem execute_file_sum_and_stray :
    let out (text : String) := execute ["--print=both", "--tokens", "--color", "always", "sum"]
      (fun _ => .ok (encode text)) [] false
    out "1 + 2" =
        ⟨0, "NUMBER 1 1\nPLUS + null\nNUMBER 2 2\nEOF  null\n(+ 1 2)\n1 2 +\n", ""⟩ ∧
      out "1 #" = ⟨65, "NUMBER 1 1\nEOF  null\n",
        "[line 1] \x1b[38;5;9m\x1b[1mError\x1b[0m: Unexpected character.\n"⟩ := by
  have hargs : Gives ["--print=both", "--tokens", "--color", "always", "sum"] .nothing
      ⟨some .both, true, some .always, some "sum"⟩ :=
    .append (.print .both .attached rfl) <| .append (.tokens rfl) <|
      .append (.color .always .apart rfl) <|
      .append (.script (by decide) (.inr (by decide)) rfl) .nil
  have hfile (text : String) :=
    @execute_file _ _ _ (fun _ => .ok (encode text)) _ hargs rfl (by decide) rfl [] false
  obtain ⟨hcode, hout, herr, -⟩ := hfile "1 + 2"
  obtain ⟨hcode', hout', herr', -⟩ := hfile "1 #"
  refine ⟨Output.ext (hcode.trans ?_) (hout.trans ?_) (herr.trans ?_),
    Output.ext (hcode'.trans ?_) (hout'.trans ?_) (herr'.trans ?_)⟩ <;> decide +kernel

end Command

end ExprSyntax
