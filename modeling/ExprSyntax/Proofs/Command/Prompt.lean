import ExprSyntax.Proofs.Command.Answer
import ExprSyntax.Proofs.Command.Lines

/-!
# The answers to the lines of an input

`promptFrom_nil` and `promptFrom_cons` unfold the loop of the prompt over a list of lines. It does
not matter when what has been written is put out (`behind_promptOver_handOut`).

At each prompt the log is empty, so a line is answered as a new console answers it
(`answer_of_log_eq_nil`), whatever was wrong with the lines in front of it. What a run writes is
then put together from runs on files, one for each line (`execute_prompt`).
-/

namespace ExprSyntax

namespace Command

/-! ## The loop -/

section
variable {m : Type → Type} [Monad m] [LawfulMonad m] (flush : Console → m Console) (o : Options)
  (color : Bool) (c : Console)

theorem promptFrom_nil :
    promptFrom flush o color c ([] : List (List UInt8)) = pure (c.exit 0) := by
  simp [promptFrom]

theorem promptFrom_cons (line : List UInt8) (ls : List (List UInt8)) :
    promptFrom flush o color c (line :: ls) =
      match c.answerLine? o color line with
      | some answered => flush (answered.print promptMark) >>= (promptFrom flush o color · ls)
      | none => pure ((c.complain inputFailure).exit failureCode) := by
  cases h : c.answerLine? o color line <;> simp [promptFrom, h]

end

/-! ## Writing piece by piece -/

/-- Takes what has been written from the console and puts it behind what is out already. -/
def Console.handOut (c : Console) : StateM (String × String) Console :=
  modifyGet fun (out, err) => (c.drained, out ++ c.stdout, err ++ c.stderr)

/-- The console with what is out already in front of what has been written. -/
def Console.behind (out : String × String) (c : Console) : Console :=
  { c with stdout := out.1 ++ c.stdout, stderr := out.2 ++ c.stderr }

def Output.behind (out : String × String) (o : Output) : Output :=
  { o with stdout := out.1 ++ o.stdout, stderr := out.2 ++ o.stderr }

theorem answerLine?_behind (out : String × String) (o : Options) (color : Bool) (c : Console)
    (line : List UInt8) :
    (c.behind out).answerLine? o color line =
      (c.answerLine? o color line).map (Console.behind out) := by
  cases h : decode? line with
  | none => simp [Console.answerLine?, h]
  | some source =>
    simp [Console.answerLine?, h, answer_eq, Console.behind, Console.reset, String.append_assoc]

/-- From the same console, what has been handed out with what is left in the end is what is written
without any flush. -/
theorem behind_promptFrom_handOut (o : Options) (color : Bool) (c : Console)
    (ls : List (List UInt8)) (out : String × String) :
    let (last, written) := Id.run ((promptFrom Console.handOut o color c ls).run out)
    last.behind written = Id.run (promptFrom pure o color (c.behind out) ls) := by
  induction ls generalizing c out with
  | nil =>
    rw [promptFrom_nil, promptFrom_nil]
    rfl
  | cons line ls ih =>
    rw [promptFrom_cons, promptFrom_cons, answerLine?_behind]
    cases c.answerLine? o color line with
    | none =>
      show Output.mk _ _ _ = Output.mk _ _ _
      simp [Console.behind, Console.complain, Console.exit, String.append_assoc]
    | some answered =>
      have h := ih (answered.print promptMark).drained
        (out.1 ++ (answered.print promptMark).stdout, out.2 ++ (answered.print promptMark).stderr)
      refine h.trans ?_
      simp [Console.behind, Console.drained, Console.print, String.append_assoc]

/-- Nothing is lost and nothing moves when what has been written is put out in front of each
line. -/
theorem behind_promptOver_handOut (o : Options) (color : Bool) (ls : List (List UInt8)) :
    let (last, written) := Id.run ((promptOver Console.handOut o color ls).run ("", ""))
    last.behind written = Id.run (promptOver pure o color ls) :=
  behind_promptFrom_handOut o color .start ls (promptMark, "")

/-! ## Lines that are text -/

/-- With an empty log the answer is that of a new console, behind what has been written. -/
theorem answer_of_log_eq_nil {c : Console} (h : c.log = []) (o : Options) (color : Bool)
    (source : String) :
    c.answer o color source =
      { log := (Console.start.answer o color source).log
        stdout := c.stdout ++ (Console.start.answer o color source).stdout
        stderr := c.stderr ++ (Console.start.answer o color source).stderr } := by
  rw [answer_eq, answer_eq, h]
  simp [Console.start, String.append_assoc]

/-- What the command writes for a file that holds `contents`. -/
def onFile (args : List String) (contents : List UInt8) : Output :=
  execute args (fun _ => .ok contents) [] false

section
variable {args : List String} {o : Options} {path : String} {c : Console}

theorem onFile_eq (hargs : request args = .ok (.run { o with script := some path }))
    (hcolor : o.color ≠ .auto) {line : List UInt8} {source : String}
    (hline : decode? line = some source) :
    (onFile args line).stdout =
        (Console.start.answer o (decide (o.color = .always)) source).stdout ∧
      (onFile args line).stderr =
        (Console.start.answer o (decide (o.color = .always)) source).stderr := by
  simp only [onFile, execute, hargs, runFile, hline, enabled_eq hcolor]
  exact ⟨rfl, rfl⟩

/-- What stands on a console behind prompts that were answered as files are. -/
def Console.afterFiles (args : List String) (c : Console) (ls : List (List UInt8)) : Console where
  log := []
  stdout := c.stdout ++ String.join (ls.map fun line => promptMark ++ (onFile args line).stdout)
  stderr := c.stderr ++ String.join (ls.map fun line => (onFile args line).stderr)

theorem answerLine?_eq_some (hargs : request args = .ok (.run { o with script := some path }))
    (hcolor : o.color ≠ .auto) (hc : c.log = []) {line : List UInt8}
    (hline : (decode? line).isSome) :
    (c.print promptMark).answerLine? o (decide (o.color = .always)) line =
      some (c.afterFiles args [line]) := by
  obtain ⟨source, hs⟩ := Option.isSome_iff_exists.1 hline
  obtain ⟨hout, herr⟩ := onFile_eq hargs hcolor hs
  have hp : (c.print promptMark).log = [] := hc
  rw [Console.answerLine?, hs, Option.map_some, answer_of_log_eq_nil hp]
  simp [Console.afterFiles, Console.reset, Console.print, hout, herr, String.append_assoc]

/-- The loop answers lines that are text as files and goes on with an empty log. -/
theorem promptFrom_append (hargs : request args = .ok (.run { o with script := some path }))
    (hcolor : o.color ≠ .auto) (hc : c.log = []) {ls : List (List UInt8)}
    (hls : ∀ line ∈ ls, (decode? line).isSome) (more : List (List UInt8)) :
    promptFrom (m := Id) pure o (decide (o.color = .always)) (c.print promptMark) (ls ++ more) =
      promptFrom (m := Id) pure o (decide (o.color = .always))
        ((c.afterFiles args ls).print promptMark) more := by
  induction ls generalizing c with
  | nil =>
    have h : c.afterFiles args [] = c := by
      simp [Console.afterFiles, ← hc]
    rw [h]
    rfl
  | cons line ls ih =>
    obtain ⟨hline, hls⟩ := List.forall_mem_cons.1 hls
    rw [List.cons_append, promptFrom_cons, answerLine?_eq_some hargs hcolor hc hline]
    dsimp only
    rw [pure_bind, ih rfl hls]
    simp [Console.afterFiles, String.append_assoc]

end

/-- Without a script the command answers each line behind a prompt of its own, and what it writes is
what it writes with the same options for a file that holds the line. The first line that is no text
ends the run. -/
theorem execute_prompt {args fileArgs : List String} {g : Given} {path : String}
    (hargs : Gives args .nothing g) (hscript : g.script? = none)
    (hfile : Gives fileArgs .nothing { g with script? := some path })
    (hcolor : g.options.color ≠ .auto) {input : List UInt8} {ls : List (List UInt8)}
    (hinput : Lined input ls) (read : String → Except ReadError (List UInt8)) (terminal : Bool) :
    let out := execute args read input terminal
    let stdoutOf (ls : List (List UInt8)) : String :=
      String.join (ls.map fun line => "> " ++ (onFile fileArgs line).stdout)
    let stderrOf (ls : List (List UInt8)) : String :=
      String.join (ls.map fun line => (onFile fileArgs line).stderr)
    request args = .ok (.run g.options) ∧
      request fileArgs = .ok (.run { g.options with script := some path }) ∧
      ((∀ line ∈ ls, (decode? line).isSome) → out = ⟨0, stdoutOf ls ++ "> ", stderrOf ls⟩) ∧
      ∀ front bad rest, ls = front ++ bad :: rest → (∀ line ∈ front, (decode? line).isSome) →
        decode? bad = none →
          out = ⟨1, stdoutOf front ++ "> ", stderrOf front ++
            "Error: failed to read from stdin: stream did not contain valid UTF-8\n"⟩ := by
  intro out stdoutOf stderrOf
  have hrun : request args = .ok (.run g.options) := request_eq_run_iff.2 ⟨g, hargs, rfl⟩
  have hrunFile : request fileArgs = .ok (.run { g.options with script := some path }) :=
    request_eq_run_iff.2 ⟨_, hfile, rfl⟩
  have hnone : g.options.script = none := hscript
  have hout : out = promptFrom (m := Id) pure g.options (decide (g.options.color = .always))
      (Console.start.print promptMark) ls := by
    simp only [out, execute, hrun, hnone, prompt, lines_eq_iff.2 hinput, enabled_eq hcolor]
    rfl
  have hfront (front rest : List (List UInt8)) (h : ∀ line ∈ front, (decode? line).isSome) :=
    promptFrom_append (c := .start) hrunFile hcolor rfl h rest
  refine ⟨hrun, hrunFile, ?_, ?_⟩
  · intro hls
    have h := hfront ls [] hls
    rw [List.append_nil] at h
    rw [hout, h, promptFrom_nil]
    show Output.mk _ _ _ = Output.mk _ _ _
    simp [Console.afterFiles, Console.start, Console.print, promptMark, stdoutOf, stderrOf]
  · rintro front bad rest rfl hls hbad
    have herror : inputFailure =
        "Error: failed to read from stdin: stream did not contain valid UTF-8\n" := by
      decide +kernel
    rw [hout, hfront front (bad :: rest) hls, promptFrom_cons, Console.answerLine?, hbad]
    show Output.mk _ _ _ = Output.mk _ _ _
    simp [Console.afterFiles, Console.start, Console.print, Console.complain, promptMark,
      failureCode, herror, stdoutOf, stderrOf]

/-- Neither error of the first line shows at the second, and nothing is run behind the third. -/
theorem execute_prompt_three_lines :
    execute ["--print=both", "--color", "never"] (fun _ => .error .notFound)
        (encode "(1 # +\r\n1 + 2\n" ++ [0xff, lineFeed] ++ encode "3\n") true =
      ⟨1, "> > (+ 1 2)\n1 2 +\n> ", "[line 1] Error: Unexpected character.\n" ++
        "[line 1] Error at end: Expected expression.\n" ++
        "Error: failed to read from stdin: stream did not contain valid UTF-8\n"⟩ := by
  have hargs : Gives ["--print=both", "--color", "never"] .nothing
      ⟨some .both, false, some .never, none⟩ :=
    .append (.print .both .attached rfl) <| .append (.color .never .apart rfl) .nil
  have hfile : Gives ["--print=both", "--color", "never", "line"] .nothing
      ⟨some .both, false, some .never, some "line"⟩ :=
    hargs.append_script rfl (by decide) (.inr (by decide))
  have hinput : Lined (encode "(1 # +\r\n1 + 2\n" ++ [0xff, lineFeed] ++ encode "3\n")
      [encode "(1 # +", encode "1 + 2", [0xff], encode "3"] :=
    lines_eq_iff.1 (by decide +kernel)
  obtain ⟨-, -, -, hbad⟩ :=
    execute_prompt hargs rfl hfile (by decide) hinput (fun _ => .error .notFound) true
  rw [hbad [encode "(1 # +", encode "1 + 2"] [0xff] [encode "3"] rfl (by decide +kernel)
    (by decide +kernel)]
  decide +kernel

end Command

end ExprSyntax
