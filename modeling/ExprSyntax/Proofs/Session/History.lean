import ExprSyntax.Proofs.Source.Run
import ExprSyntax.Session

/-!
# The history of a session

Whatever the log of a session holds, a step leaves it in place and adds entries behind it that are
the same for every log (`exists_added`); only a reset takes entries away, and only the tree of `run`
looks at the log. So the log after any steps holds what was added behind the last reset
(`after_withLog`). `Effect` says for each kind of step what it adds and gives back; hence a run
gives a tree only where nothing has been reported since that reset (`lawful_history`).
-/

namespace ExprSyntax

namespace Session

/-! ## One step -/

/-- The session with another log. -/
def withLog (s : Session) (log : Log) : Session :=
  { s with log := log }

@[simp] theorem log_withLog (s : Session) (log : Log) : (s.withLog log).log = log := rfl

@[simp] theorem parser?_withLog (s : Session) (log : Log) :
    (s.withLog log).parser? = s.parser? := rfl

/-- A step that is no reset adds to the log what does not depend on it. -/
theorem exists_added (s : Session) {st : Step} (h : st ≠ .reset) :
    ∃ added, ∀ log, ((s.withLog log).step st).2.log = log ++ added := by
  cases st with
  | reset => contradiction
  | parse =>
    cases hp : s.parser? with
    | none => exact ⟨[], fun log => by simp [step, hp]⟩
    | some p => exact ⟨parseLog p.parse.1, fun log => by simp [step, hp]⟩
  | load source _ | scan source => exact ⟨(ExprSyntax.scan source).diagnostics, fun _ => rfl⟩
  | run source =>
    let scanned := ExprSyntax.scan source
    exact ⟨scanned.diagnostics ++ parseLog (parseTokens scanned.tokens),
      fun log => List.append_assoc ..⟩
  | report d => exact ⟨[d], fun _ => rfl⟩
  | loadTokens | synchronize => exact ⟨[], fun log => (List.append_nil log).symm⟩

/-- The parser after a step does not depend on the log. -/
theorem parser?_step_withLog (s : Session) (log : Log) (st : Step) :
    ((s.withLog log).step st).2.parser? = (s.step st).2.parser? := by
  cases st with
  | parse => cases hp : s.parser? <;> simp [step, hp]
  | _ => rfl

/-- Nor does the answer, unless it is the tree of a run. -/
theorem answer_withLog (s : Session) (log : Log) {st : Step} (h : ∀ source, st ≠ .run source) :
    ((s.withLog log).step st).1 = (s.step st).1 := by
  cases st with
  | run source => exact absurd rfl (h source)
  | parse => cases hp : s.parser? <;> simp [step, hp]
  | _ => rfl

/-! ## Runs -/

/-- The session after a list of steps. -/
def after (s : Session) (steps : List Step) : Session :=
  steps.foldl (fun s st => (s.step st).2) s

/-- What each of the steps adds to the log. -/
def added (s : Session) : List Step → List Log
  | [] => []
  | st :: steps => (s.step st).2.log.drop s.log.length :: (s.step st).2.added steps

theorem step_withLog (s : Session) (log : Log) {st : Step} (h : st ≠ .reset) :
    ((s.withLog log).step st).2 =
      (s.step st).2.withLog (log ++ (s.step st).2.log.drop s.log.length) := by
  obtain ⟨entries, hentries⟩ := exists_added s h
  have hdrop : (s.step st).2.log.drop s.log.length = entries := by
    have hs : (s.step st).2.log = s.log ++ entries := hentries s.log
    rw [hs, List.drop_left]
  calc ((s.withLog log).step st).2
    _ = ⟨((s.withLog log).step st).2.log, ((s.withLog log).step st).2.parser?⟩ := rfl
    _ = (s.step st).2.withLog (log ++ entries) := by
      rw [hentries, parser?_step_withLog, withLog]
    _ = (s.step st).2.withLog (log ++ (s.step st).2.log.drop s.log.length) := by rw [hdrop]

/-- Without a reset, steps add the same entries to any log and leave the same parser. -/
theorem after_withLog (s : Session) (log : Log) {steps : List Step}
    (h : ∀ st ∈ steps, st ≠ .reset) :
    (s.withLog log).after steps = (s.after steps).withLog (log ++ (s.added steps).flatten) := by
  induction steps generalizing s log with
  | nil => simp [after, added, withLog]
  | cons st steps ih =>
    obtain ⟨hst, hsteps⟩ := List.forall_mem_cons.1 h
    calc (s.withLog log).after (st :: steps)
      _ = ((s.withLog log).step st).2.after steps := rfl
      _ = ((s.step st).2.withLog (log ++ (s.step st).2.log.drop s.log.length)).after steps := by
        rw [step_withLog s log hst]
      _ = ((s.step st).2.after steps).withLog (log ++ (s.step st).2.log.drop s.log.length ++
          ((s.step st).2.added steps).flatten) := ih _ _ hsteps
      _ = (s.after (st :: steps)).withLog (log ++ (s.added (st :: steps)).flatten) := by
        rw [added, List.flatten_cons, List.append_assoc]
        rfl

theorem after_append (s : Session) (steps more : List Step) :
    s.after (steps ++ more) = (s.after steps).after more :=
  List.foldl_append

/-! ## The law -/

/-- The steps that leave the parser where it is. -/
def Step.KeepsParser : Step → Prop
  | .scan _ | .run _ | .report _ | .reset => True
  | .load .. | .loadTokens .. | .parse | .synchronize => False

/-- What a parse of `p` gives: a tree, or one syntactic entry behind `log`. -/
def ParseAnswer (p : Parser) (log : Log) (answer : Answer) (log' : Log) : Prop :=
  (∃ tree, p.parse.1 = .ok tree ∧ answer = .tree (some tree) ∧ log' = log) ∨
    ∃ d, p.parse.1 = .error d ∧ d.kind = .syntactic ∧ answer = .tree none ∧ log' = log ++ [d]

/-- What a run of `source` gives: behind `log` the lexical entries of the source and one syntactic
entry if its tokens are not parsed, and a tree only if the log is empty in the end. -/
structure RunAnswer (source : String) (log : Log) (answer : Answer) (log' : Log) : Prop where
  lexical : ∀ d ∈ (ExprSyntax.scan source).diagnostics, d.kind = .lexical
  entries : (∃ tree, parseTokens (ExprSyntax.scan source).tokens = .ok tree ∧
      log' = log ++ (ExprSyntax.scan source).diagnostics) ∨
    ∃ d, parseTokens (ExprSyntax.scan source).tokens = .error d ∧ d.kind = .syntactic ∧
      log' = log ++ (ExprSyntax.scan source).diagnostics ++ [d]
  tree : ∃ tree?, answer = .tree tree? ∧ ∀ tree, tree? = some tree ↔
    log = [] ∧ (ExprSyntax.scan source).diagnostics = [] ∧
      parseTokens (ExprSyntax.scan source).tokens = .ok tree

/-- What a step answers, and the session that it leads to. -/
def Effect (s : Session) (answer : Answer) (s' : Session) : Step → Prop
  | .load source maxDepth =>
    answer = .count (ExprSyntax.scan source).tokens.length ∧
      s' = ⟨s.log ++ (ExprSyntax.scan source).diagnostics,
        some (.ofTokens (ExprSyntax.scan source).tokens maxDepth)⟩
  | .loadTokens tokens maxDepth =>
    answer = .nothing ∧ s' = ⟨s.log, some (.ofTokens tokens maxDepth)⟩
  | .parse =>
    (∀ p, s.parser? = some p →
      ParseAnswer p s.log answer s'.log ∧ s'.parser? = some p.parse.2) ∧
    (s.parser? = none → answer = .tree none ∧ s' = s)
  | .synchronize => answer = .nothing ∧ s' = ⟨s.log, s.parser?.map .synchronize⟩
  | .scan source =>
    answer = .tokens (ExprSyntax.scan source).tokens ∧
      s' = ⟨s.log ++ (ExprSyntax.scan source).diagnostics, s.parser?⟩
  | .run source => RunAnswer source s.log answer s'.log ∧ s'.parser? = s.parser?
  | .report d => answer = .nothing ∧ s' = ⟨s.log ++ [d], s.parser?⟩
  | .reset => answer = .nothing ∧ s' = ⟨[], s.parser?⟩

/-- What a step of a session does to the log, to the parser and for the one who asks, and what of it
does not depend on the log. -/
structure Lawful (s : Session) (st : Step) : Prop where
  effect : Effect s (s.step st).1 (s.step st).2 st
  added : st ≠ .reset → ∃ entries, ∀ log, ((s.withLog log).step st).2.log = log ++ entries
  parser : ∀ log, ((s.withLog log).step st).2.parser? = (s.step st).2.parser?
  answer : (∀ source, st ≠ .run source) →
    ∀ log, ((s.withLog log).step st).1 = (s.step st).1
  keepsParser : st.KeepsParser → (s.step st).2.parser? = s.parser?

theorem parseAnswer_step {s : Session} {p : Parser} (hp : s.parser? = some p) :
    ParseAnswer p s.log (s.step .parse).1 (s.step .parse).2.log := by
  simp only [step, hp]
  obtain ⟨tree, htree, hlog⟩ | ⟨d, hd, hkind, hlog⟩ := p.parse_cases
  · exact .inl ⟨tree, htree, by rw [htree]; rfl, by rw [hlog, List.append_nil]⟩
  · exact .inr ⟨d, hd, hkind, by rw [hd]; rfl, by rw [hlog]⟩

theorem runAnswer_step (s : Session) (source : String) :
    RunAnswer source s.log (s.step (.run source)).1 (s.step (.run source)).2.log where
  lexical _ := kind_of_mem_diagnostics
  entries := by
    have hlog : (s.step (.run source)).2.log = _ := snd_run s.log source
    rw [hlog]
    obtain ⟨tree, htree, hnil⟩ | ⟨d, hd, hkind, hone⟩ :=
      (Parser.ofTokens (ExprSyntax.scan source).tokens Parser.defaultMaxDepth).parse_cases
    · exact .inl ⟨tree, htree, by rw [parseTokens, hnil, List.append_nil]⟩
    · exact .inr ⟨d, hd, hkind, by rw [parseTokens, hone]⟩
  tree := ⟨_, rfl, fun _ => fst_run_eq_some_iff⟩

theorem effect_step (s : Session) (st : Step) : Effect s (s.step st).1 (s.step st).2 st := by
  cases st with
  | parse =>
    refine ⟨fun p hp => ⟨parseAnswer_step hp, ?_⟩, fun hnone => ?_⟩
    · simp [step, hp]
    · simp [step, hnone]
  | run source => exact ⟨runAnswer_step s source, rfl⟩
  | load | loadTokens | synchronize | scan | report | reset => exact ⟨rfl, rfl⟩

theorem lawful (s : Session) (st : Step) : Lawful s st where
  effect := effect_step s st
  added := exists_added s
  parser log := parser?_step_withLog s log st
  answer h log := answer_withLog s log h
  keepsParser h := by cases st <;> first | rfl | exact h.elim

/-- A run that gives a tree finds nothing in the log. -/
theorem fst_step_run_eq_tree_iff {s : Session} {source : String} {tree : Expr} :
    (s.step (.run source)).1 = .tree (some tree) ↔ s.log = [] ∧
      (ExprSyntax.scan source).diagnostics = [] ∧
        parseTokens (ExprSyntax.scan source).tokens = .ok tree := by
  obtain ⟨tree?, hanswer, htree⟩ := (runAnswer_step s source).tree
  rw [hanswer, ← htree tree]
  exact ⟨fun h => Answer.tree.inj h, fun h => by rw [h]⟩

/-- After any history every step is lawful. The log of a history holds what the steps behind its
last reset have added, and behind any other log they would have added the same. So a source that is
run then gives a tree exactly if none of these steps has reported anything and the source is scanned
and parsed without a report. -/
theorem lawful_history (steps : List Step) :
    (∀ st, Lawful (start.after steps) st) ∧
      ∀ front since, steps = front ++ since → front = [] ∨ front.getLast? = some .reset →
        (∀ st ∈ since, st ≠ .reset) →
          (start.after steps).log = ((start.after front).added since).flatten ∧
            (∀ log, ((start.after front).withLog log).after since =
              (start.after steps).withLog (log ++ ((start.after front).added since).flatten)) ∧
            ∀ source tree, ((start.after steps).step (.run source)).1 = .tree (some tree) ↔
              (∀ entries ∈ (start.after front).added since, entries = []) ∧
                (ExprSyntax.scan source).diagnostics = [] ∧
                  parseTokens (ExprSyntax.scan source).tokens = .ok tree := by
  refine ⟨lawful _, fun front since hsteps hfront hsince => ?_⟩
  have hempty : (start.after front).log = [] := by
    rcases hfront with rfl | hlast
    · rfl
    · obtain ⟨init, rfl⟩ := List.getLast?_eq_some_iff.1 hlast
      rw [after_append]
      rfl
  have hsame : (start.after front).withLog [] = start.after front := by
    rw [← hempty]
    rfl
  have hframe (log : Log) := after_withLog (start.after front) log hsince
  have hlog : (start.after steps).log = ((start.after front).added since).flatten := by
    have h := congrArg Session.log (hframe [])
    rwa [hsame, ← after_append, ← hsteps] at h
  refine ⟨hlog, fun log => ?_, fun source tree => ?_⟩
  · rw [hframe, hsteps, after_append]
  · rw [fst_step_run_eq_tree_iff, hlog, List.flatten_eq_nil_iff]

end Session

end ExprSyntax
