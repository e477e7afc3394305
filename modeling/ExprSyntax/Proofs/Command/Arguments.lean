import ExprSyntax.Proofs.Command.Words

/-!
# What a command line asks for

`Gives args g g'`: what is given grows from `g` to `g'` along the arguments `args`, where nothing is
given twice. A command line asks for a run with some options exactly if it gives them, behind
nothing (`request_eq_run_iff`). Forwards the induction goes along `Gives`, backwards along the
reading; what carries both is that a reading that is not waiting for a value settles to what has
been given so far.
-/

namespace ExprSyntax

namespace Command

/-- The two spellings of a flag with its value. -/
inductive Valued (flag value : String) : List String → Prop
  | apart : Valued flag value [flag, value]
  | attached : Valued flag value [flag ++ "=" ++ value]

/-! ## What is given -/

/-- What the arguments of a command line can give. -/
structure Given where
  print? : Option PrintChoice
  tokens : Bool
  color? : Option ColorChoice
  script? : Option String

namespace Given

def nothing : Given := ⟨none, false, none, none⟩

/-- The options of a run; what is not given has its default. -/
def options (g : Given) : Options where
  print := g.print?.getD .ast
  tokens := g.tokens
  color := g.color?.getD .auto
  script := g.script?

end Given

/-- The arguments that give one thing more. A script may be called `-` but not begin like a flag. -/
inductive Adds : List String → Given → Given → Prop
  | print {option g} (choice : PrintChoice) : Valued "--print" choice.word option →
      g.print? = none → Adds option g { g with print? := some choice }
  | tokens {g} : g.tokens = false → Adds ["--tokens"] g { g with tokens := true }
  | color {option g} (choice : ColorChoice) : Valued "--color" choice.word option →
      g.color? = none → Adds option g { g with color? := some choice }
  | script {g path} : path ≠ "" → IsPlain path → g.script? = none →
      Adds [path] g { g with script? := some path }

/-- Arguments and what they give behind others. Behind `--` nothing but a script can come, whatever
it begins with. -/
inductive Gives : List String → Given → Given → Prop
  | nil {g} : Gives [] g g
  | ended {g} : Gives ["--"] g g
  | endedScript {g path} : path ≠ "" → g.script? = none →
      Gives ["--", path] g { g with script? := some path }
  | append {front args g g' g''} : Adds front g g' → Gives args g' g'' → Gives (front ++ args) g g''

/-- Behind a command line without a script there is room for one. -/
theorem Gives.append_script {args : List String} {g g' : Given} {path : String}
    (h : Gives args g g') (hnone : g'.script? = none) (hpath : path ≠ "") (hplain : IsPlain path) :
    Gives (args ++ [path]) g { g' with script? := some path } := by
  induction h with
  | nil => exact @Gives.append [path] [] _ _ _ (.script hpath hplain hnone) .nil
  | ended => exact .endedScript hpath hnone
  | endedScript => cases hnone
  | append hadds _ ih =>
    rw [List.append_assoc]
    exact .append hadds (ih hnone)

/-! ## Steps that can fail -/

section
variable {α β : Type}

@[simp] theorem ok_bind (a : α) (f : α → Except UsageError β) : Except.ok a >>= f = f a := rfl

theorem bind_eq_ok_iff {x : Except UsageError α} {f : α → Except UsageError β} {b : β} :
    x >>= f = .ok b ↔ ∃ a, x = .ok a ∧ f a = .ok b := by
  cases x with
  | error e => exact ⟨nofun, nofun⟩
  | ok a => simp

end

/-! ## What has been read -/

/-- The reading of what is given, with nothing pending. -/
def Given.reading (g : Given) : Reading := ⟨g.print?, g.tokens, g.color?, g.script?, none⟩

theorem Given.reading_inj {g g' : Given} : g.reading = g'.reading ↔ g = g' := by
  obtain ⟨_, _, _, _⟩ := g
  obtain ⟨_, _, _, _⟩ := g'
  simp [reading]

namespace Reading

variable {r r' : Reading} {g : Given} {argument : ValueArgument} {value : String}

theorem settle_reading (g : Given) : g.reading.settle = .ok g.reading := rfl

theorem settle_pending (g : Given) (argument : ValueArgument) (value : String) :
    settle { g.reading with pending? := some ⟨argument, some value⟩ } =
      g.reading.put argument value := rfl

theorem put_print_eq_ok_iff : g.reading.put .print value = .ok r' ↔
    ∃ choice, value = PrintChoice.word choice ∧ g.print? = none ∧
      r' = { g with print? := some choice }.reading := by
  obtain ⟨print?, _, color?, _⟩ := g
  simp only [← PrintChoice.ofWord?_eq_some_iff, put, Given.reading]
  cases print? <;> cases PrintChoice.ofWord? value <;> simp [eq_comm]

theorem put_color_eq_ok_iff : g.reading.put .color value = .ok r' ↔
    ∃ choice, value = ColorChoice.word choice ∧ g.color? = none ∧
      r' = { g with color? := some choice }.reading := by
  obtain ⟨print?, _, color?, _⟩ := g
  simp only [← ColorChoice.ofWord?_eq_some_iff, put, Given.reading]
  cases color? <;> cases ColorChoice.ofWord? value <;> simp [eq_comm]

theorem put_script_eq_ok_iff : g.reading.put .script value = .ok r' ↔
    value ≠ "" ∧ r' = { g with script? := some value }.reading := by
  simp only [put, Given.reading]
  split <;> simp_all [eq_comm]

theorem exists_reading_of_put (h : g.reading.put argument value = .ok r') :
    (∃ g', r' = Given.reading g') ∧
      r'.script? = if argument = .script then some value else g.script? := by
  cases argument with
  | print =>
    obtain ⟨_, -, -, rfl⟩ := put_print_eq_ok_iff.1 h
    exact ⟨⟨_, rfl⟩, rfl⟩
  | color =>
    obtain ⟨_, -, -, rfl⟩ := put_color_eq_ok_iff.1 h
    exact ⟨⟨_, rfl⟩, rfl⟩
  | script =>
    obtain ⟨-, rfl⟩ := put_script_eq_ok_iff.1 h
    exact ⟨⟨_, rfl⟩, rfl⟩

/-- What is settled is the reading of something given, and has the script that was read. -/
theorem exists_reading_of_settle (h : r.settle = .ok r') :
    (∃ g, r' = Given.reading g) ∧ r.hasScript = r'.script?.isSome := by
  obtain ⟨print?, tokens, color?, script?, pending?⟩ := r
  match pending? with
  | none =>
    cases h
    exact ⟨⟨⟨print?, tokens, color?, script?⟩, rfl⟩, by simp [hasScript]⟩
  | some ⟨argument, none⟩ => cases h
  | some ⟨argument, some value⟩ =>
    obtain ⟨hg, hscript⟩ := exists_reading_of_put (g := ⟨print?, tokens, color?, script?⟩) h
    refine ⟨hg, ?_⟩
    rw [hscript]
    split <;> simp_all [hasScript]

/-- The reading does not stop at an option whose value has yet to come. -/
def Rests (r : Reading) : Prop :=
  ∀ argument, r.pending? ≠ some ⟨argument, none⟩

theorem rests_of_settle (h : r.settle = .ok r') : r.Rests := by
  intro argument hwaits
  rw [settle, hwaits] at h
  cases h

theorem takePlain_of_rests (h : r.Rests) (text : String) :
    r.takePlain text = r.takeScript text := by
  unfold takePlain
  split
  · exact absurd ‹_› (h _)
  · rfl

theorem takeScript_eq_ok_iff {text : String} : r.takeScript text = .ok r' ↔
    ∃ g, r.settle = .ok (Given.reading g) ∧ g.script? = none ∧
      r' = { g.reading with pending? := some ⟨.script, some text⟩ } := by
  constructor
  · intro h
    unfold takeScript at h
    split at h
    · cases h
    · rename_i hnone
      obtain ⟨s, hs, h⟩ := bind_eq_ok_iff.1 h
      obtain ⟨⟨g, rfl⟩, hscript⟩ := exists_reading_of_settle hs
      cases h
      rw [hscript] at hnone
      exact ⟨g, hs, by simpa [Given.reading] using hnone, rfl⟩
  · rintro ⟨g, hs, hnone, rfl⟩
    have hscript := (exists_reading_of_settle hs).2
    have hfree : r.hasScript = false := by
      rw [hscript, show g.reading.script? = none from hnone, Option.isSome_none]
    rw [takeScript, hfree, hs]
    rfl

theorem takeTokens_eq_ok_iff : r.takeTokens = .ok r' ↔
    ∃ g, r.settle = .ok (Given.reading g) ∧ g.tokens = false ∧
      r' = { g with tokens := true }.reading := by
  constructor
  · intro h
    obtain ⟨s, hs, h⟩ := bind_eq_ok_iff.1 h
    obtain ⟨⟨g, rfl⟩, -⟩ := exists_reading_of_settle hs
    split at h
    · cases h
    · rename_i hnone
      cases h
      exact ⟨g, hs, by simpa [Given.reading] using hnone, rfl⟩
  · rintro ⟨g, hs, hnone, rfl⟩
    rw [takeTokens, hs, ok_bind, show g.reading.tokens = false from hnone]
    rfl

theorem takeOption_eq_ok_iff {attached? : Option String} :
    r.takeOption argument attached? = .ok r' ↔ ∃ g, r.settle = .ok (Given.reading g) ∧
      match attached? with
      | some value => g.reading.put argument value = .ok r'
      | none => r' = { g.reading with pending? := some ⟨argument, none⟩ } := by
  constructor
  · intro h
    obtain ⟨s, hs, h⟩ := bind_eq_ok_iff.1 h
    obtain ⟨⟨g, rfl⟩, -⟩ := exists_reading_of_settle hs
    refine ⟨g, hs, ?_⟩
    cases attached? with
    | some value => exact h
    | none =>
      cases h
      rfl
  · rintro ⟨g, hs, h⟩
    rw [takeOption, hs, ok_bind]
    cases attached? with
    | some value => exact h
    | none => rw [h]; rfl

end Reading

/-! ## Reading on -/

section
variable {r s : Reading} {g g' : Given} {args : List String} {o : Options}

theorem requestFrom_nil : requestFrom r [] = r.settle >>= fun r => .ok (.run r.options) := rfl

theorem requestPlain_nil : requestPlain r [] = r.settle >>= fun r => .ok (.run r.options) := rfl

theorem requestFrom_ended : requestFrom r ("--" :: args) = requestPlain r args := by
  simp only [requestFrom, show Word.ofArgument "--" = .endOfFlags from rfl]

theorem requestFrom_tokens :
    requestFrom r ("--tokens" :: args) = r.takeTokens >>= (requestFrom · args) := by
  simp only [requestFrom, show Word.ofArgument "--tokens" = .long "tokens" none by decide]

theorem requestFrom_plain {text : String} (h : Word.ofArgument text = .plain text) :
    requestFrom r (text :: args) = r.takePlain text >>= (requestFrom · args) := by
  simp only [requestFrom, h]

/-- The flag `name` takes the option `argument`. -/
def Takes (name : String) (argument : ValueArgument) : Prop :=
  ∀ {r : Reading} {arg : String} {attached? : Option String} {args : List String},
    Word.ofArgument arg = .long name attached? →
      requestFrom r (arg :: args) = r.takeOption argument attached? >>= (requestFrom · args)

theorem takes_print : Takes "print" .print := by
  intro r arg attached? args h
  simp only [requestFrom, h]

theorem takes_color : Takes "color" .color := by
  intro r arg attached? args h
  simp only [requestFrom, h]

/-- Behind an option and its value, in either spelling, the reading goes on with the value. -/
theorem exists_requestFrom_of_valued {name flag value : String} {argument : ValueArgument}
    {option : List String} (htakes : Takes name argument)
    (hflag : flag.toList = '-' :: '-' :: name.toList) (hname : name.toList ≠ [])
    (hequals : '=' ∉ name.toList) (hvalue : value.toList.head? ≠ some '-')
    (hoption : Valued flag value option) (hr : r.settle = .ok g.reading)
    (hput : g.reading.put argument value = .ok g'.reading) :
    ∃ s : Reading, s.settle = .ok g'.reading ∧
      ∀ args, requestFrom r (option ++ args) = requestFrom s args := by
  cases hoption with
  | apart =>
    have hlong : Word.ofArgument flag = .long name none :=
      ofArgument_long (by simpa using hflag) hname hequals
    refine ⟨{ g.reading with pending? := some ⟨argument, some value⟩ }, hput, fun args => ?_⟩
    rw [List.cons_append, List.singleton_append, htakes hlong,
      Reading.takeOption_eq_ok_iff.2 ⟨g, hr, rfl⟩, ok_bind]
    exact requestFrom_plain (ofArgument_plain (.inr hvalue))
  | attached =>
    have hlong : Word.ofArgument (flag ++ "=" ++ value) = .long name (some value) :=
      ofArgument_long (by simp [hflag]) hname hequals
    refine ⟨g'.reading, rfl, fun args => ?_⟩
    rw [List.singleton_append, htakes hlong, Reading.takeOption_eq_ok_iff.2 ⟨g, hr, hput⟩, ok_bind]

theorem exists_requestFrom_of_adds {front : List String} (h : Adds front g g')
    (hr : r.settle = .ok g.reading) :
    ∃ s : Reading, s.settle = .ok g'.reading ∧
      ∀ args, requestFrom r (front ++ args) = requestFrom s args := by
  cases h with
  | print choice hoption hnone =>
    have hput := Reading.put_print_eq_ok_iff.2 ⟨choice, rfl, hnone, rfl⟩
    exact exists_requestFrom_of_valued takes_print rfl (by decide) (by decide)
      (by cases choice <;> decide) hoption hr hput
  | color choice hoption hnone =>
    have hput := Reading.put_color_eq_ok_iff.2 ⟨choice, rfl, hnone, rfl⟩
    exact exists_requestFrom_of_valued takes_color rfl (by decide) (by decide)
      (by cases choice <;> decide) hoption hr hput
  | tokens hnone =>
    refine ⟨_, Reading.settle_reading _, fun args => ?_⟩
    rw [List.singleton_append, requestFrom_tokens,
      Reading.takeTokens_eq_ok_iff.2 ⟨g, hr, hnone, rfl⟩, ok_bind]
  | @script _ path hpath hplain hnone =>
    have hput := (Reading.put_script_eq_ok_iff (g := g)).2 ⟨hpath, rfl⟩
    refine ⟨{ g.reading with pending? := some ⟨.script, some path⟩ }, hput, fun args => ?_⟩
    rw [List.singleton_append, requestFrom_plain (ofArgument_plain hplain),
      Reading.takePlain_of_rests (Reading.rests_of_settle hr),
      Reading.takeScript_eq_ok_iff.2 ⟨g, hr, hnone, rfl⟩, ok_bind]

theorem requestFrom_of_gives (h : Gives args g g') (hr : r.settle = .ok g.reading) :
    requestFrom r args = .ok (.run g'.options) := by
  induction h generalizing r with
  | nil =>
    rw [requestFrom_nil, hr]
    rfl
  | ended =>
    rw [requestFrom_ended, requestPlain_nil, hr]
    rfl
  | @endedScript g path hpath hnone =>
    rw [requestFrom_ended, requestPlain, Reading.takeScript_eq_ok_iff.2 ⟨g, hr, hnone, rfl⟩,
      ok_bind, requestPlain_nil, Reading.settle_pending,
      Reading.put_script_eq_ok_iff.2 ⟨hpath, rfl⟩]
    rfl
  | append hadds _ ih =>
    obtain ⟨s, hs, hread⟩ := exists_requestFrom_of_adds hadds hr
    rw [hread, ih hs]

/-! ## Back from the options -/

/-- The arguments that a reading can go on with. -/
theorem requestFrom_cons_cases {arg : String} (h : requestFrom r (arg :: args) = .ok (.run o)) :
    (arg = "--" ∧ requestPlain r args = .ok (.run o)) ∨
      ∃ s, requestFrom s args = .ok (.run o) ∧
        (IsPlain arg ∧ r.takePlain arg = .ok s ∨
          arg = "--tokens" ∧ r.takeTokens = .ok s ∨
          (∃ attached?, Word.ofArgument arg = .long "print" attached? ∧
            r.takeOption .print attached? = .ok s) ∨
          ∃ attached?, Word.ofArgument arg = .long "color" attached? ∧
            r.takeOption .color attached? = .ok s) := by
  unfold requestFrom at h
  split at h
  case h_1 hword => exact .inl ⟨of_ofArgument_endOfFlags hword, h⟩
  case h_2 hword =>
    obtain ⟨rfl, hplain⟩ := of_ofArgument_plain hword
    obtain ⟨s, hs, hread⟩ := bind_eq_ok_iff.1 h
    exact .inr ⟨s, hread, .inl ⟨hplain, hs⟩⟩
  case h_3 attached? hword =>
    obtain ⟨s, hs, hread⟩ := bind_eq_ok_iff.1 h
    exact .inr ⟨s, hread, .inr (.inr (.inl ⟨attached?, hword, hs⟩))⟩
  case h_4 attached? hword =>
    obtain ⟨s, hs, hread⟩ := bind_eq_ok_iff.1 h
    exact .inr ⟨s, hread, .inr (.inr (.inr ⟨attached?, hword, hs⟩))⟩
  case h_5 hword =>
    obtain ⟨s, hs, hread⟩ := bind_eq_ok_iff.1 h
    have harg : arg = "--tokens" := String.toList_inj.1 (toList_of_ofArgument_long hword)
    exact .inr ⟨s, hread, .inr (.inl ⟨harg, hs⟩)⟩
  -- help and version end the reading
  case h_7 | h_9 | h_12 | h_13 =>
    obtain ⟨_, -, hrun⟩ := bind_eq_ok_iff.1 h
    cases hrun
  all_goals cases h

/-- An option without a value is followed by one. -/
theorem exists_value_of_pending {argument : ValueArgument}
    (h : requestFrom { g.reading with pending? := some ⟨argument, none⟩ } args = .ok (.run o)) :
    ∃ value rest, args = value :: rest ∧
      requestFrom { g.reading with pending? := some ⟨argument, some value⟩ } rest =
        .ok (.run o) := by
  cases args with
  | nil => cases h
  | cons arg args =>
    obtain ⟨-, h⟩ | ⟨s, hread, ⟨-, hs⟩ | ⟨-, hs⟩ | ⟨_, -, hs⟩ | ⟨_, -, hs⟩⟩ :=
      requestFrom_cons_cases h
    -- whatever does not look at the value settles it first, which fails
    · cases args with
      | nil => cases h
      | cons path rest =>
        obtain ⟨s, hs, -⟩ := bind_eq_ok_iff.1 h
        obtain ⟨_, hsettle, -, -⟩ := Reading.takeScript_eq_ok_iff.1 hs
        cases hsettle
    · cases hs
      exact ⟨arg, args, rfl, hread⟩
    · cases hs
    · cases hs
    · cases hs

/-- The arguments begin with some that give one thing more, and behind these they are read to the
end. That something is given is seen only when it settles. -/
def GoesOn (r : Reading) (args : List String) (o : Options) : Prop :=
  ∃ g front rest s, r.settle = .ok (Given.reading g) ∧ args = front ++ rest ∧
    (∀ g', s.settle = .ok (Given.reading g') → Adds front g g') ∧ s.Rests ∧
    requestFrom s rest = .ok (.run o) ∧ rest.length < args.length

theorem adds_of_put_print {value : String} {option : List String}
    (hoption : Valued "--print" value option)
    (hput : g.reading.put .print value = .ok g'.reading) : Adds option g g' := by
  obtain ⟨choice, rfl, hnone, hg⟩ := Reading.put_print_eq_ok_iff.1 hput
  rw [Given.reading_inj.1 hg]
  exact .print choice hoption hnone

theorem adds_of_put_color {value : String} {option : List String}
    (hoption : Valued "--color" value option)
    (hput : g.reading.put .color value = .ok g'.reading) : Adds option g g' := by
  obtain ⟨choice, rfl, hnone, hg⟩ := Reading.put_color_eq_ok_iff.1 hput
  rw [Given.reading_inj.1 hg]
  exact .color choice hoption hnone

/-- An option is read on with its value. -/
theorem goesOn_of_takeOption {name flag arg : String} {attached? : Option String}
    {argument : ValueArgument}
    (hadds : ∀ {g g' value option}, Valued flag value option →
      (Given.reading g).put argument value = .ok (Given.reading g') → Adds option g g')
    (hflag : flag.toList = '-' :: '-' :: name.toList)
    (hlong : Word.ofArgument arg = .long name attached?)
    (hs : r.takeOption argument attached? = .ok s) (h : requestFrom s args = .ok (.run o)) :
    GoesOn r (arg :: args) o := by
  have harg := toList_of_ofArgument_long hlong
  obtain ⟨g, hr, hs⟩ := Reading.takeOption_eq_ok_iff.1 hs
  cases attached? with
  | none =>
    cases hs
    obtain ⟨value, rest, rfl, hread⟩ := exists_value_of_pending h
    have heq : arg = flag := by
      rw [← String.toList_inj, harg, hflag]
      simp
    refine ⟨g, [arg, value], rest, _, hr, rfl, fun g' hsettle => ?_, ?_, hread, ?_⟩
    · exact hadds (heq ▸ .apart) hsettle
    · simp [Reading.Rests]
    · simp only [List.length_cons]
      omega
  | some value =>
    have heq : arg = flag ++ "=" ++ value := by
      rw [← String.toList_inj, harg]
      simp [hflag]
    have hput : g.reading.put argument value = .ok s := hs
    obtain ⟨⟨g', rfl⟩, -⟩ := Reading.exists_reading_of_put hput
    refine ⟨g, [arg], args, g'.reading, hr, rfl, fun g'' hsettle => ?_,
      Reading.rests_of_settle (Reading.settle_reading g'), h, Nat.lt_succ_self _⟩
    rw [← Given.reading_inj.1 (Except.ok.inj hsettle)]
    exact hadds (heq ▸ .attached) hput

theorem goesOn_of_requestFrom {arg : String} (hrests : r.Rests)
    (h : requestFrom r (arg :: args) = .ok (.run o)) :
    (arg = "--" ∧ requestPlain r args = .ok (.run o)) ∨ GoesOn r (arg :: args) o := by
  obtain h | ⟨s, hread, ⟨hplain, hs⟩ | ⟨rfl, hs⟩ | ⟨_, hlong, hs⟩ | ⟨_, hlong, hs⟩⟩ :=
    requestFrom_cons_cases h
  · exact .inl h
  · rw [Reading.takePlain_of_rests hrests] at hs
    obtain ⟨g, hr, hnone, rfl⟩ := Reading.takeScript_eq_ok_iff.1 hs
    refine .inr ⟨g, [arg], args, _, hr, rfl, fun g' hsettle => ?_, by simp [Reading.Rests], hread,
      Nat.lt_succ_self _⟩
    obtain ⟨hpath, hg⟩ := Reading.put_script_eq_ok_iff.1 hsettle
    rw [Given.reading_inj.1 hg]
    exact .script hpath hplain hnone
  · obtain ⟨g, hr, hnone, rfl⟩ := Reading.takeTokens_eq_ok_iff.1 hs
    refine .inr ⟨g, ["--tokens"], args, _, hr, rfl, fun g' hsettle => ?_,
      Reading.rests_of_settle (Reading.settle_reading _), hread, Nat.lt_succ_self _⟩
    rw [← Given.reading_inj.1 (Except.ok.inj hsettle)]
    exact .tokens hnone
  · exact .inr (goesOn_of_takeOption adds_of_put_print rfl hlong hs hread)
  · exact .inr (goesOn_of_takeOption adds_of_put_color rfl hlong hs hread)

theorem exists_options_of_requestPlain_nil (h : requestPlain r [] = .ok (.run o)) :
    ∃ g, r.settle = .ok (Given.reading g) ∧ o = g.options := by
  obtain ⟨r', hr, ho⟩ := bind_eq_ok_iff.1 h
  obtain ⟨⟨g, rfl⟩, -⟩ := Reading.exists_reading_of_settle hr
  cases ho
  exact ⟨g, hr, rfl⟩

theorem exists_gives_of_requestPlain (h : requestPlain r args = .ok (.run o)) :
    ∃ g g', r.settle = .ok (Given.reading g) ∧ Gives ("--" :: args) g g' ∧ o = g'.options := by
  match args with
  | [] =>
    obtain ⟨g, hr, ho⟩ := exists_options_of_requestPlain_nil h
    exact ⟨g, g, hr, .ended, ho⟩
  | path :: rest =>
    obtain ⟨s, hs, hread⟩ := bind_eq_ok_iff.1 h
    obtain ⟨g, hr, hnone, rfl⟩ := Reading.takeScript_eq_ok_iff.1 hs
    cases rest with
    | nil =>
      obtain ⟨g', hg', ho⟩ := exists_options_of_requestPlain_nil hread
      obtain ⟨hpath, hg⟩ := Reading.put_script_eq_ok_iff.1 hg'
      exact ⟨g, g', hr, Given.reading_inj.1 hg ▸ .endedScript hpath hnone, ho⟩
    | cons text rest =>
      obtain ⟨_, hs, -⟩ := bind_eq_ok_iff.1 hread
      simp [Reading.takeScript, Reading.hasScript] at hs
      cases hs

theorem exists_gives_of_requestFrom {r : Reading} {args : List String} (hrests : r.Rests)
    (h : requestFrom r args = .ok (.run o)) :
    ∃ g g', r.settle = .ok (Given.reading g) ∧ Gives args g g' ∧ o = g'.options := by
  match args with
  | [] =>
    obtain ⟨g, hr, ho⟩ := exists_options_of_requestPlain_nil h
    exact ⟨g, g, hr, .nil, ho⟩
  | arg :: args =>
    obtain ⟨rfl, h⟩ | ⟨g, front, rest, s, hr, hargs, hadds, hrests, hread, hlt⟩ :=
      goesOn_of_requestFrom hrests h
    · exact exists_gives_of_requestPlain h
    · obtain ⟨g', g'', hs, hgives, ho⟩ := exists_gives_of_requestFrom hrests hread
      exact ⟨g, g'', hr, hargs ▸ .append (hadds g' hs) hgives, ho⟩
termination_by args.length
decreasing_by exact hlt

end

/-- A command line asks for a run with the options that it gives. -/
theorem request_eq_run_iff {args : List String} {o : Options} :
    request args = .ok (.run o) ↔ ∃ g, Gives args .nothing g ∧ o = g.options := by
  constructor
  · intro h
    obtain ⟨g, g', hg, hgives, ho⟩ :=
      exists_gives_of_requestFrom (Reading.rests_of_settle (Reading.settle_reading .nothing)) h
    have hnothing : g = .nothing := (Given.reading_inj.1 (Except.ok.inj hg)).symm
    exact ⟨g', hnothing ▸ hgives, ho⟩
  · rintro ⟨g, hgives, rfl⟩
    exact requestFrom_of_gives hgives rfl

end Command

end ExprSyntax
