import TaskFlow.CommandLine.Session
import TaskFlow.Proofs.Exchange.GraphForText
import TaskFlow.Proofs.Exchange.TextForGraph
import TaskFlow.Proofs.Layout.Printable
import TaskFlow.Proofs.Render.Roundtrip

namespace TaskFlow.CommandLine

open Json

variable {arguments : List String} {settings : Settings} {name : Option String} {text : String}
  {g : Graph} {r : Report} {span : Span} {events : List Log.Event} {document : Json}

section Sessions

-- Neither settings nor the log level depend on the command, and a run without them fails.
theorem start_uniform (environment : List (String × String)) :
    (∃ settings level, Settings.ofEnvironment environment = .ok settings ∧
      ∀ {arguments command}, Invocation.ofArguments arguments = .ok ⟨none, some command⟩ →
        Session.start arguments environment = .ok ⟨settings, level, command⟩) ∨
    ∀ {arguments command}, Invocation.ofArguments arguments = .ok ⟨none, some command⟩ →
      ∃ e, Session.start arguments environment = .error e ∧ ∀ r, e = .report r → r.code = 2 := by
  cases hs : Settings.ofEnvironment environment
  case faulty first more =>
    refine .inr fun ha => ⟨_, by rw [Session.start, ha, hs]; rfl, ?_⟩
    rintro _ ⟨⟩
    rfl
  case ok settings =>
    cases hl : Log.Level.ofName? settings.logLevel
    case none =>
      refine .inr fun ha => ⟨.unknownLevel settings.logLevel, ?_, nofun⟩
      rw [Session.start, ha, hs]
      simp [Except.mapError, bind, Except.bind, pure, Except.pure, hl]
      rfl
    case some level =>
      refine .inl ⟨settings, level, rfl, fun ha => ?_⟩
      rw [Session.start, ha, hs]
      simp [Except.mapError, bind, Except.bind, pure, Except.pure, hl]

end Sessions

section Documents

def graphText (g : Graph) : String :=
  (Outcome.graphToJson (.ok g)).pretty ++ "\n"

theorem faithful_graphToJson (h : g.Printable) : (Outcome.graphToJson (.ok g)).Faithful :=
  .object (by simp) (List.forall_mem_singleton.mpr h.faithful_toJson)

theorem read_graphText (h : g.Printable) :
    Json.read (graphText g) = .ok (Outcome.graphToJson (.ok g)) :=
  read_text spaced_indented (faithful_graphToJson h) isGap_lineFeed

theorem withUnifiedLines_of_isAscii (h : IsAscii text) : Text.withUnifiedLines text = text := by
  have hr : '\r' ∉ text.toList := fun hm => absurd (h _ hm) (by unfold IsPrinted; decide)
  rw [Text.withUnifiedLines, Text.unifyLines_eq_self hr, String.ofList_toList]

theorem withUnifiedLines_graphText (h : g.Printable) :
    Text.withUnifiedLines (graphText g) = graphText g :=
  withUnifiedLines_of_isAscii (isAscii_append.mpr
    ⟨(faithful_graphToJson h).isAscii spaced_indented 0, isGap_lineFeed.isAscii⟩)

-- The graph is taken out of the outcome it was written in.
theorem check_graphToJson (h : g.Printable) :
    Graph.check (Session.graphOf (Outcome.graphToJson (.ok g))) = .ok g := by
  have hg : Session.graphOf (Outcome.graphToJson (.ok g)) = g.toJson := by
    simp [Session.graphOf, Outcome.graphToJson, Outcome.toJson, field?, List.lookup_cons]
  rw [hg, h.readable.check_toJson]

end Documents

section Parse

theorem exists_toGraph_of_graphForText
    (h : (Exchange.graphForText settings name (some text)).run = (.ok ⟨.ok g, span⟩, events)) :
    ∃ d : Definition, d.toGraph = .ok g := by
  obtain ⟨f, hf⟩ | ⟨hl, d, hd⟩ := Exchange.hinders_or_read settings (some text)
  case inl =>
    have ⟨reply, _, hr, ho⟩ := Exchange.run_graphForText_of_hinders name hf
    cases hr.symm.trans h
    cases ho
  case inr =>
    have ⟨g', hg⟩ := Definition.exists_toGraph_of_readOption hd
    have ⟨reply, _, hr, ho⟩ := Exchange.run_graphForText_of_read name hl hd hg
    cases hr.symm.trans h
    cases ho
    exact ⟨d, hg⟩

theorem parseReport_of_code {s : Session} (h : (s.parseReport name text).code = 0) :
    ∃ g span events,
      (Exchange.graphForText s.settings name (some text)).run = (.ok ⟨.ok g, span⟩, events) ∧
      (s.parseReport name text).output = graphText g := by
  unfold Session.parseReport at h ⊢
  split at h
  case h_1 => cases h
  case h_2 reply events hr =>
    obtain ⟨_ | g, span⟩ := reply
    case error => cases h
    case ok => exact ⟨g, span, events, hr, rfl⟩

end Parse

section Render

theorem renderReport_of_check {s : Session} (h : Graph.check (Session.graphOf document) = .ok g) :
    ∃ reply events, (Exchange.textForGraph s.settings (.ok g)).run = (.ok reply, events) ∧
      (∀ text, reply.outcome = .ok text → (s.renderReport document).code = 0 ∧
        (s.renderReport document).output = text ++ "\n") ∧
      ∀ d, reply.outcome = .error d → (s.renderReport document).code = 1 ∧
        (s.renderReport document).output = "" := by
  have ⟨reply, events, hr, _⟩ := Exchange.run_textForGraph s.settings (.ok g)
  refine ⟨reply, events, hr, fun text ht => ?_, fun d hd => ?_⟩
  · simp [Session.renderReport, h, hr, ht]
  · simp [Session.renderReport, h, hr, hd]

end Render

section Arguments

-- Whether arguments ask for the text of the graph that the given text tells.
inductive Renders (s : Surroundings) (text : String) : List String → Prop
  | input : s.standardInput = text → Renders s text ["render"]
  | dash : s.standardInput = text → Renders s text ["render", "-"]
  | file {path : String} : path.toList.head? ≠ some '-' →
    s.file? (Text.tidyPath path) = some text → Renders s text ["render", path]

variable {κ : Type} (t : OptionTable κ) {argument : String}

theorem mark_of_head? (h : argument.toList.head? ≠ some '-') : t.mark argument = .operand := by
  unfold OptionTable.mark
  split
  case h_1 hc => exact absurd (by rw [hc]; rfl) h
  case h_2 => rfl

theorem piecesFrom_cons (h : argument.toList.head? ≠ some '-') : t.piecesFrom none
    (argument :: arguments) = .operand argument arguments :: t.piecesFrom none arguments := by
  have hs : argument ≠ separator := by
    rintro rfl
    exact h rfl
  rw [OptionTable.piecesFrom, if_neg hs, mark_of_head? t h]

theorem pieces_of_forall (h : ∀ a ∈ arguments, a.toList.head? ≠ some '-') :
    t.pieces arguments = t.piecesFrom none arguments := by
  refine if_neg fun hx => ?_
  obtain ⟨a, ha, hm⟩ := List.any_eq_true.mp hx
  rw [mark_of_head? t (h a ((List.takeWhile_sublist _).subset ha))] at hm
  cases hm

theorem ofArguments_file {path : String} (h : path.toList.head? ≠ some '-') :
    Invocation.ofArguments ["render", path] = .ok ⟨none, some (.render (some path))⟩ := by
  have hr : "render".toList.head? ≠ some '-' := by decide
  have hp : programOptions.pieces ["render", path]
      = [.operand "render" [path], .operand path []] := by
    rw [pieces_of_forall _ (by simpa using h), piecesFrom_cons _ hr, piecesFrom_cons _ h,
      OptionTable.piecesFrom]
  have hp' : renderOptions.pieces [path] = [.operand path []] := by
    rw [pieces_of_forall _ (List.forall_mem_singleton.mpr h), piecesFrom_cons _ h,
      OptionTable.piecesFrom]
  have hd : path ≠ "-" := by
    rintro rfl
    exact h rfl
  have hc : Command.read "render" [path] = .ok (.render (some path), false) := by
    simp [Command.read, hp', Given.ofPieces, Given.addOperands, Command.ofRender, hd, bind,
      Except.bind, pure, Except.pure]
  rw [Invocation.ofArguments, hp, Invocation.ofPieces, hc]
  rfl

theorem Renders.exists_command {s : Surroundings} (h : Renders s text arguments) :
    ∃ file, Invocation.ofArguments arguments = .ok ⟨none, some (.render file)⟩ ∧
      ∀ settings level, s.read (Session.source ⟨settings, level, .render file⟩)
        = .ok (Text.withUnifiedLines text) := by
  cases h
  case input h => exact ⟨none, rfl, fun _ _ => h ▸ rfl⟩
  case dash h => exact ⟨none, rfl, fun _ _ => h ▸ rfl⟩
  case file path hp hf =>
    refine ⟨some path, ofArguments_file hp, fun _ _ => ?_⟩
    simp [Session.source, Surroundings.read, hf]

end Arguments

-- What one run writes about a definition can be read by another one, and is rendered like the graph
-- of the definition itself.
theorem run_pipe {s s' : Surroundings} (h : run s ["parse"] = .report r) (hc : r.code = 0)
    (he : s'.environment = s.environment) (ha : Renders s' r.output arguments) :
    ∃ settings g span events reply events' r',
      Settings.ofEnvironment s.environment = .ok settings ∧
      (Exchange.graphForText settings none (some (Text.withUnifiedLines s.standardInput))).run
        = (.ok ⟨.ok g, span⟩, events) ∧
      (Exchange.textForGraph settings (.ok g)).run = (.ok reply, events') ∧
      run s' arguments = .report r' ∧
      (∀ text, reply.outcome = .ok text → r'.code = 0 ∧ r'.output = text ++ "\n") ∧
      ∀ d, reply.outcome = .error d → r'.code = 1 ∧ r'.output = "" := by
  have hp : Invocation.ofArguments ["parse"] = .ok ⟨none, some (.parse none .standardInput)⟩ := rfl
  obtain ⟨settings, level, hs, hstart⟩ | hstart := start_uniform s.environment
  case inr =>
    obtain ⟨e, hstart, hcode⟩ := hstart hp
    rw [run, hstart] at h
    exact absurd (hcode r h) (by omega)
  case inl =>
    have hr : r = Session.parseReport ⟨settings, level, .parse none .standardInput⟩ none
        (Text.withUnifiedLines s.standardInput) := by
      rw [run, hstart hp] at h
      exact (Ending.report.inj h).symm
    -- A graph that comes from a definition can be printed, so its text is read back as it was.
    obtain ⟨g, span, events, hg, hout⟩ := parseReport_of_code (hr ▸ hc)
    obtain ⟨d, hd⟩ := exists_toGraph_of_graphForText hg
    have hprint := Definition.printable_of_toGraph hd
    have hread := read_graphText hprint
    have hlines := withUnifiedLines_graphText hprint
    obtain ⟨file, hfile, hsource⟩ := ha.exists_command
    obtain ⟨reply, events', ht, hok, herror⟩ :=
      @renderReport_of_check g _ ⟨settings, level, .render file⟩ (check_graphToJson hprint)
    refine ⟨settings, g, span, events, reply, events', _, hs, hg, ht, ?_, hok, herror⟩
    rw [run, he, hstart hfile]
    simp [hsource, hr, hout, hlines, Session.finish, hread]

section QuotedStatus

open Definition Lexeme

def quotedStatus : Definition :=
  .transition { name := "a" } [(some "\"😀", .task { name := "b", offset := 11 })]

theorem scan_quotedStatus : Token.scan "a -> '\"😀': b"
    = [⟨.identifier "a", 0⟩, ⟨.arrow, 2⟩, ⟨.quoted "\"😀", 5⟩, ⟨.colon, 9⟩, ⟨.identifier "b", 11⟩,
      ⟨.endOfInput, 12⟩] := by
  simp [Token.scan, scanFrom_cons, isGap, first?, isNameChar, nameRun, isQuotable,
    isWord_of_lt]
  simp only [Token.scanFrom, Lexeme.text]
  decide

theorem read_quotedStatus (limit : Int) (hl : limit = 63 ∨ limit = 64) :
    Definition.read "a -> '\"😀': b" limit = .ok quotedStatus := by
  rw [Definition.read, scan_quotedStatus]
  obtain rfl | rfl := hl <;> rfl

theorem text_quotedStatus : quotedStatus.bare.canonical.text = "a -> '\"😀': b" := by
  have hs : statusText "\"😀" = "'\"😀'" := by
    simp [statusText, isName, nameRun, isNameChar, isWord_of_lt]
  rw [← canonicalText_eq]
  simp [quotedStatus, canonicalText, textParts, Part.behind, Part.clause, Part.target, Part.joined,
    TaskMention.text, hs, TaskMention.bare]

theorem render_quotedStatus : ∃ g, quotedStatus.toGraph = .ok g ∧
    g.render 64 = .ok "a -> '\"😀': b" := by
  have hx := legible_of_read (by decide) (read_quotedStatus 63 (.inl rfl))
  have hn : quotedStatus.bare.Dashless := dashless_bare.mpr (by simp [quotedStatus, Dashless])
  have h := hx.exists_render (by decide) (hx.not_clashes hn)
  rwa [toGraph_bare, text_quotedStatus] at h

theorem run_pipe_quotedStatus : ∃ r r',
    run { standardInput := "a -> '\"😀': b" } ["parse"] = .report r ∧ r.code = 0 ∧
      run { standardInput := r.output } ["render"] = .report r' ∧
        r'.code = 0 ∧ r'.output = "a -> '\"😀': b\n" := by
  have hlines : Text.withUnifiedLines "a -> '\"😀': b" = "a -> '\"😀': b" := rfl
  have hstart : Session.start ["parse"] []
      = .ok ⟨{ }, .warning, .parse none .standardInput⟩ := rfl
  have ⟨g, hg, ht⟩ := render_quotedStatus
  obtain ⟨⟨_, span⟩, events, hread, ho⟩ : ∃ reply events,
      (Exchange.graphForText { } none (some "a -> '\"😀': b")).run = (.ok reply, events) ∧
        reply.outcome = .ok g :=
    Exchange.run_graphForText_of_read none (by decide) (read_quotedStatus 64 (.inr rfl)) hg
  cases ho
  obtain ⟨r, hr, hc⟩ : ∃ r, run { standardInput := "a -> '\"😀': b" } ["parse"] = .report r ∧
      r.code = 0 := by
    rw [run, hstart]
    simp [Session.source, Surroundings.read, hlines, Session.finish, Session.parseReport, hread]
  obtain ⟨settings, g', span', events', reply, events'', r', hs, hg', ht', hr', hok, _⟩ :=
    @run_pipe ["render"] r _ { standardInput := r.output } hr hc rfl (.input rfl)
  have hs' : Settings.ofEnvironment [] = .ok { } := rfl
  cases hs'.symm.trans hs
  cases hread.symm.trans hg'
  obtain ⟨reply', _, hrun, ho⟩ := Exchange.run_textForGraph { } (.ok g)
  cases hrun.symm.trans ht'
  have ⟨hcode, hout⟩ := hok _ (ho.trans (congrArg (Except.mapError RenderFault.diagnostic) ht))
  exact ⟨r, r', hr, hc, hr', hcode, hout⟩

end QuotedStatus

end TaskFlow.CommandLine
