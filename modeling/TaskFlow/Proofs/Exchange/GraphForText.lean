import TaskFlow.Exchange
import TaskFlow.Proofs.Layout.Anchored
import TaskFlow.Proofs.Layout.Canonical
import TaskFlow.Proofs.Reader.Progress

namespace TaskFlow

open Definition

-- Whether a fault keeps a text from having a graph: it is too long, or it is not and cannot be
-- read.
inductive Exchange.Hinders (settings : Settings) (text : Option String) : ReadFault → Prop
  | tooLong : settings.maxLength < (text.getD "").length →
    Hinders settings text ⟨.tooLong (text.getD "").length settings.maxLength, settings.maxLength⟩
  | unreadable {f} : (text.getD "").length ≤ settings.maxLength →
    readOption text settings.maxDepth = .error f → Hinders settings text f

variable {settings : Settings} {text : Option String} {limit : Int} {d : Definition} {f : ReadFault}

theorem Definition.exists_toGraph_of_read {s : String} (h : read s limit = .ok d) :
    ∃ g, d.toGraph = .ok g := by
  have ⟨f, hf, _⟩ := (wellFormed_of_read h).drawn
  exact ⟨f.whole, toGraph_bare ▸ hf⟩

theorem Definition.exists_toGraph_of_readOption (h : readOption text limit = .ok d) :
    ∃ g, d.toGraph = .ok g := by
  cases text
  case none => cases h
  case some => exact exists_toGraph_of_read h

namespace Exchange

theorem Hinders.unique {f' : ReadFault} (h : Hinders settings text f)
    (h' : Hinders settings text f') : f = f' := by
  cases h <;> cases h'
  case tooLong.tooLong => rfl
  case unreadable.unreadable h _ h' => exact Except.error.inj (h.symm.trans h')
  all_goals omega

theorem Hinders.readOption_ne_ok (h : Hinders settings text f)
    (hl : (text.getD "").length ≤ settings.maxLength) :
    readOption text settings.maxDepth ≠ .ok d := by
  cases h
  case tooLong => omega
  case unreadable h =>
    rw [h]
    nofun

theorem hinders_or_read (settings : Settings) (text : Option String) :
    (∃ f, Hinders settings text f) ∨ (text.getD "").length ≤ settings.maxLength ∧
      ∃ d, readOption text settings.maxDepth = .ok d := by
  by_cases hl : (text.getD "").length ≤ settings.maxLength
  case neg => exact .inl ⟨_, .tooLong (Nat.lt_of_not_le hl)⟩
  case pos =>
    cases h : readOption text settings.maxDepth
    case error f => exact .inl ⟨f, .unreadable hl h⟩
    case ok d => exact .inr ⟨hl, d, rfl⟩

theorem run_graphForText_of_hinders (name : Option String) (h : Hinders settings text f) :
    ∃ reply events, (graphForText settings name text).run = (.ok reply, events) ∧
      reply.outcome = .error (f.diagnostic name) := by
  let reply : Reply Graph := ⟨.error (f.diagnostic name), ⟨"composedtask.parse", [
    ("composedtask.name", .text (name.getD "")),
    ("composedtask.dsl_length", .count (text.getD "").length),
    ("composedtask.error", .text (f.diagnostic name).kind)]⟩⟩
  refine ⟨reply, [.rejected name (f.diagnostic name).summary], ?_, rfl⟩
  have hr : readWithin settings name text = throw f := by
    cases h
    case tooLong h =>
      simp only [readWithin, if_pos h]
      rfl
    case unreadable hl h =>
      simp only [readWithin, if_neg (Nat.not_lt.mpr hl), read, h]
      rfl
  rw [graphForText, hr]
  rfl

theorem run_graphForText_of_read {g : Graph} (name : Option String)
    (hl : (text.getD "").length ≤ settings.maxLength)
    (h : readOption text settings.maxDepth = .ok d) (hg : d.toGraph = .ok g) :
    ∃ reply events, (graphForText settings name text).run = (.ok reply, events) ∧
      reply.outcome = .ok g := by
  let reply : Reply Graph := ⟨.ok g, ⟨"composedtask.parse", [
    ("composedtask.name", .text (name.getD "")),
    ("composedtask.dsl_length", .count (text.getD "").length),
    ("composedtask.nodes", .count g.nodes.length)]⟩⟩
  refine ⟨reply, [.read name d, .laidOut g.nodes.length g.links.length], ?_, rfl⟩
  have hr : readWithin settings name text = (do Journal.report (.read name d); pure d) := by
    simp only [readWithin, if_neg (Nat.not_lt.mpr hl), read, h]
    rfl
  have hj : layOut d = (do Journal.report (.laidOut g.nodes.length g.links.length); pure g) := by
    rw [layOut, hg]
    rfl
  rw [graphForText, hr]
  change StateT.run (ExceptT.run (layOut d >>= fun g => pure _)) [.read name d] = _
  rw [hj]
  rfl

-- There always is an outcome: the graph of what was read, or the diagnostic of the fault that
-- stands in its way. The reader comes to an end with every text, and what was read has a graph.
theorem graphForText_total (settings : Settings) (name text : Option String) :
    (∃ reply events, (graphForText settings name text).run = (.ok reply, events) ∧
      (∀ g, reply.outcome = .ok g ↔ (text.getD "").length ≤ settings.maxLength ∧
        ∃ d, readOption text settings.maxDepth = .ok d ∧ d.toGraph = .ok g) ∧
      ∀ x, reply.outcome = .error x ↔ ∃ f, Hinders settings text f ∧
        x = ⟨f.cause.kind.name, f.cause.message, some f.offset, name, none⟩) ∧
    (∀ s limit, s.toList.all Text.isBlank = false →
      Reading.Concludes limit { } (Token.scan s) (Definition.read s limit)) ∧
    ∀ s limit d, Definition.read s limit = .ok d → ∃ g, d.toGraph = .ok g := by
  refine ⟨?_, fun _ _ => Reading.concludes_scan, fun _ _ _ => exists_toGraph_of_read⟩
  -- Either something hinders the request, and it is one fault only, or the text is read, and what
  -- was read can be laid out.
  obtain ⟨f, hf⟩ | ⟨hl, d, hd⟩ := hinders_or_read settings text
  case inl =>
    have ⟨reply, events, hr, ho⟩ := run_graphForText_of_hinders name hf
    refine ⟨reply, events, hr, fun g => ?_, fun x => ?_⟩
    · refine iff_of_false (by simp [ho]) ?_
      rintro ⟨hl, d, hd, _⟩
      exact hf.readOption_ne_ok hl hd
    · rw [ho, Except.error.injEq]
      constructor
      · rintro rfl
        exact ⟨f, hf, rfl⟩
      · rintro ⟨f', hf', rfl⟩
        exact hf.unique hf' ▸ rfl
  case inr =>
    have ⟨g, hg⟩ := exists_toGraph_of_readOption hd
    have ⟨reply, events, hr, ho⟩ := run_graphForText_of_read name hl hd hg
    refine ⟨reply, events, hr, fun g' => ?_, fun x => ?_⟩
    · rw [ho, Except.ok.injEq]
      constructor
      · rintro rfl
        exact ⟨hl, d, hd, hg⟩
      · rintro ⟨_, d', hd', hg'⟩
        cases hd.symm.trans hd'
        exact Except.ok.inj (hg.symm.trans hg')
    · refine iff_of_false (by simp [ho]) ?_
      rintro ⟨f, hf, _⟩
      exact hf.readOption_ne_ok hl hd

theorem graphForText_taskWithClause : ∃ reply events d g,
    (graphForText {} none (some "a -> X: b")).run = (.ok reply, events) ∧
      reply.outcome = .ok g ∧ Definition.read "a -> X: b" 64 = .ok d ∧ d.toGraph = .ok g ∧
      Reading.Concludes 64 { } (Token.scan "a -> X: b") (.ok d) := by
  obtain ⟨⟨reply, events, hr, ho, _⟩, hc, hg⟩ := graphForText_total {} none (some "a -> X: b")
  have hs : Selective ["X"] := ⟨by decide, by decide, by decide⟩
  obtain ⟨d, hd, _⟩ := (@exists_read_iff "a -> X: b" 64 _).mpr ⟨[_, _, _, _, _],
    scan_taskWithClause, derives_taskWithClause, by simp [Lexeme.nestsFrom_cons, Lexeme.opens],
    by simp [labels_task], by simpa using hs⟩
  obtain ⟨g, hg⟩ := hg _ _ _ hd
  exact ⟨reply, events, d, g, hr, (ho g).mpr ⟨by decide, d, hd, hg⟩, hd, hg,
    hd ▸ hc _ _ (by decide)⟩

end Exchange

end TaskFlow
