import TaskFlow.Proofs.Reader.Progress

namespace TaskFlow

open Lexeme ReadFault

-- Whether lexemes begin a sentence of the grammar, which has the end of the input behind it.
def Viable (ls : List Lexeme) : Prop :=
  ∃ s d, Derives .sequence s d ∧ ls <+: s ++ [.endOfInput]

variable {ls ls₁ ls₂ ls₃ ls₄ rest : List Lexeme} {l : Lexeme} {d : Definition}

theorem Viable.of_derives (h : Derives .sequence ls d) : Viable ls :=
  ⟨ls, d, h, List.prefix_append ls _⟩

theorem Viable.mono (h : Viable ls) (hp : ls₁ <+: ls) : Viable ls₁ :=
  have ⟨s, d, hs, hp'⟩ := h
  ⟨s, d, hs, hp.trans hp'⟩

section Ends

theorem forall_mem_intercalate {P : Lexeme → Prop} {sep : Lexeme} {xs : List (List Lexeme)}
    (hs : P sep) (h : ∀ x ∈ xs, ∀ l ∈ x, P l) : ∀ l ∈ [sep].intercalate xs, P l := by
  induction xs
  case nil => exact List.forall_mem_nil P
  case cons x xs hi =>
    rw [List.forall_mem_cons] at h
    cases xs
    case nil => simpa using h.1
    case cons =>
      rw [List.intercalate_cons_cons, List.forall_mem_append, List.forall_mem_append]
      exact ⟨⟨h.1, List.forall_mem_singleton.mpr hs⟩, hi h.2⟩

theorem LabeledTask.isLast_eq_false {t : TaskMention} (h : LabeledTask ls t) :
    ∀ l ∈ ls, l.isLast = false := by
  cases h
  all_goals simp [isLast]

theorem Arm.isLast_eq_false {a : Arm} (h : a.status.pattern?.isSome)
    (ha : ∀ l ∈ a.lexemes, l.isLast = false) : ∀ l ∈ a.spelling, l.isLast = false := by
  have hs : a.status.isLast = false := by
    cases hl : a.status <;> simp [hl, pattern?] at h <;> rfl
  simp only [Arm.spelling, List.forall_mem_cons]
  exact ⟨rfl, hs, rfl, ha⟩

-- No phrase is spelled with what ends a stream.
theorem Derives.isLast_eq_false {n : Phrase} (h : Derives n ls d) :
    ∀ l ∈ ls, l.isLast = false := by
  induction h
  case sequence hi => exact forall_mem_intercalate rfl (List.forall_mem_map.mpr hi)
  case split hi =>
    rw [List.cons_append, List.forall_mem_cons, List.forall_mem_append]
    refine ⟨rfl, forall_mem_intercalate rfl (List.forall_mem_map.mpr hi), ?_⟩
    exact List.forall_mem_singleton.mpr rfl
  case group hi =>
    rw [List.cons_append, List.forall_mem_cons, List.forall_mem_append]
    exact ⟨rfl, hi, List.forall_mem_singleton.mpr rfl⟩
  case transition ht hs _ hi =>
    rw [List.forall_mem_append, List.forall_mem_flatMap]
    exact ⟨ht.isLast_eq_false, fun a ha => Arm.isLast_eq_false (hs a ha) (hi a ha)⟩
  case labeledTask ht => exact ht.isLast_eq_false
  case alternative hi => exact hi

theorem not_viable_of_invalid {c : Char} : ¬ Viable (ls ++ [.invalid c]) := by
  rintro ⟨s, d, hs, hp⟩
  have hm : .invalid c ∈ s ++ [.endOfInput] := hp.subset (by simp)
  rw [List.mem_append, List.mem_singleton] at hm
  obtain hm | hm := hm
  case inl => cases hs.isLast_eq_false _ hm
  case inr => cases hm

end Ends

namespace Phrase

-- Whether a phrase may stand where a step or a target begins.
def Stands (n : Phrase) : Prop :=
  n = .labeledTask ∨ n = .split ∨ n = .group

end Phrase

section Completions

variable {n : Phrase} {level : Level} {bs : List Bracket} {q : Place}

-- What stands at a place is an element, or it makes one together with what leads up to it.
theorem Place.Spelled.element (h : q.Spelled ls₁) (hn : n.Stands) (hd : Derives n ls₂ d) :
    ∃ d', Derives .element (ls₁ ++ ls₂) d' := by
  cases q
  case step =>
    cases h
    obtain rfl | rfl | rfl := hn
    case inl =>
      cases hd
      case alternative hm _ => simp [Phrase.alternatives] at hm
      case labeledTask ht =>
        exact ⟨_, .alternative (by simp [Phrase.alternatives]) (Derives.of_task ht)⟩
    all_goals exact ⟨_, .alternative (by simp [Phrase.alternatives]) hd⟩
  case target chain p =>
    obtain ⟨ls, l, rfl, hc, hl⟩ := h
    have ht : Derives .target ls₂ d := by
      obtain rfl | rfl | rfl := hn
      all_goals exact .alternative (by simp [Phrase.alternatives]) hd
    exact ⟨_, .alternative (by simp [Phrase.alternatives]) (hc.addClause hl ht)⟩

-- By induction on the open brackets: each of them can be closed behind an element.
theorem Enclosed.viable (he : Enclosed bs ls₁) (hf : level.Fits bs) (hl : level.Spelled ls₂)
    (hd : Derives .element ls₃ d) : Viable (ls₁ ++ ls₂ ++ ls₃) := by
  induction he generalizing level ls₂ ls₃ d
  case nil =>
    obtain ⟨ls, ls', rfl, hb, hs⟩ := hl
    have hn : level.branches = [] := by simpa [Level.Fits] using hf
    rw [hn] at hb
    cases hb
    exact .of_derives (by simpa using hs.sequence hd)
  case cons b bs ls₄ ls₅ ls₆ he hf' hl' hp ho hi =>
    obtain ⟨ls, ls', rfl, hb, hs⟩ := hl
    have hseq := hs.sequence hd
    obtain ho | ho := ho
    case inl =>
      obtain ⟨_, hel⟩ := hp.element (.inr (.inl rfl)) (hb.split hseq)
      exact (hi hf' hl' hel).mono ⟨[.closeAngle], by simp [ho]⟩
    case inr =>
      have hn : level.branches = [] := by simpa [Level.Fits, ho] using hf
      rw [hn] at hb
      cases hb
      obtain ⟨_, hel⟩ := hp.element (.inr (.inr rfl)) (.group hseq)
      exact (hi hf' hl' hel).mono ⟨[.closeParen], by simp [ho]⟩

theorem Place.Spelled.begins (h : q.Spelled ls) : ∃ rest d, Derives .element (ls ++ rest) d :=
  have ⟨d, hd⟩ := h.element (.inl rfl) (.labeledTask (.plain "x"))
  ⟨_, d, hd⟩

-- Whatever phrase was begun last, there are lexemes that complete it.
theorem Awaiting.Spelled.begins {a : Awaiting} (h : a.Spelled ls) :
    ∃ rest d, Derives .element (ls ++ rest) d := by
  cases a
  case element => exact Place.Spelled.begins (q := .step) h
  case target chain p => exact Place.Spelled.begins (q := .target chain p) h
  case afterName name _ _ =>
    obtain ⟨_, ls, rfl, hp⟩ := h
    obtain ⟨d, hd⟩ := hp.element (.inl rfl) (.labeledTask (.plain name))
    exact ⟨[], d, by simpa using hd⟩
  case afterLabel label _ _ =>
    obtain ⟨ls, rfl, hp⟩ := h
    obtain ⟨d, hd⟩ := hp.element (.inl rfl) (.labeledTask (.labeled label "x"))
    exact ⟨[.identifier "x"], d, by simpa using hd⟩
  case afterLabeled label _ name _ _ =>
    obtain ⟨_, ls, rfl, hp⟩ := h
    obtain ⟨d, hd⟩ := hp.element (.inl rfl) (.labeledTask (.labeled label name))
    exact ⟨[], d, by simpa using hd⟩
  case clause chain =>
    exact ⟨[], _, by simpa using .alternative (by simp [Phrase.alternatives]) h⟩
  case status chain =>
    obtain ⟨ls, rfl, hc⟩ := h
    have ht : (Place.target chain wildcard).Spelled (ls ++ [.arrow, .star, .colon]) :=
      ⟨ls, .star, rfl, hc, rfl⟩
    obtain ⟨rest, d, hd⟩ := ht.begins
    exact ⟨[.star, .colon] ++ rest, d, by simpa using hd⟩
  case afterStatus chain p _ =>
    obtain ⟨ls, l, rfl, hc, hl⟩ := h
    have ht : (Place.target chain p).Spelled (ls ++ [.arrow, l, .colon]) := ⟨ls, l, rfl, hc, hl⟩
    obtain ⟨rest, d, hd⟩ := ht.begins
    exact ⟨.colon :: rest, d, by simpa using hd⟩
  case afterStep | nothing => cases h

theorem Reading.Spelled.viable {r : Reading} (h : r.Spelled ls) (hr : ¬ r.Complete) :
    Viable ls := by
  cases h
  case awaiting he hf hl ha =>
    have ⟨rest, d, hd⟩ := ha.begins
    exact (he.viable hf hl hd).mono ⟨rest, by simp⟩
  case afterStep he hf hl hd => exact he.viable hf hl hd
  case nothing => exact absurd ⟨_, rfl⟩ hr

end Completions

namespace Reading

variable {limit : Int} {r : Reading} {t : Token} {f : ReadFault}

theorem step_error_cases (h : step limit r t = .error f) (hd : f.cause.isDemand = false) :
    f.offset = t.start ∧ ((∃ c, t.lexeme = .invalid c ∧ f.cause = .invalidCharacter c) ∨
      (∀ c, t.lexeme ≠ .invalid c) ∧ f.cause.isMisplaced) := by
  obtain _ | ⟨hl, hm⟩ | _ | _ | _ | _ | _ := refusal_of_step h
  case invalid c _ => exact ⟨rfl, .inl ⟨c, rfl, rfl⟩⟩
  case misplaced => exact ⟨rfl, .inr ⟨hl, hm⟩⟩
  all_goals cases hd

-- If a sentence went on with the lexeme, the reader would take it or ask for something else.
theorem not_viable_of_misplaced (hr : run limit { } ls = .ok r)
    (hs : step limit r ⟨l, 0⟩ = .error f) (hm : f.cause.isMisplaced) : ¬ Viable (ls ++ [l]) := by
  rintro ⟨s, d, hd, rest, he⟩
  have ⟨_, _, hiff⟩ := run_derived limit hd
  have hrun : run limit { } (s ++ [.endOfInput]) = .error f := by
    rw [← he, List.append_assoc, run_append, hr]
    change run limit r (l :: rest) = .error f
    rw [run_cons, hs]
    rfl
  have hf : BySpelling (.error f) := by
    rintro f ⟨⟩
    exact hm
  cases ((hiff _ hf).mp hrun).2

theorem isMisplaced_bare (cause : Cause) : cause.bare.isMisplaced = cause.isMisplaced := by
  cases cause
  all_goals rfl

theorem run_of_foldlM {ts : List Token} (h : ts.foldlM (step limit) { } = .ok r) :
    run limit { } (ts.map (·.lexeme)) = .ok r.bare := by
  have hs : SameButOffsets (run limit { } (ts.map (·.lexeme))) (ts.foldlM (step limit) { }) :=
    run_bare_tokens
  cases hr : run limit { } (ts.map (·.lexeme)) <;>
    simp only [h, hr, SameButOffsets, outcome] at hs <;> cases hs
  rfl

theorem step_bare_error (h : step limit r t = .error f) :
    ∃ f', step limit r.bare ⟨t.lexeme, 0⟩ = .error f' ∧ f'.cause.bare = f.cause.bare := by
  have hs : SameButOffsets (step limit r.bare ⟨t.lexeme, 0⟩) (step limit r t) := r.step_bare t
  cases hr : step limit r.bare ⟨t.lexeme, 0⟩ <;>
    simp only [h, hr, SameButOffsets, outcome] at hs
  case error f' => exact ⟨f', rfl, Except.error.inj hs⟩
  case ok => cases hs

theorem complete_bare : r.bare.Complete ↔ r.Complete := by
  simp only [Complete, Reading.bare, awaiting_bare_eq_nothing]
  constructor
  · rintro ⟨_, d, h, _⟩
    exact ⟨d, h⟩
  · rintro ⟨d, h⟩
    exact ⟨_, d, h, rfl⟩

theorem kind_ne_invalidCharacter {cause : Cause} (h : cause.isMisplaced) :
    cause.kind ≠ .invalidCharacter := by
  cases cause <;> simp [Cause.isMisplaced] at h <;> simp [Cause.kind]

-- What the reader took can be completed, and not with the token that it refused behind it.
theorem viable_of_refused {ts : List Token} (hi : .endOfInput ∉ (ts.map (·.lexeme)))
    (hr : ts.foldlM (step limit) { } = .ok r) (hc : ¬ r.Complete)
    (hs : step limit r t = .error f) (hd : f.cause.isDemand = false) :
    f.offset = t.start ∧ Viable (ts.map (·.lexeme)) ∧ ¬ Viable ((ts ++ [t]).map (·.lexeme)) ∧
      (f.cause.kind = .invalidCharacter ↔ ∃ c, t.lexeme = .invalid c) := by
  have hrun := run_of_foldlM hr
  have hv : r.bare.Spelled (ts.map (·.lexeme)) := Spelled.initial.run hi hrun
  have ⟨ho, hcause⟩ := step_error_cases hs hd
  refine ⟨ho, hv.viable (mt complete_bare.mp hc), ?_⟩
  rw [List.map_append, List.map_singleton]
  obtain ⟨c, hl, he⟩ | ⟨hl, hm⟩ := hcause
  case inl =>
    rw [hl, he]
    exact ⟨not_viable_of_invalid, iff_of_true rfl ⟨c, rfl⟩⟩
  case inr =>
    have ⟨f', hs', he⟩ := step_bare_error hs
    have hm' : f'.cause.isMisplaced := by rw [← isMisplaced_bare, he, isMisplaced_bare, hm]
    exact ⟨not_viable_of_misplaced hrun hs' hm',
      iff_of_false (kind_ne_invalidCharacter hm) (not_exists.mpr hl)⟩

end Reading

open Reading

-- What stands in front of a fault can be completed to a sentence, and with the refused token it
-- cannot.
theorem Definition.viable_of_read_error {text : String} {limit : Int} {f : ReadFault}
    (hb : text.toList.all Text.isBlank = false) (h : read text limit = .error f)
    (hk : f.cause.kind ∉ [.nestingTooDeep, .duplicateLabel, .duplicateTransition,
      .ambiguousTransitionOrder]) (he : f.cause ≠ .emptyPattern) :
    ∃ ts t ts', Token.scan text = ts ++ t :: ts' ∧ f.offset = t.start ∧
      Viable (ts.map (·.lexeme)) ∧ ¬ Viable ((ts ++ [t]).map (·.lexeme)) ∧
      (f.cause.kind = .invalidCharacter ↔ ∃ c, t.lexeme = .invalid c) := by
  have hd : f.cause.isDemand = false := by
    cases hc : f.cause <;> simp [hc, Cause.kind] at hk he <;> rfl
  have hr : Concludes limit { } _ _ := concludes_scan hb
  rw [h] at hr
  have ⟨ts, t, ts', r, hts, hrun, hc, hs⟩ := hr.exists_refused
  have hscan : (Token.scan text).map (·.lexeme) =
      ts.map (·.lexeme) ++ t.lexeme :: ts'.map (·.lexeme) := by
    rw [hts, List.map_append, List.map_cons]
  exact ⟨ts, t, ts', hts, Reading.viable_of_refused (endOfInput_notMem hscan) hrun hc hs hd⟩

theorem scan_twoNames : Token.scan "a b"
    = [⟨.identifier "a", 0⟩, ⟨.identifier "b", 2⟩, ⟨.endOfInput, 3⟩] := by
  simp [Token.scan, scanFrom_cons, isGap, first?, isNameChar, nameRun, isWord_of_lt]
  simp only [Token.scanFrom, text]
  decide

theorem read_twoNames :
    Definition.read "a b" 0 = .error ⟨.unexpected .endOfStep (.identifier "b"), 2⟩ := by
  rw [Definition.read, scan_twoNames]
  rfl

theorem Definition.viable_twoNames :
    read "a b" 0 = .error ⟨.unexpected .endOfStep (.identifier "b"), 2⟩ ∧
      Viable [.identifier "a"] ∧ ¬ Viable [.identifier "a", .identifier "b"] := by
  refine ⟨read_twoNames, ?_⟩
  have ⟨ts, t, ts', hts, ho, hv, hn, _⟩ :=
    viable_of_read_error (by decide) read_twoNames (by decide) (by decide)
  rw [scan_twoNames] at hts
  -- The token that starts at the reported offset is the second one.
  obtain _ | ⟨t₁, _ | ⟨t₂, _ | ⟨t₃, ts⟩⟩⟩ := ts
  case cons.nil =>
    cases hts
    exact ⟨hv, hn⟩
  case nil | cons.cons.nil =>
    cases hts
    cases ho
  case cons.cons.cons => simp at hts

end TaskFlow
