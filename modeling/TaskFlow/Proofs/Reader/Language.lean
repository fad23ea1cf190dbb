import TaskFlow.Proofs.Reader.Completeness
import TaskFlow.Proofs.Token.Lexemes

namespace TaskFlow

open Lexeme

variable {text : String} {cs : List Char} {limit : Int} {ls rest : List Lexeme} {l : Lexeme}
  {d : Definition}

namespace Reading

variable {r : Reading} {ts : List Token}

theorem run_bare_tokens :
    SameButOffsets (run limit { } (ts.map (·.lexeme))) (ts.foldlM (step limit) { }) := by
  have h : SameButOffsets _ (ts.foldlM (step limit) { }) := run_bare { } ts
  rw [List.foldlM_map] at h
  rw [run, List.foldlM_map]
  exact h

theorem step_endOfInput (hr : r.awaiting = .afterStep) (hb : r.brackets = [])
    (hd : branch r.level = d) :
    step limit r ⟨.endOfInput, 0⟩ = .ok { r with awaiting := .nothing d } := by
  rw [step_eq_takeLexeme (by simp)]
  simp [takeLexeme, hr, takeAfterStep, hb, hd]

-- Behind a sequence of the grammar comes the end of the input.
theorem run_derived (limit : Int) (h : Derives .sequence ls d) :
    ∃ r : Reading, r.awaiting = .nothing d ∧ ∀ res, BySpelling res →
      (run limit { } (ls ++ [.endOfInput]) = res ↔
        Admits limit { } d.labels d.patternLists ls ∧ .ok r = res) := by
  have ⟨ss, hs, hp⟩ : ReadsSequence limit ls d := h.reads
  have he : Phrase.sequence.EndsBefore [.endOfInput] := by
    simp [Phrase.EndsBefore, Phrase.extensions]
  have hl : step limit ((behind { } ss).noting d.labels) ⟨.endOfInput, 0⟩
      = .ok { (behind { } ss).noting d.labels with awaiting := .nothing d } :=
    step_endOfInput rfl rfl ((branch_behind rfl).trans hs)
  refine ⟨{ (behind { } ss).noting d.labels with awaiting := .nothing d }, rfl, fun res hres => ?_⟩
  rw [hp { } rfl _ _ (by simp) he hres, run_of_step hl, run_nil]

theorem accepts_iff (hi : Lexeme.endOfInput ∉ ls) :
    (∃ r, run limit { } (ls ++ [.endOfInput]) = .ok r ∧ r.awaiting = .nothing d) ↔
      Derives .sequence ls d ∧ Admits limit { } d.labels d.patternLists ls := by
  constructor
  case mp =>
    intro ⟨r, h, hw⟩
    have hd := derives_of_run hi h hw
    have ⟨_, _, hr⟩ := run_derived limit hd
    exact ⟨hd, ((hr _ bySpelling_ok).mp h).1⟩
  case mpr =>
    intro ⟨hd, ha⟩
    have ⟨r, hw, hr⟩ := run_derived limit hd
    exact ⟨r, (hr _ bySpelling_ok).mpr ⟨ha, rfl⟩, hw⟩

theorem admits_initial_iff : Admits limit { } d.labels d.patternLists ls ↔
    NestsFrom limit 0 ls ∧ d.labels.Nodup ∧ ∀ ps ∈ d.patternLists, Selective ps := by
  simp [admits_iff, Fresh]
  grind

end Reading

open Reading

theorem definition?_eq_ok {r : Reading} : r.definition? = .ok d ↔ r.awaiting = .nothing d := by
  rw [definition?]
  split <;> simp_all

theorem awaiting_bare_eq_nothing {a : Awaiting} :
    a.bare = .nothing d ↔ ∃ whole, a = .nothing whole ∧ whole.bare = d := by
  cases a <;> simp [Awaiting.bare]

theorem Definition.read_iff_run :
    (∃ a, read text limit = .ok a ∧ a.bare = d) ↔
      text.toList.all Text.isBlank = false ∧
        ∃ r, run limit { } (lexemes text.toList) = .ok r ∧ r.awaiting = .nothing d := by
  rw [read]
  split
  case isTrue h => simp [h]
  case isFalse h =>
    have hb : SameButOffsets (run limit { } (lexemes text.toList))
        ((Token.scan text).foldlM (step limit) { }) := run_bare_tokens
    rw [Bool.not_eq_true] at h
    cases hr : (Token.scan text).foldlM (step limit) { } <;>
      cases hl : run limit { } (lexemes text.toList) <;>
        simp only [hr, hl, SameButOffsets, outcome] at hb
    case error.error => simp [bind, Except.bind]
    case ok.ok r r' =>
      obtain rfl : r' = r.bare := Except.ok.inj hb
      have hd : (∃ a, r.definition? = .ok a ∧ a.bare = d) ↔ r.bare.awaiting = .nothing d := by
        simp only [definition?_eq_ok]
        exact awaiting_bare_eq_nothing.symm
      simpa [h, bind, Except.bind] using hd
    all_goals cases hb

-- What has another lexeme behind it does not end the stream.
theorem endOfInput_notMem (h : lexemes cs = ls ++ l :: rest) : Lexeme.endOfInput ∉ ls := by
  have ⟨ls', l', he, _, hls⟩ := exists_lexemes_eq cs
  have he := congrArg List.dropLast (h.symm.trans he)
  rw [List.dropLast_append_of_ne_nil (by simp), List.dropLast_concat] at he
  intro hm
  cases hls _ (he ▸ List.mem_append_left _ hm)

theorem Derives.ne_nil {n : Phrase} (h : Derives n ls d) : ls ≠ [] := by
  induction h
  case sequence ps hn _ hi =>
    have ⟨p, ps, he⟩ := List.exists_cons_of_ne_nil hn
    have := hi p (by simp [he])
    cases ps <;> simp [he, this]
  case transition ht _ _ _ =>
    have ⟨name, tl, he⟩ := ht.head
    simp [he]
  case labeledTask ht =>
    have ⟨name, tl, he⟩ := ht.head
    simp [he]
  case alternative hi => exact hi
  all_goals simp

theorem Definition.exists_read_iff {text : String} {limit : Int} {d : Definition} :
    (∃ a, read text limit = .ok a ∧ a.bare = d) ↔
      ∃ ls, lexemes text.toList = ls ++ [.endOfInput] ∧ Derives .sequence ls d ∧
        NestsFrom limit 0 ls ∧ d.labels.Nodup ∧ ∀ ps ∈ d.patternLists, Selective ps := by
  rw [read_iff_run]
  constructor
  case mp =>
    intro ⟨_, r, hr, hw⟩
    have ⟨ls, l, he, hl, _⟩ := exists_lexemes_eq text.toList
    rw [he] at hr
    -- The last lexeme is the end of the input or an invalid one, which is refused.
    have hi : l = .endOfInput := by
      cases l <;> simp [isLast] at hl
      case endOfInput => rfl
      case invalid c =>
        rw [run_concat] at hr
        cases h : run limit { } ls <;> simp [h] at hr <;> cases hr
    subst hi
    have ⟨hd, ha⟩ := (accepts_iff (endOfInput_notMem he)).mp ⟨r, hr, hw⟩
    exact ⟨ls, he, hd, admits_initial_iff.mp ha⟩
  case mpr =>
    intro ⟨ls, he, hd, ha⟩
    refine ⟨not_blank_of_lexemes he hd.ne_nil, ?_⟩
    rw [he]
    exact (accepts_iff (endOfInput_notMem he)).mpr ⟨hd, admits_initial_iff.mpr ha⟩

-- The reader accepts the texts that spell a sequence of the grammar and meet its other demands, and
-- reads what they denote. The grammar is unambiguous.
theorem Definition.read_iff_derives (text : String) (limit : Int) :
    (∀ d, (∃ a, read text limit = .ok a ∧ a.bare = d) ↔
      ∃ ls, (Token.scan text).map (·.lexeme) = ls ++ [.endOfInput] ∧ Derives .sequence ls d ∧
        NestsFrom limit 0 ls ∧ d.labels.Nodup ∧ ∀ ps ∈ d.patternLists, Selective ps) ∧
    ∀ ls d d', Derives .sequence ls d → Derives .sequence ls d' → d = d' :=
  ⟨fun _ => exists_read_iff, fun _ _ _ h h' => h.denotes_unique h'⟩

theorem scan_taskWithClause : (Token.scan "a -> X: b").map (·.lexeme)
    = [.identifier "a", .arrow, .identifier "X", .colon, .identifier "b", .endOfInput] := by
  simp [Token.scan, scanFrom_cons, isGap, first?, isNameChar, nameRun, isWord_of_lt]
  simp [Token.scanFrom]

theorem derives_taskWithClause :
    Derives .sequence [.identifier "a", .arrow, .identifier "X", .colon, .identifier "b"]
      (.transition { name := "a" } [(some "X", .task { name := "b" })]) := by
  have hb : Derives .target [.identifier "b"] (.task { name := "b" }) :=
    .alternative (m := .labeledTask) (by simp [Phrase.alternatives]) (.labeledTask (.plain "b"))
  let a : Arm := ⟨.identifier "X", [.identifier "b"], .task { name := "b" }⟩
  have ha : ∀ b ∈ [a], b.status.pattern?.isSome := by simp [a, pattern?]
  have ht := Derives.transition (.plain "a") ha (List.forall_mem_singleton.mpr hb)
  have he : Derives .element _ _ := .alternative (by simp [Phrase.alternatives]) ht
  let p : List Lexeme × Definition :=
    ([.identifier "a"] ++ [a].flatMap Arm.spelling, .ofClauses { name := "a" } ([a].map Arm.clause))
  have hp : ∀ q ∈ [p], Derives .element q.1 q.2 := List.forall_mem_singleton.mpr he
  exact .sequence (List.cons_ne_nil _ _) hp

theorem Definition.read_taskWithClause :
    (∃ a, read "a -> X: b" 0 = .ok a ∧
      a.bare = .transition { name := "a" } [(some "X", .task { name := "b" })]) ∧
    ∀ d, Derives .sequence [.identifier "a", .arrow, .identifier "X", .colon, .identifier "b"] d →
      d = .transition { name := "a" } [(some "X", .task { name := "b" })] := by
  have ⟨hr, hu⟩ := read_iff_derives "a -> X: b" 0
  refine ⟨(hr _).mpr ⟨_, scan_taskWithClause, derives_taskWithClause, ?_, ?_, ?_⟩,
    fun d h => hu _ _ _ h derives_taskWithClause⟩
  · simp [nestsFrom_cons, opens]
  · simp [labels_task]
  · intro ps hp
    simp at hp
    subst hp
    exact ⟨by decide, by decide, by decide⟩

end TaskFlow
