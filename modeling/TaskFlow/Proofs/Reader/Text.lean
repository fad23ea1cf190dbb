import TaskFlow.Proofs.Definition.Clashes
import TaskFlow.Proofs.Definition.Normal
import TaskFlow.Proofs.Reader.Language
import TaskFlow.Proofs.Reader.Moves
import TaskFlow.Proofs.Token.Nesting

namespace TaskFlow

open Lexeme

variable {limit : Int} {text : String} {ls ls' : List Lexeme} {l l' : Lexeme} {d a : Definition}

namespace Reading

variable {r r' : Reading}

-- Lexemes that cannot follow each other: behind an arrow comes a status, and an element comes
-- behind what opens a branch or a group.
def Apart (l l' : Lexeme) : Prop :=
  l = .arrow ∧ l'.pattern? = none ∨
    (l.opens ∨ l = .bars) ∧ (l'.closes ∨ l' = .bars)

-- What comes next behind an arrow, an opening bracket or bars.
def Expecting (l : Lexeme) (r : Reading) : Prop :=
  (l = .arrow → ∃ c, r.awaiting = .status c) ∧ (l.opens ∨ l = .bars → r.awaiting = .element)

-- What comes next is decided by the lexeme alone, whatever was awaited before.
theorem Moves.expecting {t : Token} (h : Moves limit r t r') : Expecting t.lexeme r' := by
  induction h
  case opener ho _ =>
    refine ⟨fun hl => ?_, fun _ => rfl⟩
    rw [hl] at ho
    cases ho
  case arrow c _ _ => exact ⟨fun _ => ⟨c, rfl⟩, by simp [opens]⟩
  case status l _ _ _ hs =>
    refine ⟨?_, ?_⟩
    · rintro rfl
      cases hs
    · cases l <;> simp [pattern?] at hs <;> simp [opens]
  case bars => exact ⟨by simp, fun _ => rfl⟩
  case task hi | labeledTask hi | clause hi => exact hi
  all_goals exact ⟨by simp, by simp [opens]⟩

theorem step_ne_ok_of_apart (h : Expecting l r) (hl : Apart l l') :
    step limit r ⟨l', 0⟩ ≠ .ok r' := by
  obtain ⟨hl, hp⟩ | ⟨hl, hc⟩ := hl
  case inl =>
    have ⟨c, hc⟩ := h.1 hl
    cases l' <;> simp [pattern?] at hp <;> simp [step, takeLexeme, hc, takeStatus, refuse]
  case inr =>
    have he := h.2 hl
    cases l' <;> simp [closes] at hc <;> simp [step, takeLexeme, he, takeElement, refuse]

theorem run_ne_ok_of_apart (hl : Apart l l') (hi : Lexeme.endOfInput ∉ ls) :
    run limit { } (ls ++ l :: l' :: ls') ≠ .ok r' := by
  intro h
  rw [run_append] at h
  cases hr : run limit { } ls <;> simp only [hr] at h
  case error => cases h
  case ok r₁ =>
    -- The input has not ended yet, so the reader is not done.
    have hn : ¬ r₁.Complete := by
      rintro ⟨d, hd⟩
      have hs := Spelled.initial.run hi hr
      cases hs
      case awaiting ha =>
        cases hd
        exact ha
      case afterStep => cases hd
      case nothing => simp at hi
    replace h : run limit r₁ (l :: l' :: ls') = .ok r' := h
    cases hs : step limit r₁ ⟨l, 0⟩
    case error => exact run_ne_ok (by simp [hs]) h
    case ok r₂ =>
      rw [run_of_step hs] at h
      exact run_ne_ok (fun _ => step_ne_ok_of_apart (moves_of_step hn hs).expecting hl) h

end Reading

open Reading

theorem read_ne_ok_of_apart {cs : List Char} (h : lexemes cs = ls ++ l :: l' :: ls')
    (hl : Apart l l') (ht : text.toList = cs) : Definition.read text limit ≠ .ok a := by
  intro hr
  have ⟨_, r, hr, _⟩ := Definition.read_iff_run.mp ⟨a, hr, rfl⟩
  rw [ht, h] at hr
  exact run_ne_ok_of_apart hl (endOfInput_notMem h) hr

namespace Definition

theorem not_read_of_clashes (hw : d.Writable) (hc : d.Clashes) : read d.text limit ≠ .ok a := by
  obtain ⟨ls, l, ls', he, hl⟩ := strays hw hc .nil
  exact read_ne_ok_of_apart he (.inl ⟨rfl, hl⟩) (by simp)

theorem mentions_bare : d.bare.mentions = d.mentions.map TaskMention.bare := by
  induction d
  case task => simp
  case sequence ds hi | split ds hi =>
    simp only [bare_sequence, bare_split, mentions_sequence, mentions_split, List.flatMap_map,
      List.map_flatMap]
    exact List.flatMap_congr hi
  case transition t cs hi =>
    simp only [bare_transition, mentions_transition, List.flatMap_map, List.map_cons,
      List.map_flatMap]
    exact congrArg _ (List.flatMap_congr hi)

theorem labels_bare : d.bare.labels = d.labels := by
  rw [labels, labels, mentions_bare, List.filterMap_map]
  rfl

theorem patternLists_bare : d.bare.patternLists = d.patternLists := by
  induction d
  case task => simp
  case sequence ds hi | split ds hi =>
    simp only [bare_sequence, bare_split, patternLists_sequence, patternLists_split,
      List.flatMap_map]
    exact List.flatMap_congr hi
  case transition t cs hi =>
    simp only [bare_transition, patternLists_transition, List.flatMap_map, List.map_map]
    exact congrArg _ (List.flatMap_congr hi)

theorem lexemes_text (hw : d.Writable) (hc : ¬ d.Clashes) :
    lexemes d.text.toList = d.spelling ++ [.endOfInput] := by
  simpa using spelled hw hc [] .nil (by simp)

theorem bare_of_read (hn : d.Normal) (hw : d.Writable) (h : read d.text limit = .ok a) :
    a.bare = d.bare := by
  have ⟨ls, he, ha, _⟩ := exists_read_iff.mp ⟨a, h, rfl⟩
  have he := (lexemes_text hw fun hc => not_read_of_clashes hw hc h).symm.trans he
  rw [← (List.append_inj' he rfl).1] at ha
  exact ha.denotes_unique hn.denoted.sequence

theorem read_text_iff (hn : d.Normal) (hw : d.Writable) (hl : 0 ≤ limit) :
    (∃ a, read d.text limit = .ok a ∧ a.bare = d.bare) ↔
      ¬ d.Clashes ∧ bracketDepth d.text ≤ limit ∧ d.labels.Nodup ∧
        ∀ ps ∈ d.patternLists, Selective ps := by
  by_cases hc : d.Clashes
  case pos =>
    refine iff_of_false ?_ (·.1 hc)
    rintro ⟨_, h, _⟩
    exact not_read_of_clashes hw hc h
  case neg =>
    have hs := lexemes_text hw hc
    -- Without a clash the lexemes of the text are those that spell the definition.
    have hd : NestsFrom limit 0 (lexemes d.text.toList) ↔ NestsFrom limit 0 d.spelling := by
      simp [hs, nestsFrom_append, nestsFrom_cons, opens]
    rw [exists_read_iff, bracketDepth_le_iff hl, hd, labels_bare, patternLists_bare]
    constructor
    case mp =>
      rintro ⟨ls, he, _, hn, hx⟩
      have he : d.spelling ++ [.endOfInput] = ls ++ [.endOfInput] := hs.symm.trans he
      exact ⟨hc, (List.append_inj' he rfl).1 ▸ hn, hx⟩
    case mpr =>
      rintro ⟨_, hx⟩
      exact ⟨d.spelling, hs, hn.denoted.sequence, hx⟩

end Definition

end TaskFlow
