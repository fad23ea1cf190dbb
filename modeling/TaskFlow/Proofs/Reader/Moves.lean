import TaskFlow.Proofs.Reader.Completeness

namespace TaskFlow

open Lexeme ReadFault

namespace Reading

def Complete (r : Reading) : Prop :=
  ∃ d, r.awaiting = .nothing d

-- How a token is taken. The last three moves look at the token without taking it: behind a task or
-- a clause it may end what was read.
inductive Moves (limit : Int) : Reading → Token → Reading → Prop
  | opener {r t q} : r.Expects q → t.lexeme.opens → r.brackets.length + 1 ≤ limit →
    Moves limit r t
      { r with awaiting := .element, level := { }, brackets := ⟨t, q, r.level⟩ :: r.brackets }
  | name {r name start q} : r.Expects q →
    Moves limit r ⟨.identifier name, start⟩ { r with awaiting := .afterName name start q }
  | label {r name offset q start} : r.awaiting = .afterName name offset q →
    Moves limit r ⟨.colon, start⟩ { r with awaiting := .afterLabel name offset q }
  | labeled {r label offset name q start} : r.awaiting = .afterLabel label offset q →
    Moves limit r ⟨.identifier name, start⟩
      { r with awaiting := .afterLabeled label offset name start q }
  | arrow {r c start} : r.awaiting = .clause c →
    Moves limit r ⟨.arrow, start⟩ { r with awaiting := .status c }
  | status {r c l p start} : r.awaiting = .status c → l.pattern? = some p →
    Moves limit r ⟨l, start⟩ { r with awaiting := .afterStatus c p start }
  | pattern {r c p offset start} : r.awaiting = .afterStatus c p offset →
    Moves limit r ⟨.colon, start⟩ { r with awaiting := .target (c.noteStatus p offset) p }
  | ampersands {r start} : r.awaiting = .afterStep →
    Moves limit r ⟨.ampersands, start⟩ { r with awaiting := .element }
  | bars {r b bs start} : r.awaiting = .afterStep → r.brackets = b :: bs →
    Moves limit r ⟨.bars, start⟩
      { r with awaiting := .element, level := { branches := branch r.level :: r.level.branches } }
  | closeAngle {r b bs start} : r.awaiting = .afterStep → r.brackets = b :: bs →
    Moves limit r ⟨.closeAngle, start⟩
      (r.close b bs (.split (branch r.level :: r.level.branches).reverse))
  | closeParen {r b bs start} : r.awaiting = .afterStep → r.brackets = b :: bs →
    Moves limit r ⟨.closeParen, start⟩ (r.close b bs (branch r.level))
  | conclusion {r start} : r.awaiting = .afterStep → r.brackets = [] →
    Moves limit r ⟨.endOfInput, start⟩ { r with awaiting := .nothing (branch r.level) }
  | task {r r' name offset q t} : r.awaiting = .afterName name offset q → t.lexeme ≠ .colon →
    Moves limit { r with awaiting := .clause (q.chain { name, offset }) } t r' → Moves limit r t r'
  | labeledTask {r r' label labelOffset name offset q t} :
    r.awaiting = .afterLabeled label labelOffset name offset q → r.labels.lookup label = none →
    Moves limit
      { r with
        awaiting := .clause (q.chain { name, label := some label, offset }),
        labels := (label, labelOffset) :: r.labels } t r' →
    Moves limit r t r'
  | clause {r r' c t} : r.awaiting = .clause c → t.lexeme ≠ .arrow →
    Moves limit (r.put c.definition .step) t r' → Moves limit r t r'

-- Why a token is refused. Unless the token itself is the reason, the fault lies with a pattern or a
-- label in front of it, which are judged late.
inductive Refusal (limit : Int) : Reading → Token → ReadFault → Prop
  | invalid {r c start} : Refusal limit r ⟨.invalid c, start⟩ ⟨.invalidCharacter c, start⟩
  | misplaced {r t cause} : (∀ c, t.lexeme ≠ .invalid c) → cause.isMisplaced →
    Refusal limit r t ⟨cause, t.start⟩
  | tooDeep {r t} : t.lexeme.opens → limit < r.brackets.length + 1 →
    Refusal limit r t ⟨.tooDeep t.lexeme (r.brackets.length + 1) limit, t.start⟩
  | emptyPattern {r c offset t} : r.awaiting = .afterStatus c "" offset →
    Refusal limit r t ⟨.emptyPattern, offset⟩
  | afterCatchAll {r c p offset catchAll t} : r.awaiting = .afterStatus c p offset →
    c.catchAll = some catchAll → Refusal limit r t ⟨.afterCatchAll p catchAll, offset⟩
  | duplicateTransition {r c p offset t} : r.awaiting = .afterStatus c p offset → c.covers p →
    Refusal limit r t ⟨.duplicateTransition c.source.name p, offset⟩
  | duplicateLabel {r label labelOffset name offset q first t} :
    r.awaiting = .afterLabeled label labelOffset name offset q →
    r.labels.lookup label = some first →
    Refusal limit r t ⟨.duplicateLabel label first, labelOffset⟩

variable {limit : Int} {r r' : Reading} {t : Token} {c : Chain} {q : Place} {f : ReadFault}

section Moves

theorem moves_takeAfterStep (hr : r.awaiting = .afterStep) (h : r.takeAfterStep t = .ok r') :
    Moves limit r t r' := by
  obtain ⟨l, start⟩ := t
  cases behindStep_of_takeAfterStep h
  case ampersands => exact .ampersands hr
  case conclusion hb => exact .conclusion hr hb
  case bars hb _ => exact .bars hr hb
  case closeAngle hb _ => exact .closeAngle hr hb
  case closeParen hb _ => exact .closeParen hr hb

-- What was awaited before does not matter here.
theorem moves_takeClause (h : r.takeClause c t = .ok r') :
    Moves limit { r with awaiting := .clause c } t r' := by
  obtain ⟨l, start⟩ := t
  simp only [takeClause] at h
  split at h
  case isTrue hl =>
    cases h
    cases hl
    exact .arrow rfl
  case isFalse hl => exact .clause rfl hl (moves_takeAfterStep rfl h)

theorem moves_takeElement {otherwise : ReadFault.Cause} (hr : r.Expects q)
    (h : r.takeElement limit q otherwise t = .ok r') : Moves limit r t r' := by
  obtain ⟨l, start⟩ := t
  cases l <;> simp only [takeElement, openBracket] at h
  case identifier =>
    cases h
    exact .name hr
  case openAngle | openParen =>
    split at h <;> cases h
    exact .opener hr rfl (by omega)
  all_goals cases h

-- What the reader awaits decides which moves it can make.
theorem moves_of_step (hr : ¬ r.Complete) (h : step limit r t = .ok r') : Moves limit r t r' := by
  replace h : takeLexeme limit r t = .ok r' := by
    rw [step] at h
    split at h
    · cases h
    · exact h
  cases ha : r.awaiting <;> simp only [takeLexeme, ha] at h
  case nothing d => exact absurd ⟨d, ha⟩ hr
  case element => exact moves_takeElement (q := .step) ha h
  case target => exact moves_takeElement (q := .target _ _) ha h
  case afterStep => exact moves_takeAfterStep ha h
  case clause c =>
    have hm : Moves limit { r with awaiting := .clause c } t r' := moves_takeClause h
    rwa [← ha] at hm
  case afterName name offset place =>
    obtain ⟨l, start⟩ := t
    split at h
    case isTrue hl =>
      cases h
      cases hl
      exact .label ha
    case isFalse hl =>
      rw [takeAfterTask_eq] at h
      exact .task ha hl (moves_takeClause h)
  case afterLabel label offset place =>
    obtain ⟨l, start⟩ := t
    split at h
    case h_1 hl =>
      cases h
      cases hl
      exact .labeled ha
    case h_2 => cases h
  case afterLabeled label labelOffset name offset place =>
    split at h
    case h_1 => cases h
    case h_2 hl =>
      rw [takeAfterTask_eq] at h
      exact .labeledTask ha hl (moves_takeClause h)
  case status c =>
    obtain ⟨l, start⟩ := t
    obtain ⟨p, hp, rfl⟩ := takeStatus_cases h
    exact .status ha hp
  case afterStatus c p offset =>
    obtain ⟨l, start⟩ := t
    obtain ⟨rfl, rfl⟩ := takeAfterStatus_cases h
    exact .pattern ha

end Moves

section Refusal

theorem refusal_of_refuse {cause : Cause} (hi : ∀ c, t.lexeme ≠ .invalid c) (hc : cause.isMisplaced)
    (h : refuse t cause = .error f) : Refusal limit r t f := by
  cases h
  exact .misplaced hi hc

theorem isMisplaced_notClosing {b : Bracket} {e : Expectation} :
    (notClosing b e t).isMisplaced := by
  rw [notClosing]
  split <;> rfl

-- Which state the token is refused in does not matter here.
theorem refusal_takeAfterStep {r₁ : Reading} (hi : ∀ c, t.lexeme ≠ .invalid c)
    (h : r.takeAfterStep t = .error f) : Refusal limit r₁ t f := by
  simp only [takeAfterStep] at h
  split at h
  · cases h
  split at h
  case h_1 =>
    split at h
    · cases h
    split at h
    · exact refusal_of_refuse hi rfl h
    split at h
    all_goals exact refusal_of_refuse hi rfl h
  case h_2 =>
    split at h
    case isTrue =>
      split at h
      · cases h
      split at h
      · cases h
      · exact refusal_of_refuse hi isMisplaced_notClosing h
    case isFalse =>
      split at h
      · cases h
      · exact refusal_of_refuse hi isMisplaced_notClosing h

theorem refusal_takeClause {r₁ : Reading} (hi : ∀ c, t.lexeme ≠ .invalid c)
    (h : r.takeClause c t = .error f) : Refusal limit r₁ t f := by
  simp only [takeClause] at h
  split at h
  · cases h
  · exact refusal_takeAfterStep hi h

theorem refusal_takeElement {otherwise : Cause} (hi : ∀ c, t.lexeme ≠ .invalid c)
    (hc : otherwise.isMisplaced) (h : r.takeElement limit q otherwise t = .error f) :
    Refusal limit r t f := by
  obtain ⟨l, start⟩ := t
  cases l <;> simp only [takeElement, openBracket] at h
  case identifier => cases h
  case openAngle | openParen =>
    split at h <;> cases h
    exact .tooDeep rfl ‹_›
  all_goals exact refusal_of_refuse hi hc h

-- The first demand that fails gives the reason, so the demands are gone through in their order.
theorem refusal_takeLexeme (hi : ∀ c, t.lexeme ≠ .invalid c)
    (h : r.takeLexeme limit t = .error f) : Refusal limit r t f := by
  cases ha : r.awaiting <;> simp only [takeLexeme, ha] at h
  case element | target => exact refusal_takeElement hi rfl h
  case afterStep => exact refusal_takeAfterStep hi h
  case clause => exact refusal_takeClause hi h
  case nothing => cases h
  case afterName =>
    split at h
    · cases h
    · rw [takeAfterTask_eq] at h
      exact refusal_takeClause hi h
  case afterLabel =>
    split at h
    · cases h
    · exact refusal_of_refuse hi rfl h
  case afterLabeled =>
    split at h
    case h_1 hl =>
      cases h
      exact .duplicateLabel ha hl
    case h_2 =>
      rw [takeAfterTask_eq] at h
      exact refusal_takeClause hi h
  case status =>
    obtain ⟨l, start⟩ := t
    cases l <;> simp only [takeStatus] at h
    case identifier | quoted | star => cases h
    all_goals exact refusal_of_refuse hi rfl h
  case afterStatus c p offset =>
    simp only [takeAfterStatus] at h
    split at h
    case isTrue he =>
      cases h
      rw [String.isEmpty_iff] at he
      exact .emptyPattern (he ▸ ha)
    split at h
    case h_1 hc =>
      cases h
      exact .afterCatchAll ha hc
    split at h
    case isTrue hc =>
      cases h
      exact .duplicateTransition ha hc
    split at h
    · cases h
    · exact refusal_of_refuse hi rfl h

-- An invalid character is refused before anything else.
theorem refusal_of_step (h : step limit r t = .error f) : Refusal limit r t f := by
  obtain ⟨l, start⟩ := t
  rw [step] at h
  split at h
  case h_1 hl =>
    cases h
    cases hl
    exact .invalid
  case h_2 hl => exact refusal_takeLexeme hl h

end Refusal

section Consequences

theorem brackets_put {d : Definition} : (r.put d q).brackets = r.brackets := by
  cases q
  all_goals rfl

theorem not_complete_put {d : Definition} : ¬ (r.put d q).Complete := by
  cases q <;> rintro ⟨_, ⟨⟩⟩

theorem Moves.complete_iff (h : Moves limit r t r') : r'.Complete ↔ t.lexeme = .endOfInput := by
  induction h
  case opener ho _ =>
    refine iff_of_false (by rintro ⟨_, ⟨⟩⟩) fun hl => ?_
    rw [hl] at ho
    cases ho
  case status hs =>
    refine iff_of_false (by rintro ⟨_, ⟨⟩⟩) ?_
    rintro rfl
    cases hs
  case closeAngle | closeParen => exact iff_of_false not_complete_put nofun
  case conclusion => exact iff_of_true ⟨_, rfl⟩ rfl
  case task hi | labeledTask hi | clause hi => exact hi
  all_goals exact iff_of_false (by rintro ⟨_, ⟨⟩⟩) nofun

end Consequences

end Reading

end TaskFlow
