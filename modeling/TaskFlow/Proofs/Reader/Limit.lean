import TaskFlow.Proofs.Reader.Progress
import TaskFlow.Proofs.Token.Nesting

namespace TaskFlow

open Lexeme

namespace Lexeme

variable {limit n : Int} {l : Lexeme} {ls : List Lexeme}

theorem level_of_opens (h : l.opens) : level [l] = 1 := by
  cases l <;> simp [opens] at h <;> rfl

theorem add_level_le (hn : n ≤ limit) (h : NestsFrom limit n ls) : n + level ls ≤ limit := by
  induction ls generalizing n
  case nil => simpa using hn
  case cons l ls hi =>
    rw [nestsFrom_cons] at h
    rw [level_cons, ← Int.add_assoc]
    refine hi ?_ h.2
    by_cases ho : l.opens
    case pos =>
      rw [level_of_opens ho]
      exact h.1 ho
    case neg =>
      have : level [l] = 0 - ([l].countP (·.closes) : Int) := by simp [level, ho]
      omega

end Lexeme

namespace Reading

variable {limit limit' : Int} {r r' : Reading} {t : Token} {ts : List Token} {d : Definition}

theorem Moves.length_brackets (h : Moves limit r t r') :
    r'.brackets.length = r.brackets.length + Lexeme.level [t.lexeme] := by
  induction h
  case opener ho _ =>
    rw [level_of_opens ho]
    simp
  case status l _ _ _ hs =>
    have : Lexeme.level [l] = 0 := by cases l <;> simp [pattern?] at hs <;> rfl
    simp [this]
  case closeAngle hb | closeParen hb => simp [close, brackets_put, hb, Lexeme.level, opens, closes]
  case task hi | labeledTask hi => exact hi
  case clause hi =>
    rw [brackets_put] at hi
    exact hi
  all_goals simp [Lexeme.level, opens, closes]

theorem Moves.expects_of_opens (h : Moves limit r t r') (ho : t.lexeme.opens) :
    ∃ q, r.Expects q := by
  induction h
  case opener hq _ _ => exact ⟨_, hq⟩
  case name hq => exact ⟨_, hq⟩
  case status hs =>
    rename_i l _ _ _
    cases l <;> simp [pattern?] at hs <;> cases ho
  case task hi | labeledTask hi | clause hi =>
    obtain ⟨q, hq⟩ := hi ho
    cases q <;> cases hq
  all_goals cases ho

theorem step_of_opens (hr : ¬ r.Complete) (ho : t.lexeme.opens) (h : step limit' r t = .ok r') :
    step limit r t = if limit < (r.brackets.length + 1 : Nat)
      then .error ⟨.tooDeep t.lexeme (r.brackets.length + 1) limit, t.start⟩ else .ok r' := by
  obtain ⟨q, hq⟩ := (moves_of_step hr h).expects_of_opens ho
  obtain ⟨l, start⟩ := t
  rw [step_opener hq ho, openBracket] at h ⊢
  split at h <;> cases h
  rfl

theorem step_of_not_opens (ho : ¬ t.lexeme.opens) : step limit r t = step limit' r t := by
  obtain ⟨l, start⟩ := t
  cases l <;> simp [opens] at ho <;> cases ha : r.awaiting <;>
    simp only [step, takeLexeme, ha, takeElement]

-- By induction on the tokens: the two readers are in the same state until the one with the given
-- limit refuses a bracket.
theorem Concludes.within (h : Concludes limit' r ts (.ok d)) :
    NestsFrom limit r.brackets.length (ts.map (·.lexeme)) ∧ Concludes limit r ts (.ok d) ∨
    ∃ ts₁ t ts₂, ∃ depth : Nat, ts = ts₁ ++ t :: ts₂ ∧ t.lexeme.opens ∧
      NestsFrom limit r.brackets.length (ts₁.map (·.lexeme)) ∧
      depth = r.brackets.length + Lexeme.level (ts₁.map (·.lexeme)) + 1 ∧ limit < depth ∧
      Concludes limit r ts (.error ⟨.tooDeep t.lexeme depth limit, t.start⟩) := by
  generalize he : Except.ok d = e at h
  induction h
  case complete hd => exact .inl ⟨nestsFrom_nil, .complete hd⟩
  case refused => cases he
  case taken r r' t ts e hr hs _ hi =>
    have hl := (moves_of_step hr hs).length_brackets
    by_cases ho : t.lexeme.opens ∧ limit < (r.brackets.length + 1 : Nat)
    case pos =>
      have hst : step limit r t = _ := step_of_opens hr ho.1 hs
      rw [if_pos ho.2] at hst
      exact .inr ⟨[], t, ts, _, rfl, ho.1, nestsFrom_nil, by simp, ho.2, .refused hr hst⟩
    case neg =>
      have hst : step limit r t = .ok r' := by
        by_cases ho' : t.lexeme.opens
        case pos => rw [step_of_opens hr ho' hs, if_neg fun hlt => ho ⟨ho', hlt⟩]
        case neg => rw [← hs, step_of_not_opens ho']
      have hn : t.lexeme.opens → (r.brackets.length : Int) + 1 ≤ limit := by
        intro ho'
        have := not_and.mp ho ho'
        omega
      simp only [hl] at hi
      obtain ⟨hns, hc⟩ | ⟨ts₁, t', ts₂, depth, rfl, ho', hns, hd, hlt, hc⟩ := hi he
      case inl => exact .inl ⟨nestsFrom_cons.mpr ⟨hn, hns⟩, .taken hr hst hc⟩
      case inr =>
        refine .inr ⟨t :: ts₁, t', ts₂, depth, rfl, ho', nestsFrom_cons.mpr ⟨hn, hns⟩, ?_, hlt,
          .taken hr hst hc⟩
        rw [hd, List.map_cons, @level_cons t.lexeme (ts₁.map (·.lexeme)), ← Int.add_assoc]

theorem Concludes.unique {e e' : Except ReadFault Definition} (h : Concludes limit r ts e)
    (h' : Concludes limit r ts e') : e = e' := by
  induction h
  case complete hd =>
    cases h'
    case complete hd' => rw [Awaiting.nothing.inj (hd.symm.trans hd')]
  case refused hs =>
    cases h'
    case refused hs' => rw [Except.error.inj (hs.symm.trans hs')]
    case taken hs' _ => cases hs.symm.trans hs'
  case taken hs _ hi =>
    cases h'
    case refused hs' => cases hs.symm.trans hs'
    case taken hs' h' =>
      cases hs.symm.trans hs'
      exact hi h'

end Reading

open Reading

-- A text that is read within some limit is read within another one just if it is no deeper, and
-- otherwise the first bracket above the limit is refused.
theorem Definition.read_within {text : String} {limit : Int} {a : Definition}
    (h : read text limit = .ok a) (k : Nat) :
    (∀ b, read text k = .ok b ↔ b = a ∧ bracketDepth text ≤ k) ∧
    (k < bracketDepth text → ∃ ts t ts', Token.scan text = ts ++ t :: ts' ∧ t.lexeme.opens ∧
      Lexeme.level (ts.map (·.lexeme)) = k ∧ NestsFrom k 0 (ts.map (·.lexeme)) ∧
      read text k = .error ⟨.tooDeep t.lexeme (k + 1) k, t.start⟩) := by
  have hb := not_blank_of_read h
  have hc : Concludes limit { } (Token.scan text) (.ok a) := h ▸ concludes_scan hb
  have hk : Concludes k { } (Token.scan text) (read text k) := concludes_scan hb
  have hdepth : bracketDepth text ≤ k ↔ NestsFrom k 0 (lexemes text.toList) := by
    rw [← bracketDepth_le_iff (Int.natCast_nonneg k)]
    exact Int.ofNat_le.symm
  obtain ⟨hn, hr⟩ | ⟨ts, t, ts', depth, hts, ho, hn, hd, hlt, hr⟩ := hc.within
  case inl =>
    have hr := hk.unique hr
    have hd := hdepth.mpr hn
    refine ⟨fun b => ?_, fun hlt => absurd hlt (Nat.not_lt.mpr hd)⟩
    rw [hr, Except.ok.injEq]
    exact ⟨fun he => ⟨he.symm, hd⟩, fun he => he.1.symm⟩
  case inr =>
    -- As many brackets are open in front of the refused one as the limit allows.
    have hr := hk.unique hr
    have hd : (depth : Int) = Lexeme.level (ts.map (·.lexeme)) + 1 := by simpa using hd
    have hl : Lexeme.level (ts.map (·.lexeme)) ≤ k := by
      simpa using add_level_le (Int.natCast_nonneg k) hn
    obtain rfl : depth = k + 1 := by omega
    have hnd : ¬ bracketDepth text ≤ k := by
      intro hle
      have hno := hdepth.mp hle (ts.map (·.lexeme)) t.lexeme (ts'.map (·.lexeme))
        (by rw [← List.map_cons, ← List.map_append, ← hts, lexemes, Token.scan]) ho
      omega
    refine ⟨fun b => ?_, fun _ => ⟨ts, t, ts', hts, ho, by omega, hn, hr⟩⟩
    rw [hr]
    refine iff_of_false ?_ fun he => hnd he.2
    rintro ⟨⟩

theorem scan_nestedSplits : Token.scan "<<a>>"
    = [⟨.openAngle, 0⟩, ⟨.openAngle, 1⟩, ⟨.identifier "a", 2⟩, ⟨.closeAngle, 3⟩, ⟨.closeAngle, 4⟩,
      ⟨.endOfInput, 5⟩] := by
  simp [Token.scan, scanFrom_cons, isGap, first?, isNameChar, nameRun, isWord_of_lt]
  simp only [Token.scanFrom, text]
  decide

theorem read_nestedSplits : Definition.read "<<a>>" 2
    = .ok (.split [.split [.task { name := "a", offset := 2 }]]) := by
  rw [Definition.read, scan_nestedSplits]
  rfl

theorem Definition.read_nestedSplits_within_one :
    read "<<a>>" 2 = .ok (.split [.split [.task { name := "a", offset := 2 }]]) ∧
      read "<<a>>" 1 = .error ⟨.tooDeep .openAngle 2 1, 1⟩ := by
  have hdepth : bracketDepth "<<a>>" = 2 := by
    rw [bracketDepth, scan_nestedSplits]
    rfl
  obtain ⟨ts, t, ts', hts, ho, hl, hn, hr⟩ :=
    (read_within read_nestedSplits 1).2 (by rw [hdepth]; decide)
  rw [scan_nestedSplits] at hts
  refine ⟨read_nestedSplits, ?_⟩
  -- Behind the first bracket one level is open, and the second bracket opens the next one.
  obtain _ | ⟨t₁, _ | ⟨t₂, ts⟩⟩ := ts
  case nil =>
    cases hts
    cases hl
  case cons.nil =>
    cases hts
    exact hr
  case cons.cons =>
    obtain ⟨rfl, he⟩ := List.cons.inj hts
    obtain ⟨rfl, _⟩ := List.cons.inj he
    rw [List.map_cons, List.map_cons, nestsFrom_cons, nestsFrom_cons] at hn
    exact absurd (hn.2.1 rfl) (by decide)

end TaskFlow
