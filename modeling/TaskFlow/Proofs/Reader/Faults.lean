import TaskFlow.Proofs.Reader.Legible
import TaskFlow.Proofs.Reader.Progress
import TaskFlow.Proofs.Text.Caret

namespace TaskFlow

open Lexeme

-- Where the tokens stand that were taken but are judged later: a name that may be a label, a label,
-- or a status.
def Awaiting.pending : Awaiting → List Nat
  | afterName _ offset _ | afterLabel _ offset _ | afterLabeled _ offset _ _ _
  | afterStatus _ _ offset => [offset]
  | element | clause _ | status _ | target .. | afterStep | nothing _ => []

namespace Reading

variable {limit : Int} {r r' : Reading} {t : Token} {ts : List Token} {q : Place} {d : Definition}
  {f : ReadFault} {offset : Nat}

theorem pending_put : (r.put d q).awaiting.pending = [] := by
  cases q
  all_goals rfl

-- What is still to be judged was so before, or is the token itself.
theorem Moves.mem_pending (h : Moves limit r t r') (ho : offset ∈ r'.awaiting.pending) :
    offset ∈ r.awaiting.pending ∨ offset = t.start := by
  induction h
  case name | status => exact .inr (List.mem_singleton.mp ho)
  case label ha | labeled ha =>
    rw [ha]
    exact .inl ho
  case closeAngle | closeParen =>
    rw [close, pending_put] at ho
    cases ho
  case task hi | labeledTask hi => exact .inr ((hi ho).resolve_left List.not_mem_nil)
  case clause hi =>
    rw [pending_put] at hi
    exact .inr ((hi ho).resolve_left List.not_mem_nil)
  all_goals cases ho

theorem Refusal.mem_pending (h : Refusal limit r t f) :
    f.offset ∈ r.awaiting.pending ∨ f.offset = t.start := by
  cases h
  case invalid | misplaced | tooDeep => exact .inr rfl
  case emptyPattern ha | afterCatchAll ha _ | duplicateTransition ha _ | duplicateLabel ha _ =>
    rw [ha]
    exact .inl (List.mem_singleton_self _)

theorem Concludes.offset_mem (h : Concludes limit r ts (.error f)) :
    f.offset ∈ r.awaiting.pending ∨ ∃ t ∈ ts, t.start = f.offset := by
  generalize he : Except.error f = e at h
  induction h
  case complete => cases he
  case refused t ts _ _ hs =>
    cases he
    exact (refusal_of_step hs).mem_pending.imp_right fun h => ⟨t, List.mem_cons_self, h.symm⟩
  case taken t ts _ hc hs _ hi =>
    obtain ho | ⟨t', ht, he⟩ := hi he
    case inl =>
      exact ((moves_of_step hc hs).mem_pending ho).imp_right fun h => ⟨t, List.mem_cons_self, h.symm⟩
    case inr => exact .inr ⟨t', List.mem_cons_of_mem t ht, he⟩

end Reading

theorem Definition.exists_token_of_read_error {text : String} {limit : Int} {f : ReadFault}
    (hb : text.toList.all Text.isBlank = false) (h : read text limit = .error f) :
    ∃ t ∈ Token.scan text, t.start = f.offset := by
  have hc : Reading.Concludes limit { } (Token.scan text) (.error f) :=
    h ▸ Reading.concludes_scan hb
  exact hc.offset_mem.resolve_left nofun

-- No token goes on behind the end of a line.
theorem Lexeme.Stands.newline_notMem {l : Lexeme} {rest : List Char} (h : l.Stands rest) :
    '\n' ∉ l.text.toList := by
  intro hm
  cases l
  case identifier =>
    obtain ⟨pre, post, he⟩ := List.append_of_mem hm
    have hq := isQuotable_of_isNameChar (h.1.2 pre _ post he)
    simp [isQuotable] at hq
  case quoted body =>
    have hq := h '\n' (by simpa [text] using hm)
    simp [isQuotable] at hq
  case invalid c =>
    obtain rfl : '\n' = c := by simpa [text] using hm
    cases h.1
  all_goals simp [text] at hm

namespace Text

variable {text : String} {m : Mark} {t : Token}

theorem Mark.At.token_isPrefix (h : m.At text t.start) (ht : t ∈ Token.scan text) :
    t.lexeme.text.toList <+: m.line.drop m.column := by
  obtain ⟨pre, rest, he, hs, hst⟩ := Token.placed_of_mem_scanFrom ht
  rw [hs, Nat.zero_add] at h
  exact h.isPrefix he hst.newline_notMem

-- The caret points into the line that holds the offset, and for every fault at the token where the
-- fault lies.
theorem caret_marks (text : String) :
    (∀ offset : Int, ∃ m : Mark, m.At text offset ∧ caret text offset = m.drawing) ∧
    ∀ (limit : Int) (f : ReadFault), text.toList.all isBlank = false →
      Definition.read text limit = .error f →
      ∃ t ∈ Token.scan text, t.start = f.offset ∧
        ∃ m : Mark, m.At text f.offset ∧ caret text f.offset = m.drawing ∧
          t.lexeme.text.toList <+: m.line.drop m.column := by
  refine ⟨exists_mark text, fun limit f hb h => ?_⟩
  have ⟨t, ht, he⟩ := Definition.exists_token_of_read_error hb h
  have ⟨m, hm, hd⟩ := exists_mark text f.offset
  exact ⟨t, ht, he, m, hm, hd, (he ▸ hm).token_isPrefix ht⟩

theorem scan_repeatedLabel : Token.scan "x: a &&\n  x: b" = [⟨.identifier "x", 0⟩, ⟨.colon, 1⟩,
    ⟨.identifier "a", 3⟩, ⟨.ampersands, 5⟩, ⟨.identifier "x", 10⟩, ⟨.colon, 11⟩,
    ⟨.identifier "b", 13⟩, ⟨.endOfInput, 14⟩] := by
  simp [Token.scan, scanFrom_cons, isGap, first?, isNameChar, nameRun, isWord_of_lt]
  simp only [Token.scanFrom, Lexeme.text]
  decide

-- The label is judged when the task behind it was read, and the caret goes back to it.
theorem caret_marks_repeatedLabel :
    Definition.read "x: a &&\n  x: b" 0 = .error ⟨.duplicateLabel "x" 0, 10⟩ ∧
      ∃ m : Mark, m.At "x: a &&\n  x: b" 10 ∧ m.drawing = "  x: b\n  ^" ∧
        ['x'] <+: m.line.drop m.column := by
  have hr : Definition.read "x: a &&\n  x: b" 0 = .error ⟨.duplicateLabel "x" 0, 10⟩ := by
    rw [Definition.read, scan_repeatedLabel]
    rfl
  obtain ⟨t, ht, he, m, hm, hd, hp⟩ := (caret_marks "x: a &&\n  x: b").2 0 _ (by decide) hr
  have hc : caret "x: a &&\n  x: b" 10 = "  x: b\n  ^" := by decide
  obtain rfl : t = ⟨.identifier "x", 10⟩ := by
    clear hp
    rw [scan_repeatedLabel] at ht
    revert t
    decide
  exact ⟨hr, m, hm, hd.symm.trans hc, hp⟩

end Text

end TaskFlow
