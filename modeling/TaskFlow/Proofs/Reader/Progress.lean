import TaskFlow.Proofs.Reader.Language
import TaskFlow.Proofs.Reader.Moves
import TaskFlow.Proofs.Token.Partition

namespace TaskFlow

open Lexeme

namespace Reading

-- What a reader that takes one token after the other comes to. It needs no token when a definition
-- is complete, and until then there is always one to take.
inductive Concludes (limit : Int) : Reading → List Token → Except ReadFault Definition → Prop
  | complete {r d} : r.awaiting = .nothing d → Concludes limit r [] (.ok d)
  | refused {r t ts f} :
    ¬ r.Complete → step limit r t = .error f → Concludes limit r (t :: ts) (.error f)
  | taken {r r' t ts e} : ¬ r.Complete → step limit r t = .ok r' → Concludes limit r' ts e →
    Concludes limit r (t :: ts) e

variable {limit : Int} {r r' : Reading} {t : Token} {ts : List Token} {f : ReadFault} {d : Definition}

-- By induction on the tokens before the last one. No definition is complete in front of it.
theorem concludes_concat (hr : ¬ r.Complete) (ht : t.lexeme.isLast)
    (hts : ∀ t ∈ ts, t.lexeme.isLast = false) :
    Concludes limit r (ts ++ [t]) ((ts ++ [t]).foldlM (step limit) r >>= definition?) := by
  induction ts generalizing r
  case nil =>
    rw [List.nil_append, List.foldlM_cons]
    cases hs : step limit r t
    case error f => exact .refused hr hs
    case ok r' =>
      have he : t.lexeme = .endOfInput := by
        obtain ⟨l, start⟩ := t
        cases l <;> simp [isLast] at ht
        case endOfInput => rfl
        case invalid => cases hs
      obtain ⟨d, hd⟩ := (moves_of_step hr hs).complete_iff.mpr he
      refine .taken hr hs ?_
      change Concludes limit r' [] r'.definition?
      rw [definition?_eq_ok.mpr hd]
      exact .complete hd
  case cons t' ts hi =>
    rw [List.forall_mem_cons] at hts
    rw [List.cons_append, List.foldlM_cons]
    cases hs : step limit r t'
    case error f => exact .refused hr hs
    case ok r' =>
      refine .taken hr hs (hi (fun hc => ?_) hts.2)
      rw [(moves_of_step hr hs).complete_iff.mp hc] at hts
      cases hts.1

theorem concludes_scan {text : String} (h : text.toList.all Text.isBlank = false) :
    Concludes limit { } (Token.scan text) (Definition.read text limit) := by
  have ⟨ts, t, he, ht, hts⟩ := Token.exists_scan_eq text
  have hc : Concludes limit { } _ _ := concludes_concat (by rintro ⟨_, ⟨⟩⟩) ht hts
  rw [← he] at hc
  rwa [Definition.read, if_neg (by simp [h])]

theorem Concludes.exists_refused (h : Concludes limit r ts (.error f)) : ∃ ts₁ t ts₂ r',
    ts = ts₁ ++ t :: ts₂ ∧ ts₁.foldlM (step limit) r = .ok r' ∧ ¬ r'.Complete ∧
      step limit r' t = .error f := by
  generalize he : Except.error f = e at h
  induction h
  case complete => cases he
  case refused r t ts _ hc hs =>
    cases he
    exact ⟨[], t, ts, r, rfl, rfl, hc, hs⟩
  case taken t _ _ _ hs _ hi =>
    obtain ⟨ts₁, t', ts₂, r', rfl, hr, ht⟩ := hi he
    refine ⟨t :: ts₁, t', ts₂, r', rfl, ?_, ht⟩
    rw [List.foldlM_cons, hs]
    exact hr

end Reading

theorem Definition.not_blank_of_read {text : String} {limit : Int} {a : Definition}
    (h : read text limit = .ok a) : text.toList.all Text.isBlank = false := by
  rw [← Bool.not_eq_true]
  intro hb
  rw [read, if_pos hb] at h
  cases h

end TaskFlow
