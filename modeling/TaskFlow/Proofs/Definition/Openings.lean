import TaskFlow.Proofs.Definition.Clashes
import TaskFlow.Proofs.Definition.Size
import TaskFlow.Proofs.Token.Nesting

namespace TaskFlow

open Lexeme

variable {cs cs' rest : List Char} {n n' : Nat} {limit : Int} {ls : List Lexeme} {l : Lexeme}
  {t : TaskMention} {d : Definition} {ds : List Definition} {sep : String}

theorem nestsFrom_of_countP {n : Int} (h : n + ls.countP opens ≤ limit) : NestsFrom limit n ls := by
  induction ls generalizing n
  case nil => exact nestsFrom_nil
  case cons l ls hi =>
    have hl : level [l] ≤ [l].countP opens := by
      rw [level]
      omega
    rw [List.countP_cons] at h
    rw [List.countP_singleton] at hl
    rw [nestsFrom_cons]
    exact ⟨fun ho => by rw [if_pos ho] at h; omega, hi (by omega)⟩

theorem countP_opens_clause (p : String) : [.arrow, statusLexeme p, .colon].countP opens = 0 := by
  rw [statusLexeme]
  split <;> rfl

-- Whether characters spell something in front of the remaining ones that opens at most `n`
-- brackets.
def Opens (n : Nat) (cs rest : List Char) : Prop :=
  ∃ ls, lexemes cs = ls ++ lexemes rest ∧ ls.countP opens ≤ n

namespace Opens

theorem refl : Opens 0 cs cs :=
  ⟨[], rfl, Nat.le_refl 0⟩

theorem trans (h : Opens n cs cs') (h' : Opens n' cs' rest) : Opens (n + n') cs rest := by
  obtain ⟨ls, he, hl⟩ := h
  obtain ⟨ls', he', hl'⟩ := h'
  refine ⟨ls ++ ls', by rw [he, he', List.append_assoc], ?_⟩
  rw [List.countP_append]
  omega

theorem lexeme (h : lexemes cs = l :: lexemes rest) (hl : l.opens = false) : Opens 0 cs rest :=
  ⟨[l], h, by simp [hl]⟩

theorem bracket (h : lexemes cs = l :: lexemes rest) : Opens 1 cs rest :=
  ⟨[l], h, List.countP_le_length⟩

end Opens

-- Whether characters open at most `n` brackets and then spell the remaining ones, of which a
-- closing bracket may be lost to a dash.
def Ends (n : Nat) (cs rest : List Char) : Prop :=
  Opens n cs rest ∨ ∃ rest', rest = '>' :: rest' ∧ Opens n cs rest'

namespace Ends

theorem opens (h : Ends n cs rest) (hr : rest.head? ≠ some '>') : Opens n cs rest := by
  refine h.resolve_right ?_
  rintro ⟨rest', rfl, _⟩
  exact hr rfl

theorem closeAngle (h : Ends n cs ('>' :: rest)) : Opens n cs rest := by
  obtain h | ⟨rest', he, h⟩ := h
  case inl => exact h.trans (.lexeme lexemes_closeAngle rfl)
  case inr =>
    cases he
    exact h

theorem of_opens (h : Opens n cs cs') (h' : Ends n' cs' rest) : Ends (n + n') cs rest :=
  h'.imp h.trans fun ⟨rest', he, h'⟩ => ⟨rest', he, h.trans h'⟩

end Ends

theorem TaskMention.ends_text (h : t.Named) (hr : Boundary rest) :
    Ends 0 (t.text.toList ++ rest) rest := by
  have hc : (t.label.elim [] fun l => [.identifier l, .colon]).countP Lexeme.opens = 0 := by
    cases t.label <;> rfl
  have hl : Opens 0 (t.text.toList ++ rest) (t.name.toList ++ rest) :=
    ⟨_, t.lexemes_label h, Nat.le_of_eq hc⟩
  change Ends (0 + 0) _ rest
  refine .of_opens hl ?_
  by_cases hd : t.name.toList.getLast? = some '-' ∧ rest.head? = some '>'
  case pos =>
    obtain ⟨rest, rfl⟩ := List.head?_eq_some_iff.mp hd.2
    have ⟨ls, (he : lexemes (t.name.toList ++ '>' :: rest) = _), hl⟩ := exists_lexemes_dash h.name hd.1
    exact .inr ⟨rest, rfl, ls ++ [.arrow], by simp [he], by simp [hl, Lexeme.opens]⟩
  case neg =>
    refine .inl (.lexeme (lexemes_name h.name (fun c tl he => Boundary.isNameChar (he ▸ hr)) ?_) rfl)
    exact fun hl hh => hd ⟨hl, hh⟩

namespace Definition

def Weighs (n : Nat) (d : Definition) : Prop :=
  ∀ rest, Boundary rest → Ends n (d.text.toList ++ rest) rest

theorem ends_intercalate (hs : Separates sep l) (hl : l.opens = false)
    (h : ∀ d ∈ ds, d.Weighs d.openings) (hr : Boundary rest) :
    Ends (ds.map openings).sum (sep.toList.intercalate (ds.map (·.text.toList)) ++ rest) rest := by
  induction ds
  case nil => exact .inl .refl
  case cons d ds hi =>
    rw [List.forall_mem_cons] at h
    cases ds
    case nil => simpa using h.1 rest hr
    case cons d' ds =>
      have hd := (h.1 (sep.toList ++
        (sep.toList.intercalate ((d' :: ds).map (·.text.toList)) ++ rest)) (.separator hs)).opens
        (by simp [hs.head])
      have := Ends.of_opens (hd.trans (.lexeme (hs.lexemes _) hl)) (hi h.2)
      simpa [Nat.add_assoc] using this

theorem ends_targetChars (h : d.Weighs d.openings) (hr : Boundary rest) :
    Ends d.targetOpenings (d.targetChars ++ rest) rest := by
  cases hs : d.isSimple
  case true => simpa [targetChars, targetOpenings, hs] using h rest hr
  case false =>
    have ho : Opens 1 ('(' :: (d.text.toList ++ ')' :: rest)) _ := .bracket lexemes_openParen
    have hd := (h (')' :: rest) .closeParen).opens (by simp)
    have := (ho.trans hd).trans (.lexeme lexemes_closeParen rfl)
    exact .inl (by simpa [targetChars, targetOpenings, hs] using this)

theorem ends_clauses {cs : List Clause} (h : ∀ c ∈ cs, Quotable c.1 ∧ c.2.Weighs c.2.openings)
    (hr : Boundary rest) :
    Ends (cs.map (·.2.targetOpenings)).sum (cs.flatMap clauseChars ++ rest) rest := by
  induction cs
  case nil => exact .inl .refl
  case cons c cs hi =>
    rw [List.forall_mem_cons] at h
    have hc : Opens 0 (clauseChars c ++ (cs.flatMap clauseChars ++ rest)) _ :=
      ⟨_, lexemes_clauseChars h.1.1, Nat.le_of_eq (countP_opens_clause _)⟩
    have hb : Boundary (cs.flatMap clauseChars ++ rest) := boundary_clauses hr
    have ht := ends_targetChars h.1.2 hb
    cases cs
    case nil => simpa using Ends.of_opens hc ht
    case cons c' cs =>
      have ht := ht.opens (by rw [List.flatMap_cons, List.append_assoc, head?_clauseChars]; simp)
      simpa [Nat.add_assoc] using Ends.of_opens (hc.trans ht) (hi h.2)

theorem weighs (hw : d.Writable) : d.Weighs d.openings := by
  induction d
  case task t =>
    intro rest hr
    rw [text, openings_task]
    exact t.ends_text (hw.named t (by simp)) hr
  case sequence ds hi =>
    intro rest hr
    rw [toList_text_sequence, openings_sequence]
    exact ends_intercalate separates_ampersands rfl (fun d hd => hi d hd (hw.of_mem_sequence hd)) hr
  case split ds hi =>
    intro rest hr
    rw [toList_text_split, openings_split]
    have hb := (ends_intercalate separates_bars rfl (fun d hd => hi d hd (hw.of_mem_split hd))
      (.closeAngle : Boundary ('>' :: rest))).closeAngle
    have := Opens.trans (.bracket lexemes_openAngle) hb
    exact .inl (by simpa using this)
  case transition t cs hi =>
    intro rest hr
    rw [toList_text_transition, openings_transition]
    have hcs := ends_clauses (fun c hc => ⟨(hw.of_mem_transition hc).1,
      hi c hc (hw.of_mem_transition hc).2⟩) hr
    have hb : Boundary (cs.flatMap clauseChars ++ rest) := boundary_clauses hr
    have ht := t.ends_text (hw.named t (by simp)) hb
    -- A clause begins with a blank, so a dash at the end of the task stays apart from what follows.
    cases cs
    case nil => simpa using ht
    case cons c cs =>
      have ht := ht.opens (by rw [List.flatMap_cons, List.append_assoc, head?_clauseChars]; simp)
      simpa using Ends.of_opens ht hcs

theorem bracketDepth_text_le (hw : d.Writable) : bracketDepth d.text ≤ d.openings := by
  have ⟨ls, he, hl⟩ := (weighs hw [] .nil).opens (by simp)
  rw [List.append_nil] at he
  have hn : NestsFrom d.openings 0 (lexemes d.text.toList) := by
    refine nestsFrom_of_countP ?_
    rw [he, List.countP_append]
    simp [Lexeme.opens]
    omega
  exact_mod_cast (bracketDepth_le_iff (by omega)).mpr hn

end Definition

end TaskFlow
