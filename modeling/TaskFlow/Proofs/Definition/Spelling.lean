import TaskFlow.Definition.Text
import TaskFlow.Proofs.Definition.Structure
import TaskFlow.Proofs.Token.Boundaries

namespace TaskFlow

open Lexeme

def TaskMention.spelling (t : TaskMention) : List Lexeme :=
  t.label.elim [] (fun label => [.identifier label, .colon]) ++ [.identifier t.name]

structure TaskMention.Named (t : TaskMention) : Prop where
  name : isName t.name
  label : ∀ l ∈ t.label, isName l

def statusLexeme (p : String) : Lexeme :=
  if isName p then .identifier p else .quoted p

def Quotable (p : Option String) : Prop :=
  (p.getD "").toList.all isQuotable

namespace Definition

-- Puts parentheses around the lexemes of a definition that needs them behind a clause.
def enclose (d : Definition) (ls : List Lexeme) : List Lexeme :=
  if d.isSimple then ls else .openParen :: ls ++ [.closeParen]

def spelling : Definition → List Lexeme :=
  fold TaskMention.spelling [.ampersands].intercalate
    (fun bs => .openAngle :: [.bars].intercalate bs ++ [.closeAngle])
    fun t cs => t.spelling ++ cs.flatMap fun c =>
      [.arrow, statusLexeme (c.1.1.getD ""), .colon] ++ c.1.2.enclose c.2

def EndsInDash (d : Definition) : Prop :=
  d.text.toList.getLast? = some '-'

-- Whether a split in a definition closes right behind a dash.
inductive Clashes : Definition → Prop
  | sequence {d ds} : d ∈ ds → Clashes d → Clashes (.sequence ds)
  | split {d ds} : d ∈ ds → Clashes d → Clashes (.split ds)
  | last {d ds} : d ∈ ds.getLast? → d.EndsInDash → Clashes (.split ds)
  | transition {t c cs} : c ∈ cs → Clashes c.2 → Clashes (.transition t cs)

section Equations

variable (t : TaskMention) (ds : List Definition) (cs : List Clause)

@[simp]
theorem spelling_task : (task t).spelling = t.spelling := by
  simp [spelling]

@[simp]
theorem spelling_sequence :
    (sequence ds).spelling = [.ampersands].intercalate (ds.map spelling) := by
  simp [spelling]

@[simp]
theorem spelling_split :
    (split ds).spelling = .openAngle :: [.bars].intercalate (ds.map spelling) ++ [.closeAngle] := by
  simp [spelling]

@[simp]
theorem spelling_transition : (transition t cs).spelling = t.spelling ++ cs.flatMap fun c =>
    [.arrow, statusLexeme (c.1.getD ""), .colon] ++ c.2.enclose c.2.spelling := by
  simp [spelling, List.flatMap_map]

theorem texts_eq_map : texts ds = ds.map text := by
  induction ds
  case nil => simp [texts]
  case cons hi => simp [texts, hi]

theorem toList_text_sequence :
    (sequence ds).text.toList = " && ".toList.intercalate (ds.map (·.text.toList)) := by
  rw [text, String.toList_intercalate, texts_eq_map, List.map_map]
  rfl

theorem toList_text_split : (split ds).text.toList
    = '<' :: " || ".toList.intercalate (ds.map (·.text.toList)) ++ ['>'] := by
  rw [text, String.toList_append, String.toList_append, String.toList_intercalate, texts_eq_map,
    List.map_map]
  rfl

def targetChars (d : Definition) : List Char :=
  if d.isSimple then d.text.toList else '(' :: d.text.toList ++ [')']

def clauseChars (c : Clause) : List Char :=
  " -> ".toList ++ (statusText (c.1.getD "")).toList ++ ":".toList ++ " ".toList ++ c.2.targetChars

theorem clauseChars_eq {c : Clause} : clauseChars c = " -> ".toList
    ++ (statusText (c.1.getD "")).toList ++ ":".toList ++ " ".toList ++ c.2.targetChars :=
  rfl

theorem toList_text_transition :
    (transition t cs).text.toList = t.text.toList ++ cs.flatMap clauseChars := by
  have hc : (clausesText cs).toList = cs.flatMap clauseChars := by
    induction cs
    case nil => simp [clausesText]
    case cons c cs hi =>
      obtain ⟨p, d⟩ := c
      have ht : (if d.isSimple then d.text else "(" ++ d.text ++ ")").toList = d.targetChars := by
        cases hd : d.isSimple <;> simp [targetChars, hd]
      have hs : ": ".toList = ":".toList ++ " ".toList := rfl
      rw [List.flatMap_cons, ← hi, clauseChars_eq, clausesText, ← ht]
      simp only [String.toList_append, hs, List.append_assoc]
  rw [text, String.toList_append, hc]

end Equations

end Definition

variable {rest : List Char} {t : TaskMention} {d : Definition} {ds : List Definition}
  {cs : List Clause} {sep : String} {l : Lexeme}

theorem isNameChar_colon {c : Char} {cs tl : List Char} (h : ':' :: cs = c :: tl) :
    isNameChar c tl = false := by
  cases h
  simp [isNameChar, isWord_of_lt]

theorem TaskMention.lexemes_label (h : t.Named) : lexemes (t.text.toList ++ rest)
    = t.label.elim [] (fun label => [.identifier label, .colon])
      ++ lexemes (t.name.toList ++ rest) := by
  cases hl : t.label
  case none => simp [text, hl]
  case some label =>
    have hc : lexemes (": ".toList ++ (t.name.toList ++ rest))
        = .colon :: lexemes (t.name.toList ++ rest) :=
      lexemes_colon.trans (congrArg _ lexemes_space)
    have hs : isName label := h.label label (by simp [hl])
    have hl' : lexemes (label.toList ++ (": ".toList ++ (t.name.toList ++ rest)))
        = .identifier label :: lexemes (": ".toList ++ (t.name.toList ++ rest)) :=
      lexemes_name hs (fun c tl he => isNameChar_colon he) (by simp)
    rw [hc] at hl'
    simpa [text, hl] using hl'

theorem TaskMention.lexemes_text (h : t.Named) (hr : Boundary rest)
    (hd : t.name.toList.getLast? = some '-' → rest.head? ≠ some '>') :
    lexemes (t.text.toList ++ rest) = t.spelling ++ lexemes rest := by
  have hn := lexemes_name h.name (fun c tl he => Boundary.isNameChar (he ▸ hr)) hd
  rw [t.lexemes_label h, hn, spelling, List.append_assoc, List.singleton_append]

theorem lexemes_statusText {p : Option String} (h : Quotable p) :
    lexemes ((statusText (p.getD "")).toList ++ ':' :: rest)
      = statusLexeme (p.getD "") :: .colon :: lexemes rest := by
  rw [← lexemes_colon]
  by_cases hn : isName (p.getD "")
  case pos =>
    rw [statusText, statusLexeme, if_pos hn, if_pos hn]
    exact lexemes_name hn (fun c tl he => isNameChar_colon he) (by simp)
  case neg =>
    rw [statusText, statusLexeme, if_neg hn, if_neg hn]
    have hq : lexemes (('\'' :: (p.getD "").toList) ++ '\'' :: ':' :: rest)
        = .quoted (p.getD "") :: lexemes (':' :: rest) := lexemes_quoted h
    simpa using hq

namespace Definition

-- Whether the names in a definition read as identifiers, and its patterns can be quoted.
structure Writable (d : Definition) : Prop where
  named : ∀ t ∈ d.mentions, t.Named
  quotable : ∀ ps ∈ d.patternLists, ∀ p ∈ ps, Quotable p

-- Whether the text of a definition spells what it is meant to, in front of what may follow.
def Spelled (d : Definition) : Prop :=
  ∀ rest, Boundary rest → (d.EndsInDash → rest.head? ≠ some '>') →
    lexemes (d.text.toList ++ rest) = d.spelling ++ lexemes rest

theorem endsInDash_of_getLast? {cs cs' : List Char} (h : d.text.toList = cs ++ cs')
    (hl : cs'.getLast? = some '-') : d.EndsInDash := by
  rw [EndsInDash, h, List.getLast?_append, hl]
  rfl

theorem lexemes_intercalate (hs : Separates sep l) (h : ∀ d ∈ ds, Spelled d)
    (hr : Boundary rest) (hd : ∀ d ∈ ds.getLast?, d.EndsInDash → rest.head? ≠ some '>') :
    lexemes (sep.toList.intercalate (ds.map (·.text.toList)) ++ rest)
      = [l].intercalate (ds.map spelling) ++ lexemes rest := by
  induction ds
  case nil => rfl
  case cons d ds hi =>
    cases ds
    case nil => simpa using h d (by simp) rest hr (hd d rfl)
    case cons d' ds =>
      have hds := hi (fun d hm => h d (by simp [hm])) (by simpa using hd)
      have hd := h d (by simp) (sep.toList ++
        (sep.toList.intercalate ((d' :: ds).map (·.text.toList)) ++ rest)) (.separator hs)
        (by simp [hs.head])
      rw [hs.lexemes, hds] at hd
      simpa using hd

theorem exists_intercalate_eq {α β : Type} {sep : List β} {f : α → List β} {x : α} {xs : List α}
    (h : x ∈ xs.getLast?) : ∃ tl, sep.intercalate (xs.map f) = tl ++ f x := by
  induction xs
  case nil => cases h
  case cons y xs hi =>
    cases xs
    case nil =>
      cases h
      exact ⟨[], by simp⟩
    case cons z xs =>
      have ⟨tl, he⟩ := hi (by simpa using h)
      refine ⟨f y ++ sep ++ tl, ?_⟩
      rw [List.map_cons, List.map_cons, List.intercalate_cons_cons, ← List.map_cons, he]
      simp

theorem lexemes_clauseChars {c : Clause} (hq : Quotable c.1) :
    lexemes (clauseChars c ++ rest) = [.arrow, statusLexeme (c.1.getD ""), .colon]
      ++ lexemes (c.2.targetChars ++ rest) := by
  have hst : lexemes ((statusText (c.1.getD "")).toList ++ ':' :: ' ' :: (c.2.targetChars ++ rest))
      = statusLexeme (c.1.getD "") :: .colon :: lexemes (c.2.targetChars ++ rest) := by
    rw [lexemes_statusText hq, lexemes_space]
  have ha := separates_arrow.lexemes
    ((statusText (c.1.getD "")).toList ++ ':' :: ' ' :: (c.2.targetChars ++ rest))
  rw [hst] at ha
  simpa [clauseChars_eq] using ha

theorem lexemes_targetChars (h : d.Spelled) (hr : Boundary rest)
    (hd : d.isSimple → d.EndsInDash → rest.head? ≠ some '>') :
    lexemes (d.targetChars ++ rest) = d.enclose d.spelling ++ lexemes rest := by
  cases hs : d.isSimple
  case true => simpa [targetChars, enclose, hs] using h rest hr (hd hs)
  case false =>
    have := h (')' :: rest) .closeParen (by simp)
    simpa [targetChars, enclose, hs, lexemes_openParen, lexemes_closeParen] using this

theorem boundary_clauseChars {c : Clause} : Boundary (clauseChars c ++ rest) := by
  rw [clauseChars_eq]
  simp only [List.append_assoc]
  exact .separator separates_arrow

theorem head?_clauseChars {c : Clause} : (clauseChars c ++ rest).head? = some ' ' := by
  rw [clauseChars_eq]
  simp only [List.append_assoc]
  exact separates_arrow.head _

theorem boundary_clauses (hr : Boundary rest) : Boundary (cs.flatMap clauseChars ++ rest) := by
  cases cs
  case nil  => exact hr
  case cons =>
    rw [List.flatMap_cons, List.append_assoc]
    exact boundary_clauseChars

-- By induction on the clauses. A blank follows each clause but the last one, so only the last one
-- can meet what stands behind all of them.
theorem lexemes_clauses (h : ∀ c ∈ cs, Quotable c.1 ∧ c.2.Spelled) (hr : Boundary rest)
    (hd : ∀ c ∈ cs.getLast?, c.2.isSimple → c.2.EndsInDash → rest.head? ≠ some '>') :
    lexemes (cs.flatMap clauseChars ++ rest)
      = (cs.flatMap fun c => [.arrow, statusLexeme (c.1.getD ""), .colon]
        ++ c.2.enclose c.2.spelling) ++ lexemes rest := by
  induction cs
  case nil => rfl
  case cons c cs hi =>
    have ⟨hq, hs⟩ := h c (by simp)
    have hl : ∀ d ∈ cs.getLast?, d ∈ (c :: cs).getLast? := by
      intro d hm
      rw [List.getLast?_cons, Option.mem_def.mp hm]
      rfl
    have hcs := hi (fun c hm => h c (by simp [hm])) (fun d hm => hd d (hl d hm))
    have hb : Boundary (cs.flatMap clauseChars ++ rest) := boundary_clauses hr
    have hc := lexemes_targetChars hs hb ?_
    · rw [hcs] at hc
      simp [lexemes_clauseChars hq, hc]
    · cases cs
      case nil  => exact hd c rfl
      case cons =>
        rw [List.flatMap_cons, List.append_assoc, head?_clauseChars]
        simp

theorem Writable.of_mem_sequence (h : (sequence ds).Writable) (hd : d ∈ ds) : d.Writable where
  named t ht := h.named t (by rw [mentions_sequence, List.mem_flatMap]; exact ⟨d, hd, ht⟩)
  quotable ps hp := h.quotable ps (by
    rw [patternLists_sequence, List.mem_flatMap]; exact ⟨d, hd, hp⟩)

theorem Writable.of_mem_split (h : (split ds).Writable) (hd : d ∈ ds) : d.Writable where
  named t ht := h.named t (by rw [mentions_split, List.mem_flatMap]; exact ⟨d, hd, ht⟩)
  quotable ps hp := h.quotable ps (by
    rw [patternLists_split, List.mem_flatMap]; exact ⟨d, hd, hp⟩)

theorem Writable.of_mem_transition {c : Clause} (h : (transition t cs).Writable) (hc : c ∈ cs) :
    Quotable c.1 ∧ c.2.Writable := by
  refine ⟨?_, fun t ht => h.named t ?_, fun ps hp => h.quotable ps ?_⟩
  · exact h.quotable (cs.map (·.1)) (by simp) _ (List.mem_map_of_mem hc)
  · rw [mentions_transition, List.mem_cons, List.mem_flatMap]
    exact .inr ⟨c, hc, ht⟩
  · rw [patternLists_transition, List.mem_cons, List.mem_flatMap]
    exact .inr ⟨c, hc, hp⟩

theorem exists_text_task (t : TaskMention) : ∃ tl, t.text.toList = tl ++ t.name.toList := by
  refine ⟨t.label.elim [] fun l => l.toList ++ ": ".toList, ?_⟩
  cases hl : t.label <;> simp [TaskMention.text, hl]

-- The last clause of a transition stands at the end, and so does its target, unless parentheses
-- enclose it.
theorem endsInDash_transition {c : Clause} (h : c ∈ cs.getLast?) (hs : c.2.isSimple)
    (hd : c.2.EndsInDash) : (transition t cs).EndsInDash := by
  have ⟨cs', he⟩ := List.getLast?_eq_some_iff.mp (Option.mem_def.mp h)
  have ht : (transition t cs).text.toList = t.text.toList ++ cs'.flatMap clauseChars
      ++ (" -> ".toList ++ (statusText (c.1.getD "")).toList ++ ":".toList ++ " ".toList)
      ++ c.2.text.toList := by
    simp [toList_text_transition, he, clauseChars_eq, targetChars, hs]
  exact endsInDash_of_getLast? ht hd

-- By induction on the definition. A part is followed by a separator or by a bracket, and a bracket
-- that a dash of the part could swallow stands behind the last branch of a split only.
theorem spelled (hw : d.Writable) (hc : ¬ d.Clashes) : d.Spelled := by
  induction d
  case task t =>
    intro rest hr hd
    have ⟨tl, he⟩ := exists_text_task t
    rw [text] at *
    rw [spelling_task]
    exact t.lexemes_text (hw.named t (by simp)) hr fun hl => hd (endsInDash_of_getLast? he hl)
  case sequence ds hi =>
    intro rest hr hd
    rw [toList_text_sequence, spelling_sequence]
    refine lexemes_intercalate separates_ampersands
      (fun d hm => hi d hm (hw.of_mem_sequence hm) (hc ∘ .sequence hm)) hr fun d hm hl => hd ?_
    have ⟨tl, he⟩ : ∃ tl, (sequence ds).text.toList = tl ++ d.text.toList :=
      toList_text_sequence ds ▸ exists_intercalate_eq hm
    exact endsInDash_of_getLast? he hl
  case split ds hi =>
    intro rest hr hd
    have hs : ∀ d ∈ ds, d.Spelled := fun d hm => hi d hm (hw.of_mem_split hm) (hc ∘ .split hm)
    have hb := lexemes_intercalate separates_bars hs (.closeAngle : Boundary ('>' :: rest))
      fun d hm hl => absurd (.last hm hl) hc
    rw [toList_text_split, spelling_split, List.cons_append, List.cons_append, lexemes_openAngle,
      List.append_assoc, List.singleton_append, hb, lexemes_closeAngle]
    simp
  case transition t cs hi =>
    intro rest hr hd
    have ⟨tl, he⟩ := exists_text_task t
    have hcs := lexemes_clauses (fun c hm => ⟨(hw.of_mem_transition hm).1,
      hi c hm (hw.of_mem_transition hm).2 (hc ∘ .transition hm)⟩) hr
      fun c hm hs hl => hd (endsInDash_transition hm hs hl)
    have hb : Boundary (cs.flatMap clauseChars ++ rest) := boundary_clauses hr
    have ht := t.lexemes_text (hw.named t (by simp)) hb ?_
    · rw [hcs] at ht
      simpa [toList_text_transition] using ht
    -- The task stands at the end of the text only if there is no clause.
    · cases cs
      case nil =>
        have he : (transition t []).text.toList = tl ++ t.name.toList := by
          simp [toList_text_transition, he]
        exact fun hl => hd (endsInDash_of_getLast? he hl)
      case cons =>
        rw [List.flatMap_cons, List.append_assoc, head?_clauseChars]
        simp

end Definition

end TaskFlow
