import TaskFlow.Graph.WellFormed
import TaskFlow.Proofs.Reader.Image

namespace TaskFlow

open Lexeme

variable {limit : Int} {p s : String} {l : Lexeme} {rest : List Char} {pos n : Nat} {chain : Chain}

section Written

theorem scanFrom_of_stands (h : l.Stands rest) (hl : l.isLast = false) :
    Token.scanFrom pos (l.text.toList ++ rest)
      = ⟨l, pos⟩ :: Token.scanFrom (pos + l.text.length) rest := by
  obtain ⟨c, cs, he⟩ := List.exists_cons_of_ne_nil
    (List.append_ne_nil_of_left_ne_nil (h.matches hl).text_ne_nil rest)
  have hf := first?_of_stands he.symm h hl
  rw [he, scanFrom_cons, if_neg (by simp [not_isGap_of_first? hf]), hf]

theorem stands_name (h : isName s) (hr : ∀ c tl, rest = c :: tl → isNameChar c tl = false)
    (hd : s.toList.getLast? = some '-' → rest.head? ≠ some '>') : (identifier s).Stands rest := by
  have hs : (nameRun s.toList).2 = [] := by
    rw [isName, Bool.and_eq_true, List.isEmpty_iff] at h
    exact h.2
  have hn := nameRun_append_of_stops hs hr hd
  have hne : s ≠ "" := by
    rintro rfl
    cases h
  refine ⟨⟨hne, fun pre c post he => ?_⟩, hr⟩
  have hc : (nameRun (s.toList ++ rest)).1 = pre ++ c :: post := by rw [hn, he]
  have := isNameChar_of_nameRun hc
  rwa [hn] at this

@[simp]
theorem text_statusLexeme : (statusLexeme p).text = statusText p := by
  rw [statusLexeme, statusText]
  split
  all_goals rfl

-- A dash at the end of a name does not meet the end of an arrow in front of a colon.
theorem stands_statusLexeme (h : Graph.isWritable p) : (statusLexeme p).Stands (':' :: rest) := by
  rw [Graph.isWritable, Bool.and_eq_true] at h
  rw [statusLexeme]
  split
  case isTrue hn => exact stands_name hn (fun _ _ he => isNameChar_colon he) (by simp)
  case isFalse => exact stands_quoted h.2

theorem isLast_statusLexeme : (statusLexeme p).isLast = false := by
  rw [statusLexeme]
  split
  all_goals rfl

theorem scan_statusText (h : Graph.isWritable p) (rest : String) :
    Token.scan (statusText p ++ ":" ++ rest) = ⟨statusLexeme p, 0⟩ ::
      ⟨.colon, (statusText p).length⟩ ::
        Token.scanFrom ((statusText p).length + 1) rest.toList := by
  have he : (statusText p ++ ":" ++ rest).toList
      = (statusLexeme p).text.toList ++ ':' :: rest.toList := by
    simp only [text_statusLexeme, String.toList_append, List.append_assoc]
    rfl
  have hc : Token.scanFrom (statusText p).length (':' :: rest.toList) = _ :: _ :=
    scanFrom_of_stands (l := .colon) trivial rfl
  rw [Token.scan, he, scanFrom_of_stands (stands_statusLexeme h) isLast_statusLexeme,
    text_statusLexeme, Nat.zero_add, hc]
  rfl

end Written

section Read

theorem catchAll_noteStatus (h : chain.catchAll = none) :
    (chain.noteStatus p n).catchAll.isSome ↔ p = wildcard := by
  rw [Chain.noteStatus]
  split
  case isTrue hp  => simp [hp]
  case isFalse hp => simp [hp, h]

theorem Definition.Normal.isSome_of_mem {d : Definition} (h : d.Normal) :
    ∀ ps ∈ d.patternLists, ∀ p ∈ ps, p.isSome := by
  induction d
  case task => simp
  case sequence hi =>
    rw [patternLists_sequence, List.forall_mem_flatMap]
    exact fun d hd => hi d hd ((normal_sequence.mp h).2.2 d hd)
  case split hi =>
    rw [patternLists_split, List.forall_mem_flatMap]
    exact fun d hd => hi d hd ((normal_split.mp h).2 d hd)
  case transition hi =>
    have ⟨_, hsome, hd⟩ := normal_transition.mp h
    rw [patternLists_transition, List.forall_mem_cons, List.forall_mem_flatMap, List.forall_mem_map]
    exact ⟨hsome, fun c hc => hi c hc (hd c hc)⟩

theorem Definition.isWritable_of_read {text : String} {a : Definition} (h : read text limit = .ok a)
    {ps : List (Option String)} (hps : ps ∈ a.patternLists) {p : Option String} (hp : p ∈ ps) :
    ∃ s, p = some s ∧ Graph.isWritable s := by
  have hw := (wellFormed_of_read h).of_bare
  obtain ⟨s, rfl⟩ := Option.isSome_iff_exists.mp (hw.normal.isSome_of_mem ps hps p hp)
  have hq : s.toList.all isQuotable := hw.writable.quotable ps hps _ hp
  have hne : s ≠ "" := fun he => (hw.selective ps hps).nonempty (he ▸ hp)
  exact ⟨s, rfl, by simpa [Graph.isWritable, hne] using hq⟩

end Read

-- A condition that a graph may have is written so that it is read as that very pattern, and every
-- pattern that is read is such a condition.
theorem statusText_reads :
    (∀ p rest : String, Graph.isWritable p → ∃ (l : Lexeme) (ts : List Token),
      Token.scan (statusText p ++ ":" ++ rest) = ⟨l, 0⟩ :: ⟨.colon, (statusText p).length⟩ :: ts ∧
      (l = .identifier p ∨ l = .quoted p) ∧
      ∀ (limit : Int) (r : Reading) (chain : Chain),
        { r with awaiting := .status chain }.step limit ⟨l, 0⟩
          = .ok { r with awaiting := .afterStatus chain p 0 } ∧
        (chain.catchAll = none → chain.covers p = false → ∃ chain',
          { r with awaiting := .afterStatus chain p 0 }.step limit ⟨.colon, (statusText p).length⟩
            = .ok { r with awaiting := .target chain' p } ∧
          (chain'.catchAll.isSome ↔ p = "*"))) ∧
    ∀ (text : String) (limit : Int) (a : Definition), Definition.read text limit = .ok a →
      ∀ ps ∈ a.patternLists, ∀ p ∈ ps, ∃ s, p = some s ∧ Graph.isWritable s := by
  refine ⟨fun p rest hp => ?_, fun text limit a h ps hps p => Definition.isWritable_of_read h hps⟩
  -- Whether it is quoted or not, the pattern is one lexeme, with the colon right behind it.
  refine ⟨statusLexeme p, _, scan_statusText hp rest, ?_, fun limit r chain => ⟨?_, fun hw hc => ?_⟩⟩
  · rw [statusLexeme]
    split
    · exact .inl rfl
    · exact .inr rfl
  · exact Reading.step_status (pattern?_statusLexeme p)
  · have hne : p ≠ "" := by
      rintro rfl
      cases hp
    exact ⟨_, Reading.step_colon hne hw hc, catchAll_noteStatus hw⟩

theorem read_arrowInPattern : Definition.read "t -> 'a->': b" 0
    = .ok (.transition { name := "t" } [(some "a->", .task { name := "b", offset := 12 })]) := by
  have hs : Token.scan "t -> 'a->': b" = [⟨.identifier "t", 0⟩, ⟨.arrow, 2⟩, ⟨.quoted "a->", 5⟩,
      ⟨.colon, 10⟩, ⟨.identifier "b", 12⟩, ⟨.endOfInput, 13⟩] := by
    simp [Token.scan, scanFrom_cons, isGap, first?, isNameChar, nameRun, isWord_of_lt, isQuotable]
    simp only [Token.scanFrom, text]
    decide
  rw [Definition.read, hs]
  rfl

theorem statusText_reads_arrowInPattern :
    Graph.isWritable "a->" ∧
      (∃ l ts chain r, Token.scan (statusText "a->" ++ ":" ++ " b")
          = ⟨l, 0⟩ :: ⟨.colon, (statusText "a->").length⟩ :: ts ∧
        Reading.step 0 { awaiting := .status { source := { name := "t" } } } ⟨l, 0⟩ = .ok r ∧
        r.step 0 ⟨.colon, (statusText "a->").length⟩ = .ok { awaiting := .target chain "a->" } ∧
        chain.catchAll = none) ∧
      ∃ a, Definition.read "t -> 'a->': b" 0 = .ok a ∧ a.patternLists = [[some "a->"]] ∧
        ∃ s, some "a->" = some s ∧ Graph.isWritable s := by
  have hw : Graph.isWritable "a->" := by decide
  have ⟨l, ts, hs, _, hr⟩ := statusText_reads.1 "a->" " b" hw
  have ⟨hl, hr⟩ := hr 0 { } { source := { name := "t" } }
  have ⟨chain, hc, hx⟩ := hr rfl rfl
  have hx : chain.catchAll = none := by
    rw [← Option.not_isSome_iff_eq_none, hx]
    decide
  refine ⟨hw, ⟨l, ts, chain, _, hs, hl, hc, hx⟩, _, read_arrowInPattern, by simp, ?_⟩
  exact statusText_reads.2 _ _ _ read_arrowInPattern [some "a->"] (by simp) (some "a->") (by simp)

end TaskFlow
