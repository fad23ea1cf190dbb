import TaskFlow.Proofs.Definition.Spelling

namespace TaskFlow

open Lexeme

variable {cs cs' rest : List Char} {ls : List Lexeme} {t : TaskMention} {d x : Definition}
  {ds pre post : List Definition} {sep : String} {l : Lexeme}

-- Whether characters spell an arrow that no status follows.
def Strays (cs : List Char) : Prop :=
  ∃ ls l ls', lexemes cs = ls ++ .arrow :: l :: ls' ∧ l.pattern? = none

theorem Strays.of_eq (h : lexemes cs = ls ++ lexemes cs') (hs : Strays cs') : Strays cs := by
  have ⟨ls₁, l, ls₂, he, hl⟩ := hs
  exact ⟨ls ++ ls₁, l, ls₂, by simp [h, he], hl⟩

theorem Strays.arrow (h : lexemes cs = ls ++ .arrow :: lexemes rest) (hr : Boundary rest) :
    Strays cs := by
  have ⟨l, ls', he, hl⟩ := hr.exists_lexemes
  exact ⟨ls, l, ls', he ▸ h, hl⟩

theorem exists_first {α : Type} {P : α → Prop} {xs : List α} (h : ∃ x ∈ xs, P x) :
    ∃ pre x post, xs = pre ++ x :: post ∧ P x ∧ ∀ y ∈ pre, ¬ P y := by
  induction xs
  case nil =>
    have ⟨x, hx, _⟩ := h
    cases hx
  case cons y xs hi =>
    by_cases hy : P y
    case pos => exact ⟨[], y, xs, rfl, hy, List.forall_mem_nil _⟩
    case neg =>
      have ⟨x, hx, hp⟩ := h
      have hx : x ∈ xs := (List.mem_cons.mp hx).resolve_left fun he => hy (he ▸ hp)
      have ⟨pre, x, post, he, hp, hpre⟩ := hi ⟨x, hx, hp⟩
      exact ⟨y :: pre, x, post, by rw [he]; rfl, hp, List.forall_mem_cons.mpr ⟨hy, hpre⟩⟩

section Names

theorem nameRun_of_append (h : (nameRun (cs ++ ['-'])).2 = []) : (nameRun cs).2 = [] := by
  induction cs
  case nil => rfl
  case cons c cs hi =>
    have hc : isNameChar c (cs ++ ['-']) := by
      rw [← Bool.not_eq_false]
      intro hc
      simp [nameRun, hc] at h
    have hc' : isNameChar c cs := by
      cases cs
      case nil  => simpa [isNameChar] using hc
      case cons => exact hc
    have ht := hi (by simpa [nameRun, hc] using h)
    simp [nameRun, hc', ht]

-- The dash leaves the name and becomes a part of the arrow.
theorem exists_lexemes_dash {s : String} (h : isName s) (hd : s.toList.getLast? = some '-') :
    ∃ ls, lexemes (s.toList ++ '>' :: rest) = ls ++ .arrow :: lexemes rest ∧
      ls.countP opens = 0 := by
  have ⟨cs, he⟩ := List.getLast?_eq_some_iff.mp hd
  have hn : (nameRun cs).2 = [] := nameRun_of_append (by simp_all [isName])
  rw [he, List.append_assoc]
  cases cs
  case nil => exact ⟨[], lexemes_arrow, rfl⟩
  case cons c tl =>
    have hs : isName (String.ofList (c :: tl)) := by simp [isName, hn]
    have hr : ∀ d tl', '-' :: '>' :: rest = d :: tl' → isNameChar d tl' = false := by
      rintro _ _ ⟨⟩
      exact isNameChar_dash
    have := lexemes_name hs hr (by simp)
    rw [String.toList_ofList, lexemes_arrow] at this
    exact ⟨[_], this, rfl⟩

end Names

theorem intercalate_append_cons {α : Type} {sep x : List α} {xs ys : List (List α)} :
    sep.intercalate (xs ++ x :: ys)
      = xs.flatMap (· ++ sep) ++ (x ++ ys.flatMap (sep ++ ·)) := by
  induction xs
  case nil =>
    induction ys generalizing x
    case nil       => simp
    case cons y ys hi => simpa using hi
  case cons hi =>
    rw [List.cons_append, List.intercalate_cons_of_ne_nil (by simp), hi]
    simp

namespace Definition

theorem lexemes_separated (hs : Separates sep l) (h : ∀ d ∈ ds, Spelled d) :
    lexemes (ds.flatMap (fun d => d.text.toList ++ sep.toList) ++ rest)
      = ds.flatMap (fun d => d.spelling ++ [l]) ++ lexemes rest := by
  induction ds
  case nil => rfl
  case cons d ds hi =>
    have hds := hi fun d hm => h d (by simp [hm])
    have hd := h d (by simp)
      (sep.toList ++ (ds.flatMap (fun d => d.text.toList ++ sep.toList) ++ rest)) (.separator hs)
      (by simp [hs.head])
    rw [hs.lexemes, hds] at hd
    simpa using hd

-- What strays in one part strays in the whole, if all parts before are spelled as they should be.
theorem strays_intercalate (hs : Separates sep l) (h : ∀ d ∈ pre, Spelled d)
    (hx : Strays (x.text.toList ++ (post.flatMap (sep.toList ++ ·.text.toList) ++ rest))) :
    Strays (sep.toList.intercalate ((pre ++ x :: post).map (·.text.toList)) ++ rest) := by
  rw [List.map_append, List.map_cons, intercalate_append_cons, List.append_assoc, List.append_assoc,
    List.flatMap_map, List.flatMap_map]
  exact .of_eq (lexemes_separated hs h) hx

theorem boundary_separated (hs : Separates sep l) (hr : Boundary rest) :
    Boundary (post.flatMap (sep.toList ++ ·.text.toList) ++ rest) := by
  cases post
  case nil => exact hr
  case cons =>
    rw [List.flatMap_cons, List.append_assoc, List.append_assoc]
    exact .separator hs

theorem strays_targetChars (h : ∀ rest, Boundary rest → Strays (d.text.toList ++ rest))
    (hr : Boundary rest) : Strays (d.targetChars ++ rest) := by
  cases hs : d.isSimple
  case true => simpa [targetChars, hs] using h _ hr
  case false =>
    have hp : lexemes ('(' :: (d.text.toList ++ ')' :: rest))
        = [.openParen] ++ lexemes (d.text.toList ++ ')' :: rest) := lexemes_openParen
    simpa [targetChars, hs] using Strays.of_eq hp (h _ .closeParen)

theorem strays_clauses {pre post : List Clause} {c : Clause}
    (h : ∀ c ∈ pre, Quotable c.1 ∧ c.2.Spelled) (hq : Quotable c.1)
    (hc : Strays (c.2.targetChars ++ (post.flatMap clauseChars ++ rest))) :
    Strays ((pre ++ c :: post).flatMap clauseChars ++ rest) := by
  rw [List.flatMap_append, List.append_assoc, List.flatMap_cons, List.append_assoc]
  refine .of_eq (lexemes_clauses h boundary_clauseChars ?_) (.of_eq (lexemes_clauseChars hq) hc)
  intro _ _ _ _
  rw [head?_clauseChars]
  simp

-- The source of a transition is spelled as it should be if a clause follows it.
theorem strays_transition {pre post : List Clause} {c : Clause} (h : t.Named)
    (hs : Strays ((pre ++ c :: post).flatMap clauseChars ++ rest)) :
    Strays ((transition t (pre ++ c :: post)).text.toList ++ rest) := by
  have hb : Boundary ((pre ++ c :: post).flatMap clauseChars ++ rest) ∧
      ((pre ++ c :: post).flatMap clauseChars ++ rest).head? = some ' ' := by
    rw [List.flatMap_append, List.append_assoc, List.flatMap_cons, List.append_assoc]
    cases pre
    case nil  => exact ⟨boundary_clauseChars, head?_clauseChars⟩
    case cons =>
      rw [List.flatMap_cons, List.append_assoc]
      exact ⟨boundary_clauseChars, head?_clauseChars⟩
  rw [toList_text_transition, List.append_assoc]
  refine .of_eq (t.lexemes_text h hb.1 fun _ => ?_) hs
  rw [hb.2]
  simp

theorem getLast?_append_ne_nil {α : Type} {xs ys : List α} (h : ys ≠ []) :
    (xs ++ ys).getLast? = ys.getLast? := by
  have ⟨y, hy⟩ := List.getLast?_isSome.mpr h |> Option.isSome_iff_exists.mp
  rw [List.getLast?_append, hy]
  rfl

-- The last step of a sequence stands at the end, and no separator ends in a dash.
theorem endsInDash_of_sequence (h : (sequence ds).EndsInDash) :
    ∃ pre x, ds = pre ++ [x] ∧ x.EndsInDash := by
  rcases List.eq_nil_or_concat ds with rfl | ⟨pre, x, rfl⟩
  case inl => simp [EndsInDash, toList_text_sequence] at h
  case inr =>
    refine ⟨pre, x, by simp, ?_⟩
    rw [EndsInDash, toList_text_sequence, List.concat_eq_append, List.map_append,
      List.map_singleton, intercalate_append_cons] at h
    by_cases hx : x.text.toList = []
    case neg => simpa [getLast?_append_ne_nil, hx, EndsInDash] using h
    case pos =>
      rcases List.eq_nil_or_concat pre with rfl | ⟨pre, y, rfl⟩
      · simp [hx] at h
      · simp [hx, List.flatMap_append] at h

theorem not_endsInDash_split : ¬ (split ds).EndsInDash := by
  rw [EndsInDash, toList_text_split, List.getLast?_concat]
  decide

-- The text of a task ends as its name does.
theorem getLast?_name_of_text (h : t.Named) (hd : t.text.toList.getLast? = some '-') :
    t.name.toList.getLast? = some '-' := by
  have ⟨tl, he⟩ := exists_text_task t
  have ⟨c, cs, hc, _⟩ := isNameChar_of_isName h.name
  rwa [he, getLast?_append_ne_nil (by simp [hc])] at hd

theorem strays_task (h : t.Named) (hd : t.text.toList.getLast? = some '-') (hr : Boundary rest) :
    Strays (t.text.toList ++ '>' :: rest) := by
  have hs : Strays (t.name.toList ++ '>' :: rest) := by
    obtain ⟨ls, hls, _⟩ := exists_lexemes_dash h.name (getLast?_name_of_text h hd)
    exact .arrow hls hr
  exact .of_eq (t.lexemes_label h) hs

-- Only a target without parentheses can bring a dash to the end of a transition.
theorem endsInDash_of_transition {pre : List Clause} {c : Clause}
    (h : (transition t (pre ++ [c])).EndsInDash) : c.2.isSimple ∧ c.2.EndsInDash := by
  have hs : (t.text.toList ++ (pre ++ [c]).flatMap clauseChars).getLast? = some '-' := by
    rwa [← toList_text_transition]
  rw [List.flatMap_append, List.flatMap_singleton, clauseChars_eq, ← List.append_assoc] at hs
  cases hc : c.2.isSimple
  case false =>
    simp only [targetChars, hc, Bool.false_eq_true, if_false] at hs
    rw [← List.append_assoc, ← List.append_assoc, List.getLast?_concat] at hs
    cases hs
  case true =>
    refine ⟨rfl, ?_⟩
    simp only [targetChars, hc, if_true, ← List.append_assoc] at hs
    by_cases hx : c.2.text.toList = []
    case pos =>
      have hsp : " ".toList = [' '] := rfl
      rw [hx, List.append_nil, hsp, List.getLast?_concat] at hs
      cases hs
    case neg => rwa [getLast?_append_ne_nil hx] at hs

-- A dash at the end of a text is the end of a name, and the bracket behind it is lost.
theorem strays_of_endsInDash (hw : d.Writable) (hc : ¬ d.Clashes) (hd : d.EndsInDash)
    (hr : Boundary rest) : Strays (d.text.toList ++ '>' :: rest) := by
  induction d
  case task t =>
    rw [EndsInDash, text] at hd
    rw [text]
    exact strays_task (hw.named t (by simp)) hd hr
  case sequence ds hi =>
    obtain ⟨pre, x, he, hx⟩ := endsInDash_of_sequence hd
    have hm : x ∈ ds := by simp [he]
    rw [toList_text_sequence, he]
    refine strays_intercalate separates_ampersands (fun d hm => ?_) ?_
    · have hm : d ∈ ds := by simp [he, hm]
      exact spelled (hw.of_mem_sequence hm) (hc ∘ .sequence hm)
    · exact hi x hm (hw.of_mem_sequence hm) (hc ∘ .sequence hm) hx
  case split => exact absurd hd not_endsInDash_split
  case transition t cs hi =>
    rcases List.eq_nil_or_concat cs with rfl | ⟨pre, c, he⟩
    case inl =>
      rw [EndsInDash, toList_text_transition] at hd
      rw [toList_text_transition]
      simp only [List.flatMap_nil, List.append_nil] at hd ⊢
      exact strays_task (hw.named t (by simp)) hd hr
    case inr =>
      rw [List.concat_eq_append] at he
      subst he
      obtain ⟨hs, hx⟩ := endsInDash_of_transition hd
      have hm : c ∈ pre ++ [c] := by simp
      have hw' := hw.of_mem_transition hm
      refine strays_transition (hw.named t (by simp)) ?_
      refine strays_clauses (fun x hx => ?_) hw'.1 ?_
      · have hm : x ∈ pre ++ [c] := List.mem_append_left _ hx
        exact ⟨(hw.of_mem_transition hm).1,
          spelled (hw.of_mem_transition hm).2 (hc ∘ .transition hm)⟩
      · simpa [targetChars, hs] using hi c hm hw'.2 (hc ∘ .transition hm) hx

-- What clashes lies in the first part that clashes: the parts before it are spelled as they should
-- be, and what comes behind the stray arrow does not matter.
theorem strays (hw : d.Writable) (hc : d.Clashes) (hr : Boundary rest) :
    Strays (d.text.toList ++ rest) := by
  induction d generalizing rest
  case task t => cases hc
  case sequence ds hi =>
    have hx : ∃ x ∈ ds, x.Clashes := by
      cases hc
      case sequence x hx hm => exact ⟨x, hm, hx⟩
    have ⟨pre, x, post, he, hx, hpre⟩ := exists_first hx
    have hm : x ∈ ds := by simp [he]
    rw [toList_text_sequence, he]
    refine strays_intercalate separates_ampersands (fun d hm => ?_) ?_
    · exact spelled (hw.of_mem_sequence (by simp [he, hm])) (hpre d hm)
    · exact hi x hm (hw.of_mem_sequence hm) hx (boundary_separated separates_ampersands hr)
  case split ds hi =>
    have ho : ∀ cs, lexemes ('<' :: cs) = [.openAngle] ++ lexemes cs := fun _ => lexemes_openAngle
    rw [toList_text_split, List.cons_append, List.cons_append, List.append_assoc]
    refine .of_eq (ho _) ?_
    by_cases hx : ∃ x ∈ ds, x.Clashes
    case pos =>
      have ⟨pre, x, post, he, hx, hpre⟩ := exists_first hx
      have hm : x ∈ ds := by simp [he]
      rw [he]
      refine strays_intercalate separates_bars (fun d hm => ?_) ?_
      · exact spelled (hw.of_mem_split (by simp [he, hm])) (hpre d hm)
      · exact hi x hm (hw.of_mem_split hm) hx (boundary_separated separates_bars .closeAngle)
    case neg =>
      -- No branch clashes by itself, so the last one ends in a dash.
      have hn : ∀ x ∈ ds, ¬ x.Clashes := fun x hm hc => hx ⟨x, hm, hc⟩
      cases hc
      case split x hc hm => exact absurd hc (hn x hm)
      case last x hd hl =>
        have ⟨pre, he⟩ := List.getLast?_eq_some_iff.mp (Option.mem_def.mp hl)
        have hm : x ∈ ds := by simp [he]
        rw [he]
        refine strays_intercalate separates_bars (fun d hm => ?_) ?_
        · have hm : d ∈ ds := by simp [he, hm]
          exact spelled (hw.of_mem_split hm) (hn d hm)
        · exact strays_of_endsInDash (hw.of_mem_split hm) (hn x hm) hd hr
  case transition t cs hi =>
    have hx : ∃ c ∈ cs, c.2.Clashes := by
      cases hc
      case transition c hx hm => exact ⟨c, hm, hx⟩
    have ⟨pre, c, post, he, hx, hpre⟩ := exists_first hx
    have hm : c ∈ cs := by simp [he]
    have hw' := hw.of_mem_transition hm
    have hc : Strays (c.2.targetChars ++ (post.flatMap clauseChars ++ rest)) :=
      strays_targetChars (fun rest hr => hi c hm hw'.2 hx hr) (boundary_clauses hr)
    rw [he]
    refine strays_transition (hw.named t (by simp)) (strays_clauses (fun c hm => ?_) hw'.1 hc)
    have hm' : c ∈ cs := by simp [he, hm]
    exact ⟨(hw.of_mem_transition hm').1, spelled (hw.of_mem_transition hm').2 (hpre c hm)⟩

section Names

-- A dash at the end of a text belongs to a name.
theorem exists_mention_of_endsInDash (hw : d.Writable) (hd : d.EndsInDash) :
    ∃ t ∈ d.mentions, t.name.toList.getLast? = some '-' := by
  induction d
  case task t =>
    rw [EndsInDash, text] at hd
    exact ⟨t, by simp, getLast?_name_of_text (hw.named t (by simp)) hd⟩
  case sequence ds hi =>
    obtain ⟨pre, x, he, hx⟩ := endsInDash_of_sequence hd
    have hm : x ∈ ds := by simp [he]
    obtain ⟨t, ht, hn⟩ := hi x hm (hw.of_mem_sequence hm) hx
    exact ⟨t, by rw [mentions_sequence]; exact List.mem_flatMap_of_mem hm ht, hn⟩
  case split => exact absurd hd not_endsInDash_split
  case transition t cs hi =>
    rcases List.eq_nil_or_concat cs with rfl | ⟨pre, c, he⟩
    case inl =>
      rw [EndsInDash, toList_text_transition, List.flatMap_nil, List.append_nil] at hd
      exact ⟨t, by simp, getLast?_name_of_text (hw.named t (by simp)) hd⟩
    case inr =>
      rw [List.concat_eq_append] at he
      subst he
      obtain ⟨_, hx⟩ := endsInDash_of_transition hd
      have hm : c ∈ pre ++ [c] := by simp
      obtain ⟨t', ht, hn⟩ := hi c hm (hw.of_mem_transition hm).2 hx
      refine ⟨t', ?_, hn⟩
      rw [mentions_transition]
      exact List.mem_cons_of_mem _ (List.mem_flatMap_of_mem hm ht)

-- A clash goes back to a text that ends in a dash, and that one to a name.
theorem not_clashes (hw : d.Writable)
    (hn : ∀ t ∈ d.mentions, t.name.toList.getLast? ≠ some '-') : ¬ d.Clashes := by
  intro hc
  induction d <;> cases hc
  case sequence.sequence ds hi x hc hm =>
    refine hi x hm (hw.of_mem_sequence hm) (fun t ht => hn t ?_) hc
    rw [mentions_sequence]
    exact List.mem_flatMap_of_mem hm ht
  case split.split ds hi x hc hm =>
    refine hi x hm (hw.of_mem_split hm) (fun t ht => hn t ?_) hc
    rw [mentions_split]
    exact List.mem_flatMap_of_mem hm ht
  case split.last ds hi x hd hm =>
    have hm : x ∈ ds := List.mem_of_getLast? hm
    have ⟨t, ht, hl⟩ := exists_mention_of_endsInDash (hw.of_mem_split hm) hd
    refine hn t ?_ hl
    rw [mentions_split]
    exact List.mem_flatMap_of_mem hm ht
  case transition.transition t cs hi c hc hm =>
    refine hi c hm (hw.of_mem_transition hm).2 (fun t ht => hn t ?_) hc
    rw [mentions_transition]
    exact List.mem_cons_of_mem _ (List.mem_flatMap_of_mem hm ht)

end Names

end Definition

end TaskFlow
