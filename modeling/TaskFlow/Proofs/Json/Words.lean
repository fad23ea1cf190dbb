import Mathlib
import TaskFlow.Json.Reader
import TaskFlow.Proofs.Json.Escapes
import TaskFlow.Proofs.Json.Numbers

namespace TaskFlow.Json

namespace State

variable {s : State} {w : Word} {c : Char} {cs rest gap : List Char} {frames : List Frame}
  {value : Json} {items : List Json} {fields : List (String × Json)} {name : String}

def takeAll (s : State) (cs : List Char) : Except Fault State :=
  (words cs).foldlM step s

theorem exists_words (hc : isSpace c = false) :
    ∃ ps, words (c :: cs) = ⟨(word c cs).1, c :: cs⟩ :: ps := by
  rw [words]
  simp only [hc, Bool.false_eq_true, if_false]
  split
  case isTrue => exact ⟨[], rfl⟩
  case isFalse => exact ⟨_, rfl⟩

theorem takeAll_space (h : isSpace c = true) : s.takeAll (c :: cs) = s.takeAll cs := by
  rw [takeAll, words, if_pos h, takeAll]

theorem takeAll_gap (h : ∀ c ∈ gap, isSpace c = true) : s.takeAll (gap ++ cs) = s.takeAll cs := by
  induction gap
  case nil => rfl
  case cons c gap hi =>
    rw [List.forall_mem_cons] at h
    rw [List.cons_append, takeAll_space h.1, hi h.2]

theorem takeAll_word (hc : isSpace c = false) (hw : word c cs = (w, rest))
    (hl : w.isLast = false) :
    s.takeAll (c :: cs) = (s.step ⟨w, c :: cs⟩).bind (·.takeAll rest) := by
  rw [takeAll, words]
  simp only [hc, hw, hl, Bool.false_eq_true, if_false, List.foldlM_cons]
  rfl

theorem takeAll_end (h : ∀ c ∈ gap, isSpace c = true) :
    (mk (.follower value) []).takeAll gap = .ok ⟨.nothing value, []⟩ := by
  have hg : (mk (.follower value) []).takeAll (gap ++ []) = _ := takeAll_gap h
  rw [List.append_nil] at hg
  rw [hg, takeAll, words]
  rfl

section Scalars

theorem word_of_scalar? (hc : c ∉ marks) (h : scalar? (c :: cs) = some (value, rest)) :
    word c cs = (.scalar value, rest) := by
  simp only [marks, List.mem_cons, not_or] at hc
  unfold word
  split
  case h_8 => rw [h]
  all_goals simp at hc

theorem takeAll_scalar (hs : isSpace c = false) (hc : c ∉ marks)
    (h : scalar? (c :: cs) = some (value, rest)) :
    (mk .value frames).takeAll (c :: cs) = (mk (.follower value) frames).takeAll rest :=
  takeAll_word hs (word_of_scalar? hc h) rfl

theorem takeAll_null : (mk .value frames).takeAll ("null".toList ++ cs)
    = (mk (.follower null) frames).takeAll cs :=
  takeAll_scalar rfl (by decide) rfl

theorem takeAll_bool (b : Bool) :
    (mk .value frames).takeAll ((if b then "true" else "false").toList ++ cs)
      = (mk (.follower (bool b)) frames).takeAll cs := by
  cases b
  case false => exact takeAll_scalar rfl (by decide) rfl
  case true => exact takeAll_scalar rfl (by decide) rfl

theorem takeAll_int (i : Int) (hr : EndsNumber cs) :
    (mk .value frames).takeAll ((toString i).toList ++ cs)
      = (mk (.follower (int i)) frames).takeAll cs := by
  have ⟨c, ds, h, hs, hc⟩ := exists_toString i
  have hv := scalar?_toString i hr
  rw [h] at hv ⊢
  exact takeAll_scalar hs hc hv

end Scalars

section Strings

theorem takeAll_stringText (t : String) : s.takeAll ((stringText t).toList ++ cs)
    = (s.step ⟨.string t, (stringText t).toList ++ cs⟩).bind (·.takeAll cs) := by
  rw [toList_stringText, List.cons_append, List.append_assoc]
  exact takeAll_word rfl (word_stringText t cs) rfl

theorem takeAll_string (t : String) : (mk .value frames).takeAll ((stringText t).toList ++ cs)
    = (mk (.follower (string t)) frames).takeAll cs :=
  takeAll_stringText t

theorem takeAll_name (t : String) :
    (mk (.name fields) frames).takeAll ((stringText t).toList ++ cs)
      = (mk (.colon fields t) frames).takeAll cs :=
  takeAll_stringText t

theorem takeAll_firstName (t : String) :
    (mk .firstName frames).takeAll ((stringText t).toList ++ cs)
      = (mk (.colon [] t) frames).takeAll cs :=
  takeAll_stringText t

end Strings

section Containers

theorem takeAll_openBracket :
    (mk .value frames).takeAll ('[' :: cs) = (mk .firstElement frames).takeAll cs :=
  takeAll_word rfl rfl rfl

theorem takeAll_openBrace :
    (mk .value frames).takeAll ('\x7b' :: cs) = (mk .firstName frames).takeAll cs :=
  takeAll_word rfl rfl rfl

theorem takeAll_colon : (mk (.colon fields name) frames).takeAll (':' :: cs)
    = (mk .value (.object fields name :: frames)).takeAll cs :=
  takeAll_word rfl rfl rfl

theorem takeAll_emptyArray :
    (mk .firstElement frames).takeAll (']' :: cs) = (mk (.follower (array [])) frames).takeAll cs :=
  takeAll_word rfl rfl rfl

theorem takeAll_emptyObject : (mk .firstName frames).takeAll ('\x7d' :: cs)
    = (mk (.follower (object [])) frames).takeAll cs :=
  takeAll_word rfl rfl rfl

theorem takeAll_comma_array : (mk (.follower value) (.array items :: frames)).takeAll (',' :: cs)
    = (mk .value (.array (value :: items) :: frames)).takeAll cs :=
  takeAll_word rfl rfl rfl

theorem takeAll_closeBracket : (mk (.follower value) (.array items :: frames)).takeAll (']' :: cs)
    = (mk (.follower (array (value :: items).reverse)) frames).takeAll cs :=
  takeAll_word rfl rfl rfl

theorem takeAll_comma_object :
    (mk (.follower value) (.object fields name :: frames)).takeAll (',' :: cs)
      = (mk (.name (put fields name value)) frames).takeAll cs :=
  takeAll_word rfl rfl rfl

theorem takeAll_closeBrace :
    (mk (.follower value) (.object fields name :: frames)).takeAll ('\x7d' :: cs)
      = (mk (.follower (object (put fields name value))) frames).takeAll cs :=
  takeAll_word rfl rfl rfl

theorem word_ne_closeBracket (hc : c ≠ ']') : (word c cs).1 ≠ .closeBracket := by
  unfold word
  split
  case h_4 => exact absurd rfl hc
  case h_7 => split <;> nofun
  case h_8 => split <;> nofun
  all_goals nofun

-- An array whose end does not follow right away is in front of its first element.
theorem takeAll_firstElement (hs : isSpace c = false) (hc : c ≠ ']') :
    (mk .firstElement frames).takeAll (c :: cs)
      = (mk .value (.array [] :: frames)).takeAll (c :: cs) := by
  have hstep : step ⟨.firstElement, frames⟩ ⟨(word c cs).1, c :: cs⟩
      = step ⟨.value, .array [] :: frames⟩ ⟨(word c cs).1, c :: cs⟩ := by
    cases h : (word c cs).1
    case closeBracket => exact absurd h (word_ne_closeBracket hc)
    all_goals rfl
  have ⟨ps, hps⟩ := @exists_words c cs hs
  rw [takeAll, takeAll, hps, List.foldlM_cons, hstep, List.foldlM_cons]

end Containers

end State

end TaskFlow.Json
