import Mathlib
import TaskFlow.Proofs.Json.Words

namespace TaskFlow.Json

variable {s : Setting} {j : Json} {level : Nat} {gap : String} {cs : List Char}
  {frames : List Frame} {items : List Json} {fields : List (String × Json)}

section Settings

-- Whether a text does nothing but keep words apart.
def IsGap (gap : String) : Prop :=
  ∀ c ∈ gap.toList, c = ' ' ∨ c = '\n'

-- Whether there are only gaps between the words of a document, apart from commas and colons.
structure Setting.Spaced (s : Setting) : Prop where
  opening : ∀ level, IsGap (s.opening level)
  between : ∀ level, ∃ gap, IsGap gap ∧ s.between level = "," ++ gap
  closing : ∀ level, IsGap (s.closing level)
  colon : ∃ gap, IsGap gap ∧ s.colon = ":" ++ gap

theorem isGap_lineFeed : IsGap "\n" := by
  simp [IsGap]

theorem isGap_newline (level : Nat) : IsGap (newline level) := by
  simp +contextual [IsGap, newline]

theorem spaced_indented : indented.Spaced where
  opening level := isGap_newline (level + 1)
  between level := ⟨_, isGap_newline (level + 1), rfl⟩
  closing level := isGap_newline level
  colon := ⟨" ", by simp [IsGap], rfl⟩

theorem IsGap.isSpace (h : IsGap gap) : ∀ c ∈ gap.toList, isSpace c = true := by
  intro c hc
  obtain rfl | rfl := h c hc
  · rfl
  · rfl

theorem endsNumber_nil : EndsNumber [] :=
  nofun

theorem IsGap.endsNumber (h : IsGap gap) (hcs : EndsNumber cs) :
    EndsNumber (gap.toList ++ cs) := by
  unfold IsGap at h
  cases hg : gap.toList
  case nil => exact hcs
  case cons c g =>
    rintro _ ⟨⟩
    obtain rfl | rfl := h c (hg ▸ List.mem_cons_self)
    all_goals decide

end Settings

-- Documents of which a text tells everything: all numbers are whole, and the fields of an object
-- have different names.
inductive Faithful : Json → Prop
  | null : Faithful null
  | bool (b : Bool) : Faithful (bool b)
  | int (n : Int) : Faithful (int n)
  | string (t : String) : Faithful (string t)
  | array {items : List Json} : (∀ item ∈ items, Faithful item) → Faithful (array items)
  | object {fields : List (String × Json)} : (fields.map Prod.fst).Nodup →
    (∀ field ∈ fields, Faithful field.2) → Faithful (object fields)

section Reading

-- Whether the reader takes the text of a document as this document, in front of any other text.
def IsTaken (s : Setting) (j : Json) : Prop :=
  ∀ level frames cs, EndsNumber cs →
    (State.mk .value frames).takeAll ((j.text s level).toList ++ cs)
      = (State.mk (.follower j) frames).takeAll cs

theorem endsNumber_cons {c : Char} (hc : c.isDigit = false ∧ c ≠ '.' ∧ c ≠ 'e' ∧ c ≠ 'E') :
    EndsNumber (c :: cs) := by
  rintro _ ⟨⟩
  exact hc

theorem toList_array (item : Json) (items : List Json) :
    (text s level (array (item :: items))).toList
      = '[' :: ((s.opening level).toList ++ ((text s (level + 1) item).toList
        ++ ((itemsText s level items).toList ++ ((s.closing level).toList ++ [']'])))) := by
  simp [text]

theorem toList_items (hb : s.between level = "," ++ gap) (item : Json) (items : List Json) :
    (itemsText s level (item :: items)).toList = ',' :: (gap.toList
      ++ ((text s (level + 1) item).toList ++ (itemsText s level items).toList)) := by
  simp [itemsText, hb]

theorem toList_object (name : String) (value : Json) (fields : List (String × Json)) :
    (text s level (object ((name, value) :: fields))).toList
      = '\x7b' :: ((s.opening level).toList ++ ((stringText name).toList ++ (s.colon.toList
        ++ ((text s (level + 1) value).toList ++ ((fieldsText s level fields).toList
          ++ ((s.closing level).toList ++ ['\x7d'])))))) := by
  simp [text]

theorem toList_fields (hb : s.between level = "," ++ gap) (name : String) (value : Json)
    (fields : List (String × Json)) : (fieldsText s level ((name, value) :: fields)).toList
      = ',' :: (gap.toList ++ ((stringText name).toList ++ (s.colon.toList
        ++ ((text s (level + 1) value).toList ++ (fieldsText s level fields).toList)))) := by
  simp [fieldsText, hb]

theorem endsNumber_items (hs : s.Spaced) :
    EndsNumber ((itemsText s level items).toList ++ ((s.closing level).toList ++ ']' :: cs)) := by
  cases items
  case nil =>
    simpa [itemsText] using (hs.closing level).endsNumber (endsNumber_cons (by decide))
  case cons =>
    have ⟨gap, _, hb⟩ := hs.between level
    rw [toList_items hb]
    exact endsNumber_cons (by decide)

theorem endsNumber_fields (hs : s.Spaced) : EndsNumber
    ((fieldsText s level fields).toList ++ ((s.closing level).toList ++ '\x7d' :: cs)) := by
  cases fields
  case nil =>
    simpa [fieldsText] using (hs.closing level).endsNumber (endsNumber_cons (by decide))
  case cons =>
    have ⟨gap, _, hb⟩ := hs.between level
    rw [toList_fields hb]
    exact endsNumber_cons (by decide)

theorem takeAll_items (hs : s.Spaced) (hi : ∀ item ∈ items, IsTaken s item) (value : Json)
    (done : List Json) :
    (State.mk (.follower value) (.array done :: frames)).takeAll
        ((itemsText s level items).toList ++ ((s.closing level).toList ++ ']' :: cs))
      = (State.mk (.follower (.array ((value :: done).reverse ++ items))) frames).takeAll cs := by
  induction items generalizing value done
  case nil =>
    simp only [itemsText, String.toList_empty, List.nil_append, List.append_nil]
    rw [State.takeAll_gap (hs.closing level).isSpace, State.takeAll_closeBracket]
  case cons item items h =>
    rw [List.forall_mem_cons] at hi
    have ⟨gap, hg, hb⟩ := hs.between level
    rw [toList_items hb, List.cons_append, State.takeAll_comma_array, List.append_assoc,
      List.append_assoc, State.takeAll_gap hg.isSpace, hi.1 _ _ _ (endsNumber_items hs), h hi.2]
    simp

theorem notMem_of_nodup_append {α : Type} {x : α} {xs ys : List α} (h : (xs ++ x :: ys).Nodup) :
    x ∉ xs :=
  fun hx => List.disjoint_of_nodup_append h hx List.mem_cons_self

theorem put_of_notMem {name : String} (h : name ∉ fields.map Prod.fst) (value : Json) :
    put fields name value = fields ++ [(name, value)] := by
  induction fields
  case nil => rfl
  case cons field fields hi =>
    rw [List.map_cons, List.mem_cons, not_or] at h
    rw [put, beq_false_of_ne (Ne.symm h.1), if_neg Bool.false_ne_true, hi h.2, List.cons_append]

theorem takeAll_value (hs : s.Spaced) {name : String} :
    (State.mk (.colon fields name) frames).takeAll (s.colon.toList ++ cs)
      = (State.mk .value (.object fields name :: frames)).takeAll cs := by
  have ⟨gap, hg, hc⟩ := hs.colon
  rw [hc, String.toList_append, List.append_assoc]
  exact State.takeAll_colon.trans (State.takeAll_gap hg.isSpace)

-- By induction on the fields to come. All names differ, so no value takes the place of another one.
theorem takeAll_fields (hs : s.Spaced) (hi : ∀ field ∈ fields, IsTaken s field.2)
    {done : List (String × Json)} {name : String} (value : Json)
    (hn : (done.map Prod.fst ++ name :: fields.map Prod.fst).Nodup) :
    (State.mk (.follower value) (.object done name :: frames)).takeAll
        ((fieldsText s level fields).toList ++ ((s.closing level).toList ++ '\x7d' :: cs))
      = (State.mk (.follower (.object (done ++ (name, value) :: fields))) frames).takeAll cs := by
  have hname := notMem_of_nodup_append hn
  induction fields generalizing done name value
  case nil =>
    simp only [fieldsText, String.toList_empty, List.nil_append]
    rw [State.takeAll_gap (hs.closing level).isSpace, State.takeAll_closeBrace,
      put_of_notMem hname]
  case cons field fields h =>
    rw [List.forall_mem_cons] at hi
    have ⟨gap, hg, hb⟩ := hs.between level
    have hn' : ((done ++ [(name, value)]).map Prod.fst ++ field.1 :: fields.map Prod.fst).Nodup := by
      simpa using hn
    rw [toList_fields hb, List.cons_append, State.takeAll_comma_object]
    simp only [List.append_assoc]
    rw [State.takeAll_gap hg.isSpace, put_of_notMem hname, State.takeAll_name, takeAll_value hs,
      hi.1 _ _ _ (endsNumber_fields hs), h hi.2 _ hn' (notMem_of_nodup_append hn')]
    simp

-- No document begins with the end of an array.
theorem Faithful.exists_text (hj : Faithful j) (s : Setting) (level : Nat) :
    ∃ c cs, (j.text s level).toList = c :: cs ∧ isSpace c = false ∧ c ≠ ']' := by
  cases hj
  case null => exact ⟨'n', _, by rw [text]; rfl, by decide⟩
  case bool b => cases b <;> exact ⟨_, _, by rw [text]; rfl, by decide⟩
  case int n =>
    have ⟨c, cs, h, hsp, hm⟩ := exists_toString n
    exact ⟨c, cs, by rw [text, h], hsp, fun hb => hm (hb ▸ by decide)⟩
  case string t => exact ⟨'"', _, by rw [text, toList_stringText], by decide⟩
  case array items _ =>
    cases items
    case nil => exact ⟨'[', _, by rw [text]; rfl, by decide⟩
    case cons => exact ⟨'[', _, toList_array _ _, by decide⟩
  case object fields _ _ =>
    cases fields
    case nil => exact ⟨'\x7b', _, by rw [text]; rfl, by decide⟩
    case cons => exact ⟨'\x7b', _, toList_object _ _ _, by decide⟩

-- By induction on the value. An empty list ends at once, and otherwise the first item is taken, and
-- then the others with the separators in front of them.
theorem Faithful.isTaken (hs : s.Spaced) (hj : Faithful j) : IsTaken s j := by
  induction hj
  case null => exact fun _ _ _ _ => State.takeAll_null
  case bool b => exact fun _ _ _ _ => State.takeAll_bool b
  case int n => exact fun _ _ _ => State.takeAll_int n
  case string t => exact fun _ _ _ _ => State.takeAll_string t
  case array items hj hi =>
    intro level frames cs _
    cases items
    case nil =>
      rw [text]
      exact State.takeAll_openBracket.trans State.takeAll_emptyArray
    case cons item items =>
      rw [List.forall_mem_cons] at hj hi
      have ⟨c, ds, hc, hsp, hb⟩ := hj.1.exists_text s (level + 1)
      have ht := hi.1 (level + 1) (.array [] :: frames) _
        (@endsNumber_items s level cs items hs)
      rw [toList_array, List.cons_append, State.takeAll_openBracket]
      simp only [List.append_assoc, List.cons_append, List.nil_append]
      rw [State.takeAll_gap (hs.opening level).isSpace]
      rw [hc, List.cons_append] at ht ⊢
      rw [State.takeAll_firstElement hsp hb, ht, takeAll_items hs hi.2]
      rfl
  case object fields hn hj hi =>
    intro level frames cs _
    cases fields
    case nil =>
      rw [text]
      exact State.takeAll_openBrace.trans State.takeAll_emptyObject
    case cons field fields =>
      rw [List.forall_mem_cons] at hi
      rw [toList_object, List.cons_append, State.takeAll_openBrace]
      simp only [List.append_assoc, List.cons_append, List.nil_append]
      rw [State.takeAll_gap (hs.opening level).isSpace, State.takeAll_firstName, takeAll_value hs]
      refine (hi.1 _ _ _ (endsNumber_fields hs)).trans ?_
      exact takeAll_fields hs hi.2 _ hn

end Reading

section Ascii

def IsPrinted (c : Char) : Prop :=
  c = '\n' ∨ IsPlain c

def IsAscii (t : String) : Prop :=
  ∀ c ∈ t.toList, IsPrinted c

theorem IsGap.isAscii (h : IsGap gap) : IsAscii gap := by
  intro c hc
  obtain rfl | rfl := h c hc
  · exact .inr (by decide)
  · exact .inl rfl

theorem isAscii_of_forall {t : String} (h : ∀ c ∈ t.toList, IsPlain c) : IsAscii t :=
  fun c hc => .inr (h c hc)

@[simp] theorem isAscii_append {t u : String} : IsAscii (t ++ u) ↔ IsAscii t ∧ IsAscii u := by
  rw [IsAscii, String.toList_append, List.forall_mem_append]
  rfl

@[simp] theorem isAscii_stringText (t : String) : IsAscii (stringText t) :=
  isAscii_of_forall (isPlain_stringText t)

theorem isAscii_toString (n : Int) : IsAscii (toString n) := by
  refine isAscii_of_forall fun c hc => ?_
  obtain rfl | hc := mem_toString n c hc
  case inl => decide
  case inr =>
    have ⟨low, high⟩ : 0x30 ≤ c.toNat ∧ c.toNat ≤ 0x39 := by
      simpa [Char.isDigit, UInt32.le_iff_toNat_le] using hc
    exact ⟨by omega, by omega⟩

-- The words of a document other than strings and numbers.
@[simp] theorem isAscii_marks : IsAscii "" ∧ IsAscii "null" ∧ IsAscii "true" ∧ IsAscii "false" ∧
    IsAscii "[" ∧ IsAscii "]" ∧ IsAscii "[]" ∧ IsAscii "\x7b" ∧ IsAscii "\x7d" ∧
      IsAscii "\x7b\x7d" ∧ IsAscii "," ∧ IsAscii ":" := by
  refine ⟨?_, ?_, ?_, ?_, ?_, ?_, ?_, ?_, ?_, ?_, ?_, ?_⟩
  all_goals exact isAscii_of_forall (by simp [IsPlain])

variable (hs : s.Spaced)

include hs

theorem isAscii_between : IsAscii (s.between level) := by
  have ⟨gap, hg, hb⟩ := hs.between level
  simp [hb, hg.isAscii]

theorem isAscii_colon : IsAscii s.colon := by
  have ⟨gap, hg, hc⟩ := hs.colon
  simp [hc, hg.isAscii]

theorem isAscii_items (hi : ∀ item ∈ items, ∀ level, IsAscii (item.text s level)) :
    IsAscii (itemsText s level items) := by
  induction items
  case nil => simp [itemsText]
  case cons item items h =>
    rw [List.forall_mem_cons] at hi
    simp [itemsText, isAscii_between hs, hi.1 _, h hi.2]

theorem isAscii_fields (hi : ∀ field ∈ fields, ∀ level, IsAscii (field.2.text s level)) :
    IsAscii (fieldsText s level fields) := by
  induction fields
  case nil => simp [fieldsText]
  case cons field fields h =>
    rw [List.forall_mem_cons] at hi
    simp [fieldsText, isAscii_between hs, isAscii_colon hs, hi.1 _, h hi.2]

theorem Faithful.isAscii (hj : Faithful j) (level : Nat) : IsAscii (j.text s level) := by
  induction hj generalizing level
  case null => simp [text]
  case bool b => cases b <;> simp [text]
  case int n =>
    rw [text]
    exact isAscii_toString n
  case string t => simp [text]
  case array items _ hi =>
    cases items
    case nil => simp [text]
    case cons item items =>
      rw [List.forall_mem_cons] at hi
      simp [text, (hs.opening _).isAscii, (hs.closing _).isAscii, hi.1 _, isAscii_items hs hi.2]
  case object fields _ _ hi =>
    cases fields
    case nil => simp [text]
    case cons field fields =>
      rw [List.forall_mem_cons] at hi
      simp [text, (hs.opening _).isAscii, (hs.closing _).isAscii, isAscii_colon hs, hi.1 _,
        isAscii_fields hs hi.2]

end Ascii

theorem read_text (hs : s.Spaced) (hj : Faithful j) (hg : IsGap gap) :
    read (j.text s 0 ++ gap) = .ok j := by
  have hb : (j.text s 0 ++ gap).toList.head? ≠ some '\ufeff' := by
    have ⟨c, cs, hc, _⟩ := hj.exists_text s 0
    have hp := hj.isAscii hs 0 c (hc ▸ List.mem_cons_self)
    rw [String.toList_append, hc]
    rintro ⟨⟩
    revert hp
    unfold IsPrinted
    decide
  have he : EndsNumber gap.toList := by
    simpa using hg.endsNumber (endsNumber_nil)
  have hr := (hj.isTaken hs 0 [] gap.toList he).trans (State.takeAll_end hg.isSpace)
  rw [read, if_neg hb, String.toList_append]
  change (State.takeAll _ _).bind _ = _
  rw [hr]
  rfl

end TaskFlow.Json
