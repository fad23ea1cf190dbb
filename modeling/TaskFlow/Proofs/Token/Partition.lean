import TaskFlow.Proofs.Token.Boundaries

namespace TaskFlow

open Lexeme

variable {c : Char} {cs pre post rest rest' : List Char} {l l' : Lexeme} {pos i : Nat} {t t' : Token}
  {ts ts₁ ts' : List Token}

namespace Lexeme

-- Whether the terminal of a lexeme matches its text where `rest` stands behind. The terminal of an
-- identifier also matches a part of one.
def Matches (rest : List Char) : Lexeme → Prop
  | identifier name =>
    name ≠ "" ∧ ∀ pre c post, name.toList = pre ++ c :: post → isNameChar c (post ++ rest)
  | quoted body => ∀ c ∈ body.toList, isQuotable c
  | invalid _ | endOfInput => False
  | _ => True

-- Whether a lexeme may stand where `rest` stands behind. An identifier goes on as long as it can,
-- and an invalid character is no gap and begins nothing that a terminal matches.
def Stands (rest : List Char) (l : Lexeme) : Prop :=
  match l with
  | identifier _ => l.Matches rest ∧ ∀ c tl, rest = c :: tl → isNameChar c tl = false
  | invalid c =>
    isGap c = false ∧ ∀ (l : Lexeme) rest', c :: rest = l.text.toList ++ rest' → ¬ l.Matches rest'
  | endOfInput => rest = []
  | _ => l.Matches rest

theorem Stands.matches (h : l.Stands rest) (hl : l.isLast = false) : l.Matches rest := by
  cases l
  case identifier => exact h.1
  case invalid | endOfInput => cases hl
  all_goals exact h

section NameRun

theorem isNameChar_of_nameRun (h : (nameRun cs).1 = pre ++ c :: post) :
    isNameChar c (post ++ (nameRun cs).2) := by
  induction cs generalizing pre
  case nil => simp [nameRun] at h
  case cons d cs hi =>
    rw [nameRun] at h ⊢
    split at h
    case isFalse => simp at h
    case isTrue hd =>
      rw [if_pos hd]
      cases pre
      case nil =>
        obtain ⟨rfl, rfl⟩ := List.cons.inj h
        rwa [nameRun_append]
      case cons => exact hi (List.cons.inj h).2

theorem not_isNameChar_of_nameRun (h : (nameRun cs).2 = c :: rest) : isNameChar c rest = false := by
  induction cs
  case nil => simp [nameRun] at h
  case cons d cs hi =>
    rw [nameRun] at h
    split at h
    case isTrue => exact hi h
    case isFalse hd =>
      obtain ⟨rfl, rfl⟩ := List.cons.inj h
      simpa using hd

theorem nameRun_eq (h : ∀ pre c post, cs = pre ++ c :: post → isNameChar c (post ++ rest))
    (hr : ∀ c tl, rest = c :: tl → isNameChar c tl = false) :
    nameRun (cs ++ rest) = (cs, rest) := by
  induction cs
  case nil =>
    cases rest
    case nil => rfl
    case cons c tl => simp [nameRun, hr c tl rfl]
  case cons c cs hi =>
    have hcs := hi fun pre d post he => h (c :: pre) d post (by rw [he]; rfl)
    simp [nameRun, h [] c cs rfl, hcs]

end NameRun

theorem stands_quoted {body : String} (h : body.toList.all isQuotable) :
    (quoted body).Stands rest :=
  List.all_eq_true.mp h

theorem stands_of_first? (h : first? c cs = some (l, rest)) : l.Stands rest := by
  unfold first? at h
  split at h
  case isTrue hc =>
    cases h
    refine ⟨⟨by simp, fun pre d post he => ?_⟩, fun d tl => not_isNameChar_of_nameRun⟩
    rw [String.toList_ofList] at he
    cases pre
    case nil =>
      obtain ⟨rfl, rfl⟩ := List.cons.inj he
      rwa [nameRun_append]
    case cons => exact isNameChar_of_nameRun (List.cons.inj he).2
  case isFalse =>
    split at h
    case isTrue =>
      split at h <;> cases h
      exact stands_quoted (by simp)
    case isFalse =>
      split at h <;> cases h
      all_goals exact (trivial : True)

theorem first?_of_stands (he : c :: cs = l.text.toList ++ rest) (h : l.Stands rest)
    (hl : l.isLast = false) : first? c cs = some (l, rest) := by
  cases l
  case identifier name =>
    obtain ⟨⟨hne, hn⟩, hr⟩ := h
    obtain ⟨d, ds, hs⟩ := List.exists_cons_of_ne_nil (mt String.toList_eq_nil_iff.mp hne)
    rw [text, hs, List.cons_append] at he
    obtain ⟨rfl, rfl⟩ := List.cons.inj he
    have hc : isNameChar c (ds ++ rest) := hn [] _ ds hs
    -- Each character of the name is one with regard to what stands behind it.
    have hds : ∀ pre d post, ds = pre ++ d :: post → isNameChar d (post ++ rest) :=
      fun pre d post he => hn (c :: pre) d post (by rw [hs, he]; rfl)
    simp only [first?, hc, if_true, nameRun_eq hds hr, ← hs, String.ofList_toList]
  case quoted body =>
    have hq : body.toList.all isQuotable := List.all_eq_true.mpr h
    have he : c :: cs = '\'' :: (body.toList ++ '\'' :: rest) := by simpa [text] using he
    obtain ⟨rfl, rfl⟩ := List.cons.inj he
    exact first?_quoted hq
  case invalid | endOfInput => cases hl
  all_goals
    simp [text] at he
    obtain ⟨rfl, rfl⟩ := he
    exact first?_eq_symbol? (by simp [isNameChar, isWord_of_lt]) rfl

theorem first?_eq_some_iff : first? c cs = some (l, rest) ↔
    c :: cs = l.text.toList ++ rest ∧ l.Stands rest ∧ l.isLast = false :=
  ⟨fun h => ⟨eq_append_of_first? h, stands_of_first? h, isLast_of_first? h⟩,
    fun ⟨he, h, hl⟩ => first?_of_stands he h hl⟩

-- A part of an identifier begins an identifier; whatever else a terminal matches stands there.
theorem first?_eq_none_iff : first? c cs = none ↔
    ∀ (l : Lexeme) rest, c :: cs = l.text.toList ++ rest → ¬ l.Matches rest := by
  constructor
  case mp =>
    intro hf l rest he h
    have hs : ¬ (l.Stands rest ∧ l.isLast = false) := fun ⟨hs, hl⟩ => by
      simp [first?_of_stands he hs hl] at hf
    cases l
    case identifier name =>
      obtain ⟨d, ds, hn⟩ := List.exists_cons_of_ne_nil (mt String.toList_eq_nil_iff.mp h.1)
      rw [text, hn, List.cons_append] at he
      obtain ⟨rfl, rfl⟩ := List.cons.inj he
      simp [first?, show isNameChar c (ds ++ rest) from h.2 [] _ ds hn] at hf
    case invalid | endOfInput => exact h
    all_goals exact hs ⟨h, rfl⟩
  case mpr =>
    intro h
    rw [Option.eq_none_iff_forall_ne_some]
    rintro ⟨l, rest⟩ hf
    obtain ⟨he, hs, hl⟩ := first?_eq_some_iff.mp hf
    exact h l rest he (hs.matches hl)

theorem isBlank_of_isGap (h : isGap c) : Text.isBlank c := by
  simp only [isGap, Bool.or_eq_true, beq_iff_eq] at h
  rcases h with (((rfl | rfl) | rfl) | rfl) | rfl <;> decide

theorem not_isGap_of_first? (h : first? c cs = some (l, rest)) : isGap c = false := by
  rw [← Bool.not_eq_true]
  intro hg
  simp [first?_of_isBlank (isBlank_of_isGap hg)] at h

theorem Matches.text_ne_nil (h : l.Matches rest) : l.text.toList ≠ [] := by
  cases l
  case identifier => exact mt String.toList_eq_nil_iff.mp h.1
  case invalid | endOfInput => exact h.elim
  all_goals simp [text]

-- What stands somewhere is what is found there, unless nothing is.
theorem Stands.cases (h : l.Stands rest) : l = endOfInput ∧ rest = [] ∨
    ∃ c cs, l.text.toList ++ rest = c :: cs ∧ isGap c = false ∧
      (first? c cs = some (l, rest) ∨ first? c cs = none ∧ l = invalid c) := by
  cases hl : l.isLast
  case false =>
    obtain ⟨c, cs, he⟩ := List.exists_cons_of_ne_nil
      (List.append_ne_nil_of_left_ne_nil (h.matches hl).text_ne_nil rest)
    have hf := first?_of_stands he.symm h hl
    exact .inr ⟨c, cs, he, not_isGap_of_first? hf, .inl hf⟩
  case true =>
    cases l <;> cases hl
    case endOfInput => exact .inl ⟨rfl, h⟩
    case invalid c =>
      exact .inr ⟨c, rest, by simp [text], h.1, .inr ⟨first?_eq_none_iff.mpr h.2, rfl⟩⟩

theorem Stands.unique (h : l.Stands rest) (h' : l'.Stands rest')
    (he : l.text.toList ++ rest = l'.text.toList ++ rest') : l = l' := by
  obtain ⟨rfl, rfl⟩ | ⟨c, cs, hc, _, hf⟩ := h.cases
  all_goals
    obtain ⟨rfl, rfl⟩ | ⟨c', cs', hc', _, hf'⟩ := h'.cases
  case inl.inl => rfl
  case inl.inr => cases he.trans hc'
  case inr.inl => cases he.symm.trans hc
  case inr.inr =>
    obtain ⟨rfl, rfl⟩ := List.cons.inj (hc.symm.trans (he.trans hc'))
    obtain hf | ⟨hf, rfl⟩ := hf <;> obtain hf' | ⟨hf', rfl⟩ := hf' <;> rw [hf] at hf' <;> cases hf'
    all_goals rfl

end Lexeme

namespace Token

-- Whether tokens partition characters: one behind the other, each stands where its text is, and
-- only gaps stand around them, up to the end of the input or to the first invalid character.
structure Partitions (cs : List Char) (ts : List Token) : Prop where
  ordered : ts.Pairwise fun t t' => t.start < t'.start ∧ t.stop ≤ t'.start
  placed : ∀ t ∈ ts, ∃ pre rest, cs = pre ++ (t.lexeme.text.toList ++ rest) ∧
    t.start = pre.length ∧ t.lexeme.Stands rest
  gaps : ∀ i c, cs[i]? = some c → (∃ t ∈ ts, i < t.start) →
    (∀ t ∈ ts, i < t.start ∨ t.stop ≤ i) → isGap c
  last : ∃ ts' t, ts = ts' ++ [t] ∧ t.lexeme.isLast ∧ ∀ t ∈ ts', t.lexeme.isLast = false

section Scan

-- By induction on the scan: a gap or a lexeme more in front moves all later lexemes.
theorem placed_of_mem_scanFrom (h : t ∈ scanFrom pos cs) :
    ∃ pre rest, cs = pre ++ (t.lexeme.text.toList ++ rest) ∧ t.start = pos + pre.length ∧
      t.lexeme.Stands rest := by
  fun_induction scanFrom pos cs
  case case1 pos =>
    obtain rfl := List.mem_singleton.mp h
    exact ⟨[], [], rfl, rfl, rfl⟩
  case case2 pos c cs hg hi =>
    obtain ⟨pre, rest, rfl, hs, hst⟩ := hi h
    exact ⟨c :: pre, rest, rfl, by rw [hs, List.length_cons]; omega, hst⟩
  case case3 pos c cs hg hf =>
    obtain rfl := List.mem_singleton.mp h
    exact ⟨[], cs, by simp [text], rfl, by simpa using hg, first?_eq_none_iff.mp hf⟩
  case case4 pos c cs hg l rest hf hi =>
    obtain rfl | h := List.mem_cons.mp h
    case inl => exact ⟨[], rest, eq_append_of_first? hf, rfl, stands_of_first? hf⟩
    case inr =>
      obtain ⟨pre, rest, rfl, hs, hst⟩ := hi h
      refine ⟨l.text.toList ++ pre, rest, ?_, ?_, hst⟩
      · rw [eq_append_of_first? hf, List.append_assoc]
      · rw [hs, List.length_append, String.length_toList]
        omega

theorem ordered_scanFrom :
    (scanFrom pos cs).Pairwise fun t t' => t.start < t'.start ∧ t.stop ≤ t'.start := by
  fun_induction scanFrom pos cs
  case case1 | case3 => exact List.pairwise_singleton ..
  case case2 hi => exact hi
  case case4 pos c cs hg l rest hf hi =>
    refine List.pairwise_cons.mpr ⟨fun t ht => ?_, hi⟩
    obtain ⟨pre, _, _, hs, _⟩ := placed_of_mem_scanFrom ht
    have hl := List.length_pos_iff.mpr (text_ne_empty_of_first? hf)
    rw [String.length_toList] at hl
    simp only [stop]
    omega

theorem isGap_of_scanFrom (hc : cs[i]? = some c) (h : ∃ t ∈ scanFrom pos cs, pos + i < t.start)
    (hn : ∀ t ∈ scanFrom pos cs, pos + i < t.start ∨ t.stop ≤ pos + i) : isGap c := by
  fun_induction scanFrom pos cs generalizing i
  case case1 => cases hc
  case case2 pos d cs hg hi =>
    cases i
    case zero =>
      cases hc
      exact hg
    case succ i =>
      have he : pos + (i + 1) = pos + 1 + i := by omega
      rw [he] at h hn
      exact hi hc h hn
  case case3 =>
    obtain ⟨t, ht, h⟩ := h
    obtain rfl := List.mem_singleton.mp ht
    simp at h
  case case4 pos d cs hg l rest hf hi =>
    -- The character stands behind the first token, or the first token would begin behind it.
    rw [List.forall_mem_cons] at hn
    have hs : l.text.length ≤ i := by
      have := hn.1
      simp only [stop] at this
      omega
    obtain ⟨j, rfl⟩ := Nat.exists_eq_add_of_le hs
    rw [eq_append_of_first? hf, ← String.length_toList, List.getElem?_append_right (by omega),
      Nat.add_sub_cancel_left] at hc
    rw [← Nat.add_assoc] at h hn
    obtain ⟨t, ht, h⟩ := h
    obtain rfl | ht := List.mem_cons.mp ht
    case inl => exact absurd h (by dsimp only; omega)
    case inr => exact hi hc ⟨t, ht, h⟩ hn.2

theorem exists_scan_eq (text : String) :
    ∃ ts t, scan text = ts ++ [t] ∧ t.lexeme.isLast ∧ ∀ t ∈ ts, t.lexeme.isLast = false := by
  have ⟨ls, l, he, hl, hls⟩ := exists_lexemes_eq text.toList
  have he : (scan text).map (·.lexeme) = ls ++ [l] := he
  obtain ⟨ts, ts', hts, rfl, ht'⟩ := List.map_eq_append_iff.mp he
  obtain ⟨t, rfl, rfl⟩ := List.map_eq_singleton_iff.mp ht'
  exact ⟨ts, t, hts, hl, fun t ht => hls _ (List.mem_map_of_mem ht)⟩

theorem partitions_scan (text : String) : Partitions text.toList (scan text) where
  ordered := ordered_scanFrom
  placed t ht := by simpa using placed_of_mem_scanFrom ht
  gaps i c hc h hn := by
    rw [← Nat.zero_add i] at h hn
    exact isGap_of_scanFrom hc h hn
  last := exists_scan_eq text

end Scan

namespace Partitions

-- What stands before another token does not end the stream.
theorem isLast_eq_false (h : Partitions cs (ts ++ t :: ts')) (ht : t' ∈ ts) :
    t'.lexeme.isLast = false := by
  obtain ⟨ts₁, t₁, he, _, hn⟩ := h.last
  have he := congrArg List.dropLast he
  rw [List.dropLast_append_of_ne_nil (by simp), List.dropLast_concat] at he
  exact hn t' (he ▸ List.mem_append_left _ ht)

theorem eq_nil (h : Partitions cs ts) (h' : Partitions cs (ts ++ ts')) : ts' = [] := by
  obtain ⟨ts₁, t, rfl, ht, _⟩ := h.last
  cases ts'
  case nil => rfl
  case cons =>
    have hm : t ∈ ts₁ ++ [t] := by simp
    cases ht.symm.trans (h'.isLast_eq_false hm)

-- A token cannot begin earlier than where the other stream, which agrees before, has its next one,
-- since the characters in front of that one are gaps.
theorem start_le (h : Partitions cs (ts₁ ++ t :: ts)) (h' : Partitions cs (ts₁ ++ t' :: ts')) :
    t'.start ≤ t.start := by
  by_contra hlt
  rw [Nat.not_le] at hlt
  obtain ⟨pre, rest, he, hs, hst⟩ := h.placed t (by simp)
  obtain ⟨hl, rfl⟩ | ⟨c, tl, hc, hg, _⟩ := hst.cases
  case inl =>
    obtain ⟨pre', rest', he', hs', _⟩ := h'.placed t' (by simp)
    have hlen := congrArg List.length (he.symm.trans he')
    simp [hl, text] at hlen
    omega
  case inr =>
    have hi : cs[t.start]? = some c := by rw [he, hc, hs]; simp
    have hts := List.pairwise_append.mp h.ordered
    have hts' := List.pairwise_cons.mp (List.pairwise_append.mp h'.ordered).2.1
    have hn : ∀ x ∈ ts₁ ++ t' :: ts', t.start < x.start ∨ x.stop ≤ t.start := by
      intro x hx
      rcases List.mem_append.mp hx with hx | hx
      case inl => exact .inr (hts.2.2 x hx t (by simp)).2
      case inr =>
        rcases List.mem_cons.mp hx with rfl | hx
        case inl => exact .inl hlt
        case inr => exact .inl (Nat.lt_trans hlt (hts'.1 x hx).1)
    have := h'.gaps _ _ hi ⟨t', by simp, hlt⟩ hn
    rw [hg] at this
    cases this

theorem head_unique (h : Partitions cs (ts₁ ++ t :: ts)) (h' : Partitions cs (ts₁ ++ t' :: ts')) :
    t = t' := by
  obtain ⟨pre, rest, he, hs, hst⟩ := h.placed t (by simp)
  obtain ⟨pre', rest', he', hs', hst'⟩ := h'.placed t' (by simp)
  have hstart := Nat.le_antisymm (start_le h' h) (start_le h h')
  have hl := hst.unique hst' (List.append_inj (he.symm.trans he') (by omega)).2
  obtain ⟨_, _⟩ := t
  obtain ⟨_, _⟩ := t'
  cases hl
  cases hstart
  rfl

-- By induction on the first stream, behind the tokens that both have.
theorem unique_from (h : Partitions cs (ts₁ ++ ts)) (h' : Partitions cs (ts₁ ++ ts')) :
    ts = ts' := by
  induction ts generalizing ts₁ ts'
  case nil =>
    rw [List.append_nil] at h
    exact (h.eq_nil h').symm
  case cons t ts hi =>
    cases ts'
    case nil =>
      rw [List.append_nil] at h'
      exact h'.eq_nil h
    case cons t' ts' =>
      obtain rfl := h.head_unique h'
      rw [List.append_cons] at h h'
      rw [hi h h']

theorem unique (h : Partitions cs ts) (h' : Partitions cs ts') : ts = ts' :=
  unique_from (show Partitions cs ([] ++ ts) from h) h'

end Partitions

-- The tokens of a text are the only ones that partition it.
theorem partitions_iff {text : String} : Partitions text.toList ts ↔ ts = scan text := by
  constructor
  case mp => exact fun h => h.unique (partitions_scan text)
  case mpr =>
    rintro rfl
    exact partitions_scan text

end Token

end TaskFlow
