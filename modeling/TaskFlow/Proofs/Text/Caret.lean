import Mathlib
import TaskFlow.Text.Caret

namespace TaskFlow.Text

structure Mark where
  before : List Char
  line : List Char
  after : List Char
  column : Nat

namespace Mark

-- Whether a mark stands in a text where an offset points to, or at the nearest end if the offset
-- lies outside.
structure At (m : Mark) (text : String) (offset : Int) : Prop where
  parts : text.toList = m.before ++ m.line ++ m.after
  before : ∀ c ∈ m.before.getLast?, c = '\n'
  line : '\n' ∉ m.line
  after : ∀ c ∈ m.after.head?, c = '\n'
  column : m.column ≤ m.line.length
  position : (m.before.length + m.column : Int) = max 0 (min offset text.length)

def drawing (m : Mark) : String :=
  String.ofList (m.line ++ '\n' :: List.replicate m.column ' ' ++ ['^'])

end Mark

variable {cs pre rest : List Char} {text : String}

theorem head?_dropWhile_newline : ∀ c ∈ (cs.dropWhile (· != '\n')).head?, c = '\n' := by
  intro c hc
  have := List.head?_dropWhile_not (· != '\n') cs
  rw [hc] at this
  simpa using this

theorem lineBefore_eq (cs : List Char) :
    ∃ before, cs = before ++ lineBefore cs ∧ ∀ c ∈ before.getLast?, c = '\n' := by
  refine ⟨(cs.reverse.dropWhile (· != '\n')).reverse, ?_, ?_⟩
  · rw [lineBefore, ← List.reverse_append, List.takeWhile_append_dropWhile, List.reverse_reverse]
  · rw [List.getLast?_reverse]
    exact head?_dropWhile_newline

theorem lineAfter_eq (cs : List Char) :
    ∃ after, cs = lineAfter cs ++ after ∧ ∀ c ∈ after.head?, c = '\n' :=
  ⟨_, List.takeWhile_append_dropWhile.symm, head?_dropWhile_newline⟩

theorem clampOffset_eq (length : Nat) (offset : Int) :
    (clampOffset length offset : Int) = max 0 (min offset length) := by
  rw [clampOffset]
  omega

theorem exists_mark (text : String) (offset : Int) :
    ∃ m : Mark, m.At text offset ∧ caret text offset = m.drawing := by
  let position := clampOffset text.length offset
  have hp : position ≤ text.toList.length := by
    rw [String.length_toList]
    exact Nat.min_le_right ..
  obtain ⟨before, hb, hbn⟩ := lineBefore_eq (text.toList.take position)
  obtain ⟨after, ha, han⟩ := lineAfter_eq (text.toList.drop position)
  have hl := congrArg List.length hb
  rw [List.length_take_of_le hp, List.length_append] at hl
  -- The line with the position is what stands around it up to the line ends.
  let m : Mark :=
    { before, after
      line := lineBefore (text.toList.take position) ++ lineAfter (text.toList.drop position)
      column := (lineBefore (text.toList.take position)).length }
  refine ⟨m, ⟨?parts, hbn, ?line, han, ?column, ?position⟩, ?drawing⟩
  case parts =>
    calc text.toList
      _ = text.toList.take position ++ text.toList.drop position := (List.take_append_drop ..).symm
      _ = (before ++ lineBefore _) ++ (lineAfter _ ++ after) := by rw [← hb, ← ha]
      _ = m.before ++ m.line ++ m.after := by simp [m]
  case line =>
    rw [List.mem_append, not_or]
    exact ⟨not_mem_lineBefore _, not_mem_lineAfter _⟩
  case column => simp [m]
  case position =>
    rw [← clampOffset_eq]
    exact_mod_cast hl.symm
  case drawing => simp [caret, Mark.drawing, m, position]

-- A line ends at its line end only.
theorem isPrefix_of_append {xs ys after : List Char} (h : xs ++ rest = ys ++ after) (hx : '\n' ∉ xs)
    (ha : ∀ c ∈ after.head?, c = '\n') : xs <+: ys := by
  obtain ⟨zs, rfl, _⟩ | ⟨zs, rfl, rfl⟩ := List.append_eq_append_iff.mp h
  case inl => exact List.prefix_append xs zs
  case inr =>
    cases zs
    case nil => simp
    case cons z zs =>
      obtain rfl := ha z rfl
      simp at hx

namespace Mark

variable {m : Mark}

theorem At.isPrefix {xs : List Char} (h : m.At text pre.length) (ht : text.toList = pre ++ (xs ++ rest))
    (hx : '\n' ∉ xs) : xs <+: m.line.drop m.column := by
  have hl : pre.length ≤ text.length := by
    rw [← String.length_toList, ht]
    simp
  have hp : pre.length = m.before.length + m.column := by
    have := h.position
    omega
  have he : pre ++ (xs ++ rest)
      = (m.before ++ m.line.take m.column) ++ (m.line.drop m.column ++ m.after) := by
    rw [← ht, h.parts, List.append_assoc, List.append_assoc, ← List.append_assoc (m.line.take _),
      List.take_append_drop]
  have hlen : pre.length = (m.before ++ m.line.take m.column).length := by
    rw [List.length_append, List.length_take_of_le h.column, hp]
  exact isPrefix_of_append (List.append_inj he hlen).2 hx h.after

end Mark

end TaskFlow.Text
