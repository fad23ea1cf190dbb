namespace TaskFlow.Text

-- What stands before the caret in its line, given the text before the position.
def lineBefore (before : List Char) : List Char :=
  (before.reverse.takeWhile (· != '\n')).reverse

-- What stands after the caret in its line, given the text from the position on.
def lineAfter (after : List Char) : List Char :=
  after.takeWhile (· != '\n')

def clampOffset (length : Nat) (offset : Int) : Nat :=
  min offset.toNat length

-- The line that contains `offset`, with a caret underneath it. An offset outside the text counts as
-- the nearest end.
def caret (text : String) (offset : Int) : String :=
  let position := clampOffset text.length offset
  let before := lineBefore (text.toList.take position)
  let after := lineAfter (text.toList.drop position)
  String.ofList (before ++ after ++ '\n' :: List.replicate before.length ' ' ++ ['^'])

theorem not_mem_lineAfter (after : List Char) : '\n' ∉ lineAfter after := by
  intro h
  have := List.all_eq_true.1 (List.all_takeWhile (p := (· != '\n')) (l := after)) _ h
  simp at this

theorem not_mem_lineBefore (before : List Char) : '\n' ∉ lineBefore before :=
  fun h => not_mem_lineAfter before.reverse (List.mem_reverse.1 h)

end TaskFlow.Text
