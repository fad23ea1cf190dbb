namespace TaskFlow.Text

-- The first and the last code point of an interval; both belong to it.
abbrev CodeRange := Nat × Nat

def CodeRange.covers (r : CodeRange) (c : Char) : Bool :=
  r.1 ≤ c.toNat && c.toNat ≤ r.2

theorem CodeRange.covers_iff {r : CodeRange} {c : Char} :
    r.covers c = true ↔ r.1 ≤ c.toNat ∧ c.toNat ≤ r.2 := by
  simp [covers]

end TaskFlow.Text
