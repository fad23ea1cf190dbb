namespace TaskFlow

-- A node takes its name as id if no earlier node has, and otherwise the name with the least free
-- number behind it. For some names the pool knows which number to try first.
structure IdPool where
  taken : List String := []
  hints : List (String × Nat) := []

namespace IdPool

def numbered (base : String) (n : Nat) : String :=
  base ++ "#" ++ toString n

-- The first number from `n` on that gives a free id. A taken id is left out of account once it was
-- met, so the search ends.
def firstFree (base : String) (taken : List String) (n : Nat) : Nat :=
  if numbered base n ∈ taken then firstFree base (taken.erase (numbered base n)) (n + 1) else n
termination_by taken.length
decreasing_by
  rename_i h
  rw [List.length_erase_of_mem h]
  exact Nat.sub_lt (List.length_pos_of_mem h) Nat.one_pos

def allocate (p : IdPool) (base : String) : String × IdPool :=
  if base ∈ p.taken then
    let n := firstFree base p.taken ((p.hints.lookup base).getD 2)
    let id := numbered base n
    (id, ⟨id :: p.taken, (base, n + 1) :: p.hints⟩)
  else (base, { p with taken := base :: p.taken })

def allocateAll (p : IdPool) : List String → List String × IdPool
  | [] => ([], p)
  | base :: bases =>
    let (id, p) := p.allocate base
    let (ids, p) := p.allocateAll bases
    (id :: ids, p)

end IdPool

end TaskFlow
