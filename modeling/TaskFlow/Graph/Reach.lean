import TaskFlow.Graph

namespace TaskFlow

-- Depth-first search. Visits, in order, what can be reached from the places of `work` by way of
-- places that are still `left`; every place is visited once.
def explore [DecidableEq α] (next : α → List α) (left : List α) : (work : List α) → List α
  | [] => []
  | here :: work =>
    if here ∈ left then here :: explore next (left.erase here) (next here ++ work)
    else explore next left work
termination_by work => (left.length, work.length)
decreasing_by
  · rename_i h
    rw [List.length_erase_of_mem h]
    exact Prod.Lex.left _ _ (Nat.sub_lt (List.length_pos_of_mem h) Nat.one_pos)
  · exact Prod.Lex.right _ (Nat.lt_succ_self _)

namespace Graph

-- One for each link.
def successors (g : Graph) (id : String) : List String :=
  (g.outgoing id).map (·.target)

def predecessors (g : Graph) (id : String) : List String :=
  (g.incoming id).map (·.source)

def reachableFrom (g : Graph) (id : String) : List String :=
  explore g.successors g.ids [id]

def leadingTo (g : Graph) (id : String) : List String :=
  explore g.predecessors g.ids [id]

end Graph

end TaskFlow
