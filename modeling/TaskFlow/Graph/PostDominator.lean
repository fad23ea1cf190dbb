import TaskFlow.Graph.Reach

namespace TaskFlow.Graph

-- Whether every way from `id` to `finish` passes `via`.
def passes (g : Graph) (finish id via : String) : Bool :=
  !(explore g.successors (g.ids.erase via) [id]).contains finish

-- The nodes behind `id` that can be reached along each of its links, as a depth-first search along
-- the first link meets them.
def meetingPoints (g : Graph) (id : String) : List String :=
  match (g.successors id).map g.reachableFrom with
  | [] => []
  | first :: others => first.filter fun via => via != id && others.all (·.contains via)

-- The first meeting point behind `id` that every way from `id` to `finish` passes. A depth-first
-- search meets such points in the order in which they lie on the ways, so the first one is the
-- nearest: it is there that all branches that leave `id` have come together again.
def immediatePostDominator (g : Graph) (finish id : String) : String :=
  ((g.meetingPoints id).find? (g.passes finish id)).getD finish

def postDominators (g : Graph) (finish : String) : List (String × String) :=
  (g.ids.filter (· != finish)).map fun id => (id, g.immediatePostDominator finish id)

-- The nodes that one comes to from `id` by going on from a node to its immediate post-dominator.
def chain (joins : List (String × String)) (left : List String) (id : String) : List String :=
  match joins.lookup id with
  | none => []
  | some join => if join ∈ left then join :: chain joins (left.erase join) join else []
termination_by left.length
decreasing_by
  rename_i h
  rw [List.length_erase_of_mem h]
  exact Nat.sub_lt (List.length_pos_of_mem h) Nat.one_pos

-- The join that matches a fork which lies `depth` forks further out than the nodes to come.
def matchingJoin? (type : String → Option NodeType) (depth : Nat) : List String → Option String
  | [] => none
  | id :: ids =>
    match type id with
    | some .fork => matchingJoin? type (depth + 1) ids
    | some .join =>
      match depth with
      | 0 => some id
      | depth + 1 => matchingJoin? type depth ids
    | _ => matchingJoin? type depth ids

end TaskFlow.Graph
