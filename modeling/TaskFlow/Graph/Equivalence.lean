import TaskFlow.Graph.Projection
import TaskFlow.Graph.Reach

namespace TaskFlow

-- Whether some one-to-one pairing of all of `as` with all of `bs` extends `done`, `fits` by its
-- pairs and agrees on every two of them.
def canPair [DecidableEq β] (fits : α → β → Bool) (agree : α × β → α × β → Bool) :
    List α → List β → (done : List (α × β)) → Bool
  | [], bs, _ => bs.isEmpty
  | a :: as, bs, done =>
    bs.any fun b =>
      fits a b && agree (a, b) (a, b) && done.all (agree (a, b))
        && canPair fits agree as (bs.erase b) ((a, b) :: done)

-- Whether two bundles have the same size and the same conditions. How often a condition occurs in a
-- bundle does not matter.
def sameBundle (xs ys : List (Option String)) : Bool :=
  xs.length == ys.length && xs.all ys.contains && ys.all xs.contains

namespace Graph

abbrev Coloring := List (Vertex × Nat)

def colorOf (c : Coloring) (id : String) : Nat :=
  ((c.find? (·.1.id == id)).map (·.2)).getD 0

-- A vertex's colour, and the colours at the other ends of its outgoing and of its incoming edges.
def signature (g : Graph) (c : Coloring) (v : Vertex) : Nat × List Nat × List Nat :=
  (colorOf c v.id, ((g.outgoing v.id).map fun l => colorOf c l.target).mergeSort,
    ((g.incoming v.id).map fun l => colorOf c l.source).mergeSort)

-- Colours for the vertices of two graphs: equal ones where `mark` and `mark'` are equal.
def colorBy [BEq α] (vs vs' : List Vertex) (mark mark' : Vertex → α) : Coloring × Coloring :=
  let marks := vs.map mark
  let marks' := vs'.map mark'
  let all := marks ++ marks'
  (vs.zip (marks.map all.idxOf), vs'.zip (marks'.map all.idxOf))

-- Colours after several rounds, in each of which vertices with different signatures part.
def refine (g g' : Graph) (vs vs' : List Vertex) : (rounds : Nat) → Coloring × Coloring
  | 0 => colorBy vs vs' (·.attributes) (·.attributes)
  | rounds + 1 =>
    let (c, c') := refine g g' vs vs' rounds
    colorBy vs vs' (g.signature c) (g'.signature c')

-- The vertices, arranged so that each one follows a neighbour where it has any.
def arranged (g : Graph) (c : Coloring) : Coloring :=
  let neighbours := fun id => (g.outgoing id).map (·.target) ++ (g.incoming id).map (·.source)
  let ids := c.map (·.1.id)
  (explore neighbours ids ids).filterMap fun id => c.find? (·.1.id == id)

def rounds : Nat := 8

-- The vertices of equivalent graphs can be paired so that paired vertices agree in type, name and
-- label, and so do the bundles of edges between them. Pairings are searched for vertex by vertex.
-- Colours that no pairing can change narrow the search down beforehand.
def equivalent (g g' : Graph) : Bool :=
  let (c, c') := refine g g' g.vertices g'.vertices rounds
  (c.map (·.2)).isPerm (c'.map (·.2))
    && canPair
      (fun v w => v.2 == w.2)
      (fun (v, w) (v', w') =>
        sameBundle (g.bundle v.1.id v'.1.id) (g'.bundle w.1.id w'.1.id)
          && sameBundle (g.bundle v'.1.id v.1.id) (g'.bundle w'.1.id w.1.id))
      (g.arranged c) c' []

end Graph

end TaskFlow
