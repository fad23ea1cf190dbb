import TaskFlow.Graph

namespace TaskFlow

structure Attributes where
  type : NodeType
  name : Option String
  label : Option String
deriving DecidableEq, Repr

def Node.attributes (n : Node) : Attributes :=
  ⟨n.type, n.name, n.label⟩

structure Vertex where
  id : String
  attributes : Option Attributes
deriving DecidableEq, Repr

-- An edge, numbered among those between the same vertices.
structure Edge where
  source : String
  target : String
  key : Nat
  condition : Option String
deriving DecidableEq, Repr

namespace Graph

-- Nodes with one id become one vertex. A vertex that is there already takes over what is known of
-- the node.
def putNode (n : Node) : List Vertex → List Vertex
  | [] => [⟨n.id, some n.attributes⟩]
  | v :: vs => if v.id = n.id then ⟨n.id, some n.attributes⟩ :: vs else v :: putNode n vs

-- An end of a link that is no node becomes a vertex of which nothing is known.
def addEnd (vs : List Vertex) (id : String) : List Vertex :=
  if vs.any (·.id == id) then vs else vs ++ [⟨id, none⟩]

-- The vertices, in the order in which nodes and links first mention them.
def vertices (g : Graph) : List Vertex :=
  (g.links.flatMap fun l => [l.source, l.target]).foldl addEnd
    (g.nodes.foldl (fun vs n => putNode n vs) [])

def bundle (g : Graph) (source target : String) : List (Option String) :=
  (g.links.filter fun l => l.source = source && l.target = target).map (·.condition)

-- The edges: by their sources in the order of the vertices, then by their targets in the order in
-- which links from the source first lead to them.
def edges (g : Graph) : List Edge :=
  g.vertices.flatMap fun v =>
    ((g.outgoing v.id).map (·.target)).eraseDups.flatMap fun target =>
      (g.bundle v.id target).zipIdx.map fun (condition, key) => ⟨v.id, target, key, condition⟩

end Graph

end TaskFlow
