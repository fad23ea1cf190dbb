import TaskFlow.Definition
import TaskFlow.Graph
import TaskFlow.Graph.IdPool

namespace TaskFlow

inductive LayoutFault
  | emptySequence
  | emptyId
deriving DecidableEq, Repr

def LayoutFault.message : LayoutFault → String
  | .emptySequence => "a sequence has no steps"
  | .emptyId => "a node has an empty id"

-- The part of a graph that stands for a part of a definition. Control enters it at one node, and
-- leaves it at any of its exits.
structure Subgraph where
  entry : String
  exits : List String
  nodes : List Node
  links : List Link

namespace Subgraph

def ofNode (n : Node) : Subgraph :=
  ⟨n.id, [n.id], [n], []⟩

def exitsTo (f : Subgraph) (target : String) : List Link :=
  f.exits.map fun exit => { source := exit, target }

def followedBy (f g : Subgraph) : Subgraph :=
  ⟨f.entry, g.exits, f.nodes ++ g.nodes, f.links ++ g.links ++ f.exitsTo g.entry⟩

def sideBySide (fork join : Node) (branches : List Subgraph) : Subgraph where
  entry := fork.id
  exits := [join.id]
  nodes := fork :: branches.flatMap (·.nodes) ++ [join]
  links := branches.flatMap (·.links)
    ++ branches.flatMap fun b => { source := fork.id, target := b.entry } :: b.exitsTo join.id

def select (source : Node) (clauses : List (Option String × Subgraph)) : Subgraph where
  entry := source.id
  exits := clauses.flatMap (·.2.exits)
  nodes := source :: clauses.flatMap (·.2.nodes)
  links := clauses.flatMap fun (pattern, f) =>
    f.links ++ [{ source := source.id, target := f.entry, condition := pattern }]

def anchored (f : Subgraph) (start finish : Node) : Graph where
  nodes := start :: finish :: f.nodes
  links := f.links ++ { source := start.id, target := f.entry } :: f.exitsTo finish.id

end Subgraph

namespace IdPool

def newNode (p : IdPool) (base : String) (type : NodeType) (name : Option String := none)
    (properties : List (String × String) := []) : Except LayoutFault (Node × IdPool) :=
  let (id, p) := p.allocate base
  if id.isEmpty then .error .emptyId else .ok (⟨id, type, name, properties⟩, p)

-- A new node for a task. An empty label counts as none.
def newTask (p : IdPool) (t : TaskMention) : Except LayoutFault (Node × IdPool) :=
  let label := t.label.filter fun label => !label.isEmpty
  p.newNode t.name .task (some t.name) (label.elim [] fun label => [("label", label)])

end IdPool

namespace Definition

mutual

-- The subgraph of a definition, and the pool without the ids it took. Nodes are created from left
-- to right and from the outside in, so that a definition always gives the same ids.
def layOut (p : IdPool) : Definition → Except LayoutFault (Subgraph × IdPool)
  | task t => do
    let (node, p) ← p.newTask t
    pure (.ofNode node, p)
  | sequence [] => throw .emptySequence
  | sequence (d :: ds) => do
    let (f, p) ← layOut p d
    layOutSteps p f ds
  | split branches => do
    let (fork, p) ← p.newNode "FORK" .fork
    let (parts, p) ← layOutBranches p branches
    let (join, p) ← p.newNode "JOIN" .join
    pure (.sideBySide fork join parts, p)
  | transition source clauses => do
    let (node, p) ← p.newTask source
    let (parts, p) ← layOutClauses p clauses
    pure (.select node parts, p)

def layOutSteps (p : IdPool) (f : Subgraph) :
    List Definition → Except LayoutFault (Subgraph × IdPool)
  | [] => pure (f, p)
  | d :: ds => do
    let (g, p) ← layOut p d
    layOutSteps p (f.followedBy g) ds

def layOutBranches (p : IdPool) : List Definition → Except LayoutFault (List Subgraph × IdPool)
  | [] => pure ([], p)
  | d :: ds => do
    let (f, p) ← layOut p d
    let (fs, p) ← layOutBranches p ds
    pure (f :: fs, p)

def layOutClauses (p : IdPool) : List (Option String × Definition) →
    Except LayoutFault (List (Option String × Subgraph) × IdPool)
  | [] => pure ([], p)
  | (pattern, d) :: ds => do
    let (f, p) ← layOut p d
    let (fs, p) ← layOutClauses p ds
    pure ((pattern, f) :: fs, p)

end

def toGraph (d : Definition) : Except LayoutFault Graph := do
  let (start, p) ← IdPool.newNode { } "START" .start
  let (finish, p) ← p.newNode "END" .finish
  let (f, _) ← d.layOut p
  pure (f.anchored start finish)

end Definition

end TaskFlow
