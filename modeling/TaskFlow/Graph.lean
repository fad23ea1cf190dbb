namespace TaskFlow

-- What a node is for. `fork` and `join` bracket the branches of a split.
inductive NodeType
  | start
  | finish
  | task
  | fork
  | join
deriving DecidableEq, Repr

structure Node where
  id : String
  type : NodeType
  name : Option String := none
  properties : List (String × String) := []
deriving DecidableEq, Repr

-- A link from one node to another. A link with a condition is followed on the exit statuses that
-- the condition selects.
structure Link where
  source : String
  target : String
  condition : Option String := none
deriving DecidableEq, Repr

structure Graph where
  nodes : List Node := []
  links : List Link := []
deriving DecidableEq, Repr

namespace NodeType

def name : NodeType → String
  | start => "START"
  | finish => "END"
  | task => "TASK"
  | fork => "FORK"
  | join => "JOIN"

def all : List NodeType := [start, finish, task, fork, join]

def ofName? (name : String) : Option NodeType :=
  all.find? (·.name == name)

theorem ofName?_name (t : NodeType) : ofName? t.name = some t := by
  cases t <;> decide

end NodeType

namespace Node

def label (n : Node) : Option String :=
  n.properties.lookup "label"

end Node

namespace Link

def hasCondition (l : Link) : Bool :=
  l.condition.isSome

end Link

namespace Graph

def node? (g : Graph) (id : String) : Option Node :=
  g.nodes.find? (·.id == id)

def type? (g : Graph) (id : String) : Option NodeType :=
  (g.node? id).map (·.type)

def nodesWith (g : Graph) (type : NodeType) : List Node :=
  g.nodes.filter (·.type == type)

def outgoing (g : Graph) (id : String) : List Link :=
  g.links.filter (·.source == id)

def incoming (g : Graph) (id : String) : List Link :=
  g.links.filter (·.target == id)

def ids (g : Graph) : List String :=
  g.nodes.map (·.id)

theorem mem_outgoing {g : Graph} {id : String} {l : Link} :
    l ∈ g.outgoing id ↔ l ∈ g.links ∧ l.source = id := by
  simp [outgoing]

theorem mem_incoming {g : Graph} {id : String} {l : Link} :
    l ∈ g.incoming id ↔ l ∈ g.links ∧ l.target = id := by
  simp [incoming]

end Graph

end TaskFlow
