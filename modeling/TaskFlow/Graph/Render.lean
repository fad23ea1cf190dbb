import TaskFlow.Definition.Text
import TaskFlow.Graph.Walk
import TaskFlow.Graph.WellFormed

namespace TaskFlow.Graph

open RenderFault

def toDefinition (g : Graph) (limit : Int) : Except RenderFault Definition := do
  let (start, finish) ← g.anchors
  let terrain : Terrain := ⟨g, finish.id, g.postDominators finish.id, limit⟩
  let (d, left) ← walk terrain ⟨[], { stop := finish.id }, start.id⟩ g.nodes
  stopOn ((left.find? (·.type != .finish)).map fun n => ⟨.unvisited, some n.id⟩)
  let depth := bracketDepth d.text
  stopOn (if limit < depth then some ⟨.textTooDeep depth limit, none⟩ else none)
  pure d

def render (g : Graph) (limit : Int) : Except RenderFault String :=
  (g.toDefinition limit).map (·.text)

end TaskFlow.Graph
