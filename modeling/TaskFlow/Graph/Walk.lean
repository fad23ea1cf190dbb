import TaskFlow.Definition
import TaskFlow.Graph.Fault
import TaskFlow.Graph.PostDominator

namespace TaskFlow

open RenderFault

def Node.task (n : Node) : TaskMention :=
  { name := n.name.getD "", label := n.label }

namespace Graph

-- A graph with what the walk has to know about it: its end, the immediate post-dominators of its
-- nodes, and how deeply its text may nest.
structure Terrain where
  graph : Graph
  finish : String
  joins : List (String × String)
  limit : Int

namespace Terrain

def postDominator (m : Terrain) (id : String) : String :=
  (m.joins.lookup id).getD m.finish

-- Where the branches of a split that begins at a node end. A fork ends at its own join, also when
-- it has a single branch, whose first node post-dominates the fork.
def branchesEnd (m : Terrain) (n : Node) : String :=
  let join := m.postDominator n.id
  if n.type = .fork then
    (matchingJoin? m.graph.type? 0 (chain m.joins m.graph.ids n.id)).getD join
  else join

end Terrain

-- A task with a single conditional link, which waits for its target.
structure Lead where
  node : Node
  condition : String

-- A stretch of the walk: where it closes, its parts so far and the leads that wait for the next
-- part, both latest first.
structure Region where
  stop : String
  parts : List Definition := []
  leads : List Lead := []

namespace Region

-- Makes a part the target of the leads, innermost first, and adds it.
def add (r : Region) (part : Definition) : Region where
  stop := r.stop
  parts := r.leads.foldl
    (fun part lead => .transition lead.node.task [(some lead.condition, part)]) part :: r.parts

def definition (r : Region) : Definition :=
  .inOrder r.parts.reverse

end Region

-- A node where control fans out and whose branches are being walked: those that are done, latest
-- first, the condition of the one that is being walked, and those that are still to come.
structure FanOut where
  node : Node
  conditional : Bool
  join : String
  outer : Region
  done : List Clause := []
  condition : Option String := none
  todo : List (Option String × String)

namespace FanOut

def close (f : FanOut) (d : Definition) : FanOut :=
  { f with done := (f.condition, d) :: f.done }

def definition (f : FanOut) : Definition :=
  if f.conditional then .transition f.node.task f.done.reverse
  else .split (f.done.reverse.map (·.2))

end FanOut

-- Where the walk stands: the regions that are still open, from the inside out, and the node that
-- comes next.
structure Position where
  fans : List FanOut
  region : Region
  here : String

-- Begins the next branch of a fan-out, or goes on behind it if there is none.
def next (m : Terrain) (f : FanOut) (fans : List FanOut) : Except RenderFault Position :=
  match f.todo with
  | [] => .ok ⟨fans, f.outer.add f.definition, f.join⟩
  | (condition, target) :: todo =>
    if target = f.join then
      .error ⟨condition.elim .emptyBranch .straightToJoin, some f.node.id⟩
    else if 2 * m.limit < (fans.length + 1 : Nat) then
      .error ⟨.regionsTooDeep m.limit, some target⟩
    else .ok ⟨{ f with condition, todo } :: fans, { stop := f.join }, target⟩

-- The clauses of a task: specific patterns first, in the order of the links, then the wildcard.
def orderedClauses (links : List Link) : List (Option String × String) :=
  let specific := links.filter (·.condition != some wildcard)
  let catchAll := links.filter (·.condition == some wildcard)
  (specific ++ catchAll).map fun l => (l.condition, l.target)

-- Makes a task wait for its target, which lies behind its only link.
def lead (m : Terrain) (p : Position) (n : Node) (condition target : String) :
    Except RenderFault Position :=
  if target = p.region.stop then .error ⟨.noTarget condition, some n.id⟩
  else
    let leads := ⟨n, condition⟩ :: p.region.leads
    if m.limit + 1 < leads.length then .error ⟨.transitionsTooDeep m.limit, some n.id⟩
    else .ok { p with region := { p.region with leads }, here := target }

def pass (m : Terrain) (p : Position) (n : Node) (links : List Link) :
    Except RenderFault Position :=
  let region := if n.type = .task then p.region.add (.task n.task) else p.region
  match links, n.type with
  | [l], .start | [l], .finish | [l], .task | [l], .join =>
    .ok { p with region, here := l.target }
  | _, _ =>
    next m
      { node := n, conditional := false, join := m.branchesEnd n, outer := region,
        todo := links.map fun l => (none, l.target) }
      p.fans

-- The walk visits every node at most once. Where control fans out it opens a region for each
-- branch, which closes where the branches come together again; a task with a single conditional
-- link takes the next element as its target and the walk goes on.
def visit (m : Terrain) (p : Position) (n : Node) : Except RenderFault Position :=
  match m.graph.outgoing n.id with
  | [⟨_, target, some condition⟩] => lead m p n condition target
  | links =>
    if links.any (·.hasCondition) then
      next m
        { node := n, conditional := true, join := m.postDominator n.id, outer := p.region,
          todo := orderedClauses links }
        p.fans
    else pass m p n links

def closeRegion (m : Terrain) (p : Position) (f : FanOut) (fans : List FanOut) :
    Except RenderFault Position :=
  match p.region.leads with
  | lead :: _ => .error ⟨.unfinishedTransition, some lead.node.id⟩
  | [] => next m (f.close p.region.definition) fans

-- How many branches are still to be begun or left.
def openBranches (fans : List FanOut) : Nat :=
  fans.foldr (fun f n => f.todo.length + 1 + n) 0

theorem openBranches_lt_of_next {m : Terrain} {f : FanOut} {fans : List FanOut} {p : Position}
    (h : next m f fans = .ok p) : openBranches p.fans < openBranches (f :: fans) := by
  unfold next at h
  split at h
  · cases h
    simp [openBranches]
  · split at h
    · cases h
    · split at h
      · cases h
      · cases h
        simp_all [openBranches]

theorem openBranches_lt_of_closeRegion {m : Terrain} {p p' : Position} {f : FanOut}
    {fans : List FanOut} (h : closeRegion m p f fans = .ok p') :
    openBranches p'.fans < openBranches (f :: fans) := by
  unfold closeRegion at h
  split at h
  · cases h
  · simpa [openBranches, FanOut.close] using openBranches_lt_of_next h

-- Walks on until the outermost region closes. Gives its parts and the nodes that were not visited.
-- `left` holds the nodes that may still be visited.
def walk (m : Terrain) (p : Position) (left : List Node) :
    Except RenderFault (Definition × List Node) :=
  if p.here = p.region.stop then
    match _hf : p.fans with
    | [] =>
      match p.region.leads with
      | lead :: _ => .error ⟨.unfinishedTransition, some lead.node.id⟩
      | [] => .ok (p.region.definition, left)
    | f :: fans =>
      match _h : closeRegion m p f fans with
      | .error fault => .error fault
      | .ok p' => walk m p' left
  else
    match _h : left.find? (·.id == p.here) with
    | none => .error ⟨.revisited, some p.here⟩
    | some n =>
      if n.type = .finish then .error ⟨.endsInside, some p.here⟩
      else
        match visit m p n with
        | .error fault => .error fault
        | .ok p' => walk m p' (left.erase n)
termination_by (left.length, openBranches p.fans)
decreasing_by
  · rw [_hf]
    exact Prod.Lex.right _ (openBranches_lt_of_closeRegion _h)
  · have hn := List.mem_of_find?_eq_some _h
    rw [List.length_erase_of_mem hn]
    exact Prod.Lex.left _ _ (Nat.sub_lt (List.length_pos_of_mem hn) Nat.one_pos)

end Graph

end TaskFlow
