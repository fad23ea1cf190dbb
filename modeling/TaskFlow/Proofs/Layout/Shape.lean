import TaskFlow.Proofs.Graph.Acyclic
import TaskFlow.Proofs.Render.Limits

namespace TaskFlow

open TaskFlow.Graph Subgraph Definition

variable {d a : Definition} {limit : Int} {text x : String} {f f' : Subgraph} {fs : List Subgraph}
  {g : Graph} {fork join n : Node} {cs : List (Option String × Subgraph)}

namespace Subgraph

section Forward

-- Control passes from one part to the next, so the links that tie parts together lead forward too.
theorem forward_followedBy (hf : f.Closed) (hf' : f'.Closed) (h : Forward f.ids f.links)
    (h' : Forward f'.ids f'.links) : Forward (f.followedBy f').ids (f.followedBy f').links := by
  rw [ids_followedBy]
  apply Forward.append
  case h =>
    exact (h.widen (List.sublist_append_left ..)).append (h'.widen (List.sublist_append_right ..))
  case h' => exact List.forall_mem_map.mpr fun e he => pair_sublist_append (hf.exits e he) hf'.entry

theorem sublist_flatMap {α β : Type} {h : α → List β} {xs : List α} {x : α} (hx : x ∈ xs) :
    (h x).Sublist (xs.flatMap h) := by
  rw [List.flatMap_def]
  exact List.sublist_flatten_of_mem (List.mem_map_of_mem hx)

theorem forward_sideBySide (hc : ∀ f ∈ fs, f.Closed) (h : ∀ f ∈ fs, Forward f.ids f.links) :
    Forward (sideBySide fork join fs).ids (sideBySide fork join fs).links := by
  have hs : (fs.flatMap ids).Sublist (sideBySide fork join fs).ids := by
    rw [ids_sideBySide]
    exact (List.sublist_cons_self ..).trans (List.sublist_append_left ..)
  apply Forward.append
  case h =>
    exact List.forall_mem_flatMap.mpr fun f hf => (h f hf).widen ((sublist_flatMap hf).trans hs)
  case h' =>
    rw [ids_sideBySide]
    refine List.forall_mem_flatMap.mpr fun f hf => List.forall_mem_cons.mpr ⟨?_, ?_⟩
    · refine .trans (.cons_cons _ ?_) (List.sublist_append_left ..)
      exact List.singleton_sublist.mpr (List.mem_flatMap.mpr ⟨f, hf, (hc f hf).entry⟩)
    · refine List.forall_mem_map.mpr fun e he => pair_sublist_append ?_ (List.mem_singleton_self _)
      exact List.mem_cons_of_mem _ (List.mem_flatMap.mpr ⟨f, hf, (hc f hf).exits e he⟩)

theorem forward_select (hc : ∀ c ∈ cs, c.2.Closed) (h : ∀ c ∈ cs, Forward c.2.ids c.2.links) :
    Forward (select n cs).ids (select n cs).links := by
  rw [ids_select]
  refine List.forall_mem_flatMap.mpr fun c hm => Forward.append ?_ ?_
  · exact (h c hm).widen (.cons _ (sublist_flatMap (h := fun c => c.2.ids) hm))
  · refine List.forall_mem_singleton.mpr (.cons_cons _ (List.singleton_sublist.mpr ?_))
    exact List.mem_flatMap.mpr ⟨c, hm, (hc c hm).entry⟩

end Forward

-- Parts that share no nodes are entered at different nodes.
theorem nodup_entries (hc : ∀ f ∈ fs, f.Closed) (hn : (fs.flatMap ids).Nodup) :
    (fs.map (·.entry)).Nodup := by
  induction fs
  case nil => exact List.nodup_nil
  case cons f fs hi =>
    rw [List.forall_mem_cons] at hc
    rw [List.flatMap_cons, List.nodup_append] at hn
    rw [List.map_cons, List.nodup_cons]
    refine ⟨fun hm => ?_, hi hc.2 hn.2.1⟩
    have ⟨f', hf', he⟩ := List.mem_map.mp hm
    have hm' := List.mem_flatMap.mpr ⟨f', hf', (hc.2 f' hf').entry⟩
    exact hn.2.2 _ hc.1.entry _ hm' he.symm

end Subgraph

namespace Block

theorem forward (h : Block d f) (hn : f.ids.Nodup) : Forward f.ids f.links := by
  induction h
  case task => exact List.forall_mem_nil _
  case sequence hne hb hi =>
    have hn := nodup_chained hn
    let P := fun (_ : List Definition) (f : Subgraph) => f.Closed ∧ Forward f.ids f.links
    refine (chained_induct (P := P) ?_ hne hn fun b hm => ?_).2
    · intro _ _ f f' _ ⟨hf, h⟩ ⟨hf', h'⟩
      exact ⟨hf.followedBy hf', forward_followedBy hf hf' h h'⟩
    · have hn := (List.nodup_flatMap.mp hn).1 b hm
      exact ⟨(hb b hm).closed hn, hi b hm hn⟩
  case split hb hi =>
    have hc := closed_branches hb hn
    have hn := (List.nodup_flatMap.mp (nodup_branches hn)).1
    apply forward_sideBySide hc
    exact List.forall_mem_map.mpr fun b hm => hi b hm (hn b hm)
  case transition hb hi =>
    have hc := closed_clauses hb hn
    have hn := (List.nodup_flatMap.mp (nodup_clauses hn)).1
    apply forward_select hc
    exact List.forall_mem_map.mpr fun c hm => hi c hm (hn c hm)

-- A fork leads to the entries of its branches, and a task to those of its clauses: each leads to a
-- part of its own.
theorem nodup_successors (h : Block d f) (hn : f.ids.Nodup) (hw : Wired g f x) :
    ∀ n ∈ f.nodes, (g.successors n.id).Nodup := by
  refine wired_induct (P := fun _ f _ => ∀ n ∈ f.nodes, (g.successors n.id).Nodup)
    (Q := fun _ f _ => ∀ n ∈ f.nodes, (g.successors n.id).Nodup)
    ?task ?step ?append ?sequence ?split ?transition h hn hw
  case task =>
    intro t n x _ hw
    refine List.forall_mem_singleton.mpr ?_
    simp [successors, hw.outgoing_node]
  case step => exact id
  case append => exact fun h h' => List.forall_mem_append.mpr ⟨h, h'⟩
  case sequence => exact id
  case split =>
    intro fork join x bs _ _ hc hn hw hi
    refine List.forall_mem_append.mpr ⟨List.forall_mem_cons.mpr ⟨?_, ?_⟩,
      List.forall_mem_singleton.mpr ?_⟩
    · rw [successors, hw.outgoing_fork hc hn, List.map_map]
      exact nodup_entries hc (nodup_sideBySide hn).1
    · rw [List.flatMap_map]
      exact List.forall_mem_flatMap.mpr hi
    · simp [successors, hw.outgoing_join hc hn]
  case transition =>
    intro t n x cs _ hc hn hw hi
    refine List.forall_mem_cons.mpr ⟨?_, ?_⟩
    · have hc' : ∀ f ∈ cs.map (·.2.2), f.Closed := by
        rw [List.forall_mem_map] at hc ⊢
        exact hc
      have he := nodup_entries hc' (by simpa only [List.flatMap_map] using nodup_clauses hn)
      rw [List.map_map] at he
      rwa [successors, hw.outgoing_source hc hn, List.map_map, List.map_map]
    · rw [List.flatMap_map]
      exact List.forall_mem_flatMap.mpr hi

end Block

namespace Definition

-- The tasks of a definition, each with the conditions on which control goes on from it: none on its
-- only link, or a pattern on each of several.
def onward : Definition → List (Attributes × List (Option String)) :=
  fold (fun t => [(t.attributes, [none])]) List.flatten List.flatten
    fun t cs => (t.attributes, cs.map (·.1.1)) :: cs.flatMap (·.2)

variable {t : TaskMention} {ds : List Definition} {cs : List Clause}

@[simp]
theorem onward_task : (task t).onward = [(t.attributes, [none])] := by
  simp [onward]

@[simp]
theorem onward_sequence : (sequence ds).onward = ds.flatMap onward := by
  simp [onward, List.flatMap_def]

@[simp]
theorem onward_split : (split ds).onward = ds.flatMap onward := by
  simp [onward, List.flatMap_def]

@[simp]
theorem onward_transition : (transition t cs).onward
    = (t.attributes, cs.map (·.1)) :: cs.flatMap (·.2.onward) := by
  simp [onward, List.flatMap_def, Function.comp_def]

theorem onward_bare : d.bare.onward = d.onward := by
  induction d
  case task => simp [TaskMention.attributes, TaskMention.bare]
  case sequence hi | split hi =>
    simp only [bare_sequence, bare_split, onward_sequence, onward_split, List.flatMap_map]
    exact List.flatMap_congr hi
  case transition hi =>
    simp only [bare_transition, onward_transition, List.flatMap_map, List.map_map]
    exact congrArg₂ _ rfl (List.flatMap_congr hi)

-- Control goes on from a task either in any case, or under conditions only.
theorem Normal.onward (h : d.Normal) :
    ∀ o ∈ d.onward, o.2 = [none] ∨ o.2 ≠ [] ∧ ∀ p ∈ o.2, p.isSome := by
  induction d
  case task => simp
  case sequence hi =>
    rw [onward_sequence, List.forall_mem_flatMap]
    exact fun d hd => hi d hd ((normal_sequence.mp h).2.2 d hd)
  case split hi =>
    rw [onward_split, List.forall_mem_flatMap]
    exact fun d hd => hi d hd ((normal_split.mp h).2 d hd)
  case transition hi =>
    have ⟨hne, hsome, hd⟩ := normal_transition.mp h
    rw [onward_transition, List.forall_mem_cons, List.forall_mem_flatMap]
    exact ⟨.inr ⟨by simpa using hne, List.forall_mem_map.mpr hsome⟩, fun c hc => hi c hc (hd c hc)⟩

end Definition

namespace Block

-- Tasks are laid out in the order in which they are mentioned.
theorem onward (h : Block d f) (hn : f.ids.Nodup) (hw : Wired g f x) :
    ((f.nodes.filter (·.type == .task)).map fun n =>
      (n.attributes, (g.outgoing n.id).map (·.condition))) = d.onward := by
  let T := fun ns : List Node => (ns.filter (·.type == .task)).map fun n =>
    (n.attributes, (g.outgoing n.id).map (·.condition))
  refine wired_induct (P := fun d f _ => T f.nodes = d.onward)
    (Q := fun ds f _ => T f.nodes = ds.flatMap Definition.onward)
    ?task ?step ?append ?sequence ?split ?transition h hn hw
  case task =>
    intro t n x ht hw
    simp [T, ofNode, Node.type_eq_task ht, ht, hw.outgoing_node]
  case step =>
    intro d f x h
    simpa using h
  case append =>
    intro ds es f f' x h h'
    rw [List.flatMap_append, ← h, ← h']
    simp [T, followedBy]
  case sequence =>
    intro ds f x h
    rwa [onward_sequence]
  case split =>
    intro fork join x bs hf hj _ _ _ hi
    have hf : fork.type = .fork := congrArg Attributes.type hf
    have hj : join.type = .join := congrArg Attributes.type hj
    rw [onward_split, List.flatMap_map, ← List.flatMap_congr hi]
    simp [T, sideBySide, hf, hj, List.filter_flatMap, List.map_flatMap, List.flatMap_map]
  case transition =>
    intro t n x cs ht hc hn hw hi
    rw [onward_transition, List.flatMap_map, ← List.flatMap_congr hi]
    simp [T, select, clauseLink, Node.type_eq_task ht, ht, hw.outgoing_source hc hn,
      List.filter_flatMap, List.map_flatMap, List.flatMap_map, Function.comp_def]

-- A split has a fork and a join.
theorem countP_fork (h : Block d f) :
    f.nodes.countP (·.type == .fork) = f.nodes.countP (·.type == .join) := by
  induction h
  case task ht => simp [ofNode, Node.type_eq_task ht]
  case sequence hi =>
    simp only [nodes_chained, List.flatMap_map, List.countP_flatMap]
    exact congrArg _ (List.map_congr_left hi)
  case split hf hj _ hi =>
    have hf := congrArg Attributes.type hf
    have hj := congrArg Attributes.type hj
    have hi := congrArg List.sum (List.map_congr_left hi)
    simp only [Node.attributes, NodeType.nameless] at hf hj
    simp [sideBySide, List.flatMap_map, List.countP_flatMap, hf, hj, Function.comp_def, hi]
  case transition ht _ hi =>
    have hi := congrArg List.sum (List.map_congr_left hi)
    simp [select, List.flatMap_map, List.countP_flatMap, Node.type_eq_task ht,
      Function.comp_def, hi]

end Block

namespace Graph

theorem nodup_ends {ls : List Link} (h : ∀ id, (after ls id).Nodup) :
    (ls.map fun l => (l.source, l.target)).Nodup := by
  induction ls
  case nil => exact List.nodup_nil
  case cons l ls hi =>
    rw [List.map_cons, List.nodup_cons]
    constructor
    · intro hm
      obtain ⟨l', hl', he⟩ := List.mem_map.mp hm
      have hn := h l.source
      rw [after, List.filter_cons_of_pos (by simp), List.map_cons, List.nodup_cons] at hn
      rw [Prod.mk.injEq] at he
      exact hn.1 (mem_after.mpr ⟨l', hl', he⟩)
    · exact hi fun id => (h id).sublist (((List.sublist_cons_self l ls).filter _).map _)

-- What the graph of a definition satisfies besides what every graph has to.
structure Orderly (g : Graph) (start : Node) (d : Definition) : Prop where
  acyclic : g.Acyclic
  entry : ∃ l, g.outgoing start.id = [l]
  onward : ((g.nodesWith .task).map fun n =>
    (n.attributes, (g.outgoing n.id).map (·.condition))) = d.onward
  plain : ∀ n ∈ g.nodesWith .task, (∀ l ∈ g.outgoing n.id, l.condition = none) →
    ∃ l, g.outgoing n.id = [l]
  brackets : (g.nodesWith .fork).length = (g.nodesWith .join).length
  simple : (g.links.map fun l => (l.source, l.target)).Nodup

end Graph

namespace Drawn

theorem forward (h : Drawn d f) : Forward ("START" :: f.ids ++ ["END"]) f.whole.links := by
  have hf : Forward ("START" :: f.ids ++ ["END"]) f.links :=
    (h.block.forward h.ids_nodup).widen
      ((List.sublist_cons_self ..).trans (List.sublist_append_left ..))
  refine hf.append (List.forall_mem_cons.mpr ⟨?_, List.forall_mem_map.mpr fun e he => ?_⟩)
  · refine .trans (.cons_cons _ ?_) (List.sublist_append_left ..)
    exact List.singleton_sublist.mpr h.closed.entry
  · refine pair_sublist_append ?_ (List.mem_singleton_self _)
    exact List.mem_cons_of_mem _ (h.closed.exits e he)

theorem nodup_order (h : Drawn d f) : ("START" :: f.ids ++ ["END"]).Nodup := by
  have hp : ("START" :: f.ids ++ ["END"]).Perm ("START" :: "END" :: f.ids) :=
    .cons _ List.perm_append_comm
  exact hp.nodup_iff.mpr h.nodup

theorem nodup_successors (h : Drawn d f) (id : String) : (f.whole.successors id).Nodup := by
  by_cases hi : id ∈ "START" :: f.ids ++ ["END"]
  case pos =>
    rw [List.cons_append, List.mem_cons, List.mem_append, List.mem_singleton] at hi
    obtain rfl | hi | rfl := hi
    case inl => simp [successors, h.outgoing_start]
    case inr.inl =>
      obtain ⟨n, hn, he⟩ := List.mem_map.mp hi
      exact he ▸ h.block.nodup_successors h.ids_nodup h.placed.toWired n hn
    case inr.inr => simp [successors, h.outgoing_finish]
  case neg =>
    have hnil : f.whole.successors id = [] := by
      refine List.eq_nil_iff_forall_not_mem.mpr fun y hy => hi ?_
      obtain ⟨l, hl, rfl, _⟩ := mem_successors.mp hy
      exact (h.forward l hl).subset List.mem_cons_self
    rw [hnil]
    exact List.nodup_nil

theorem orderly (h : Drawn d f) (hd : d.Normal) : f.whole.Orderly startNode d where
  acyclic := acyclic_of_forward h.forward h.nodup_order
  entry := ⟨_, h.outgoing_start⟩
  onward := h.block.onward h.ids_nodup h.placed.toWired
  plain n hn ho := by
    have hm : (n.attributes, (f.whole.outgoing n.id).map (·.condition)) ∈ d.onward := by
      rw [← h.block.onward h.ids_nodup h.placed.toWired]
      exact List.mem_map_of_mem hn
    obtain he | ⟨hne, hs⟩ := hd.onward _ hm
    case inl => exact List.length_eq_one_iff.mp (by simpa using congrArg List.length he)
    case inr =>
      have ⟨p, hp⟩ := List.exists_mem_of_ne_nil _ hne
      have ⟨l, hl, hc⟩ := List.mem_map.mp hp
      have hs := hs p hp
      rw [← hc, ho l hl] at hs
      cases hs
  brackets := by
    have := h.block.countP_fork
    simpa [List.countP_eq_length_filter, nodesWith, whole, anchored, startNode, finishNode] using this
  simple := nodup_ends h.nodup_successors

end Drawn

namespace Definition

-- The graph of a definition that was read meets all demands, has no cycle and no two links between
-- the same nodes, and its forks, joins and tasks have the links that the definition gives them.
theorem exists_orderly_of_read (h : read text limit = .ok a) : ∃ g start finish,
    a.toGraph = .ok g ∧ g.anchors = .ok (start, finish) ∧ g.Sound start finish ∧
      g.Orderly start a := by
  have hw := wellFormed_of_read h
  have ⟨f, hf, hd⟩ := hw.drawn
  have hs := hd.sound hw
  have ho := hd.orderly hw.normal
  refine ⟨f.whole, startNode, finishNode, toGraph_bare ▸ hf, anchors_eq_ok.mpr hs, hs, ?_⟩
  exact { ho with onward := ho.onward.trans onward_bare }

theorem orderly_nestedSelections :
    ∃ a g start finish, read "a -> X: <b -> X: c -> Y: d> -> Y: e" 1 = .ok a ∧
      a.toGraph = .ok g ∧ g.anchors = .ok (start, finish) ∧ g.Sound start finish ∧
      g.Orderly start a ∧ a.onward.map (fun o => (o.1.name, o.2)) = [(some "a", [some "X", some "Y"]),
        (some "b", [some "X", some "Y"]), (some "c", [none]), (some "d", [none]),
        (some "e", [none])] := by
  have hw := wellFormed_nestedSelections
  have hc : ¬ nestedSelections.Clashes :=
    Definition.not_clashes hw.writable (by simp [nestedSelections])
  have hd : nestedSelections.nesting ≤ (1 : Int) := by
    simp [nestedSelections, targetNesting, isSimple]
  obtain ⟨a, ha, hb⟩ := hw.exists_read (by decide) hc hd
  rw [text_nestedSelections] at ha
  obtain ⟨g, start, finish, hg, hx, hs, ho⟩ := exists_orderly_of_read ha
  refine ⟨a, g, start, finish, ha, hg, hx, hs, ho, ?_⟩
  rw [← onward_bare, hb, onward_bare]
  simp [nestedSelections, TaskMention.attributes]

end Definition

end TaskFlow
