import TaskFlow.Proofs.Definition.Rearranged
import TaskFlow.Proofs.Graph.Isomorphism

namespace TaskFlow

open TaskFlow.Graph Subgraph Definition

variable {g g' : Graph} {d : Definition} {f f' e e' : Subgraph} {fs : List Subgraph}
  {fork join n : Node} {x : String} {cs : List (Option String × Subgraph)}

namespace Subgraph

-- Whether two subgraphs differ in the order of their exits, nodes and links only.
structure Shuffled (f f' : Subgraph) : Prop where
  entry : f'.entry = f.entry
  exits : f'.exits.Perm f.exits
  nodes : f'.nodes.Perm f.nodes
  links : f'.links.Perm f.links

namespace Shuffled

theorem refl (f : Subgraph) : f.Shuffled f :=
  ⟨rfl, .refl _, .refl _, .refl _⟩

theorem ids (h : f.Shuffled f') : f'.ids.Perm f.ids :=
  h.nodes.map _

theorem exitsTo (h : f.Shuffled f') (x : String) : (f'.exitsTo x).Perm (f.exitsTo x) :=
  h.exits.map _

theorem closed (h : f.Shuffled f') (hf : f.Closed) : f'.Closed where
  entry := h.entry ▸ h.ids.mem_iff.mpr hf.entry
  exits e he := h.ids.mem_iff.mpr (hf.exits e (h.exits.subset he))
  ends l hl := by
    have ⟨hs, ht⟩ := hf.ends l (h.links.subset hl)
    exact ⟨h.ids.mem_iff.mpr hs, h.ids.mem_iff.mpr ht⟩

theorem followedBy (h : f.Shuffled f') (h' : e.Shuffled e') :
    (f.followedBy e).Shuffled (f'.followedBy e') where
  entry := h.entry
  exits := h'.exits
  nodes := h.nodes.append h'.nodes
  links := by
    rw [Subgraph.followedBy, Subgraph.followedBy, h'.entry]
    exact (h.links.append h'.links).append (h.exitsTo _)

end Shuffled

section Parts

variable {β : Type} {l r : β → Subgraph} {bs : List β} (hb : ∀ b ∈ bs, (l b).Shuffled (r b))

include hb

theorem shuffled_sideBySide (hp : fs.Perm (bs.map r)) :
    (sideBySide fork join (bs.map l)).Shuffled (sideBySide fork join fs) where
  entry := rfl
  exits := .refl _
  nodes := ((perm_flatMap hp fun b hm => (hb b hm).nodes).cons _).append_right _
  links := by
    refine (perm_flatMap hp fun b hm => (hb b hm).links).append (perm_flatMap hp fun b hm => ?_)
    rw [(hb b hm).entry]
    exact ((hb b hm).exitsTo _).cons _

theorem shuffled_select {p : β → Option String} (hp : cs.Perm (bs.map fun b => (p b, r b))) :
    (select n (bs.map fun b => (p b, l b))).Shuffled (select n cs) where
  entry := rfl
  exits := perm_flatMap hp fun b hm => (hb b hm).exits
  nodes := (perm_flatMap hp fun b hm => (hb b hm).nodes).cons _
  links := by
    refine perm_flatMap hp fun b hm => ?_
    simp only [(hb b hm).entry]
    exact (hb b hm).links.append_right _

end Parts

theorem chained_concat (hf : fs ≠ []) : chained (fs ++ [f]) = (chained fs).followedBy f := by
  cases fs
  case nil => contradiction
  case cons => simp [chained]

end Subgraph

namespace Wired

theorem followedBy (hf : f.Closed) (he : e.Closed) (hn : (f.ids ++ e.ids).Nodup)
    (h : Wired g f e.entry) (h' : Wired g e x) : Wired g (f.followedBy e) x where
  nodes := List.append_subset.mpr ⟨h.nodes, h'.nodes⟩
  outgoing id hi := by
    rw [ids_followedBy] at hi
    obtain hi | hi := List.mem_append.mp hi
    case inl => exact (h.outgoing id hi).trans (out_followedBy_left he hn hi).symm
    case inr => exact (h'.outgoing id hi).trans (out_followedBy_right hf hn hi).symm

theorem ofNode (hm : n ∈ g.nodes) (ho : g.outgoing n.id = [{ source := n.id, target := x }]) :
    Wired g (ofNode n) x where
  nodes := by simpa [Subgraph.ofNode] using hm
  outgoing := List.forall_mem_singleton.mpr (ho.trans out_ofNode.symm)

theorem sideBySide (hf : ∀ f ∈ fs, f.Closed) (hn : (sideBySide fork join fs).ids.Nodup)
    (hfork : fork ∈ g.nodes) (hjoin : join ∈ g.nodes)
    (hof : g.outgoing fork.id = fs.map fun f => { source := fork.id, target := f.entry })
    (hoj : g.outgoing join.id = [{ source := join.id, target := x }])
    (h : ∀ f ∈ fs, Wired g f join.id) : Wired g (sideBySide fork join fs) x where
  nodes := by
    refine List.append_subset.mpr
      ⟨List.cons_subset.mpr ⟨hfork, fun m hm => ?_⟩, by simpa using hjoin⟩
    have ⟨f, hf, hm⟩ := List.mem_flatMap.mp hm
    exact (h f hf).nodes hm
  outgoing id hi := by
    rw [ids_sideBySide, List.mem_append, List.mem_cons, List.mem_flatMap, List.mem_singleton] at hi
    obtain (rfl | ⟨f, hm, hi⟩) | rfl := hi
    case inl.inl => exact hof.trans (out_fork hf hn).symm
    case inl.inr => exact ((h f hm).outgoing id hi).trans (out_branch hf hn hm hi).symm
    case inr => exact hoj.trans (out_join hf hn).symm

theorem select (hf : ∀ c ∈ cs, c.2.Closed) (hn : (select n cs).ids.Nodup) (hm : n ∈ g.nodes)
    (ho : g.outgoing n.id = cs.map (clauseLink n)) (h : ∀ c ∈ cs, Wired g c.2 x) :
    Wired g (select n cs) x where
  nodes := by
    refine List.cons_subset.mpr ⟨hm, fun m hm => ?_⟩
    have ⟨c, hc, hm⟩ := List.mem_flatMap.mp hm
    exact (h c hc).nodes hm
  outgoing id hi := by
    rw [ids_select, List.mem_cons, List.mem_flatMap] at hi
    obtain rfl | ⟨c, hc, hi⟩ := hi
    case inl => exact ho.trans (out_select_self hf hn).symm
    case inr => exact ((h c hc).outgoing id hi).trans (out_clause hf hn hc hi).symm

end Wired

-- Whether a graph is another one with the links that leave a node in another order, in which
-- wildcards stand last.
structure Graph.Reordered (g g' : Graph) : Prop where
  nodes : g.nodes ⊆ g'.nodes
  outgoing : ∀ id, (g'.outgoing id).Perm (g.outgoing id)
  last : ∀ id, some wildcard ∉ ((g'.outgoing id).map (·.condition)).dropLast

-- Whether a definition is rearranged as the links of its subgraph are in a graph.
structure Rearrangement (g : Graph) (x : String) (b b' : Definition × Subgraph) : Prop where
  definition : b.1.Rearranged b'.1
  block : Block b'.1 b'.2
  subgraph : b.2.Shuffled b'.2
  wired : Wired g b'.2 x

namespace Graph.Reordered

variable (hs : g.Reordered g')

include hs

theorem outgoing_eq_singleton {id : String} {l : Link} (h : g.outgoing id = [l]) :
    g'.outgoing id = [l] :=
  List.perm_singleton.mp (h ▸ hs.outgoing id)

-- By induction on the steps from the last one on, since a sequence is put together from the left.
omit hs in
theorem exists_steps {bs : List (Definition × Subgraph)} (hne : bs ≠ [])
    (hn : (bs.flatMap (·.2.ids)).Nodup) (hc : ∀ b ∈ bs, b.2.Closed)
    (hb : ∀ b ∈ bs, ∀ x, Wired g b.2 x → ∃ b', Rearrangement g' x b b')
    (hw : Wired g (chained (bs.map (·.2))) x) :
    ∃ ps : List ((Definition × Subgraph) × Definition × Subgraph), ps.map (·.1) = bs ∧
      (∀ p ∈ ps, p.1.1.Rearranged p.2.1 ∧ Block p.2.1 p.2.2) ∧
      (chained (bs.map (·.2))).Shuffled (chained (ps.map (·.2.2))) ∧
      Wired g' (chained (ps.map (·.2.2))) x := by
  induction bs using List.reverseRecOn generalizing x
  case nil => contradiction
  case append_singleton bs b hi =>
    rw [List.forall_mem_append, List.forall_mem_singleton] at hc hb
    by_cases hbs : bs = []
    case pos =>
      subst hbs
      have ⟨b', hr⟩ := hb.2 x hw
      exact ⟨[(b, b')], rfl, List.forall_mem_singleton.mpr ⟨hr.definition, hr.block⟩, hr.subgraph,
        hr.wired⟩
    case neg =>
      rw [List.flatMap_append] at hn
      have hnb := (List.nodup_append.mp hn).1
      have hcs : (chained (bs.map (·.2))).Closed :=
        chained_induct (P := fun _ f => f.Closed) (fun _ hf hf' => hf.followedBy hf') hbs hnb hc.1
      have hids : (chained (bs.map (·.2))).ids = bs.flatMap (·.2.ids) := by
        rw [Subgraph.ids, nodes_chained, List.map_flatMap, List.flatMap_map]
        rfl
      have hn : ((chained (bs.map (·.2))).ids ++ b.2.ids).Nodup := by simpa [hids] using hn
      rw [List.map_append, List.map_singleton, chained_concat (by simpa using hbs)] at hw ⊢
      obtain ⟨b', hr⟩ := hb.2 x (hw.right hn hcs)
      obtain ⟨ps, hp, hrs, hsub, hwired⟩ := hi hbs hnb hc.1 hb.1 (hw.left hn hc.2)
      have hps : ps.map (·.2.2) ≠ [] := by
        rintro he
        simp only [List.map_eq_nil_iff] at he
        exact hbs (by rw [← hp, he]; rfl)
      refine ⟨ps ++ [(b, b')], by rw [List.map_append, hp]; rfl, ?_, ?_, ?_⟩
      · exact List.forall_mem_append.mpr
          ⟨hrs, List.forall_mem_singleton.mpr ⟨hr.definition, hr.block⟩⟩
      all_goals rw [List.map_append, List.map_singleton, chained_concat hps]
      · exact hsub.followedBy hr.subgraph
      · have hn' := (hsub.ids.append hr.subgraph.ids).nodup_iff.mpr hn
        exact .followedBy (hsub.closed hcs) (hr.subgraph.closed hc.2) hn'
          (hr.subgraph.entry ▸ hwired) hr.wired

-- The order of the branches is that of the links that leave the fork.
theorem exists_split {bs : List (Definition × Subgraph)}
    (hfork : fork.attributes = NodeType.fork.nameless)
    (hjoin : join.attributes = NodeType.join.nameless) (hc : ∀ f ∈ bs.map (·.2), f.Closed)
    (hn : (sideBySide fork join (bs.map (·.2))).ids.Nodup)
    (hw : Wired g (sideBySide fork join (bs.map (·.2))) x)
    (hb : ∀ b ∈ bs, ∃ b', Rearrangement g' join.id b b') :
    ∃ b', Rearrangement g' x (.split (bs.map (·.1)), sideBySide fork join (bs.map (·.2))) b' := by
  have _ : Nonempty (Definition × Subgraph) := ⟨(.sequence [], chained [])⟩
  choose! k hk using hb
  have ho : g.outgoing fork.id
      = (bs.map k).map fun b => { source := fork.id, target := b.2.entry } := by
    rw [hw.outgoing_fork hc hn, List.map_map, List.map_map]
    exact List.map_congr_left fun b hm => by simp [(hk b hm).subgraph.entry]
  obtain ⟨zs, ho, hp⟩ := exists_of_perm_map (ho ▸ hs.outgoing fork.id)
  have hz : ∀ z ∈ zs, Block z.1 z.2 ∧ z.2.Closed ∧ Wired g' z.2 join.id := fun z hm => by
    obtain ⟨b, hb, rfl⟩ := List.mem_map.mp (hp.subset hm)
    have hcb := hc b.2 (List.mem_map_of_mem hb)
    exact ⟨(hk b hb).block, (hk b hb).subgraph.closed hcb, (hk b hb).wired⟩
  have hd : (split (bs.map (·.1))).Rearranged (split (zs.map (·.1))) :=
    .ofBranches (fun b hm => (hk b hm).definition) (perm_map (·.1) hp)
  have hsub : (sideBySide fork join (bs.map (·.2))).Shuffled
      (sideBySide fork join (zs.map (·.2))) :=
    shuffled_sideBySide (fun b hm => (hk b hm).subgraph) (perm_map (·.2) hp)
  refine ⟨(_, _), hd, .split hfork hjoin fun z hm => (hz z hm).1, hsub, .sideBySide ?_ ?_ ?_ ?_ ?_
    (hs.outgoing_eq_singleton (hw.outgoing_join hc hn)) ?_⟩
  · exact List.forall_mem_map.mpr fun z hm => (hz z hm).2.1
  · exact hsub.ids.nodup_iff.mpr hn
  · exact hs.nodes (hw.nodes (by simp [Subgraph.sideBySide]))
  · exact hs.nodes (hw.nodes (by simp [Subgraph.sideBySide]))
  · rw [ho, List.map_map]
    rfl
  · exact List.forall_mem_map.mpr fun z hm => (hz z hm).2.2

-- The order of the clauses is that of the links that leave the task.
theorem exists_transition {t : TaskMention} {bs : List (Option String × Definition × Subgraph)}
    (ht : n.attributes = t.attributes) (hc : ∀ c ∈ bs.map (fun b => (b.1, b.2.2)), c.2.Closed)
    (hn : (select n (bs.map fun b => (b.1, b.2.2))).ids.Nodup)
    (hw : Wired g (select n (bs.map fun b => (b.1, b.2.2))) x)
    (hb : ∀ b ∈ bs, ∃ b', Rearrangement g' x b.2 b') :
    ∃ b', Rearrangement g' x (.transition t (bs.map fun b => (b.1, b.2.1)),
      select n (bs.map fun b => (b.1, b.2.2))) b' := by
  have _ : Nonempty (Definition × Subgraph) := ⟨(.sequence [], chained [])⟩
  choose! k hk using hb
  have ho : g.outgoing n.id = (bs.map fun b => (b.1, k b)).map fun b =>
      { source := n.id, target := b.2.2.entry, condition := b.1 } := by
    rw [hw.outgoing_source hc hn, List.map_map, List.map_map]
    exact List.map_congr_left fun b hm => by simp [clauseLink, (hk b hm).subgraph.entry]
  obtain ⟨zs, ho, hp⟩ := exists_of_perm_map (ho ▸ hs.outgoing n.id)
  have hz : ∀ z ∈ zs, Block z.2.1 z.2.2 ∧ z.2.2.Closed ∧ Wired g' z.2.2 x := fun z hm => by
    obtain ⟨b, hb, rfl⟩ := List.mem_map.mp (hp.subset hm)
    have hcb := List.forall_mem_map.mp hc b hb
    exact ⟨(hk b hb).block, (hk b hb).subgraph.closed hcb, (hk b hb).wired⟩
  have hlast : some wildcard ∉ (zs.map (·.1)).dropLast := by
    have := hs.last n.id
    rwa [ho, List.map_map] at this
  have hd : (transition t (bs.map fun b => (b.1, b.2.1))).Rearranged
      (transition t (zs.map fun z => (z.1, z.2.1))) :=
    .ofClauses (fun b hm => (hk b hm).definition) (perm_map (fun z => (z.1, z.2.1)) hp)
      (by rwa [List.map_map])
  have hsub : (select n (bs.map fun b => (b.1, b.2.2))).Shuffled
      (select n (zs.map fun z => (z.1, z.2.2))) :=
    shuffled_select (fun b hm => (hk b hm).subgraph) (perm_map (fun z => (z.1, z.2.2)) hp)
  refine ⟨(_, _), hd, .transition ht fun z hm => (hz z hm).1, hsub, .select ?_ ?_ ?_ ?_ ?_⟩
  · exact List.forall_mem_map.mpr fun z hm => (hz z hm).2.1
  · exact hsub.ids.nodup_iff.mpr hn
  · exact hs.nodes (hw.nodes List.mem_cons_self)
  · rw [ho, List.map_map]
    rfl
  · exact List.forall_mem_map.mpr fun z hm => (hz z hm).2.2

end Graph.Reordered

namespace Block

-- By induction on the subgraph: its parts are rearranged first, and then put in order.
theorem exists_rearranged (hs : g.Reordered g') (h : Block d f) (hn : f.ids.Nodup)
    (hw : Wired g f x) : ∃ b, Rearrangement g' x (d, f) b := by
  induction h generalizing x
  case task t n ht =>
    have hm : n ∈ g'.nodes := hs.nodes (hw.nodes (List.mem_singleton_self n))
    exact ⟨(.task t, ofNode n), .task, .task ht, .refl _,
      .ofNode hm (hs.outgoing_eq_singleton hw.outgoing_node)⟩
  case sequence bs hne hb hi =>
    have hn := nodup_chained hn
    have hnb := (List.nodup_flatMap.mp hn).1
    obtain ⟨ps, rfl, hr, hsub, hwired⟩ := Reordered.exists_steps hne hn
      (fun b hm => (hb b hm).closed (hnb b hm)) (fun b hm x hw => hi b hm (hnb b hm) hw) hw
    have hblock := @Block.sequence (ps.map (·.2)) (by simpa using hne)
      (List.forall_mem_map.mpr fun p hp => (hr p hp).2)
    rw [List.map_map, List.map_map] at hblock
    refine ⟨(_, _), ?_, hblock, hsub, hwired⟩
    rw [List.map_map]
    exact .ofSteps fun p hp => (hr p hp).1
  case split fork join bs hfork hjoin hb hi =>
    have hnb := (List.nodup_flatMap.mp (nodup_branches hn)).1
    have hc := closed_branches hb hn
    refine hs.exists_split hfork hjoin hc hn hw fun b hm => hi b hm (hnb b hm) ?_
    exact hw.branch hc hn (List.mem_map_of_mem hm)
  case transition t n cs ht hb hi =>
    have hnb := (List.nodup_flatMap.mp (nodup_clauses hn)).1
    have hc := closed_clauses hb hn
    refine hs.exists_transition ht hc hn hw fun c hm => hi c hm (hnb c hm) ?_
    exact hw.clause hc hn (List.mem_map_of_mem (f := fun c => (c.1, c.2.2)) hm)

end Block

end TaskFlow
