import TaskFlow.Proofs.Graph.Acyclic
import TaskFlow.Proofs.Layout.Walk
import TaskFlow.Proofs.Reader.Legible
import TaskFlow.Proofs.Render.Recovery

namespace TaskFlow

open TaskFlow.Graph Subgraph Definition

variable {d d' : Definition} {f : Subgraph} {g : Graph} {limit : Int} {x id : String}

def Definition.startNode : Node := ⟨"START", .start, none, []⟩

def Definition.finishNode : Node := ⟨"END", .finish, none, []⟩

def Subgraph.whole (f : Subgraph) : Graph :=
  f.anchored startNode finishNode

-- Whether a definition is laid out as a subgraph between two anchors.
structure Drawn (d : Definition) (f : Subgraph) : Prop where
  block : Block d f
  nodup : ("START" :: "END" :: f.ids).Nodup

def Definition.anchoredPool : IdPool where
  taken := ["END", "START"]

theorem Definition.toGraph_eq : d.toGraph = (d.layOut anchoredPool).map (·.1.whole) := by
  have hs : IdPool.newNode { } "START" .start = .ok (startNode, { taken := ["START"] }) := rfl
  have hf : IdPool.newNode { taken := ["START"] } "END" .finish
      = .ok (finishNode, anchoredPool) := by
    simp [IdPool.newNode, IdPool.allocate, finishNode, anchoredPool]
  rw [toGraph, hs]
  simp only [bind, Except.bind, hf]
  cases d.layOut anchoredPool <;> rfl

namespace Definition.Drawable

variable (h : d.Drawable)

include h

theorem exists_layOut : ∃ f p', d.layOut anchoredPool = .ok (f, p') ∧ Drawn d f := by
  have ⟨f, p', hd, hb, hg⟩ := h.lays anchoredPool
  have hn := hg.taken.nodup_iff.mp (hg.nodup (by simp [anchoredPool]))
  exact ⟨f, p', hd, hb, ((List.perm_append_comm.trans (.swap ..)).nodup_iff).mp hn⟩

theorem drawn : ∃ f, d.toGraph = .ok f.whole ∧ Drawn d f := by
  have ⟨f, p', hl, hd⟩ := h.exists_layOut
  refine ⟨f, ?_, hd⟩
  rw [toGraph_eq, hl]
  rfl

end Definition.Drawable

namespace Block

theorem inner (h : Block d f) : ∀ n ∈ f.nodes, n.type ≠ .start ∧ n.type ≠ .finish := by
  have hx {n : Node} {a : Attributes} (ha : n.attributes = a)
      (ht : a.type ≠ .start ∧ a.type ≠ .finish) : n.type ≠ .start ∧ n.type ≠ .finish := by
    subst ha
    exact ht
  induction h
  case task ht => exact List.forall_mem_singleton.mpr (hx ht ⟨nofun, nofun⟩)
  case sequence hi =>
    rw [nodes_chained, List.flatMap_map]
    exact List.forall_mem_flatMap.mpr hi
  case split hf hj _ hi =>
    refine List.forall_mem_append.mpr ⟨List.forall_mem_cons.mpr ⟨hx hf ⟨nofun, nofun⟩, ?_⟩, ?_⟩
    · rw [List.flatMap_map]
      exact List.forall_mem_flatMap.mpr hi
    · exact List.forall_mem_singleton.mpr (hx hj ⟨nofun, nofun⟩)
  case transition ht _ hi =>
    refine List.forall_mem_cons.mpr ⟨hx ht ⟨nofun, nofun⟩, ?_⟩
    rw [List.flatMap_map]
    exact List.forall_mem_flatMap.mpr hi

-- The tasks of a subgraph are those that its definition mentions, in the same order.
theorem tasks (h : Block d f) : (f.nodes.filter (·.type == .task)).map (·.attributes)
    = d.mentions.map (·.attributes) := by
  induction h
  case task ht => simp [ofNode, Node.type_eq_task ht, ht]
  case sequence hi =>
    simp only [nodes_chained, List.flatMap_map, List.filter_flatMap, List.map_flatMap,
      mentions_sequence]
    exact List.flatMap_congr hi
  case split fork join _ hfork hjoin _ hi =>
    have hf : fork.type = .fork := congrArg Attributes.type hfork
    have hj : join.type = .join := congrArg Attributes.type hjoin
    simp only [sideBySide, List.flatMap_map, List.filter_append, List.filter_flatMap, List.map_append,
      List.map_flatMap, mentions_split, List.filter_cons, hf, hj]
    simpa [List.map_flatMap] using List.flatMap_congr hi
  case transition n _ ht _ hi =>
    simp only [select, List.flatMap_map, List.filter_cons, Node.type_eq_task ht, beq_self_eq_true,
      if_true, List.filter_flatMap, List.map_cons, List.map_flatMap, mentions_transition, ht]
    exact congrArg _ (List.flatMap_congr hi)

theorem linksFit_source {n : Node} {ps : List (Option String)} (ht : n.type = .task)
    (ho : (g.outgoing n.id).map (·.condition) = ps) (hn : ps ≠ []) (hi : ∀ p ∈ ps, p.isSome)
    (hs : Selective ps) (hq : ∀ p ∈ ps, Quotable p) : g.LinksFit n := by
  obtain ⟨cs, rfl⟩ : ∃ cs : List String, ps = cs.map some := by
    refine ⟨ps.map (·.getD ""), ?_⟩
    rw [List.map_map]
    refine ((List.map_congr_left fun p hp => ?_).trans (List.map_id ps)).symm
    have ⟨c, hc⟩ := Option.isSome_iff_exists.mp (hi p hp)
    simp [hc]
  refine .conditional ht ho (by simpa using hn) (fun c hc => ?_) (List.Nodup.of_map _ hs.nodup)
  have hm : some c ∈ cs.map some := List.mem_map_of_mem hc
  have hne : c ≠ "" := fun he => hs.nonempty (he ▸ hm)
  have hx : c.toList.all Lexeme.isQuotable := hq _ hm
  rw [isWritable, hx, Bool.and_true]
  simpa using hne

-- Only the source of a transition has links with conditions, which are the patterns of its clauses.
theorem linksFit (h : Block d f) (hd : d.Normal) (hn : f.ids.Nodup) (hw : Wired g f x)
    (ht : d.Throughout TaskMention.Named fun ps => Selective ps ∧ ∀ p ∈ ps, Quotable p) :
    ∀ n ∈ f.nodes, g.LinksFit n := by
  let M := fun d : Definition => d.Normal ∧
    d.Throughout TaskMention.Named fun ps => Selective ps ∧ ∀ p ∈ ps, Quotable p
  refine wired_induct (P := fun d f _ => M d → ∀ n ∈ f.nodes, g.LinksFit n)
    (Q := fun ds f _ => (∀ d ∈ ds, M d) → ∀ n ∈ f.nodes, g.LinksFit n)
    ?task ?step ?append ?sequence ?split ?transition h hn hw ⟨hd, ht⟩
  case task =>
    intro t n x _ hw _
    refine List.forall_mem_singleton.mpr (.plain ?_)
    simp [hw.outgoing_node]
  case step => exact fun h hm => h (List.forall_mem_singleton.mp hm)
  case append =>
    intro ds es f f' x h h' hm
    rw [List.forall_mem_append] at hm
    exact List.forall_mem_append.mpr ⟨h hm.1, h' hm.2⟩
  case sequence =>
    intro ds f x h ⟨hd, ht⟩
    rw [throughout_sequence] at ht
    exact h fun d hm => ⟨(normal_sequence.mp hd).2.2 d hm, ht d hm⟩
  case split =>
    intro fork join x bs _ _ hc hn hw hi ⟨hd, ht⟩
    have ⟨_, hd⟩ := normal_split.mp hd
    rw [throughout_split, List.forall_mem_map] at ht
    rw [List.forall_mem_map] at hd
    refine List.forall_mem_append.mpr ⟨List.forall_mem_cons.mpr ⟨.plain ?_, ?_⟩,
      List.forall_mem_singleton.mpr (.plain ?_)⟩
    · rw [hw.outgoing_fork hc hn]
      exact List.forall_mem_map.mpr fun _ _ => rfl
    · rw [List.flatMap_map]
      exact List.forall_mem_flatMap.mpr fun b hm => hi b hm ⟨hd b hm, ht b hm⟩
    · simp [hw.outgoing_join hc hn]
  case transition =>
    intro t n x cs htask hc hn hw hi ⟨hd, ht⟩
    have ⟨hne, hsome, hd⟩ := normal_transition.mp hd
    have ⟨_, ⟨hsel, hq⟩, ht⟩ := throughout_transition.mp ht
    rw [List.forall_mem_map] at hd hsome ht
    rw [List.map_map] at hsel hq
    refine List.forall_mem_cons.mpr ⟨?_, ?_⟩
    · refine linksFit_source (Node.type_eq_task htask) ?_ (by simpa using hne) ?_ hsel hq
      · rw [hw.outgoing_source hc hn]
        simp [clauseLink, Function.comp_def]
      · exact List.forall_mem_map.mpr hsome
    · rw [List.flatMap_map]
      exact List.forall_mem_flatMap.mpr fun c hm => hi c hm ⟨hd c hm, ht c hm⟩

end Block

theorem Definition.Normal.mentions_ne_nil (h : d.Normal) : d.mentions ≠ [] := by
  induction h
  case task => simp
  case sequence ds hl _ _ hi =>
    have ⟨d, hd⟩ := List.exists_mem_of_length_pos (Nat.lt_of_lt_of_le Nat.two_pos hl)
    rw [mentions_sequence]
    exact fun hn => hi d hd (List.flatMap_eq_nil_iff.mp hn d hd)
  case split ds hn _ hi =>
    have ⟨d, hd⟩ := List.exists_mem_of_ne_nil ds hn
    rw [mentions_split]
    exact fun hn => hi d hd (List.flatMap_eq_nil_iff.mp hn d hd)
  case transition => simp

namespace Drawn

section Links

variable (h : Drawn d f)

include h

theorem ids_whole_nodup : f.whole.ids.Nodup :=
  h.nodup

theorem ids_nodup : f.ids.Nodup :=
  (List.nodup_cons.mp (List.nodup_cons.mp h.nodup).2).2

theorem closed : f.Closed :=
  h.block.closed h.ids_nodup

theorem start_notMem : "START" ∉ f.ids := fun hm =>
  (List.nodup_cons.mp h.nodup).1 (List.mem_cons_of_mem _ hm)

theorem finish_notMem : "END" ∉ f.ids :=
  (List.nodup_cons.mp (List.nodup_cons.mp h.nodup).2).1

theorem outgoing_start : f.whole.outgoing "START" = [{ source := "START", target := f.entry }] := by
  simp [whole, outgoing, anchored, startNode, h.closed.filter_links_of_notMem h.start_notMem,
    h.closed.filter_exitsTo_of_notMem h.start_notMem]

theorem outgoing_finish : f.whole.outgoing "END" = [] := by
  simp [whole, outgoing, anchored, startNode, h.closed.filter_links_of_notMem h.finish_notMem,
    h.closed.filter_exitsTo_of_notMem h.finish_notMem]

theorem placed : Placed f.whole "END" f "END" where
  nodes _ hn := List.mem_cons_of_mem _ (List.mem_cons_of_mem _ hn)
  outgoing id hi := by
    have hs : "START" ≠ id := fun he => h.start_notMem (he ▸ hi)
    simp [whole, Graph.outgoing, anchored, startNode, finishNode, out, hs]
  onwards := .here (by simpa [Graph.ids, whole, anchored, finishNode] using h.finish_notMem)

theorem incoming_start : f.whole.incoming "START" = [] := by
  refine List.eq_nil_iff_forall_not_mem.mpr fun l hl => ?_
  obtain ⟨hl, ht⟩ := mem_incoming.mp hl
  obtain hl | hl := List.mem_append.mp hl
  case inl => exact h.start_notMem (ht ▸ (h.closed.ends l hl).2)
  obtain rfl | hl := List.mem_cons.mp hl
  case inl => exact h.start_notMem (ht ▸ h.closed.entry)
  case inr =>
    have ⟨e, _, he⟩ := mem_exitsTo.mp hl
    subst he
    simp [finishNode] at ht

omit h in
theorem nodesWith_task : f.whole.nodesWith .task = f.nodes.filter (·.type == .task) :=
  rfl

end Links

theorem way (h : Drawn d f) (hd : d.Normal) (hi : id ∈ f.whole.ids) :
    Way f.whole.successors f.whole.ids "START" id ∧ Way f.whole.successors f.whole.ids id "END" := by
  have ht := h.block.tidy hd h.ids_nodup
  have hp := h.placed
  have hsub : "END" :: f.ids ⊆ f.whole.ids := List.subset_cons_self ..
  have hleave {id} (hi : id ∈ f.ids) : Way f.whole.successors f.whole.ids id "END" :=
    (hp.way_next ht hi).mono hsub
  have hentry : Way f.whole.successors f.whole.ids "START" f.entry := by
    refine .step List.mem_cons_self ?_ (.here (hp.ids ht.entry))
    rw [successors, h.outgoing_start]
    exact List.mem_singleton_self _
  have hreach {id} (hi : id ∈ f.ids) : Way f.whole.successors f.whole.ids "START" id :=
    hentry.trans ((hp.way (ht.reached id hi)).mono hp.ids)
  have hacross := hentry.trans (hleave ht.entry)
  obtain rfl | hi := List.mem_cons.mp hi
  case inl => exact ⟨.here List.mem_cons_self, hacross⟩
  obtain rfl | hi := List.mem_cons.mp hi
  case inl => exact ⟨hacross, .here hacross.target_mem⟩
  case inr => exact ⟨hreach hi, hleave hi⟩

theorem nodesWith_anchor {type : NodeType} (h : Drawn d f) (ht : type = .start ∨ type = .finish) :
    f.nodes.filter (·.type == type) = [] := by
  rw [List.filter_eq_nil_iff]
  intro n hn
  have := h.block.inner n hn
  obtain rfl | rfl := ht <;> simp [this]

-- Names and labels are those of the tasks that the definition mentions. Links and ways are those of
-- the subgraph, which the anchors only prolong.
theorem sound (h : Drawn d f) (hd : d.WellFormed) : f.whole.Sound startNode finishNode where
  ids := h.ids_whole_nodup
  nodesWith_start := congrArg _ (h.nodesWith_anchor (.inl rfl))
  nodesWith_finish := congrArg _ (h.nodesWith_anchor (.inr rfl))
  ends := by
    have hi : f.ids ⊆ f.whole.ids := h.placed.ids
    have hs : "START" ∈ f.whole.ids := List.mem_cons_self
    have hf : "END" ∈ f.whole.ids := h.placed.next_mem.1
    refine List.forall_mem_append.mpr ⟨fun l hl => ?_, List.forall_mem_cons.mpr ⟨?_, ?_⟩⟩
    · exact ⟨hi (h.closed.ends l hl).1, hi (h.closed.ends l hl).2⟩
    · exact ⟨hs, hi h.closed.entry⟩
    · exact List.forall_mem_map.mpr fun e he => ⟨hi (h.closed.exits e he), hf⟩
  incoming := h.incoming_start
  outgoing := h.outgoing_finish
  nameable := by
    intro n hn
    have hm : n.attributes ∈ d.mentions.map (·.attributes) := by
      rw [← h.block.tasks]
      exact List.mem_map_of_mem hn
    obtain ⟨t, ht, ha⟩ := List.mem_map.mp hm
    have hx := hd.writable.named t ht
    have hname : n.name = some t.name := congrArg Attributes.name ha.symm
    have hlabel : n.label = t.label := (congrArg Attributes.label ha.symm).trans hx.filter_label
    exact ⟨by simp [hname, hx.name], hlabel ▸ hx.label⟩
  labels := by
    have hl : (f.nodes.filter (·.type == .task)).filterMap (·.label) = d.labels := by
      have := congrArg (·.filterMap Attributes.label) h.block.tasks
      simp only [List.filterMap_map] at this
      refine this.trans (List.filterMap_congr fun t ht => ?_)
      exact (hd.writable.named t ht).filter_label
    exact hl ▸ hd.labels
  tasks hn := by
    have := h.block.tasks
    rw [← nodesWith_task, hn] at this
    exact hd.normal.mentions_ne_nil (List.map_eq_nil_iff.mp this.symm)
  links := by simp [whole, anchored]
  linksFit := by
    have ht : d.Throughout TaskMention.Named fun ps => Selective ps ∧ ∀ p ∈ ps, Quotable p :=
      ⟨hd.writable.named, fun ps hp => ⟨hd.selective ps hp, hd.writable.quotable ps hp⟩⟩
    refine List.forall_mem_cons.mpr ⟨.plain ?_, List.forall_mem_cons.mpr ⟨.plain ?_, ?_⟩⟩
    · simp [startNode, h.outgoing_start]
    · simp [finishNode, h.outgoing_finish]
    · exact h.block.linksFit hd.normal h.ids_nodup h.placed.toWired ht
  reachable id hi := mem_explore_of_way (List.mem_singleton_self _) (h.way hd.normal hi).1
  leading id hi := by
    refine mem_explore_of_way (List.mem_singleton_self _) ((h.way hd.normal hi).2.reverse ?_)
    exact fun x y hy => mem_predecessors.mpr hy

-- Behind the start the walk goes through the subgraph, and the end is left.
theorem walk_eq_ok_iff (h : Drawn d f) (hd : d.WellFormed) (hl : 0 ≤ limit) {left : List Node} :
    walk (f.whole.terrain "END" limit) ⟨[], { stop := "END" }, "START"⟩ f.whole.nodes
        = .ok (d', left) ↔
      Walkable limit 0 0 d ∧ d' = d.canonical ∧ left = [finishNode] := by
  have hg := h.ids_whole_nodup
  have hstart : f.whole.nodes.find? (·.id == "START") = some startNode := rfl
  have herase : f.whole.nodes.erase startNode = finishNode :: f.nodes := List.erase_cons_head ..
  have hrest : (finishNode :: f.nodes).diff f.nodes = [finishNode] := by
    have hn : finishNode ∉ f.nodes := fun hm => h.finish_notMem (List.mem_map_of_mem hm)
    have hs : f.nodes.diff f.nodes = [] := List.eq_nil_iff_forall_not_mem.mpr fun n hm =>
      have hm := (List.Nodup.of_map _ h.ids_nodup).mem_sdiff_iff.mp hm
      hm.2 hm.1
    rw [List.cons_diff_of_not_mem hn, hs]
  let p : Position := ⟨[], { stop := "END" }, f.entry⟩
  have hready : Ready f.whole limit f p (finishNode :: f.nodes) :=
    ⟨rfl, List.subset_cons_self .., List.subset_cons_self .., h.finish_notMem, by simp [p]; omega⟩
  have hnamed : d.Throughout TaskMention.Named Selective := ⟨hd.writable.named, hd.selective⟩
  have hwalks : Walks f.whole "END" limit d f "END" :=
    h.block.walks hg hd.normal hnamed h.ids_nodup h.placed
  have hfinal : (p.behind d "END").Final :=
    ⟨by simp [Position.behind, p], rfl, by simp [Position.behind, p, Region.addAll_of_leads]⟩
  have hdef : (p.behind d "END").region.definition = d.canonical := by
    simp [Position.behind, p, Region.addAll_of_leads, Region.definition, canonical]
  rw [walk_of_visit (by simp) hstart (by simp [startNode]),
    visit_of_pass h.outgoing_start rfl (by simp [startNode]),
    Region.arrive_of_ne (by simp [startNode]), herase]
  refine (hwalks hready).trans (and_congr_right fun _ => ?_)
  rw [hrest, walk_of_final hfinal, hdef]
  simp [eq_comm]

-- The definition is found in its graph again in its canonical form, just if the walk and the text
-- stay within the limit.
theorem toDefinition_eq_ok_iff (h : Drawn d f) (hd : d.WellFormed) :
    f.whole.toDefinition limit = .ok d' ↔
      d' = d.canonical ∧ Walkable limit 0 0 d ∧ bracketDepth d.canonical.text ≤ limit := by
  rw [recovers_iff]
  constructor
  · rintro ⟨start, finish, left, hs, hw, hl, hb⟩
    have hs' := h.sound hd
    -- A graph has one pair of anchors only.
    have he : start = startNode ∧ finish = finishNode := by
      have h₁ := hs.nodesWith_start.symm.trans hs'.nodesWith_start
      have h₂ := hs.nodesWith_finish.symm.trans hs'.nodesWith_finish
      simpa using And.intro h₁ h₂
    obtain ⟨rfl, rfl⟩ := he
    have hlim : 0 ≤ limit := by omega
    have ⟨hx, he, _⟩ := (h.walk_eq_ok_iff hd hlim).mp hw
    exact ⟨he, hx, he ▸ hb⟩
  · rintro ⟨rfl, hx, hb⟩
    have hlim : 0 ≤ limit := by omega
    refine .intro startNode finishNode [finishNode] (h.sound hd)
      ((h.walk_eq_ok_iff hd hlim).mpr ⟨hx, rfl, rfl⟩) ?_ hb
    exact List.forall_mem_singleton.mpr rfl

theorem render_eq_ok_iff (h : Drawn d f) (hd : d.WellFormed) {text : String} :
    f.whole.render limit = .ok text ↔ text = d.canonical.text ∧ Walkable limit 0 0 d ∧
      bracketDepth d.canonical.text ≤ limit := by
  have hi (d' : Definition) : f.whole.toDefinition limit = .ok d' ↔ _ := h.toDefinition_eq_ok_iff hd
  rw [render]
  cases hx : f.whole.toDefinition limit
  case error =>
    simp only [hx, reduceCtorEq, false_iff] at hi
    simp only [Except.map, reduceCtorEq, false_iff]
    rintro ⟨_, hw⟩
    exact hi d.canonical ⟨rfl, hw⟩
  case ok d' =>
    obtain ⟨he, hw⟩ := (hi d').mp hx
    simp [Except.map, he, hw, eq_comm]

end Drawn

theorem Definition.WellFormed.drawn (h : d.WellFormed) :
    ∃ f, d.toGraph = .ok f.whole ∧ Drawn d f :=
  (h.normal.drawable fun t ht => isName_ne_empty (h.writable.named t ht).name).drawn

end TaskFlow
