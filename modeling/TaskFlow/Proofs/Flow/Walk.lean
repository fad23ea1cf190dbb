import TaskFlow.Proofs.Flow.Passages

namespace TaskFlow.Graph

-- Whether control that comes to a waiting task goes on to the next one, and from the innermost one
-- to the nodes `after`. Control comes to the nodes `before` at first.
inductive Waits (g : Graph) : List Lead → (String → Prop) → (String → Prop) → Prop
  | nil {after} : Waits g [] after after
  | cons {lead leads before after} : lead.node.attributes = lead.node.task.attributes →
    (∀ c v, g.Flow lead.node.id c v ↔ c = some lead.condition ∧ after v) →
    Waits g leads before (· = lead.node.id) → Waits g (lead :: leads) before after

-- Whether control that comes to the nodes `entry` passes what was walked of a region by way of the
-- tasks `ns`, and goes on to the nodes `after`.
inductive Region.Begun (g : Graph) (r : Region) (ns : List Node) (entry after : String → Prop) :
    Prop
  | intro {ms between} : g.Enacts ⟨.sequence r.parts.reverse, ms, entry⟩ between →
    g.Waits r.leads between after → ns.Perm (ms ++ r.leads.map (·.node)) →
    Region.Begun g r ns entry after

-- Whether control at the node of a fan-out comes to the nodes `heads` first, if its branches have
-- the given conditions and first nodes.
inductive Heads (g : Graph) (n : Node) (branches : List (Option String × (String → Prop))) :
    Bool → (String → Prop) → Prop
  | clauses : n.attributes = n.task.attributes →
    (∀ c v, g.Flow n.id c v ↔ ∃ b ∈ branches, b.1 = c ∧ b.2 v) → Heads g n branches true (· = n.id)
  | branches : Heads g n branches false fun v => ∃ b ∈ branches, b.2 v

-- Whether control that comes to the nodes `entry` passes what was walked of a fan-out by way of the
-- tasks `ns`. The branches that wait have the given conditions and first nodes.
inductive FanOut.Begun (g : Graph) (f : FanOut) (waiting : List (Option String × (String → Prop)))
    (ns : List Node) (entry : String → Prop) : Prop
  | intro (cs : List (Option String × Passage)) {ms heads} :
    f.done.reverse = cs.map (fun c => (c.1, c.2.definition)) →
    (∀ c ∈ cs, g.Enacts c.2 (g.Arrives f.join)) → f.outer.Begun g ms entry heads →
    g.Heads f.node (cs.map (fun c => (c.1, c.2.entry)) ++ waiting) f.conditional heads →
    ns.Perm (ms ++ (if f.conditional then [f.node] else []) ++ cs.flatMap (·.2.tasks)) →
    FanOut.Begun g f waiting ns entry

def FanOut.ahead (g : Graph) (f : FanOut) : List (Option String × (String → Prop)) :=
  f.todo.map fun c => (c.1, g.Arrives c.2)

-- Whether a region that begins at the nodes `entry` and ends at `stop` lies in a branch of the
-- first of some fan-outs, this one in a branch of the second, and so on. Control passes what was
-- walked around the region by way of the tasks `ns`. The outermost region begins at the nodes
-- `first`.
inductive Encloses (g : Graph) (finish : String) (first : String → Prop) :
    List FanOut → String → List Node → (String → Prop) → Prop
  | nil : Encloses g finish first [] finish [] first
  | cons {f fans ns ns' entry entry'} : f.Begun g ((f.condition, entry) :: f.ahead g) ns entry' →
    Encloses g finish first fans f.outer.stop ns' entry' →
    Encloses g finish first (f :: fans) f.join (ns ++ ns') entry

-- Whether control that comes to the nodes `first` passes what was walked up to a position by way of
-- the tasks `ns`, and goes on to the nodes `after`.
inductive Position.Begun (m : Terrain) (first : String → Prop) (p : Position)
    (after : String → Prop) : List Node → Prop
  | intro {ns ns' entry} : p.region.Begun m.graph ns entry after →
    Encloses m.graph m.finish first p.fans p.region.stop ns' entry →
    Begun m first p after (ns ++ ns')

-- The nodes that control is about to come to in front of a node: a task itself, or what lies behind
-- any other node.
inductive Meets (g : Graph) (n : Node) : (String → Prop) → Prop
  | task : n.attributes = n.task.attributes → Meets g n (· = n.id)
  | other : n.type ≠ .task → Meets g n (g.Flow n.id none)

variable {m : Terrain} {g : Graph} {p p' : Position} {left left' rest : List Node} {d : Definition}
  {n start finish : Node} {r : Region} {f : FanOut} {fans : List FanOut} {limit : Int}
  {ns ns' : List Node} {entry before after first : String → Prop}

section Region

theorem Waits.enacts {leads : List Lead} (h : g.Waits leads before entry)
    (hd : g.Enacts ⟨d, ns, entry⟩ after) : g.Enacts ⟨leads.foldl
      (fun part lead => .transition lead.node.task [(some lead.condition, part)]) d,
      (leads.map (·.node)).reverse ++ ns, before⟩ after := by
  induction h generalizing d ns
  case nil => exact hd
  case cons lead leads _ entry ha hf _ hi =>
    have hx : g.Enacts ⟨.transition lead.node.task [(some lead.condition, d)], lead.node :: ns,
        (· = lead.node.id)⟩ after := by
      have := @Enacts.transition g _ _ [(some lead.condition, ⟨d, ns, entry⟩)] after ha
        (by simpa [eq_comm] using hf) (List.forall_mem_singleton.mpr hd)
      simpa using this
    simpa using hi hx

theorem Region.Begun.perm (h : r.Begun g ns entry after) (hp : ns'.Perm ns) :
    r.Begun g ns' entry after := by
  obtain ⟨hr, hw, hp'⟩ := h
  exact .intro hr hw (hp.trans hp')

theorem Region.begun {stop : String} : ({ stop } : Region).Begun g [] entry entry :=
  .intro .nil .nil (.refl _)

-- The leads end at the new part, so control comes to it by way of them.
theorem Region.Begun.add (h : r.Begun g ns entry before) (hd : g.Enacts ⟨d, ns', before⟩ after) :
    (r.add d).Begun g (ns ++ ns') entry after := by
  obtain ⟨hr, hw, hp⟩ := h
  have hx := hr.append (hw.enacts hd).single
  rw [← List.reverse_cons] at hx
  refine .intro hx .nil ((hp.append_right ns').trans ?_)
  simp only [Region.add, List.map_nil, List.append_nil, List.append_assoc]
  exact ((List.reverse_perm _).symm.append_right ns').append_left _

theorem Region.Begun.lead {c : String} (h : r.Begun g ns entry (· = n.id))
    (hn : n.attributes = n.task.attributes)
    (hf : ∀ c' v, g.Flow n.id c' v ↔ c' = some c ∧ after v) :
    { r with leads := ⟨n, c⟩ :: r.leads }.Begun g (ns ++ [n]) entry after := by
  obtain ⟨hr, hw, hp⟩ := h
  refine .intro hr (.cons hn hf hw) ((hp.append_right [n]).trans ?_)
  rw [List.append_assoc]
  exact (List.perm_append_singleton ..).append_left _

theorem Region.Begun.definition (h : r.Begun g ns entry after) (hl : r.leads = []) :
    ∃ ms, ms.Perm ns ∧ g.Enacts ⟨r.definition, ms, entry⟩ after := by
  obtain ⟨hr, hw, hp⟩ := h
  rw [hl] at hw hp
  cases hw
  exact ⟨_, by simpa using hp.symm, hr.inOrder⟩

theorem Region.Begun.arrive (h : r.Begun g ns entry before) (hn : g.Meets n before)
    (hc : ∀ l ∈ g.outgoing n.id, l.condition = none) :
    (r.arrive n).Begun g (ns ++ [n].filter (·.type == .task)) entry (g.Flow n.id none) := by
  rw [Region.arrive]
  cases hn
  case task hn =>
    have ht : n.type = .task := Node.type_eq_task hn
    rw [if_pos ht, List.filter_cons_of_pos (by simpa using ht)]
    exact h.add (.task hn fun c v => flow_iff_of_plain hc)
  case other hn =>
    rw [if_neg hn, List.filter_cons_of_neg (by simpa using hn)]
    simpa using h

end Region

section FanOut

variable {waiting : List (Option String × (String → Prop))}

-- Once no branch waits, the fan-out is a part of the region around it.
theorem FanOut.Begun.definition (h : f.Begun g [] ns entry) :
    (f.outer.add f.definition).Begun g ns entry (g.Arrives f.join) := by
  obtain ⟨cs, hd, hcs, hr, hh, hp⟩ := h
  rw [List.append_assoc] at hp
  rw [List.append_nil] at hh
  refine (hr.add ?_).perm hp
  rw [FanOut.definition, hd]
  generalize f.conditional = conditional at hh ⊢
  cases hh
  case clauses ha hf => exact .transition ha (fun c v => by simpa using hf c v) hcs
  case branches =>
    have := @Enacts.split g (cs.map (·.2)) _ (List.forall_mem_map.mpr hcs)
    simp only [List.map_map, List.flatMap_map, List.mem_map, exists_exists_and_eq_and] at this ⊢
    exact this

theorem FanOut.Begun.close (h : f.Begun g ((f.condition, before) :: waiting) ns entry)
    (hd : g.Enacts ⟨d, ns', before⟩ (g.Arrives f.join)) :
    (f.close d).Begun g waiting (ns ++ ns') entry := by
  obtain ⟨cs, hdone, hcs, hr, hh, hp⟩ := h
  refine .intro (cs ++ [(f.condition, ⟨d, ns', before⟩)]) ?_ ?_ hr ?_ ?_
  · simp [FanOut.close, hdone]
  · exact List.forall_mem_append.mpr ⟨hcs, List.forall_mem_singleton.mpr hd⟩
  · rw [List.map_append, List.append_assoc]
    exact hh
  · rw [List.flatMap_append, List.flatMap_singleton, ← List.append_assoc]
    exact hp.append_right ns'

theorem FanOut.Begun.begin {c : Option String} {target : String}
    {todo : List (Option String × String)} (h : f.Begun g (f.ahead g) ns entry)
    (ht : f.todo = (c, target) :: todo) :
    (f.begin c todo).Begun g ((c, g.Arrives target) :: (f.begin c todo).ahead g) ns entry := by
  obtain ⟨cs, hdone, hcs, hr, hh, hp⟩ := h
  rw [FanOut.ahead, ht] at hh
  exact .intro cs hdone hcs hr hh hp

end FanOut

section Position

theorem Continued.begun (h : Continued m f fans p')
    (hf : f.Begun m.graph (f.ahead m.graph) ns entry)
    (hfans : Encloses m.graph m.finish first fans f.outer.stop ns' entry) :
    p'.Begun m first (m.graph.Arrives p'.here) (ns ++ ns') := by
  cases h
  case behind ht =>
    rw [FanOut.ahead, ht] at hf
    exact .intro hf.definition hfans
  case branch c target todo ht _ _ =>
    have hfans : Encloses m.graph m.finish first (f.begin c todo :: fans) f.join (ns ++ ns')
        (m.graph.Arrives target) := .cons (hf.begin ht) hfans
    have := Position.Begun.intro (p := ⟨f.begin c todo :: fans, { stop := f.join }, target⟩)
      Region.begun hfans
    exact this

theorem Meets.eq_of_task (h : g.Meets n after) (ht : n.type = .task) :
    n.attributes = n.task.attributes ∧ after = (· = n.id) := by
  cases h
  case task hn => exact ⟨hn, rfl⟩
  case other hn => exact absurd ht hn

-- A task adds itself to what was walked, and any other node only its links: control comes to the
-- same nodes in front of it and behind it.
theorem Visited.begun (h : Visited m p n p') (hf : m.graph.LinksFit n)
    (hp : p.Begun m first after ns) (hn : m.graph.Meets n after) :
    ∃ ns', p'.Begun m first (m.graph.Arrives p'.here) ns' ∧
      ns'.Perm (ns ++ [n].filter (·.type == .task)) := by
  obtain ⟨hr, hfans⟩ := hp
  rename_i ns ns' entry
  have hperm {xs : List Node} : ((ns ++ xs) ++ ns').Perm ((ns ++ ns') ++ xs) := by
    rw [List.append_assoc, List.append_assoc]
    exact List.perm_append_comm.append_left ns
  have hfans' : Encloses m.graph m.finish first p.fans (p.region.arrive n).stop ns' entry := by
    rwa [Region.stop_arrive]
  have htask (ht : n.type = .task) : [n].filter (·.type == .task) = [n] :=
    List.filter_cons_of_pos (by simpa using ht)
  cases h
  case lead l c hl hc _ _ =>
    -- The task waits with its only condition, and what comes next is to stand behind it.
    have ht := hf.type_eq_task (by simp [hl]) hc
    obtain ⟨ha, rfl⟩ := hn.eq_of_task ht
    rw [htask ht]
    refine ⟨_, .intro (hr.lead ha fun c' v => ?_) hfans, hperm⟩
    rw [flow_of_single hl, hc, eq_comm]
    rfl
  case select hc _ h =>
    -- The task is that of the fan-out itself. Its links are put in another order, but none is lost.
    have ⟨l, hl, hs⟩ := List.any_eq_true.mp hc
    have ⟨c, hs⟩ := Option.isSome_iff_exists.mp hs
    have ht := hf.type_eq_task hl hs
    obtain ⟨ha, rfl⟩ := hn.eq_of_task ht
    rw [htask ht]
    refine ⟨_, h.begun (.intro [] rfl (List.forall_mem_nil _) hr ?_ ?_) hfans, hperm⟩
    · refine .clauses ha fun c v => ?_
      simp only [FanOut.ahead, selection, List.map_nil, List.nil_append, List.mem_map,
        exists_exists_and_eq_and, mem_orderedClauses]
      rfl
    · simp [selection]
  case pass l hl hc _ =>
    have hx := hr.arrive hn (by simp [hl, hc])
    have he : m.graph.Flow n.id none = m.graph.Arrives l.target := by
      funext v
      simp [flow_of_single hl, hc]
    rw [he] at hx
    exact ⟨_, .intro hx hfans', hperm⟩
  case split hc _ h =>
    -- A task with several links comes before the split that begins behind it.
    have hx := hr.arrive hn hc
    have he : m.graph.Flow n.id none = fun v => ∃ b ∈ (parallel m p n).ahead m.graph, b.2 v := by
      funext v
      simp [flow_of_plain hc, FanOut.ahead, parallel]
    rw [he] at hx
    refine ⟨_, h.begun (.intro [] rfl (List.forall_mem_nil _) hx .branches ?_) ?_, hperm⟩
    · simp [parallel]
    · exact hfans'

theorem tasks_perm_erase (hn : n ∈ left) : ([n].filter (·.type == .task)
    ++ (left.erase n).filter (·.type == .task)).Perm (left.filter (·.type == .task)) := by
  rw [← List.filter_append]
  exact ((List.perm_cons_erase hn).filter _).symm

-- What was walked up to a position is carried out by the graph, a step further on too.
theorem Step.begun (h : Step m p left p' left')
    (hm : ∀ n ∈ left, n.type ≠ .finish →
      m.graph.LinksFit n ∧ m.graph.Meets n (m.graph.Arrives n.id))
    (hp : p.Begun m first (m.graph.Arrives p.here) ns) :
    ∃ ns', p'.Begun m first (m.graph.Arrives p'.here) ns' ∧
      (ns' ++ left'.filter (·.type == .task)).Perm (ns ++ left.filter (·.type == .task)) := by
  cases h
  case close f fans hh hf hc =>
    have ⟨hl, hc⟩ := closeRegion_cases hc
    obtain ⟨hr, hfans⟩ := hp
    rw [hf] at hfans
    rw [hh] at hr
    -- The region ends where the innermost fan-out does.
    generalize p.region.stop = stop at hr hfans
    cases hfans
    case cons hfans hfan =>
      have ⟨ms, hms, hd⟩ := hr.definition hl
      refine ⟨_, hc.begun (hfan.close hd) hfans, List.Perm.append_right _ ?_⟩
      rw [← List.append_assoc]
      exact (List.perm_append_comm.trans (hms.append_right _)).append_right _
  case visit n hh hn hi ht hv =>
    have ⟨hf, hx⟩ := hm n hn ht
    rw [hi] at hx
    have ⟨ns', hb, hns⟩ := (visit_cases hv).begun hf hp hx
    refine ⟨ns', hb, (hns.append_right _).trans ?_⟩
    rw [List.append_assoc]
    exact (tasks_perm_erase hn).append_left ns

theorem Position.Begun.final (h : p.Begun m first (m.graph.Arrives p.here) ns) (hf : p.Final) :
    ∃ ms, ms.Perm ns ∧
      m.graph.Enacts ⟨p.region.definition, ms, first⟩ (m.graph.Arrives m.finish) := by
  obtain ⟨hr, hfans⟩ := h
  rw [hf.fans] at hfans
  rw [hf.here] at hr
  generalize p.region.stop = stop at hr hfans
  cases hfans
  rw [List.append_nil]
  exact hr.definition hf.leads

end Position

section Sound

theorem Nameable.attributes_eq (h : Nameable n) (ht : n.type = .task) :
    n.attributes = n.task.attributes := by
  rw [Node.attributes, TaskMention.attributes, h.named.filter_label, ht, h.name_eq]
  rfl

theorem Sound.meets (hs : g.Sound start finish) (hn : n ∈ g.nodes) (hst : n.type ≠ .start)
    (hft : n.type ≠ .finish) : g.Meets n (g.Arrives n.id) := by
  by_cases ht : n.type = .task
  case pos =>
    rw [arrives_of_not_silent hs.ids hn (by simp [Node.Silent, ht])]
    exact .task ((hs.nameable n (by simp [nodesWith, hn, ht])).attributes_eq ht)
  case neg =>
    have hsil : n.Silent := by
      cases hc : n.type <;> simp_all [Node.Silent]
    have he : g.Arrives n.id = g.Flow n.id none := by
      funext v
      rw [arrives_of_silent hs.ids hn hsil, flow_of_plain ((hs.linksFit n hn).plain_of_ne ht)]
    rw [he]
    exact .other ht

theorem Sound.type_ne_start (hs : g.Sound start finish) (hn : n ∈ g.nodes.erase start) :
    n.type ≠ .start := by
  intro ht
  have ⟨hne, hm⟩ := (List.Nodup.of_map _ hs.ids).mem_erase_iff.mp hn
  have : n ∈ g.nodesWith .start := by simp [nodesWith, hm, ht]
  exact hne (by simpa [hs.nodesWith_start] using this)

-- The first step leaves the start, behind which control comes to the first tasks.
theorem Sound.exists_begun (hs : g.Sound start finish)
    (hw : walk (g.terrain finish.id limit) ⟨[], { stop := finish.id }, start.id⟩ g.nodes
      = .ok (d, rest)) :
    ∃ p, p.Begun (g.terrain finish.id limit) (g.Flow start.id none) (g.Arrives p.here) [] ∧
      walk (g.terrain finish.id limit) p (g.nodes.erase start) = .ok (d, rest) := by
  obtain ⟨hf, _⟩ | ⟨p, left, hstep, hw⟩ := walk_cases hw
  case inl =>
    have := List.inj_on_of_nodup_map hs.ids hs.start_mem.1 hs.finish_mem.1 hf.here
    have ht := hs.finish_mem.2
    simp [← this, hs.start_mem.2] at ht
  case inr =>
    cases hstep
    case close hf _ => cases hf
    case visit n _ hn hi _ hv =>
      cases List.inj_on_of_nodup_map hs.ids hn hs.start_mem.1 hi
      have hne : start.type ≠ .task := by simp [hs.start_mem.2]
      have ⟨ns, hb, hns⟩ := (visit_cases hv).begun (hs.linksFit start hn)
        (.intro Region.begun .nil) (.other hne)
      rw [List.filter_cons_of_neg (by simpa using hne)] at hns
      cases hns.eq_nil
      exact ⟨p, hb, hw⟩

theorem Recovers.enacts (h : g.Recovers limit d) : ∃ start finish ns, g.Sound start finish ∧
    ns.Perm (g.nodesWith .task) ∧ g.Enacts ⟨d, ns, g.Flow start.id none⟩ (· = finish.id) := by
  obtain ⟨start, finish, left, hs, hw, hl, _⟩ := h
  have ⟨p, hp, hw⟩ := hs.exists_begun hw
  -- The tasks that were walked and those that are left are all tasks at any time.
  let I := fun (q : Position) (ls : List Node) => ls ⊆ g.nodes.erase start ∧
    ∃ ns, q.Begun (g.terrain finish.id limit) (g.Flow start.id none) (g.Arrives q.here) ns ∧
      (ns ++ ls.filter (·.type == .task)).Perm ((g.nodes.erase start).filter (·.type == .task))
  have hi : ∀ {q ls q' ls'}, I q ls → Step (g.terrain finish.id limit) q ls q' ls' → I q' ls' := by
    rintro q ls q' ls' ⟨hls, ns, hb, hns⟩ hstep
    have ⟨ns', hb', hns'⟩ := hstep.begun (fun n hn ht => by
      have hm := List.mem_of_mem_erase (hls hn)
      exact ⟨hs.linksFit n hm, hs.meets hm (hs.type_ne_start (hls hn)) ht⟩) hb
    exact ⟨List.Subset.trans hstep.subset hls, ns', hb', hns'.trans hns⟩
  have ⟨q, ⟨_, ns, hb, hns⟩, hf, he⟩ := walk_invariant hi ⟨List.Subset.refl _, [], hp, .refl _⟩ hw
  have ⟨ms, hms, hd⟩ := hb.final hf
  have hrest : left.filter (·.type == .task) = [] := by
    rw [List.filter_eq_nil_iff]
    intro n hn
    simp [hl n hn]
  rw [hrest, List.append_nil] at hns
  have htasks := tasks_perm_erase hs.start_mem.1
  rw [List.filter_cons_of_neg (by simp [hs.start_mem.2])] at htasks
  refine ⟨start, finish, ms, hs, hms.trans (hns.trans htasks), ?_⟩
  rw [he, ← hs.arrives_finish]
  exact hd

end Sound

end TaskFlow.Graph
