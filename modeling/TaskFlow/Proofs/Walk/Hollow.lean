import TaskFlow.Proofs.Definition.Hollow
import TaskFlow.Proofs.Walk.Patterns

namespace TaskFlow.Graph

open Definition

-- Whether control passes from one node to another by nodes that have no text of their own.
inductive PassesTo (g : Graph) : String → String → Prop
  | here {x} : PassesTo g x x
  | on {n l y} : n ∈ g.nodes → n.type = .start ∨ n.type = .join → g.outgoing n.id = [l] →
    PassesTo g l.target y → PassesTo g n.id y

-- Whether control fans out at a node: it has several links, or it is a fork.
def FansOut (g : Graph) (n : Node) : Prop :=
  n.type = .fork ∨ 2 ≤ (g.outgoing n.id).length

-- Whether a branch that leaves a node passes to its end by nodes that have no text.
def HollowAt (m : Terrain) (n : Node) : Prop :=
  m.graph.FansOut n ∧ ∃ l ∈ m.graph.outgoing n.id, m.graph.PassesTo l.target (m.branchesEnd n)

-- What the walk relies on: the links fit, no two nodes have the same id, and only the end has no
-- links that leave it.
structure Terrain.Firm (m : Terrain) : Prop where
  ids : m.graph.ids.Nodup
  linksFit : ∀ n ∈ m.graph.nodes, m.graph.LinksFit n
  outgoing : ∀ n ∈ m.graph.nodes, n.type ≠ .finish → m.graph.outgoing n.id ≠ []

variable {m : Terrain} {p p' : Position} {left left' rest : List Node} {d : Definition} {n : Node}
  {r : Region} {f : FanOut} {fans : List FanOut}

theorem Terrain.Firm.eq_of_id (hm : m.Firm) {n n' : Node} (h : n ∈ m.graph.nodes)
    (h' : n' ∈ m.graph.nodes) (hi : n.id = n'.id) : n = n' :=
  List.inj_on_of_nodup_map hm.ids h h' hi

theorem branchesEnd_of_task (h : n.type = .task) : m.branchesEnd n = m.postDominator n.id := by
  simp [Terrain.branchesEnd, h]

theorem mem_orderedClauses {ls : List Link} {c : Option String × String} :
    c ∈ orderedClauses ls ↔ ∃ l ∈ ls, (l.condition, l.target) = c := by
  simp [orderedClauses]
  grind

-- A node that control passes is visited without leaving a trace.
theorem PassesTo.next (hm : m.Firm) (hn : n ∈ m.graph.nodes) {y : String} (hy : n.id ≠ y)
    (h : m.graph.PassesTo n.id y) :
    (n.type = .start ∨ n.type = .join) ∧
      ∃ l, m.graph.outgoing n.id = [l] ∧ m.graph.PassesTo l.target y := by
  generalize hx : n.id = x at h
  cases h
  case here => exact absurd hx hy
  case on n' l hn' ht hl h =>
    cases hm.eq_of_id hn hn' hx
    exact ⟨ht, l, hl, h⟩

section Clean

def Region.Clean (r : Region) : Prop :=
  ∀ d ∈ r.parts, d.isStep ∧ d.Normal

-- Whether nothing in the branches of a fan-out is empty, and nothing will be.
structure FanOut.Clean (m : Terrain) (f : FanOut) : Prop where
  outer : f.outer.Clean
  done : ∀ c ∈ f.done, c.2.Normal ∧ (f.conditional → c.1.isSome)
  todo : ∀ c ∈ f.todo, ¬ m.graph.PassesTo c.2 f.join ∧ (f.conditional → c.1.isSome)

structure Position.Clean (m : Terrain) (p : Position) : Prop where
  region : p.region.Clean
  fans : ∀ f ∈ p.fans, f.Clean m ∧ (f.conditional → f.condition.isSome)
  here : p.fans ≠ [] → p.region.parts = [] → p.region.leads = [] →
    ¬ m.graph.PassesTo p.here p.region.stop

theorem isStep_foldl_leads {ls : List Lead} (h : d.isStep ∧ d.Normal) :
    (ls.foldl (fun part lead => .transition lead.node.task [(some lead.condition, part)]) d).isStep
      ∧ (ls.foldl (fun part lead => .transition lead.node.task [(some lead.condition, part)]) d).Normal := by
  induction ls generalizing d
  case nil => exact h
  case cons l ls hi => exact hi ⟨rfl, .transition (by simp) (by simp) (by simpa using h.2)⟩

theorem Region.Clean.add (hr : r.Clean) (h : d.isStep ∧ d.Normal) : (r.add d).Clean :=
  List.forall_mem_cons.mpr ⟨isStep_foldl_leads h, hr⟩

theorem Region.add_parts_ne_nil : (r.add d).parts ≠ [] := by
  simp [Region.add]

theorem Region.Clean.arrive (hr : r.Clean) : (r.arrive n).Clean := by
  rw [Region.arrive]
  split
  case isTrue  => exact hr.add ⟨rfl, .task _⟩
  case isFalse => exact hr

theorem Region.Clean.definition (hr : r.Clean) (h : r.parts ≠ []) : r.definition.Normal :=
  .inOrder (fun d hd => (hr d (List.mem_reverse.mp hd)).2) (by simpa using h)

theorem FanOut.Clean.definition (hf : f.Clean m) (h : f.done ≠ []) :
    f.definition.isStep ∧ f.definition.Normal := by
  cases hc : f.conditional
  case true =>
    have he : f.definition = .transition f.node.task f.done.reverse := by simp [FanOut.definition, hc]
    rw [he]
    refine ⟨rfl, .transition (by simpa using h) (fun c hm => ?_) fun c hm => ?_⟩
    · exact (hf.done c (List.mem_reverse.mp hm)).2 hc
    · exact (hf.done c (List.mem_reverse.mp hm)).1
  case false =>
    have he : f.definition = .split (f.done.reverse.map (·.2)) := by simp [FanOut.definition, hc]
    rw [he]
    refine ⟨rfl, .split (by simpa using h) (List.forall_mem_map.mpr fun c hm => ?_)⟩
    exact (hf.done c (List.mem_reverse.mp hm)).1

theorem Continued.clean (h : Continued m f fans p') (hf : f.Clean m)
    (hd : f.todo = [] → f.done ≠ [])
    (hfans : ∀ f ∈ fans, f.Clean m ∧ (f.conditional → f.condition.isSome)) : p'.Clean m := by
  cases h
  case behind ht =>
    exact ⟨hf.outer.add (hf.definition (hd ht)), hfans, fun _ hp => absurd hp Region.add_parts_ne_nil⟩
  case branch c target todo ht _ _ =>
    have ⟨hc, htodo⟩ := List.forall_mem_cons.mp (ht ▸ hf.todo)
    refine ⟨List.forall_mem_nil _, List.forall_mem_cons.mpr ⟨⟨?_, hc.2⟩, hfans⟩, fun _ _ _ => hc.1⟩
    exact ⟨hf.outer, hf.done, htodo⟩

theorem selection_clean (hn : ¬ HollowAt m n) (ht : n.type = .task)
    (hl : 2 ≤ (m.graph.outgoing n.id).length) (hx : m.graph.LinksFit n)
    (hc : (m.graph.outgoing n.id).any (·.hasCondition)) (hr : p.region.Clean) :
    (selection m p n).Clean m := by
  have ⟨_, _, hs⟩ := hx.clausesOf ⟨hc, rfl⟩
  refine ⟨hr, List.forall_mem_nil _, fun c hm => ⟨fun hp => hn ⟨.inr hl, ?_⟩, fun _ => ?_⟩⟩
  · obtain ⟨l, hl, rfl⟩ := mem_orderedClauses.mp hm
    exact ⟨l, hl, branchesEnd_of_task ht ▸ hp⟩
  · exact hs _ (List.mem_map.mpr ⟨c, hm, rfl⟩)

theorem parallel_clean (hn : ¬ HollowAt m n) (hf : m.graph.FansOut n) (hr : p.region.Clean) :
    (parallel m p n).Clean m := by
  refine ⟨hr.arrive, List.forall_mem_nil _, fun c hm => ⟨fun hp => hn ⟨hf, ?_⟩, nofun⟩⟩
  obtain ⟨l, hl, rfl⟩ := List.mem_map.mp hm
  exact ⟨l, hl, hp⟩

-- A visit makes nothing empty: a branch that begins has text in it, and what follows a single link
-- stands where the node stood.
theorem Visited.clean (hm : m.Firm) (hnodes : n ∈ m.graph.nodes) (hn : ¬ HollowAt m n)
    (hi : n.id = p.here) (ht : n.type ≠ .finish) (h : Visited m p n p') (hp : p.Clean m) :
    p'.Clean m := by
  have ho := hm.outgoing n hnodes ht
  cases h
  case lead => exact ⟨hp.region, hp.fans, fun _ _ hl => by cases hl⟩
  case select hc hl h =>
    have ⟨l, hmem, hs⟩ := List.any_eq_true.mp hc
    have ⟨c, hs⟩ := Option.isSome_iff_exists.mp hs
    have hx := hm.linksFit n hnodes
    refine h.clean ?_ (fun h => ?_) hp.fans
    · exact selection_clean hn (hx.type_eq_task hmem hs) (two_le_length ho hl) hx hc hp.region
    · have : (l.condition, l.target) ∈ (selection m p n).todo :=
        mem_orderedClauses.mpr ⟨l, hmem, rfl⟩
      simp [h] at this
  case pass l hl hc hf =>
    refine ⟨hp.region.arrive, hp.fans, fun hfans hparts hleads hpass => ?_⟩
    by_cases hk : n.type = .task
    case pos => simp [Region.arrive, hk, Region.add_parts_ne_nil] at hparts
    case neg =>
      simp only [Region.arrive, hk, if_false] at hparts hleads hpass
      refine hp.here hfans hparts hleads (hi ▸ .on hnodes ?_ hl hpass)
      cases hty : n.type <;> simp_all
  case split hc ht h =>
    have hf : m.graph.FansOut n := ht.imp_right (two_le_length ho)
    refine h.clean (parallel_clean hn hf hp.region) (fun h => ?_) hp.fans
    simp [parallel, ho] at h

theorem Step.clean (hm : m.Firm) (hl : left ⊆ m.graph.nodes)
    (hn : ∀ n ∈ m.graph.nodes, ¬ HollowAt m n) (h : Step m p left p' left') (hp : p.Clean m) :
    p'.Clean m := by
  cases h
  case close f fans hh hf hc =>
    have ⟨hleads, hc⟩ := closeRegion_cases hc
    have hfans := hp.fans
    rw [hf, List.forall_mem_cons] at hfans
    obtain ⟨⟨hcl, hs⟩, hfans⟩ := hfans
    have hparts : p.region.parts ≠ [] := fun h =>
      hp.here (by simp [hf]) h hleads (hh ▸ .here)
    refine hc.clean ⟨hcl.outer, List.forall_mem_cons.mpr ⟨⟨hp.region.definition hparts, hs⟩, hcl.done⟩,
      hcl.todo⟩ (fun _ => List.cons_ne_nil _ _) hfans
  case visit n _ hmem hi ht hv =>
    exact (visit_cases hv).clean hm (hl hmem) (hn n (hl hmem)) hi ht hp

-- Where no branch is without text, nothing is empty, or there is nothing at all.
theorem walk_normal {start stop : String} (hm : m.Firm) (hl : left ⊆ m.graph.nodes)
    (hn : ∀ n ∈ m.graph.nodes, ¬ HollowAt m n)
    (hw : walk m ⟨[], { stop }, start⟩ left = .ok (d, rest)) : d.Normal ∨ d = .sequence [] := by
  let I := fun (q : Position) (ns : List Node) => ns ⊆ m.graph.nodes ∧ q.Clean m
  have hs : ∀ {q ns q' ns'}, I q ns → Step m q ns q' ns' → I q' ns' := fun ⟨hl, hi⟩ hs =>
    ⟨fun n hn => hl (hs.subset hn), hs.clean hm hl hn hi⟩
  have hi : Position.Clean m ⟨[], { stop }, start⟩ :=
    ⟨List.forall_mem_nil _, List.forall_mem_nil _, fun h => absurd rfl h⟩
  have ⟨q, ⟨_, hq⟩, hf, he⟩ := walk_invariant hs ⟨hl, hi⟩ hw
  by_cases hp : q.region.parts = []
  case pos => exact .inr (by simp [he, Region.definition, hp, inOrder])
  case neg => exact .inl (he ▸ hq.region.definition hp)

end Clean

section Haunted

-- Whether something in the branches of a fan-out is empty, or will be.
inductive FanOut.Haunted (m : Terrain) (f : FanOut) : Prop
  | outer {d : Definition} : d ∈ f.outer.parts → d.Hollow → Haunted m f
  | done {c : Clause} : c ∈ f.done → c.2 = .sequence [] ∨ c.2.Hollow → Haunted m f
  | todo {c : Option String × String} : c ∈ f.todo → m.graph.PassesTo c.2 f.join → Haunted m f

inductive Position.Haunted (m : Terrain) (p : Position) : Prop
  | part {d : Definition} : d ∈ p.region.parts → d.Hollow → Haunted m p
  | fan {f : FanOut} : f ∈ p.fans → f.Haunted m → Haunted m p
  | here : p.fans ≠ [] → p.region.parts = [] → p.region.leads = [] →
    m.graph.PassesTo p.here p.region.stop → Haunted m p

theorem hollow_foldl_leads {ls : List Lead} (h : d.Hollow) : (ls.foldl
    (fun part lead => .transition lead.node.task [(some lead.condition, part)]) d).Hollow := by
  induction ls generalizing d
  case nil => exact h
  case cons l ls hi =>
    exact hi (.transition (c := (some l.condition, d)) (by simp) h)

theorem exists_hollow_step (h : d.Hollow) : ∃ s ∈ d.steps, s.Hollow := by
  cases h
  case sequence hm h => exact ⟨_, hm, h⟩
  case branch h => exact ⟨_, List.mem_singleton_self _, .branch h⟩
  case target h => exact ⟨_, List.mem_singleton_self _, .target h⟩
  case split hm h => exact ⟨_, List.mem_singleton_self _, .split hm h⟩
  case transition hm h => exact ⟨_, List.mem_singleton_self _, .transition hm h⟩

theorem hollow_inOrder {ds : List Definition} (hd : d ∈ ds) (h : d.Hollow) : (inOrder ds).Hollow := by
  unfold inOrder
  split
  case h_1 => exact List.mem_singleton.mp hd ▸ h
  case h_2 =>
    have ⟨s, hs, h⟩ := exists_hollow_step h
    exact .sequence (List.mem_flatMap.mpr ⟨d, hd, hs⟩) h

theorem hollow_definition {c : Clause} (hm : c ∈ f.done) (h : c.2 = .sequence [] ∨ c.2.Hollow) :
    f.definition.Hollow := by
  have hr := List.mem_reverse.mpr hm
  cases hc : f.conditional
  case true =>
    simp only [FanOut.definition, hc, if_true]
    obtain h | h := h
    case inl => exact .target (p := c.1) (h ▸ hr)
    case inr => exact .transition hr h
  case false =>
    simp only [FanOut.definition, hc]
    have hr : c.2 ∈ f.done.reverse.map (·.2) := List.mem_map_of_mem hr
    obtain h | h := h
    case inl => exact .branch (h ▸ hr)
    case inr => exact .split hr h

theorem exists_hollow_arrive (hm : d ∈ r.parts) : d ∈ (r.arrive n).parts := by
  rw [Region.arrive]
  split
  case isTrue  => exact List.mem_cons_of_mem _ hm
  case isFalse => exact hm

-- A hollow branch does not get lost: it becomes a part, stays in a fan-out, or is begun next.
theorem Continued.haunted (h : Continued m f fans p')
    (hh : f.Haunted m ∨ ∃ f ∈ fans, f.Haunted m) : p'.Haunted m := by
  cases h
  case behind ht =>
    obtain hf | ⟨f', hm, hf⟩ := hh
    case inr => exact .fan hm hf
    case inl =>
      cases hf
      case outer hm h => exact .part (List.mem_cons_of_mem _ hm) h
      case done hm h => exact .part List.mem_cons_self (hollow_foldl_leads (hollow_definition hm h))
      case todo hm _ => simp [ht] at hm
  case branch c target todo ht _ _ =>
    obtain hf | ⟨f', hm, hf⟩ := hh
    case inr => exact .fan (List.mem_cons_of_mem _ hm) hf
    case inl =>
      cases hf
      case outer hm h => exact .fan List.mem_cons_self (.outer hm h)
      case done hm h => exact .fan List.mem_cons_self (.done hm h)
      case todo hm h =>
        rw [ht] at hm
        obtain rfl | hm := List.mem_cons.mp hm
        case inl => exact .here (List.cons_ne_nil _ _) rfl rfl h
        case inr => exact .fan List.mem_cons_self (.todo hm h)

-- What is empty stays so. Where a branch without text is being walked, the node is one that leaves
-- no trace in it.
theorem Visited.haunted (hm : m.Firm) (hnodes : n ∈ m.graph.nodes) (hi : n.id = p.here)
    (hs : p.here ≠ p.region.stop) (h : Visited m p n p') (hp : p.Haunted m) : p'.Haunted m := by
  have hx := hm.linksFit n hnodes
  cases hp
  case part d hd hh =>
    cases h
    case lead => exact .part hd hh
    case pass => exact .part (exists_hollow_arrive hd) hh
    case select h => exact h.haunted (.inl (.outer hd hh))
    case split h => exact h.haunted (.inl (.outer (exists_hollow_arrive hd) hh))
  case fan f hf hh =>
    cases h
    case lead => exact .fan hf hh
    case pass => exact .fan hf hh
    case select h => exact h.haunted (.inr ⟨f, hf, hh⟩)
    case split h => exact h.haunted (.inr ⟨f, hf, hh⟩)
  case here hfans hparts hleads hpass =>
    have ⟨ht, l, hl, hpass⟩ := PassesTo.next hm hnodes (hi ▸ hs) (hi ▸ hpass)
    have hk : n.type ≠ .task ∧ n.type ≠ .fork := by
      obtain ht | ht := ht
      all_goals simp [ht]
    cases h
    case lead l' c hl' hc _ _ => exact absurd (hx.type_eq_task (by simp [hl']) hc) hk.1
    case select hlen _ => simp [hl] at hlen
    case split ht' h => simp [hl, hk.2] at ht'
    case pass l' hl' _ _ =>
      cases hl.symm.trans hl'
      refine .here hfans ?_ ?_ ?_
      all_goals simpa [Region.arrive, hk.1]

theorem Visited.haunted_of_hollowAt (hm : m.Firm) (hnodes : n ∈ m.graph.nodes)
    (h : Visited m p n p') (hn : HollowAt m n) : p'.Haunted m := by
  have hx := hm.linksFit n hnodes
  obtain ⟨hf, l, hl, hp⟩ := hn
  cases h
  case lead l' c hl' hc _ _ =>
    have := hx.type_eq_task (by simp [hl']) hc
    simp [FansOut, hl', this] at hf
  case pass l' hl' _ ht => simp [FansOut, hl', ht] at hf
  case select hc _ h =>
    have ⟨l', hl', hc⟩ := List.any_eq_true.mp hc
    have ⟨c, hc⟩ := Option.isSome_iff_exists.mp hc
    rw [branchesEnd_of_task (hx.type_eq_task hl' hc)] at hp
    exact h.haunted (.inl (.todo (mem_orderedClauses.mpr ⟨l, hl, rfl⟩) hp))
  case split h => exact h.haunted (.inl (.todo (List.mem_map.mpr ⟨l, hl, rfl⟩) hp))

theorem haunted_closed (hp : p.Haunted m) (hf : p.fans = f :: fans) :
    (f.close p.region.definition).Haunted m ∨ ∃ f ∈ fans, f.Haunted m := by
  cases hp
  case part hd hh =>
    exact .inl (.done List.mem_cons_self (.inr (hollow_inOrder (List.mem_reverse.mpr hd) hh)))
  case here hparts _ _ =>
    refine .inl (.done List.mem_cons_self (.inl ?_))
    simp [Region.definition, hparts, inOrder]
  case fan f' hm hh =>
    rw [hf] at hm
    obtain rfl | hm := List.mem_cons.mp hm
    case inr => exact .inr ⟨f', hm, hh⟩
    case inl =>
      cases hh
      case outer hm h => exact .inl (.outer hm h)
      case done hm h => exact .inl (.done (List.mem_cons_of_mem _ hm) h)
      case todo hm h => exact .inl (.todo hm h)

theorem Step.haunted (hm : m.Firm) (hl : left ⊆ m.graph.nodes) (h : Step m p left p' left')
    (hp : (∃ n ∈ left, HollowAt m n) ∨ p.Haunted m) :
    (∃ n ∈ left', HollowAt m n) ∨ p'.Haunted m := by
  cases h
  case close f fans _ hf hc =>
    exact hp.imp_right fun hp => (closeRegion_cases hc).2.haunted (haunted_closed hp hf)
  case visit n hs hmem hi ht hv =>
    have hv := visit_cases hv
    obtain ⟨n', hmem', hn⟩ | hp := hp
    case inr => exact .inr (hv.haunted hm (hl hmem) hi hs hp)
    case inl =>
      by_cases he : n' = n
      case pos => exact .inr (hv.haunted_of_hollowAt hm (hl hmem) (he ▸ hn))
      case neg => exact .inl ⟨n', (List.mem_erase_of_ne he).mpr hmem', hn⟩

-- A branch without text leaves something empty, unless it is never come to.
theorem walk_hollow {start stop : String} (hm : m.Firm) (hl : left ⊆ m.graph.nodes)
    (hn : ∃ n ∈ left, HollowAt m n) (hw : walk m ⟨[], { stop }, start⟩ left = .ok (d, rest)) :
    (∃ n ∈ rest, HollowAt m n) ∨ d.Hollow := by
  let I := fun (q : Position) (ns : List Node) =>
    ns ⊆ m.graph.nodes ∧ ((∃ n ∈ ns, HollowAt m n) ∨ q.Haunted m)
  have hs : ∀ {q ns q' ns'}, I q ns → Step m q ns q' ns' → I q' ns' := fun ⟨hl, hi⟩ hs =>
    ⟨fun n hn => hl (hs.subset hn), hs.haunted hm hl hi⟩
  have ⟨q, ⟨_, hq⟩, hf, he⟩ := walk_invariant hs ⟨hl, .inl hn⟩ hw
  refine hq.imp_right fun hq => ?_
  cases hq
  case part hd hh => exact he ▸ hollow_inOrder (List.mem_reverse.mpr hd) hh
  case fan hm _ => simp [hf.fans] at hm
  case here hfans _ _ _ => exact absurd hf.fans hfans

end Haunted

end TaskFlow.Graph
