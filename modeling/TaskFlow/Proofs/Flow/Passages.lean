import TaskFlow.Proofs.Definition.Structure
import TaskFlow.Proofs.Layout.Ids
import TaskFlow.Proofs.Render.Recovery

namespace TaskFlow

-- Whether a node only directs control between tasks.
def Node.Silent (n : Node) : Prop :=
  n.type = .fork ∨ n.type = .join

namespace Graph

variable {g g' : Graph} {n : Node} {v : String}

-- Whether control comes from one node to another by way of forks and joins only.
inductive Arrives (g : Graph) : String → String → Prop
  | here {n : Node} : n ∈ g.nodes → ¬ n.Silent → Arrives g n.id n.id
  | pass {n : Node} {l : Link} {v : String} : n ∈ g.nodes → n.Silent → l ∈ g.outgoing n.id →
    Arrives g l.target v → Arrives g n.id v

-- Whether a path leads from `u` to `v` whose first link has the condition `c` and whose inner nodes
-- are all forks or joins.
def Flow (g : Graph) (u : String) (c : Option String) (v : String) : Prop :=
  ∃ l ∈ g.outgoing u, l.condition = c ∧ g.Arrives l.target v

theorem arrives_of_not_silent (hg : g.ids.Nodup) (hn : n ∈ g.nodes) (hs : ¬ n.Silent) :
    g.Arrives n.id = (· = n.id) := by
  funext v
  refine propext ⟨fun h => ?_, ?_⟩
  · generalize hx : n.id = x at h
    cases h
    case here => rfl
    case pass hn' hs' _ _ =>
      rw [List.inj_on_of_nodup_map hg hn hn' hx] at hs
      exact absurd hs' hs
  · rintro rfl
    exact .here hn hs

theorem arrives_of_silent (hg : g.ids.Nodup) (hn : n ∈ g.nodes) (hs : n.Silent) :
    g.Arrives n.id v ↔ ∃ l ∈ g.outgoing n.id, g.Arrives l.target v := by
  constructor
  · intro h
    generalize hx : n.id = x at h
    cases h
    case here hn' hs' =>
      rw [List.inj_on_of_nodup_map hg hn hn' hx] at hs
      exact absurd hs hs'
    case pass l _ _ hl h => exact ⟨l, hl, h⟩
  · rintro ⟨l, hl, h⟩
    exact .pass hn hs hl h

theorem flow_of_single {l : Link} {c : Option String} {v : String} (h : g.outgoing n.id = [l]) :
    g.Flow n.id c v ↔ l.condition = c ∧ g.Arrives l.target v := by
  simp [Flow, h]

theorem flow_of_plain (h : ∀ l ∈ g.outgoing n.id, l.condition = none) :
    g.Flow n.id none v ↔ ∃ l ∈ g.outgoing n.id, g.Arrives l.target v :=
  exists_congr fun l => and_congr_right fun hl => by simp [h l hl]

theorem flow_iff_of_plain {c : Option String} (h : ∀ l ∈ g.outgoing n.id, l.condition = none) :
    g.Flow n.id c v ↔ c = none ∧ g.Flow n.id none v := by
  constructor
  · rintro ⟨l, hl, rfl, hv⟩
    exact ⟨h l hl, l, hl, h l hl, hv⟩
  · rintro ⟨rfl, hv⟩
    exact hv

theorem Sound.arrives_finish {start finish : Node} (hs : g.Sound start finish) :
    g.Arrives finish.id = (· = finish.id) :=
  arrives_of_not_silent hs.ids hs.finish_mem.1 (by simp [Node.Silent, hs.finish_mem.2])

-- A definition, the tasks of a graph that carry it out, in the order in which it mentions them, and
-- the tasks that control comes to first.
structure Passage where
  definition : Definition
  tasks : List Node
  entry : String → Prop

-- Whether a graph carries out a definition, behind which control goes on to the nodes `after`.
inductive Enacts (g : Graph) : Passage → (String → Prop) → Prop
  | task {t n after} : n.attributes = t.attributes →
    (∀ c v, g.Flow n.id c v ↔ c = none ∧ after v) → Enacts g ⟨.task t, [n], (· = n.id)⟩ after
  | nil {after} : Enacts g ⟨.sequence [], [], after⟩ after
  | cons {d ds ns ns' entry between after} : Enacts g ⟨d, ns, entry⟩ between →
    Enacts g ⟨.sequence ds, ns', between⟩ after →
    Enacts g ⟨.sequence (d :: ds), ns ++ ns', entry⟩ after
  | split {ps : List Passage} {after} : (∀ p ∈ ps, Enacts g p after) →
    Enacts g ⟨.split (ps.map (·.definition)), ps.flatMap (·.tasks), fun v => ∃ p ∈ ps, p.entry v⟩
      after
  | transition {t n} {cs : List (Option String × Passage)} {after} : n.attributes = t.attributes →
    (∀ c v, g.Flow n.id c v ↔ ∃ p ∈ cs, p.1 = c ∧ p.2.entry v) → (∀ c ∈ cs, Enacts g c.2 after) →
    Enacts g ⟨.transition t (cs.map fun c => (c.1, c.2.definition)), n :: cs.flatMap (·.2.tasks),
      (· = n.id)⟩ after

namespace Enacts

open Definition

variable {p p' : Passage} {d : Definition} {ds ds' : List Definition} {ns ns' : List Node}
  {entry between after after' : String → Prop}

theorem tasks_attributes (h : g.Enacts p after) :
    p.tasks.map (·.attributes) = p.definition.mentions.map (·.attributes) := by
  induction h
  case task h _ => simpa using h
  case nil => rfl
  case cons hi hi' =>
    simp only [mentions_sequence] at hi'
    simp [hi, hi']
  case split hi =>
    simp only [mentions_split, List.flatMap_map, List.map_flatMap]
    exact List.flatMap_congr hi
  case transition h _ _ hi =>
    simp only [mentions_transition, List.flatMap_map, List.map_cons, List.map_flatMap, h]
    exact congrArg _ (List.flatMap_congr hi)

theorem tasks_length (h : g.Enacts p after) :
    p.tasks.length = p.definition.mentions.length := by
  simpa using congrArg List.length h.tasks_attributes

section Sequence

theorem append (h : g.Enacts ⟨.sequence ds, ns, entry⟩ between)
    (h' : g.Enacts ⟨.sequence ds', ns', between⟩ after) :
    g.Enacts ⟨.sequence (ds ++ ds'), ns ++ ns', entry⟩ after := by
  induction ds generalizing ns entry
  case nil =>
    cases h
    exact h'
  case cons d ds hi =>
    cases h
    case cons hd hds =>
      rw [List.append_assoc]
      exact .cons hd (hi hds)

theorem single (h : g.Enacts ⟨d, ns, entry⟩ after) : g.Enacts ⟨.sequence [d], ns, entry⟩ after := by
  have := h.cons .nil
  rwa [List.append_nil] at this

theorem steps (h : g.Enacts ⟨d, ns, entry⟩ after) :
    g.Enacts ⟨.sequence d.steps, ns, entry⟩ after := by
  cases d
  case sequence => exact h
  all_goals exact h.single

theorem inOrder (h : g.Enacts ⟨.sequence ds, ns, entry⟩ after) :
    g.Enacts ⟨.inOrder ds, ns, entry⟩ after := by
  have hs : g.Enacts ⟨.sequence (ds.flatMap Definition.steps), ns, entry⟩ after := by
    induction ds generalizing ns entry
    case nil => exact h
    case cons hi =>
      cases h
      case cons hd hds => exact hd.steps.append (hi hds)
  unfold Definition.inOrder
  split
  case h_1 =>
    cases h
    case cons hd hnil =>
      cases hnil
      rwa [List.append_nil]
  case h_2 => exact hs

end Sequence

end Enacts

section Pairs

variable {α β γ : Type}

-- Two lists with the same images are made of pairs.
theorem exists_pairs {f : α → γ} {f' : β → γ} {xs : List α} {ys : List β}
    (h : ys.map f' = xs.map f) : ∃ zs : List (α × β),
      xs = zs.map (·.1) ∧ ys = zs.map (·.2) ∧ ∀ z ∈ zs, f' z.2 = f z.1 := by
  induction xs generalizing ys
  case nil =>
    cases List.map_eq_nil_iff.mp h
    exact ⟨[], rfl, rfl, List.forall_mem_nil _⟩
  case cons x xs hi =>
    cases ys
    case nil => cases h
    case cons y ys =>
      rw [List.map_cons, List.map_cons, List.cons.injEq] at h
      have ⟨zs, hx, hy, hz⟩ := hi h.2
      exact ⟨(x, y) :: zs, by rw [hx]; rfl, by rw [hy]; rfl, List.forall_mem_cons.mpr ⟨h.1, hz⟩⟩

theorem zip_flatMap {f : α → List β} {f' : α → List γ} {xs : List α}
    (h : ∀ x ∈ xs, (f x).length = (f' x).length) :
    (xs.flatMap f).zip (xs.flatMap f') = xs.flatMap fun x => (f x).zip (f' x) := by
  induction xs
  case nil => rfl
  case cons x xs hi =>
    rw [List.forall_mem_cons] at h
    simp [List.zip_append h.1, hi h.2]

end Pairs

-- Whether two sets of nodes have the same members, up to a relation between the nodes of two
-- graphs.
def Agree (R : String → String → Prop) (A A' : String → Prop) : Prop :=
  ∀ x x', R x x' → (A x ↔ A' x')

def Pairs (R : String → String → Prop) : Prop :=
  ∀ x x' y y', R x x' → R y y' → (x = y ↔ x' = y')

-- Every constructor gives the entry and the flow of a passage in terms of those of its parts and of
-- what comes after it, so nothing else can make a difference.
theorem Enacts.agree {R : String → String → Prop} {p p' : Passage} {after after' : String → Prop}
    (hR : Pairs R) (h : g.Enacts p after) (h' : g'.Enacts p' after')
    (hd : p'.definition = p.definition) (ha : Agree R after after')
    (hn : ∀ q ∈ p.tasks.zip p'.tasks, R q.1.id q.2.id) :
    Agree R p.entry p'.entry ∧
      ∀ q ∈ p.tasks.zip p'.tasks, ∀ c, Agree R (g.Flow q.1.id c) (g'.Flow q.2.id c) := by
  induction h generalizing p' after'
  case task n after _ hf =>
    cases h'
    case task n' _ hf' =>
      have hn : R n.id n'.id := hn (n, n') List.mem_cons_self
      refine ⟨fun x x' hx => hR _ _ _ _ hx hn, List.forall_mem_singleton.mpr fun c v v' hv => ?_⟩
      simp only [hf, hf', ha v v' hv]
    all_goals cases hd
  case nil =>
    cases h'
    case nil => exact ⟨ha, List.forall_mem_nil _⟩
    all_goals cases hd
  case cons hfirst hrest hi hi' =>
    cases h'
    case cons hfirst' hrest' =>
      cases hd
      -- The first step goes on to where the rest begins, so the rest comes first.
      have hl := hfirst.tasks_length.trans hfirst'.tasks_length.symm
      simp only [List.zip_append hl, List.forall_mem_append] at hn ⊢
      have ⟨hb, hf'⟩ := hi' hrest' rfl ha hn.2
      have ⟨he, hf⟩ := hi hfirst' rfl hb hn.1
      exact ⟨he, hf, hf'⟩
    all_goals cases hd
  case split ps after hps hi =>
    cases h'
    case split ps' hps' =>
      -- The branches of both passages are those of the same definition, so they come in pairs.
      obtain ⟨qs, rfl, rfl, hq⟩ := exists_pairs (Definition.split.inj hd)
      have hl : ∀ q ∈ qs, q.1.tasks.length = q.2.tasks.length := fun q hm => by
        rw [(hps _ (List.mem_map_of_mem hm)).tasks_length,
          (hps' _ (List.mem_map_of_mem hm)).tasks_length, hq q hm]
      simp only [List.flatMap_map, zip_flatMap hl, List.forall_mem_flatMap] at hn ⊢
      have hx q (hm : q ∈ qs) := hi q.1 (List.mem_map_of_mem hm) (hps' _ (List.mem_map_of_mem hm))
        (hq q hm) ha (hn q hm)
      refine ⟨fun x x' hxx => ?_, fun q hm => (hx q hm).2⟩
      simp only [List.mem_map, exists_exists_and_eq_and]
      exact exists_congr fun q => and_congr_right fun hm => (hx q hm).1 x x' hxx
    all_goals cases hd
  case transition t n cs after _ hf hcs hi =>
    cases h'
    case transition n' cs' _ hf' hcs' =>
      have ⟨_, hc⟩ := Definition.transition.inj hd
      obtain ⟨qs, rfl, rfl, hq⟩ := exists_pairs hc
      have hl : ∀ q ∈ qs, q.1.2.tasks.length = q.2.2.tasks.length := fun q hm => by
        rw [(hcs _ (List.mem_map_of_mem hm)).tasks_length,
          (hcs' _ (List.mem_map_of_mem hm)).tasks_length, (Prod.mk.inj (hq q hm)).2]
      simp only [List.flatMap_map, List.zip_cons_cons, zip_flatMap hl, List.forall_mem_cons,
        List.forall_mem_flatMap] at hn ⊢
      have hx q (hm : q ∈ qs) := hi q.1 (List.mem_map_of_mem hm) (hcs' _ (List.mem_map_of_mem hm))
        (Prod.mk.inj (hq q hm)).2 ha (hn.2 q hm)
      refine ⟨fun x x' hxx => hR _ _ _ _ hxx hn.1, fun c v v' hv => ?_, fun q hm => (hx q hm).2⟩
      simp only [hf, hf', List.mem_map, exists_exists_and_eq_and]
      refine exists_congr fun q => and_congr_right fun hm => ?_
      rw [(Prod.mk.inj (hq q hm)).1, (hx q hm).1 v v' hv]
    all_goals cases hd

end Graph

end TaskFlow
