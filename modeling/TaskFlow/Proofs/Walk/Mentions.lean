import TaskFlow.Proofs.Definition.Normal
import TaskFlow.Proofs.Graph.Demands
import TaskFlow.Proofs.Walk.Run

namespace TaskFlow.Graph

variable {m : Terrain} {p p' : Position} {left left' rest : List Node} {d : Definition} {n : Node}
  {r : Region} {f : FanOut} {fans : List FanOut}

def tasks (ns : List Node) : List TaskMention :=
  (ns.filter (·.type == .task)).map Node.task

def Region.mentions (r : Region) : List TaskMention :=
  r.parts.flatMap Definition.mentions ++ r.leads.map (·.node.task)

-- The tasks of a fan-out: its own one if it has clauses, and those before and in its branches.
def FanOut.mentions (f : FanOut) : List TaskMention :=
  (if f.conditional then [f.node.task] else []) ++ f.done.flatMap (·.2.mentions) ++ f.outer.mentions

def Position.mentions (p : Position) : List TaskMention :=
  p.region.mentions ++ p.fans.flatMap FanOut.mentions

section Perm

open List

theorem perm_of_count {xs ys : List TaskMention} (h : ∀ t, xs.count t = ys.count t) : xs ~ ys :=
  perm_iff_count.mpr h

theorem mentions_foldl_leads {ls : List Lead} : (ls.foldl
    (fun part lead => .transition lead.node.task [(some lead.condition, part)]) d).mentions
      = (ls.map (·.node.task)).reverse ++ d.mentions := by
  induction ls generalizing d
  case nil => rfl
  case cons hi => simp [hi]

theorem Region.add_mentions (r : Region) (d : Definition) :
    (r.add d).mentions ~ r.mentions ++ d.mentions := by
  refine perm_of_count fun t => ?_
  simp [Region.mentions, add, mentions_foldl_leads]
  omega

theorem Region.definition_mentions (r : Region) :
    r.definition.mentions ~ r.parts.flatMap Definition.mentions := by
  rw [definition, Definition.flatMap_inOrder Definition.mentions_sequence]
  exact (reverse_perm _).flatMap_right _

theorem FanOut.definition_mentions (f : FanOut) : f.definition.mentions
    ~ (if f.conditional then [f.node.task] else []) ++ f.done.flatMap (·.2.mentions) := by
  have hd : f.done.reverse.flatMap (·.2.mentions) ~ f.done.flatMap (·.2.mentions) :=
    (reverse_perm _).flatMap_right _
  cases hc : f.conditional
  case true => simpa [definition, hc] using hd
  case false => simpa [definition, hc, flatMap_map, ← map_reverse] using hd

theorem FanOut.close_mentions (f : FanOut) (d : Definition) :
    (f.close d).mentions ~ f.mentions ++ d.mentions := by
  have he : (f.close d).mentions = (if f.conditional then [f.node.task] else [])
      ++ (d.mentions ++ f.done.flatMap (·.2.mentions)) ++ f.outer.mentions := rfl
  refine perm_of_count fun t => ?_
  rw [he]
  simp [FanOut.mentions]
  omega

theorem Continued.mentions_perm (h : Continued m f fans p') :
    p'.mentions ~ f.mentions ++ fans.flatMap FanOut.mentions := by
  cases h
  case behind =>
    refine perm_of_count fun t => ?_
    have ha := (f.outer.add_mentions f.definition).count_eq t
    have hd := f.definition_mentions.count_eq t
    simp [Position.mentions, FanOut.mentions] at ha hd ⊢
    omega
  case branch => simp [Position.mentions, Region.mentions, FanOut.mentions, FanOut.begin]

theorem LinksFit.type_eq_task {l : Link} {c : String} (hf : m.graph.LinksFit n)
    (hl : l ∈ m.graph.outgoing n.id) (hc : l.condition = some c) : n.type = .task := by
  cases hf
  case plain h => simp [h l hl] at hc
  case conditional ht _ _ _ _ => exact ht

theorem tasks_of_task (h : n.type = .task) : tasks [n] = [n.task] := by
  simp [tasks, h]

theorem Region.arrive_mentions : (r.arrive n).mentions ~ r.mentions ++ tasks [n] := by
  rw [Region.arrive]
  split
  case isTrue h =>
    rw [tasks_of_task h]
    simpa using r.add_mentions (.task n.task)
  case isFalse h => simp [tasks, h]

-- The parts change places in the position, so the occurrences of each task are counted.
theorem Visited.mentions_perm (hf : m.graph.LinksFit n) (h : Visited m p n p') :
    p'.mentions ~ p.mentions ++ tasks [n] := by
  refine perm_of_count fun t => ?_
  cases h
  case lead l c hl hc _ _ =>
    rw [tasks_of_task (hf.type_eq_task (by simp [hl]) hc)]
    simp [Position.lead, Position.mentions, Region.mentions, count_cons]
    omega
  case select hc _ h =>
    obtain ⟨l, hl, hc⟩ := List.any_eq_true.mp hc
    obtain ⟨c, hc⟩ := Option.isSome_iff_exists.mp hc
    have hx := h.mentions_perm.count_eq t
    rw [tasks_of_task (hf.type_eq_task hl hc)]
    simp [selection, FanOut.mentions, Position.mentions, count_cons] at hx ⊢
    omega
  case pass hl hc ht =>
    have ha := (p.region.arrive_mentions (n := n)).count_eq t
    simp [Position.mentions] at ha ⊢
    omega
  case split hc ht h =>
    have ha := (p.region.arrive_mentions (n := n)).count_eq t
    have hx := h.mentions_perm.count_eq t
    simp [parallel, FanOut.mentions, Position.mentions] at ha hx ⊢
    omega

theorem Step.mentions_perm (hf : ∀ n ∈ left, m.graph.LinksFit n) (h : Step m p left p' left') :
    p'.mentions ++ tasks left' ~ p.mentions ++ tasks left := by
  refine perm_of_count fun t => ?_
  cases h
  case close f fans _ hf hc =>
    have ⟨hl, hc⟩ := closeRegion_cases hc
    have hx := hc.mentions_perm.count_eq t
    have ho := (f.close_mentions p.region.definition).count_eq t
    have hd := p.region.definition_mentions.count_eq t
    simp [Position.mentions, Region.mentions, hf, hl] at hx ho hd ⊢
    omega
  case visit n _ hn _ _ hv =>
    have hx := (visit_cases hv).mentions_perm (hf n hn) |>.count_eq t
    have hp : tasks left ~ tasks (n :: left.erase n) := ((perm_cons_erase hn).filter _).map _
    have hp := hp.count_eq t
    have hc : tasks (n :: left.erase n) = tasks [n] ++ tasks (left.erase n) := by
      simp only [tasks, ← map_append, ← filter_append]
      rfl
    rw [hc] at hp
    simp at hx hp ⊢
    omega

theorem Step.subset (h : Step m p left p' left') : left' ⊆ left := by
  cases h
  case close => exact Subset.refl _
  case visit => exact erase_subset

theorem walk_rest_subset (h : walk m p left = .ok (d, rest)) : rest ⊆ left := by
  have hs : ∀ {q ns q' ns'}, ns ⊆ left → Step m q ns q' ns' → ns' ⊆ left :=
    fun hl hs => List.Subset.trans hs.subset hl
  have ⟨_, hl, _⟩ := walk_invariant (I := fun _ ns => ns ⊆ left) hs (Subset.refl _) h
  exact hl

theorem walk_mentions_perm (hf : ∀ n ∈ left, m.graph.LinksFit n)
    (h : walk m p left = .ok (d, rest)) : d.mentions ++ tasks rest ~ p.mentions ++ tasks left := by
  let I := fun (q : Position) (ns : List Node) =>
    (∀ n ∈ ns, m.graph.LinksFit n) ∧ q.mentions ++ tasks ns ~ p.mentions ++ tasks left
  have hs : ∀ {q ns q' ns'}, I q ns → Step m q ns q' ns' → I q' ns' :=
    fun ⟨hf, hp⟩ hs => ⟨fun n hn => hf n (hs.subset hn), (hs.mentions_perm hf).trans hp⟩
  have ⟨q, ⟨_, hp⟩, hq, he⟩ := walk_invariant hs ⟨hf, .refl _⟩ h
  have hm : q.mentions = q.region.parts.flatMap Definition.mentions := by
    simp [Position.mentions, Region.mentions, hq.fans, hq.leads]
  rw [hm] at hp
  exact he ▸ (q.region.definition_mentions.append_right _).trans hp

end Perm

end TaskFlow.Graph
