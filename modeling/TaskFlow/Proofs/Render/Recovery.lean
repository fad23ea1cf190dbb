import TaskFlow.Graph.Render
import TaskFlow.Proofs.Graph.Acyclic
import TaskFlow.Proofs.Graph.Search
import TaskFlow.Proofs.Walk.Hollow

namespace TaskFlow.Graph

variable {g : Graph} {d : Definition} {limit : Int} {start finish n : Node}

-- Whether a graph meets all demands, the walk gives a definition and visits all nodes but the last,
-- and the text of the definition nests within the limit.
inductive Recovers (g : Graph) (limit : Int) (d : Definition) : Prop
  | intro (start finish left) : g.Sound start finish →
    walk (g.terrain finish.id limit) ⟨[], { stop := finish.id }, start.id⟩ g.nodes = .ok (d, left) →
    (∀ n ∈ left, n.type = .finish) → bracketDepth d.text ≤ limit → Recovers g limit d

theorem recovers_iff : g.toDefinition limit = .ok d ↔ g.Recovers limit d := by
  simp only [toDefinition]
  constructor
  case mp =>
    intro h
    cases ha : g.anchors <;> simp only [ha, bind, Except.bind] at h
    case error => cases h
    case ok a =>
      obtain ⟨start, finish⟩ := a
      split at h
      case h_1 => cases h
      case h_2 r hw =>
        obtain ⟨d', left⟩ := r
        have h := stopOn_bind_eq_ok.mp h
        have hd := stopOn_bind_eq_ok.mp h.2
        cases hd.2
        refine .intro start finish left (anchors_eq_ok.mp ha) hw (fun n hn => ?_) ?_
        · simpa using List.find?_eq_none.mp (Option.map_eq_none_iff.mp h.1) n hn
        · simpa using hd.1
  case mpr =>
    rintro ⟨start, finish, left, hs, hw, hl, hd⟩
    have hu : left.find? (·.type != .finish) = none := by simpa using hl
    rw [terrain] at hw
    rw [anchors_eq_ok.mpr hs]
    simp only [bind, Except.bind, hw]
    refine stopOn_bind_eq_ok.mpr ⟨by simp [hu], stopOn_bind_eq_ok.mpr ⟨?_, rfl⟩⟩
    simpa using hd

theorem exists_recovers_of_render {text : String} (h : g.render limit = .ok text) :
    ∃ d, g.Recovers limit d ∧ d.text = text := by
  rw [render] at h
  cases hd : g.toDefinition limit
  case error => simp [hd, Except.map] at h
  case ok d =>
    simp only [hd, Except.map, Except.ok.injEq] at h
    exact ⟨d, recovers_iff.mp hd, h⟩

theorem Sound.leading_way (hs : g.Sound start finish) {id : String} (hi : id ∈ g.ids) :
    Way g.successors g.ids id finish.id := by
  have ⟨x, hx, hw⟩ := way_of_mem_explore (hs.leading id hi)
  cases List.mem_singleton.mp hx
  exact hw.reverse fun x y hy => mem_predecessors.mp hy

theorem Sound.finish_mem (hs : g.Sound start finish) : finish ∈ g.nodes ∧ finish.type = .finish := by
  have : finish ∈ g.nodesWith .finish := by simp [hs.nodesWith_finish]
  simpa [nodesWith] using this

theorem Sound.start_mem (hs : g.Sound start finish) : start ∈ g.nodes ∧ start.type = .start := by
  have : start ∈ g.nodesWith .start := by simp [hs.nodesWith_start]
  simpa [nodesWith] using this

theorem Sound.eq_finish (hs : g.Sound start finish) (hn : n ∈ g.nodes) (ht : n.type = .finish) :
    n = finish := by
  have : n ∈ g.nodesWith .finish := by simp [nodesWith, hn, ht]
  simpa [hs.nodesWith_finish] using this

theorem Sound.firm (hs : g.Sound start finish) : (g.terrain finish.id limit).Firm where
  ids := hs.ids
  linksFit := hs.linksFit
  outgoing n hn ht ho := by
    have hw := hs.leading_way (List.mem_map_of_mem hn)
    generalize hx : finish.id = x at hw
    cases hw
    case here =>
      have := List.inj_on_of_nodup_map hs.ids hs.finish_mem.1 hn hx
      exact ht (this ▸ hs.finish_mem.2)
    case step hy _ =>
      have ho : g.outgoing n.id = [] := ho
      simp [successors, ho] at hy

theorem Nameable.name_eq (h : Nameable n) : n.name = some n.task.name := by
  have := h.name
  cases hn : n.name <;> simp [hn, Node.task] at this ⊢

theorem Nameable.named (h : Nameable n) : n.task.Named := by
  have hn := h.name
  rw [h.name_eq] at hn
  exact ⟨hn, h.label⟩

namespace Recovers

theorem mentions_perm (h : g.Recovers limit d) : d.mentions.Perm (tasks g.nodes) := by
  obtain ⟨_, _, left, hs, hw, hl, _⟩ := h
  have hp := walk_mentions_perm hs.linksFit hw
  have hx : tasks left = [] := by
    rw [tasks, List.map_eq_nil_iff, List.filter_eq_nil_iff]
    intro n hn
    simp [hl n hn]
  simpa [hx, Position.mentions, Region.mentions] using hp

theorem named (h : g.Recovers limit d) {t : TaskMention} (ht : t ∈ d.mentions) : t.Named := by
  have hm := h.mentions_perm.mem_iff.mp ht
  obtain ⟨_, _, _, hs, _, _, _⟩ := h
  obtain ⟨n, hn, rfl⟩ := List.mem_map.mp hm
  exact (hs.nameable n hn).named

theorem clausesOf (h : g.Recovers limit d) {ps : List (Option String)} (hp : ps ∈ d.patternLists) :
    Selective ps ∧ (∀ p ∈ ps, Quotable p) ∧ ∀ p ∈ ps, p.isSome := by
  obtain ⟨_, _, _, hs, hw, _, _⟩ := h
  have ⟨n, hn, hc⟩ := walk_patternLists hw hp
  exact (hs.linksFit n hn).clausesOf hc

theorem writable (h : g.Recovers limit d) : d.Writable :=
  ⟨fun _ => h.named, fun _ hp => (h.clausesOf hp).2.1⟩

theorem selective (h : g.Recovers limit d) : ∀ ps ∈ d.patternLists, Selective ps :=
  fun _ hp => (h.clausesOf hp).1

theorem labels_nodup (h : g.Recovers limit d) : d.labels.Nodup := by
  have hp := h.mentions_perm.filterMap (·.label)
  obtain ⟨_, _, _, hs, _, _, _⟩ := h
  have hl := hs.labels
  rw [Definition.labels, hp.nodup_iff, tasks, List.filterMap_map]
  exact hl

theorem ne_nil (h : g.Recovers limit d) : d ≠ .sequence [] := by
  have hp := h.mentions_perm
  obtain ⟨_, _, _, hs, _, _, _⟩ := h
  rintro rfl
  have hx : tasks g.nodes = [] := by simpa using hp
  exact hs.tasks (List.map_eq_nil_iff.mp hx)

end Recovers

end TaskFlow.Graph
