import TaskFlow.Proofs.Flow.Passages
import TaskFlow.Proofs.Graph.Isomorphism

namespace TaskFlow.Graph

variable {g g' : Graph} {n start finish start' finish' : Node} {ns ns' : List Node} {d : Definition}

-- Whether a mapping of nodes takes the tasks of a graph to those of another graph, one by one, and
-- the flow between the tasks and the two anchors to that between their images.
structure Mirrors (σ : Node → Node) (g g' : Graph) : Prop where
  bijective : Set.BijOn σ {n | n ∈ g.nodesWith .task} {n | n ∈ g'.nodesWith .task}
  name : ∀ n ∈ g.nodesWith .task, (σ n).name = n.name
  label : ∀ n ∈ g.nodesWith .task, (σ n).label = n.label
  start : ∀ n ∈ g.nodesWith .start, σ n ∈ g'.nodesWith .start
  finish : ∀ n ∈ g.nodesWith .finish, σ n ∈ g'.nodesWith .finish
  flow : ∀ u ∈ g.nodes, ¬ u.Silent → ∀ v ∈ g.nodes, ¬ v.Silent → ∀ c,
    g.Flow u.id c v.id ↔ g'.Flow (σ u).id c (σ v).id

theorem bijOn_of_map_eq {α : Type} {xs ys : List α} {σ : α → α} (h : xs.map σ = ys)
    (hn : ys.Nodup) : Set.BijOn σ {x | x ∈ xs} {y | y ∈ ys} := by
  subst h
  refine ⟨fun x hx => List.mem_map_of_mem hx, fun x hx y hy => ?_, fun y hy => ?_⟩
  · exact List.inj_on_of_nodup_map hn hx hy
  · exact List.mem_map.mp hy

section Stations

-- The nodes that control does not pass silently are the two anchors and the tasks.
theorem Sound.stations (hs : g.Sound start finish) (hp : ns.Perm (g.nodesWith .task)) :
    ((start :: finish :: ns).map (·.id)).Nodup ∧
      ∀ n, n ∈ start :: finish :: ns ↔ n ∈ g.nodes ∧ ¬ n.Silent := by
  have hm : ∀ n, n ∈ start :: finish :: ns ↔ n ∈ g.nodes ∧ ¬ n.Silent := by
    intro n
    have h₁ : n = start ↔ n ∈ g.nodesWith .start := by simp [hs.nodesWith_start]
    have h₂ : n = finish ↔ n ∈ g.nodesWith .finish := by simp [hs.nodesWith_finish]
    rw [List.mem_cons, List.mem_cons, hp.mem_iff, h₁, h₂]
    simp only [nodesWith, List.mem_filter, Node.Silent, beq_iff_eq]
    cases n.type <;> simp
  refine ⟨?_, hm⟩
  have hne {m : Node} (h : m.type ≠ .task) : m ∉ ns := fun hn => by
    have := hp.mem_iff.mp hn
    simp [nodesWith, h] at this
  have hn : (start :: finish :: ns).Nodup := by
    refine List.nodup_cons.mpr ⟨?_, List.nodup_cons.mpr ⟨hne (by simp [hs.finish_mem.2]), ?_⟩⟩
    · rw [List.mem_cons, not_or]
      refine ⟨fun he => ?_, hne (by simp [hs.start_mem.2])⟩
      have := hs.start_mem.2
      simp [he, hs.finish_mem.2] at this
    · exact hp.nodup_iff.mpr ((List.Nodup.of_map _ hs.ids).filter _)
  refine hn.map_on fun x hx y hy he => ?_
  exact List.inj_on_of_nodup_map hs.ids ((hm x).mp hx).1 ((hm y).mp hy).1 he

theorem Sound.flow_start (hs : g.Sound start finish) {c : Option String} {v : String} :
    g.Flow start.id c v ↔ c = none ∧ g.Flow start.id none v := by
  refine flow_iff_of_plain ((hs.linksFit start hs.start_mem.1).plain_of_ne ?_)
  simp [hs.start_mem.2]

theorem Sound.not_flow_finish (hs : g.Sound start finish) {c : Option String} {v : String} :
    ¬ g.Flow finish.id c v := by
  simp [Flow, hs.outgoing]

end Stations

theorem Enacts.exists_mirrors (hs : g.Sound start finish) (hs' : g'.Sound start' finish')
    (hp : ns.Perm (g.nodesWith .task)) (hp' : ns'.Perm (g'.nodesWith .task))
    (h : g.Enacts ⟨d, ns, g.Flow start.id none⟩ (· = finish.id))
    (h' : g'.Enacts ⟨d, ns', g'.Flow start'.id none⟩ (· = finish'.id)) :
    ∃ σ, Mirrors σ g g' := by
  have ⟨hn, hm⟩ := hs.stations hp
  have ⟨hn', _⟩ := hs'.stations hp'
  have hl : (start :: finish :: ns).length = (start' :: finish' :: ns').length := by
    simpa using h.tasks_length.trans h'.tasks_length.symm
  have ⟨σ, hσ⟩ := exists_map_eq (List.Nodup.of_map _ hn) hl
  have ⟨hstart, hfinish, hns⟩ : σ start = start' ∧ σ finish = finish' ∧ ns.map σ = ns' := by
    simpa using hσ
  -- The ids of the stations correspond as the stations do.
  let R := fun x x' => ∃ n ∈ start :: finish :: ns, n.id = x ∧ (σ n).id = x'
  have hR : Pairs R := by
    rintro _ _ _ _ ⟨x, hx, rfl, rfl⟩ ⟨y, hy, rfl, rfl⟩
    rw [← hσ, List.map_map] at hn'
    exact ⟨fun he => congrArg (fun n => (σ n).id) (List.inj_on_of_nodup_map hn hx hy he),
      fun he => congrArg (·.id) (List.inj_on_of_nodup_map hn' hx hy he)⟩
  have hzip : ns.zip ns' = ns.map fun n => (n, σ n) := by
    rw [← hns]
    simpa using List.zip_map' (f := id) (g := σ) (l := ns)
  have hfinish' : Agree R (· = finish.id) (· = finish'.id) := fun x x' hx =>
    hR _ _ _ _ hx ⟨finish, by simp, rfl, hfinish ▸ rfl⟩
  have ⟨hentry, hflow⟩ := h.agree hR h' rfl hfinish' (by
    rw [hzip]
    exact List.forall_mem_map.mpr fun n hn => ⟨n, by simp [hn], rfl, rfl⟩)
  rw [hzip, List.forall_mem_map] at hflow
  have hattributes : ∀ n ∈ ns, n.attributes = (σ n).attributes := by
    have := h.tasks_attributes.trans h'.tasks_attributes.symm
    simpa [← hns] using this
  refine ⟨σ, ?bijective, fun n hn => ?name, fun n hn => ?label, fun n hn => ?start, fun n hn => ?finish,
    ?flow⟩
  case bijective =>
    have := bijOn_of_map_eq hns (hp'.nodup_iff.mpr ((List.Nodup.of_map _ hs'.ids).filter _))
    simpa [hp.mem_iff, hp'.mem_iff] using this
  case name => exact congrArg Attributes.name (hattributes n (hp.mem_iff.mpr hn)).symm
  case label => exact congrArg Attributes.label (hattributes n (hp.mem_iff.mpr hn)).symm
  case start =>
    rw [hs.nodesWith_start, List.mem_singleton] at hn
    simp [hs'.nodesWith_start, hn, hstart]
  case finish =>
    rw [hs.nodesWith_finish, List.mem_singleton] at hn
    simp [hs'.nodesWith_finish, hn, hfinish]
  case flow =>
    intro u hu hus v hv hvs c
    have hv : R v.id (σ v).id := ⟨v, (hm v).mpr ⟨hv, hvs⟩, rfl, rfl⟩
    -- Nothing is behind the end, and what is behind the start and the tasks corresponds by `agree`.
    have hu := (hm u).mpr ⟨hu, hus⟩
    rw [List.mem_cons, List.mem_cons] at hu
    obtain rfl | rfl | hu := hu
    · rw [hstart, hs.flow_start, hs'.flow_start]
      exact and_congr_right fun _ => hentry _ _ hv
    · exact iff_of_false hs.not_flow_finish (hfinish ▸ hs'.not_flow_finish)
    · exact hflow u hu c _ _ hv

end TaskFlow.Graph
