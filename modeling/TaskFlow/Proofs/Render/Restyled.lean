import TaskFlow.Proofs.Render.Readable
import TaskFlow.Proofs.Render.Twins

namespace TaskFlow.Graph

def mentioned (g : Graph) : List String :=
  g.ids ++ g.links.flatMap fun l => [l.source, l.target]

-- Whether a graph is another one under new ids, with its nodes and links in another order, but with
-- the links that leave a node in the same order. Of a task the name and the label stay the same, of
-- any other node nothing but the type.
structure Restyled (σ : String → String) (g g' : Graph) : Prop where
  injective : ∀ x ∈ g.mentioned, ∀ y ∈ g.mentioned, σ x = σ y → x = y
  nodes : (g.nodes.map fun n => n.outlined.vertex.renamed σ).Perm
    (g'.nodes.map fun n => n.outlined.vertex)
  links : (g.links.map (·.renamed σ)).Perm g'.links
  outgoing : ∀ x ∈ g.ids, g'.outgoing (σ x) = (g.outgoing x).map (·.renamed σ)

variable {σ : String → String} {g g' : Graph} {k : Int} {t : String}

theorem mem_mentioned_of_mem_links {l : Link} (h : l ∈ g.links) :
    l.source ∈ g.mentioned ∧ l.target ∈ g.mentioned := by
  have hm {x} (hx : x ∈ [l.source, l.target]) : x ∈ g.mentioned :=
    List.mem_append_right _ (List.mem_flatMap.mpr ⟨l, h, hx⟩)
  exact ⟨hm (by simp), hm (by simp)⟩

theorem exists_sound_of_render (h : g.render k = .ok t) : ∃ start finish, g.Sound start finish :=
  have ⟨_, ⟨start, finish, _, hs, _, _, _⟩, _⟩ := exists_recovers_of_render h
  ⟨start, finish, hs⟩

theorem Twins.render_eq (h : Twins σ g g') (hr : g.render k = .ok t) : g'.render k = .ok t := by
  have ⟨d, hd, ht⟩ := exists_recovers_of_render hr
  rw [render, h.toDefinition_eq (recovers_iff.mpr hd)]
  exact congrArg _ ht

namespace Restyled

variable (h : Restyled σ g g')

include h

theorem map_ids : (g.ids.map σ).Perm g'.ids := by
  have := h.nodes.map (·.id)
  simpa [ids, Vertex.renamed, Node.vertex, Function.comp_def] using this

theorem twins : Twins σ g g' where
  injective x hx y hy := by
    rw [ids_outlined] at hx hy
    exact h.injective x (List.mem_append_left _ hx) y (List.mem_append_left _ hy)
  nodes := by
    simp only [outlined, List.map_map]
    exact h.nodes
  links := h.links
  clauses x hx := by rw [h.outgoing x hx, orderedClauses_renamed]

-- Ends of links that are no nodes do not become nodes, since other ids are kept apart as well.
theorem proper_of (hg : g'.Proper) : g.Proper where
  ids := (h.map_ids.nodup_iff.mpr hg.ids).of_map
  ends l hl := by
    have hm := mem_mentioned_of_mem_links hl
    have ⟨hs, ht⟩ := hg.ends _ (h.links.subset (List.mem_map_of_mem hl))
    have mem {x} (hx : x ∈ g.mentioned) (hi : σ x ∈ g'.ids) : x ∈ g.ids := by
      obtain ⟨y, hy, he⟩ := List.mem_map.mp (h.map_ids.mem_iff.mpr hi)
      exact h.injective y (List.mem_append_left _ hy) x hx he ▸ hy
    exact ⟨mem hm.1 hs, mem hm.2 ht⟩

-- New ids, another order and other details that do not show in a text change nothing.
theorem render_iff : g.render k = .ok t ↔ g'.render k = .ok t := by
  constructor
  case mp => exact h.twins.render_eq
  case mpr =>
    intro hr
    have ⟨_, _, hs⟩ := exists_sound_of_render hr
    have ⟨_, hback, _⟩ := h.twins.symm (h.proper_of hs.proper)
    exact hback.render_eq hr

end Restyled

-- `straightBranch` with ids that say nothing and details that do not show.
def numberedBranch : Graph where
  nodes := [⟨"5", .task, some "a", [("retries", "3")]⟩, ⟨"1", .start, some "begin", []⟩,
    ⟨"4", .join, none, []⟩, ⟨"3", .fork, none, [("label", "two ways")]⟩, ⟨"2", .finish, none, []⟩]
  links := [⟨"5", "2", none⟩, ⟨"3", "4", none⟩, ⟨"1", "3", none⟩, ⟨"3", "5", none⟩,
    ⟨"4", "2", none⟩]

def numberedId (id : String) : String :=
  ([("S", "1"), ("E", "2"), ("f", "3"), ("j", "4"), ("a", "5")].lookup id).getD id

theorem restyled_numberedBranch : Restyled numberedId straightBranch numberedBranch where
  injective := by decide
  nodes := by decide
  links := by decide
  outgoing := by decide

theorem render_numberedBranch : Restyled numberedId straightBranch numberedBranch ∧
    straightBranch.render 1 = .ok "< || a>" ∧ numberedBranch.render 1 = .ok "< || a>" :=
  ⟨restyled_numberedBranch, render_straightBranch,
    restyled_numberedBranch.render_iff.mp render_straightBranch⟩

end TaskFlow.Graph
