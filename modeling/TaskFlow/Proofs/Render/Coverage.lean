import TaskFlow.Proofs.Render.Readable
import TaskFlow.Proofs.Walk.Tour

namespace TaskFlow.Graph

open RenderFault

variable {g : Graph} {d : Definition} {limit : Int} {start finish n : Node} {left order : List Node}
  {q : Position} {id : String}

def outset (start finish : Node) : Position :=
  ⟨[], { stop := finish.id }, start.id⟩

namespace Sound

variable (hs : g.Sound start finish)

include hs

theorem owed_outset_subset : (outset start finish).owed ⊆ g.ids := by
  have hm := List.mem_map_of_mem (f := (·.id)) hs.start_mem.1
  have hm' := List.mem_map_of_mem (f := (·.id)) hs.finish_mem.1
  simpa [outset, Position.owed] using ⟨hm, hm'⟩

-- From the start a tour comes to everything that can be reached.
theorem mem_order (ht : Tour (g.terrain finish.id limit) (outset start finish) g.nodes order q left)
    (hq : q.Final) (hi : id ∈ g.ids) : id ∈ order.map (·.id) ++ [finish.id] := by
  have ⟨s, hm, hw⟩ := way_of_mem_explore (hs.reachable id hi)
  rw [List.mem_singleton] at hm
  subst hm
  refine hw.preserves (fun x hx y hy => ?_) (ht.owed_subset .outermost hq List.mem_cons_self)
  obtain ⟨l, hl, rfl⟩ := List.mem_map.mp hy
  rw [List.mem_append, List.mem_singleton] at hx
  obtain hx | rfl := hx
  case inl =>
    obtain ⟨n, hn, rfl⟩ := List.mem_map.mp hx
    exact (ht.forward .outermost hq n hn l hl).subset (by simp)
  case inr => simp [hs.outgoing] at hl

theorem left_eq (ht : Tour (g.terrain finish.id limit) (outset start finish) g.nodes order q left)
    (hq : q.Final) : left = [finish] := by
  have hp := ht.perm
  have hn : ((order ++ left).map (·.id)).Nodup := (hp.map _).nodup_iff.mp hs.ids
  have hfinish : finish ∈ left := by
    refine (List.mem_append.mp (hp.mem_iff.mp hs.finish_mem.1)).resolve_left fun hm => ?_
    exact ht.type_ne_finish _ hm hs.finish_mem.2
  -- Everything but the end is reached from the start, and is visited therefore.
  have honly : ∀ n ∈ left, n = finish := by
    intro n hm
    have hg := hp.mem_iff.mpr (List.mem_append_right _ hm)
    have hi := hs.mem_order ht hq (List.mem_map_of_mem hg)
    rw [List.map_append, List.nodup_append] at hn
    obtain hi | hi := List.mem_append.mp hi
    case inl => exact absurd rfl (hn.2.2 _ hi _ (List.mem_map_of_mem hm))
    case inr => exact List.inj_on_of_nodup_map hs.ids hg hs.finish_mem.1 (List.mem_singleton.mp hi)
  have hl : left.Nodup := (List.nodup_append.mp (List.Nodup.of_map _ hn)).2.1
  refine List.perm_singleton.mp ((List.perm_ext_iff_of_nodup hl (List.nodup_singleton _)).mpr ?_)
  intro n
  rw [List.mem_singleton]
  exact ⟨honly n, fun he => he ▸ hfinish⟩

-- A walk that succeeds leaves nothing to complain of but the depth of the text.
theorem toDefinition_eq
    (hw : walk (g.terrain finish.id limit) (outset start finish) g.nodes = .ok (d, left))
    (hl : ∀ n ∈ left, n.type = .finish) : g.toDefinition limit =
      if limit < bracketDepth d.text then .error ⟨.textTooDeep (bracketDepth d.text) limit, none⟩
      else .ok d := by
  have hu : left.find? (·.type != .finish) = none := by simpa using hl
  rw [terrain, outset] at hw
  rw [toDefinition, anchors_eq_ok.mpr hs]
  simp only [bind, Except.bind, hw, hu, Option.map_none, stopOn]
  by_cases hd : limit < bracketDepth d.text
  case pos => simp only [if_pos hd]
  case neg => simp only [if_neg hd, pure, Except.pure]

-- A walk that succeeds visits every node but the last once, and comes to the target of a link after
-- its source, so that the graph has no cycle. Nothing is ever left unvisited.
theorem covered
    (hw : walk (g.terrain finish.id limit) (outset start finish) g.nodes = .ok (d, left)) :
    left = [finish] ∧ (∀ id, g.toDefinition limit ≠ .error ⟨.unvisited, id⟩) ∧ g.Acyclic ∧
      ∃ order q, Tour (g.terrain finish.id limit) (outset start finish) g.nodes order q left ∧
        q.Final ∧ (order ++ [finish]).Perm g.nodes ∧
        Forward ((order ++ [finish]).map (·.id)) g.links := by
  have ⟨order, q, ht, hq, _⟩ := exists_tour hw
  have hleft := hs.left_eq ht hq
  have hperm : (order ++ [finish]).Perm g.nodes := hleft ▸ ht.perm.symm
  have hforward : Forward ((order ++ [finish]).map (·.id)) g.links := by
    intro l hl
    obtain ⟨n, hn, hx⟩ := List.mem_map.mp (hs.ends l hl).1
    have hm : l ∈ g.outgoing n.id := mem_outgoing.mpr ⟨hl, hx.symm⟩
    rw [List.map_append]
    obtain hn | hn := List.mem_append.mp (hperm.mem_iff.mpr hn)
    case inl => exact ht.forward .outermost hq n hn l hm
    -- No link leaves the end.
    case inr =>
      rw [List.mem_singleton.mp hn, hs.outgoing] at hm
      cases hm
  refine ⟨hleft, fun id he => ?_, ?_, order, q, ht, hq, hperm, hforward⟩
  · rw [hs.toDefinition_eq hw (by simp [hleft, hs.finish_mem.2])] at he
    split at he <;> cases he
  · exact acyclic_of_forward hforward ((hperm.map _).nodup_iff.mpr hs.ids)

end Sound

theorem covered_straightBranch :
    walk (straightBranch.terrain "E" 1) ⟨[], { stop := "E" }, "S"⟩ straightBranch.nodes
        = .ok (.split [.sequence [], .task ⟨"a", none, 0⟩], [⟨"E", .finish, none, []⟩]) ∧
      straightBranch.Acyclic ∧ (∀ id, straightBranch.toDefinition 1 ≠ .error ⟨.unvisited, id⟩) ∧
      ∃ order, (order ++ straightBranch.nodesWith .finish).Perm straightBranch.nodes ∧
        Forward ((order ++ straightBranch.nodesWith .finish).map (·.id)) straightBranch.links := by
  have hw : walk (straightBranch.terrain "E" 1) ⟨[], { stop := "E" }, "S"⟩ straightBranch.nodes
      = .ok (.split [.sequence [], .task ⟨"a", none, 0⟩], [⟨"E", .finish, none, []⟩]) := by cbv
  obtain ⟨_, hu, ha, order, _, _, _, hp, hf⟩ := sound_straightBranch.covered hw
  exact ⟨hw, ha, hu, order, hp, hf⟩

end TaskFlow.Graph
