import TaskFlow.Proofs.Graph.Document
import TaskFlow.Proofs.Json.Roundtrip
import TaskFlow.Proofs.Layout.Canonical

namespace TaskFlow

open Subgraph

variable {n : Node} {g : Graph} {p p' : IdPool} {d : Definition} {ds : List Definition}
  {f : Subgraph} {fs : List Subgraph}

-- Whether a node can be read back from the text of its document.
structure Node.Printable (n : Node) : Prop where
  id : n.id ≠ ""
  properties : (n.properties.map (·.1)).Nodup

def Graph.Printable (g : Graph) : Prop :=
  ∀ n ∈ g.nodes, n.Printable

section Documents

open Json

theorem faithful_ofText? (s : Option String) : (ofText? s).Faithful := by
  cases s
  case none => exact .null
  case some s => exact .string s

theorem Node.Printable.faithful_toJson (h : n.Printable) : n.toJson.Faithful := by
  refine .object (by simp) ?_
  simp only [List.forall_mem_cons]
  refine ⟨.string _, .string _, faithful_ofText? _, .object ?_ ?_, List.forall_mem_nil _⟩
  · rw [List.map_map]
    exact h.properties
  · exact List.forall_mem_map.mpr fun _ _ => .string _

theorem Link.faithful_toJson (l : Link) : l.toJson.Faithful := by
  refine .object (by simp) ?_
  simp only [List.forall_mem_cons]
  exact ⟨.string _, .string _, faithful_ofText? _, List.forall_mem_nil _⟩

theorem Graph.Printable.faithful_toJson (h : g.Printable) : g.toJson.Faithful := by
  refine .object (by simp) ?_
  simp only [List.forall_mem_cons]
  exact ⟨.array (List.forall_mem_map.mpr fun n hn => (h n hn).faithful_toJson),
    .array (List.forall_mem_map.mpr fun l _ => l.faithful_toJson), List.forall_mem_nil _⟩

theorem Graph.Printable.readable (h : g.Printable) : g.Readable :=
  fun n hn => (h n hn).id

end Documents

section Layout

theorem IdPool.printable_newNode {base : String} {type : NodeType} {name : Option String}
    {properties : List (String × String)} (hp : (properties.map (·.1)).Nodup)
    (h : p.newNode base type name properties = .ok (n, p')) : n.Printable := by
  simp only [newNode] at h
  split at h
  case isTrue => cases h
  case isFalse he =>
    cases h
    exact ⟨by simpa using he, hp⟩

theorem IdPool.printable_newMark {base : String} {type : NodeType}
    (h : p.newNode base type = .ok (n, p')) : n.Printable :=
  printable_newNode (by simp) h

-- A task has one property at most.
theorem IdPool.printable_newTask {t : TaskMention} (h : p.newTask t = .ok (n, p')) :
    n.Printable := by
  refine printable_newNode ?_ h
  cases t.label.filter fun label => !label.isEmpty
  case none => exact List.nodup_nil
  case some => exact List.nodup_singleton _

theorem printable_layOutBranches
    (hi : ∀ d ∈ ds, ∀ {p p' f}, d.layOut p = .ok (f, p') → ∀ n ∈ f.nodes, n.Printable)
    (h : Definition.layOutBranches p ds = .ok (fs, p')) :
    ∀ n ∈ fs.flatMap (·.nodes), n.Printable := by
  induction ds generalizing p fs
  case nil =>
    cases h
    exact List.forall_mem_nil _
  case cons d ds hs =>
    rw [List.forall_mem_cons] at hi
    obtain ⟨f, p₁, fs, hf, hfs, rfl⟩ := Definition.layOutBranches_cons_eq_ok.mp h
    rw [List.flatMap_cons, List.forall_mem_append]
    exact ⟨hi.1 hf, hs hi.2 hfs⟩

theorem Definition.printable_layOut (h : d.layOut p = .ok (f, p')) :
    ∀ n ∈ f.nodes, n.Printable := by
  induction d generalizing p f p'
  case task t =>
    rw [layOut, bind_eq_ok] at h
    obtain ⟨⟨n, _⟩, hn, h⟩ := h
    cases h
    exact List.forall_mem_singleton.mpr (IdPool.printable_newTask hn)
  case sequence ds hi =>
    by_cases hd : ds = []
    case pos =>
      subst hd
      rw [layOut] at h
      cases h
    case neg =>
      obtain ⟨fs, hfs, rfl⟩ := (layOut_sequence_eq_ok hd).mp h
      rw [nodes_chained]
      exact printable_layOutBranches hi hfs
  case split ds hi =>
    obtain ⟨fork, p₁, fs, p₂, join, hf, hfs, hj, rfl⟩ := layOut_split_eq_ok.mp h
    rw [sideBySide, List.forall_mem_append, List.forall_mem_cons]
    exact ⟨⟨IdPool.printable_newMark hf, printable_layOutBranches hi hfs⟩,
      List.forall_mem_singleton.mpr (IdPool.printable_newMark hj)⟩
  case transition t cs hi =>
    obtain ⟨n, p₁, fs, hn, hfs, rfl⟩ := layOut_transition_eq_ok.mp h
    have hb := List.forall_mem_flatMap.mp
      (printable_layOutBranches (List.forall_mem_map.mpr hi) hfs)
    rw [select, List.forall_mem_cons, List.forall_mem_flatMap]
    exact ⟨IdPool.printable_newTask hn, fun c hc => hb c.2 (List.of_mem_zip hc).2⟩

theorem Definition.printable_of_toGraph (h : d.toGraph = .ok g) : g.Printable := by
  simp only [toGraph, bind_eq_ok, Prod.exists] at h
  obtain ⟨start, p, hs, finish, p₁, hf, f, _, hd, h⟩ := h
  cases h
  rw [Graph.Printable, anchored, List.forall_mem_cons, List.forall_mem_cons]
  exact ⟨IdPool.printable_newMark hs, IdPool.printable_newMark hf,
    printable_layOut hd⟩

end Layout

end TaskFlow
