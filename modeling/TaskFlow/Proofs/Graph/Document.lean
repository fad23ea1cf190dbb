import TaskFlow.Exchange
import TaskFlow.Proofs.Document.Checked

namespace TaskFlow

open Checked

namespace Node

variable {n : Node} {j : Json}

theorem checkId_eq_ok {id : String} : checkId j = .ok id ↔ j = .string id ∧ id ≠ "" := by
  rw [checkId, andThen_eq_ok]
  cases j
  case string s =>
    constructor
    · rintro ⟨_, hs, h⟩
      cases hs
      split at h
      case isTrue => cases h
      case isFalse hs =>
        cases h
        exact ⟨rfl, by simpa using hs⟩
    · rintro ⟨hs, hid⟩
      cases hs
      exact ⟨id, rfl, by simp [hid]⟩
  all_goals simp [string, fail]

theorem checkType_toJson (t : NodeType) : checkType (.string t.name) = .ok t := by
  simp [checkType, NodeType.ofName?_name]

theorem check_toJson (h : n.id ≠ "") : check n.toJson = .ok n := by
  have hid : checkId (.string n.id) = .ok n.id := checkId_eq_ok.mpr ⟨rfl, h⟩
  have hp := @eachField_map _ string Json.string n.properties fun _ => rfl
  simp [check, toJson, model, required, Checked.optional, List.lookup_cons, hid, checkType_toJson,
    text?_ofText?, dictionary, hp]

-- By the first of the four checks that a node consists of.
theorem id_ne_empty_of_check (h : check j = .ok n) : n.id ≠ "" := by
  obtain ⟨fields, rfl, hnode⟩ := model_eq_ok.mp h
  obtain ⟨_, properties, hname, _, rfl⟩ := seq_eq_ok.mp hnode
  obtain ⟨_, name, htype, _, rfl⟩ := seq_eq_ok.mp hname
  obtain ⟨_, type, hmk, _, rfl⟩ := seq_eq_ok.mp htype
  obtain ⟨id, hid, rfl⟩ := map_eq_ok.mp hmk
  obtain ⟨_, _, hid⟩ := required_eq_ok.mp hid
  exact (checkId_eq_ok.mp hid).2

end Node

theorem Link.check_toJson (l : Link) : Link.check l.toJson = .ok l := by
  simp [check, toJson, model, required, Checked.optional, sourceField, List.lookup_cons, text?_ofText?,
    string]

namespace Graph

variable {g : Graph} {x : Json}

def Readable (g : Graph) : Prop :=
  ∀ n ∈ g.nodes, n.id ≠ ""

theorem Readable.check_toJson (h : g.Readable) : Graph.check g.toJson = .ok g := by
  have hn := each_map (fun n hn => Node.check_toJson (h n hn)) 0
  have hl : each Link.check 0 (g.links.map Link.toJson) = .ok g.links :=
    each_map (fun l _ => Link.check_toJson l) 0
  simp [Graph.check, toJson, model, Checked.optional, List.lookup_cons, list, hn, hl]

theorem Readable.of_check (h : Graph.check x = .ok g) : g.Readable := by
  obtain ⟨fields, rfl, hgraph⟩ := model_eq_ok.mp h
  obtain ⟨_, links, hmk, _, rfl⟩ := seq_eq_ok.mp hgraph
  obtain ⟨nodes, hnodes, rfl⟩ := map_eq_ok.mp hmk
  obtain ⟨_, rfl⟩ | ⟨_, _, hlist⟩ := optional_eq_ok.mp hnodes
  case inl => exact List.forall_mem_nil _
  case inr =>
    intro n hn
    have ⟨j, hj⟩ := mem_of_list_eq_ok hlist n hn
    exact Node.id_ne_empty_of_check hj

-- Fields that were left out, unknown or named otherwise make no difference to the graph.
theorem toJson_roundtrip : (∀ g : Graph, g.Readable → Graph.check g.toJson = .ok g ∧
      ∀ settings, Exchange.textForGraph settings (Graph.check g.toJson)
        = Exchange.textForGraph settings (.ok g)) ∧
    ∀ x g, Graph.check x = .ok g → Graph.check g.toJson = .ok g := by
  refine ⟨fun g hg => ⟨hg.check_toJson, fun settings => ?_⟩, fun x g h => ?_⟩
  · rw [hg.check_toJson]
  · exact (Readable.of_check h).check_toJson

def bareLink : Graph where
  nodes := [⟨"S", .start, none, []⟩, ⟨"E", .finish, none, []⟩]
  links := [⟨"S", "E", none⟩]

-- A document of `bareLink` in which as much as possible is left out, and some things are too much.
def sparseDocument : Json :=
  .object [
    ("nodes", .array [
      .object [("id", .string "S"), ("type", .string "START")],
      .object [("type", .string "END"), ("colour", .null), ("id", .string "E")]]),
    ("version", .int 2),
    ("links", .array [.object [("from_", .string "S"), ("to", .string "E")]])]

theorem toJson_roundtrip_bareLink : Graph.check sparseDocument = .ok bareLink ∧ bareLink.Readable ∧
    Graph.check bareLink.toJson = .ok bareLink ∧
      Exchange.textForGraph { } (Graph.check bareLink.toJson)
        = Exchange.textForGraph { } (.ok bareLink) := by
  have hx : Graph.check sparseDocument = .ok bareLink := by rfl
  have hr : bareLink.Readable := by simp [Readable, bareLink]
  exact ⟨hx, hr, toJson_roundtrip.2 _ _ hx, (toJson_roundtrip.1 _ hr).2 _⟩

end Graph

end TaskFlow
