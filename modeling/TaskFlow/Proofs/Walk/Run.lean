import Mathlib
import TaskFlow.Graph.Walk

namespace TaskFlow.Graph

variable {m : Terrain} {p p' : Position} {left left' rest : List Node} {d : Definition} {n : Node}
  {f : FanOut} {fans : List FanOut}

theorem two_le_length {α : Type} {xs : List α} (h : xs ≠ []) (hl : xs.length ≠ 1) :
    2 ≤ xs.length := by
  have := List.length_pos_iff.mpr h
  omega

-- A graph with what a walk to one of its nodes has to know.
def terrain (g : Graph) (finish : String) (limit : Int) : Terrain :=
  ⟨g, finish, g.postDominators finish, limit⟩

-- A step either closes a region or visits a node.
inductive Step (m : Terrain) (p : Position) (left : List Node) : Position → List Node → Prop
  | close {f : FanOut} {fans : List FanOut} {p' : Position} : p.here = p.region.stop → p.fans = f :: fans →
    closeRegion m p f fans = .ok p' → Step m p left p' left
  | visit {n : Node} {p' : Position} : p.here ≠ p.region.stop → n ∈ left → n.id = p.here → n.type ≠ .finish →
    visit m p n = .ok p' → Step m p left p' (left.erase n)

-- Where the walk ends: the outermost region closes, and no lead waits.
structure Position.Final (p : Position) : Prop where
  here : p.here = p.region.stop
  fans : p.fans = []
  leads : p.region.leads = []

-- The walk is over at the end of the outermost region, if no task waits. Everywhere else it closes
-- the innermost region or visits a node.
theorem walk_cases (h : walk m p left = .ok (d, rest)) :
    p.Final ∧ d = p.region.definition ∧ rest = left ∨
      ∃ p' left', Step m p left p' left' ∧ walk m p' left' = .ok (d, rest) := by
  rw [walk] at h
  split at h
  case isTrue hh =>
    split at h
    case h_1 hf =>
      split at h
      case h_1 => cases h
      case h_2 hl =>
        cases h
        exact .inl ⟨⟨hh, hf, hl⟩, rfl, rfl⟩
    case h_2 f fans hf =>
      split at h
      case h_1 => cases h
      case h_2 p' hc => exact .inr ⟨p', left, .close hh hf hc, h⟩
  case isFalse hh =>
    split at h
    case h_1 => cases h
    case h_2 n hn =>
      split at h
      case isTrue => cases h
      case isFalse ht =>
        split at h
        case h_1 => cases h
        case h_2 p' hv =>
          have hi : n.id = p.here := by simpa using List.find?_some hn
          exact .inr ⟨p', left.erase n, .visit hh (List.mem_of_find?_eq_some hn) hi ht hv, h⟩

theorem walk_of_final (h : p.Final) : walk m p left = .ok (p.region.definition, left) := by
  rw [walk, if_pos h.here]
  split
  case h_1 => simp [h.leads]
  case h_2 hf => simp [h.fans] at hf

theorem walk_of_close (hh : p.here = p.region.stop) (hf : p.fans = f :: fans)
    (hl : p.region.leads = []) :
    walk m p left = next m (f.close p.region.definition) fans >>= fun p' => walk m p' left := by
  have hc : closeRegion m p f fans = next m (f.close p.region.definition) fans := by
    rw [closeRegion, hl]
  rw [walk, if_pos hh, ← hc]
  split
  case h_1 hn => simp [hn] at hf
  case h_2 hc =>
    cases hf.symm.trans hc
    split
    case h_1 he => rw [he]; rfl
    case h_2 he => rw [he]; rfl

theorem walk_of_visit (hh : p.here ≠ p.region.stop) (hn : left.find? (·.id == p.here) = some n)
    (ht : n.type ≠ .finish) :
    walk m p left = visit m p n >>= fun p' => walk m p' (left.erase n) := by
  rw [walk, if_neg hh]
  split
  case h_1 he => simp [hn] at he
  case h_2 he =>
    cases hn.symm.trans he
    rw [if_neg ht]
    cases visit m p n <;> rfl

-- A step visits a node, or there are fewer branches to come back to.
theorem Step.decreases (h : Step m p left p' left') :
    Prod.Lex (· < ·) (· < ·) (left'.length, openBranches p'.fans)
      (left.length, openBranches p.fans) := by
  cases h
  case close hf hc =>
    rw [hf]
    exact .right _ (openBranches_lt_of_closeRegion hc)
  case visit hn _ _ _ =>
    rw [List.length_erase_of_mem hn]
    exact .left _ _ (Nat.sub_lt (List.length_pos_of_mem hn) Nat.one_pos)

theorem walk_invariant {I : Position → List Node → Prop} {p : Position} {left : List Node}
    (hs : ∀ {p left p' left'}, I p left → Step m p left p' left' → I p' left') (hi : I p left)
    (hw : walk m p left = .ok (d, rest)) :
    ∃ p', I p' rest ∧ p'.Final ∧ d = p'.region.definition := by
  obtain ⟨hf, hd, rfl⟩ | ⟨p', left', hstep, hw⟩ := walk_cases hw
  case inl => exact ⟨p, hi, hf, hd⟩
  case inr => exact walk_invariant hs (hs hi hstep) hw
termination_by (left.length, openBranches p.fans)
decreasing_by exact hstep.decreases

-- The region behind a node without conditional links: a task adds itself, and no other node does.
def Region.arrive (r : Region) (n : Node) : Region :=
  if n.type = .task then r.add (.task n.task) else r

@[simp]
theorem Region.stop_arrive {r : Region} : (r.arrive n).stop = r.stop := by
  rw [Region.arrive]
  split <;> rfl

def Position.lead (p : Position) (n : Node) (condition target : String) : Position :=
  { p with region := { p.region with leads := ⟨n, condition⟩ :: p.region.leads }, here := target }

def selection (m : Terrain) (p : Position) (n : Node) : FanOut where
  node := n
  conditional := true
  join := m.postDominator n.id
  outer := p.region
  todo := orderedClauses (m.graph.outgoing n.id)

def parallel (m : Terrain) (p : Position) (n : Node) : FanOut where
  node := n
  conditional := false
  join := m.branchesEnd n
  outer := p.region.arrive n
  todo := (m.graph.outgoing n.id).map fun l => (none, l.target)

section Equations

variable {l : Link} {c : String}

theorem lead_eq_ok {target : String} : lead m p n c target = .ok p' ↔
    target ≠ p.region.stop ∧ (p.region.leads.length : Int) ≤ m.limit ∧ p' = p.lead n c target := by
  rw [lead]
  split
  case isTrue h => simp [h]
  case isFalse h =>
    have hl : m.limit + 1 < ((p.region.leads.length + 1 : Nat) : Int) ↔
        ¬ (p.region.leads.length : Int) ≤ m.limit := by omega
    simp only [List.length_cons, hl]
    split
    case isTrue hl => simp [hl]
    case isFalse hl => simp [h, Decidable.not_not.mp hl, Position.lead, eq_comm]

theorem visit_of_lead (hl : m.graph.outgoing n.id = [l]) (hc : l.condition = some c) :
    visit m p n = lead m p n c l.target := by
  obtain ⟨source, target, condition⟩ := l
  cases hc
  rw [visit, hl]

theorem visit_of_select (hc : (m.graph.outgoing n.id).any (·.hasCondition))
    (hl : (m.graph.outgoing n.id).length ≠ 1) :
    visit m p n = next m (selection m p n) p.fans := by
  rw [visit]
  split
  case h_1 h => simp [h] at hl
  case h_2 => rw [if_pos hc]; rfl

theorem visit_of_plain (hc : ∀ l ∈ m.graph.outgoing n.id, l.condition = none) :
    visit m p n = pass m p n (m.graph.outgoing n.id) := by
  rw [visit]
  split
  case h_1 h => simp [h] at hc
  case h_2 =>
    refine if_neg ?_
    simpa [Link.hasCondition] using hc

theorem visit_of_pass (hl : m.graph.outgoing n.id = [l]) (hc : l.condition = none)
    (ht : n.type ≠ .fork) :
    visit m p n = .ok { p with region := p.region.arrive n, here := l.target } := by
  rw [visit_of_plain (by simp [hl, hc]), hl]
  cases h : n.type <;> simp_all [pass, Region.arrive]

theorem visit_of_split (hc : ∀ l ∈ m.graph.outgoing n.id, l.condition = none)
    (ht : n.type = .fork ∨ (m.graph.outgoing n.id).length ≠ 1) :
    visit m p n = next m (parallel m p n) p.fans := by
  rw [visit_of_plain hc, pass]
  · rfl
  all_goals
    intro l hl hn
    simp [hl, hn] at ht

end Equations

-- The fan-out whose next branch, which begins at `target`, is being walked.
def FanOut.begin (f : FanOut) (condition : Option String) (todo : List (Option String × String)) :
    FanOut :=
  { f with condition, todo }

-- What comes after a branch, or before the first one.
inductive Continued (m : Terrain) (f : FanOut) (fans : List FanOut) : Position → Prop
  | behind : f.todo = [] → Continued m f fans ⟨fans, f.outer.add f.definition, f.join⟩
  | branch {c : Option String} {target : String} {todo : List (Option String × String)} :
    f.todo = (c, target) :: todo → target ≠ f.join → (fans.length : Int) + 1 ≤ 2 * m.limit →
    Continued m f fans ⟨f.begin c todo :: fans, { stop := f.join }, target⟩

inductive Visited (m : Terrain) (p : Position) (n : Node) : Position → Prop
  | lead {l : Link} {c : String} : m.graph.outgoing n.id = [l] → l.condition = some c →
    l.target ≠ p.region.stop → (p.region.leads.length : Int) ≤ m.limit →
    Visited m p n (p.lead n c l.target)
  | select {p' : Position} : (m.graph.outgoing n.id).any (·.hasCondition) →
    (m.graph.outgoing n.id).length ≠ 1 → Continued m (selection m p n) p.fans p' →
    Visited m p n p'
  | pass {l : Link} : m.graph.outgoing n.id = [l] → l.condition = none → n.type ≠ .fork →
    Visited m p n { p with region := p.region.arrive n, here := l.target }
  | split {p' : Position} : (∀ l ∈ m.graph.outgoing n.id, l.condition = none) →
    n.type = .fork ∨ (m.graph.outgoing n.id).length ≠ 1 → Continued m (parallel m p n) p.fans p' →
    Visited m p n p'

theorem next_cases (h : next m f fans = .ok p') : Continued m f fans p' := by
  rw [next] at h
  split at h
  case h_1 ht =>
    cases h
    exact .behind ht
  case h_2 c target todo ht =>
    split at h
    · cases h
    split at h
    · cases h
    case isFalse hj hl =>
      cases h
      exact .branch ht hj (by omega)

theorem closeRegion_cases (h : closeRegion m p f fans = .ok p') :
    p.region.leads = [] ∧ Continued m (f.close p.region.definition) fans p' := by
  rw [closeRegion] at h
  split at h
  case h_1 => cases h
  case h_2 hl => exact ⟨hl, next_cases h⟩

-- The kind of visit depends on whether there are conditions, and on how many links there are.
theorem visit_cases (h : visit m p n = .ok p') : Visited m p n p' := by
  by_cases hc : ∀ l ∈ m.graph.outgoing n.id, l.condition = none
  case pos =>
    by_cases ht : n.type = .fork ∨ (m.graph.outgoing n.id).length ≠ 1
    case pos => exact .split hc ht (next_cases (visit_of_split hc ht ▸ h))
    case neg =>
      rw [not_or, Decidable.not_not] at ht
      have ⟨l, hl⟩ := List.length_eq_one_iff.mp ht.2
      have hn : l.condition = none := hc l (by simp [hl])
      rw [visit_of_pass hl hn ht.1] at h
      cases h
      exact .pass hl hn ht.1
  case neg =>
    by_cases ht : (m.graph.outgoing n.id).length = 1
    case pos =>
      have ⟨l, hl⟩ := List.length_eq_one_iff.mp ht
      have ⟨c, hn⟩ : ∃ c, l.condition = some c := by
        rw [← Option.ne_none_iff_exists']
        simpa [hl] using hc
      rw [visit_of_lead hl hn] at h
      have ⟨hs, hlen, he⟩ := lead_eq_ok.mp h
      exact he ▸ .lead hl hn hs hlen
    case neg =>
      have hs : (m.graph.outgoing n.id).any (·.hasCondition) := by
        simpa [Link.hasCondition, Option.isSome_iff_ne_none] using hc
      exact .select hs ht (next_cases (visit_of_select hs ht ▸ h))

-- The walk goes on wherever it may.
theorem Continued.next_eq (h : Continued m f fans p') : next m f fans = .ok p' := by
  cases h
  case behind ht => rw [next, ht]
  case branch ht hj hl =>
    have hl : ¬ 2 * m.limit < ((fans.length + 1 : Nat) : Int) := by omega
    rw [next, ht]
    simp only [if_neg hj, if_neg hl]
    rfl

theorem Visited.visit_eq (h : Visited m p n p') : visit m p n = .ok p' := by
  cases h
  case lead ho hc hs hl => exact (visit_of_lead ho hc).trans (lead_eq_ok.mpr ⟨hs, hl, rfl⟩)
  case select hc hl h => exact (visit_of_select hc hl).trans h.next_eq
  case pass ho hc ht => exact visit_of_pass ho hc ht
  case split hc ht h => exact (visit_of_split hc ht).trans h.next_eq

end TaskFlow.Graph
