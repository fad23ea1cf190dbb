import TaskFlow.Exchange
import TaskFlow.Proofs.Render.Safety

namespace TaskFlow.Exchange

open TaskFlow.Graph

variable {settings : Settings} {c : Checked Graph}

theorem run_textForGraph (settings : Settings) (c : Checked Graph) : ∃ reply events,
    (textForGraph settings c).run = (.ok reply, events) ∧ reply.outcome
      = ((checkedGraph c).bind (·.render settings.maxDepth)).mapError RenderFault.diagnostic := by
  let refusal (f : RenderFault) : Reply String := ⟨.error f.diagnostic,
    ⟨"composedtask.render", [("composedtask.error", .text f.diagnostic.kind)]⟩⟩
  let answer (text : String) : Reply String := ⟨.ok text,
    ⟨"composedtask.render", [("composedtask.text_length", .count text.length)]⟩⟩
  cases hc : checkedGraph c
  case error f =>
    refine ⟨refusal f, [.notRendered f.diagnostic.summary], ?_, rfl⟩
    rw [textForGraph, hc]
    rfl
  case ok g =>
    -- A graph that passes the check is rendered as it is.
    have hj : (do let g ← checkedGraph c; render g settings.maxDepth : Journal RenderFault String)
        = render g settings.maxDepth := by
      rw [hc]
      rfl
    cases hr : g.render settings.maxDepth
    case error f =>
      refine ⟨refusal f, [.notRendered f.diagnostic.summary], ?_, by simp [Except.bind, hr]; rfl⟩
      rw [textForGraph, hj, render, hr]
      rfl
    case ok text =>
      refine ⟨answer text, [.rendered g.nodes.length text], ?_, by simp [Except.bind, hr]; rfl⟩
      rw [textForGraph, hj, render, hr]
      rfl

-- There always is an outcome: the text of the graph, or the diagnostic of the fault that stands in
-- its way. The walk finds whatever it looks up in a graph that meets all demands, and it comes to
-- an end.
theorem textForGraph_total (settings : Settings) (c : Checked Graph) :
    (∃ reply events, (textForGraph settings c).run = (.ok reply, events) ∧
      ((∃ g text, checkedGraph c = .ok g ∧ g.render settings.maxDepth = .ok text ∧
          reply.outcome = .ok text) ∨
        ∃ f, (checkedGraph c = .error f ∨
            ∃ g, checkedGraph c = .ok g ∧ g.render settings.maxDepth = .error f) ∧
          reply.outcome = .error f.diagnostic)) ∧
      ∀ g start finish, checkedGraph c = .ok g → g.anchors = .ok (start, finish) →
        g.Assured start finish settings.maxDepth := by
  constructor
  · have ⟨reply, events, hr, ho⟩ := run_textForGraph settings c
    refine ⟨reply, events, hr, ?_⟩
    rw [ho]
    cases checkedGraph c
    case error f => exact .inr ⟨f, .inl rfl, rfl⟩
    case ok g =>
      cases ht : g.render settings.maxDepth
      case error f => exact .inr ⟨f, .inr ⟨g, rfl, ht⟩, by simp [Except.bind, ht]; rfl⟩
      case ok text => exact .inl ⟨g, text, rfl, ht, by simp [Except.bind, ht]; rfl⟩
  · exact fun g start finish _ ha => (anchors_eq_ok.mp ha).assured

theorem textForGraph_straightBranch : ∃ reply events,
    (textForGraph { maxDepth := 1 } (.ok straightBranch)).run = (.ok reply, events) ∧
      reply.outcome = .ok "< || a>" ∧
      straightBranch.Assured ⟨"S", .start, none, []⟩ ⟨"E", .finish, none, []⟩ 1 := by
  have ⟨⟨reply, events, hr, ho⟩, ha⟩ := textForGraph_total { maxDepth := 1 } (.ok straightBranch)
  have hx := ha _ _ _ rfl (anchors_eq_ok.mpr sound_straightBranch)
  refine ⟨reply, events, hr, ?_, hx⟩
  obtain ⟨g, text, hg, ht, ho⟩ | ⟨f, hf, _⟩ := ho
  case inl =>
    cases hg
    cases ht.symm.trans render_straightBranch
    exact ho
  case inr =>
    obtain hf | ⟨g, hg, hf⟩ := hf
    case inl => cases hf
    case inr =>
      cases hg
      cases hf.symm.trans render_straightBranch

end TaskFlow.Exchange
