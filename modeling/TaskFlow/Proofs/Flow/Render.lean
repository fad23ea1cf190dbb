import TaskFlow.Proofs.Flow.Layout
import TaskFlow.Proofs.Flow.Mirrors
import TaskFlow.Proofs.Flow.Walk
import TaskFlow.Proofs.Layout.Canonical
import TaskFlow.Proofs.Render.Readable

namespace TaskFlow.Graph

open Definition Lexeme

variable {g : Graph} {d a : Definition} {limit limit' : Int} {text : String}

theorem Recovers.wellFormed (h : g.Recovers limit d) (ha : read d.text limit' = .ok a) :
    d.WellFormed := by
  have hw := h.writable
  have hc : ¬ d.Clashes := fun hc => not_read_of_clashes hw hc ha
  obtain ⟨hn, _⟩ | ⟨hh, _⟩ := h.normal_or_hollow
  case inl => exact ⟨hn, hw, h.labels_nodup, h.selective⟩
  case inr => exact absurd ha (hh.not_read hw hc)

-- Rendering keeps the flow of control, whatever the graph looks like.
theorem exists_mirrors_of_render (h : g.render limit = .ok text) (ha : read text limit' = .ok a) :
    ∃ g' σ, a.toGraph = .ok g' ∧ Mirrors σ g g' := by
  obtain ⟨d, hr, rfl⟩ := exists_recovers_of_render h
  have hd := hr.wellFormed ha
  have ⟨f, hf, hdrawn⟩ := hd.drawn
  have ⟨start, finish, ns, hs, hp, he⟩ := hr.enacts
  have ⟨σ, hσ⟩ := he.exists_mirrors hs (hdrawn.sound hd) hp (.refl _) (hdrawn.enacts hd)
  exact ⟨f.whole, σ, (toGraph_of_bare (bare_of_read hd.normal hd.writable ha)).trans hf, hσ⟩

-- A task with two unconditional links, both of which lead to tasks, and no fork.
def bareFanOut : Graph where
  nodes := [⟨"START", .start, none, []⟩, ⟨"END", .finish, none, []⟩, ⟨"a", .task, some "a", []⟩,
    ⟨"b", .task, some "b", []⟩, ⟨"c", .task, some "c", []⟩, ⟨"d", .task, some "d", []⟩]
  links := [⟨"START", "a", none⟩, ⟨"a", "b", none⟩, ⟨"a", "c", none⟩, ⟨"b", "d", none⟩,
    ⟨"c", "d", none⟩, ⟨"d", "END", none⟩]

theorem sound_bareFanOut : bareFanOut.Sound startNode finishNode where
  ids := by decide
  nodesWith_start := rfl
  nodesWith_finish := rfl
  ends := by decide
  incoming := rfl
  outgoing := rfl
  nameable := by
    have hn {s : String} (hs : s ∈ ["a", "b", "c", "d"]) : Nameable ⟨s, .task, some s, []⟩ := by
      refine ⟨?_, nofun⟩
      revert s
      simp [isName, nameRun, isNameChar, isWord_of_lt]
    have hw : bareFanOut.nodesWith .task
        = ["a", "b", "c", "d"].map fun s => ⟨s, .task, some s, []⟩ := rfl
    rw [hw]
    exact List.forall_mem_map.mpr fun s => hn
  labels := by decide
  tasks := by decide
  links := by decide
  linksFit n hn := .plain (by revert n; decide)
  reachable := by
    have : bareFanOut.reachableFrom "START" = ["START", "a", "b", "d", "END", "c"] := by cbv
    rw [startNode, this]
    decide
  leading := by
    have : bareFanOut.leadingTo "END" = ["END", "d", "b", "a", "START", "c"] := by cbv
    rw [finishNode, this]
    decide

def splitInSequence : Definition :=
  .sequence [.task ⟨"a", none, 0⟩, .split [.task ⟨"b", none, 0⟩, .task ⟨"c", none, 0⟩],
    .task ⟨"d", none, 0⟩]

theorem text_splitInSequence : splitInSequence.text = "a && <b || c> && d" := by
  simp [splitInSequence, Definition.text, texts, TaskMention.text]

theorem recovers_bareFanOut : bareFanOut.Recovers 1 splitInSequence := by
  have hw : walk (bareFanOut.terrain "END" 1) ⟨[], { stop := "END" }, "START"⟩ bareFanOut.nodes
      = .ok (splitInSequence, [finishNode]) := by cbv
  refine .intro _ _ _ sound_bareFanOut hw (by simp [finishNode]) ?_
  rw [text_splitInSequence, bracketDepth_le_iff (by decide)]
  simp [lexemes, scanFrom_cons, isGap, first?, isNameChar, nameRun, isWord_of_lt]
  simp [Token.scanFrom, nestsFrom_cons, opens, level, closes]

theorem mirrors_bareFanOut : bareFanOut.render 1 = .ok "a && <b || c> && d" ∧
    ∃ a g' σ, read "a && <b || c> && d" 1 = .ok a ∧ a.toGraph = .ok g' ∧
      Mirrors σ bareFanOut g' := by
  have hr := recovers_bareFanOut
  have hn : splitInSequence.Normal := by
    simp [splitInSequence, normal_sequence, normal_split, Normal.task, isStep]
  have hc : ¬ splitInSequence.Clashes := hr.not_clashes (by decide)
  have ht : bareFanOut.render 1 = .ok "a && <b || c> && d" := by
    simp [render, recovers_iff.mpr hr, Except.map, text_splitInSequence]
  have hdepth : bracketDepth splitInSequence.text ≤ (1 : Int) := by
    obtain ⟨_, _, _, _, _, _, hdepth⟩ := hr
    exact hdepth
  obtain ⟨a, ha, _⟩ := (read_text_iff hn hr.writable (by decide)).mpr
    ⟨hc, hdepth, hr.labels_nodup, hr.selective⟩
  rw [text_splitInSequence] at ha
  obtain ⟨g', σ, hg, hσ⟩ := exists_mirrors_of_render ht ha
  exact ⟨ht, a, g', σ, ha, hg, hσ⟩

end TaskFlow.Graph
