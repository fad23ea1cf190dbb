import TaskFlow.Proofs.Reader.Progress

namespace TaskFlow

open Lexeme Definition

def TaskMention.token (t : TaskMention) : Token :=
  ⟨.identifier t.name, t.offset⟩

def Chain.mentions (c : Chain) : List TaskMention :=
  c.source :: c.clauses.reverse.flatMap (·.2.mentions)

-- The tasks in front of a place, as far as they belong to the same step.
def Place.mentions : Place → List TaskMention
  | step => []
  | target chain _ => chain.mentions

def Level.mentions (l : Level) : List TaskMention :=
  (l.branches.reverse ++ l.steps.reverse).flatMap Definition.mentions

-- The tasks in what was read last. A name is a task unless it turns out to be a label.
def Awaiting.mentions : Awaiting → List TaskMention
  | afterName name offset place => place.mentions ++ [{ name, offset }]
  | afterLabel _ _ place => place.mentions
  | afterLabeled label _ name offset place =>
    place.mentions ++ [{ name, label := some label, offset }]
  | clause chain | status chain | afterStatus chain _ _ | target chain _ => chain.mentions
  | element | afterStep | nothing _ => []

namespace Reading

def around (r : Reading) : List TaskMention :=
  r.brackets.reverse.flatMap (fun b => b.outer.mentions ++ b.place.mentions) ++ r.level.mentions

def mentions (r : Reading) : List TaskMention :=
  match r.awaiting with
  | .nothing whole => whole.mentions
  | awaiting => r.around ++ awaiting.mentions

variable {limit : Int} {r r' : Reading} {t : Token} {ts : List Token} {c : Chain} {q : Place}
  {d : Definition} {m : TaskMention}

section Equations

@[simp]
theorem mentions_definition : c.definition.mentions = c.mentions := by
  rw [Chain.definition, Chain.mentions]
  split
  case isTrue h =>
    rw [List.isEmpty_iff] at h
    simp [h]
  case isFalse => simp

@[simp]
theorem mentions_addClause {p : String} :
    (c.addClause p d).mentions = c.mentions ++ d.mentions := by
  simp [Chain.addClause, Chain.mentions]

@[simp]
theorem mentions_noteStatus {p : String} {offset : Nat} :
    (c.noteStatus p offset).mentions = c.mentions := by
  rw [Chain.noteStatus]
  split
  all_goals rfl

@[simp]
theorem mentions_chain : (q.chain m).mentions = q.mentions ++ [m] := by
  cases q
  case step => rfl
  case target => simp [Place.chain, Place.mentions]

@[simp]
theorem mentions_branch {l : Level} :
    (branch l).mentions = l.steps.reverse.flatMap Definition.mentions :=
  flatMap_inOrder mentions_sequence

theorem mentions_put : (r.put d q).mentions = r.around ++ (q.mentions ++ d.mentions) := by
  cases q
  all_goals simp [mentions, put, around, Level.mentions, Awaiting.mentions, Place.mentions]

theorem mentions_of_expects (h : r.Expects q) : r.mentions = r.around ++ q.mentions := by
  cases q
  all_goals
    have h : r.awaiting = _ := h
    simp [mentions, h, Awaiting.mentions, Place.mentions]

end Equations

section Steps

theorem branch_sublist {l : Level} : (branch l).mentions.Sublist l.mentions := by
  simp [Level.mentions]

theorem close_sublist {b : Bracket} {bs : List Bracket} (ha : r.awaiting = .afterStep)
    (hb : r.brackets = b :: bs) (hd : d.mentions.Sublist r.level.mentions) :
    (r.close b bs d).mentions.Sublist r.mentions := by
  rw [close, mentions_put]
  simpa [mentions, ha, around, hb, Awaiting.mentions] using hd

-- A name that turns out to be a label is no task any more.
theorem Moves.mentions_sublist (h : Moves limit r t r') :
    (r'.mentions.map TaskMention.token).Sublist (r.mentions.map TaskMention.token ++ [t]) := by
  induction h
  case opener hq _ _ =>
    rw [mentions_of_expects hq]
    simp [mentions, around, Level.mentions, Awaiting.mentions]
  case name hq =>
    rw [mentions_of_expects hq]
    simp [mentions, around, Awaiting.mentions, TaskMention.token]
  case label ha | labeled ha | arrow ha | status ha _ | pattern ha | ampersands ha =>
    simp [mentions, ha, around, Awaiting.mentions, TaskMention.token]
  case bars ha _ => simp [mentions, ha, around, Level.mentions, Awaiting.mentions]
  case closeAngle ha hb =>
    refine ((close_sublist ha hb ?_).map _).trans (List.sublist_append_left ..)
    simp [Level.mentions]
  case closeParen ha hb =>
    exact ((close_sublist ha hb branch_sublist).map _).trans (List.sublist_append_left ..)
  case conclusion r _ ha _ =>
    have hs : (branch r.level).mentions.Sublist r.mentions := by
      rw [mentions, ha]
      exact (branch_sublist.trans (List.sublist_append_right ..)).trans (List.sublist_append_left ..)
    exact (hs.map _).trans (List.sublist_append_left ..)
  case task ha _ _ hi | labeledTask ha _ _ hi =>
    simpa [mentions, ha, around, Awaiting.mentions, TaskMention.token] using hi
  case clause ha _ _ hi =>
    rw [mentions_put] at hi
    simpa [mentions, ha, Awaiting.mentions, Place.mentions] using hi

theorem Concludes.mentions_sublist (h : Concludes limit r ts (.ok d)) :
    (d.mentions.map TaskMention.token).Sublist (r.mentions.map TaskMention.token ++ ts) := by
  generalize he : Except.ok d = e at h
  induction h
  case complete hd =>
    cases he
    simp [mentions, hd]
  case refused => cases he
  case taken hc hs _ hi =>
    have hm := (moves_of_step hc hs).mentions_sublist
    exact (hi he).trans (by simpa using hm.append_right _)

end Steps

end Reading

-- Whether the tasks of a definition stand where it says so in a text, from left to right.
structure Definition.Located (text : String) (d : Definition) : Prop where
  ordered : d.mentions.Pairwise fun t t' => t.offset < t'.offset
  spelled : ∀ t ∈ d.mentions, (text.toList.drop t.offset).take t.name.length = t.name.toList

theorem Definition.located_of_read {text : String} {limit : Int} {a : Definition}
    (h : read text limit = .ok a) : a.Located text := by
  have hc : Reading.Concludes limit { } (Token.scan text) (.ok a) :=
    h ▸ Reading.concludes_scan (not_blank_of_read h)
  have hs : (a.mentions.map TaskMention.token).Sublist (Token.scan text) := hc.mentions_sublist
  constructor
  case ordered =>
    have ho := Token.ordered_scanFrom.sublist hs
    rw [List.pairwise_map] at ho
    exact ho.imp fun h => h.1
  case spelled =>
    intro t ht
    have hm := hs.subset (List.mem_map_of_mem ht)
    obtain ⟨pre, rest, (he : _ = pre ++ (t.name.toList ++ rest)), ho, _⟩ :=
      Token.placed_of_mem_scanFrom hm
    have ho : t.offset = pre.length := by simpa [TaskMention.token] using ho
    rw [he, ho, List.drop_left, List.take_left' String.length_toList]

end TaskFlow
