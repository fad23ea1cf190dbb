import TaskFlow.Proofs.Reader.Demands
import TaskFlow.Proofs.Token.Lexemes

namespace TaskFlow

open Lexeme

variable {limit : Int} {ts : List Token} {n : Nesting} {text : String} {cs : List Char}

theorem deepest_foldl_le_iff (hl : 0 ≤ limit) : (ts.foldl Nesting.step n).deepest ≤ limit ↔
    n.deepest ≤ limit ∧ NestsFrom limit n.level (ts.map (·.lexeme)) := by
  induction ts generalizing n
  case nil => simp
  case cons t ts hi =>
    rw [List.foldl_cons, hi, List.map_cons, nestsFrom_cons, Nesting.step]
    -- A bracket that opens changes both numbers, a bracket that closes changes the level only.
    by_cases ho : t.lexeme.opens
    case pos =>
      have hc : t.lexeme.closes = false := by
        revert ho
        cases t.lexeme <;> simp [opens, closes]
      have hd : ((max n.deepest (n.level + 1).toNat : Nat) : Int) ≤ limit ↔
          n.deepest ≤ limit ∧ n.level + 1 ≤ limit := by omega
      have hx : level [t.lexeme] = 1 := by simp [level, ho, hc]
      rw [if_pos ho, hd, hx, and_assoc]
      simp only [ho, true_implies]
    case neg =>
      by_cases hc : t.lexeme.closes <;> simp [ho, hc, level, Int.sub_eq_add_neg]

theorem bracketDepth_le_iff (hl : 0 ≤ limit) :
    bracketDepth text ≤ limit ↔ NestsFrom limit 0 (lexemes text.toList) := by
  rw [bracketDepth, deepest_foldl_le_iff hl]
  exact and_iff_right hl

end TaskFlow
