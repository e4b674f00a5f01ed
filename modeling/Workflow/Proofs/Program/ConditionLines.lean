import Workflow.Proofs.Program.Conditions
import Workflow.Proofs.Program.Layout

/-!
# The line of a condition

A condition stands in a program on the line that opens a block.  That line can
be read by itself, with all its literals and brackets closed, unless the
condition opens a long literal: then the outcome is that of the characters
behind the three quotes, read inside of the literal.
-/

namespace Workflow.Program

open SelfCheck
open Condition (emitted)

/-- A program of one line passes exactly when reading the line ends outside of
literals with no bracket open. -/
theorem lex_eq_ok_iff
    {text : List Char} (noFeed : '\n' ∉ text) (notEmpty : text ≠ []) :
    lex text = .ok [⟨1, text, true⟩] ↔
      readLine 1 ⟨.code, []⟩ text = .ok ⟨.code, []⟩ := by
  rw [lex, Text.lines_of_noFeed noFeed notEmpty]
  cases read : readLine 1 ⟨.code, []⟩ text with
  | error defect => simp [readLines, read, bind, Except.bind]
  | ok final =>
      obtain ⟨mode, brackets⟩ := final
      cases brackets with
      | cons innermost outer =>
          simp [readLines, read, bind, Except.bind, pure, Except.pure]
      | nil =>
          cases mode <;>
            simp [readLines, read, bind, Except.bind, pure, Except.pure]

/-- The line that asks a condition. -/
def conditionLine (condition : String) : List Char :=
  ("if " ++ conditionExpression condition ++ ":").toList

theorem conditionLine_eq (condition : String) :
    conditionLine condition =
      "if ".toList ++ ((conditionExpression condition).toList ++ [':']) := by
  simp [conditionLine]

theorem sealed_if : Sealed "if ".toList :=
  sealed_of_isPlain (by decide)

theorem inline_conditionLine
    {condition : String} (accepted : Condition.check condition = .ok ()) :
    Inline (conditionLine condition) := by
  rw [conditionLine_eq]
  apply sealed_if.inline.append
  apply (inline_conditionExpression accepted).append
  exact inline_of_isPlain (by decide)

theorem readLine_conditionLine {condition : String}
    (accepted : Condition.check condition = .ok ()) :
    readLine 1 ⟨.code, []⟩ (conditionLine condition) =
      match conditionLongLiteral? condition with
      | none => .ok ⟨.code, []⟩
      | some long =>
          readRest 1 ⟨.triple long.quote 0, bracketsAt 1 long.brackets⟩
            (emitted long.rest ++ [':']) := by
  have noNul : '\x00' ∉ conditionLine condition :=
    fun member => (inline_conditionLine accepted _ member).2 rfl
  have unquoted : Unquoted [':'] := unquoted_cons (by decide)
  rw [readLine_eq_readRest noNul, conditionLine_eq, sealed_if.reads,
    readRest_conditionExpression accepted unquoted]
  cases conditionLongLiteral? condition with
  | none => rfl
  | some long => simp only [List.append_nil]

/-- The line of an accepted condition without a long literal is read to its
end, with its literals and brackets closed, and passes the check; a long
literal is entered, and what follows it decides. -/
theorem lex_conditionLine
    {condition : String} (accepted : Condition.check condition = .ok ()) :
    (readLine 1 ⟨.code, []⟩ (conditionLine condition) =
      match conditionLongLiteral? condition with
      | none => .ok ⟨.code, []⟩
      | some long =>
          readRest 1 ⟨.triple long.quote 0, bracketsAt 1 long.brackets⟩
            (emitted long.rest ++ [':'])) ∧
      (lex (conditionLine condition) =
        .ok [⟨1, conditionLine condition, true⟩] ↔
        readLine 1 ⟨.code, []⟩ (conditionLine condition) =
          .ok ⟨.code, []⟩) := by
  refine ⟨readLine_conditionLine accepted, lex_eq_ok_iff ?_ ?_⟩
  · exact fun member => (inline_conditionLine accepted _ member).1 rfl
  · simp [conditionLine_eq]

/-- Two empty literals that touch open a long literal, which nothing closes. -/
theorem lex_conditionLine_emptyLiterals :
    Condition.check "'''' == \x7b\x7bx\x7d\x7d" = .ok () ∧
      conditionLongLiteral? "'''' == \x7b\x7bx\x7d\x7d" ≠ none ∧
      lex (conditionLine "'''' == \x7b\x7bx\x7d\x7d") =
        .error .openTripleQuote ∧
      readLine 1 ⟨.code, []⟩ (conditionLine "'''' == \x7b\x7bx\x7d\x7d") ≠
        .ok ⟨.code, []⟩ := by
  have accepted : Condition.check "'''' == \x7b\x7bx\x7d\x7d" = .ok () := by
    decide +kernel
  have fails : lex (conditionLine "'''' == \x7b\x7bx\x7d\x7d") =
      .error .openTripleQuote := by
    decide +kernel
  refine ⟨accepted, by decide +kernel, fails, ?_⟩
  intro reads
  have passes := (lex_conditionLine accepted).2.mpr reads
  exact absurd (fails.symm.trans passes) (by simp)

end Workflow.Program
