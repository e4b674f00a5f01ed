import Workflow.Compile
import Workflow.Name.Sorted

/-!
# Running programs elsewhere

Programs are run by others.  A request hands over a program with its inputs; a
report says how the run ended and carries the lines it logged.  A record of a
report may be written as an object or as the array of its fields.
-/

namespace Workflow

/-- A program with the inputs it is to run on, in increasing order of their
names. -/
structure ExecutionRequest where
  program : String
  params : Members

namespace ExecutionRequest

/-- The request to run a compiled program. -/
def ofCompiled (compiled : Compiled) (params : Members) : ExecutionRequest :=
  ⟨compiled.source, Sorted.ofList params⟩

/-- The credentials that were not handed over; the program looks for them in
the environment. -/
def unsuppliedSecrets (request : ExecutionRequest) (compiled : Compiled) :
    List String :=
  compiled.secretParams.names.filter fun name =>
    !request.params.keys.contains name

end ExecutionRequest

inductive ExecutionOutcome where
  | success (result : Value)
  | failure (reason : String)

namespace ExecutionOutcome

def isSuccess : ExecutionOutcome → Bool
  | .success _ => true
  | .failure _ => false

/-- The outcome of a status and the field that goes with it. -/
def ofStatus? (status : Value) (field : String → Option Value) :
    Option ExecutionOutcome :=
  match status with
  | .string "success" => (field "result").map .success
  | .string "failure" =>
      match field "reason" with
      | some (.string reason) => some (.failure reason)
      | _ => none
  | _ => none

def ofValue? : Value → Option ExecutionOutcome
  | .object members => do
      ofStatus? (← Members.get? members "status") (Members.get? members)
  | .array [status, field] => ofStatus? status fun _ => some field
  | _ => none

def toValue : ExecutionOutcome → Value
  | .success result =>
      .object [("status", .string "success"), ("result", result)]
  | .failure reason =>
      .object [("status", .string "failure"), ("reason", .string reason)]

end ExecutionOutcome

/-- How a run ended, and what it logged. -/
structure ExecutionReport where
  outcome : ExecutionOutcome
  logs : List String

namespace ExecutionReport

def logLines? : List Value → Option (List String)
  | [] => some []
  | .string line :: rest => (logLines? rest).map (line :: ·)
  | _ :: _ => none

def ofFields? : Value → Value → Option ExecutionReport
  | outcome, .array logs => do
      return ⟨← ExecutionOutcome.ofValue? outcome, ← logLines? logs⟩
  | _, _ => none

def ofValue? : Value → Option ExecutionReport
  | .object members => do
      ofFields? (← Members.get? members "outcome")
        (← Members.get? members "logs")
  | .array [outcome, logs] => ofFields? outcome logs
  | _ => none

def toValue (report : ExecutionReport) : Value :=
  .object [("outcome", report.outcome.toValue),
    ("logs", .array (report.logs.map .string))]

end ExecutionReport

end Workflow
