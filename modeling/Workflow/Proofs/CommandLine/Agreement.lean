import Workflow.CommandLine.Run
import Workflow.File.Store
import Workflow.Proofs.Document.Acceptance

/-!
# Commands agree about documents

A document that cannot be read as a specification has an error on record, so
the report alone decides whether a document is accepted.  All commands read the
same configuration and the same document before they do anything else; what
they do with them is then compared case by case, and only a compiled program is
ever written to a file.
-/

namespace Workflow

namespace Document

variable {limits : Limits} {document : Value}

/-- A document without errors has been read as a specification. -/
theorem exists_spec_of_clean
    (clean : ∀ issue ∈ (inspect limits document).issues,
      issue.severity ≠ .error) :
    ∃ spec, (inspect limits document).value = some spec := by
  cases found : (readSpec document).value with
  | some spec => exact ⟨spec, by simp only [inspect, found]⟩
  | none =>
      have same : inspect limits document = readSpec document := by
        simp only [inspect, found]
      rw [same] at clean
      obtain ⟨spec, _, isSome⟩ := gives_readSpec.mp ⟨rfl, clean⟩
      simp [found] at isSome

theorem isValid_check_iff :
    (check limits document).isValid = true ↔
      ∃ accepted, accept limits document = .ok accepted := by
  constructor
  · intro valid
    obtain ⟨spec, found⟩ :=
      exists_spec_of_clean (Report.isValid_ofIssues.mp valid)
    refine ⟨⟨spec, (check limits document).warnings⟩, ?_⟩
    simp only [check] at valid
    simp only [accept, found, valid, if_true, check]
  · rintro ⟨accepted, isAccepted⟩
    obtain ⟨isSpec, admissible⟩ := specDocument_of_accept isAccepted
    exact Report.isValid_ofIssues.mpr
      (inspect_gives.mpr ⟨isSpec, admissible⟩).clean

theorem accept_eq_error
    {report : Report} (rejected : accept limits document = .error report) :
    report = check limits document ∧ report.errors ≠ [] := by
  have same : report = check limits document := by
    simp only [accept] at rejected
    split at rejected
    · split at rejected
      · cases rejected
      · exact (Except.error.inj rejected).symm
    · exact (Except.error.inj rejected).symm
  refine ⟨same, ?_⟩
  intro noErrors
  have valid : (check limits document).isValid = true := by
    rw [← same, Report.isValid, noErrors]
    rfl
  obtain ⟨accepted, isAccepted⟩ := isValid_check_iff.mp valid
  rw [rejected] at isAccepted
  cases isAccepted

end Document

namespace CommandLine

section Reading

variable {α β : Type} {store : Store}

/-- The action comes to a result, and the files stay as they are. -/
def Answers (action : ExceptT Error (StateM Store) α) (store : Store)
    (result : Except Error α) : Prop :=
  action.run.run store = (result, store)

theorem run_bind_of_ok
    {first : ExceptT Error (StateM Store) α} {value : α}
    (answers : Answers first store (.ok value))
    (next : α → ExceptT Error (StateM Store) β) :
    (first >>= next).run.run store = (next value).run.run store := by
  rw [Answers] at answers
  simp only [ExceptT.run_bind, StateT.run_bind, answers]
  rfl

theorem answers_bind_of_error
    {first : ExceptT Error (StateM Store) α} {error : Error}
    (answers : Answers first store (.error error))
    (next : α → ExceptT Error (StateM Store) β) :
    Answers (first >>= next) store (.error error) := by
  rw [Answers] at answers ⊢
  simp only [ExceptT.run_bind, StateT.run_bind, answers]
  rfl

/-- The action never changes a file. -/
def ReadOnly (action : ExceptT Error (StateM Store) α) : Prop :=
  ∀ store, ∃ result, Answers action store result

theorem ReadOnly.bind
    {first : ExceptT Error (StateM Store) α}
    {next : α → ExceptT Error (StateM Store) β} (reads : ReadOnly first)
    (readsNext : ∀ value, ReadOnly (next value)) :
    ReadOnly (first >>= next) := by
  intro store
  obtain ⟨result, answers⟩ := reads store
  cases result with
  | error error => exact ⟨_, answers_bind_of_error answers next⟩
  | ok value =>
      obtain ⟨result, answersNext⟩ := readsNext value store
      exact ⟨result, (run_bind_of_ok answers next).trans answersNext⟩

theorem readOnly_lift (result : Except Error α) :
    ReadOnly (liftM result : ExceptT Error (StateM Store) α) :=
  fun _ => ⟨result, rfl⟩

theorem readOnly_pure (value : α) :
    ReadOnly (pure value : ExceptT Error (StateM Store) α) :=
  fun _ => ⟨.ok value, rfl⟩

theorem readOnly_throw (error : Error) :
    ReadOnly (throw error : ExceptT Error (StateM Store) α) :=
  fun _ => ⟨.error error, rfl⟩

theorem readOnly_isThere (path : String) :
    ReadOnly (liftM (Host.ofStore.isThere path) :
        ExceptT Error (StateM Store) Bool) :=
  fun store => ⟨.ok (store.isThere path), rfl⟩

theorem readOnly_readText (path : String) :
    ReadOnly (liftM (Host.ofStore.readText path) :
      ExceptT Error (StateM Store) (Except FileError String)) :=
  fun store => ⟨.ok (store.readText path), rfl⟩

theorem readOnly_loadConfigFile (path : String) :
    ReadOnly (loadConfigFile Host.ofStore path) := by
  apply (readOnly_readText path).bind
  intro content
  cases content with
  | error error => exact readOnly_throw _
  | ok text =>
      dsimp only
      split
      · exact readOnly_pure _
      · exact readOnly_throw _

theorem readOnly_loadConfig
    (environment : Environment) (named : Option String) :
    ReadOnly (loadConfig Host.ofStore environment named) := by
  unfold loadConfig
  split
  · exact readOnly_loadConfigFile _
  · exact readOnly_loadConfigFile _
  · apply (readOnly_isThere _).bind
    intro there
    split
    · exact readOnly_loadConfigFile _
    · exact readOnly_pure _

theorem readOnly_loadDocument (path : String) :
    ReadOnly (loadDocument Host.ofStore path) := by
  apply (readOnly_isThere path).bind
  intro there
  split
  · apply (readOnly_readText path).bind
    intro content
    split
    · exact readOnly_throw _
    · exact readOnly_lift _
  · exact readOnly_throw _

end Reading

/-- The document that a command is about. -/
def Command.file : Command → String
  | .check file _ => file
  | .compile file _ => file
  | .tools file => file
  | .format file => file

/-- Runs a command on the files of a store. -/
def execute
    (store : Store) (environment : Environment) (config : Option String)
    (command : Command) : Outcome × Store :=
  (runInvocation Host.ofStore environment ⟨config, command⟩).run store

/-- Turns the result of a command into its outcome. -/
def settle : Except Error Outcome × Store → Outcome × Store
  | (.ok outcome, store) => (outcome, store)
  | (.error error, store) => (errorOutcome error, store)

/-- What a command does with a document under a configuration. -/
def answer (config : Config) (document : Value) :
    Command → ExceptT Error (StateM Store) Outcome
  | .check file json =>
      return reportOutcome file json (Document.check config.limits document)
  | .compile _ output => do
      deliver Host.ofStore output (← config.compile document)
  | .tools _ => do
      let accepted ← config.accept document
      return ⟨0,
        lines (accepted.spec.toolNames.names.map (toolLine config.library)),
        ""⟩
  | .format _ => do
      let accepted ← config.accept document
      return ⟨0, accepted.spec.canonical ++ "\n", ""⟩

theorem runCommand_eq_bind (config : Config) (command : Command) :
    runCommand Host.ofStore config command =
      loadDocument Host.ofStore command.file >>=
        fun document => answer config document command := by
  cases command <;> rfl

theorem execute_eq_settle
    (store : Store) (environment : Environment) (config : Option String)
    (command : Command) :
    execute store environment config command = settle ((do
      let loaded ← loadConfig Host.ofStore environment config
      runCommand Host.ofStore loaded command).run.run store) := by
  simp only [execute, runInvocation, StateT.run_bind]
  generalize StateT.run (ExceptT.run _) store = reached
  obtain ⟨result, after⟩ := reached
  cases result with
  | ok outcome => rfl
  | error error => rfl

/-- Commands about one document fail in the same way, or have all read the
same. -/
theorem execute_cases
    (store : Store) (environment : Environment) (config : Option String)
    (file : String) :
    (∃ error, ∀ command : Command, command.file = file →
      execute store environment config command = (errorOutcome error, store)) ∨
    ∃ loaded document, ∀ command : Command, command.file = file →
      execute store environment config command =
        settle ((answer loaded document command).run.run store) := by
  obtain ⟨result, readConfig⟩ := readOnly_loadConfig environment config store
  cases result with
  | error error =>
      refine .inl ⟨error, ?_⟩
      intro command _
      rw [execute_eq_settle, answers_bind_of_error readConfig]
      rfl
  | ok loaded =>
      obtain ⟨result, readDocument⟩ := readOnly_loadDocument file store
      cases result with
      | error error =>
          refine .inl ⟨error, ?_⟩
          rintro command rfl
          rw [execute_eq_settle, run_bind_of_ok readConfig, runCommand_eq_bind,
            answers_bind_of_error readDocument]
          rfl
      | ok document =>
          refine .inr ⟨loaded, document, ?_⟩
          rintro command rfl
          rw [execute_eq_settle, run_bind_of_ok readConfig, runCommand_eq_bind,
            run_bind_of_ok readDocument]

theorem exitCode_reportOutcome
    (file : String) (json : Bool) (report : Report) :
    (reportOutcome file json report).exitCode =
      if report.isValid then 0 else 1 := by
  cases json <;> rfl

section Answers

variable {config : Config} {document : Value}

theorem accept_eq_ok_iff :
    (∃ accepted, config.accept document = .ok accepted) ↔
      (Document.check config.limits document).isValid = true := by
  rw [Document.isValid_check_iff, Config.accept]
  cases Document.accept config.limits document with
  | ok accepted => simp
  | error report => simp

theorem answer_of_accept
    {accepted : Accepted} (isAccepted : config.accept document = .ok accepted)
    (store : Store) (file : String) :
    (∃ text,
      Answers (answer config document (.tools file)) store
        (.ok ⟨0, text, ""⟩)) ∧
      ∃ text,
        Answers (answer config document (.format file)) store
          (.ok ⟨0, text, ""⟩) := by
  simp only [answer, isAccepted]
  exact ⟨⟨_, rfl⟩, ⟨_, rfl⟩⟩

/-- A rejected document is rejected by all commands that want it accepted. -/
theorem answer_of_reject
    {error : Error} (isRejected : config.accept document = .error error)
    (store : Store) {command : Command}
    (noCheck : ∀ file json, command ≠ .check file json) :
    Answers (answer config document command) store (.error error) := by
  cases command with
  | check file json => exact absurd rfl (noCheck file json)
  | compile file output =>
      simp only [answer, Config.compile, isRejected]
      rfl
  | tools file =>
      simp only [answer, isRejected]
      rfl
  | format file =>
      simp only [answer, isRejected]
      rfl

end Answers

/-- The commands that are about one document either all fail, and those that
want it accepted in the same way, or `check` and all that only read succeed. -/
theorem execute_verdict
    (store : Store) (environment : Environment) (config : Option String)
    (file : String) :
    ((∀ json,
        (execute store environment config (.check file json)).1.exitCode = 1) ∧
      ∃ error, ∀ command : Command,
        command.file = file → (∀ file json, command ≠ .check file json) →
        execute store environment config command =
          (errorOutcome error, store)) ∨
    (∀ json,
      (execute store environment config (.check file json)).1.exitCode = 0) ∧
      (execute store environment config (.tools file)).1.exitCode = 0 ∧
      (execute store environment config (.format file)).1.exitCode = 0 := by
  rcases execute_cases store environment config file with
    ⟨error, failed⟩ | ⟨loaded, document, answered⟩
  · refine .inl ⟨?_, error, fun command about _ => failed command about⟩
    intro json
    rw [failed _ rfl]
    rfl
  · have checked : ∀ json,
        (execute store environment config (.check file json)).1.exitCode =
          if (Document.check loaded.limits document).isValid then 0
          else 1 := by
      intro json
      rw [answered _ rfl, ← exitCode_reportOutcome file json]
      rfl
    cases accepts : loaded.accept document with
    | error error =>
        have invalid :
            (Document.check loaded.limits document).isValid = false := by
          rw [← Bool.not_eq_true, ← accept_eq_ok_iff, accepts]
          simp
        refine .inl ⟨by simpa [invalid] using checked, error, ?_⟩
        intro command about noCheck
        have answers := answer_of_reject accepts store noCheck
        rw [Answers] at answers
        rw [answered command about, answers]
        rfl
    | ok accepted =>
        have valid : (Document.check loaded.limits document).isValid = true :=
          accept_eq_ok_iff.mp ⟨accepted, accepts⟩
        obtain ⟨⟨listed, lists⟩, ⟨printed, prints⟩⟩ :=
          answer_of_accept accepts store file
        rw [Answers] at lists prints
        refine .inr ⟨by simpa [valid] using checked, ?_, ?_⟩
        · rw [answered _ rfl, lists]
          rfl
        · rw [answered _ rfl, prints]
          rfl

/-- The report of a document is empty of errors exactly when it is accepted,
and is what a rejection carries.  So the commands agree: those that only read
succeed together, a program is compiled of valid documents only, and what
`check` refuses leaves neither output nor a changed file. -/
theorem commands_agree :
    (∀ (limits : Limits) (document : Value),
      ((Document.check limits document).isValid = true ↔
        ∃ accepted, Document.accept limits document = .ok accepted) ∧
      ∀ report, Document.accept limits document = .error report →
        report = Document.check limits document ∧ report.errors ≠ []) ∧
    ∀ (store : Store) (environment : Environment) (config : Option String)
      (file : String) (json : Bool) (output : Option String),
      let ran := execute store environment config
      ((ran (.format file)).1.exitCode = 0 ↔
        (ran (.check file json)).1.exitCode = 0) ∧
      ((ran (.tools file)).1.exitCode = 0 ↔
        (ran (.check file json)).1.exitCode = 0) ∧
      ((ran (.compile file output)).1.exitCode = 0 →
        (ran (.check file json)).1.exitCode = 0) ∧
      ((ran (.check file json)).1.exitCode = 1 →
        ∀ command ∈ [.compile file output, .format file, .tools file],
          (ran command).1.exitCode = 1 ∧ (ran command).1.stdout = "" ∧
          (ran command).2 = store) := by
  refine ⟨fun limits document =>
    ⟨Document.isValid_check_iff, fun report rejected =>
    Document.accept_eq_error rejected⟩, ?_⟩
  intro store environment config file json output ran
  rcases execute_verdict store environment config file with
    ⟨refused, error, failed⟩ | ⟨valid, lists, prints⟩
  · have checks : (ran (.check file json)).1.exitCode = 1 := refused json
    have each : ∀ command ∈ [.compile file output, .format file, .tools file],
        ran command = (errorOutcome error, store) := by
      simp only [List.forall_mem_cons]
      exact ⟨failed _ rfl (by simp), failed _ rfl (by simp),
        failed _ rfl (by simp), by simp⟩
    have fails : ∀ command ∈ [.compile file output, .format file, .tools file],
        (ran command).1.exitCode = 1 ∧ (ran command).1.stdout = "" ∧
        (ran command).2 = store := by
      intro command member
      rw [each command member]
      exact ⟨rfl, rfl, rfl⟩
    refine ⟨?_, ?_, ?_, fun _ => fails⟩
    · simp [checks, (fails (.format file) (by simp)).1]
    · simp [checks, (fails (.tools file) (by simp)).1]
    · simp [(fails (.compile file output) (by simp)).1]
  · have checks : (ran (.check file json)).1.exitCode = 0 := valid json
    have formats : (ran (.format file)).1.exitCode = 0 := prints
    have listsTools : (ran (.tools file)).1.exitCode = 0 := lists
    rw [checks, formats, listsTools]
    simp

end CommandLine

end Workflow
