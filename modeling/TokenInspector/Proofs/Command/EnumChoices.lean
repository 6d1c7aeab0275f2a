import TokenInspector.Command.Run
import TokenInspector.Proofs.Command.Options
import TokenInspector.Proofs.Enumeration.Entries

/-!
# The choice of an enum

The commands that work on an enum take it from a file or by its name. Options come in any order and
more than once, but arguments that are read leave a choice of exactly one of the two (`IsSingle`),
the one that is written among them (`IsGivenBy`), so no command that runs is without an enum. What
can still go wrong is said by `Refuses`: there is no built-in enum of the name, or the file cannot
be read, holds no object, or gives no member. A run fails in these cases and in no others
(`ofArguments_isSingle`).
-/

namespace TokenInspector

/-- The choice of a command that works on an enum. -/
def Command.choice? : Command → Option EnumChoice
  | format _ source _ | members source => some source
  | tokens _ _ _ => none

namespace EnumChoice

/-- Exactly one of file and name is given. -/
inductive IsSingle : EnumChoice → Prop
  | file (path : String) : IsSingle ⟨some path, none⟩
  | known (name : String) : IsSingle ⟨none, some name⟩

/-- The arguments hold one of the two options, once, with the value that is chosen, and do not hold
the other. -/
inductive IsWritten (scope : Scope) (arguments : List String) : EnumChoice → Prop
  | file {path : String} : scope.Writes .enumFile path arguments →
      arguments.countP (scope.meets .enumFile) = 1 → arguments.countP (scope.meets .known) = 0 →
      IsWritten scope arguments ⟨some path, none⟩
  | known {name : String} : scope.Writes .known name arguments →
      arguments.countP (scope.meets .enumFile) = 0 → arguments.countP (scope.meets .known) = 1 →
      IsWritten scope arguments ⟨none, some name⟩

/-- The arguments of the program write the choice after the command. -/
def IsGivenBy (choice : EnumChoice) (arguments : List String) : Prop :=
  ∃ before word verb rest, arguments = before ++ word :: rest ∧
    (∀ argument ∈ before, Verb.ofName? argument = none) ∧ Verb.ofName? word = some verb ∧
    choice.IsWritten (.command verb) (unescaped rest)

/-- Why a choice gives no enum. -/
inductive Refuses (read : FileReader) : EnumChoice → Failure → Prop
  /-- No built-in enum has the name, whatever the case of its ASCII letters. -/
  | unknownEnum {name : String} :
      (∀ known ∈ ["SyntaxKind", "TokenFlags", "ModifierFlags", "NodeFlags"],
        known.toList.map Char.toLower ≠ name.toList.map Char.toLower) →
      Refuses read ⟨none, some name⟩ (.unknownEnum name)
  | unreadable {path : String} {cause : ReadFailure} : read path = .error cause →
      Refuses read ⟨some path, none⟩ (.unreadable .definition path cause)
  /-- The text is not JSON, or a JSON value that is no object. -/
  | notAnObject {path text : String} {cause : DefinitionError} : read path = .ok text →
      (∀ entries, Json.ofText text ≠ .ok (.object entries)) →
      EnumDefinition.ofText text = .error cause →
      Refuses read ⟨some path, none⟩ (.badDefinition path cause)
  /-- No key has a whole number that fits 64 bits as its last value. -/
  | noMembers {path text : String} {entries : List (String × Json Number)} :
      read path = .ok text → Json.ofText text = .ok (.object entries) →
      (∀ name n, Json.lastValue? entries name = some (.number n) → n.memberValue? = none) →
      Refuses read ⟨some path, none⟩ (.noMembers path)

end EnumChoice

/-! ### Reading the arguments -/

section

variable {before progress : Progress} {scope : Scope} {escaped : Bool} {verb : Verb}
  {command : Command} {argument : String} {arguments : List String} {line : CommandLine}
  {choice : EnumChoice}

theorem EnumChoice.IsWritten.isSingle (h : choice.IsWritten scope arguments) :
    choice.IsSingle := by
  cases h with
  | @file path => exact .file path
  | @known name => exact .known name

theorem EnumChoice.IsGivenBy.isSingle (h : choice.IsGivenBy arguments) : choice.IsSingle := by
  obtain ⟨_, _, _, _, -, -, -, hwritten⟩ := h
  exact hwritten.isSingle

theorem EnumChoice.IsGivenBy.cons (hargument : Verb.ofName? argument = none)
    (h : choice.IsGivenBy arguments) : choice.IsGivenBy (argument :: arguments) := by
  obtain ⟨before, word, verb, rest, rfl, hbefore, hword, hwritten⟩ := h
  exact ⟨argument :: before, word, verb, rest, rfl, List.forall_mem_cons.mpr ⟨hargument, hbefore⟩,
    hword, hwritten⟩

/-- The two options are checked against each other where the choice is made. -/
theorem Progress.enumChoice_eq_ok (h : progress.enumChoice = .ok choice) :
    (∃ path, progress.options.lookup .enumFile = some path ∧
      progress.options.lookup .known = none ∧ choice = ⟨some path, none⟩) ∨
    ∃ name, progress.options.lookup .enumFile = none ∧
      progress.options.lookup .known = some name ∧ choice = ⟨none, some name⟩ := by
  rw [enumChoice] at h
  cases hfile : progress.options.lookup .enumFile with
  | none =>
    cases hknown : progress.options.lookup .known with
    | none =>
      rw [hfile, hknown] at h
      cases h
    | some name =>
      rw [hfile, hknown] at h
      cases h
      exact .inr ⟨name, rfl, rfl, rfl⟩
  | some path =>
    cases hknown : progress.options.lookup .known with
    | none =>
      rw [hfile, hknown] at h
      cases h
      exact .inl ⟨path, rfl, rfl, rfl⟩
    | some name =>
      rw [hfile, hknown] at h
      cases h

theorem Progress.isWritten_enumChoice
    (h : Progress.start.takeAll scope false arguments = .ok progress)
    (hchoice : progress.enumChoice = .ok choice) :
    choice.IsWritten scope (unescaped arguments) := by
  have hfiles := has_takeAll h .enumFile
  have hnames := has_takeAll h .known
  rw [has] at hfiles hnames
  rcases enumChoice_eq_ok hchoice with ⟨path, hfile, hknown, rfl⟩ | ⟨name, hfile, hknown, rfl⟩
  · rw [hfile] at hfiles
    rw [hknown] at hnames
    exact .file (writes_takeAll h rfl hfile) hfiles.symm hnames.symm
  · rw [hfile] at hfiles
    rw [hknown] at hnames
    exact .known (writes_takeAll h rfl hknown) hfiles.symm hnames.symm

theorem Progress.enumChoice_of_command (h : progress.command verb = .ok command)
    (hchoice : command.choice? = some choice) : progress.enumChoice = .ok choice := by
  cases verb with
  | format =>
    obtain ⟨source, hsource, h⟩ := bind_eq_ok.mp h
    cases hliteral : progress.literal with
    | none =>
      rw [hliteral] at h
      cases h
    | some value =>
      rw [hliteral] at h
      cases h
      cases hchoice
      exact hsource
  | members =>
    obtain ⟨source, hsource, h⟩ := bind_eq_ok.mp h
    cases h
    cases hchoice
    exact hsource
  | tokens =>
    rw [Progress.command] at h
    split at h
    · cases h
      cases hchoice
    · cases h

theorem CommandLine.isWritten_ofCommand (h : ofCommand before verb arguments = .ok line)
    (hchoice : line.command.choice? = some choice) :
    choice.IsWritten (.command verb) (unescaped arguments) := by
  obtain ⟨progress, hprogress, h⟩ := bind_eq_ok.mp h
  obtain ⟨command, hcommand, h⟩ := bind_eq_ok.mp h
  cases h
  exact Progress.isWritten_enumChoice hprogress (Progress.enumChoice_of_command hcommand hchoice)

/-- The arguments are read up to the command, whose own arguments make the choice. -/
theorem CommandLine.isGivenBy_ofProgress (h : ofProgress before escaped arguments = .ok line)
    (hchoice : line.command.choice? = some choice) : choice.IsGivenBy arguments := by
  induction arguments generalizing before escaped with
  | nil => cases h
  | cons argument rest ih =>
    rw [ofProgress] at h
    split at h
    · cases h
    · split at h
      · rename_i verb hverb
        exact ⟨[], argument, verb, rest, rfl, by simp, hverb, isWritten_ofCommand h hchoice⟩
      · rename_i hverb
        split at h
        · cases h
        · split at h
          · exact (ih h).cons hverb
          · obtain ⟨next, -, h⟩ := bind_eq_ok.mp h
            exact (ih h).cons hverb

end

/-! ### Loading the enum -/

theorem BuiltIn.find?_eq_none {name : String} : find? name = none ↔
    ∀ known ∈ ["SyntaxKind", "TokenFlags", "ModifierFlags", "NodeFlags"],
      known.toList.map Char.toLower ≠ name.toList.map Char.toLower := by
  have hnames : ["SyntaxKind", "TokenFlags", "ModifierFlags", "NodeFlags"] = all.map BuiltIn.name :=
    rfl
  rw [hnames, List.forall_mem_map, find?, List.find?_eq_none]
  simp only [sameName, decide_eq_true_eq, ne_eq]

namespace EnumDefinition

variable {text : String} {entries : List (String × Json Number)}

theorem members_eq_nil_iff : (ofEntries entries).members = [] ↔
    ∀ name n, Json.lastValue? entries name = some (.number n) → n.memberValue? = none := by
  rw [List.eq_nil_iff_forall_not_mem]
  simp only [mem_ofEntries]
  constructor
  · intro h name n hlast
    cases hvalue : n.memberValue? with
    | none => rfl
    | some value => exact absurd ⟨n, hlast, hvalue⟩ (h ⟨value, name⟩)
  · rintro h member ⟨n, hlast, hvalue⟩
    rw [h _ n hlast] at hvalue
    cases hvalue

/-- A text is refused iff it holds no object. -/
theorem exists_error_iff : (∃ cause, ofText text = .error cause) ↔
    ∀ entries, Json.ofText text ≠ .ok (.object entries) := by
  constructor
  · rintro ⟨cause, herror⟩ entries hentries
    rw [ofText_eq_ok.mpr ⟨entries, hentries, rfl⟩] at herror
    cases herror
  · intro h
    cases hread : ofText text with
    | error cause => exact ⟨cause, rfl⟩
    | ok definition =>
      obtain ⟨entries, hentries, -⟩ := ofText_eq_ok.mp hread
      exact absurd hentries (h entries)

end EnumDefinition

section

variable {read : FileReader} {path name : String} {choice : EnumChoice} {failure : Failure}

theorem readFor_eq_error {role : FileRole} : readFor read role path = .error failure ↔
    ∃ cause, read path = .error cause ∧ failure = .unreadable role path cause := by
  rw [readFor, mapError_eq_error]

theorem loadDefinition_eq_error : loadDefinition read path = .error failure ↔
    (∃ cause, read path = .error cause ∧ failure = .unreadable .definition path cause) ∨
    ∃ text, read path = .ok text ∧
      ((∃ cause, EnumDefinition.ofText text = .error cause ∧ failure = .badDefinition path cause) ∨
      ∃ definition, EnumDefinition.ofText text = .ok definition ∧ definition.members = [] ∧
        failure = .noMembers path) := by
  have hempty : ∀ definition : EnumDefinition,
      (if definition.isEmpty then throw (.noMembers path) else return definition) =
          (.error failure : Except Failure EnumDefinition) ↔
        definition.members = [] ∧ failure = .noMembers path := by
    intro definition
    rw [EnumDefinition.isEmpty]
    cases definition.members <;> simp [throw, throwThe, MonadExceptOf.throw, pure, Except.pure,
      eq_comm]
  simp only [loadDefinition, readFor, bind_eq_error, mapError_eq_error, mapError_eq_ok, hempty]

theorem loadDefinition_eq_ok {definition : EnumDefinition} :
    loadDefinition read path = .ok definition ↔ ∃ text, read path = .ok text ∧
      EnumDefinition.ofText text = .ok definition ∧ definition.members ≠ [] := by
  have hmembers : ∀ found : EnumDefinition,
      (if found.isEmpty then throw (.noMembers path) else return found) =
          (.ok definition : Except Failure EnumDefinition) ↔
        found = definition ∧ definition.members ≠ [] := by
    intro found
    constructor
    · intro h
      split at h
      · cases h
      · rename_i hsome
        cases h
        exact ⟨rfl, fun hnil => hsome (List.isEmpty_iff.mpr hnil)⟩
    · rintro ⟨rfl, hsome⟩
      exact if_neg fun hempty => hsome (List.isEmpty_iff.mp hempty)
  simp only [loadDefinition, readFor, bind_eq_ok, mapError_eq_ok, hmembers]
  refine exists_congr fun text => and_congr_right fun _ => ?_
  constructor
  · rintro ⟨_, htext, rfl, hsome⟩
    exact ⟨htext, hsome⟩
  · rintro ⟨htext, hsome⟩
    exact ⟨definition, htext, rfl, hsome⟩

namespace EnumChoice

theorem load_known : load ⟨none, some name⟩ read = .error failure ↔
    BuiltIn.find? name = none ∧ failure = .unknownEnum name := by
  simp only [load]
  cases BuiltIn.find? name with
  | none => simp [eq_comm]
  | some known => simp

theorem load_file : load ⟨some path, none⟩ read = .error failure ↔
    loadDefinition read path = .error failure := by
  rw [load, bind_pure_eq_error]

/-- A choice of exactly one of file and name is loaded unless it refuses. -/
theorem load_eq_error_iff (h : choice.IsSingle) :
    choice.load read = .error failure ↔ choice.Refuses read failure := by
  cases h with
  | known name =>
    rw [load_known, BuiltIn.find?_eq_none]
    constructor
    · rintro ⟨hname, rfl⟩
      exact .unknownEnum hname
    · rintro ⟨hname⟩
      exact ⟨hname, rfl⟩
  | file path =>
    rw [load_file, loadDefinition_eq_error]
    constructor
    · rintro (⟨cause, hread, rfl⟩ | ⟨text, hread, hload⟩)
      · exact .unreadable hread
      · rcases hload with ⟨cause, htext, rfl⟩ | ⟨definition, htext, hnil, rfl⟩
        · exact .notAnObject hread (EnumDefinition.exists_error_iff.mp ⟨cause, htext⟩) htext
        · obtain ⟨entries, hentries, rfl⟩ := EnumDefinition.ofText_eq_ok.mp htext
          exact .noMembers hread hentries (EnumDefinition.members_eq_nil_iff.mp hnil)
    · intro hrefuses
      cases hrefuses with
      | unreadable hread => exact .inl ⟨_, hread, rfl⟩
      | notAnObject hread _ htext => exact .inr ⟨_, hread, .inl ⟨_, htext, rfl⟩⟩
      | noMembers hread hentries hnone =>
        have htext := EnumDefinition.ofText_eq_ok.mpr ⟨_, hentries, rfl⟩
        exact .inr ⟨_, hread, .inr ⟨_, htext, EnumDefinition.members_eq_nil_iff.mpr hnone, rfl⟩⟩

end EnumChoice

/-! ### Running the command -/

variable {command : Command} {line : CommandLine} {colour : Bool}

/-- Output does not fail. -/
theorem CommandLine.run_eq_error : line.run read colour = .error failure ↔
    line.command.run read = .error failure := by
  rw [CommandLine.run, bind_pure_eq_error]

/-- A command that works on an enum fails only where the enum cannot be loaded. -/
theorem Command.run_eq_error (hchoice : command.choice? = some choice) :
    command.run read = .error failure ↔ choice.load read = .error failure := by
  cases command with
  | format value source flags =>
    cases hchoice
    exact bind_pure_eq_error
  | members source =>
    cases hchoice
    exact bind_pure_eq_error
  | tokens tokenPath sourcePath json => cases hchoice

theorem Command.run_tokens_ne_noEnum {tokenPath sourcePath : String} {json : Bool} :
    (Command.tokens tokenPath sourcePath json).run read ≠ .error .noEnum := by
  intro h
  rw [Command.run, bind_eq_error] at h
  rcases h with hresults | ⟨results, -, hsource⟩
  · rw [loadResults, bind_eq_error] at hresults
    rcases hresults with hread | ⟨text, -, hfile⟩
    · obtain ⟨_, -, hcause⟩ := readFor_eq_error.mp hread
      cases hcause
    · rw [bind_pure_eq_error] at hfile
      obtain ⟨_, -, hcause⟩ := mapError_eq_error.mp hfile
      cases hcause
  · rw [bind_pure_eq_error] at hsource
    obtain ⟨_, -, hcause⟩ := readFor_eq_error.mp hsource
    cases hcause

/-- No command that runs is without an enum that it needs. -/
theorem Command.run_ne_noEnum
    (hsingle : ∀ choice, command.choice? = some choice → choice.IsSingle) :
    command.run read ≠ .error .noEnum := by
  cases hchoice : command.choice? with
  | some choice =>
    rw [Ne, Command.run_eq_error hchoice, EnumChoice.load_eq_error_iff (hsingle choice hchoice)]
    intro hrefuses
    cases hrefuses
  | none =>
    cases command with
    | tokens tokenPath sourcePath json => exact run_tokens_ne_noEnum
    | format _ _ _ | members _ => cases hchoice

theorem prefix_append {start s : String} (h : start.toList <+: s.toList) (t : String) :
    start.toList <+: (s ++ t).toList := by
  rw [String.toList_append]
  exact h.trans (List.prefix_append _ _)

/-- How the messages of the other failures begin. -/
theorem Failure.exists_prefix (h : failure ≠ .noEnum) :
    ∃ start ∈ ["unknown enum '", "failed to read ", "failed to load enum definition ",
      "enum definition ", "failed to parse tokens "], start.toList <+: failure.message.toList := by
  cases failure with
  | noEnum => exact absurd rfl h
  | unknownEnum name =>
    exact ⟨"unknown enum '", by simp, prefix_append (prefix_append (prefix_append
      (prefix_append List.prefix_rfl _) _) _) _⟩
  | unreadable role path cause =>
    exact ⟨"failed to read ", by simp, prefix_append (prefix_append
      (prefix_append List.prefix_rfl _) _) _⟩
  | badDefinition path cause =>
    exact ⟨"failed to load enum definition ", by simp, prefix_append List.prefix_rfl _⟩
  | noMembers path =>
    exact ⟨"enum definition ", by simp, prefix_append (prefix_append List.prefix_rfl _) _⟩
  | badTokens path cause =>
    exact ⟨"failed to parse tokens ", by simp, prefix_append List.prefix_rfl _⟩

/-- The message is that of no other failure. -/
theorem Failure.eq_noEnum_of_message
    (h : failure.message = "either --enum or --known is required") : failure = .noEnum := by
  by_contra hne
  obtain ⟨start, hstart, hprefix⟩ := Failure.exists_prefix hne
  rw [h] at hprefix
  revert start
  decide

end

/-- Arguments that are read for a command on an enum choose exactly one of file and name, the one
that is written after the command, and the command fails just where the choice gives no enum. No
command that is run misses an enum, and none says so. -/
theorem ofArguments_isSingle (arguments : List String) (line : CommandLine)
    (h : CommandLine.ofArguments arguments = .ok line) :
    (∀ choice, line.command.choice? = some choice →
      choice.IsSingle ∧ choice.IsGivenBy arguments ∧
      ∀ (read : FileReader) (colour : Bool) (failure : Failure),
        line.run read colour = .error failure ↔ choice.Refuses read failure) ∧
    ∀ (read : FileReader) (colour : Bool) (failure : Failure),
      line.run read colour = .error failure →
        failure ≠ .noEnum ∧ failure.message ≠ "either --enum or --known is required" := by
  have hgiven : ∀ choice, line.command.choice? = some choice → choice.IsGivenBy arguments :=
    fun _ => CommandLine.isGivenBy_ofProgress h
  constructor
  · intro choice hchoice
    have hsingle := (hgiven choice hchoice).isSingle
    refine ⟨hsingle, hgiven choice hchoice, fun read colour failure => ?_⟩
    rw [CommandLine.run_eq_error, Command.run_eq_error hchoice,
      EnumChoice.load_eq_error_iff hsingle]
  · intro read colour failure hrun
    have hne : failure ≠ .noEnum := by
      rintro rfl
      exact Command.run_ne_noEnum (fun choice hchoice => (hgiven choice hchoice).isSingle)
        (CommandLine.run_eq_error.mp hrun)
    exact ⟨hne, fun hmessage => hne (Failure.eq_noEnum_of_message hmessage)⟩

theorem ofArguments_isSingle_unknown :
    CommandLine.ofArguments ["--noColor", "format", "--known=nodeflag", "-5", "--flags"] =
      .ok ⟨true, .format (-5) ⟨none, some "nodeflag"⟩ true⟩ ∧
    CommandLine.run ⟨true, .format (-5) ⟨none, some "nodeflag"⟩ true⟩
        (fun _ => .error .notFound) true = .error (.unknownEnum "nodeflag") ∧
    (Failure.unknownEnum "nodeflag").message ≠ "either --enum or --known is required" := by
  have hline : CommandLine.ofArguments
      ["--noColor", "format", "--known=nodeflag", "-5", "--flags"] =
      .ok ⟨true, .format (-5) ⟨none, some "nodeflag"⟩ true⟩ := rfl
  obtain ⟨hchoice, hmessage⟩ := ofArguments_isSingle _ _ hline
  obtain ⟨-, -, hfails⟩ := hchoice _ rfl
  have hrun := (hfails (fun _ => .error .notFound) true _).mpr (.unknownEnum (by decide))
  exact ⟨hline, hrun, (hmessage _ _ _ hrun).2⟩

end TokenInspector
