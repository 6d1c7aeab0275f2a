import TokenInspector.Proofs.Command.EnumChoices
import Mathlib.Data.List.TakeWhile

/-!
# Ways to write a command line

A command line is made of clauses: options, each with the value that it takes, and the literal.
`Clause.Spells` says how a clause is written, as one argument or two, and `CommandLine.Spells` how a
whole line is: the command and then its clauses in any order, the option for output without colour
among them or in front of the command.

Reading keeps up with the clauses: after the arguments of a clause, what was read settles to what
was settled before and the clause (`takeAll_clause`), and so through any number of clauses
(`takeAll_clauses`). Since no two clauses are about the same subject, their order does not matter
(`said_addAll`), and every way to write a line is read as that line (`ofArguments_of_spells`).
-/

namespace TokenInspector

/-- A text that can stand as an argument of its own after an option: not empty, and with no hyphen
in front. -/
structure IsName (text : String) : Prop where
  ne_empty : text ≠ ""
  noHyphen : text.toList.head? ≠ some '-'

/-- One thing that arguments say: an option with its value, which is empty if the option takes none,
or the value of the literal. -/
inductive Clause where
  | option (opt : Opt) (value : String)
  | literal (value : Int64)
  deriving DecidableEq, Repr

namespace Clause

/-- How a clause is written. -/
inductive Spells : Clause → List String → Prop
  | flag {opt : Opt} {name : String} : opt.takesValue = false → name ∈ opt.spellings →
      Spells (.option opt "") ["--" ++ name]
  | next {opt : Opt} {name value : String} : opt.takesValue = true → name ∈ opt.spellings →
      Spells (.option opt value) ["--" ++ name, value]
  | attached {opt : Opt} {name value : String} : opt.takesValue = true → name ∈ opt.spellings →
      Spells (.option opt value) ["--" ++ name ++ "=" ++ value]
  | literal {text : String} {value : Int64} : Literal.ofText text = .ok value →
      Spells (.literal value) [text]

/-- Clauses written one after the other. -/
inductive SpellAll : List Clause → List String → Prop
  | nil : SpellAll [] []
  | cons {clause : Clause} {clauses : List Clause} {words rest : List String} :
      clause.Spells words → SpellAll clauses rest → SpellAll (clause :: clauses) (words ++ rest)

/-- What a clause is about: an option, or the literal. -/
def subject : Clause → Option Opt
  | option opt _ => some opt
  | literal _ => none

/-- The clause of an option that takes no value, if it is given. -/
def ofFlag (opt : Opt) (given : Bool) : List Clause := if given then [option opt ""] else []

/-- The clause can stand in a place: the option is known there and does not end the run, and its
value is a name, or a literal is expected. -/
def Fits (scope : Scope) : Clause → Prop
  | option opt value =>
    opt ∈ scope.options ∧ opt.letter? = none ∧ (opt.takesValue = true → IsName value)
  | literal _ => scope.takesLiteral = true

end Clause

/-! ### Forms of arguments -/

theorem spelling_chars : ∀ opt : Opt, ∀ name ∈ opt.spellings,
    name.toList ≠ [] ∧ ∀ c ∈ name.toList, decide (c ≠ '=') = true := by
  intro opt
  cases opt <;> simp [Opt.spellings]

namespace ArgumentForm

variable {opt : Opt} {name : String}

theorem of_hyphens {argument : String} {body : List Char}
    (h : argument.toList = '-' :: '-' :: body) (hne : body ≠ []) :
    of argument = match body.dropWhile (· ≠ '=') with
      | [] => long (String.ofList (body.takeWhile (· ≠ '='))) none
      | _ :: attached =>
        long (String.ofList (body.takeWhile (· ≠ '='))) (some (String.ofList attached)) := by
  cases body with
  | nil => exact absurd rfl hne
  | cons c rest =>
    unfold of
    rw [h]
    rfl

theorem of_spelling (h : name ∈ opt.spellings) : of ("--" ++ name) = long name none := by
  obtain ⟨hne, hchars⟩ := spelling_chars opt name h
  have hlist : ("--" ++ name).toList = '-' :: '-' :: name.toList := by
    rw [String.toList_append]
    rfl
  have hname : name.toList.takeWhile (· ≠ '=') = name.toList :=
    List.takeWhile_eq_self_iff.mpr hchars
  have hrest : name.toList.dropWhile (· ≠ '=') = [] := List.dropWhile_eq_nil_iff.mpr hchars
  rw [of_hyphens hlist hne, hname, hrest]
  show long (String.ofList name.toList) none = _
  rw [String.ofList_toList]

theorem of_attached (h : name ∈ opt.spellings) (value : String) :
    of ("--" ++ name ++ "=" ++ value) = long name (some value) := by
  obtain ⟨hne, hchars⟩ := spelling_chars opt name h
  have hlist : ("--" ++ name ++ "=" ++ value).toList =
      '-' :: '-' :: (name.toList ++ '=' :: value.toList) := by
    simp only [String.toList_append, List.append_assoc]
    rfl
  have hname : (name.toList ++ '=' :: value.toList).takeWhile (· ≠ '=') = name.toList := by
    rw [List.takeWhile_append_of_pos hchars]
    simp
  have hrest : (name.toList ++ '=' :: value.toList).dropWhile (· ≠ '=') = '=' :: value.toList := by
    rw [List.dropWhile_append_of_pos hchars]
    simp
  rw [of_hyphens hlist (by simp), hname, hrest]
  show long (String.ofList name.toList) (some (String.ofList value.toList)) = _
  rw [String.ofList_toList, String.ofList_toList]

theorem of_spelling_ne_escape (h : name ∈ opt.spellings) : of ("--" ++ name) ≠ escape := by
  rw [of_spelling h]
  exact ArgumentForm.noConfusion

theorem of_name {text : String} (h : IsName text) : of text = word := by
  have hhead := h.noHyphen
  unfold of
  split <;> simp_all

/-- An argument begins with two hyphens, is made of letters after one, or is a word. -/
theorem of_cases (argument : String) : (∃ body, argument.toList = '-' :: '-' :: body) ∨
    (∃ c rest, argument.toList = '-' :: c :: rest ∧ of argument = letters (c :: rest)) ∨
    of argument = word := by
  unfold of
  split
  · rename_i hlist
    exact .inl ⟨[], hlist⟩
  · rename_i body _ hlist
    exact .inl ⟨body, hlist⟩
  · rename_i c rest _ _ hlist
    exact .inr (.inl ⟨c, rest, hlist, rfl⟩)
  · exact .inr (.inr rfl)

end ArgumentForm

/-- The spellings of the options that are known in a place are distinct. -/
theorem Scope.long?_spelling (scope : Scope) : ∀ opt ∈ scope.options, ∀ name ∈ opt.spellings,
    scope.long? name = some opt := by
  rcases scope with _ | verb
  · decide
  · cases verb <;> decide

namespace Literal

/-- Two hyphens begin no literal. -/
theorem read_hyphens (body : List Char) : read ('-' :: '-' :: body) = .error .unexpectedSign := rfl

theorem read_letter (rest : List Char) :
    read ('-' :: 'h' :: rest) = .error (.digits .invalidDigit) := rfl

variable {text : String} {value : Int64}

/-- A literal looks like a word, or like letters of which the first is no option. -/
theorem form_cases (h : ofText text = .ok value) : ArgumentForm.of text = .word ∨
    ∃ c rest, ArgumentForm.of text = .letters (c :: rest) ∧ c ≠ 'h' := by
  rw [ofText] at h
  rcases ArgumentForm.of_cases text with ⟨body, hlist⟩ | ⟨c, rest, hlist, hform⟩ | hform
  · rw [hlist, read_hyphens] at h
    cases h
  · refine .inr ⟨c, rest, hform, ?_⟩
    rintro rfl
    rw [hlist, read_letter] at h
    cases h
  · exact .inl hform

end Literal

/-! ### Clauses that are read -/

namespace Progress

variable {before settled : Progress} {scope : Scope} {opt : Opt} {name value : String}
  {clause other : Clause} {clauses : List Clause} {words : List String}

/-- What is settled after a clause. -/
def add (settled : Progress) : Clause → Progress
  | .option opt value => { settled with options := (opt, value) :: settled.options }
  | .literal value => { settled with literal := some value }

/-- The clause about a subject that was read. -/
def said (progress : Progress) : Option Opt → Option Clause
  | some opt => (progress.options.lookup opt).map (.option opt)
  | none => progress.literal.map .literal

theorem said_some_eq {progress : Progress} :
    progress.said (some opt) = some (.option opt value) ↔
      progress.options.lookup opt = some value := by
  simp [said]

theorem said_some_eq_none {progress : Progress} :
    progress.said (some opt) = none ↔ progress.options.lookup opt = none := by
  simp [said]

theorem said_add (settled : Progress) (clause : Clause) (subject : Option Opt) :
    (settled.add clause).said subject =
      if subject = clause.subject then some clause else settled.said subject := by
  cases clause with
  | option opt value =>
    cases subject with
    | none => rfl
    | some other =>
      simp only [add, said, List.lookup_cons, Clause.subject, Option.some.injEq]
      by_cases h : other = opt
      · subst h
        simp
      · simp [h, beq_eq_false_iff_ne.mpr h]
  | literal value => cases subject <;> rfl

theorem said_addAll_of_notMem {subject : Option Opt}
    (h : subject ∉ clauses.map Clause.subject) :
    (clauses.foldl add settled).said subject = settled.said subject := by
  induction clauses generalizing settled with
  | nil => rfl
  | cons clause rest ih =>
    rw [List.map_cons, List.mem_cons, not_or] at h
    rw [List.foldl_cons, ih h.2, said_add, if_neg h.1]

/-- Of clauses about distinct subjects each is read, whatever their order. -/
theorem said_addAll_of_mem (hnodup : (clauses.map Clause.subject).Nodup) (h : clause ∈ clauses) :
    (clauses.foldl add settled).said clause.subject = some clause := by
  induction clauses generalizing settled with
  | nil => cases h
  | cons first rest ih =>
    obtain ⟨hfirst, hrest⟩ := List.nodup_cons.mp hnodup
    rw [List.foldl_cons]
    rcases List.mem_cons.mp h with rfl | h
    · rw [said_addAll_of_notMem hfirst, said_add, if_pos rfl]
    · exact ih hrest h

/-- What was read about a subject is what any listing of the clauses says about it. -/
theorem said_addAll {listed : List Clause} (hperm : clauses.Perm listed)
    (hnodup : (listed.map Clause.subject).Nodup) (subject : Option Opt) :
    (clauses.foldl add start).said subject = listed.find? (·.subject = subject) := by
  have hnodup : (clauses.map Clause.subject).Nodup := (hperm.map _).nodup_iff.mpr hnodup
  cases hfind : listed.find? (·.subject = subject) with
  | some clause =>
    have hsubject : clause.subject = subject := by simpa using List.find?_some hfind
    have hmem : clause ∈ clauses := hperm.mem_iff.mpr (List.mem_of_find?_eq_some hfind)
    rw [← hsubject, said_addAll_of_mem hnodup hmem]
  | none =>
    have hother : subject ∉ clauses.map Clause.subject := by
      rw [(hperm.map Clause.subject).mem_iff, List.mem_map]
      rintro ⟨clause, hmem, rfl⟩
      simpa using List.find?_eq_none.mp hfind clause hmem
    rw [said_addAll_of_notMem hother]
    cases subject <;> rfl

theorem settle_of_nothing (h : before.pending = .nothing) : before.settle = .ok before := by
  rw [settle, h]

theorem store_of_new (hnew : settled.said (some opt) = none)
    (hvalue : opt.takesValue = true → value ≠ "") :
    settled.store opt value = .ok (settled.add (.option opt value)) := by
  have hhas : settled.has opt = false := by
    rw [has, said_some_eq_none.mp hnew]
    rfl
  have hpath : (opt.isPath && value = "") = false := by
    cases opt with
    | enumFile | tokens | source => simpa [Opt.isPath] using hvalue rfl
    | noColor | help | version | known | flags | json => rfl
  rw [store, hhas, if_neg Bool.false_ne_true, hpath, if_neg Bool.false_ne_true]
  rfl

/-! ### Arguments of a clause -/

section

variable (hsettle : before.settle = .ok settled)

include hsettle

/-- An option without value is settled at once. -/
theorem take_flag (hfits : (Clause.option opt "").Fits scope) (htakes : opt.takesValue = false)
    (hname : name ∈ opt.spellings) (hnew : settled.said (some opt) = none) :
    before.take scope ("--" ++ name) = .ok (settled.add (.option opt "")) := by
  obtain ⟨hopt, hletter, -⟩ := hfits
  have hstore : settled.store opt "" = .ok (settled.add (.option opt "")) :=
    store_of_new hnew (by simp [htakes])
  simp only [take, ArgumentForm.of_spelling hname, scope.long?_spelling opt hopt name hname,
    takeLong, htakes, takeFlag, hsettle]
  cases opt with
  | help | version => cases hletter
  | noColor | enumFile | known | flags | tokens | source | json => exact hstore

theorem take_waiting (hopt : opt ∈ scope.options) (htakes : opt.takesValue = true)
    (hname : name ∈ opt.spellings) :
    before.take scope ("--" ++ name) = .ok { settled with pending := .option opt none } := by
  simp only [take, ArgumentForm.of_spelling hname, scope.long?_spelling opt hopt name hname,
    takeLong, htakes, hsettle]
  rfl

theorem take_attached (hopt : opt ∈ scope.options) (htakes : opt.takesValue = true)
    (hname : name ∈ opt.spellings) (value : String) :
    before.take scope ("--" ++ name ++ "=" ++ value) = settled.store opt value := by
  simp only [take, ArgumentForm.of_attached hname, scope.long?_spelling opt hopt name hname,
    takeLong, htakes, hsettle]
  rfl

/-- Before the literal was met, one is awaited. -/
theorem awaitsLiteral_of_settle (hscope : scope.takesLiteral = true)
    (hnew : settled.literal = none) : before.awaitsLiteral scope = true := by
  rw [settle] at hsettle
  rw [awaitsLiteral, hscope]
  split at hsettle
  · cases hsettle
    rename_i hpending
    simp [hnew, hpending]
  · cases hsettle
  · rename_i hpending
    obtain ⟨-, rfl⟩ := store_eq_ok hsettle
    simpa [hpending] using hnew
  · split at hsettle
    · cases hsettle
      cases hnew
    · cases hsettle

theorem takeWord_of_settle (hawaits : before.awaitsLiteral scope = true) (text : String) :
    before.takeWord scope text = .ok { settled with pending := .literal text } := by
  unfold takeWord
  split
  · rename_i hpending
    rw [settle, hpending] at hsettle
    cases hsettle
  · rw [place, if_pos hawaits, hsettle]
    rfl

end

/-- What looks like letters after a hyphen is taken as the literal where one is awaited. -/
theorem take_literal {text : String} {value : Int64} (htext : Literal.ofText text = .ok value)
    (hawaits : before.awaitsLiteral scope = true) :
    before.take scope text = before.takeWord scope text := by
  obtain rfl : scope = .command .format := by
    rcases scope with _ | verb
    · simp [awaitsLiteral, Scope.takesLiteral] at hawaits
    · cases verb with
      | format => rfl
      | members | tokens => simp [awaitsLiteral, Scope.takesLiteral] at hawaits
  rcases Literal.form_cases htext with hform | ⟨c, rest, hform, hc⟩
  · rw [take, hform]
  · have hshort : (Scope.command .format).short? c = none := by
      simp [Scope.short?, Scope.options, Opt.letter?, hc.symm]
    simp [take, hform, hawaits, hshort]

theorem take_name (h : IsName value) (hpending : before.pending = .option opt none) :
    before.take scope value = .ok { before with pending := .option opt (some value) } := by
  rw [take, ArgumentForm.of_name h]
  show before.takeWord scope value = _
  rw [takeWord, hpending]

theorem takeAll_cons {after : Progress} {argument : String}
    (hform : ArgumentForm.of argument ≠ .escape) (htake : before.take scope argument = .ok after)
    (rest : List String) :
    before.takeAll scope false (argument :: rest) = after.takeAll scope false rest := by
  rw [takeAll, if_neg Bool.false_ne_true, if_neg hform, htake]
  rfl

/-- The arguments of a clause leave what settles to what was settled before and the clause. -/
theorem takeAll_clause (hsettle : before.settle = .ok settled) (hfits : clause.Fits scope)
    (hnew : settled.said clause.subject = none) (hspells : clause.Spells words)
    (rest : List String) :
    ∃ after : Progress, after.settle = .ok (settled.add clause) ∧
      before.takeAll scope false (words ++ rest) = after.takeAll scope false rest := by
  have hpending := pending_settle hsettle
  cases hspells with
  | @flag opt name htakes hname =>
    have htake := take_flag hsettle hfits htakes hname hnew
    refine ⟨_, settle_of_nothing ?_,
      takeAll_cons (ArgumentForm.of_spelling_ne_escape hname) htake rest⟩
    exact hpending
  | @next opt name value htakes hname =>
    obtain ⟨hopt, -, hvalue⟩ := hfits
    have hword := hvalue htakes
    have hoption := ArgumentForm.of_spelling_ne_escape hname
    have hform : ArgumentForm.of value ≠ .escape := by simp [ArgumentForm.of_name hword]
    refine ⟨{ settled with pending := .option opt (some value) }, ?_, ?_⟩
    · show Progress.store { settled with pending := .nothing } opt value = _
      rw [← hpending]
      exact store_of_new hnew fun _ => hword.ne_empty
    · show before.takeAll scope false (("--" ++ name) :: value :: rest) = _
      rw [takeAll_cons hoption (take_waiting hsettle hopt htakes hname),
        takeAll_cons hform (take_name hword rfl)]
  | @attached opt name value htakes hname =>
    obtain ⟨hopt, -, hvalue⟩ := hfits
    have hform : ArgumentForm.of ("--" ++ name ++ "=" ++ value) ≠ .escape := by
      simp [ArgumentForm.of_attached hname]
    have htake := take_attached hsettle hopt htakes hname value
    rw [store_of_new hnew fun _ => (hvalue htakes).ne_empty] at htake
    refine ⟨_, settle_of_nothing ?_, takeAll_cons hform htake rest⟩
    exact hpending
  | @literal text value htext =>
    have hliteral : settled.literal = none := by simpa [said, Clause.subject] using hnew
    have hawaits := awaitsLiteral_of_settle hsettle hfits hliteral
    have hform : ArgumentForm.of text ≠ .escape := by
      rcases Literal.form_cases htext with hform | ⟨c, rest, hform, -⟩ <;> simp [hform]
    have htake := (take_literal htext hawaits).trans (takeWord_of_settle hsettle hawaits text)
    refine ⟨_, ?_, takeAll_cons hform htake rest⟩
    simp only [settle, htext, add, hpending]

/-- Clauses about distinct subjects are read one after the other. -/
theorem takeAll_clauses (hspell : Clause.SpellAll clauses words)
    (hsettle : before.settle = .ok settled) (hfits : ∀ clause ∈ clauses, clause.Fits scope)
    (hnodup : (clauses.map Clause.subject).Nodup)
    (hnew : ∀ clause ∈ clauses, settled.said clause.subject = none) :
    before.takeAll scope false words = .ok (clauses.foldl add settled) := by
  induction hspell generalizing before settled with
  | nil => exact hsettle
  | @cons clause clauses words rest hspells hrest ih =>
    obtain ⟨hfit, hfits⟩ := List.forall_mem_cons.mp hfits
    obtain ⟨hnew, hnews⟩ := List.forall_mem_cons.mp hnew
    obtain ⟨hsubject, hnodup⟩ := List.nodup_cons.mp hnodup
    obtain ⟨after, hafter, hread⟩ := takeAll_clause hsettle hfit hnew hspells rest
    rw [hread, ih hafter hfits hnodup, List.foldl_cons]
    -- the clauses to come are about other subjects
    intro other hother
    have hne : other.subject ≠ clause.subject := fun heq =>
      hsubject (heq ▸ List.mem_map_of_mem hother)
    rw [said_add, if_neg hne]
    exact hnews other hother

end Progress

/-! ### Whole command lines -/

/-- The clauses of a choice. -/
def EnumChoice.clauses (choice : EnumChoice) : List Clause :=
  (choice.file.map (Clause.option .enumFile)).toList ++
    (choice.known.map (Clause.option .known)).toList

namespace Command

/-- The verb of a command. -/
def verb : Command → Verb
  | format _ _ _ => .format
  | members _ => .members
  | tokens _ _ _ => .tokens

/-- What a command is made of. -/
def clauses : Command → List Clause
  | format value source flags => .literal value :: source.clauses ++ Clause.ofFlag .flags flags
  | members source => source.clauses
  | tokens tokenPath sourcePath json =>
    [.option .tokens tokenPath, .option .source sourcePath] ++ Clause.ofFlag .json json

/-- The command takes its enum from one place, and its files and its enum have names. -/
structure IsWritable (command : Command) : Prop where
  single : ∀ choice, command.choice? = some choice → choice.IsSingle
  names : ∀ opt value, .option opt value ∈ command.clauses → opt.takesValue = true → IsName value

end Command

namespace CommandLine

/-- What a command line is made of after its verb, if the option for output without colour does not
stand in front. -/
def clauses (line : CommandLine) : List Clause :=
  Clause.ofFlag .noColor line.noColor ++ line.command.clauses

/-- The ways to write a command line: the verb and then the clauses in any order, with the option
for output without colour among them or in front of the verb. -/
inductive Spells : CommandLine → List String → Prop
  | among {line : CommandLine} {clauses : List Clause} {words : List String} :
      clauses.Perm line.clauses → Clause.SpellAll clauses words →
      Spells line (line.command.verb.name :: words)
  | inFront {command : Command} {clauses : List Clause} {front words : List String} :
      (Clause.option .noColor "").Spells front → clauses.Perm command.clauses →
      Clause.SpellAll clauses words → Spells ⟨true, command⟩ (front ++ command.verb.name :: words)

end CommandLine

/-! ### Reading a whole line -/

section

variable {command : Command} {line : CommandLine} {opt : Opt} {value : String} {given : Bool}
  {clause : Clause} {clauses : List Clause} {progress : Progress} {words : List String}

namespace Clause

/-- An option without a value is written in one argument. -/
theorem Spells.flag_cases (h : (option opt value).Spells words) (htakes : opt.takesValue = false) :
    ∃ name ∈ opt.spellings, words = ["--" ++ name] := by
  cases h with
  | @flag _ name _ hname => exact ⟨name, hname, rfl⟩
  | next htakes' | attached htakes' => exact absurd htakes' (by simp [htakes])

/-- Output without colour can be asked for anywhere. -/
theorem noColor_fits (scope : Scope) : (option .noColor "").Fits scope := by
  refine ⟨?_, rfl, fun htakes => by cases htakes⟩
  rcases scope with _ | verb
  · decide
  · cases verb <;> decide

theorem mem_ofFlag : clause ∈ ofFlag opt given ↔ given = true ∧ clause = option opt "" := by
  cases given <;> simp [ofFlag]

end Clause

theorem EnumChoice.mem_clauses {choice : EnumChoice} : clause ∈ choice.clauses ↔
    (∃ path, choice.file = some path ∧ .option .enumFile path = clause) ∨
      ∃ name, choice.known = some name ∧ .option .known name = clause := by
  simp only [clauses, List.mem_append, Option.mem_toList, Option.map_eq_some_iff]

namespace Command

/-- A command is made of options that are known after its verb, and are not for every command. -/
theorem option_mem_clauses (h : .option opt value ∈ command.clauses) :
    opt ∈ (Scope.command command.verb).options ∧ opt.letter? = none ∧ opt ≠ .noColor := by
  cases command with
  | format literal source flags =>
    show opt ∈ (Scope.command .format).options ∧ _
    simp only [clauses, List.cons_append, List.mem_cons, List.mem_append,
      EnumChoice.mem_clauses, Clause.mem_ofFlag, reduceCtorEq, false_or] at h
    rcases h with (⟨path, -, h⟩ | ⟨name, -, h⟩) | ⟨-, h⟩ <;> cases h <;> decide
  | members source =>
    show opt ∈ (Scope.command .members).options ∧ _
    simp only [clauses, EnumChoice.mem_clauses] at h
    rcases h with ⟨path, -, h⟩ | ⟨name, -, h⟩ <;> cases h <;> decide
  | tokens tokenPath sourcePath json =>
    show opt ∈ (Scope.command .tokens).options ∧ _
    simp only [clauses, List.cons_append, List.nil_append, List.mem_cons,
      Clause.mem_ofFlag] at h
    rcases h with h | h | ⟨-, h⟩ <;> cases h <;> decide

theorem literal_mem_clauses {value : Int64} (h : .literal value ∈ command.clauses) :
    command.verb = .format := by
  cases command with
  | format literal source flags => rfl
  | members source => simp [clauses, EnumChoice.mem_clauses] at h
  | tokens tokenPath sourcePath json => simp [clauses, Clause.mem_ofFlag] at h

/-- No two things that a command is made of are about the same. -/
theorem nodup_subjects (hsingle : ∀ choice, command.choice? = some choice → choice.IsSingle) :
    (command.clauses.map Clause.subject).Nodup := by
  cases command with
  | format value source flags =>
    rcases hsingle source rfl with ⟨path⟩ | ⟨name⟩ <;> cases flags <;>
      simp [clauses, EnumChoice.clauses, Clause.ofFlag, Clause.subject]
  | members source =>
    rcases hsingle source rfl with ⟨path⟩ | ⟨name⟩ <;>
      simp [clauses, EnumChoice.clauses, Clause.subject]
  | tokens tokenPath sourcePath json =>
    cases json <;> simp [clauses, Clause.ofFlag, Clause.subject]

theorem find?_choice {choice : EnumChoice} (h : command.choice? = some choice)
    (hsingle : choice.IsSingle) :
    command.clauses.find? (·.subject = some .enumFile) = choice.file.map (.option .enumFile) ∧
      command.clauses.find? (·.subject = some .known) = choice.known.map (.option .known) := by
  cases command with
  | format value source flags =>
    cases h
    rcases hsingle with ⟨path⟩ | ⟨name⟩ <;> cases flags <;> exact ⟨rfl, rfl⟩
  | members source =>
    cases h
    rcases hsingle with ⟨path⟩ | ⟨name⟩ <;> exact ⟨rfl, rfl⟩
  | tokens tokenPath sourcePath json => cases h

end Command

namespace Progress

theorem lookup_of_said {value? : Option String}
    (h : progress.said (some opt) = value?.map (.option opt)) :
    progress.options.lookup opt = value? :=
  Option.map_injective (fun _ _ heq => (Clause.option.inj heq).2) h

theorem has_of_said (h : progress.said (some opt) = (Clause.ofFlag opt given).head?) :
    progress.has opt = given := by
  cases given with
  | false => rw [has, said_some_eq_none.mp h, Option.isSome_none]
  | true => rw [has, said_some_eq.mp h, Option.isSome_some]

/-- The choice is read off what was said. -/
theorem enumChoice_of_said {choice : EnumChoice} (hchoice : command.choice? = some choice)
    (hsingle : choice.IsSingle) (h : ∀ subject, subject ≠ some .noColor →
      progress.said subject = command.clauses.find? (·.subject = subject)) :
    progress.enumChoice = .ok choice := by
  obtain ⟨hfile, hknown⟩ := Command.find?_choice hchoice hsingle
  rw [← h _ (by decide)] at hfile hknown
  rw [enumChoice, lookup_of_said hfile, lookup_of_said hknown]
  rcases hsingle with ⟨path⟩ | ⟨name⟩ <;> rfl

/-- The command is read off what was said. -/
theorem command_of_said (hsingle : ∀ choice, command.choice? = some choice → choice.IsSingle)
    (h : ∀ subject, subject ≠ some .noColor →
      progress.said subject = command.clauses.find? (·.subject = subject)) :
    progress.command command.verb = .ok command := by
  have hchoice := fun choice hchoice => enumChoice_of_said hchoice (hsingle choice hchoice) h
  cases command with
  | format value source flags =>
    have hliteral : progress.literal = some value := by
      simpa [said, Command.clauses, Clause.subject] using h none (by decide)
    have hflags : progress.has .flags = flags := by
      refine has_of_said ((h (some .flags) (by decide)).trans ?_)
      rcases hsingle source rfl with ⟨path⟩ | ⟨name⟩ <;> cases flags <;> rfl
    show progress.command .format = _
    rw [Progress.command, hchoice source rfl, hliteral, hflags]
    rfl
  | members source =>
    show progress.command .members = _
    rw [Progress.command, hchoice source rfl]
    rfl
  | tokens tokenPath sourcePath json =>
    have htokens : progress.options.lookup .tokens = some tokenPath :=
      lookup_of_said (h (some .tokens) (by decide))
    have hsource : progress.options.lookup .source = some sourcePath :=
      lookup_of_said (h (some .source) (by decide))
    have hjson : progress.has .json = json := by
      refine has_of_said ((h (some .json) (by decide)).trans ?_)
      cases json <;> rfl
    show progress.command .tokens = _
    rw [Progress.command, htokens, hsource, hjson]

end Progress

theorem Verb.ofName?_name (verb : Verb) : ofName? verb.name = some verb := by
  cases verb <;> rfl

namespace CommandLine

theorem fits_of_mem_clauses (hline : line.command.IsWritable) (h : clause ∈ line.clauses) :
    clause.Fits (.command line.command.verb) := by
  rcases List.mem_append.mp h with h | h
  · obtain ⟨-, rfl⟩ := Clause.mem_ofFlag.mp h
    exact Clause.noColor_fits _
  · cases clause with
    | option opt value =>
      obtain ⟨hknown, hletter, -⟩ := Command.option_mem_clauses h
      exact ⟨hknown, hletter, hline.names opt value h⟩
    | literal value =>
      rw [Command.literal_mem_clauses h]
      rfl

theorem noColor_notMem : some .noColor ∉ command.clauses.map Clause.subject := by
  intro h
  obtain ⟨clause, hclause, hsubject⟩ := List.mem_map.mp h
  cases clause with
  | option opt value =>
    obtain ⟨-, -, hne⟩ := Command.option_mem_clauses hclause
    exact hne (Option.some.inj hsubject)
  | literal value => cases hsubject

theorem nodup_subjects (hline : line.command.IsWritable) :
    (line.clauses.map Clause.subject).Nodup := by
  have hcommand := Command.nodup_subjects hline.single
  unfold clauses
  cases line.noColor with
  | false => exact hcommand
  | true => exact List.nodup_cons.mpr ⟨noColor_notMem, hcommand⟩

/-- After the verb, the clauses of a line are read in any order. -/
theorem ofCommand_of_spellAll (hline : line.command.IsWritable) (hperm : clauses.Perm line.clauses)
    (hspell : Clause.SpellAll clauses words) (before : Progress) :
    ofCommand before line.command.verb words =
      .ok ⟨before.has .noColor || line.noColor, line.command⟩ := by
  have hnodup := nodup_subjects hline
  have hread : Progress.start.takeAll (.command line.command.verb) false words =
      .ok (clauses.foldl .add .start) :=
    Progress.takeAll_clauses hspell rfl
      (fun clause h => fits_of_mem_clauses hline (hperm.mem_iff.mp h))
      ((hperm.map _).nodup_iff.mpr hnodup)
      (fun clause _ => by cases clause <;> rfl)
  have hsaid := Progress.said_addAll hperm hnodup
  have hcommand : (clauses.foldl Progress.add .start).command line.command.verb =
      .ok line.command := by
    refine Progress.command_of_said hline.single fun subject hsubject => ?_
    rw [hsaid, CommandLine.clauses, List.find?_append]
    cases line.noColor <;> simp [Clause.ofFlag, Clause.subject, hsubject.symm]
  have hcolor : (clauses.foldl Progress.add .start).has .noColor = line.noColor := by
    refine Progress.has_of_said ((hsaid _).trans ?_)
    unfold CommandLine.clauses
    cases line.noColor with
    | true => rfl
    | false =>
      refine List.find?_eq_none.mpr fun clause hclause hsubject => ?_
      exact noColor_notMem (List.mem_map.mpr ⟨clause, hclause, of_decide_eq_true hsubject⟩)
  refine bind_eq_ok.mpr ⟨_, hread, bind_eq_ok.mpr ⟨_, hcommand, ?_⟩⟩
  rw [hcolor]
  rfl

/-- The option for output without colour, in front of the verb, is taken for no verb. -/
theorem noColor_front : ∀ name ∈ Opt.noColor.spellings,
    Verb.ofName? ("--" ++ name) = none ∧ "--" ++ name ≠ helpWord := by
  decide

/-- Every way to write a command line is read as that line. -/
theorem ofArguments_of_spells (hline : line.command.IsWritable) {arguments : List String}
    (h : line.Spells arguments) : ofArguments arguments = .ok line := by
  cases h with
  | among hperm hspell =>
    rw [ofArguments, ofProgress, if_neg Bool.false_ne_true, Verb.ofName?_name]
    exact ofCommand_of_spellAll hline hperm hspell .start
  | @inFront command clauses front words hfront hperm hspell =>
    obtain ⟨name, hname, rfl⟩ := hfront.flag_cases rfl
    have hform := ArgumentForm.of_spelling_ne_escape hname
    have htake : Progress.start.take .program ("--" ++ name) =
        .ok (Progress.start.add (.option .noColor "")) :=
      Progress.take_flag rfl (Clause.noColor_fits _) rfl hname rfl
    obtain ⟨hverb, hword⟩ := noColor_front name hname
    show ofProgress .start false (("--" ++ name) :: command.verb.name :: words) = _
    rw [ofProgress, if_neg Bool.false_ne_true, hverb, if_neg hword, if_neg hform, htake]
    show ofProgress (Progress.start.add _) false (command.verb.name :: words) = _
    rw [ofProgress, if_neg Bool.false_ne_true, Verb.ofName?_name]
    have hplain : (CommandLine.mk false command).command.IsWritable := hline
    exact ofCommand_of_spellAll hplain hperm hspell _

/-- A negative literal after an option, with its digits in groups. -/
theorem ofArguments_of_spells_negative :
    ofArguments ["--no-color", "format", "--flags", "-0x1_0", "--enum", "kinds.json"] =
      .ok ⟨true, .format (-16) ⟨some "kinds.json", none⟩ true⟩ := by
  have hline : (Command.format (-16) ⟨some "kinds.json", none⟩ true).IsWritable := by
    refine ⟨fun choice h => ?_, fun opt value hclause htakes => ?_⟩
    · cases h
      exact .file "kinds.json"
    · have hvalue : (opt = .enumFile ∧ value = "kinds.json") ∨ opt = .flags ∧ value = "" := by
        simpa [Command.clauses, EnumChoice.clauses, Clause.ofFlag] using hclause
      rcases hvalue with ⟨rfl, rfl⟩ | ⟨rfl, rfl⟩
      · exact ⟨by decide, by decide⟩
      · cases htakes
  have hfront : (Clause.option .noColor "").Spells ["--" ++ "no-color"] := .flag rfl (by decide)
  have hflags : (Clause.option .flags "").Spells ["--" ++ "flags"] := .flag rfl (by decide)
  have hvalue : (Clause.literal (-16)).Spells ["-0x1_0"] := .literal (by decide)
  have henum : (Clause.option .enumFile "kinds.json").Spells ["--" ++ "enum", "kinds.json"] :=
    .next rfl (by decide)
  exact ofArguments_of_spells hline
    (.inFront hfront (by decide) (.cons hflags (.cons hvalue (.cons henum .nil))))

end CommandLine

end

end TokenInspector
