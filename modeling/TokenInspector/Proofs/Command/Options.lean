import TokenInspector.Command.Arguments
import TokenInspector.Proofs.Json.Buffered

/-!
# Options among arguments

`Progress.Step` says what one argument does to what was read so far; `take` makes such a step or
refuses (`step_of_take`), and `Reached` puts the steps of a run together. Two facts follow, by one
case for each kind of step. An option is held just if it was met among the arguments before two
hyphens alone, and none is met twice (`has_takeAll`). A value that is held was written for its
option, in one argument or in the argument after it (`writes_takeAll`).
-/

namespace TokenInspector

namespace Scope

/-- The argument is an option written in full. -/
def meets (scope : Scope) (opt : Opt) (argument : String) : Bool :=
  match ArgumentForm.of argument with
  | .long name _ => scope.long? name = some opt
  | _ => false

/-- The arguments give a value to an option: attached to it, or next to it. -/
inductive Writes (scope : Scope) (opt : Opt) (value : String) (arguments : List String) : Prop
  | attached {argument name : String} : argument ∈ arguments →
      ArgumentForm.of argument = .long name (some value) → scope.long? name = some opt →
      Writes scope opt value arguments
  | next {argument name : String} : [argument, value] <:+: arguments →
      ArgumentForm.of argument = .long name none → scope.long? name = some opt →
      Writes scope opt value arguments

theorem Writes.append {scope : Scope} {opt : Opt} {value : String} {arguments : List String}
    (h : scope.Writes opt value arguments) (more : List String) :
    scope.Writes opt value (arguments ++ more) := by
  cases h with
  | attached hmem hform hopt => exact .attached (List.mem_append_left _ hmem) hform hopt
  | next hnext hform hopt =>
    exact .next (hnext.trans (List.prefix_append _ _).isInfix) hform hopt

end Scope

/-- The arguments before two hyphens alone; options stand only there. -/
def unescaped (arguments : List String) : List String :=
  arguments.takeWhile (ArgumentForm.of · ≠ .escape)

theorem unescaped_of_escape {argument : String} (h : ArgumentForm.of argument = .escape)
    (rest : List String) : unescaped (argument :: rest) = [] := by
  simp [unescaped, h]

theorem unescaped_cons {argument : String} (h : ArgumentForm.of argument ≠ .escape)
    (rest : List String) : unescaped (argument :: rest) = argument :: unescaped rest := by
  simp [unescaped, h]

/-- An option waits for its value, or for its check. -/
def Pending.isOption (pending : Pending) (opt : Opt) : Bool :=
  match pending with
  | .option other _ => other = opt
  | _ => false

namespace Progress

variable {before after settled : Progress} {scope : Scope} {opt other : Opt} {value : String}
  {argument : String}

/-! ### One argument -/

theorem store_eq_ok (h : before.store opt value = .ok after) :
    before.has opt = false ∧ after = { before with options := (opt, value) :: before.options } := by
  rw [store] at h
  split at h
  · cases h
  · rename_i hhas
    split at h
    · cases h
    · cases h
      exact ⟨Bool.eq_false_iff.mpr hhas, rfl⟩

theorem settle_eq_ok (h : before.settle = .ok settled) :
    (∃ literal, (∀ opt, before.pending.isOption opt = false) ∧
      settled = { before with literal := literal, pending := .nothing }) ∨
    ∃ opt value, before.pending = .option opt (some value) ∧ before.has opt = false ∧
      settled = { before with options := (opt, value) :: before.options, pending := .nothing } := by
  rw [settle] at h
  split at h
  · rename_i hpending
    cases h
    exact .inl ⟨before.literal, by simp [hpending, Pending.isOption], by rw [← hpending]⟩
  · cases h
  · rename_i opt value hpending
    obtain ⟨hhas, rfl⟩ := store_eq_ok h
    exact .inr ⟨opt, value, hpending, hhas, rfl⟩
  · rename_i text hpending
    split at h
    · rename_i literal hliteral
      cases h
      exact .inl ⟨literal, by simp [hpending, Pending.isOption], rfl⟩
    · cases h

theorem pending_settle (h : before.settle = .ok settled) : settled.pending = .nothing := by
  rcases settle_eq_ok h with ⟨_, -, rfl⟩ | ⟨_, _, -, -, rfl⟩ <;> rfl

/-- What an argument does. It is the value of the option before it, or the literal, or an option:
one with a value attached, one that waits for a value, or one without value. -/
inductive Step (scope : Scope) (argument : String) (before : Progress) : Progress → Prop
  | value {opt : Opt} : before.pending = .option opt none →
      (∀ opt, scope.meets opt argument = false) →
      Step scope argument before { before with pending := .option opt (some argument) }
  | literal {settled : Progress} : before.settle = .ok settled →
      (∀ opt, scope.meets opt argument = false) →
      Step scope argument before { settled with pending := .literal argument }
  | attached {name value : String} {opt : Opt} {settled after : Progress} :
      ArgumentForm.of argument = .long name (some value) → scope.long? name = some opt →
      before.settle = .ok settled → settled.store opt value = .ok after →
      Step scope argument before after
  | waiting {name : String} {opt : Opt} {settled : Progress} :
      ArgumentForm.of argument = .long name none → scope.long? name = some opt →
      before.settle = .ok settled →
      Step scope argument before { settled with pending := .option opt none }
  | flag {name : String} {opt : Opt} {settled after : Progress} :
      ArgumentForm.of argument = .long name none → scope.long? name = some opt →
      opt.takesValue = false → before.settle = .ok settled → settled.store opt "" = .ok after →
      Step scope argument before after

theorem place_eq_ok {escaped : Bool} (h : before.place scope escaped argument = .ok after) :
    ∃ settled, before.settle = .ok settled ∧
      after = { settled with pending := .literal argument } := by
  rw [place] at h
  split at h
  · obtain ⟨settled, hsettle, h⟩ := bind_eq_ok.mp h
    cases h
    exact ⟨settled, hsettle, rfl⟩
  · cases h

theorem step_of_takeWord (hmeets : ∀ opt, scope.meets opt argument = false)
    (h : before.takeWord scope argument = .ok after) : Step scope argument before after := by
  rw [takeWord] at h
  split at h
  · rename_i opt hpending
    cases h
    exact .value hpending hmeets
  · obtain ⟨settled, hsettle, rfl⟩ := place_eq_ok h
    exact .literal hsettle hmeets

/-- Help and version end the run. -/
theorem takeFlag_eq_ok (h : before.takeFlag scope opt = .ok after) :
    opt.letter? = none ∧ ∃ settled, before.settle = .ok settled ∧
      settled.store opt "" = .ok after := by
  obtain ⟨settled, hsettle, h⟩ := bind_eq_ok.mp h
  cases opt with
  | help | version => cases h
  | noColor | enumFile | known | flags | tokens | source | json => exact ⟨rfl, settled, hsettle, h⟩

theorem step_of_takeLong {name : String} {attached : Option String}
    (hform : ArgumentForm.of argument = .long name attached) (hopt : scope.long? name = some opt)
    (h : before.takeLong scope opt attached = .ok after) : Step scope argument before after := by
  unfold takeLong at h
  split at h
  · obtain ⟨settled, hsettle, hstore⟩ := bind_eq_ok.mp h
    exact .attached hform hopt hsettle hstore
  · obtain ⟨settled, hsettle, h⟩ := bind_eq_ok.mp h
    cases h
    exact .waiting hform hopt hsettle
  · cases h
  · rename_i hvalue
    obtain ⟨-, settled, hsettle, hstore⟩ := takeFlag_eq_ok h
    exact .flag hform hopt hvalue hsettle hstore

/-- An option that is written as a letter ends the run, so what is taken is a word or an option
written in full. -/
theorem step_of_take (h : before.take scope argument = .ok after) :
    Step scope argument before after := by
  rw [take] at h
  split at h
  · rename_i name attached hform
    split at h
    · rename_i opt hopt
      exact step_of_takeLong hform hopt h
    · rename_i hopt
      split at h
      · refine step_of_takeWord (fun opt => ?_) h
        simp [Scope.meets, hform, hopt]
      · cases h
  · rename_i letters hform
    split at h
    · refine step_of_takeWord (fun opt => ?_) h
      simp [Scope.meets, hform]
    · split at h
      · rename_i opt hopt
        obtain ⟨hletter, -⟩ := takeFlag_eq_ok h
        obtain ⟨c, -, hshort⟩ := Option.bind_eq_some_iff.mp hopt
        have hfound := List.find?_some hshort
        simp [hletter] at hfound
      · cases h
  · rename_i hform
    refine step_of_takeWord (fun opt => ?_) h
    simp [Scope.meets, hform]
  · rename_i hform
    refine step_of_takeWord (fun opt => ?_) h
    simp [Scope.meets, hform]

/-! ### A run -/

/-- What can be read from a command's arguments before two hyphens alone. The arguments after them
can be literals only. -/
inductive Reached (scope : Scope) : List String → Progress → Prop
  | start : Reached scope [] start
  | step {done : List String} {argument : String} {before after : Progress} :
      Reached scope done before → Step scope argument before after →
      Reached scope (done ++ [argument]) after
  | settle {done : List String} {before settled : Progress} :
      Reached scope done before → before.settle = .ok settled → Reached scope done settled
  | literal {done : List String} {text : String} {before settled : Progress} :
      Reached scope done before → before.settle = .ok settled →
      Reached scope done { settled with pending := .literal text }

variable {done arguments : List String}

theorem Reached.takeAll_escaped (hbefore : Reached scope done before)
    (h : before.takeAll scope true arguments = .ok after) :
    Reached scope done after ∧ after.pending = .nothing := by
  induction arguments generalizing before with
  | nil => exact ⟨.settle hbefore h, pending_settle h⟩
  | cons argument rest ih =>
    obtain ⟨next, hplace, h⟩ := bind_eq_ok.mp h
    obtain ⟨settled, hsettle, rfl⟩ := place_eq_ok hplace
    exact ih (.literal hbefore hsettle) h

theorem Reached.takeAll (hbefore : Reached scope done before)
    (h : before.takeAll scope false arguments = .ok after) :
    Reached scope (done ++ unescaped arguments) after ∧ after.pending = .nothing := by
  induction arguments generalizing before done with
  | nil =>
    rw [unescaped, List.takeWhile_nil, List.append_nil]
    exact ⟨.settle hbefore h, pending_settle h⟩
  | cons argument rest ih =>
    rw [Progress.takeAll, if_neg Bool.false_ne_true] at h
    split at h
    · rename_i hescape
      rw [unescaped_of_escape hescape, List.append_nil]
      exact hbefore.takeAll_escaped h
    · rename_i hescape
      obtain ⟨next, htake, h⟩ := bind_eq_ok.mp h
      rw [unescaped_cons hescape, List.append_cons]
      exact ih (hbefore.step (step_of_take htake)) h

/-! ### How often an option is given -/

/-- How often an option was given: it is held, or it waits. -/
def given (progress : Progress) (opt : Opt) : Nat :=
  (progress.has opt).toNat + (progress.pending.isOption opt).toNat

/-- An option that was not held is held once more. -/
theorem toNat_has_cons (h : before.has opt = false) (literal : Option Int64) (pending : Pending)
    (other : Opt) : (has ⟨(opt, value) :: before.options, literal, pending⟩ other).toNat =
      (before.has other).toNat + (decide (opt = other)).toNat := by
  simp only [has, List.lookup_cons] at h ⊢
  by_cases hother : other = opt
  · subst hother
    simp [h]
  · simp [beq_eq_false_iff_ne.mpr hother, Ne.symm hother]

theorem given_of_nothing (h : before.pending = .nothing) (opt : Opt) :
    before.given opt = (before.has opt).toNat := by
  rw [given, h]
  rfl

theorem given_store (h : before.store opt value = .ok after) (other : Opt) :
    after.given other = before.given other + (decide (opt = other)).toNat := by
  obtain ⟨hhas, rfl⟩ := store_eq_ok h
  rw [given, given, toNat_has_cons hhas]
  exact Nat.add_right_comm _ _ _

/-- Checking what is pending turns an option that waits into one that is held. -/
theorem given_settle (h : before.settle = .ok settled) (other : Opt) :
    settled.given other = before.given other := by
  rw [given_of_nothing (pending_settle h)]
  rcases settle_eq_ok h with ⟨literal, hpending, rfl⟩ | ⟨opt, value, hpending, hhas, rfl⟩
  · rw [given, hpending]
    rfl
  · rw [toNat_has_cons hhas, given, hpending]
    rfl

theorem given_literal (h : before.settle = .ok settled) (text : String) (other : Opt) :
    given { settled with pending := .literal text } other = before.given other := by
  rw [← given_settle h, given_of_nothing (pending_settle h)]
  rfl

theorem Step.given_eq (h : Step scope argument before after) (other : Opt) :
    after.given other = before.given other + (scope.meets other argument).toNat := by
  cases h with
  | value hpending hmeets =>
    rw [hmeets, given, given, hpending]
    rfl
  | literal hsettle hmeets =>
    rw [hmeets, given_literal hsettle]
    rfl
  | attached hform hopt hsettle hstore =>
    rw [given_store hstore, given_settle hsettle]
    simp [Scope.meets, hform, hopt]
  | waiting hform hopt hsettle =>
    rw [← given_settle hsettle, given_of_nothing (pending_settle hsettle)]
    simp [given, has, Pending.isOption, Scope.meets, hform, hopt]
  | flag hform hopt _ hsettle hstore =>
    rw [given_store hstore, given_settle hsettle]
    simp [Scope.meets, hform, hopt]

theorem Reached.given_eq (h : Reached scope done after) (other : Opt) :
    after.given other = done.countP (scope.meets other) := by
  induction h with
  | start => rfl
  | step _ hstep ih =>
    rw [hstep.given_eq, ih, List.countP_append, List.countP_singleton]
    cases scope.meets other _ <;> rfl
  | settle _ hsettle ih => rw [given_settle hsettle, ih]
  | literal _ hsettle ih => rw [given_literal hsettle, ih]

/-- An option is held if it was met, and none is met twice. -/
theorem has_takeAll (h : start.takeAll scope false arguments = .ok after) (opt : Opt) :
    (after.has opt).toNat = (unescaped arguments).countP (scope.meets opt) := by
  obtain ⟨hreached, hpending⟩ := Reached.start.takeAll h
  rw [← given_of_nothing hpending]
  exact hreached.given_eq opt

/-! ### Where a value comes from -/

/-- What was read follows from the arguments so far: a value that is held or pending was written
for its option, and an option that waits is the last argument. -/
structure Follows (scope : Scope) (done : List String) (progress : Progress) : Prop where
  held : ∀ opt value, (opt, value) ∈ progress.options → opt.takesValue = true →
    scope.Writes opt value done
  pending : ∀ opt value, progress.pending = .option opt (some value) → scope.Writes opt value done
  waits : ∀ opt, progress.pending = .option opt none → ∃ argument name,
    done.getLast? = some argument ∧ ArgumentForm.of argument = .long name none ∧
      scope.long? name = some opt

theorem follows_start : start.Follows scope [] where
  held := by simp [start]
  pending := by simp [start]
  waits := by simp [start]

theorem Follows.cons (hbefore : before.Follows scope done)
    (hvalue : opt.takesValue = true → scope.Writes opt value done) (literal : Option Int64) :
    Follows scope done ⟨(opt, value) :: before.options, literal, .nothing⟩ := by
  refine ⟨fun other written hmem htakes => ?_, by simp, by simp⟩
  rcases List.mem_cons.mp hmem with heq | hmem
  · cases heq
    exact hvalue htakes
  · exact hbefore.held other written hmem htakes

theorem Follows.store (hbefore : before.Follows scope done) (hpending : before.pending = .nothing)
    (hvalue : opt.takesValue = true → scope.Writes opt value done)
    (h : before.store opt value = .ok after) : after.Follows scope done := by
  obtain ⟨-, rfl⟩ := store_eq_ok h
  rw [hpending]
  exact hbefore.cons hvalue _

theorem Follows.settle (hbefore : before.Follows scope done) (h : before.settle = .ok settled) :
    settled.Follows scope done := by
  rcases settle_eq_ok h with ⟨literal, -, rfl⟩ | ⟨opt, value, hpending, -, rfl⟩
  · exact ⟨hbefore.held, by simp, by simp⟩
  · exact hbefore.cons (fun _ => hbefore.pending opt value hpending) _

/-- Nothing waits over a further argument, as an option that waits takes it. -/
theorem Follows.append (hbefore : before.Follows scope done) (hpending : before.pending = .nothing)
    (argument : String) : before.Follows scope (done ++ [argument]) where
  held opt value hmem htakes := (hbefore.held opt value hmem htakes).append _
  pending := by simp [hpending]
  waits := by simp [hpending]

theorem Step.follows (h : Step scope argument before after) (hbefore : before.Follows scope done) :
    after.Follows scope (done ++ [argument]) := by
  cases h with
  | @value opt hpending hmeets =>
    refine ⟨fun other value hmem htakes => (hbefore.held other value hmem htakes).append _, ?_,
      by simp⟩
    rintro _ _ ⟨⟩
    -- the option that waited was the last argument, so this one stands next to it
    obtain ⟨word, name, hlast, hform, hopt⟩ := hbefore.waits opt hpending
    obtain ⟨front, rfl⟩ := List.getLast?_eq_some_iff.mp hlast
    have hnext : [word, argument] <:+: front ++ [word] ++ [argument] := ⟨front, [], by simp⟩
    exact .next hnext hform hopt
  | literal hsettle hmeets =>
    have hheld := ((hbefore.settle hsettle).append (pending_settle hsettle) argument).held
    exact ⟨hheld, by simp, by simp⟩
  | attached hform hopt hsettle hstore =>
    have hpending := pending_settle hsettle
    refine ((hbefore.settle hsettle).append hpending argument).store hpending (fun _ => ?_) hstore
    exact .attached (by simp) hform hopt
  | @waiting name opt settled hform hopt hsettle =>
    have hheld := ((hbefore.settle hsettle).append (pending_settle hsettle) argument).held
    refine ⟨hheld, by simp, ?_⟩
    rintro _ ⟨⟩
    exact ⟨argument, name, by simp, hform, hopt⟩
  | flag hform hopt hvalue hsettle hstore =>
    have hpending := pending_settle hsettle
    refine ((hbefore.settle hsettle).append hpending argument).store hpending (fun htakes => ?_)
      hstore
    -- what is held for an option without value was not written
    rw [hvalue] at htakes
    cases htakes

theorem Reached.follows (h : Reached scope done after) : after.Follows scope done := by
  induction h with
  | start => exact follows_start
  | step _ hstep ih => exact hstep.follows ih
  | settle _ hsettle ih => exact ih.settle hsettle
  | literal _ hsettle ih => exact ⟨(ih.settle hsettle).held, by simp, by simp⟩

theorem writes_takeAll (h : start.takeAll scope false arguments = .ok after)
    (htakes : opt.takesValue = true) (hlookup : after.options.lookup opt = some value) :
    scope.Writes opt value (unescaped arguments) := by
  obtain ⟨front, back, hoptions, -⟩ := List.lookup_eq_some_iff.mp hlookup
  have hmem : (opt, value) ∈ after.options := by simp [hoptions]
  exact (Reached.start.takeAll h).1.follows.held opt value hmem htakes

end Progress

end TokenInspector
