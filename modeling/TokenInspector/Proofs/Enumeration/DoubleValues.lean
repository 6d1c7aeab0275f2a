import TokenInspector.Enumeration.Display
import TokenInspector.Proofs.Double
import TokenInspector.Proofs.Enumeration.Entries

/-!
# Doubles as values and as members

A double comes to a definition in two ways: as the value to show, which is truncated and clamped to
64 bits, and as the number of an entry, which makes a member only if it is whole and fits
(`TakesDouble`). The two ways fit together (`displayDouble_agrees`): the double of a member is shown
as the value of that member, and a double that equals an integer as that integer.
-/

namespace TokenInspector

theorem int64?_eq_some {m : ℤ} {n : Int64} : int64? m = some n ↔ n.toInt = m := by
  constructor
  · intro h
    unfold int64? at h
    split at h
    · rename_i hrange
      obtain rfl := Option.some.inj h
      exact Int64.toInt_ofInt_of_le hrange.1 (Int.lt_of_le_of_lt hrange.2 (by decide))
    · cases h
  · rintro rfl
    exact int64?_toInt n

/-- The double that a number is read as where it is no signed integer of 64 bits: an integer past
those is rounded to the nearest double. -/
inductive Number.ReadsAs : Number → Double → Prop
  | double (x : Double) : ReadsAs (.double x) x
  | integer {n : Nat} : 2 ^ 63 ≤ n → ReadsAs (.integer n) (.finite false (Double.nearestTo n))

/-- A number that is read as a double is the value of a member if the double is that integer. -/
theorem Number.ReadsAs.memberValue?_eq_some {number : Number} {x : Double} (h : number.ReadsAs x)
    {n : Int64} : number.memberValue? = some n ↔ x.meaning = .number n.toInt := by
  cases h with
  | double x =>
    simp only [Number.memberValue?, Option.bind_eq_some_iff, int64?_eq_some,
      Double.integer?_eq_some, exists_eq_right']
  | @integer k hk =>
    have hlt := n.toInt_lt
    rw [Number.memberValue?, int64?_eq_some]
    constructor
    · intro hn
      omega
    · intro hmeaning
      have hle := Double.two_pow_le_of_nearestTo hk hmeaning
      omega

namespace EnumDefinition

variable {text : String} {definition : EnumDefinition} {x : Double}

/-- A name with a double is a member exactly if the double is whole and in the range of 64 bits, and
the member has the value of the double. -/
structure TakesDouble (definition : EnumDefinition) (name : String) (x : Double) : Prop where
  isMember_iff : name ∈ definition.members.map (·.name) ↔
    ∃ m : ℤ, x.meaning = .number m ∧ -2 ^ 63 ≤ m ∧ m < 2 ^ 63
  value_eq : ∀ member ∈ definition.members, member.name = name →
    x.meaning = .number member.value.toInt

theorem takesDouble_ofEntries {entries : List (String × Json Number)} {name : String}
    {number : Number} (h : Json.lastValue? entries name = some (.number number))
    (hx : number.ReadsAs x) : (ofEntries entries).TakesDouble name x := by
  constructor
  · rw [mem_names_ofEntries h]
    simp only [hx.memberValue?_eq_some]
    constructor
    · rintro ⟨value, hvalue⟩
      exact ⟨_, hvalue, value.le_toInt, value.toInt_lt⟩
    · rintro ⟨m, hm, hlow, hhigh⟩
      exact ⟨Int64.ofInt m, by rw [hm, Int64.toInt_ofInt_of_le hlow hhigh]⟩
  · intro member hmember hname
    exact hx.memberValue?_eq_some.mp (memberValue?_of_mem h hmember hname)

/-! ### Showing a double -/

theorem displayDouble_of_ok (h : ofText text = .ok definition) (x : Double) (flags : Bool) :
    displayDouble x text flags = definition.display x.toInt64 flags := by
  rw [displayDouble, h]

/-- Without members a value is shown in decimal. -/
theorem display_empty (value : Int64) (flags : Bool) :
    empty.display value flags = toString value.toInt := by
  have hsorted : empty.sorted = [] := rfl
  rw [display, hsorted]
  split
  · rename_i hzero
    subst hzero
    rfl
  · rename_i hzero
    have hflags : flagNames? [] value = none := if_neg hzero
    cases flags with
    | false => rfl
    | true => exact congrArg (·.getD (exactName [] value)) hflags

theorem displayDouble_of_error {error : DefinitionError} (h : ofText text = .error error)
    (x : Double) (flags : Bool) :
    displayDouble x text flags = toString x.meaning.toInteger := by
  rw [displayDouble, h, display_empty, Double.toInt_toInt64]

/-- The double of a member is shown as the value of the member. -/
theorem TakesDouble.displayDouble_eq {name : String} (htakes : definition.TakesDouble name x)
    (h : ofText text = .ok definition) {member : EnumMember} (hmember : member ∈ definition.members)
    (hname : member.name = name) (flags : Bool) :
    displayDouble x text flags = definition.display member.value flags := by
  rw [displayDouble_of_ok h, Double.toInt64_of_meaning (htakes.value_eq member hmember hname)]

/-- How a definition text treats a double: the value shown is what the double stands for, made an
integer; the entries that hold the double are members if it is whole and fits; and both agree. -/
structure DoublesAgree (text : String) (definition : EnumDefinition) : Prop where
  converted : ∀ (x : Double) (flags : Bool),
    displayDouble x text flags = definition.display (Int64.ofInt x.meaning.toInteger) flags
  entries : ∃ entries, Json.ofText text = .ok (.object entries) ∧
    ∀ (name : String) (number : Number) (x : Double),
      Json.lastValue? entries name = some (.number number) → number.ReadsAs x →
      definition.TakesDouble name x ∧
      ∀ member ∈ definition.members, member.name = name → ∀ flags : Bool,
        displayDouble x text flags = definition.display member.value flags
  integers : ∀ (n : Int64) (x : Double), x.meaning = .number n.toInt → ∀ flags : Bool,
    displayDouble x text flags = definition.display n flags

theorem doublesAgree (h : ofText text = .ok definition) : DoublesAgree text definition where
  converted x flags := by
    rw [displayDouble_of_ok h, ← Double.toInt_toInt64, Int64.ofInt_toInt]
  entries := by
    obtain ⟨entries, hentries, rfl⟩ := ofText_eq_ok.mp h
    refine ⟨entries, hentries, fun name number x hlast hx => ?_⟩
    have htakes := takesDouble_ofEntries hlast hx
    exact ⟨htakes, fun member hmember hname => htakes.displayDouble_eq h hmember hname⟩
  integers n x hx flags := by
    rw [displayDouble_of_ok h, Double.toInt64_of_meaning hx]

/-- Doubles are decoded and converted by what their bits stand for; a definition text converts a
double to show and the double of an entry alike, and a refused text shows the converted integer. -/
theorem displayDouble_agrees :
    (∀ bits : UInt64, (Double.ofBits bits).meaning = .ofBits bits) ∧
    (∀ x : Double, x.toInt64.toInt = x.meaning.toInteger) ∧
    ∀ text : String,
      (∀ definition, ofText text = .ok definition → DoublesAgree text definition) ∧
      ∀ error, ofText text = .error error → ∀ (x : Double) (flags : Bool),
        displayDouble x text flags = toString x.meaning.toInteger :=
  ⟨Double.meaning_ofBits, Double.toInt_toInt64,
    fun _ => ⟨fun _ h => doublesAgree h, fun _ h => displayDouble_of_error h⟩⟩

/-- A whole number with an exponent and, just below the range, a number that rounds to its lower
limit. -/
def limitsText : String := "\x7b\"A\":4e0,\"B\":-9223372036854775809\x7d"

/-- The integer below the least of 64 bits. -/
def belowRange : Numeral :=
  ⟨true, [9, 2, 2, 3, 3, 7, 2, 0, 3, 6, 8, 5, 4, 7, 7, 5, 8, 0, 9], none, none⟩

theorem spells_belowRange : belowRange.Spells "-9223372036854775809".toList :=
  Numeral.spells_digits true (s := "9223372036854775809".toList) (by decide) rfl (by decide)

theorem isTreeOf_limitsText : (RawValue.object
    [(⟨[.char 'A'], none⟩, .numeral ⟨false, [4], none, some 0⟩),
      (⟨[.char 'B'], none⟩, .numeral belowRange)] none).IsTreeOf limitsText := by
  have hfirst := RawText.spells_plain (s := ['A']) rfl
  have hsecond := RawText.spells_plain (s := ['B']) rfl
  have hdigits : ∀ c : Char, c.isDigit = true → Numeral.SpellsDigits [Numeral.digitValue c] [c] :=
    fun c hc => ⟨List.cons_ne_nil _ _, by simpa using hc, rfl⟩
  have hfour : Numeral.Spells ⟨false, [4], none, some 0⟩ ['4', 'e', '0'] :=
    .mk false (hdigits '4' rfl) (by decide) .absent (.digits (.inl rfl) .absent (hdigits '0' rfl))
  have hblank : Blank [] := List.forall_mem_nil _
  exact ⟨[], _, [], hblank, .object (.more hblank hfirst hblank hblank (.numeral hfour) hblank
    (.one hblank hsecond hblank hblank (.numeral spells_belowRange) hblank)), hblank, rfl⟩

theorem json_limitsText : Json.ofText limitsText =
    .ok (.object [("A", .number (.double (.ofBits 0x4010000000000000))),
      ("B", .number (.double (.ofBits 0xc3e0000000000000)))]) := by
  have hfour : Numeral.read ⟨false, [4], none, some 0⟩ =
      .ok (.double (.ofBits 0x4010000000000000)) := by
    decide +kernel
  have hlimit : belowRange.read = .ok (.double (.ofBits 0xc3e0000000000000)) := by
    decide +kernel
  rw [Json.ofText, Document.read_ofText isTreeOf_limitsText]
  simp only [RawValue.value, RawValue.entryValues, RawText.decode, hfour, hlimit,
    RawText.decodePieces]
  rfl

theorem displayDouble_agrees_limits :
    ofText limitsText = .ok ⟨[⟨4, "A"⟩, ⟨Int64.minValue, "B"⟩]⟩ ∧
    DoublesAgree limitsText ⟨[⟨4, "A"⟩, ⟨Int64.minValue, "B"⟩]⟩ ∧
    displayDouble (.ofBits 0xc3e0000000000000) limitsText true = "B" ∧
    ofText "[]" = .error (.notAnObject .array) ∧
    displayDouble (.ofBits 0x43e0000000000000) "[]" false = "9223372036854775807" := by
  have hobject : ofText limitsText = .ok ⟨[⟨4, "A"⟩, ⟨Int64.minValue, "B"⟩]⟩ := by
    rw [ofText_eq_ok]
    exact ⟨_, json_limitsText, by decide +kernel⟩
  have hblank : Blank [] := List.forall_mem_nil _
  have hempty : (RawValue.array [] none).IsTreeOf "[]" :=
    ⟨[], _, [], hblank, .emptyArray hblank, hblank, rfl⟩
  have harray : ofText "[]" = .error (.notAnObject .array) := by
    rw [ofText, Json.ofText, Document.read_ofText hempty]
    rfl
  obtain ⟨hmeaning, hconverted, hagree⟩ := displayDouble_agrees
  have hlimits := (hagree limitsText).1 _ hobject
  have hlow : (Double.ofBits 0xc3e0000000000000).meaning = .number Int64.minValue.toInt := by
    rw [← Double.integer?_eq_some]
    decide +kernel
  have hhigh : (Double.ofBits 0x43e0000000000000).meaning.toInteger = 2 ^ 63 - 1 := by
    rw [← hconverted]
    decide +kernel
  refine ⟨hobject, hlimits, ?_, harray, ?_⟩
  · rw [hlimits.integers _ _ hlow]
    decide +kernel
  · rw [(hagree "[]").2 _ harray, hhigh]
    rfl

end EnumDefinition

end TokenInspector
