import TokenInspector.Command.Literal
import TokenInspector.Proofs.Enumeration.DoubleValues
import TokenInspector.Proofs.Enumeration.ReadBack
import Mathlib.Data.Nat.Digits.Defs

/-!
# The grammar of integer literals

`Denotes base literal n`: the literal is a minus sign or none, then characters that without their
underscores are a mark of the base and digits of that base, and it stands for the integer `n`. A
literal is read as a value of 64 bits just if it denotes that value (`ofText_eq_ok_iff`). It denotes
one integer only, no sign stands after the first character, and every integer has literals in all
three bases (`spelling`), so each value of 64 bits is read from them and no other integer is. The
text that is shown for a value without a name is one of these literals.
-/

namespace TokenInspector

namespace Literal

variable {base base' d m n : Nat} {c : Char} {s digits literal mark : List Char}
  {values : List Nat} {value : Int64}

/-! ### Digits -/

/-- The digits by value, in either case. -/
def lowerDigits : List Char := "0123456789abcdef".toList

@[inherit_doc lowerDigits]
def upperDigits : List Char := "0123456789ABCDEF".toList

/-- The character is the digit of value `d` in a base. -/
def IsDigit (base : Nat) (c : Char) (d : Nat) : Prop :=
  d < base ∧ (lowerDigits[d]? = some c ∨ upperDigits[d]? = some c)

/-- One or more digits, the first of them of the highest place, that stand for `n`. -/
inductive SpellsNatural (base : Nat) : List Char → Nat → Prop
  | mk {digits : List Char} {values : List Nat} : digits ≠ [] →
      List.Forall₂ (IsDigit base) digits values →
      SpellsNatural base digits (Nat.ofDigits base values.reverse)

/-- What stands before the digits of a base. -/
inductive Marks : Nat → List Char → Prop
  | decimal : Marks 10 []
  | hexadecimal {x : Char} : x = 'x' ∨ x = 'X' → Marks 16 ['0', x]
  | binary {b : Char} : b = 'b' ∨ b = 'B' → Marks 2 ['0', b]

/-- The literal stands for `n` in a base. -/
inductive Denotes : Nat → List Char → Int → Prop
  | mk {base n : Nat} {mark digits s : List Char} (negative : Bool) : Marks base mark →
      SpellsNatural base digits n → s.filter (· ≠ '_') = mark ++ digits →
      Denotes base ((if negative then ['-'] else []) ++ s) (Double.signed negative n)

/-- Smaller bases have fewer of the digits. -/
theorem digit?_eq_some_of_le (hbase : base ≤ 16) :
    digit? base c = some d ↔ digit? 16 c = some d ∧ d < base := by
  simp only [digit?, Option.filter_eq_some_iff, decide_eq_true_eq]
  constructor
  · rintro ⟨hvalue, hlt⟩
    exact ⟨⟨hvalue, by omega⟩, hlt⟩
  · rintro ⟨⟨hvalue, -⟩, hlt⟩
    exact ⟨hvalue, hlt⟩

theorem lt_of_digit?_eq_some (h : digit? base c = some d) : c.toNat < 128 := by
  obtain ⟨hvalue, -⟩ := Option.filter_eq_some_iff.mp h
  have hle : c ≤ 'z' := by
    split at hvalue
    · rename_i hrange
      exact Char.le_trans hrange.2 (by decide)
    · split at hvalue
      · rename_i hrange
        exact hrange.2
      · split at hvalue
        · rename_i hrange
          exact Char.le_trans hrange.2 (by decide)
        · cases hvalue
  exact Nat.lt_of_le_of_lt (show c.toNat ≤ 'z'.toNat from hle) (by decide)

/-- The digits that are read are those of the grammar. -/
theorem digit?_eq_some (hbase : base ≤ 16) : digit? base c = some d ↔ IsDigit base c d := by
  rw [digit?_eq_some_of_le hbase]
  constructor
  · rintro ⟨h, hlt⟩
    have hcodes : ∀ code < 128, (digit? 16 (Char.ofNat code)).all (fun d =>
        lowerDigits[d]? = some (Char.ofNat code) ∨ upperDigits[d]? = some (Char.ofNat code)) := by
      decide
    have hc := hcodes c.toNat (lt_of_digit?_eq_some h)
    rw [Char.ofNat_toNat, h] at hc
    exact ⟨hlt, of_decide_eq_true hc⟩
  · rintro ⟨hlt, hc⟩
    have hdigits : ∀ d < 16, lowerDigits[d]?.bind (digit? 16) = some d ∧
        upperDigits[d]?.bind (digit? 16) = some d := by decide
    refine ⟨?_, hlt⟩
    obtain ⟨hlower, hupper⟩ := hdigits d (by omega)
    rcases hc with hc | hc
    · rwa [hc] at hlower
    · rwa [hc] at hupper

theorem rightUnique_isDigit (hbase : base ≤ 16) : Relator.RightUnique (IsDigit base) := by
  intro c d e hd he
  rw [← digit?_eq_some hbase] at hd he
  exact Option.some.inj (hd.symm.trans he)

theorem isDigit_digitChar (hbase : base ≤ 16) (h : d < base) : IsDigit base d.digitChar d := by
  have hdigits : ∀ d < 16, lowerDigits[d]? = some d.digitChar := by decide
  exact ⟨h, .inl (hdigits d (by omega))⟩

/-- Signs and underscores. -/
def separators : List Char := ['-', '+', '_']

theorem not_isDigit_of_separator (h : c ∈ separators) : ¬ IsDigit base c d := by
  rintro ⟨-, hc⟩
  have hmem : c ∈ lowerDigits ++ upperDigits :=
    List.mem_append.mpr (hc.imp List.mem_of_getElem? List.mem_of_getElem?)
  have hdisjoint : separators.all (· ∉ lowerDigits ++ upperDigits) = true := by decide
  exact of_decide_eq_true (List.all_eq_true.mp hdisjoint c h) hmem

/-! ### Natural numbers -/

theorem ofDigits_reverse (base : Nat) (values : List Nat) :
    Nat.ofDigits base values.reverse = values.foldl (fun n d => n * base + d) 0 := by
  rw [Nat.ofDigits_eq_foldr, List.foldr_reverse]
  congr
  funext n d
  rw [Nat.cast_id, Nat.add_comm, Nat.mul_comm]

/-- Digits are read as long as the number fits; if it fits at the end it always did. -/
theorem readDigits_eq_ok {start : Nat} (hbase : 0 < base) (hbase' : base ≤ 16)
    (hstart : start < UInt64.size) : readDigits base start digits = .ok n ↔
      ∃ values, List.Forall₂ (IsDigit base) digits values ∧
        values.foldl (fun n d => n * base + d) start = n ∧ n < UInt64.size := by
  induction digits generalizing start with
  | nil =>
    rw [readDigits, Except.ok.injEq]
    constructor
    · rintro rfl
      exact ⟨[], .nil, rfl, hstart⟩
    · rintro ⟨values, hvalues, hn, -⟩
      cases hvalues
      exact hn
  | cons c rest ih =>
    rw [readDigits]
    cases hc : digit? base c with
    | none =>
      simp only [reduceCtorEq, false_iff]
      rintro ⟨values, hvalues, -⟩
      cases hvalues with
      | cons hdigit _ =>
        rw [(digit?_eq_some hbase').mpr hdigit] at hc
        cases hc
    | some d =>
      have hdigit := (digit?_eq_some hbase').mp hc
      constructor
      · intro h
        dsimp only at h
        split at h
        · rename_i hfits
          obtain ⟨values, hvalues, hn⟩ := (ih hfits).mp h
          exact ⟨d :: values, .cons hdigit hvalues, hn⟩
        · cases h
      · rintro ⟨_, hvalues, hn, hlt⟩
        cases hvalues with
        | @cons _ _ _ values hdigit' hvalues =>
          obtain rfl := rightUnique_isDigit hbase' hdigit hdigit'
          have hfits : start * base + d < UInt64.size :=
            Nat.lt_of_le_of_lt (Numeral.le_foldl_digits hbase values _) (hn ▸ hlt)
          dsimp only
          rw [if_pos hfits]
          exact (ih hfits).mpr ⟨values, hvalues, hn, hlt⟩

theorem SpellsNatural.unique (hbase : base ≤ 16) (hm : SpellsNatural base digits m)
    (hn : SpellsNatural base digits n) : m = n := by
  obtain ⟨-, hm⟩ := hm
  obtain ⟨-, hn⟩ := hn
  rw [(rightUnique_isDigit hbase).forall₂ hm hn]

theorem magnitude_eq_ok (hbase : 0 < base) (hbase' : base ≤ 16) :
    magnitude base digits = .ok n ↔ SpellsNatural base digits n ∧ n < UInt64.size := by
  unfold magnitude
  cases digits with
  | nil =>
    simp only [List.isEmpty_nil, if_true, reduceCtorEq, false_iff]
    rintro ⟨⟨hne, -⟩, -⟩
    exact hne rfl
  | cons c rest =>
    simp only [List.isEmpty_cons, Bool.false_eq_true, if_false]
    rw [readDigits_eq_ok hbase hbase' (by decide)]
    constructor
    · rintro ⟨values, hvalues, hn, hlt⟩
      refine ⟨?_, hlt⟩
      rw [← hn, ← ofDigits_reverse]
      exact .mk (List.cons_ne_nil _ _) hvalues
    · rintro ⟨⟨-, hvalues⟩, hlt⟩
      exact ⟨_, hvalues, (ofDigits_reverse _ _).symm, hlt⟩

theorem spellsNatural_toDigits (hbase : 1 < base) (hbase' : base ≤ 16) (n : Nat) :
    SpellsNatural base (Nat.toDigits base n) n := by
  have hvalues : ∃ values, List.Forall₂ (IsDigit base) (Nat.toDigits base n) values ∧
      Nat.ofDigits base values.reverse = n := by
    induction n using Nat.strongRecOn with
    | ind n ih =>
      rw [Nat.toDigits_eq_if hbase]
      split
      · rename_i hlt
        exact ⟨[n], .cons (isDigit_digitChar hbase' hlt) .nil, Nat.ofDigits_singleton⟩
      · rename_i hge
        obtain ⟨values, hvalues, hquotient⟩ := ih (n / base) (Nat.div_lt_self (by omega) hbase)
        have hlast := isDigit_digitChar hbase' (Nat.mod_lt n (by omega))
        refine ⟨values ++ [n % base], List.rel_append hvalues (.cons hlast .nil), ?_⟩
        rw [List.reverse_concat, Nat.ofDigits_cons, hquotient]
        exact Nat.mod_add_div n base
  obtain ⟨values, hvalues, hn⟩ := hvalues
  have hspells := SpellsNatural.mk Nat.toDigits_ne_nil hvalues
  rwa [hn] at hspells

/-! ### Signs and marks -/

theorem SpellsNatural.exists_cons (h : SpellsNatural base digits n) :
    ∃ c rest d, digits = c :: rest ∧ IsDigit base c d := by
  obtain ⟨hne, hvalues⟩ := h
  cases hvalues with
  | nil => exact absurd rfl hne
  | cons hdigit _ => exact ⟨_, _, _, rfl, hdigit⟩

theorem SpellsNatural.not_mem (h : SpellsNatural base digits n) (hc : c ∈ separators) :
    c ∉ digits := by
  obtain ⟨-, hvalues⟩ := h
  intro hmem
  induction hvalues with
  | nil => cases hmem
  | cons hdigit _ ih =>
    rcases List.mem_cons.mp hmem with rfl | hmem
    · exact not_isDigit_of_separator hc hdigit
    · exact ih hmem

namespace Marks

theorem base_bounds (h : Marks base mark) : 1 < base ∧ base ≤ 16 := by
  cases h <;> decide

theorem not_mem (h : Marks base mark) (hc : c ∈ separators) : c ∉ mark := by
  have hmark : separators.all (· ∉ mark) = true := by
    cases h with
    | decimal => decide
    | hexadecimal hx => rcases hx with rfl | rfl <;> decide
    | binary hb => rcases hb with rfl | rfl <;> decide
  exact of_decide_eq_true (List.all_eq_true.mp hmark c hc)

/-- A mark is split off from the digits after it. -/
theorem splitBase_eq (h : Marks base mark) (hdigits : SpellsNatural base digits n) :
    splitBase (mark ++ digits) = (base, digits) := by
  cases h with
  | hexadecimal hx => rcases hx with rfl | rfl <;> rfl
  | binary hb => rcases hb with rfl | rfl <;> rfl
  | decimal =>
    -- a mark would have a letter that is no decimal digit
    have hnone : ∀ {x : Char} {rest : List Char}, digit? 10 x = none →
        digits ≠ '0' :: x :: rest := by
      rintro x rest hx rfl
      obtain ⟨-, hvalues⟩ := hdigits
      rcases hvalues with _ | ⟨-, _ | ⟨hdigit, -⟩⟩
      rw [(digit?_eq_some (by decide)).mpr hdigit] at hx
      cases hx
    show splitBase digits = (10, digits)
    unfold splitBase
    split
    · exact absurd rfl (hnone (by decide))
    · exact absurd rfl (hnone (by decide))
    · exact absurd rfl (hnone (by decide))
    · exact absurd rfl (hnone (by decide))
    · rfl

end Marks

theorem exists_mark (s : List Char) :
    ∃ mark, Marks (splitBase s).1 mark ∧ s = mark ++ (splitBase s).2 := by
  unfold splitBase
  split
  · exact ⟨_, .hexadecimal (.inl rfl), rfl⟩
  · exact ⟨_, .hexadecimal (.inr rfl), rfl⟩
  · exact ⟨_, .binary (.inl rfl), rfl⟩
  · exact ⟨_, .binary (.inr rfl), rfl⟩
  · exact ⟨[], .decimal, rfl⟩

/-- The sign of a literal and what follows it are split where the literal has them. -/
theorem splitSign_eq {negative : Bool} (h : negative = false → '-' ∉ s) :
    splitSign ((if negative then ['-'] else []) ++ s) = (negative, s) := by
  cases negative with
  | true => rfl
  | false =>
    show splitSign s = (false, s)
    unfold splitSign
    split
    · exact absurd List.mem_cons_self (h rfl)
    · rfl

theorem append_splitSign (literal : List Char) :
    literal = (if (splitSign literal).1 then ['-'] else []) ++ (splitSign literal).2 := by
  unfold splitSign
  split <;> rfl

theorem Marks.not_mem_append (hmark : Marks base mark) (hdigits : SpellsNatural base digits n)
    (hc : c ∈ separators) : c ∉ mark ++ digits := by
  rw [List.mem_append, not_or]
  exact ⟨hmark.not_mem hc, hdigits.not_mem hc⟩

/-- No sign stands among the digits, or among the underscores between them. -/
theorem not_mem_of_filter (hs : s.filter (· ≠ '_') = mark ++ digits) (hmark : Marks base mark)
    (hdigits : SpellsNatural base digits n) (hc : c ∈ separators) (hkept : c ≠ '_') : c ∉ s := by
  intro hmem
  have hfilter : c ∈ s.filter (· ≠ '_') := List.mem_filter.mpr ⟨hmem, decide_eq_true hkept⟩
  exact hmark.not_mem_append hdigits hc (hs ▸ hfilter)

/-- The parts that a literal is taken apart into. -/
theorem exists_parts (literal : List Char) :
    ∃ negative s base digits, splitSign literal = (negative, s) ∧
      splitBase (s.filter (· ≠ '_')) = (base, digits) ∧ 1 < base ∧ base ≤ 16 := by
  obtain ⟨mark, hmark, -⟩ := exists_mark ((splitSign literal).2.filter (· ≠ '_'))
  exact ⟨_, _, _, _, rfl, rfl, hmark.base_bounds⟩

/-- A literal denotes what its parts do. -/
theorem denotes_iff {i : Int} {negative : Bool} (hsign : splitSign literal = (negative, s))
    (hbase : splitBase (s.filter (· ≠ '_')) = (base, digits)) : Denotes base' literal i ↔
      base' = base ∧ ∃ n, SpellsNatural base digits n ∧ i = Double.signed negative n := by
  constructor
  · rintro ⟨negative', hmark, hdigits, hs⟩
    have hminus := not_mem_of_filter (c := '-') hs hmark hdigits (by decide) (by decide)
    rw [splitSign_eq fun _ => hminus] at hsign
    cases hsign
    rw [hs, hmark.splitBase_eq hdigits] at hbase
    cases hbase
    exact ⟨rfl, _, hdigits, rfl⟩
  · rintro ⟨rfl, n, hdigits, rfl⟩
    obtain ⟨mark, hmark, hs⟩ := exists_mark (s.filter (· ≠ '_'))
    rw [hbase] at hmark hs
    have hliteral := append_splitSign literal
    rw [hsign] at hliteral
    rw [hliteral]
    exact .mk negative hmark hdigits hs

/-- A literal denotes one integer only. -/
theorem Denotes.unique {i j : Int} (hi : Denotes base literal i) (hj : Denotes base' literal j) :
    i = j := by
  obtain ⟨negative, s, _, digits, hsign, hbase, -, hhigh⟩ := exists_parts literal
  obtain ⟨-, m, hm, rfl⟩ := (denotes_iff hsign hbase).mp hi
  obtain ⟨-, n, hn, rfl⟩ := (denotes_iff hsign hbase).mp hj
  rw [hm.unique hhigh hn]

/-! ### Reading -/

theorem SpellsNatural.startsWithSign (h : SpellsNatural base digits n) :
    startsWithSign digits = false := by
  obtain ⟨c, rest, d, rfl, hdigit⟩ := h.exists_cons
  rw [Literal.startsWithSign, List.head?_cons, Option.any_some]
  have hminus : c ≠ '-' := by
    rintro rfl
    exact not_isDigit_of_separator (by decide) hdigit
  have hplus : c ≠ '+' := by
    rintro rfl
    exact not_isDigit_of_separator (by decide) hdigit
  simp [hminus, hplus]

theorem range_eq_ok {i : Int} : (if Int64.minValue.toInt ≤ i ∧ i ≤ Int64.maxValue.toInt then
      return Int64.ofInt i else throw .outOfRange : Except LiteralProblem Int64) = .ok value ↔
    value.toInt = i := by
  rw [← int64?_eq_some, int64?]
  split
  · simp [pure, Except.pure]
  · simp [throw, throwThe, MonadExceptOf.throw]

theorem read_eq_ok {negative : Bool} (hsign : splitSign literal = (negative, s))
    (hbase : splitBase (s.filter (· ≠ '_')) = (base, digits)) : read literal = .ok value ↔
      startsWithSign digits = false ∧ ∃ n, magnitude base digits = .ok n ∧
        value.toInt = Double.signed negative n := by
  rw [read, hsign]
  dsimp only
  rw [hbase]
  cases startsWithSign digits with
  | true => simp [throw, throwThe, MonadExceptOf.throw, bind, Except.bind]
  | false =>
    simp only [Bool.false_eq_true, if_false, true_and, bind_eq_ok, mapError_eq_ok]
    exact exists_congr fun n => and_congr_right fun _ => range_eq_ok

theorem read_eq_ok_iff : read literal = .ok value ↔ ∃ base, Denotes base literal value.toInt := by
  obtain ⟨negative, s, base, digits, hsign, hbase, hlow, hhigh⟩ := exists_parts literal
  rw [read_eq_ok hsign hbase]
  simp only [denotes_iff hsign hbase, magnitude_eq_ok (Nat.zero_lt_of_lt hlow) hhigh]
  constructor
  · rintro ⟨-, n, ⟨hn, -⟩, hvalue⟩
    exact ⟨_, rfl, n, hn, hvalue⟩
  · rintro ⟨_, rfl, n, hn, hvalue⟩
    refine ⟨hn.startsWithSign, n, ⟨hn, ?_⟩, hvalue⟩
    have := value.le_toInt
    have := value.toInt_lt
    have : UInt64.size = 2 ^ 64 := rfl
    unfold Double.signed at hvalue
    split at hvalue <;> omega

theorem exists_error_iff {text : String} : (∃ problem, ofText text = .error problem) ↔
    ∀ base i, Denotes base text.toList i → i < -2 ^ 63 ∨ 2 ^ 63 ≤ i := by
  constructor
  · rintro ⟨problem, hproblem⟩ base i hi
    by_contra hrange
    have hread : ofText text = .ok (Int64.ofInt i) := by
      have htoInt : (Int64.ofInt i).toInt = i :=
        Int64.toInt_ofInt_of_le (by omega) (by omega)
      exact read_eq_ok_iff.mpr ⟨base, htoInt.symm ▸ hi⟩
    rw [hproblem] at hread
    cases hread
  · intro h
    cases hread : ofText text with
    | error problem => exact ⟨problem, rfl⟩
    | ok value =>
      obtain ⟨base, hdenotes⟩ := read_eq_ok_iff.mp hread
      have := h base _ hdenotes
      have := value.le_toInt
      have := value.toInt_lt
      omega

/-! ### Literals of all integers -/

/-- A literal of an integer: a minus sign if it is negative, the mark, and the digits. -/
def spelling (base : Nat) (mark : List Char) (i : Int) : List Char :=
  (if decide (i < 0) then ['-'] else []) ++ (mark ++ Nat.toDigits base i.natAbs)

theorem Marks.denotes_spelling (h : Marks base mark) (i : Int) :
    Denotes base (spelling base mark i) i := by
  have hdigits := spellsNatural_toDigits h.base_bounds.1 h.base_bounds.2 i.natAbs
  have hfilter : (mark ++ Nat.toDigits base i.natAbs).filter (· ≠ '_') =
      mark ++ Nat.toDigits base i.natAbs := by
    rw [List.filter_eq_self]
    intro c hc
    rw [decide_eq_true_eq]
    rintro rfl
    exact h.not_mem_append hdigits (by decide) hc
  have hdenotes := Denotes.mk (decide (i < 0)) h hdigits hfilter
  have hi : Double.signed (decide (i < 0)) i.natAbs = i := by
    unfold Double.signed
    by_cases hneg : i < 0 <;> simp only [hneg, decide_true, decide_false, if_true,
      Bool.false_eq_true, if_false] <;> omega
  rwa [hi] at hdenotes

/-- There is no sign after the first character. -/
theorem Denotes.not_mem {i : Int} (h : Denotes base literal i) :
    '+' ∉ literal ∧ '-' ∉ literal.tail := by
  obtain ⟨negative, hmark, hdigits, hs⟩ := h
  have hplus := not_mem_of_filter (c := '+') hs hmark hdigits (by decide) (by decide)
  have hminus := not_mem_of_filter (c := '-') hs hmark hdigits (by decide) (by decide)
  cases negative with
  | true => exact ⟨by simpa using hplus, hminus⟩
  | false => exact ⟨hplus, fun h => hminus (List.mem_of_mem_tail h)⟩

/-! ### Decimal texts -/

theorem toList_decimal (value : Int64) : (decimal value).toList = spelling 10 [] value.toInt := by
  rw [decimal, Int.toString_eq_repr, Int.repr_eq_if, spelling, List.nil_append]
  split
  · rename_i hnonneg
    have hnat : value.toInt.toNat = value.toInt.natAbs := by omega
    rw [Nat.toList_repr, hnat, decide_eq_false (by omega)]
    rfl
  · rename_i hneg
    have hnat : (-value.toInt).toNat = value.toInt.natAbs := by omega
    rw [String.toList_append, Nat.toList_repr, hnat, decide_eq_true (by omega)]
    rfl

end Literal

namespace EnumDefinition

/-- No member, and no members together, give the value a name. -/
def IsUnnamed (definition : EnumDefinition) (value : Int64) (flags : Bool) : Prop :=
  if value = 0 then ∀ first ∈ definition.sorted.head?, first.value ≠ 0
  else (flags = true → flagNames? definition.sorted value = none) ∧
    ∀ member ∈ definition.members, member.value ≠ value

theorem IsUnnamed.display_eq {definition : EnumDefinition} {value : Int64} {flags : Bool}
    (h : definition.IsUnnamed value flags) : definition.display value flags = decimal value := by
  unfold IsUnnamed at h
  by_cases hv : value = 0
  · subst hv
    rw [if_pos rfl] at h
    show zeroName definition.sorted = decimal 0
    have hzero : decimal 0 = "0" := by decide
    rw [hzero]
    unfold zeroName
    cases hsorted : definition.sorted with
    | nil => rfl
    | cons first rest => exact if_neg (h first (by rw [hsorted]; rfl))
  · rw [if_neg hv] at h
    have hexact : exactName definition.sorted value = decimal value := by
      have hnone : definition.sorted.find? (·.value = value) = none := by
        rw [List.find?_eq_none]
        intro member hm
        simpa using h.2 member (mem_sorted.mp hm)
      rw [exactName, hnone]
      rfl
    cases flags with
    | false => simp only [display, if_neg hv, Bool.false_eq_true, if_false, hexact]
    | true => rw [display_flags definition hv, h.1 rfl, Option.getD_none, hexact]

end EnumDefinition

namespace Literal

theorem ofText_decimal (value : Int64) : ofText (decimal value) = .ok value :=
  read_eq_ok_iff.mpr ⟨10, toList_decimal value ▸ Marks.decimal.denotes_spelling value.toInt⟩

/-- A text is read as the 64-bit value that it denotes; if it denotes none it is refused. -/
theorem ofText_eq_ok_iff :
    (∀ text value, ofText text = .ok value ↔ ∃ base, Denotes base text.toList value.toInt) ∧
    (∀ text, (∃ problem, ofText text = .error problem) ↔
      ∀ base i, Denotes base text.toList i → i < -2 ^ 63 ∨ 2 ^ 63 ≤ i) ∧
    (∀ base base' literal i j, Denotes base literal i → Denotes base' literal j → i = j) ∧
    (∀ base mark, Marks base mark →
      (∀ value : Int64, ofText (.ofList (spelling base mark value.toInt)) = .ok value) ∧
      ∀ i, i < -2 ^ 63 ∨ 2 ^ 63 ≤ i →
        ∃ problem, ofText (.ofList (spelling base mark i)) = .error problem) ∧
    (∀ text, '+' ∈ text.toList ∨ '-' ∈ text.toList.tail →
      ∃ problem, ofText text = .error problem) ∧
    ∀ (definition : EnumDefinition) value flags, definition.IsUnnamed value flags →
      definition.display value flags = decimal value ∧
      ofText (definition.display value flags) = .ok value := by
  refine ⟨fun _ _ => read_eq_ok_iff, fun _ => exists_error_iff,
    fun _ _ _ _ _ hi hj => hi.unique hj, ?_, ?_, ?_⟩
  · intro base mark hmark
    constructor
    · intro value
      refine read_eq_ok_iff.mpr ⟨base, ?_⟩
      rw [String.toList_ofList]
      exact hmark.denotes_spelling value.toInt
    · intro i hi
      rw [exists_error_iff, String.toList_ofList]
      intro base' j hj
      rwa [hj.unique (hmark.denotes_spelling i)]
  · intro text hsign
    rw [exists_error_iff]
    intro base i hi
    obtain ⟨hplus, hminus⟩ := hi.not_mem
    exact absurd hsign (not_or.mpr ⟨hplus, hminus⟩)
  · intro definition value flags hunnamed
    rw [hunnamed.display_eq]
    exact ⟨rfl, ofText_decimal value⟩

/-- The least value in hexadecimal, one more than the greatest in binary, a sign behind underscores,
and a value of a definition that names other values. -/
theorem ofText_eq_ok_iff_bounds :
    ofText (.ofList (spelling 16 ['0', 'X'] Int64.minValue.toInt)) = .ok Int64.minValue ∧
    (∃ problem, ofText (.ofList (spelling 2 ['0', 'b'] (2 ^ 63))) = .error problem) ∧
    (∃ problem, ofText "-0x__-1" = .error problem) ∧
    ofText ((EnumDefinition.ofPairs [("A", 1), ("B", 2)]).display 5 true) = .ok 5 := by
  obtain ⟨-, -, -, hspelling, hsigns, hdisplay⟩ := ofText_eq_ok_iff
  refine ⟨(hspelling 16 _ (.hexadecimal (.inr rfl))).1 _,
    (hspelling 2 _ (.binary (.inl rfl))).2 _ (.inr (by decide)), hsigns _ (.inr ?_),
    (hdisplay _ 5 true ?_).2⟩
  · decide
  · show (true = true → _) ∧ _
    decide

example : ofText "-0x8000_0000_0000_0000" = .ok Int64.minValue ∧
    ofText "9223372036854775808" = .error .outOfRange ∧
    ofText "0x+1" = .error .unexpectedSign ∧ ofText "_0_b_1_0_" = .ok 2 := by
  decide

end Literal

end TokenInspector
