import TokenInspector.Proofs.Source.LineEnds
import Mathlib.Data.List.TakeWhile

/-!
# Lines of two texts

The lines of a text put together from two are those of the parts: where the first has ended, the
lines of the second go on, shifted by the length of the first. Only a carriage return at the end of
the first and a line feed at the start of the second (`MeetInPair`) are not told apart by the parts:
each ends a line by itself, but together they end only one, so the last start of the first falls
away. Before the cut positions are the same with or without the second text, and at the cut too
unless it cuts a pair.
-/

namespace TokenInspector

/-- The last character of `s` and the first of `t` are the two of one line end. -/
def MeetInPair (s t : List Char) : Prop := s.getLast? = some '\r' ∧ t.head? = some '\n'

instance (s t : List Char) : Decidable (MeetInPair s t) := inferInstanceAs (Decidable (_ ∧ _))

variable {c : Char} {s t : List Char}

theorem MeetInPair.cons (h : MeetInPair s t) : MeetInPair (c :: s) t := by
  cases s with
  | nil => cases h.1
  | cons d s => rwa [MeetInPair, List.getLast?_cons_cons]

theorem MeetInPair.exists_eq (h : MeetInPair s t) :
    ∃ s' t', s = s' ++ ['\r'] ∧ t = '\n' :: t' := by
  obtain ⟨s', hs⟩ := List.getLast?_eq_some_iff.mp h.1
  obtain ⟨t', ht⟩ := List.head?_eq_some_iff.mp h.2
  exact ⟨s', t', hs, ht⟩

theorem textUnits_append (s t : List Char) : textUnits (s ++ t) = textUnits s + textUnits t := by
  induction s with
  | nil => exact (Nat.zero_add _).symm
  | cons c s ih => rw [List.cons_append, textUnits_cons, textUnits_cons, ih, Nat.add_assoc]

namespace LineMap

variable {map map' : LineMap} {common later later' : List Nat} {o offset : Nat} {a b : String}

/-! ### Starts of lines -/

/-- A carriage return before the cut is followed by what follows it in the first text. -/
theorem not_pair_append (hcut : ¬ MeetInPair (c :: s) t)
    (hpair : ∀ rest, c = '\r' → s = '\n' :: rest → False) :
    ∀ rest, c = '\r' → s ++ t = '\n' :: rest → False := by
  intro rest hc hrest
  cases s with
  | nil => exact hcut ⟨congrArg some hc, congrArg List.head? hrest⟩
  | cons d s => exact hpair s hc (congrArg (· :: s) (List.cons.inj hrest).1)

/-- The scan goes on in the second text where it has come to in the first. -/
theorem startsAfter_append (hcut : ¬ MeetInPair s t) :
    startsAfter offset (s ++ t) =
      startsAfter offset s ++ startsAfter (offset + textUnits s) t := by
  fun_induction startsAfter offset s with
  | case1 => rfl
  | case2 offset rest ih =>
    have hunits : textUnits ('\r' :: '\n' :: rest) = 2 + textUnits rest := by
      rw [textUnits_cons, textUnits_cons, ← Nat.add_assoc]
      rfl
    show (offset + 2) :: startsAfter (offset + 2) (rest ++ t) = _
    rw [ih fun h => hcut h.cons.cons, hunits, Nat.add_assoc]
    rfl
  | case3 offset c rest hpair next hend ih =>
    rw [List.cons_append, startsAfter, if_pos hend, ih fun h => hcut h.cons, textUnits_cons,
      ← Nat.add_assoc]
    · rfl
    · exact not_pair_append hcut hpair
  | case4 offset c rest hpair next hend ih =>
    rw [List.cons_append, startsAfter, if_neg hend, ih fun h => hcut h.cons, textUnits_cons,
      ← Nat.add_assoc]
    exact not_pair_append hcut hpair

/-- A carriage return at the end begins a line at the end. -/
theorem startsAfter_concat_return (offset : Nat) (s : List Char) :
    startsAfter offset (s ++ ['\r']) =
      startsAfter offset s ++ [offset + textUnits (s ++ ['\r'])] := by
  have hcut : ¬ MeetInPair s ['\r'] := fun h => absurd h.2 (by decide)
  rw [startsAfter_append hcut, textUnits_append]
  rfl

/-- Of a pair that is cut only the start after the second character remains. -/
theorem startsAfter_append_pair (hcut : MeetInPair s t) :
    startsAfter offset (s ++ t) =
      (startsAfter offset s).dropLast ++ startsAfter (offset + textUnits s) t := by
  obtain ⟨s, t, rfl, rfl⟩ := hcut.exists_eq
  have hwhole : ¬ MeetInPair s ('\r' :: '\n' :: t) := fun h => absurd h.2 (by simp)
  have hunits : textUnits (s ++ ['\r']) = textUnits s + 1 := textUnits_append s ['\r']
  have hfeed : startsAfter (offset + (textUnits s + 1)) ('\n' :: t) =
      startsAfter (offset + textUnits s) ('\r' :: '\n' :: t) := rfl
  rw [List.append_assoc, List.singleton_append, startsAfter_append hwhole,
    startsAfter_concat_return, List.dropLast_concat, hunits, hfeed]

theorem starts_def (text : String) : (ofText text).starts = 0 :: startsAfter 0 text.toList := rfl

theorem tail_starts_ofText (text : String) (offset : Nat) :
    (ofText text).starts.tail.map (offset + ·) = startsAfter offset text.toList := by
  rw [starts_ofText, startsAfter_eq]
  rfl

/-- The lines of a second text start after the first. -/
theorem lt_of_mem_shifted {start : Nat} (h : start ∈ (ofText b).starts.tail.map (offset + ·)) :
    offset < start := by
  rw [tail_starts_ofText] at h
  exact (startsAfter_bounds start h).1

theorem length_append (a b : String) :
    (ofText (a ++ b)).length = (ofText a).length + (ofText b).length := by
  show textUnits (a ++ b).toList = textUnits a.toList + textUnits b.toList
  rw [String.toList_append, textUnits_append]

theorem starts_append (hcut : ¬ MeetInPair a.toList b.toList) :
    (ofText (a ++ b)).starts =
      (ofText a).starts ++ (ofText b).starts.tail.map ((ofText a).length + ·) := by
  have happend : startsAfter 0 (a.toList ++ b.toList) = _ := startsAfter_append hcut
  rw [Nat.zero_add] at happend
  rw [tail_starts_ofText, starts_def, starts_def, String.toList_append, happend]
  rfl

/-- The last line of a text that ends with a carriage return is empty. -/
theorem MeetInPair.starts_eq (hcut : MeetInPair a.toList t) :
    ∃ before, (ofText a).starts = before ++ [(ofText a).length] := by
  obtain ⟨s, -, hs, -⟩ := hcut.exists_eq
  refine ⟨0 :: startsAfter 0 s, ?_⟩
  rw [starts_def, hs, startsAfter_concat_return, Nat.zero_add, ← hs]
  rfl

theorem starts_append_pair (hcut : MeetInPair a.toList b.toList) :
    (ofText (a ++ b)).starts =
      (ofText a).starts.dropLast ++ (ofText b).starts.tail.map ((ofText a).length + ·) := by
  have happend : startsAfter 0 (a.toList ++ b.toList) = _ := startsAfter_append_pair hcut
  rw [Nat.zero_add] at happend
  obtain ⟨s, -, hs, -⟩ := hcut.exists_eq
  have hne : startsAfter 0 a.toList ≠ [] := by
    rw [hs, startsAfter_concat_return]
    exact List.append_ne_nil_of_right_ne_nil _ (List.cons_ne_nil _ _)
  rw [tail_starts_ofText, starts_def, starts_def, String.toList_append, happend,
    List.dropLast_cons_of_ne_nil hne]
  rfl

/-! ### Positions before the cut -/

theorem takeWhile_append_of_lt (h : ∀ start ∈ later, o < start) :
    (common ++ later).takeWhile (· ≤ o) = common.takeWhile (· ≤ o) := by
  have hlater : later.takeWhile (· ≤ o) = [] := by
    cases later with
    | nil => rfl
    | cons start rest =>
      have := h start List.mem_cons_self
      exact List.takeWhile_cons_of_neg (by simpa using this)
  rw [List.takeWhile_append, hlater, List.append_nil]
  split
  · rename_i hall
    exact ((List.takeWhile_prefix _).eq_of_length hall).symm
  · rfl

/-- Lines that start after an offset do not matter for its position. -/
theorem position?_eq (hstarts : map.starts = common ++ later)
    (hstarts' : map'.starts = common ++ later') (hlater : ∀ start ∈ later, o < start)
    (hlater' : ∀ start ∈ later', o < start) (ho : o ≤ map.length) (ho' : o ≤ map'.length) :
    map'.position? o = map.position? o := by
  have hreached : map'.startsUpTo o = map.startsUpTo o := by
    rw [startsUpTo, startsUpTo, hstarts, hstarts', takeWhile_append_of_lt hlater,
      takeWhile_append_of_lt hlater']
  rw [position?, position?, Nat.min_eq_left ho, Nat.min_eq_left ho', hreached]

theorem position?_append (hcut : ¬ MeetInPair a.toList b.toList) (ho : o ≤ (ofText a).length) :
    (ofText (a ++ b)).position? o = (ofText a).position? o := by
  refine position?_eq (List.append_nil _).symm (starts_append hcut) (by simp) ?_ ho ?_
  · intro start hstart
    exact Nat.lt_of_le_of_lt ho (lt_of_mem_shifted hstart)
  · rw [length_append]
    omega

theorem position?_append_pair (hcut : MeetInPair a.toList b.toList) (ho : o < (ofText a).length) :
    (ofText (a ++ b)).position? o = (ofText a).position? o := by
  obtain ⟨before, hbefore⟩ := MeetInPair.starts_eq hcut
  have hstarts := starts_append_pair hcut
  rw [hbefore, List.dropLast_concat] at hstarts
  refine position?_eq hbefore hstarts (by simpa using ho) ?_ (by omega) ?_
  · intro start hstart
    exact Nat.lt_trans ho (lt_of_mem_shifted hstart)
  · rw [length_append]
    omega

/-- Offsets up to the length of the first text stay within the whole. -/
theorem exists_position?_append (hlen : textUnits (a ++ b).toList < UInt32.size)
    (ho : o ≤ (ofText a).length) : ∃ p, (ofText (a ++ b)).position? o = some p ∧
      (ofText (a ++ b)).At p o := by
  have hwhole := length_append a b
  exact (wellFormed_ofText (a ++ b)).exists_position?_of_le hlen (by omega)

/-- Where a pair is cut, the first text has begun a line that the whole has not. -/
theorem line_of_cut_pair (hcut : MeetInPair a.toList b.toList)
    (hlen : textUnits (a ++ b).toList < UInt32.size) :
    ∃ p q, (ofText a).position? (ofText a).length = some p ∧
      (ofText (a ++ b)).position? (ofText a).length = some q ∧
      p.line.toNat = q.line.toNat + 1 := by
  have hfirst := wellFormed_ofText a
  have hwhole := length_append a b
  change (ofText (a ++ b)).length < UInt32.size at hlen
  obtain ⟨p, hp, hpat⟩ := hfirst.exists_position?_of_le (o := (ofText a).length) (by omega)
    (Nat.le_refl _)
  obtain ⟨q, hq, hqat⟩ := exists_position?_append hlen (Nat.le_refl (ofText a).length)
  refine ⟨p, q, hp, hq, ?_⟩
  obtain ⟨before, hbefore⟩ := MeetInPair.starts_eq hcut
  have hstarts := starts_append_pair hcut
  rw [hbefore, List.dropLast_concat] at hstarts
  have hall : ∀ start ∈ (ofText a).starts, decide (start ≤ (ofText a).length) = true :=
    fun start hstart => decide_eq_true (hfirst.bounded start hstart)
  have hpline : before.length + 1 = p.line.toNat + 1 := by
    rw [← hfirst.length_startsUpTo hpat, startsUpTo, List.takeWhile_eq_self_iff.mpr hall, hbefore,
      List.length_append, List.length_singleton]
  have hqline : before.length = q.line.toNat + 1 := by
    rw [hbefore] at hall
    rw [← (wellFormed_ofText (a ++ b)).length_startsUpTo hqat, startsUpTo, hstarts,
      takeWhile_append_of_lt fun _ => lt_of_mem_shifted,
      List.takeWhile_eq_self_iff.mpr fun start hstart => hall start (List.mem_append_left _ hstart)]
  omega

/-- The map of two texts together is made from the maps of the two. -/
theorem ofText_append (a b : String) (hlen : textUnits (a ++ b).toList < UInt32.size) :
    (ofText (a ++ b)).length = (ofText a).length + (ofText b).length ∧
    (ofText b).starts.head? = some 0 ∧
    (¬ MeetInPair a.toList b.toList →
      (ofText (a ++ b)).starts =
        (ofText a).starts ++ (ofText b).starts.tail.map ((ofText a).length + ·) ∧
      ∀ o ≤ (ofText a).length, ∃ p, (ofText a).position? o = some p ∧
        (ofText (a ++ b)).position? o = some p) ∧
    (MeetInPair a.toList b.toList →
      (ofText (a ++ b)).starts =
        (ofText a).starts.dropLast ++ (ofText b).starts.tail.map ((ofText a).length + ·) ∧
      (ofText (a ++ b)).lineCount + 2 = (ofText a).lineCount + (ofText b).lineCount ∧
      (∀ o < (ofText a).length, ∃ p, (ofText a).position? o = some p ∧
        (ofText (a ++ b)).position? o = some p) ∧
      ∃ p q, (ofText a).position? (ofText a).length = some p ∧
        (ofText (a ++ b)).position? (ofText a).length = some q ∧
        p.line.toNat = q.line.toNat + 1) := by
  refine ⟨length_append a b, rfl, fun hcut => ⟨starts_append hcut, ?_⟩,
    fun hcut => ⟨starts_append_pair hcut, ?_, ?_, line_of_cut_pair hcut hlen⟩⟩
  · intro o ho
    obtain ⟨p, hp, -⟩ := exists_position?_append hlen ho
    exact ⟨p, position?_append hcut ho ▸ hp, hp⟩
  · obtain ⟨before, hbefore⟩ := MeetInPair.starts_eq hcut
    rw [lineCount, lineCount, lineCount, starts_append_pair hcut, hbefore, starts_def b]
    simp
    omega
  · intro o ho
    obtain ⟨p, hp, -⟩ := exists_position?_append hlen (Nat.le_of_lt ho)
    exact ⟨p, position?_append_pair hcut ho ▸ hp, hp⟩

/-- A text before a cut: a surrogate pair, a line end of two characters, a carriage return. -/
def beforeCut : String := "😀\r\nx\r"

/-- A text after a cut that begins with a line feed. -/
def afterCut : String := "\ny\r"

/-- The two texts in this order cut a pair, in the other they do not. -/
theorem ofText_append_cut :
    textUnits (beforeCut ++ afterCut).toList < UInt32.size ∧
    MeetInPair beforeCut.toList afterCut.toList ∧
    (ofText (beforeCut ++ afterCut)).starts = [0, 4] ++ [1, 3].map (6 + ·) ∧
    (∃ p, (ofText beforeCut).position? 5 = some p ∧
      (ofText (beforeCut ++ afterCut)).position? 5 = some p) ∧
    textUnits (afterCut ++ beforeCut).toList < UInt32.size ∧
    ¬ MeetInPair afterCut.toList beforeCut.toList ∧
    (ofText (afterCut ++ beforeCut)).starts = [0, 1, 3] ++ [4, 6].map (3 + ·) := by
  have hlen : textUnits (beforeCut ++ afterCut).toList < UInt32.size := by decide
  have hlen' : textUnits (afterCut ++ beforeCut).toList < UInt32.size := by decide
  have hcut : MeetInPair beforeCut.toList afterCut.toList := by decide
  have hcut' : ¬ MeetInPair afterCut.toList beforeCut.toList := by decide
  obtain ⟨-, -, -, hpair⟩ := ofText_append beforeCut afterCut hlen
  obtain ⟨-, -, hplain, -⟩ := ofText_append afterCut beforeCut hlen'
  obtain ⟨hstarts, -, hposition, -⟩ := hpair hcut
  exact ⟨hlen, hcut, hstarts, hposition 5 (by decide), hlen', hcut', (hplain hcut').1⟩

end LineMap

end TokenInspector
