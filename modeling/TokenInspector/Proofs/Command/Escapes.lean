import TokenInspector.Command.Styled

/-!
# Escape sequences

`Style.strip` deletes the escape sequences of the styles from a text, in one pass from left to
right. What it leaves of output does not depend on whether colour is on (`Spaced.strip_render`), if
every styled piece stands apart from the pieces around it, so that what it begins or ends with makes
up no sequence with them.
-/

namespace TokenInspector

namespace Style

/-- The escape sequences that output with colour has of its own. -/
def sequences : List (List Char) := [reset, opening bold, opening red, opening cyan]

/-- Deletes the sequences in one pass from left to right. -/
def strip : List Char → List Char
  | '\x1b' :: '[' :: '0' :: 'm' :: rest => strip rest
  | '\x1b' :: '[' :: '1' :: 'm' :: rest => strip rest
  | '\x1b' :: '[' :: '3' :: '1' :: 'm' :: rest => strip rest
  | '\x1b' :: '[' :: '3' :: '6' :: 'm' :: rest => strip rest
  | c :: rest => c :: strip rest
  | [] => []

variable {style : Style} {sequence s t : List Char} {c : Char}

theorem strip_sequence (h : sequence ∈ sequences) (s : List Char) :
    strip (sequence ++ s) = strip s := by
  simp only [sequences, List.mem_cons, List.not_mem_nil, or_false] at h
  obtain rfl | rfl | rfl | rfl := h <;> rfl

theorem opening_mem_sequences (style : Style) : style.opening ∈ sequences := by
  cases style <;> decide

theorem strip_cons (h : ∀ sequence ∈ sequences, ¬ sequence <+: c :: s) :
    strip (c :: s) = c :: strip s := by
  rw [strip]
  all_goals
    rintro rest rfl rfl
    simp [sequences, reset, opening] at h

/-- Induction along the pass: at each place a sequence is passed over, or one character. -/
theorem strip_induction {motive : List Char → Prop} (nil : motive [])
    (sequence : ∀ sequence ∈ sequences, ∀ s, motive s → motive (sequence ++ s))
    (cons : ∀ c s, (∀ sequence ∈ sequences, ¬ sequence <+: c :: s) → motive s → motive (c :: s))
    (s : List Char) : motive s := by
  induction s using strip.induct with
  | case1 rest ih => exact sequence reset (by decide) rest ih
  | case2 rest ih => exact sequence (opening bold) (by decide) rest ih
  | case3 rest ih => exact sequence (opening red) (by decide) rest ih
  | case4 rest ih => exact sequence (opening cyan) (by decide) rest ih
  | case5 c rest hreset hbold hred hcyan ih =>
    refine cons c rest ?_ ih
    rintro sequence hsequence ⟨tail, heq⟩
    simp only [sequences, List.mem_cons, List.not_mem_nil, or_false] at hsequence
    obtain rfl | rfl | rfl | rfl := hsequence
    · cases heq
      exact hreset tail rfl rfl
    · cases heq
      exact hbold tail rfl rfl
    · cases heq
      exact hred tail rfl rfl
    · cases heq
      exact hcyan tail rfl rfl
  | case6 => exact nil

/-- A text without the character that begins a sequence is left as it is. -/
theorem strip_of_not_mem (h : '\x1b' ∉ s) : strip s = s := by
  induction s using strip_induction with
  | nil => rfl
  | sequence sequence hsequence s ih =>
    have hfirst : sequences.all ('\x1b' ∈ ·) = true := by decide
    have hmem := of_decide_eq_true (List.all_eq_true.mp hfirst sequence hsequence)
    exact absurd (List.mem_append_left s hmem) h
  | cons c s hnone ih => rw [strip_cons hnone, ih (List.not_mem_of_not_mem_cons h)]

/-- No sequence begins in the first text and ends in the second: the first ends with a character, or
the second begins with one, that does not stand there in a sequence. -/
def Apart (s t : List Char) : Prop :=
  (∀ c ∈ s.getLast?, ∀ sequence ∈ sequences, c ∉ sequence) ∨
    ∀ c ∈ t.head?, ∀ sequence ∈ sequences, c ∉ sequence.tail

theorem escape_not_mem_tail (h : sequence ∈ sequences) : '\x1b' ∉ sequence.tail := by
  have htails : sequences.all ('\x1b' ∉ ·.tail) = true := by decide
  exact of_decide_eq_true (List.all_eq_true.mp htails sequence h)

theorem apart_reset (s : List Char) : Apart s reset := by
  refine .inr fun c hc sequence hsequence => ?_
  obtain rfl := Option.some.inj hc
  exact escape_not_mem_tail hsequence

theorem Apart.of_append {u : List Char} (h : Apart (u ++ s) t) : Apart s t := by
  refine h.imp_left fun hlast c hc => hlast c ?_
  rw [List.getLast?_append, Option.mem_def.mp hc]
  rfl

/-- Of two texts apart from each other, the first has the sequences that begin in it as a whole. -/
theorem Apart.prefix_left (h : Apart (c :: s) t) (hsequence : sequence ∈ sequences)
    (hbegins : sequence <+: c :: s ++ t) : sequence <+: c :: s := by
  rcases List.prefix_or_prefix_of_prefix (List.prefix_append (c :: s) t) hbegins with
    ⟨rest, rfl⟩ | hleft
  · have hrest := (List.prefix_append_right_inj (c :: s)).mp hbegins
    cases rest with
    | nil => simp
    | cons d rest =>
      -- a sequence that goes on with `d` after the first text
      exfalso
      rcases h with hlast | hhead
      · refine hlast _ (List.getLast?_eq_some_getLast (List.cons_ne_nil c s)) _ hsequence ?_
        exact List.mem_append_left _ (List.getLast_mem _)
      · obtain ⟨u, rfl⟩ := hrest
        exact hhead d rfl _ hsequence (List.mem_append_right s List.mem_cons_self)
  · exact hleft

theorem strip_append (h : Apart s t) : strip (s ++ t) = strip s ++ strip t := by
  induction s using strip_induction with
  | nil => rfl
  | sequence sequence hsequence s ih =>
    rw [List.append_assoc, strip_sequence hsequence, strip_sequence hsequence, ih h.of_append]
  | cons c s hnone ih =>
    have hboth : ∀ sequence ∈ sequences, ¬ sequence <+: c :: (s ++ t) :=
      fun sequence hsequence hbegins => hnone sequence hsequence (h.prefix_left hsequence hbegins)
    rw [List.cons_append, strip_cons hboth, strip_cons hnone, List.cons_append,
      ih (Apart.of_append (u := [c]) h)]

end Style

namespace Piece

open Style

variable {style : Style} {s t : List Char} {width : Nat} {piece : Piece} {pieces : List Piece}

/-! ### Styles turned on again -/

theorem reopen_cons {c : Char} (h : ¬ reset <+: c :: s) :
    reopen style (c :: s) = c :: reopen style s := by
  rw [reopen]
  rintro rest rfl rfl
  exact h ⟨rest, rfl⟩

theorem reopen_opening (other : Style) (s : List Char) :
    reopen style (other.opening ++ s) = other.opening ++ reopen style s := by
  cases other <;> rfl

/-- A text without escapes begins a reopened text only if it began the text. -/
theorem prefix_of_prefix_reopen {u : List Char} (hu : '\x1b' ∉ u) (h : u <+: reopen style s) :
    u <+: s := by
  induction u generalizing s with
  | nil => exact List.nil_prefix
  | cons c u ih =>
    rw [List.mem_cons, not_or] at hu
    cases s with
    | nil => exact absurd (List.prefix_nil.mp h) (List.cons_ne_nil c u)
    | cons d s =>
      by_cases hreset : reset <+: d :: s
      · obtain ⟨rest, hrest⟩ := hreset
        rw [← hrest] at h
        exact absurd (List.cons_prefix_cons.mp h).1.symm hu.1
      · rw [reopen_cons hreset] at h
        obtain ⟨rfl, hbegins⟩ := List.cons_prefix_cons.mp h
        exact List.cons_prefix_cons.mpr ⟨rfl, ih hu.2 hbegins⟩

theorem prefix_of_prefix_cons_reopen {c : Char} {sequence : List Char}
    (hsequence : sequence ∈ sequences) (h : sequence <+: c :: reopen style s) :
    sequence <+: c :: s := by
  cases sequence with
  | nil => exact List.nil_prefix
  | cons d u =>
    obtain ⟨rfl, hbegins⟩ := List.cons_prefix_cons.mp h
    have hu : '\x1b' ∉ u := escape_not_mem_tail hsequence
    exact List.cons_prefix_cons.mpr ⟨rfl, prefix_of_prefix_reopen hu hbegins⟩

/-- Turning a style on again writes sequences only, and none of other characters of the text. -/
theorem strip_reopen (style : Style) (s : List Char) : strip (reopen style s) = strip s := by
  induction s using strip_induction with
  | nil => rfl
  | sequence sequence hsequence s ih =>
    rw [strip_sequence hsequence]
    simp only [sequences, List.mem_cons, List.not_mem_nil, or_false] at hsequence
    rcases hsequence with rfl | hopening
    · have hreopen : reopen style (reset ++ s) = reset ++ (style.opening ++ reopen style s) := rfl
      rw [hreopen, strip_sequence (by decide), strip_sequence style.opening_mem_sequences, ih]
    · obtain ⟨other, rfl⟩ : ∃ other : Style, sequence = other.opening := by
        rcases hopening with rfl | rfl | rfl <;> exact ⟨_, rfl⟩
      rw [reopen_opening, strip_sequence other.opening_mem_sequences, ih]
  | cons c s hnone ih =>
    have hreopened : ∀ sequence ∈ sequences, ¬ sequence <+: c :: reopen style s :=
      fun sequence hsequence hbegins =>
        hnone sequence hsequence (prefix_of_prefix_cons_reopen hsequence hbegins)
    rw [reopen_cons (hnone reset (by decide)), strip_cons hreopened, strip_cons hnone, ih]

theorem reopen_of_not_mem (h : '\x1b' ∉ s) : reopen style s = s := by
  induction s with
  | nil => rfl
  | cons c s ih =>
    rw [List.mem_cons, not_or] at h
    have hreset : ¬ reset <+: c :: s := fun hreset => h.1 (List.cons_prefix_cons.mp hreset).1
    rw [reopen_cons hreset, ih h.2]

/-! ### Pieces -/

/-- A styled piece is as wide with colour as without, if it is not filled or has no escapes. -/
theorem strip_render_styled {text : String} (h : width = 0 ∨ '\x1b' ∉ text.toList) :
    strip ((styled style width text).render true) =
      strip ((styled style width text).render false) := by
  have hreset : ∀ s, strip (s ++ reset) = strip s := by
    intro s
    rw [strip_append (apart_reset s)]
    exact List.append_nil _
  have hpadded : strip (padRight width (reopen style text.toList)) =
      strip (padRight width text.toList) := by
    rcases h with rfl | hnone
    · simp only [padRight, Nat.zero_sub, List.replicate_zero, List.append_nil, strip_reopen]
    · rw [reopen_of_not_mem hnone]
  simp only [render, if_true, Bool.false_eq_true, if_false]
  rw [List.append_assoc, strip_sequence style.opening_mem_sequences, hreset, hpadded]

/-- Blanks and line breaks keep sequences apart. -/
def spaces : List Char := [' ', '\n']

/-- A styled piece comes after a space, if anything, and is followed by one, if by anything. -/
inductive Spaced : List Piece → Prop
  | nil : Spaced []
  | plain {text : String} {pieces : List Piece} : (∃ c ∈ spaces, text.toList.getLast? = some c) →
      Spaced pieces → Spaced (.plain text :: pieces)
  | styled {style : Style} {width : Nat} {text after : String} {pieces : List Piece} :
      (width = 0 ∨ '\x1b' ∉ text.toList) → (∃ c ∈ spaces, after.toList.head? = some c) →
      Spaced (.plain after :: pieces) → Spaced (.styled style width text :: .plain after :: pieces)

theorem Spaced.append {others : List Piece} (h : Spaced pieces) (hothers : Spaced others) :
    Spaced (pieces ++ others) := by
  induction h with
  | nil => exact hothers
  | plain hlast _ ih => exact .plain hlast ih
  | styled hsteady hhead _ ih => exact .styled hsteady hhead ih

theorem spaced_flatMap {α : Type} {f : α → List Piece} {items : List α}
    (h : ∀ item ∈ items, Spaced (f item)) : Spaced (items.flatMap f) := by
  induction items with
  | nil => exact .nil
  | cons item rest ih =>
    rw [List.flatMap_cons]
    exact (h item List.mem_cons_self).append (ih fun other hother => h other (.tail _ hother))

theorem not_mem_sequence {c : Char} {sequence : List Char} (hc : c ∈ spaces)
    (hsequence : sequence ∈ sequences) : c ∉ sequence := by
  have hall : spaces.all (fun c => sequences.all (c ∉ ·)) = true := by decide
  exact of_decide_eq_true (List.all_eq_true.mp (List.all_eq_true.mp hall c hc) _ hsequence)

theorem apart_of_getLast? (h : ∃ c ∈ spaces, s.getLast? = some c) : Apart s t := by
  obtain ⟨space, hspace, hlast⟩ := h
  refine .inl fun c hc sequence hsequence => ?_
  obtain rfl := Option.some.inj (hlast.symm.trans hc)
  exact not_mem_sequence hspace hsequence

theorem apart_of_head? (h : ∃ c ∈ spaces, t.head? = some c) : Apart s t := by
  obtain ⟨space, hspace, hhead⟩ := h
  refine .inr fun c hc sequence hsequence hmem => ?_
  obtain rfl := Option.some.inj (hhead.symm.trans hc)
  exact not_mem_sequence hspace hsequence (List.mem_of_mem_tail hmem)

/-- Without the sequences, spaced pieces are the same with and without colour. -/
theorem Spaced.strip_flatMap (h : Spaced pieces) :
    strip (pieces.flatMap (render true)) = strip (pieces.flatMap (render false)) := by
  induction h with
  | nil => rfl
  | @plain text pieces hlast _ ih =>
    have hstrip : ∀ s, strip (text.toList ++ s) = strip text.toList ++ strip s :=
      fun s => strip_append (apart_of_getLast? hlast)
    simp only [List.flatMap_cons, render, hstrip, ih]
  | @styled style width text after pieces hsteady hhead _ ih =>
    have hstrip : ∀ colour,
        strip ((Piece.styled style width text :: .plain after :: pieces).flatMap (render colour)) =
          strip ((Piece.styled style width text).render colour) ++
            strip ((Piece.plain after :: pieces).flatMap (render colour)) := by
      intro colour
      obtain ⟨c, hc, hhead⟩ := hhead
      have hnext : ((Piece.plain after :: pieces).flatMap (render colour)).head? = some c := by
        rw [List.flatMap_cons, render, List.head?_append, hhead]
        rfl
      exact strip_append (apart_of_head? ⟨c, hc, hnext⟩)
    rw [hstrip, hstrip, ih, strip_render_styled hsteady]

/-- The text of a piece, without what it is filled with. -/
def text : Piece → String
  | plain text | styled _ _ text => text

theorem not_mem_padRight {c : Char} (hc : c ≠ ' ') (h : c ∉ s) : c ∉ padRight width s := by
  simp [padRight, h, hc]

theorem not_mem_padLeft {c : Char} (hc : c ≠ ' ') (h : c ∉ s) : c ∉ padLeft width s := by
  simp [padLeft, h, hc]

theorem not_mem_render (h : '\x1b' ∉ piece.text.toList) : '\x1b' ∉ piece.render false := by
  cases piece with
  | plain text => exact h
  | styled style width text => exact not_mem_padRight (by decide) h

end Piece

variable {pieces : List Piece}

theorem Piece.Spaced.strip_renderPieces (h : Piece.Spaced pieces) :
    Style.strip (renderPieces true pieces).toList =
      Style.strip (renderPieces false pieces).toList := by
  rw [renderPieces, renderPieces, String.toList_ofList, String.toList_ofList]
  exact h.strip_flatMap

theorem not_mem_renderPieces (h : ∀ piece ∈ pieces, '\x1b' ∉ piece.text.toList) :
    '\x1b' ∉ (renderPieces false pieces).toList := by
  rw [renderPieces, String.toList_ofList, List.mem_flatMap]
  rintro ⟨piece, hpiece, hmem⟩
  exact Piece.not_mem_render (h piece hpiece) hmem

/-- A sequence inside another one is deleted, and what then stands around it is kept. -/
example : Style.strip "\x1b[\x1b[0m1m".toList = "\x1b[1m".toList := by decide

end TokenInspector
