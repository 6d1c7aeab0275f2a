import TokenInspector.Scan.Results

/-!
# Recording a scan

A scan reports tokens and errors in any order, as a list of `ScanEvent`s. Whatever the order, the
results hold the tokens up to the first that ends the file and all errors (`recordAll_eq`), so they
are the results of the tokens alone followed by the errors.
-/

namespace TokenInspector

/-- What a scanner reports. -/
inductive ScanEvent where
  | token (token : ScannedToken)
  | error (error : ScanError)
  deriving DecidableEq, Repr

def ScanEvent.token? : ScanEvent → Option ScannedToken
  | .token t => some t
  | .error _ => none

def ScanEvent.error? : ScanEvent → Option ScanError
  | .token _ => none
  | .error e => some e

/-- The tokens among some events. -/
def tokensOf (events : List ScanEvent) : List ScannedToken := events.filterMap ScanEvent.token?

/-- The errors among some events. -/
def errorsOf (events : List ScanEvent) : List ScanError := events.filterMap ScanEvent.error?

/-- The tokens up to the first that ends the file. -/
def upToEnd (tokens : List ScannedToken) : List ScannedToken :=
  tokens.take (tokens.findIdx (·.kind = endOfFileKind) + 1)

theorem upToEnd_cons (token : ScannedToken) (rest : List ScannedToken) :
    upToEnd (token :: rest) =
      token :: if token.kind = endOfFileKind then [] else upToEnd rest := by
  by_cases h : token.kind = endOfFileKind <;> simp [upToEnd, List.findIdx_cons, h]

/-- Only the last of the tokens up to the end can end the file. -/
theorem length_of_upToEnd_kind {tokens : List ScannedToken} {i : Nat} {token : ScannedToken}
    (h : (upToEnd tokens)[i]? = some token) (hkind : token.kind = endOfFileKind) :
    i + 1 = (upToEnd tokens).length := by
  induction tokens generalizing i with
  | nil => simp [upToEnd] at h
  | cons first rest ih =>
    rw [upToEnd_cons] at h ⊢
    cases i with
    | zero =>
      simp only [List.getElem?_cons_zero, Option.some.injEq] at h
      simp [h, hkind]
    | succ i =>
      rw [List.getElem?_cons_succ] at h
      split at h
      · simp at h
      · rename_i hfirst
        rw [if_neg hfirst, List.length_cons, ih h]

namespace ScanResults

/-- Records an event. -/
def record (results : ScanResults) : ScanEvent → ScanResults
  | .token token => results.push token
  | .error error => results.pushError error

/-- Records events in order. -/
def recordAll (results : ScanResults) (events : List ScanEvent) : ScanResults :=
  events.foldl record results

variable {results : ScanResults} {kinds : EnumDefinition} {token : ScannedToken}

/-! ### One event -/

theorem isComplete_concat (tokens : Array NamedToken) (named : NamedToken)
    (errors : Array ScanError) :
    isComplete ⟨tokens.push named, errors⟩ = decide (named.kind = endOfFileKind) := by
  simp [isComplete]

theorem offerWith_of_complete (h : results.isComplete = true) :
    results.offerWith kinds token = (results, false) := by
  simp [offerWith, h]

theorem offerWith_of_incomplete (h : results.isComplete = false) :
    results.offerWith kinds token =
      (⟨results.tokens.push (nameToken kinds token), results.errors⟩,
        !decide (token.kind = endOfFileKind)) := by
  simp [offerWith, h, isComplete_concat, nameToken]

theorem isComplete_push (results : ScanResults) (token : ScannedToken) :
    (results.push token).isComplete =
      (results.isComplete || decide (token.kind = endOfFileKind)) := by
  unfold push offer
  cases h : results.isComplete with
  | true => simp [offerWith_of_complete h, h]
  | false => simp [offerWith_of_incomplete h, isComplete_concat, nameToken]

theorem push_of_complete (h : results.isComplete = true) : results.push token = results := by
  rw [push, offer, offerWith_of_complete h]

theorem isComplete_pushError (results : ScanResults) (error : ScanError) :
    (results.pushError error).isComplete = results.isComplete := rfl

/-- A token and an error may be recorded in either order. -/
theorem push_pushError (results : ScanResults) (token : ScannedToken) (error : ScanError) :
    (results.pushError error).push token = (results.push token).pushError error := by
  have herror := isComplete_pushError results error
  unfold push offer
  cases h : results.isComplete with
  | true => rw [offerWith_of_complete h, offerWith_of_complete (herror.trans h)]
  | false =>
    rw [offerWith_of_incomplete h, offerWith_of_incomplete (herror.trans h)]
    rfl

/-! ### Runs -/

theorem foldl_pushError (results : ScanResults) (errors : List ScanError) :
    errors.foldl pushError results = ⟨results.tokens, results.errors ++ errors.toArray⟩ := by
  induction errors generalizing results with
  | nil => simp
  | cons error rest ih => simp [ih, pushError]

theorem foldl_push_pushError (results : ScanResults) (error : ScanError)
    (tokens : List ScannedToken) :
    tokens.foldl push (results.pushError error) = (tokens.foldl push results).pushError error := by
  induction tokens generalizing results with
  | nil => rfl
  | cons token rest ih => rw [List.foldl_cons, List.foldl_cons, push_pushError, ih]

/-- Errors may be recorded after all tokens. -/
theorem recordAll_eq (results : ScanResults) (events : List ScanEvent) :
    results.recordAll events =
      (errorsOf events).foldl pushError ((tokensOf events).foldl push results) := by
  induction events generalizing results with
  | nil => rfl
  | cons event rest ih =>
    cases event with
    | token token => exact ih _
    | error error =>
      have ih := ih (results.pushError error)
      rw [foldl_push_pushError] at ih
      exact ih

/-- Offering tokens records those up to the end. -/
theorem offerAll_eq (h : results.isComplete = false) (tokens : List ScannedToken) :
    results.offerAll kinds tokens =
      ⟨results.tokens ++ ((upToEnd tokens).map (nameToken kinds)).toArray, results.errors⟩ := by
  induction tokens generalizing results with
  | nil => simp [offerAll, upToEnd]
  | cons token rest ih =>
    rw [offerAll, offerWith_of_incomplete h, upToEnd_cons]
    by_cases hkind : token.kind = endOfFileKind
    · simp [hkind]
    · simp only [hkind, decide_false, Bool.not_false, if_true, if_false]
      rw [ih (by simp [isComplete_concat, nameToken, hkind])]
      simp

theorem foldl_push (results : ScanResults) (tokens : List ScannedToken) :
    tokens.foldl push results =
      if results.isComplete then results else results.offerAll tokenKinds tokens := by
  induction tokens generalizing results with
  | nil => simp [offerAll]
  | cons token rest ih =>
    rw [List.foldl_cons, ih]
    cases h : results.isComplete with
    | true => simp [push_of_complete h, h]
    | false =>
      rw [isComplete_push, h, offerAll, push, offer, offerWith_of_incomplete h]
      by_cases hkind : token.kind = endOfFileKind <;> simp [hkind]

theorem isComplete_recordAll (results : ScanResults) (events : List ScanEvent) :
    (results.recordAll events).isComplete = true ↔
      results.isComplete = true ∨ ∃ token ∈ tokensOf events, token.kind = endOfFileKind := by
  induction events generalizing results with
  | nil => simp [recordAll, tokensOf]
  | cons event rest ih =>
    rw [show results.recordAll (event :: rest) = (results.record event).recordAll rest from rfl, ih]
    cases event with
    | token token => simp [record, isComplete_push, tokensOf, ScanEvent.token?, or_assoc]
    | error error => simp [record, isComplete_pushError, tokensOf, ScanEvent.token?]

theorem isComplete_recordAll_empty {events : List ScanEvent} :
    (empty.recordAll events).isComplete = true ↔
      ∃ token ∈ tokensOf events, token.kind = endOfFileKind := by
  rw [isComplete_recordAll, or_iff_right]
  decide

theorem recordAll_empty (events : List ScanEvent) :
    empty.recordAll events = (errorsOf events).foldl pushError (ofTokens (tokensOf events)) := by
  rw [recordAll_eq, foldl_push]
  rfl

theorem ofTokensWith_eq (kinds : EnumDefinition) (tokens : List ScannedToken) :
    ofTokensWith kinds tokens = ⟨((upToEnd tokens).map (nameToken kinds)).toArray, #[]⟩ := by
  rw [ofTokensWith, offerAll_eq rfl]
  simp [empty]

/-! ### Reachable results -/

/-- What results hold after some events: the tokens up to the first that ends the file, named by the
built-in kinds, and all errors. -/
structure Holds (results : ScanResults) (events : List ScanEvent) : Prop where
  tokens : results.tokens.toList = (upToEnd (tokensOf events)).map fun token =>
    ⟨token.kind, tokenKinds.display (Int64.ofNat token.kind.toNat) false, token.stop⟩
  errors : results.errors.toList = errorsOf events
  endIsLast : ∀ (i : Nat) (token : NamedToken), results.tokens[i]? = some token →
    token.kind = endOfFileKind → i + 1 = results.tokens.size
  batch : results = (errorsOf events).foldl pushError (ofTokens (tokensOf events))

theorem holds_recordAll (events : List ScanEvent) : (empty.recordAll events).Holds events := by
  have heq : empty.recordAll events =
      ⟨((upToEnd (tokensOf events)).map (nameToken tokenKinds)).toArray,
        (errorsOf events).toArray⟩ := by
    rw [recordAll_empty, foldl_pushError, ofTokens, ofTokensWith_eq]
    simp
  refine ⟨by rw [heq]; rfl, by rw [heq], ?_, recordAll_empty events⟩
  intro i token htoken hkind
  rw [heq] at htoken ⊢
  simp only [List.getElem?_toArray, List.getElem?_map, Option.map_eq_some_iff] at htoken
  obtain ⟨scanned, hscanned, rfl⟩ := htoken
  simpa using length_of_upToEnd_kind hscanned hkind

/-- A token is answered with true iff neither it nor a token before ends the file. -/
theorem offer_recordAll (events : List ScanEvent) (token : ScannedToken) :
    ((empty.recordAll events).offer token).2 = true ↔
      ∀ t ∈ tokensOf events ++ [token], t.kind ≠ endOfFileKind := by
  unfold offer
  cases h : (empty.recordAll events).isComplete with
  | true =>
    obtain ⟨t, ht, hkind⟩ := isComplete_recordAll_empty.mp h
    rw [offerWith_of_complete h]
    simp only [Bool.false_eq_true, false_iff]
    exact fun hall => hall t (List.mem_append_left _ ht) hkind
  | false =>
    have hnone : ∀ t ∈ tokensOf events, t.kind ≠ endOfFileKind := by
      intro t ht hkind
      exact absurd (isComplete_recordAll_empty.mpr ⟨t, ht, hkind⟩) (by simp [h])
    rw [offerWith_of_incomplete h]
    simp only [Bool.not_eq_true', decide_eq_false_iff_not, List.mem_append, List.mem_singleton]
    constructor
    · rintro hkind t (ht | rfl)
      · exact hnone t ht
      · exact hkind
    · exact fun hall => hall token (.inr rfl)

/-- Whatever the order of tokens and errors, the results are those of the tokens up to the end and
of all errors, and a list of tokens at once gives the same under any definition of the kinds. -/
theorem recordAll_holds :
    (∀ events, (empty.recordAll events).Holds events) ∧
    (∀ events token, ((empty.recordAll events).offer token).2 = true ↔
      ∀ t ∈ tokensOf events ++ [token], t.kind ≠ endOfFileKind) ∧
    (∀ events token, (∃ t ∈ tokensOf events, t.kind = endOfFileKind) →
      (empty.recordAll events).push token = empty.recordAll events) ∧
    (∀ events events', tokensOf events = tokensOf events' → errorsOf events = errorsOf events' →
      empty.recordAll events = empty.recordAll events') ∧
    (∀ kinds tokens, (ofTokensWith kinds tokens).tokens.toList =
        (upToEnd tokens).map (fun token =>
          ⟨token.kind, kinds.display (Int64.ofNat token.kind.toNat) false, token.stop⟩) ∧
      (ofTokensWith kinds tokens).errors = #[]) := by
  refine ⟨holds_recordAll, offer_recordAll, ?_, ?_, ?_⟩
  · intro events token h
    exact push_of_complete (isComplete_recordAll_empty.mpr h)
  · intro events events' htokens herrors
    rw [recordAll_empty, recordAll_empty, htokens, herrors]
  · intro kinds tokens
    rw [ofTokensWith_eq]
    exact ⟨rfl, rfl⟩

theorem recordAll_holds_late :
    (∃ t ∈ tokensOf [.token ⟨80, 3⟩, .error ⟨"open", 1⟩, .token ⟨1, 5⟩], t.kind = endOfFileKind) ∧
    (empty.recordAll [.token ⟨80, 3⟩, .error ⟨"open", 1⟩, .token ⟨1, 5⟩]).push ⟨80, 9⟩ =
      empty.recordAll [.token ⟨80, 3⟩, .error ⟨"open", 1⟩, .token ⟨1, 5⟩] ∧
    empty.recordAll [.token ⟨80, 3⟩, .error ⟨"open", 1⟩, .token ⟨1, 5⟩] =
      empty.recordAll [.token ⟨80, 3⟩, .token ⟨1, 5⟩, .error ⟨"open", 1⟩] := by
  have hend : ∃ t ∈ tokensOf [.token ⟨80, 3⟩, .error ⟨"open", 1⟩, .token ⟨1, 5⟩],
      t.kind = endOfFileKind := ⟨⟨1, 5⟩, by decide, rfl⟩
  obtain ⟨-, -, hlate, horder, -⟩ := recordAll_holds
  exact ⟨hend, hlate _ _ hend, horder _ _ rfl rfl⟩

end ScanResults

end TokenInspector
