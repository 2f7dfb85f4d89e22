import SemanticVersions.Proofs.Range.Gaps
import SemanticVersions.Proofs.Range.Refusal

/-!
# Alternatives with blanks behind their operators

Blanks behind an operator count for nothing, with one gap.  An equals sign whose blanks stay
is a token of its own, and no comparator; the range is refused for it if reading comes that
far.
-/

namespace SemanticVersions

namespace Range

/-- The alternatives that a text is read as, if it is a range. -/
def outcome (text : Text) : Option (List (List Comparator)) :=
  (read text).toOption.map Range.alternatives

def Expands (token : Text) : Prop :=
  ∃ expanded, Normal.expandToken token = .ok expanded

/-- Whether a token is written out with a comparator that nothing satisfies. -/
def EndsWithin (token : Text) : Prop :=
  ∃ expanded, Normal.expandToken token = .ok expanded ∧
    ∃ part ∈ Normal.tokens expanded, EndsReading part

def readPieces (pieces : List Text) : Except Error (List Comparator) := do
  readNormal (joinWith [' '] (← pieces.mapM Normal.expandToken))

/-- Pieces are read if each is written out and the result is read. -/
theorem readPieces_eq_ok_iff {pieces : List Text} {comparators : List Comparator} :
    readPieces pieces = .ok comparators ↔
      ∃ expanded, pieces.mapM Normal.expandToken = .ok expanded ∧
        readNormal (joinWith [' '] expanded) = .ok comparators := by
  rw [readPieces]
  cases pieces.mapM Normal.expandToken with
  | error cause => simp [bind, Except.bind]
  | ok expanded => simp [bind, Except.bind]

theorem toOption_readPieces {pieces : List Text} {comparators : List Comparator} :
    (readPieces pieces).toOption = some comparators ↔ readPieces pieces = .ok comparators := by
  cases readPieces pieces <;> simp [Except.toOption]

theorem readNormal_eq_ok_iff {normal : Text} {comparators : List Comparator} :
    readNormal normal = .ok comparators ↔
      ∃ found, readTokens [] (Normal.tokens normal) = .ok found ∧ comparators = dropAny found := by
  rw [readNormal]
  cases readTokens [] (Normal.tokens normal) with
  | error cause => simp [bind, Except.bind]
  | ok found => simp [bind, Except.bind, pure, Except.pure, eq_comm]

/-! ### Where reading ends -/

/-- What stands behind a comparator that nothing satisfies does not matter. -/
theorem readTokens_append_of_endsReading {front : List Text}
    (hends : ∃ token ∈ front, EndsReading token) (known : List Comparator)
    (back others : List Text) :
    readTokens known (front ++ back) = readTokens known (front ++ others) := by
  induction front generalizing known with
  | nil => simp at hends
  | cons token front ih =>
    cases hread : Comparator.read token with
    | error cause => simp [readTokens, hread, bind, Except.bind]
    | ok c =>
      rw [List.cons_append, List.cons_append, readTokens_cons hread, readTokens_cons hread]
      by_cases hnull : c.isNullSet = true
      · rw [if_pos hnull, if_pos hnull]
      · have hrest : ∃ other ∈ front, EndsReading other := by
          obtain ⟨other, hother, c', hread', hnull'⟩ := hends
          rcases List.mem_cons.mp hother with rfl | hother
          · rw [hread] at hread'
            cases hread'
            exact absurd hnull' hnull
          · exact ⟨other, hother, c', hread', hnull'⟩
        simp only [hnull, ih hrest]

theorem not_tokensRead_of_refused {front : List Text}
    (hgoes : ∀ token ∈ front, ¬ EndsReading token) {refused : Text}
    (hrefused : ¬ Accepted refused) (back : List Text) :
    ¬ TokensRead (front ++ refused :: back) := by
  rw [tokensRead_iff]
  intro hall
  apply hrefused
  apply hall
  clear hall
  induction front with
  | nil =>
    rw [List.nil_append, readPart]
    split <;> simp
  | cons token front ih =>
    obtain ⟨htoken, hrest⟩ := List.forall_mem_cons.mp hgoes
    rw [List.cons_append, readPart, if_neg htoken]
    exact List.mem_cons_of_mem token (ih hrest)

theorem not_endsReading_nil : ¬ EndsReading [] := by decide

/-- Reading ends in the tokens of joined texts where it ends in those of one of them. -/
theorem exists_tokens_joinWith (texts : List Text) :
    ∃ front inside, (∀ others, others ≠ [] → Normal.tokens (joinWith [' '] (texts ++ others)) =
        front ++ (piecesFrom inside (joinWith [' '] others)).map Spacing.dropAtLeastZero) ∧
      ((∃ token ∈ front, EndsReading token) ↔
        ∃ text ∈ texts, ∃ part ∈ Normal.tokens text, EndsReading part) := by
  obtain ⟨front, inside, hjoin, hmem⟩ := exists_piecesFrom_joinWith false texts
  have hpiece : ∀ piece, EndsReading (Spacing.dropAtLeastZero piece) → piece ≠ [] := by
    rintro _ hends rfl
    exact not_endsReading_nil hends
  refine ⟨front.map Spacing.dropAtLeastZero, inside, fun others hothers => ?_, ?_⟩
  · rw [Normal.tokens, splitBlanks, hjoin others hothers, List.map_append]
  · simp only [Normal.tokens, List.mem_map, exists_exists_and_eq_and]
    constructor
    · rintro ⟨piece, hfront, hends⟩
      obtain ⟨text, htext, hpart⟩ := (hmem piece (hpiece piece hends)).mp hfront
      exact ⟨text, htext, piece, hpart, hends⟩
    · rintro ⟨text, htext, piece, hpart, hends⟩
      exact ⟨piece, (hmem piece (hpiece piece hends)).mpr ⟨text, htext, hpart⟩, hends⟩

/-- Written-out tokens come to a comparator that nothing satisfies exactly if a token does. -/
theorem endsWithin_iff {tokens expanded : List Text}
    (hmap : tokens.mapM Normal.expandToken = .ok expanded) :
    (∃ text ∈ expanded, ∃ part ∈ Normal.tokens text, EndsReading part) ↔
      ∃ token ∈ tokens, EndsWithin token := by
  simp only [mem_mapM_iff hmap, EndsWithin]
  grind

theorem expands_of_readPieces {pieces : List Text} {comparators : List Comparator}
    (hread : readPieces pieces = .ok comparators) : ∀ piece ∈ pieces, Expands piece := by
  obtain ⟨expanded, hmap, -⟩ := readPieces_eq_ok_iff.mp hread
  exact exists_mapM_iff.mp ⟨expanded, hmap⟩

section Ends

variable {front back others : List Text} (hends : ∃ token ∈ front, EndsWithin token)
  (hback : back ≠ []) (hothers : others ≠ [])

include hends hback hothers

/-- Behind a token that ends the reading, tokens only have to be written out. -/
theorem readPieces_of_endsWithin (hexpands : ∀ token ∈ others, Expands token)
    {comparators : List Comparator} (hread : readPieces (front ++ back) = .ok comparators) :
    readPieces (front ++ others) = .ok comparators := by
  obtain ⟨expanded, hmap, hnormal⟩ := readPieces_eq_ok_iff.mp hread
  obtain ⟨first, rest, hfirst, hrest, rfl⟩ := mapM_append_eq_ok_iff.mp hmap
  obtain ⟨later, hlater⟩ := exists_mapM_iff.mpr hexpands
  obtain ⟨pieces, inside, hjoin, hpieces⟩ := exists_tokens_joinWith first
  have hreached := hpieces.mpr ((endsWithin_iff hfirst).mpr hends)
  have hboth := mapM_append_eq_ok_iff.mpr ⟨first, later, hfirst, hlater, rfl⟩
  refine readPieces_eq_ok_iff.mpr ⟨first ++ later, hboth, ?_⟩
  rw [readNormal, hjoin later (ne_nil_of_mapM hlater hothers),
    readTokens_append_of_endsReading hreached, ← hjoin rest (ne_nil_of_mapM hrest hback),
    ← readNormal, hnormal]

theorem toOption_readPieces_of_endsWithin
    (hexpands : (∀ token ∈ back, Expands token) ↔ ∀ token ∈ others, Expands token) :
    (readPieces (front ++ back)).toOption = (readPieces (front ++ others)).toOption := by
  apply Option.ext
  intro comparators
  rw [toOption_readPieces, toOption_readPieces]
  constructor
  · intro hread
    have hall := List.forall_mem_append.mp (expands_of_readPieces hread)
    exact readPieces_of_endsWithin hends hback hothers (hexpands.mp hall.2) hread
  · intro hread
    have hall := List.forall_mem_append.mp (expands_of_readPieces hread)
    exact readPieces_of_endsWithin hends hothers hback (hexpands.mpr hall.2) hread

end Ends

theorem tokens_joinWith_equals (inside : Bool) (others : List Text) :
    ∃ back, (piecesFrom inside (joinWith [' '] (['='] :: others))).map Spacing.dropAtLeastZero =
      ['='] :: back := by
  cases others with
  | nil => exact ⟨[], by cases inside <;> decide⟩
  | cons second others =>
    have hsolid : ∀ c ∈ ['='], isBlank c = false := not_isBlank_of_all (by decide)
    refine ⟨(piecesFrom true (joinWith [' '] (second :: others))).map Spacing.dropAtLeastZero, ?_⟩
    rw [joinWith_cons_cons, List.append_assoc]
    exact congrArg (List.map Spacing.dropAtLeastZero)
      (piecesFrom_append_blank hsolid (by simp) (by decide) _)

/-- An equals sign that reading comes upon as a token fails it. -/
theorem toOption_readPieces_of_equals {front : List Text}
    (hgoes : ∀ token ∈ front, ¬ EndsWithin token) (back : List Text) :
    (readPieces (front ++ ['='] :: back)).toOption = none := by
  rw [Option.eq_none_iff_forall_ne_some]
  intro comparators hread
  rw [toOption_readPieces] at hread
  obtain ⟨expanded, hmap, hnormal⟩ := readPieces_eq_ok_iff.mp hread
  obtain ⟨first, _, hfirst, hrest, rfl⟩ := mapM_append_eq_ok_iff.mp hmap
  obtain ⟨sign, rest, hsign, -, rfl⟩ := mapM_cons_eq_ok_iff.mp hrest
  obtain rfl : ['='] = sign := by
    have hequals : Normal.expandToken ['='] = .ok ['='] := by decide +kernel
    exact Except.ok.inj (hequals.symm.trans hsign)
  obtain ⟨pieces, inside, hjoin, hpieces⟩ := exists_tokens_joinWith first
  obtain ⟨later, hlater⟩ := tokens_joinWith_equals inside rest
  have hnone : ∀ token ∈ pieces, ¬ EndsReading token := by
    intro token htoken hends
    obtain ⟨text, htext, hwithin⟩ := (endsWithin_iff hfirst).mp (hpieces.mp ⟨token, htoken, hends⟩)
    exact hgoes text htext hwithin
  obtain ⟨found, hfound, -⟩ := readNormal_eq_ok_iff.mp hnormal
  rw [hjoin _ (by simp), hlater] at hfound
  exact not_tokensRead_of_refused hnone (by decide) later ⟨found, hfound⟩

/-! ### Gaps that stay -/

open SpacedToken

/-- Whether reading tokens comes upon an equals sign with a gap that belongs to the search for
the next version.  `isOpen` tells that a lead stands in front of the tokens. -/
def ReachesOpenSign (isOpen : Bool) : List SpacedToken → Prop
  | [] => False
  | token :: tokens =>
    isOpen = true ∧ token.operator = ['='] ∧ token.gap ≠ [] ∨
      ¬ EndsWithin token.closed.text ∧ ReachesOpenSign token.leavesLead tokens

/-- All gaps close, or there is a first one that stays. -/
theorem allClosed_cases (isOpen : Bool) (tokens : List SpacedToken) :
    allClosed isOpen tokens = tokens.map closed ∧ ¬ ReachesOpenSign isOpen tokens ∨
      ∃ front right back, tokens = front ++ right :: back ∧ right.operator = ['='] ∧
        right.gap ≠ [] ∧
        allClosed isOpen tokens = front.map closed ++ allClosed true (right :: back) ∧
        (ReachesOpenSign isOpen tokens ↔ ∀ token ∈ front, ¬ EndsWithin token.closed.text) := by
  induction tokens generalizing isOpen with
  | nil => exact .inl ⟨rfl, id⟩
  | cons token tokens ih =>
    by_cases hopen : isOpen = true ∧ token.operator = ['='] ∧ token.gap ≠ []
    · obtain ⟨rfl, hequals, hgap⟩ := hopen
      exact .inr ⟨[], token, tokens, rfl, hequals, hgap, rfl,
        by simp [ReachesOpenSign, hequals, hgap]⟩
    · have hclosed : token.closedBehind isOpen = token.closed := by
        rw [closedBehind]
        split
        · next hkept =>
          by_contra hne
          exact hopen ⟨hkept.1, hkept.2, fun hgap => hne (closed_eq_self hgap).symm⟩
        · rfl
      rcases ih token.leavesLead with ⟨hall, hnone⟩ | ⟨front, right, back, rfl, hequals, hgap,
        hall, hreaches⟩
      · exact .inl ⟨by rw [allClosed, hclosed, hall, List.map_cons],
          by simp [ReachesOpenSign, hopen, hnone]⟩
      · refine .inr ⟨token :: front, right, back, rfl, hequals, hgap, ?_, ?_⟩
        · rw [allClosed, hclosed, hall, List.map_cons, List.cons_append]
        · rw [ReachesOpenSign, hreaches, List.forall_mem_cons, or_iff_right hopen]

/-- A version is written out if it is with an equals sign in front of it. -/
theorem expands_equals_iff (token : SpacedToken) :
    Expands ('=' :: token.version) ↔ Expands token.version := by
  rw [Expands, Expands, Normal.expandToken, Normal.expandToken, token.readShorthand_equals]
  cases Shorthand.read? token.version with
  | none => simp
  | some shorthand => cases hbounds : shorthand.bounds? <;> simp [hbounds]

/-- A gap that stays does not count for whether tokens can be written out. -/
theorem expands_pieces_iff (isOpen : Bool) (tokens : List SpacedToken) :
    (∀ piece ∈ (allClosed isOpen tokens).flatMap pieces, Expands piece) ↔
      ∀ token ∈ tokens, Expands token.closed.text := by
  induction tokens generalizing isOpen with
  | nil => simp [allClosed]
  | cons token tokens ih =>
    have htoken : (∀ piece ∈ (token.closedBehind isOpen).pieces, Expands piece) ↔
        Expands token.closed.text := by
      rw [closedBehind]
      split
      · next hkept =>
        by_cases hgap : token.gap = []
        · rw [closed_eq_self hgap, pieces, if_pos hgap, List.forall_mem_singleton]
        · have hsign : Expands ['='] := ⟨['='], by decide +kernel⟩
          rw [pieces, if_neg hgap, text_closed, hkept.2]
          simp [hsign, expands_equals_iff]
      · rw [pieces_closed, List.forall_mem_singleton, text_closed]
    rw [allClosed, List.flatMap_cons, List.forall_mem_append, htoken, ih, List.forall_mem_cons]

/-! ### Reading -/

/-- An alternative of tokens is read as the pieces that are left when gaps are closed. -/
theorem readAlternative_textOfList {tokens : List SpacedToken} (hne : tokens ≠ []) :
    readAlternative (textOfList tokens) = readPieces ((allClosed false tokens).flatMap pieces) := by
  have hclosed : allClosed false tokens ≠ [] := by
    obtain ⟨first, others, rfl⟩ := List.exists_cons_of_ne_nil hne
    exact List.cons_ne_nil _ _
  have hexpand : Normal.expandHyphen (textOfList tokens) = .ok (textOfList tokens) := by
    rw [Normal.expandHyphen, readHyphen_textOfList hne]
  rw [readAlternative, Normal.ofAlternative, hexpand, readPieces, ← splitBlanks_textOfList hclosed,
    ← close_textOfList]
  change ((splitBlanks (Spacing.close (textOfList tokens))).mapM Normal.expandToken >>= _) >>= _ = _
  rw [bind_assoc]
  rfl

theorem outcome_textOfList {tokens : List SpacedToken} (hne : tokens ≠ []) :
    outcome (textOfList tokens) =
      (readPieces ((allClosed false tokens).flatMap pieces)).toOption.map ([·]) := by
  have htexts : alternativeTexts (textOfList tokens) = [textOfList tokens] := by
    rw [alternativeTexts_eq_singleton (bar_not_mem_textOfList tokens), trim_textOfList]
  rw [outcome, read_eq_of_singleton htexts, readAlternative_textOfList hne]
  cases readPieces ((allClosed false tokens).flatMap pieces) <;> rfl

/-- Blanks behind operators do not count for what an alternative is read as, unless reading
comes upon an equals sign with a gap directly behind a version that leaves a lead open.  An
alternative with such a sign is refused. -/
theorem gaps_count_only_if_sign_reached (tokens : List SpacedToken) :
    (¬ ReachesOpenSign false tokens →
        outcome (textOfList tokens) = outcome (textOfList (tokens.map closed))) ∧
      (ReachesOpenSign false tokens → outcome (textOfList tokens) = none) := by
  by_cases hne : tokens = []
  · subst hne
    exact ⟨fun _ => rfl, fun hreaches => hreaches.elim⟩
  have hclosed : outcome (textOfList (tokens.map closed)) =
      (readPieces (tokens.map fun token => token.closed.text)).toOption.map ([·]) := by
    rw [outcome_textOfList (by simpa using hne), allClosed_map_closed, flatMap_pieces_closed]
  rw [outcome_textOfList hne, hclosed]
  rcases allClosed_cases false tokens with ⟨hall, hnone⟩ |
    ⟨front, right, back, rfl, hequals, hgap, hall, hreaches⟩
  · rw [hall, flatMap_pieces_closed]
    exact ⟨fun _ => rfl, fun hreaches => absurd hreaches hnone⟩
  · have hstays : (allClosed true (right :: back)).flatMap pieces =
        ['='] :: right.version :: (allClosed right.leavesLead back).flatMap pieces := by
      rw [allClosed, closedBehind, if_pos ⟨rfl, hequals⟩, List.flatMap_cons, pieces, if_neg hgap,
        hequals]
      rfl
    have hexpands := expands_pieces_iff true (right :: back)
    rw [hall, List.flatMap_append, flatMap_pieces_closed, hreaches, List.map_append]
    constructor
    · intro hends
      have hwithin : ∃ piece ∈ front.map fun token => token.closed.text, EndsWithin piece := by
        simpa using hends
      have hback : (allClosed true (right :: back)).flatMap pieces ≠ [] := by simp [hstays]
      have hothers : (right :: back).map (fun token => token.closed.text) ≠ [] := by simp
      rw [toOption_readPieces_of_endsWithin hwithin hback hothers]
      rw [hexpands, List.forall_mem_map]
    · intro hgoes
      rw [hstays, toOption_readPieces_of_equals (List.forall_mem_map.mpr hgoes)]
      rfl

theorem openVersion_reads : ∃ value, Partial.read? "1.2.3-0v".toList = some value :=
  ⟨.full 1 2 3 ["0v".toList], by decide⟩

theorem openVersion_solid : ∀ c ∈ "1.2.3-0v".toList, isBlank c = false :=
  not_isBlank_of_all (by decide)

/-- The token `1.2.3-0v`, which leaves its last character open. -/
def openSample : SpacedToken :=
  .bare "1.2.3-0v".toList openVersion_reads openVersion_solid

/-- Behind an open version blanks do not count if the operator is no equals sign. -/
theorem gaps_count_only_if_sign_reached_sample :
    ∃ tokens : List SpacedToken,
      textOfList tokens = "1.2.3-0v < 2 > 1".toList ∧ ¬ ReachesOpenSign false tokens ∧
        outcome "1.2.3-0v < 2 > 1".toList = outcome "1.2.3-0v <2 >1".toList := by
  have hblank : ∀ c ∈ [' '], isBlank c = true := isBlank_of_all (by decide)
  let second : SpacedToken :=
    .behindBlank ['<'] [' '] ['2'] (by decide) hblank (by decide) ⟨.major 2, by decide⟩
      (not_isBlank_of_all (by decide))
  let third : SpacedToken :=
    .behindBlank ['>'] [' '] ['1'] (by decide) hblank (by decide) ⟨.major 1, by decide⟩
      (not_isBlank_of_all (by decide))
  have hgoes : ¬ ReachesOpenSign false [openSample, second, third] := by
    simp [ReachesOpenSign, openSample, second, third, bare, behindBlank]
  exact ⟨[openSample, second, third], rfl, hgoes,
    (gaps_count_only_if_sign_reached [openSample, second, third]).1 hgoes⟩

/-- Behind `1.2.3-0v` the blanks of an equals sign count: with them the range is refused, and
without them it is read. -/
theorem gap_behind_open_lead_refused :
    ∃ tokens : List SpacedToken,
      textOfList tokens = "1.2.3-0v = 1.2.3".toList ∧
        textOfList (tokens.map closed) = "1.2.3-0v =1.2.3".toList ∧
          read "1.2.3-0v = 1.2.3".toList = .error (.invalidComparator ['=']) ∧
            outcome "1.2.3-0v =1.2.3".toList =
              some [[.bound .equal ⟨1, 2, 3, [.textual "0v".toList], []⟩,
                .bound .equal ⟨1, 2, 3, [], []⟩]] ∧
              outcome (textOfList tokens) ≠ outcome (textOfList (tokens.map closed)) := by
  let second : SpacedToken :=
    .behindBlank ['='] [' '] "1.2.3".toList (by decide) (isBlank_of_all (by decide)) (by decide)
      ⟨.full 1 2 3 [], by decide⟩ (not_isBlank_of_all (by decide))
  have hrefused : read "1.2.3-0v = 1.2.3".toList = .error (.invalidComparator ['=']) := by
    decide +kernel
  have hread : outcome "1.2.3-0v =1.2.3".toList =
      some [[.bound .equal ⟨1, 2, 3, [.textual "0v".toList], []⟩,
        .bound .equal ⟨1, 2, 3, [], []⟩]] := by decide +kernel
  refine ⟨[openSample, second], rfl, rfl, hrefused, hread, ?_⟩
  change outcome "1.2.3-0v = 1.2.3".toList ≠ outcome "1.2.3-0v =1.2.3".toList
  rw [hread, outcome, hrefused]
  simp [Except.toOption]

end Range

end SemanticVersions
