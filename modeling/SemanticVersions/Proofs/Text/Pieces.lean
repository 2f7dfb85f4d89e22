import Mathlib.Data.List.TakeWhile
import SemanticVersions.Text.Pieces

/-!
# Cutting and joining texts

Cutting undoes joining: pieces without the separator come back from the joined
text.  A cut at a mark, at blanks or at bars also loses nothing but the
separators, and trimming is blind to blanks that are added at an end.
-/

namespace SemanticVersions

/-! ### Trimming -/

theorem trimStart_eq_self {text : Text} (hhead : ∀ c ∈ text.head?, isBlank c = false) :
    trimStart text = text := by
  rw [trimStart, List.dropWhile_eq_self_iff]
  intro hlength
  have hfirst : text[0] ∈ text.head? := by simp [List.head?_eq_getElem?]
  simp [hhead text[0] hfirst]

/-- Only the blanks at the head are dropped. -/
theorem takeWhile_append_trimStart (text : Text) :
    text.takeWhile isBlank ++ trimStart text = text :=
  List.takeWhile_append_dropWhile

theorem trimEnd_eq_self {text : Text} (hlast : ∀ c ∈ text.getLast?, isBlank c = false) :
    trimEnd text = text := by
  have hreverse : ∀ c ∈ text.reverse.head?, isBlank c = false := by
    rw [List.head?_reverse]
    exact hlast
  rw [trimEnd, trimStart_eq_self hreverse, List.reverse_reverse]

/-- A closed text is checked along its characters.  To decide the quantifier itself would be to
run through all characters that there are. -/
theorem isBlank_of_all {text : Text} (hall : text.all isBlank = true) :
    ∀ c ∈ text, isBlank c = true := List.all_eq_true.mp hall

theorem not_isBlank_of_all {text : Text} (hall : text.all (!isBlank ·) = true) :
    ∀ c ∈ text, isBlank c = false := by
  simpa using hall

/-- A text with no blank at an end is its own trimmed form. -/
theorem trim_eq_self {text : Text} (hhead : ∀ c ∈ text.head?, isBlank c = false)
    (hlast : ∀ c ∈ text.getLast?, isBlank c = false) : trim text = text := by
  rw [trim, trimStart_eq_self hhead, trimEnd_eq_self hlast]

theorem trim_eq_self_of_no_blank {text : Text} (htext : ∀ c ∈ text, isBlank c = false) :
    trim text = text :=
  trim_eq_self (fun c hc => htext c (List.mem_of_mem_head? hc))
    (fun c hc => htext c (List.mem_of_getLast? hc))

theorem trim_cons_of_blank {c : Char} (hblank : isBlank c = true) (text : Text) :
    trim (c :: text) = trim text := by
  rw [trim, trim, trimStart_cons_of_blank hblank]

theorem trimEnd_append_of_blank {c : Char} (hblank : isBlank c = true) (text : Text) :
    trimEnd (text ++ [c]) = trimEnd text := by
  rw [trimEnd, trimEnd, List.reverse_append, List.reverse_singleton, List.singleton_append,
    trimStart_cons_of_blank hblank]

theorem trim_append_of_blank {c : Char} (hblank : isBlank c = true) (text : Text) :
    trim (text ++ [c]) = trim text := by
  have hstart : trimStart (text ++ [c]) = trimStart text ∨
      trimStart (text ++ [c]) = trimStart text ++ [c] := by
    simp only [trimStart, List.dropWhile_append]
    split
    · next hempty =>
      left
      rw [List.isEmpty_iff.mp hempty]
      simp [hblank]
    · exact .inr rfl
  rcases hstart with hstart | hstart
  · rw [trim, trim, hstart]
  · rw [trim, trim, hstart, trimEnd_append_of_blank hblank]

/-- A text that has no blank at an end, and is not empty. -/
structure IsTrimmed (text : Text) : Prop where
  nonempty : text ≠ []
  head : ∀ c ∈ text.head?, isBlank c = false
  last : ∀ c ∈ text.getLast?, isBlank c = false

theorem IsTrimmed.trim_eq {text : Text} (htext : IsTrimmed text) : trim text = text :=
  trim_eq_self htext.head htext.last

theorem trimStart_append_of_blank {blanks : Text} (hblanks : ∀ c ∈ blanks, isBlank c = true)
    (text : Text) : trimStart (blanks ++ text) = trimStart text :=
  List.dropWhile_append_of_pos hblanks

theorem trim_append {front text back : Text} (hfront : ∀ c ∈ front, isBlank c = true)
    (htext : IsTrimmed text) (hback : ∀ c ∈ back, isBlank c = true) :
    trim (front ++ (text ++ back)) = text := by
  have hstart : trimStart (front ++ (text ++ back)) = text ++ back := by
    rw [trimStart_append_of_blank hfront]
    obtain ⟨first, rest, rfl⟩ := List.exists_cons_of_ne_nil htext.nonempty
    exact trimStart_eq_self htext.head
  have hreversed : ∀ c ∈ back.reverse, isBlank c = true := by simpa using hback
  rw [trim, hstart, trimEnd, List.reverse_append, trimStart_append_of_blank hreversed]
  exact trimEnd_eq_self htext.last

/-- Whether a text is a token: it is not empty and has no blank. -/
def IsToken (text : Text) : Prop :=
  text ≠ [] ∧ ∀ c ∈ text, isBlank c = false

theorem IsToken.isTrimmed {text : Text} (htext : IsToken text) : IsTrimmed text where
  nonempty := htext.1
  head c hc := htext.2 c (List.mem_of_mem_head? hc)
  last c hc := htext.2 c (List.mem_of_getLast? hc)

theorem trimEnd_isPrefix (text : Text) : trimEnd text <+: text := by
  rw [← List.reverse_suffix, trimEnd, List.reverse_reverse]
  exact trimStart_suffix text.reverse

theorem trim_isInfix (text : Text) : trim text <:+: text :=
  (trimEnd_isPrefix (trimStart text)).isInfix.trans (trimStart_suffix text).isInfix

/-! ### Cuts at a mark -/

/-- What a cut at a mark leaves behind the first part, with its mark. -/
def markedPart (mark : Char) : Option Text → Text
  | none => []
  | some part => mark :: part

theorem cutAt_assemble (mark : Char) (text : Text) :
    (cutAt mark text).1 ++ markedPart mark (cutAt mark text).2 = text := by
  induction text with
  | nil => rfl
  | cons c rest ih =>
    by_cases hc : c = mark
    · simp [cutAt, hc, markedPart]
    · simpa [cutAt, hc] using ih

/-- A text is cut at the first mark in it. -/
theorem cutAt_markedPart {mark : Char} {front : Text} (hfront : mark ∉ front)
    (part : Option Text) : cutAt mark (front ++ markedPart mark part) = (front, part) := by
  cases part with
  | none => simpa [markedPart] using cutAt_eq_none hfront
  | some part => exact cutAt_append hfront part

/-! ### Joined pieces -/

@[simp]
theorem joinWith_singleton (separator piece : Text) : joinWith separator [piece] = piece :=
  List.intercalate_singleton

@[simp]
theorem joinWith_cons_cons (separator first second : Text) (pieces : List Text) :
    joinWith separator (first :: second :: pieces) =
      first ++ separator ++ joinWith separator (second :: pieces) := by
  rw [joinWith, List.intercalate_cons_cons]
  rfl

theorem joinWith_cons_char (separator rest : Text) (c : Char) (pieces : List Text) :
    joinWith separator ((c :: rest) :: pieces) = c :: joinWith separator (rest :: pieces) := by
  cases pieces <;> simp

/-- Each piece behind the first has the mark in front of it. -/
theorem joinWith_cons_eq_append (mark : Char) (first : Text) (pieces : List Text) :
    joinWith [mark] (first :: pieces) = first ++ pieces.flatMap (mark :: ·) := by
  induction pieces generalizing first with
  | nil => simp
  | cons second pieces ih =>
    rw [joinWith_cons_cons, ih, List.flatMap_cons]
    simp

theorem mem_joinWith {c : Char} {separator : Text} {pieces : List Text}
    (hmem : c ∈ joinWith separator pieces) : c ∈ separator ∨ ∃ piece ∈ pieces, c ∈ piece := by
  induction pieces with
  | nil => simp [joinWith, List.intercalate_nil] at hmem
  | cons first pieces ih =>
    cases pieces with
    | nil => exact .inr ⟨first, by simp, by simpa using hmem⟩
    | cons second pieces =>
      rw [joinWith_cons_cons, List.append_assoc, List.mem_append, List.mem_append] at hmem
      rcases hmem with hfirst | hseparator | hrest
      · exact .inr ⟨first, by simp, hfirst⟩
      · exact .inl hseparator
      · rcases ih hrest with hseparator | ⟨piece, hpiece, hc⟩
        · exact .inl hseparator
        · exact .inr ⟨piece, by simp [hpiece], hc⟩

section Ends

variable {separator : Text} {pieces : List Text} (hpieces : ∀ piece ∈ pieces, piece ≠ [])
  {c : Char}

include hpieces

theorem head?_joinWith (hhead : c ∈ (joinWith separator pieces).head?) :
    ∃ piece ∈ pieces, c ∈ piece.head? := by
  cases pieces with
  | nil => cases hhead
  | cons first pieces =>
    refine ⟨first, by simp, ?_⟩
    obtain ⟨d, rest, hfirst⟩ := List.exists_cons_of_ne_nil (hpieces first (by simp))
    cases pieces with
    | nil => simpa using hhead
    | cons second pieces => simpa [hfirst] using hhead

theorem joinWith_ne_nil (hne : pieces ≠ []) : joinWith separator pieces ≠ [] := by
  cases pieces with
  | nil => exact absurd rfl hne
  | cons first pieces =>
    have hfirst := hpieces first (by simp)
    cases pieces with
    | nil => rwa [joinWith_singleton]
    | cons second pieces => simp [hfirst]

theorem getLast?_joinWith (hlast : c ∈ (joinWith separator pieces).getLast?) :
    ∃ piece ∈ pieces, c ∈ piece.getLast? := by
  induction pieces with
  | nil => cases hlast
  | cons first pieces ih =>
    cases pieces with
    | nil => exact ⟨first, by simp, by simpa using hlast⟩
    | cons second pieces =>
      have hrest : ∀ piece ∈ second :: pieces, piece ≠ [] := fun piece hpiece =>
        hpieces piece (by simp [hpiece])
      have hne : joinWith separator (second :: pieces) ≠ [] := joinWith_ne_nil hrest (by simp)
      rw [joinWith_cons_cons, List.getLast?_append, List.getLast?_eq_some_getLast hne,
        Option.some_or, ← List.getLast?_eq_some_getLast hne] at hlast
      obtain ⟨piece, hpiece, hmem⟩ := ih hrest hlast
      exact ⟨piece, by simp [hpiece], hmem⟩

end Ends

theorem isTrimmed_joinWith {separator : Text} {pieces : List Text} (hne : pieces ≠ [])
    (hpieces : ∀ piece ∈ pieces, IsTrimmed piece) : IsTrimmed (joinWith separator pieces) := by
  have hsome : ∀ piece ∈ pieces, piece ≠ [] := fun piece hpiece => (hpieces piece hpiece).nonempty
  refine ⟨joinWith_ne_nil hsome hne, ?_, ?_⟩
  · intro c hc
    obtain ⟨piece, hpiece, hhead⟩ := head?_joinWith hsome hc
    exact (hpieces piece hpiece).head c hhead
  · intro c hc
    obtain ⟨piece, hpiece, hlast⟩ := getLast?_joinWith hsome hc
    exact (hpieces piece hpiece).last c hlast

/-! ### Cuts at blanks -/

/-- The first piece reaches up to the first blank.  Inside a run of blanks this
needs a piece that is not empty, since the run goes on up to it. -/
theorem piecesFrom_append_blank {piece : Text} (hpiece : ∀ c ∈ piece, isBlank c = false)
    {inRun : Bool} (hstart : inRun = true → piece ≠ []) {c : Char} (hblank : isBlank c = true)
    (rest : Text) : piecesFrom inRun (piece ++ c :: rest) = piece :: piecesFrom true rest := by
  induction piece generalizing inRun with
  | nil =>
    have hrun : inRun = false := by
      cases inRun with
      | false => rfl
      | true => exact absurd rfl (hstart rfl)
    simp [piecesFrom, hblank, hrun]
  | cons d piece ih =>
    have hd := hpiece d (by simp)
    have hnext : piecesFrom false (piece ++ c :: rest) = piece :: piecesFrom true rest :=
      ih (fun e he => hpiece e (by simp [he])) (by simp)
    simp only [List.cons_append, piecesFrom, hd, hnext]
    rfl

/-- Tokens with blanks between them are found again. -/
theorem piecesFrom_joinWith {tokens : List Text} (hne : tokens ≠ [])
    (htokens : ∀ token ∈ tokens, IsToken token) (inRun : Bool) :
    piecesFrom inRun (joinWith [' '] tokens) = tokens := by
  induction tokens generalizing inRun with
  | nil => exact absurd rfl hne
  | cons first tokens ih =>
    obtain ⟨hfirst, hblanks⟩ := htokens first (by simp)
    cases tokens with
    | nil => rw [joinWith_singleton, piecesFrom_eq_singleton hblanks]
    | cons second tokens =>
      have hrest := ih (by simp) (fun token htoken => htokens token (by simp [htoken])) true
      rw [joinWith_cons_cons, List.append_assoc]
      simp only [List.singleton_append]
      rw [piecesFrom_append_blank hblanks (fun _ => hfirst) (by decide), hrest]

/-- Tokens with single blanks between them come back from a cut at blanks. -/
theorem splitBlanks_joinWith {tokens : List Text} (hne : tokens ≠ [])
    (htokens : ∀ token ∈ tokens, IsToken token) :
    splitBlanks (joinWith [' '] tokens) = tokens :=
  piecesFrom_joinWith hne htokens false

/-- In front of a blank the cut goes as if the text ended there, and behind it blanks are
skipped. -/
theorem piecesFrom_append (inRun : Bool) (text : Text) :
    ∃ front, (inRun = false → front ≠ []) ∧
      (piecesFrom inRun text = front ∨ piecesFrom inRun text = front ++ [[]]) ∧
        ∀ c, isBlank c = true → ∀ more,
          piecesFrom inRun (text ++ c :: more) = front ++ piecesFrom true more := by
  induction text generalizing inRun with
  | nil =>
    cases inRun with
    | false => exact ⟨[[]], by simp, .inl rfl, fun c hc more => by simp [piecesFrom, hc]⟩
    | true => exact ⟨[], by simp, .inr rfl, fun c hc more => by simp [piecesFrom, hc]⟩
  | cons d text ih =>
    by_cases hd : isBlank d = true
    · obtain ⟨front, -, hpieces, happend⟩ := ih true
      cases inRun with
      | true =>
        refine ⟨front, by simp, by simpa [piecesFrom, hd] using hpieces, fun c hc more => ?_⟩
        simpa [piecesFrom, hd] using happend c hc more
      | false =>
        refine ⟨[] :: front, by simp, by simpa [piecesFrom, hd] using hpieces, fun c hc more => ?_⟩
        simpa [piecesFrom, hd] using happend c hc more
    · obtain ⟨front, hne, hpieces, happend⟩ := ih false
      obtain ⟨first, others, rfl⟩ := List.exists_cons_of_ne_nil (hne rfl)
      refine ⟨(d :: first) :: others, by simp, ?_, fun c hc more => ?_⟩
      · rcases hpieces with hpieces | hpieces
        · exact .inl (by simp [piecesFrom, hd, hpieces, extendFirst])
        · exact .inr (by simp [piecesFrom, hd, hpieces, extendFirst])
      · simp [piecesFrom, hd, happend c hc more, extendFirst]

theorem piecesFrom_blanks {blanks : Text} (hblanks : ∀ c ∈ blanks, isBlank c = true)
    (more : Text) : piecesFrom true (blanks ++ more) = piecesFrom true more := by
  induction blanks with
  | nil => rfl
  | cons c blanks ih =>
    obtain ⟨hc, hrest⟩ := List.forall_mem_cons.mp hblanks
    simp [piecesFrom, hc, ih hrest]

theorem mem_piecesFrom_iff {piece : Text} (hpiece : piece ≠ []) (inRun : Bool) (text : Text) :
    piece ∈ piecesFrom inRun text ↔ piece ∈ splitBlanks text := by
  cases inRun with
  | false => exact Iff.rfl
  | true =>
    -- Skipping blanks at the head costs an empty piece.
    cases text with
    | nil => exact Iff.rfl
    | cons c rest =>
      by_cases hc : isBlank c = true <;> simp [splitBlanks, piecesFrom, hc, hpiece]

/-- In joined texts the pieces of the first texts do not depend on the others. -/
theorem exists_piecesFrom_joinWith (inRun : Bool) (texts : List Text) :
    ∃ front inside, (∀ others, others ≠ [] →
        piecesFrom inRun (joinWith [' '] (texts ++ others)) =
          front ++ piecesFrom inside (joinWith [' '] others)) ∧
      ∀ piece, piece ≠ [] → (piece ∈ front ↔ ∃ text ∈ texts, piece ∈ splitBlanks text) := by
  induction texts generalizing inRun with
  | nil => exact ⟨[], inRun, fun others _ => rfl, by simp⟩
  | cons text texts ih =>
    obtain ⟨first, -, hfirst, happend⟩ := piecesFrom_append inRun text
    obtain ⟨front, inside, hjoin, hmem⟩ := ih true
    refine ⟨first ++ front, inside, fun others hothers => ?_, fun piece hpiece => ?_⟩
    · obtain ⟨second, later, hsecond⟩ :=
        List.exists_cons_of_ne_nil (List.append_ne_nil_of_right_ne_nil texts hothers)
      have hcut := happend ' ' (by decide) (joinWith [' '] (texts ++ others))
      rw [hjoin others hothers, hsecond] at hcut
      rw [List.cons_append, hsecond, joinWith_cons_cons, List.append_assoc, List.append_assoc]
      exact hcut
    · have hsame : piece ∈ first ↔ piece ∈ splitBlanks text := by
        rw [← mem_piecesFrom_iff hpiece inRun]
        rcases hfirst with hfirst | hfirst <;> simp [hfirst, hpiece]
      simp [hsame, hmem piece hpiece]

/-- A token with blanks on both sides is a piece. -/
theorem mem_splitBlanks_of_blanks {front token back : Text} (htoken : IsToken token) {b c : Char}
    (hb : isBlank b = true) (hc : isBlank c = true) :
    token ∈ splitBlanks (front ++ b :: (token ++ c :: back)) := by
  obtain ⟨pieces, -, -, happend⟩ := piecesFrom_append false front
  rw [splitBlanks, happend b hb, piecesFrom_append_blank htoken.2 (fun _ => htoken.1) hc]
  simp

/-- Whether a part of a text has a blank in front of it. -/
def StandsBehindBlank (piece text : Text) : Prop :=
  ∃ front blank back, text = front ++ blank :: (piece ++ back) ∧ isBlank blank = true

theorem StandsBehindBlank.cons {piece text : Text} (hpiece : StandsBehindBlank piece text)
    (c : Char) : StandsBehindBlank piece (c :: text) := by
  obtain ⟨front, blank, back, rfl, hblank⟩ := hpiece
  exact ⟨c :: front, blank, back, rfl, hblank⟩

/-- The first piece begins the text unless blanks are skipped, and each further piece
has a blank in front of it. -/
theorem piecesFrom_eq_cons (inRun : Bool) (text : Text) :
    ∃ first others, piecesFrom inRun text = first :: others ∧
      (first <+: text ∨ inRun = true ∧ StandsBehindBlank first text) ∧
        ∀ piece ∈ others, StandsBehindBlank piece text := by
  induction text generalizing inRun with
  | nil => exact ⟨[], [], rfl, .inl List.prefix_rfl, by simp⟩
  | cons c rest ih =>
    by_cases hc : isBlank c = true
    · obtain ⟨first, others, hpieces, hfirst, hothers⟩ := ih true
      have hbehind : StandsBehindBlank first (c :: rest) := by
        rcases hfirst with ⟨back, rfl⟩ | ⟨_, hfirst⟩
        · exact ⟨[], c, back, rfl, hc⟩
        · exact hfirst.cons c
      have hlater : ∀ piece ∈ others, StandsBehindBlank piece (c :: rest) := fun piece hpiece =>
        (hothers piece hpiece).cons c
      cases inRun with
      | true =>
        exact ⟨first, others, by simp [piecesFrom, hc, hpieces], .inr ⟨rfl, hbehind⟩, hlater⟩
      | false =>
        refine ⟨[], first :: others, by simp [piecesFrom, hc, hpieces], .inl List.nil_prefix, ?_⟩
        exact List.forall_mem_cons.mpr ⟨hbehind, hlater⟩
    · obtain ⟨first, others, hpieces, hfirst, hothers⟩ := ih false
      have hprefix : first <+: rest := hfirst.resolve_right (by simp)
      refine ⟨c :: first, others, by simp [piecesFrom, hc, hpieces, extendFirst], .inl ?_, ?_⟩
      · exact List.cons_prefix_cons.mpr ⟨rfl, hprefix⟩
      · exact fun piece hpiece => (hothers piece hpiece).cons c

/-- A piece stands at the head of its text or behind a blank. -/
theorem mem_splitBlanks {piece text : Text} (hmem : piece ∈ splitBlanks text) :
    piece <+: text ∨ StandsBehindBlank piece text := by
  obtain ⟨first, others, hpieces, hfirst, hothers⟩ := piecesFrom_eq_cons false text
  rw [splitBlanks, hpieces] at hmem
  rcases List.mem_cons.mp hmem with rfl | hmem
  · exact .inl (hfirst.resolve_right (by simp))
  · exact .inr (hothers piece hmem)

theorem not_isBlank_of_mem_piecesFrom {inRun : Bool} {text : Text} :
    ∀ piece ∈ piecesFrom inRun text, ∀ c ∈ piece, isBlank c = false := by
  induction text generalizing inRun with
  | nil => simp [piecesFrom]
  | cons c rest ih =>
    simp only [piecesFrom]
    split
    · split
      · exact ih
      · simpa using ih
    · next hc =>
      obtain ⟨first, others, hpieces, -⟩ := piecesFrom_eq_cons false rest
      have hrest := @ih false
      rw [hpieces] at hrest ⊢
      obtain ⟨hfirst, hothers⟩ := List.forall_mem_cons.mp hrest
      exact List.forall_mem_cons.mpr
        ⟨List.forall_mem_cons.mpr ⟨Bool.eq_false_iff.mpr hc, hfirst⟩, hothers⟩

/-! ### Cuts at bars -/

theorem splitBars_ne_nil (text : Text) : splitBars text ≠ [] := by
  unfold splitBars
  split <;> simp

theorem splitBars_cons {c : Char} {rest : Text} (hbar : c = '|' → rest.head? ≠ some '|') :
    splitBars (c :: rest) = extendFirst c (splitBars rest) := by
  rw [splitBars]
  rintro tail rfl rfl
  exact hbar rfl rfl

/-- A text without a bar is a piece in front of two bars. -/
theorem splitBars_append_bars {piece : Text} (hpiece : '|' ∉ piece) (rest : Text) :
    splitBars (piece ++ '|' :: '|' :: rest) = piece :: splitBars rest := by
  induction piece with
  | nil => simp [splitBars]
  | cons c piece ih =>
    obtain ⟨hc, htail⟩ := not_or.mp (mt List.mem_cons.mpr hpiece)
    rw [List.cons_append, splitBars_cons (fun h => absurd h (Ne.symm hc)), ih htail]
    rfl

theorem splitBars_eq_singleton {text : Text} (htext : '|' ∉ text) : splitBars text = [text] := by
  induction text with
  | nil => rfl
  | cons c rest ih =>
    obtain ⟨hc, hrest⟩ := not_or.mp (mt List.mem_cons.mpr htext)
    rw [splitBars_cons (fun h => absurd h (Ne.symm hc)), ih hrest]
    rfl

/-- Pieces without bars come back from a cut at bars. -/
theorem splitBars_joinWith {pieces : List Text} (hne : pieces ≠ [])
    (hpieces : ∀ piece ∈ pieces, '|' ∉ piece) :
    splitBars (joinWith ['|', '|'] pieces) = pieces := by
  induction pieces with
  | nil => exact absurd rfl hne
  | cons first pieces ih =>
    have hfirst := hpieces first (by simp)
    cases pieces with
    | nil => rw [joinWith_singleton, splitBars_eq_singleton hfirst]
    | cons second pieces =>
      have hrest := ih (by simp) (fun piece hpiece => hpieces piece (by simp [hpiece]))
      rw [joinWith_cons_cons, List.append_assoc]
      simp only [List.cons_append, List.nil_append]
      rw [splitBars_append_bars hfirst, hrest]

/-- Behind a blank the cut at bars begins anew, whatever bars stand in front of
it; only the last piece in front has the blank as well. -/
theorem splitBars_append_blank_bars (left right : Text) :
    ∃ front last, splitBars left = front ++ [last] ∧
      splitBars (left ++ ' ' :: '|' :: '|' :: right) =
        front ++ (last ++ [' ']) :: splitBars right := by
  fun_induction splitBars left with
  | case1 =>
    refine ⟨[], [], rfl, ?_⟩
    rw [List.nil_append, splitBars_cons (by simp)]
    rfl
  | case2 rest ih =>
    obtain ⟨front, last, hleft, hboth⟩ := ih
    refine ⟨[] :: front, last, by rw [hleft]; rfl, ?_⟩
    simp only [List.cons_append, splitBars, hboth]
  | case3 c rest hbars ih =>
    obtain ⟨front, last, hleft, hboth⟩ := ih
    have hstep : splitBars ((c :: rest) ++ ' ' :: '|' :: '|' :: right) =
        extendFirst c (splitBars (rest ++ ' ' :: '|' :: '|' :: right)) := by
      rw [List.cons_append, splitBars_cons]
      intro hc
      cases rest with
      | nil => simp
      | cons d rest =>
        intro hd
        obtain rfl : d = '|' := by simpa using hd
        exact hbars rest hc rfl
    cases front with
    | nil =>
      refine ⟨[], c :: last, by rw [hleft]; rfl, ?_⟩
      rw [hstep, hboth]
      rfl
    | cons first front =>
      refine ⟨(c :: first) :: front, last, by rw [hleft]; rfl, ?_⟩
      rw [hstep, hboth]
      rfl

theorem splitBars_eq_cons (text : Text) :
    ∃ first others, splitBars text = first :: others ∧ first <+: text ∧
      ∀ piece ∈ others, piece <:+: text := by
  fun_induction splitBars text with
  | case1 => exact ⟨[], [], rfl, List.prefix_rfl, by simp⟩
  | case2 rest ih =>
    obtain ⟨first, others, hpieces, hfirst, hothers⟩ := ih
    have hbehind : rest <:+: '|' :: '|' :: rest := (List.suffix_append ['|', '|'] rest).isInfix
    refine ⟨[], splitBars rest, rfl, List.nil_prefix, ?_⟩
    rw [hpieces]
    exact List.forall_mem_cons.mpr ⟨hfirst.isInfix.trans hbehind, fun piece hpiece =>
      (hothers piece hpiece).trans hbehind⟩
  | case3 c rest _ ih =>
    obtain ⟨first, others, hpieces, hfirst, hothers⟩ := ih
    refine ⟨c :: first, others, by rw [hpieces]; rfl, List.cons_prefix_cons.mpr ⟨rfl, hfirst⟩, ?_⟩
    exact fun piece hpiece => (hothers piece hpiece).trans (List.suffix_cons c rest).isInfix

/-- A piece between bars is a part of the text. -/
theorem isInfix_of_mem_splitBars {piece text : Text} (hmem : piece ∈ splitBars text) :
    piece <:+: text := by
  obtain ⟨first, others, hpieces, hfirst, hothers⟩ := splitBars_eq_cons text
  rw [hpieces] at hmem
  rcases List.mem_cons.mp hmem with rfl | hmem
  · exact hfirst.isInfix
  · exact hothers piece hmem

end SemanticVersions
