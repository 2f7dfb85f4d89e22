import SemanticVersions.Proofs.Comparator.Format
import SemanticVersions.Proofs.Grammar.Matching
import SemanticVersions.Proofs.Grammar.Versions

/-!
# The tokens of ranges

The anchored patterns of the table describe whole texts: a comparator, a comparison with a
partial version, or a tilde or a caret with a partial version behind it.  Each of them
matches exactly the texts that are read as such, whatever the size of their numbers.
-/

namespace SemanticVersions

namespace Partial

/-- A run of lead characters in front of a partial version counts for nothing. -/
theorem read?_append_lead {lead : Text} (hlead : ∀ c ∈ lead, isLead c = true) (text : Text) :
    read? (lead ++ text) = read? text := by
  rw [read?, read?, List.dropWhile_append_of_pos hlead]

theorem not_mem_of_read? {text : Text} {version : Partial} (hread : read? text = some version)
    {mark : Char} (hlead : isLead mark = false) (hbody : isBodyChar mark = false) :
    mark ∉ text := by
  intro hmem
  obtain ⟨release, suffix, build, hparts, _⟩ := hasParts_of_read? hread
  rcases hparts.mem hmem with hmark | hmark
  · rw [hlead] at hmark
    cases hmark
  · rw [hbody] at hmark
    cases hmark

/-- Behind a sign the same partial version is read, even where an equals sign of its lead
is taken for a part of the sign. -/
theorem read?_spanSign {first text : Text}
    (hfirst : Operator.IsSign first)
    (hless : text.head? ≠ some '<') (hgreater : text.head? ≠ some '>') :
    read? (spanSign (first ++ text)).2 = read? text := by
  have hequal : ∀ rest, read? ('=' :: rest) = read? rest := fun rest => by
    have hlead : ∀ c ∈ ['='], isLead c = true := by simp [isLead]
    exact read?_append_lead hlead rest
  by_cases hhead : ∃ rest, text = '=' :: rest
  · obtain ⟨rest, rfl⟩ := hhead
    rcases hfirst with rfl | rfl | rfl | rfl | rfl | rfl <;> simp [spanSign, hequal]
  · rw [hfirst.spanSign_append]
    intro c hc
    obtain ⟨rest, rfl⟩ := List.head?_eq_some_iff.mp hc
    refine Operator.isSignChar_eq_false_iff.mpr ⟨?_, ?_, ?_⟩
    · rintro rfl
      exact hless rfl
    · rintro rfl
      exact hgreater rfl
    · rintro rfl
      exact hhead ⟨rest, rfl⟩

end Partial

namespace Grammar

open Pattern

/-- Whether a pattern describes exactly the texts of a kind, and only as whole texts. -/
def DescribesWhole (pattern : Pattern) (kind : Text → Prop) : Prop :=
  ∀ left matched right, pattern.Fits left matched right ↔ left = [] ∧ right = [] ∧ kind matched

/-- A pattern between the two anchors describes whole texts of its kind. -/
theorem Describes.whole {pattern : Pattern} {kind : Text → Prop}
    (hpattern : Describes pattern kind) : DescribesWhole (Grammar.whole pattern) kind := by
  intro left matched right
  constructor
  · rintro ⟨_, _, rfl, ⟨_, middle, rfl, ⟨rfl, rfl⟩, hmiddle⟩, rfl, rfl⟩
    refine ⟨rfl, rfl, ?_⟩
    simpa using (hpattern _ _ _).mp hmiddle
  · rintro ⟨rfl, rfl, hkind⟩
    exact ⟨matched, [], by simp, ⟨[], matched, rfl, ⟨rfl, rfl⟩, (hpattern _ _ _).mpr hkind⟩, rfl,
      rfl⟩

namespace DescribesWhole

variable {pattern : Pattern} {kind : Text → Prop}

/-- A pattern of whole texts is found exactly in the texts of its kind. -/
theorem matchesIn_ne_nil_iff (hpattern : DescribesWhole pattern kind) {text : Text} :
    pattern.matchesIn text ≠ [] ↔ kind text := by
  rw [Pattern.matchesIn_ne_nil_iff]
  constructor
  · rintro ⟨left, matched, right, rfl, hfits⟩
    obtain ⟨rfl, rfl, hkind⟩ := (hpattern left matched right).mp hfits
    rwa [List.nil_append, List.append_nil]
  · intro hkind
    exact ⟨[], text, [], by simp, (hpattern [] text []).mpr ⟨rfl, rfl, hkind⟩⟩

theorem congr {other : Text → Prop} (hpattern : DescribesWhole pattern kind)
    (hkinds : ∀ text, kind text ↔ other text) : DescribesWhole pattern other := by
  intro left matched right
  rw [hpattern left matched right, hkinds matched]

theorem empty : DescribesWhole (textStart ++ textEnd) fun text => text = [] := by
  intro left matched right
  constructor
  · rintro ⟨_, _, rfl, ⟨rfl, rfl⟩, rfl, rfl⟩
    exact ⟨rfl, rfl, rfl⟩
  · rintro ⟨rfl, rfl, rfl⟩
    exact ⟨[], [], rfl, ⟨rfl, rfl⟩, rfl, rfl⟩

theorem orElse {first second : Pattern} {firstKind secondKind : Text → Prop}
    (hfirst : DescribesWhole first firstKind) (hsecond : DescribesWhole second secondKind) :
    DescribesWhole (first <|> second) fun text => firstKind text ∨ secondKind text := by
  intro left matched right
  refine (or_congr (hfirst left matched right) (hsecond left matched right)).trans ?_
  simp only [← and_or_left]

end DescribesWhole

/-! ### Comparisons -/

theorem describes_sign : Describes sign Operator.IsSign := by
  refine (((Describes.mark '<').orElse (Describes.mark '>')).group.optional.append
    (Describes.mark '=').optional).capture.congr fun text => ?_
  constructor
  · rintro ⟨_, _, rfl, rfl | rfl | rfl, rfl | rfl⟩ <;> simp [Operator.IsSign]
  · rintro (rfl | rfl | rfl | rfl | rfl | rfl)
    · exact ⟨[], [], rfl, .inl rfl, .inl rfl⟩
    · exact ⟨['<'], [], rfl, .inr (.inl rfl), .inl rfl⟩
    · exact ⟨['<'], ['='], rfl, .inr (.inl rfl), .inr rfl⟩
    · exact ⟨['>'], [], rfl, .inr (.inr rfl), .inl rfl⟩
    · exact ⟨['>'], ['='], rfl, .inr (.inr rfl), .inr rfl⟩
    · exact ⟨[], ['='], rfl, .inl rfl, .inr rfl⟩

/-- A comparison with a partial version, full ones among them. -/
theorem describes_wildRange :
    DescribesWhole wildRange fun text =>
      ∃ version, Partial.read? (spanSign text).2 = some version := by
  refine Describes.whole (((describes_sign.append (Describes.many .blank)).append
    describes_wildPlain).congr fun text => ?_)
  constructor
  · rintro ⟨_, operand, rfl, ⟨first, blanks, rfl, hfirst, hblanks⟩, version, hversion⟩
    have hlead : ∀ c ∈ blanks, Partial.isLead c = true := fun c hc => by
      have hblank : isBlank c = true := hblanks c hc
      simp [Partial.isLead, hblank]
    have hread : Partial.read? (blanks ++ operand) = some version := by
      rw [Partial.read?_append_lead hlead, hversion]
    have hhead : ∀ mark, Partial.isLead mark = false → Partial.isBodyChar mark = false →
        (blanks ++ operand).head? ≠ some mark := fun mark hmarkLead hmarkBody heq =>
      Partial.not_mem_of_read? hread hmarkLead hmarkBody (List.mem_of_mem_head? heq)
    refine ⟨version, ?_⟩
    rw [List.append_assoc, Partial.read?_spanSign hfirst (hhead '<' (by decide) (by decide))
      (hhead '>' (by decide) (by decide)), hread]
  · rintro ⟨version, hversion⟩
    refine ⟨(spanSign text).1 ++ [], (spanSign text).2, ?_, ⟨(spanSign text).1, [], rfl,
      Operator.isSign_spanSign text, by simp⟩, version, hversion⟩
    rw [List.append_nil, spanSign_append]

/-- A comparator, with numbers of any size, or nothing at all. -/
theorem describes_comparator :
    DescribesWhole comparator fun text => Comparator.hasForm text = true := by
  have hcompared := (describes_sign.append (Describes.many .blank)).append
    describes_fullPlain.capture
  have hwhole : DescribesWhole comparator _ := hcompared.whole.orElse .empty
  refine hwhole.congr fun text => ?_
  rw [Comparator.hasForm, Bool.or_eq_true, List.isEmpty_iff, or_comm]
  refine or_congr Iff.rfl ⟨?_, ?_⟩
  · rintro ⟨_, version, rfl, ⟨first, blanks, rfl, hfirst, hclass⟩, hversion⟩
    have hblanks : ∀ c ∈ blanks, isBlank c = true := hclass
    obtain ⟨c, rest, rfl, hc⟩ := Version.eq_cons_of_hasForm hversion
    have hstart : trimStart (blanks ++ c :: rest) = c :: rest := by
      rw [trimStart, List.dropWhile_append_of_pos hblanks]
      exact trimStart_cons_of_not_blank (not_isBlank_of_isIdentifierChar hc) rest
    have hsign : ∀ d ∈ (blanks ++ c :: rest).head?, Operator.isSignChar d = false := by
      intro d hd
      cases blanks with
      | nil =>
        obtain rfl : c = d := Option.some.inj hd
        exact Operator.not_isSignChar_of_isVersionChar (isVersionChar_of_isIdentifierChar hc)
      | cons blank blanks =>
        obtain rfl : blank = d := Option.some.inj hd
        exact Operator.not_isSignChar_of_isBlank (hblanks blank (by simp))
    rw [Comparator.operand, List.append_assoc, hfirst.spanSign_append hsign,
      hstart]
    exact hversion
  · intro hversion
    have hblanks := takeWhile_append_trimStart (spanSign text).2
    refine ⟨(spanSign text).1 ++ (spanSign text).2.takeWhile isBlank, Comparator.operand text, ?_,
      ⟨_, _, rfl, Operator.isSign_spanSign text, fun c hc => List.mem_takeWhile_imp hc⟩, hversion⟩
    rw [Comparator.operand, List.append_assoc, hblanks, spanSign_append]

/-! ### Tildes and carets -/

/-- The tilde pattern describes a sign with a partial version behind it. -/
theorem describes_tilde :
    DescribesWhole tilde fun text =>
      ∃ rest version, (text = '~' :: rest ∨ text = '~' :: '>' :: rest) ∧
        Partial.read? rest = some version := by
  refine (((((Describes.mark '~').append (Describes.mark '>').optional).group).append
    describes_wildPlain).congr fun text => ?_).whole
  constructor
  · rintro ⟨_, rest, rfl, ⟨_, _, rfl, rfl, rfl | rfl⟩, version, hversion⟩
    · exact ⟨rest, version, .inl rfl, hversion⟩
    · exact ⟨rest, version, .inr rfl, hversion⟩
  · rintro ⟨rest, version, rfl | rfl, hversion⟩
    · exact ⟨['~'], rest, rfl, ⟨['~'], [], rfl, rfl, .inl rfl⟩, version, hversion⟩
    · exact ⟨['~', '>'], rest, rfl, ⟨['~'], ['>'], rfl, rfl, .inr rfl⟩, version, hversion⟩

/-- The caret pattern describes its sign with a partial version behind it. -/
theorem describes_caret :
    DescribesWhole caret fun text =>
      ∃ rest version, text = '^' :: rest ∧ Partial.read? rest = some version := by
  refine (((Describes.mark '^').group.append describes_wildPlain).congr fun text => ?_).whole
  constructor
  · rintro ⟨_, rest, rfl, rfl, version, hversion⟩
    exact ⟨rest, version, rfl, hversion⟩
  · rintro ⟨rest, version, rfl, hversion⟩
    exact ⟨['^'], rest, rfl, rfl, version, hversion⟩

end Grammar

/-! ### Shorthands -/

/-- A sign with a partial version behind it is a comparison, if something is left out. -/
theorem Shorthand.read?_eq_compared {token : Text} {operator : Operator} {version : Partial}
    (hoperator : Operator.read (spanSign token).1 = .ok operator)
    (hversion : Partial.read? (spanSign token).2 = some version)
    (hfull : version.isFull = false) : read? token = some (compared operator version) := by
  have hcompared : readCompared? token = some (compared operator version) := by
    rw [readCompared?, hoperator, hversion]
    cases version with
    | full M m p prerelease => cases hfull
    | any => rfl
    | major M => rfl
    | minor M m => rfl
  rw [← hcompared]
  -- No sign is taken off a caret or a tilde, and neither stands in a partial version.
  unfold read?
  split
  · next rest =>
    have hcaret : '^' ∉ (spanSign ('^' :: rest)).2 :=
      Partial.not_mem_of_read? hversion (by decide) (by decide)
    exact absurd List.mem_cons_self hcaret
  · next rest =>
    have htilde : '~' ∉ (spanSign ('~' :: '>' :: rest)).2 :=
      Partial.not_mem_of_read? hversion (by decide) (by decide)
    exact absurd List.mem_cons_self htilde
  · next rest _ =>
    have htilde : '~' ∉ (spanSign ('~' :: rest)).2 :=
      Partial.not_mem_of_read? hversion (by decide) (by decide)
    exact absurd List.mem_cons_self htilde
  · rfl

theorem Shorthand.read?_eq_tilde {sign text : Text} (hsign : sign = ['~'] ∨ sign = ['~', '>'])
    {version : Partial} (hversion : Partial.read? text = some version) :
    read? (sign ++ text) = some (tilde version) := by
  rcases hsign with rfl | rfl
  · -- The version does not begin with the angle that may belong to a tilde.
    have hangle : '>' ∉ text := Partial.not_mem_of_read? hversion (by decide) (by decide)
    cases text with
    | nil => cases hversion
    | cons c rest =>
      have hc : c ≠ '>' := fun heq => hangle (by simp [heq])
      rw [List.singleton_append, read?, hversion]
      · rfl
      · rintro rest' heq
        exact hc (List.cons.inj heq).1
  · exact congrArg (Option.map tilde) hversion

/-- A token reads as a shorthand exactly if it is a caret or a tilde with a partial version
behind it, or a comparison with a partial version that leaves something out. -/
theorem Shorthand.exists_read?_iff {token : Text} :
    (∃ shorthand, read? token = some shorthand) ↔
      (∃ rest version, token = '^' :: rest ∧ Partial.read? rest = some version) ∨
        (∃ rest version, (token = '~' :: rest ∨ token = '~' :: '>' :: rest) ∧
          Partial.read? rest = some version) ∨
          ∃ version, Partial.read? (spanSign token).2 = some version ∧ version.isFull = false := by
  constructor
  · rintro ⟨shorthand, hread⟩
    rcases of_read? hread with ⟨_, rest, rfl, rfl | rfl | rfl, hversion⟩ | ⟨hversion, hfull⟩
    · exact .inl ⟨rest, shorthand.version, rfl, hversion⟩
    · exact .inr (.inl ⟨rest, shorthand.version, .inl rfl, hversion⟩)
    · exact .inr (.inl ⟨rest, shorthand.version, .inr rfl, hversion⟩)
    · exact .inr (.inr ⟨shorthand.version, hversion, hfull⟩)
  · rintro (⟨rest, version, rfl, hversion⟩ | ⟨rest, version, rfl | rfl, hversion⟩ |
      ⟨version, hversion, hfull⟩)
    · exact ⟨caret version, by rw [read?, hversion]; rfl⟩
    · exact ⟨tilde version, read?_eq_tilde (.inl rfl) hversion⟩
    · exact ⟨tilde version, read?_eq_tilde (.inr rfl) hversion⟩
    · obtain ⟨operator, hoperator, _⟩ := Operator.read_spanSign token
      exact ⟨compared operator version, read?_eq_compared hoperator hversion hfull⟩

end SemanticVersions
