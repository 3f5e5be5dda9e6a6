import VersionConstraints.Proofs.Constraint.Display
import VersionConstraints.Proofs.Interval.Exact
import VersionConstraints.Proofs.Range.Single

/-!
# Version texts as requirements

A text that is read as a version is a range expression too, and its range is that one version. The
build is deleted, the lead is left alone, and nothing in between is a shorthand. So declaring a
version text comes to the same constraint as pinning the version, and so does declaring the canonical
text of the version.
-/

namespace VersionConstraints

/-! ### Builds -/

namespace Text

variable {s t : Text} {ids : List Text}

lemma deleteBuildsFrom_identifier (h : ∀ c ∈ s, isIdentifierChar c = true) (t : Text) :
    deleteBuildsFrom true (s ++ t) = deleteBuildsFrom true t := by
  induction s with
  | nil => rfl
  | cons c s ih =>
    obtain ⟨hc, hs⟩ := List.forall_mem_cons.mp h
    rw [List.cons_append, deleteBuildsFrom]
    simp only [hc, Bool.true_or, Bool.and_self, if_true, ih hs]

lemma isBuildIdentifier_spec (h : isBuildIdentifier t = true) :
    t ≠ [] ∧ ∀ c ∈ t, isIdentifierChar c = true := by
  simp only [isBuildIdentifier, Bool.and_eq_true, Bool.not_eq_true', List.isEmpty_eq_false_iff,
    List.all_eq_true] at h
  exact h.1

lemma head?_intercalate_identifiers (h : ∀ t ∈ ids, isBuildIdentifier t = true) (hne : ids ≠ []) :
    (['.'].intercalate ids).head?.any isIdentifierChar = true := by
  obtain ⟨t, ts, rfl⟩ := List.exists_cons_of_ne_nil hne
  obtain ⟨hne, hall⟩ := isBuildIdentifier_spec (h t List.mem_cons_self)
  obtain ⟨c, cs, rfl⟩ := List.exists_cons_of_ne_nil hne
  have hc := hall c List.mem_cons_self
  cases ts with
  | nil => simpa using hc
  | cons u us => simpa [List.intercalate_cons_cons] using hc

/-- Build identifiers are deleted to the end. -/
lemma deleteBuildsFrom_identifiers (h : ∀ t ∈ ids, isBuildIdentifier t = true) :
    deleteBuildsFrom true (['.'].intercalate ids) = [] := by
  induction ids with
  | nil => rfl
  | cons t ts ih =>
    obtain ⟨ht, hts⟩ := List.forall_mem_cons.mp h
    obtain ⟨-, hall⟩ := isBuildIdentifier_spec ht
    by_cases hnil : ts = []
    · have hdelete := deleteBuildsFrom_identifier hall []
      rw [List.append_nil] at hdelete
      rw [hnil, List.intercalate_singleton, hdelete, deleteBuildsFrom]
    · rw [List.intercalate_cons_of_ne_nil hnil, List.append_assoc, deleteBuildsFrom_identifier hall,
        List.singleton_append, deleteBuildsFrom, head?_intercalate_identifiers hts hnil]
      exact ih hts

/-- A build behind a text without plus signs is deleted. -/
lemma deleteBuilds_append_buildText (hs : '+' ∉ s) (h : ∀ t ∈ ids, isBuildIdentifier t = true) :
    deleteBuilds (s ++ buildText ids) = s := by
  by_cases hnil : ids = []
  · rw [hnil, buildText, List.isEmpty_nil, if_pos rfl, List.append_nil, deleteBuilds_eq hs]
  · rw [deleteBuilds, deleteBuildsFrom_append hs, buildText, if_neg (by simpa using hnil),
      deleteBuildsFrom, head?_intercalate_identifiers h hnil]
    exact (congrArg (s ++ ·) (deleteBuildsFrom_identifiers h)).trans (List.append_nil s)

lemma isPlain_of_mem_buildText (h : ∀ t ∈ ids, isBuildIdentifier t = true) {c : Char}
    (hc : c ∈ buildText ids) : c = '+' ∨ isPlain c = true := by
  have htexts : IdentifierTexts ids := fun t ht => (isBuildIdentifier_spec (h t ht)).2
  rw [buildText] at hc
  split at hc
  · cases hc
  · exact (List.mem_cons.mp hc).imp_right (htexts.isPlain_intercalate c)

end Text

/-! ### Leads -/

/-- What may stand before the numerals of a text that is read strictly. -/
def IsStrictLead (lead : Text) : Prop :=
  lead = [] ∨ lead = ['v']

namespace Semver

variable {v : Semver} {lead t : Text}

lemma WellFormed.piece_lead (hv : v.WellFormed) (hlead : IsStrictLead lead) :
    Piece (lead ++ v.text) := by
  have hpiece : Piece v.text := hv.piece .equal
  rcases hlead with rfl | rfl
  · exact hpiece
  · refine ⟨List.cons_ne_nil _ _, List.forall_mem_cons.mpr ⟨by decide, hpiece.chars⟩, ?_, ?_⟩
    · rintro c ⟨⟩
      decide
    · intro c hc
      rw [List.getLast?_append_of_ne_nil _ hpiece.ne_nil] at hc
      exact hpiece.last c hc

/-- A version is read back from its canonical text with a lead, if there is room for the lead. -/
lemma Comparable.ofText_lead (hv : v.Comparable) (hlead : IsStrictLead lead)
    (hlen : (lead ++ v.text).length ≤ maxUnits) :
    ofText .strict (lead ++ v.text) = .ok v.canonical := by
  have hplain := hv.wellFormed.isPlain_text
  have hread := hv.ofText_text
  rcases hlead with rfl | rfl
  · exact hread
  · have hplain' : ∀ c ∈ ['v'] ++ v.text, isPlain c = true :=
      List.forall_mem_cons.mpr ⟨by decide, hplain⟩
    have hunread : Grammar.strict.read? (['v'] ++ v.text) = Grammar.strict.read? v.text := by
      obtain ⟨d, ds, hds, hd⟩ := v.text_eq_cons
      have hne : d ≠ 'v' := by
        rintro rfl
        cases hd
      have hdrop : Grammar.strict.dropLead v.text = v.text := by
        rw [hds, Grammar.dropLead]
        exact fun cs heq => hne (List.cons.inj heq).1
      rw [Grammar.read?, Grammar.read?, hdrop]
      rfl
    rw [ofText, Text.units16_of_plain hplain, Text.trim_of_plain hplain] at hread
    rw [ofText, Text.units16_of_plain hplain', Text.trim_of_plain hplain', hunread,
      if_neg (Nat.not_lt.mpr hlen)]
    split at hread
    · cases hread
    · cases hr : Grammar.strict.read? v.text with
      | none =>
        rw [hr] at hread
        cases hread
      | some r =>
        rw [hr] at hread
        exact hread

end Semver

/-! ### Reading a version as a range -/

namespace Expression

variable {v : Semver} {lead t : Text}

lemma expand_lead (hv : v.WellFormed) (hlead : IsStrictLead lead) :
    expand .strict (lead ++ v.text) = lead ++ v.text := by
  refine expand_eq_self (hv.piece_lead hlead) ?_
  have hopen : open? .strict v.text = none := by
    obtain ⟨d, ds, hds, hd⟩ := v.text_eq_cons
    have hsplit : Operator.split v.text = (.equal, v.text) := Operator.equal.split_text v
    rw [open?, hsplit]
    exact Option.bind_eq_none_iff.mpr fun p hp => Partial.open?_of_ofText? hp .equal
  rcases hlead with rfl | rfl
  · exact hopen
  · -- A partial version may have a lead, and without it nothing else is read.
    have hsplit : Operator.split v.text = (.equal, v.text) := Operator.equal.split_text v
    rw [open?, hsplit] at hopen
    exact hopen

/-- A text that is read as a version is an alternative with this version as its one comparator. -/
lemma alternative_of_ofText (h : Semver.ofText .strict t = .ok v) :
    alternative .strict t.trim = .ok [.bounded .equal v.canonical] := by
  have hv := Semver.comparable_of_ofText h
  obtain ⟨lead, hlead, htrim, hbuild, -, hlen⟩ := Semver.exists_of_ofText h
  have hpiece := hv.wellFormed.piece_lead hlead
  have hdelete : t.trim.deleteBuilds = lead ++ v.text := by
    rw [htrim, ← List.append_assoc]
    exact Text.deleteBuilds_append_buildText (hpiece.not_mem (by decide)) hbuild
  have hwritten : writtenOut .strict t.trim = lead ++ v.text := by
    have hwhole := hpiece.written.writtenOut_eq .strict
    rw [List.splitOn_eq_singleton (hpiece.not_mem (by decide)), List.map_singleton,
      expand_lead hv.wellFormed hlead, List.intercalate_singleton] at hwhole
    rw [writtenOut, hpiece.written.deleteBuilds_eq] at hwhole
    rw [writtenOut, hdelete]
    exact hwhole
  have hfields : (lead ++ v.text).fields = [lead ++ v.text] := by
    have := Text.fields_intercalate (List.forall_mem_singleton.mpr hpiece.solid)
      (List.cons_ne_nil _ _)
    rwa [List.intercalate_singleton] at this
  obtain ⟨hsplit, hzero⟩ : Operator.split (lead ++ v.text) = (.equal, lead ++ v.text) ∧
      lead ++ v.text ≠ fromZeroText := by
    obtain ⟨d, ds, hds, hd⟩ := v.text_eq_cons
    rcases hlead with rfl | rfl
    · refine ⟨Operator.equal.split_text v, ?_⟩
      rw [List.nil_append, hds]
      rintro ⟨⟩
      cases hd
    · refine ⟨rfl, ?_⟩
      rintro ⟨⟩
  have hread : Semver.ofText .strict (lead ++ v.text) = .ok v.canonical := by
    refine hv.ofText_lead hlead (le_trans ?_ hlen)
    rw [htrim]
    simp only [List.length_append]
    omega
  have hcomparator : Comparator.ofText .strict (lead ++ v.text) =
      .ok (.bounded .equal v.canonical) := by
    have hplain : (lead ++ v.text).trim = lead ++ v.text :=
      (Text.Tidy.word hpiece.solid).trimmed.trim_eq
    rw [Comparator.ofText, if_neg hpiece.ne_nil, hsplit,
      if_pos (Grammar.accepts_of_ofText hread hplain), hread]
    rfl
  rw [alternative, comparatorTexts, hwritten, hfields, List.map_singleton, if_neg hzero,
    List.mapM_cons, hcomparator, List.mapM_nil]
  exact congrArg Except.ok (Alternative.simplify_singleton _)

end Expression

namespace Range

variable {v : Semver} {t : Text}

/-- A text that is read as a version is read as the range of this version. -/
theorem ofText_of_version (h : Semver.ofText .strict t = .ok v) :
    ofText .strict t = .ok (some [.exact v.canonical]) := by
  have hv := Semver.comparable_of_ofText h
  obtain ⟨lead, hlead, htrim, hbuild, -, -⟩ := Semver.exists_of_ofText h
  have hpiece := hv.wellFormed.piece_lead hlead
  have hchars : ∀ c ∈ t.trim, c = '+' ∨ isWritten c = true := by
    intro c hc
    rw [htrim, ← List.append_assoc] at hc
    rcases List.mem_append.mp hc with hc | hc
    · exact .inr (hpiece.chars c hc)
    · exact (Text.isPlain_of_mem_buildText hbuild hc).imp_right isWritten_of_isPlain
  have hnot {c : Char} (hplus : c ≠ '+') (hc : isWritten c = false) : c ∉ t.trim := by
    intro hmem
    rcases hchars c hmem with heq | hwritten
    · exact hplus heq
    · rw [hc] at hwritten
      cases hwritten
  have hsolid : t.trim.Solid := by
    refine ⟨?_, fun c hc => ?_⟩
    · rw [htrim, ← List.append_assoc]
      exact List.append_ne_nil_of_left_ne_nil hpiece.ne_nil _
    · rcases hchars c hc with rfl | hwritten
      · decide
      · exact not_isBlank_of_isWritten hwritten
  have hjoin : Expression.withoutCommas? t.trim = some t.trim := by
    rw [Expression.withoutCommas?_of_not_mem (hnot (by decide) (by decide)),
      Expression.joinOperands?_of_not_mem (hnot (by decide) (by decide)), Text.trim_trim]
  have hread : Expression.alternative .strict t.trim.normalize =
      .ok [.bounded .equal v.canonical] := by
    rw [(Text.Tidy.word hsolid).normalize_eq]
    exact Expression.alternative_of_ofText h
  have hreread : Alternative.reread [.bounded .equal v.canonical] =
      [.bounded .equal v.canonical] := by
    obtain ⟨d, ds, hds, hd⟩ := v.canonical.text_eq_cons
    have hne : (Comparator.bounded .equal v.canonical).text ≠ Expression.fromZeroText := by
      intro heq
      rw [Comparator.text, hds] at heq
      cases heq
      cases hd
    rw [Alternative.reread, List.map_singleton, Alternative.simplify_singleton, Comparator.reread,
      if_neg hne]
    rfl
  rw [ofText_of_alternative hjoin (hnot (by decide) (by decide)) hread, hreread,
    Interval.ofAlternative_equal hv.canonical]
  rfl

end Range

/-! ### Requirements -/

namespace Requirement

variable {s : String} {v : NamedVersion}

/-- The text of a version is declared as the range of that version. -/
lemma ofVersionText_of_version {x : Semver} (h : Semver.ofText .strict s.toList = .ok x) :
    ofDeclaration "version" s .strict =
      .ok ⟨.range [.exact x.canonical] (displayText s), []⟩ := by
  rw [ofDeclaration_version, ofVersionText, Range.ofText_of_version h]
  rfl

/-- Declaring a version text comes to the pin of the version. Whether the text is the one that the
version was read from or the one that it is displayed with, the requirement is without warnings, and
its constraint is equal to the pin and satisfied by the version. -/
theorem ofDeclaration_versionText (h : NamedVersion.semverOfString s = .ok v) (u : String)
    (hu : u = s ∨ u = Version.text (.named v)) : ∃ w q, NamedVersion.semverOfString u = .ok w ∧
      ofDeclaration "version" u .strict = .ok q ∧ q.warnings = [] ∧
      ∀ n, n = v ∨ n = w → q.constraint.equal (.pin (.named n)) = .ok true ∧
        q.constraint.contains (.named n) = .ok true := by
  obtain ⟨x, hx, rfl⟩ : ∃ x, Semver.ofText .strict s.toList = .ok x ∧ v = .semver x := by
    rw [NamedVersion.semverOfString, Semver.ofString?] at h
    cases hx : Semver.ofText .strict s.toList with
    | error f =>
      rw [hx] at h
      cases h
    | ok x =>
      rw [hx] at h
      exact ⟨x, rfl, (Except.ok.inj h).symm⟩
  have hcomparable := Semver.comparable_of_ofText hx
  -- Both texts are read as versions with the release and the prerelease of the first one.
  obtain ⟨y, hy, hcanonical⟩ :
      ∃ y, Semver.ofText .strict u.toList = .ok y ∧ y.canonical = x.canonical := by
    rcases hu with rfl | rfl
    · exact ⟨x, hx, rfl⟩
    · refine ⟨x.canonical, ?_, rfl⟩
      rw [Version.text, NamedVersion.text, String.toList_ofList]
      exact hcomparable.ofText_text
  refine ⟨.semver y, _, ?_, ofVersionText_of_version hy, rfl, ?_⟩
  · rw [NamedVersion.semverOfString, Semver.ofString?, hy]
    rfl
  · have hpin (z : Semver) (hz : z.Comparable) (heq : z.canonical = x.canonical) :
        (Constraint.range [.exact y.canonical] (displayText u)).equal (.pin (.named (.semver z))) =
          .ok true ∧
        (Constraint.range [.exact y.canonical] (displayText u)).contains (.named (.semver z)) =
          .ok true := by
      have horder : z.canonical.order z.canonical = .eq := Semver.order_self _
      rw [hcanonical, ← heq]
      constructor
      · have hcompare := Interval.compare_exact hz.canonical hz horder
        simp only [Constraint.pin, Constraint.ofRange, Constraint.equal, Range.equal,
          Range.equal.pairwise, hcompare, List.length_singleton, ok_bind, if_true]
      · have hcontains := Interval.contains_exact hz.canonical hz
        have hdecide : decide (z.order z.canonical = .eq) = true := decide_eq_true horder
        simp only [Constraint.contains, Version.semver?, Version.named?, Range.contains, hcontains,
          hdecide, ok_bind, if_true, pure_eq_ok]
    rintro n (rfl | rfl)
    · exact hpin x hcomparable rfl
    · exact hpin y (Semver.comparable_of_ofText hy) hcanonical

/-- A version text with white space, a lead, an identifier that looks like a wildcard, one that is a
hyphen and a build. -/
theorem ofDeclaration_versionText_hyphen :
    ∃ v, NamedVersion.semverOfString " v1.2.3-x.-.0+7.-\n" = .ok v ∧
      ∃ w q, NamedVersion.semverOfString " v1.2.3-x.-.0+7.-\n" = .ok w ∧
        ofDeclaration "version" " v1.2.3-x.-.0+7.-\n" .strict = .ok q ∧ q.warnings = [] ∧
        ∀ n, n = v ∨ n = w → q.constraint.equal (.pin (.named n)) = .ok true ∧
          q.constraint.contains (.named n) = .ok true := by
  have hread : NamedVersion.semverOfString " v1.2.3-x.-.0+7.-\n" = .ok (.semver
      ⟨⟨1, 2, 3⟩, [.word ['x'], .word ['-'], .number 0], [['7'], ['-']], .strict⟩) := by
    decide +kernel
  exact ⟨_, hread, ofDeclaration_versionText hread _ (.inl rfl)⟩

end Requirement

end VersionConstraints
