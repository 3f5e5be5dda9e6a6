import VersionConstraints.Proofs.Expression.Spacing
import VersionConstraints.Proofs.Semver.Canonical
import VersionConstraints.Proofs.Text.Words

/-!
# The pieces of a canonical text

A piece is the text of a comparator with a version. It has no shorthand in it, so it is expanded as
it is. It is read as the comparator with the version that the canonical text of its version is read
as.
-/

namespace VersionConstraints

/-! ### Characters -/

/-- The text of a version begins with a digit. -/
lemma Semver.text_eq_cons (v : Semver) : ∃ d ds, v.text = d :: ds ∧ d.isDigit = true := by
  obtain ⟨d, ds, hds⟩ := List.exists_cons_of_ne_nil (Numeral.text_ne_nil v.release.major)
  have hd : d.isDigit = true := Numeral.isDigit_of_mem_text (hds ▸ List.mem_cons_self)
  rw [text_eq, hds, List.cons_append]
  exact ⟨d, _, rfl, hd⟩

/-- An operator is split off in front of a digit. -/
lemma Operator.split_text_append (o : Operator) {d : Char} (hd : d.isDigit = true) (ds : Text) :
    split (o.text ++ d :: ds) = (o, d :: ds) := by
  have hne {c : Char} (hc : c.isDigit = false) : d ≠ c := by
    rintro rfl
    rw [hd] at hc
    cases hc
  have hequal : d ≠ '=' := hne (by decide)
  have hbelow : d ≠ '<' := hne (by decide)
  have habove : d ≠ '>' := hne (by decide)
  cases o <;> simp [text, split, hequal, hbelow, habove]

/-- The text of a comparator is split into its operator and its version. -/
lemma Operator.split_text (o : Operator) (v : Semver) : split (o.text ++ v.text) = (o, v.text) := by
  obtain ⟨d, ds, hds, hd⟩ := v.text_eq_cons
  rw [hds, split_text_append o hd]

/-- A text like that of a comparator with a version, as far as spacing looks at it. -/
structure Piece (t : Text) : Prop where
  ne_nil : t ≠ []
  chars : ∀ c ∈ t, isWritten c = true
  head : ∀ c ∈ t.head?, c ≠ '-'
  last : ∀ c ∈ t.getLast?, isPlain c = true

/-- The text of a comparator is a piece of an expression. -/
lemma Semver.WellFormed.piece {v : Semver} (h : v.WellFormed) (o : Operator) :
    Piece (o.text ++ v.text) := by
  obtain ⟨d, ds, hds, hd⟩ := v.text_eq_cons
  have hne : v.text ≠ [] := hds ▸ List.cons_ne_nil d ds
  have hop : ∀ c ∈ o.text, isWritten c = true ∧ c ≠ '-' := by
    cases o <;> simp [Operator.text, isWritten]
  refine ⟨List.append_ne_nil_of_right_ne_nil _ hne, ?_, ?_, ?_⟩
  · intro c hc
    rcases List.mem_append.mp hc with hc | hc
    · exact (hop c hc).1
    · exact isWritten_of_isPlain (h.isPlain_text c hc)
  · intro c hc
    cases ho : o.text with
    | nil =>
      rw [ho, List.nil_append, hds] at hc
      cases hc
      rintro rfl
      cases hd
    | cons c' cs =>
      rw [ho] at hc
      cases hc
      exact (hop _ (ho ▸ List.mem_cons_self)).2
  · intro c hc
    rw [List.getLast?_append_of_ne_nil _ hne] at hc
    exact h.isPlain_text c (List.mem_of_getLast? hc)

namespace Piece

variable {t : Text} {ts : List Text} {c : Char}

lemma not_mem (h : Piece t) (hc : isWritten c = false) : c ∉ t := by
  intro hmem
  rw [h.chars c hmem] at hc
  cases hc

lemma solid (h : Piece t) : Text.Solid t :=
  ⟨h.ne_nil, fun c hc => not_isBlank_of_isWritten (h.chars c hc)⟩

lemma written (h : Piece t) : Written t := by
  refine ⟨fun c hc => .inl (h.chars c hc), List.Pairwise.isChain ?_⟩
  refine List.pairwise_of_forall_mem_list fun c hc d hd => ⟨?_, ?_⟩
  · rintro rfl
    exact absurd hd (h.not_mem (by decide))
  · rintro rfl
    exact absurd hc (h.not_mem (by decide))

lemma head?_intercalate (ht : t ≠ []) (ts : List Text) :
    ([' '].intercalate (t :: ts)).head? = t.head? := by
  cases ts with
  | nil => rw [List.intercalate_singleton]
  | cons t' ts =>
    rw [List.intercalate_cons_cons, List.append_assoc, List.head?_append_of_ne_nil _ ht]

/-- Pieces with a blank between any two of them are left alone by spacing. -/
theorem written_intercalate (h : ∀ t ∈ ts, Piece t) : Written ([' '].intercalate ts) := by
  induction ts with
  | nil => exact ⟨nofun, List.IsChain.nil⟩
  | cons t ts ih =>
    obtain ⟨ht, hts⟩ := List.forall_mem_cons.mp h
    cases ts with
    | nil =>
      rw [List.intercalate_singleton]
      exact ht.written
    | cons t' ts =>
      have ht' := hts t' List.mem_cons_self
      rw [List.intercalate_cons_cons, List.append_assoc, List.singleton_append]
      constructor
      · intro c hc
        rcases List.mem_append.mp hc with hc | hc
        · exact .inl (ht.chars c hc)
        · rcases List.mem_cons.mp hc with rfl | hc
          · exact .inr rfl
          · exact (ih hts).chars c hc
      · refine List.isChain_append.mpr ⟨ht.written.neighbours, ?_, ?_⟩
        · refine List.isChain_cons.mpr ⟨fun d hd => ?_, (ih hts).neighbours⟩
          rw [head?_intercalate ht'.ne_nil] at hd
          refine ⟨?_, fun _ => ht'.head d hd⟩
          rintro rfl
          exact absurd (List.mem_of_mem_head? hd) (ht'.not_mem (by decide))
        · rintro c hc _ ⟨⟩
          refine ⟨fun _ => ht.last c hc, ?_⟩
          rintro rfl
          exact absurd (List.mem_of_getLast? hc) (ht.not_mem (by decide))

end Piece

/-! ### Expanding -/

lemma not_isWildcard_of_isDigit {c : Char} (hc : c.isDigit = true) : isWildcard c = false := by
  rw [← Bool.not_eq_true]
  intro hwild
  simp only [isWildcard, Bool.or_eq_true, beq_iff_eq] at hwild
  rcases hwild with (rfl | rfl) | rfl <;> cases hc

namespace Partial

variable {g : Grammar} {p : Partial} {ds : Text} {x : Option Text}

/-- Digits in the place of a number are never read as a wildcard. -/
lemma exists_of_part? (hds : ∀ d ∈ ds, d.isDigit = true) (h : part? g ds = some x) :
    ∃ t, x = some t := by
  simp only [part?] at h
  split at h
  · next c =>
    rw [not_isWildcard_of_isDigit (hds c List.mem_cons_self)] at h
    simp only [Bool.false_eq_true, if_false, Option.ite_none_right_eq_some, Option.some.injEq] at h
    exact ⟨_, h.2.symm⟩
  · simp only [Option.ite_none_right_eq_some, Option.some.injEq] at h
    exact ⟨_, h.2.symm⟩

/-- A patch that begins with a digit is never read as a wildcard. -/
lemma exists_of_patch? {c : Char} {cs : Text} {ids : List Text} (hc : c.isDigit = true)
    (h : patch? g (c :: cs) = some (x, ids)) : ∃ t, x = some t := by
  rw [patch?, not_isWildcard_of_isDigit hc, if_neg Bool.false_ne_true] at h
  obtain ⟨q, -, hq⟩ := Option.map_eq_some_iff.mp h
  cases hq
  exact ⟨_, rfl⟩

/-- No number of a canonical version text is open. -/
lemma open?_of_ofText? {v : Semver} (h : ofText? g v.text = some p) (o : Operator) :
    p.open? o = none := by
  have hdigit {n : Nat} : ∀ d ∈ Numeral.text n, d.isDigit = true := fun d =>
    Numeral.isDigit_of_mem_text
  have hdot (n : Nat) : '.' ∉ Numeral.text n := Numeral.not_mem_text (by decide)
  have hlead : v.text.dropWhile isLead = v.text := by
    obtain ⟨d, ds, hds, hd⟩ := v.text_eq_cons
    rw [hds, List.dropWhile_cons_of_neg]
    simp [not_isLead_of_isDigit hd]
  obtain ⟨c, cs, hpatch⟩ := List.exists_cons_of_ne_nil (Numeral.text_ne_nil v.release.patch)
  have hc : c.isDigit = true := hdigit c (hpatch ▸ List.mem_cons_self)
  rw [ofText?, hlead, Semver.text_eq, Text.cut_append _ (hdot _)] at h
  dsimp only at h
  rw [Text.cut_append _ (hdot _), hpatch, List.cons_append] at h
  simp only [Option.bind_eq_bind, Option.pure_def, Option.bind_eq_some_iff, Option.some.injEq] at h
  obtain ⟨major, hmajor, minor, hminor, ⟨patch, ids⟩, hqualified, rfl⟩ := h
  obtain ⟨_, rfl⟩ := exists_of_part? hdigit hmajor
  obtain ⟨_, rfl⟩ := exists_of_part? hdigit hminor
  obtain ⟨_, rfl⟩ := exists_of_patch? hc hqualified
  rfl

end Partial

namespace Expression

variable {v : Semver} {o : Operator} {g : Grammar} {cs : Text}

/-- A text without a caret is no caret range. -/
lemma caret?_eq_none (h : '^' ∉ cs) : caret? g cs = none := by
  unfold caret?
  split
  · exact absurd List.mem_cons_self h
  · rfl

/-- A text without a tilde is no tilde range. -/
lemma tilde?_eq_none (h : '~' ∉ cs) : tilde? g cs = none := by
  unfold tilde?
  split
  · exact absurd List.mem_cons_self h
  · exact absurd List.mem_cons_self h
  · rfl

/-- A piece that leaves nothing open is expanded to itself. -/
lemma expand_eq_self (h : Piece cs) (hopen : open? g cs = none) : expand g cs = cs := by
  rw [expand, caret?_eq_none (h.not_mem (by decide)), tilde?_eq_none (h.not_mem (by decide)), hopen]
  exact deleteStar_eq (h.not_mem (by decide))

/-- The text of a comparator with a version is expanded as it is. -/
theorem expand_text (hv : v.WellFormed) : expand g (o.text ++ v.text) = o.text ++ v.text := by
  refine expand_eq_self (hv.piece o) ?_
  rw [open?, Operator.split_text]
  exact Option.bind_eq_none_iff.mpr fun p hp => Partial.open?_of_ofText? hp o

end Expression

/-! ### Comparators -/

/-- A grammar accepts the trimmed texts that it reads versions from. -/
lemma Grammar.accepts_of_ofText {g : Grammar} {v : Semver} {t : Text}
    (h : Semver.ofText g t = .ok v) (ht : t.trim = t) : g.accepts t = true := by
  simp only [Semver.ofText] at h
  split at h
  · cases h
  · split at h
    · cases h
    · next r hr =>
      rw [ht] at hr
      rw [accepts, hr, Option.isSome_some]

/-- Both grammars accept the text of a version that can be compared. -/
lemma Semver.Comparable.accepts_text {v : Semver} (h : v.Comparable) (g : Grammar) :
    g.accepts v.text = true :=
  Grammar.accepts_of_ofText (h.ofText_text_in g) (Text.trim_of_plain h.wellFormed.isPlain_text)

namespace Comparator

/-- What the canonical text of a comparator is read as, within an alternative. -/
def reread : Comparator → Comparator
  | .any         => .any
  | .bounded o v =>
    if (bounded o v).text = Expression.fromZeroText then .any else .bounded o v.canonical

/-- What a grammar reads the canonical text of a comparator as, within an alternative. -/
def rereadIn (g : Grammar) : Comparator → Comparator
  | .any         => .any
  | .bounded o v =>
    if (bounded o v).text = Expression.fromZeroText then .any else .bounded o (v.canonicalIn g)

variable {c : Comparator} {o : Operator} {v : Semver}

@[simp] lemma reread_any : reread .any = .any := rfl

@[simp] lemma rereadIn_strict : rereadIn .strict = reread := by
  funext c
  cases c <;> rfl

/-- A comparator is written as its canonical form is. -/
@[simp] lemma text_canonical (o : Operator) (v : Semver) :
    (bounded o v.canonical).text = (bounded o v).text := rfl

/-- No comparator that is read back has the text that stands for no restriction. -/
lemma text_reread_ne (c : Comparator) : c.reread.text ≠ Expression.fromZeroText := by
  cases c with
  | any => decide
  | bounded o v =>
    rw [reread]
    split
    · decide
    · next hne => exact hne

/-- Reading a comparator again changes it once at most. -/
@[simp] lemma reread_reread (c : Comparator) : c.reread.reread = c.reread := by
  cases c with
  | any => rfl
  | bounded o v =>
    rw [reread]
    split
    · rfl
    · next hne => rw [reread, text_canonical, if_neg hne, Semver.canonical_canonical]

/-- The text of a comparator is read as the comparator, but for grammar and build. -/
theorem ofText_text_in (hv : v.Comparable) (g : Grammar) :
    ofText g (bounded o v).text = .ok (.bounded o (v.canonicalIn g)) := by
  have hne : (bounded o v).text ≠ [] := (hv.wellFormed.piece o).ne_nil
  have hsplit : Operator.split (bounded o v).text = (o, v.text) := o.split_text v
  rw [ofText, if_neg hne, hsplit, if_pos (hv.accepts_text g), hv.ofText_text_in g]
  rfl

/-- A comparator is read from its text in canonical form. -/
theorem ofText_text (hv : v.Comparable) :
    ofText .strict (bounded o v).text = .ok (.bounded o v.canonical) :=
  ofText_text_in hv .strict

end Comparator

end VersionConstraints
