import VersionConstraints.Proofs.Text.Words

/-!
# Parts of trimmed and normalized texts

Texts that are joined by a separator without white space keep their places when the joined text is
trimmed: only the first and the last of them lose white space. If they are joined by double bars,
the parts between the bars of the normalized text are the normalized parts.
-/

namespace VersionConstraints

namespace Text

variable {sep : Text} {ps qs rs ws : List Text} {wss : List (List Text)}

/-! ### Trimming -/

/-- White space at the front of a text ends before what is not white space. -/
lemma dropWhile_append_solid (h : Solid sep) (x y : Text) :
    (x ++ (sep ++ y)).dropWhile isBlank = x.dropWhile isBlank ++ (sep ++ y) := by
  obtain ⟨c, cs, rfl⟩ := List.exists_cons_of_ne_nil h.ne_nil
  have hc : ¬ isBlank c = true := by simp [h.not_blank c List.mem_cons_self]
  rw [List.dropWhile_append, List.cons_append, List.dropWhile_cons_of_neg hc]
  split
  · next hnil => rw [List.isEmpty_iff.mp hnil, List.nil_append]
  · rfl

lemma rdropWhile_append_solid (h : Solid sep) (x y : Text) :
    (x ++ (sep ++ y)).rdropWhile isBlank = x ++ (sep ++ y.rdropWhile isBlank) := by
  have hreverse : Solid sep.reverse := ⟨by simpa using h.ne_nil, by simpa using h.not_blank⟩
  have hdrop := dropWhile_append_solid hreverse y.reverse x.reverse
  rw [List.rdropWhile, List.rdropWhile, List.reverse_append, List.reverse_append, List.append_assoc,
    hdrop]
  simp

lemma rdropWhile_append_blanks (x : Text) {pad : Text} (hpad : ∀ c ∈ pad, isBlank c = true) :
    (x ++ pad).rdropWhile isBlank = x.rdropWhile isBlank := by
  rw [List.rdropWhile, List.rdropWhile, List.reverse_append,
    List.dropWhile_append_of_pos (by simpa using hpad)]

lemma trim_eq_rdropWhile (t : Text) : trim t = (t.dropWhile isBlank).rdropWhile isBlank := rfl

/-- To drop white space at the front first makes no difference to trimming. -/
@[simp] lemma trim_dropWhile (t : Text) : trim (t.dropWhile isBlank) = trim t := by
  rw [trim_eq_rdropWhile, List.dropWhile_idempotent, trim_eq_rdropWhile]

@[simp] lemma trim_rdropWhile (t : Text) : trim (t.rdropWhile isBlank) = trim t := by
  have hpad : ∀ c ∈ t.rtakeWhile isBlank, isBlank c = true := fun c hc => List.mem_rtakeWhile_imp hc
  conv_rhs => rw [← List.rdropWhile_append_rtakeWhile (p := isBlank) (l := t)]
  rw [trim_eq_rdropWhile, trim_eq_rdropWhile, List.dropWhile_append]
  split
  · next hnil =>
    rw [List.isEmpty_iff.mp hnil, List.dropWhile_eq_nil_iff.mpr hpad]
  · rw [rdropWhile_append_blanks _ hpad]

lemma mem_of_mem_trim {c : Char} {t : Text} (h : c ∈ trim t) : c ∈ t :=
  (List.dropWhile_sublist isBlank).subset ((List.rdropWhile_prefix isBlank _).subset h)

/-- Whether texts are those of another list up to white space around them. -/
structure SameCores (qs ps : List Text) : Prop where
  map_trim : qs.map trim = ps.map trim
  subset : ∀ q ∈ qs, ∃ p ∈ ps, q ⊆ p

namespace SameCores

lemma cons {p q : Text} (h : q.trim = p.trim) (hsub : q ⊆ p) (hps : SameCores qs ps) :
    SameCores (q :: qs) (p :: ps) := by
  refine ⟨by rw [List.map_cons, List.map_cons, h, hps.map_trim],
    List.forall_mem_cons.mpr ⟨⟨p, List.mem_cons_self, hsub⟩, fun r hr => ?_⟩⟩
  obtain ⟨s, hs, hrs⟩ := hps.subset r hr
  exact ⟨s, List.mem_cons_of_mem p hs, hrs⟩

lemma trans (h : SameCores rs qs) (h' : SameCores qs ps) : SameCores rs ps := by
  refine ⟨h.map_trim.trans h'.map_trim, fun r hr => ?_⟩
  obtain ⟨q, hq, hrq⟩ := h.subset r hr
  obtain ⟨p, hp, hqp⟩ := h'.subset q hq
  exact ⟨p, hp, List.Subset.trans hrq hqp⟩

lemma refl (ps : List Text) : SameCores ps ps :=
  ⟨rfl, fun p hp => ⟨p, hp, List.Subset.refl p⟩⟩

lemma eq_nil_iff (h : SameCores qs ps) : qs = [] ↔ ps = [] := by
  rw [← List.map_eq_nil_iff (f := trim), h.map_trim, List.map_eq_nil_iff]

/-- The cores of texts have no characters that the texts have not. -/
lemma not_mem (h : SameCores qs ps) {c : Char} (hps : ∀ p ∈ ps, c ∉ p) : ∀ q ∈ qs, c ∉ q := by
  intro q hq hc
  obtain ⟨p, hp, hqp⟩ := h.subset q hq
  exact hps p hp (hqp hc)

end SameCores

/-- To drop white space in front of joined texts drops some of their own. -/
lemma exists_dropWhile_intercalate (h : Solid sep) (ps : List Text) :
    ∃ qs, (sep.intercalate ps).dropWhile isBlank = sep.intercalate qs ∧ SameCores qs ps := by
  cases ps with
  | nil => exact ⟨[], rfl, .refl []⟩
  | cons p ps =>
    refine ⟨p.dropWhile isBlank :: ps, ?_,
      .cons (trim_dropWhile p) (List.dropWhile_sublist isBlank).subset (.refl ps)⟩
    by_cases hnil : ps = []
    · rw [hnil, List.intercalate_singleton, List.intercalate_singleton]
    · rw [List.intercalate_cons_of_ne_nil hnil, List.intercalate_cons_of_ne_nil hnil,
        List.append_assoc, dropWhile_append_solid h, List.append_assoc]

/-- To drop white space behind joined texts drops some of their own. -/
lemma exists_rdropWhile_intercalate (h : Solid sep) (ps : List Text) :
    ∃ qs, (sep.intercalate ps).rdropWhile isBlank = sep.intercalate qs ∧ SameCores qs ps := by
  induction ps with
  | nil => exact ⟨[], rfl, .refl []⟩
  | cons p ps ih =>
    by_cases hnil : ps = []
    · subst hnil
      refine ⟨[p.rdropWhile isBlank], ?_, .cons (trim_rdropWhile p)
        (List.rdropWhile_prefix isBlank p).subset (.refl [])⟩
      rw [List.intercalate_singleton, List.intercalate_singleton]
    · obtain ⟨qs, hdrop, hqs⟩ := ih
      refine ⟨p :: qs, ?_, .cons rfl (List.Subset.refl p) hqs⟩
      rw [List.intercalate_cons_of_ne_nil hnil,
        List.intercalate_cons_of_ne_nil (mt hqs.eq_nil_iff.mp hnil), List.append_assoc,
        rdropWhile_append_solid h, hdrop, List.append_assoc]

/-- Trimming a joined text only drops white space around its parts. -/
theorem exists_trim_intercalate (h : Solid sep) (ps : List Text) :
    ∃ qs, trim (sep.intercalate ps) = sep.intercalate qs ∧ SameCores qs ps := by
  obtain ⟨qs, hdrop, hqs⟩ := exists_dropWhile_intercalate h ps
  obtain ⟨rs, hrdrop, hrs⟩ := exists_rdropWhile_intercalate h qs
  exact ⟨rs, by rw [trim_eq_rdropWhile, hdrop, hrdrop], hrs.trans hqs⟩

lemma solid_singleton {c : Char} (hc : isBlank c = false) : Solid [c] :=
  ⟨List.cons_ne_nil c [], List.forall_mem_singleton.mpr hc⟩

/-- The parts between the commas of a trimmed text are those of the text, up to white space. -/
lemma map_trim_splitOn_trim (t : Text) :
    ((trim t).splitOn ',').map trim = (t.splitOn ',').map trim := by
  obtain ⟨qs, htrim, hqs⟩ := exists_trim_intercalate (solid_singleton (c := ',') (by decide))
    (t.splitOn ',')
  have hcomma : ∀ q ∈ qs, ',' ∉ q := hqs.not_mem fun p hp hmem =>
    absurd (of_mem_splitOnP p hp _ hmem).2 (by simp)
  have hne : qs ≠ [] := mt hqs.eq_nil_iff.mp (List.splitOnP_ne_nil _ t)
  rw [List.intercalate_splitOn] at htrim
  rw [htrim, List.splitOn_intercalate ',' hcomma hne, hqs.map_trim]

/-! ### Double bars -/

def bars : Text := ['|', '|']

lemma solid_bars : Solid bars :=
  ⟨List.cons_ne_nil _ _,
    List.forall_mem_cons.mpr ⟨by decide, List.forall_mem_singleton.mpr (by decide)⟩⟩

/-- Parts without bars are the parts of their joined text. -/
lemma splitBars_intercalate (hps : ∀ p ∈ ps, '|' ∉ p) (hne : ps ≠ []) :
    splitBars (bars.intercalate ps) = ps := by
  induction ps with
  | nil => exact absurd rfl hne
  | cons p ps ih =>
    obtain ⟨hp, hps⟩ := List.forall_mem_cons.mp hps
    by_cases hnil : ps = []
    · rw [hnil, List.intercalate_singleton, splitBars_of_not_mem hp]
    · rw [List.intercalate_cons_of_ne_nil hnil, List.append_assoc]
      exact (splitBars_append hp _).trans (congrArg (p :: ·) (ih hps hnil))

/-- The parts of a joined text that was trimmed are the joined ones, up to white space. -/
lemma map_trim_splitBars_trim (hps : ∀ p ∈ ps, '|' ∉ p) (hne : ps ≠ []) :
    ((trim (bars.intercalate ps)).splitBars).map trim = ps.map trim := by
  obtain ⟨qs, htrim, hqs⟩ := exists_trim_intercalate solid_bars ps
  rw [htrim, splitBars_intercalate (hqs.not_mem hps) (mt hqs.eq_nil_iff.mp hne), hqs.map_trim]

/-! ### Normalization -/

/-- A blank in front of an expression belongs to its first alternative. -/
lemma map_trim_splitBars_cons (t : Text) :
    (splitBars (' ' :: t)).map trim = t.splitBars.map trim := by
  have hsplit : splitBars (' ' :: t) = t.splitBars.modifyHead (' ' :: ·) := by
    rw [splitBars]
    intro cs hcs
    cases hcs
  rw [hsplit]
  cases t.splitBars with
  | nil => rfl
  | cons p ps =>
    have htrim : trim (' ' :: p) = trim p := by
      rw [← trim_dropWhile, List.dropWhile_cons_of_pos (by decide), trim_dropWhile]
    rw [List.modifyHead_cons, List.map_cons, List.map_cons, htrim]

/-- Normalization leaves at most one blank on each side of bars. -/
lemma exists_normalize_append_bars (s t : Text) : ∃ x y,
    normalize (s ++ ' ' :: (bars ++ ' ' :: t)) = x ++ (bars ++ y) ∧
      (x = normalize s ∨ x = normalize s ++ [' ']) ∧ (y = normalize t ∨ y = ' ' :: normalize t) := by
  have hbars : words bars = [bars] := by decide
  have hwords : words (s ++ ' ' :: (bars ++ ' ' :: t)) = words s ++ (bars :: words t) := by
    rw [words_append_cons (by decide), words_append_cons (by decide), hbars,
      List.singleton_append]
  have htail : ∃ y, [' '].intercalate (bars :: words t) = bars ++ y ∧
      (y = normalize t ∨ y = ' ' :: normalize t) := by
    by_cases ht : words t = []
    · refine ⟨[], by rw [ht, List.intercalate_singleton, List.append_nil], .inl ?_⟩
      rw [normalize, ht]
      rfl
    · exact ⟨_, by rw [List.intercalate_cons_of_ne_nil ht, List.append_assoc]; rfl, .inr rfl⟩
  obtain ⟨y, hy, hcases⟩ := htail
  rw [normalize, hwords]
  by_cases hs : words s = []
  · refine ⟨[], y, by rw [hs, List.nil_append, hy, List.nil_append], .inl ?_, hcases⟩
    rw [normalize, hs]
    rfl
  · refine ⟨normalize s ++ [' '], y, ?_, .inr rfl, hcases⟩
    rw [intercalate_append hs (List.cons_ne_nil _ _), hy, List.append_assoc]
    rfl

/-- The parts between the bars of a normalized text are the normalized parts. -/
theorem map_trim_splitBars_normalize (hqs : ∀ q ∈ qs, '|' ∉ q) (hne : qs ≠ []) :
    ((normalize ((' ' :: bars ++ [' ']).intercalate qs)).splitBars).map trim =
      qs.map normalize := by
  induction qs with
  | nil => exact absurd rfl hne
  | cons q qs ih =>
    obtain ⟨hq, hqs⟩ := List.forall_mem_cons.mp hqs
    have hnormal := not_mem_normalize hq (by decide)
    by_cases hnil : qs = []
    · rw [hnil, List.intercalate_singleton, splitBars_of_not_mem hnormal]
      simp
    · -- The blanks beside the bars go with the parts, where trimming takes them off.
      obtain ⟨x, y, hxy, hx, hy⟩ :=
        exists_normalize_append_bars q ((' ' :: bars ++ [' ']).intercalate qs)
      have htrim : trim x = normalize q := by
        rcases hx with rfl | rfl
        · exact trim_normalize q
        · rw [← trim_rdropWhile,
            rdropWhile_append_blanks _ (List.forall_mem_singleton.mpr (by decide)),
            trim_rdropWhile, trim_normalize]
      have hbar : '|' ∉ x := by
        rcases hx with rfl | rfl
        · exact hnormal
        · simpa using hnormal
      have hrest : y.splitBars.map trim = qs.map normalize := by
        rcases hy with rfl | rfl
        · exact ih hqs hnil
        · exact (map_trim_splitBars_cons _).trans (ih hqs hnil)
      have hjoin : (' ' :: bars ++ [' ']).intercalate (q :: qs) =
          q ++ ' ' :: (bars ++ ' ' :: (' ' :: bars ++ [' ']).intercalate qs) := by
        rw [List.intercalate_cons_of_ne_nil hnil]
        simp
      have hsplit : (x ++ (bars ++ y)).splitBars = x :: y.splitBars := splitBars_append hbar y
      rw [hjoin, hxy, hsplit, List.map_cons, htrim, hrest, List.map_cons]

end Text

end VersionConstraints
