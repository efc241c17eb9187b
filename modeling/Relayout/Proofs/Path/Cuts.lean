import Mathlib.Data.List.DropRight
import Relayout.Proofs.Path.Canonical

/-!
# Parts as cuts of the text

Cuts at the root, at the separators at the end, at the last separator and at the last dot give the
parts of every text, and nothing but separators gets lost by them. Written out, the parts of a text
without `.` and `..` are the text without its idle separators, from which the same parts are read.
-/

namespace Relayout

namespace Text

variable {s t : Text} {c : Char}

/-- The text without the separators that another one or nothing follows. -/
def thinned : Text → Text
  | [] => []
  | c :: s => if c = '/' ∧ (s = [] ∨ s.head? = some '/') then thinned s else c :: thinned s

/-- The text without repeated separators and those at the end, but for the root. -/
def tidied (t : Text) : Text :=
  if t.head? = some '/' ∧ thinned t = [] then ['/'] else thinned t

theorem filled_append_cons (s t : Text) : filled (s ++ '/' :: t) = filled s ++ filled t := by
  rw [filled, pieces_append_cons, List.filter_append]
  rfl

theorem filled_cons_separator (t : Text) : filled ('/' :: t) = filled t :=
  filled_append_cons [] t

theorem filled_concat_separator (t : Text) : filled (t ++ ['/']) = filled t := by
  rw [filled_append_cons]
  exact List.append_nil _

theorem filled_of_not_mem (h : '/' ∉ t) (hne : t ≠ []) : filled t = [t] := by
  rw [filled, pieces_of_not_mem h, List.filter_cons_of_pos (by simpa using hne)]
  rfl

theorem filled_rdropWhile (t : Text) : filled (t.rdropWhile (· = '/')) = filled t := by
  induction t using List.reverseRecOn with
  | nil => rfl
  | append_singleton t c ih =>
    by_cases hc : c = '/'
    · rw [List.rdropWhile_concat_pos _ _ _ (by simpa using hc), ih, hc, filled_concat_separator]
    · rw [List.rdropWhile_concat_neg _ _ _ (by simpa using hc)]

theorem exists_filled_cons (hc : c ≠ '/') (t : Text) : ∃ piece rest,
    pieces '/' t = piece :: rest ∧ filled (c :: t) = (c :: piece) :: rest.filter (· ≠ []) := by
  obtain ⟨piece, rest, ht⟩ := List.exists_cons_of_ne_nil (pieces_ne_nil '/' t)
  refine ⟨piece, rest, ht, ?_⟩
  simp [filled, pieces, hc, ht]

theorem joined_cons_cons (sep c : Char) (piece : Text) (rest : List Text) :
    joined sep ((c :: piece) :: rest) = c :: joined sep (piece :: rest) := by
  cases rest <;> rfl

theorem joined_nil_cons (sep : Char) {rest : List Text} (h : rest ≠ []) :
    joined sep ([] :: rest) = sep :: joined sep rest := by
  obtain ⟨piece, rest, rfl⟩ := List.exists_cons_of_ne_nil h
  rfl

theorem filled_ne_nil (hne : t ≠ []) (hhead : t.head? ≠ some '/') : filled t ≠ [] := by
  obtain ⟨c, t, rfl⟩ := List.exists_cons_of_ne_nil hne
  obtain ⟨piece, rest, -, hfilled⟩ := exists_filled_cons (fun hc => hhead (congrArg some hc)) t
  rw [hfilled]
  exact List.cons_ne_nil _ _

/-- The separator that stands in front of what is left of a text. -/
def lead (t : Text) : Text := if t.head? = some '/' ∧ filled t ≠ [] then ['/'] else []

theorem joined_filled_cons (hc : c ≠ '/') (t : Text) :
    joined '/' (filled (c :: t)) = c :: (lead t ++ joined '/' (filled t)) := by
  obtain ⟨piece, rest, ht, hfilled⟩ := exists_filled_cons hc t
  rw [hfilled, joined_cons_cons]
  refine congrArg (List.cons c) ?_
  by_cases hpiece : piece = []
  · -- a separator follows `c`, or nothing does
    subst hpiece
    have hrest : filled t = rest.filter (· ≠ []) := by simp [filled, ht]
    rw [← hrest]
    rcases eq_nil_or_cons_of_pieces ht with rfl | ⟨s, rfl⟩
    · rfl
    · by_cases hnil : filled ('/' :: s) = []
      · simp [lead, hnil, joined]
      · rw [lead, if_pos ⟨rfl, hnil⟩, joined_nil_cons _ hnil]
        rfl
  · -- `c` stands in front of a piece that goes on
    have hhead : t.head? ≠ some '/' := by
      intro h
      obtain ⟨s, rfl⟩ := List.head?_eq_some_iff.mp h
      exact hpiece (List.cons.inj (ht.symm.trans (if_pos rfl))).1
    have hkept : filled t = piece :: rest.filter (· ≠ []) := by simp [filled, ht, hpiece]
    rw [lead, if_neg fun h => hhead h.1, hkept, List.nil_append]

theorem thinned_eq (t : Text) : thinned t = lead t ++ joined '/' (filled t) := by
  induction t with
  | nil => rfl
  | cons c t ih =>
    by_cases hc : c = '/'
    · subst hc
      rw [lead, filled_cons_separator, thinned, ih]
      by_cases hnext : t = [] ∨ t.head? = some '/'
      · rw [if_pos ⟨rfl, hnext⟩, lead]
        rcases hnext with rfl | hnext
        · rfl
        · rw [hnext, List.head?_cons]
      · -- the last separator in front of a piece is the one that stays
        have hfilled : filled t ≠ [] := filled_ne_nil (not_or.mp hnext).1 (not_or.mp hnext).2
        rw [if_neg fun h => hnext h.2, if_pos ⟨rfl, hfilled⟩, lead,
          if_neg fun h => hnext (.inr h.1)]
        rfl
    · have hlead : lead (c :: t) = [] := if_neg fun h => hc (Option.some.inj h.1)
      rw [thinned, if_neg fun h => hc h.1, hlead, joined_filled_cons hc, ih, List.nil_append]

theorem tidied_eq_render (h : t.head? = some '/' ∨ filled t ≠ []) :
    tidied t = Lexical.render (t.head? = some '/') (filled t) := by
  rw [tidied, thinned_eq, lead]
  by_cases hroot : t.head? = some '/'
  · by_cases hnil : filled t = []
    · simp [hroot, hnil, joined, Lexical.render]
    · simp [hroot, hnil, Lexical.render]
  · simp [hroot, Lexical.render_relative (h.resolve_left hroot)]

end Text

namespace Parts

variable {t : Text}

/-- The parts that cuts give: behind the root, in front of the separators at the end, and at the
last separator of what is left. -/
def ofCuts (t : Text) : Parts :=
  let rest := (if t.head? = some '/' then t.tail else t).rdropWhile (· = '/')
  ofBase (t.head? = some '/') (Text.filled (rest.rdropWhile (· ≠ '/')).dropLast)
    (rest.rtakeWhile (· ≠ '/'))

/-- The last piece of a text that does not end in a separator stands behind its last one. -/
theorem filled_eq_cut (hend : ∀ h : t ≠ [], t.getLast h ≠ '/') :
    (Text.filled t).dropLast = Text.filled (t.rdropWhile (· ≠ '/')).dropLast ∧
      (Text.filled t).getLast?.getD [] = t.rtakeWhile (· ≠ '/') := by
  have hbase : '/' ∉ t.rtakeWhile (· ≠ '/') := fun h => by
    simpa using List.mem_rtakeWhile_imp h
  have ht : t.rdropWhile (· ≠ '/') ++ t.rtakeWhile (· ≠ '/') = t :=
    List.rdropWhile_append_rtakeWhile
  have hlast : ∀ h : t.rdropWhile (· ≠ '/') ≠ [], (t.rdropWhile (· ≠ '/')).getLast h = '/' :=
    fun h => by simpa using List.rdropWhile_last_not (· ≠ '/') t h
  generalize t.rtakeWhile (· ≠ '/') = base at *
  generalize t.rdropWhile (· ≠ '/') = dir at *
  by_cases hdir : dir = []
  · subst hdir
    obtain rfl : base = t := ht
    by_cases hnil : base = []
    · subst hnil
      exact ⟨rfl, rfl⟩
    · rw [Text.filled_of_not_mem hbase hnil]
      exact ⟨rfl, rfl⟩
  · -- the directory's text ends in the separator, which belongs to neither side of the cut
    have hcut : t = dir.dropLast ++ '/' :: base := by
      rw [← ht, ← List.dropLast_append_getLast hdir, hlast hdir]
      simp
    have hnil : base ≠ [] := by
      rintro rfl
      subst hcut
      exact hend (by simp) (by simp)
    rw [hcut, Text.filled_append_cons, Text.filled_of_not_mem hbase hnil, List.dropLast_concat,
      List.getLast?_concat]
    exact ⟨rfl, rfl⟩

/-- Taking the pieces of a text and cutting it give the same parts. -/
theorem ofText_eq_ofCuts (t : Text) : ofText t = ofCuts t := by
  have hroot : Text.filled (if t.head? = some '/' then t.tail else t) = Text.filled t := by
    split
    next h =>
      obtain ⟨s, rfl⟩ := List.head?_eq_some_iff.mp h
      exact (Text.filled_cons_separator s).symm
    next => rfl
  have hcut := @filled_eq_cut ((if t.head? = some '/' then t.tail else t).rdropWhile (· = '/'))
    fun h => by simpa using List.rdropWhile_last_not (· = '/') _ h
  rw [Text.filled_rdropWhile, hroot] at hcut
  rw [ofText_eq_ofBase, ofCuts, hcut.1, hcut.2]

theorem base_ofText (t : Text) : (ofText t).base = (Text.filled t).getLast?.getD [] :=
  cutExtension_append _

theorem dirs_append_base (t : Text) :
    (ofText t).dirs ++ (if (ofText t).base = [] then [] else [(ofText t).base]) =
      Text.filled t := by
  rw [base_ofText, ofText_eq_ofBase, ofBase]
  cases h : (Text.filled t).getLast? with
  | none =>
    rw [List.getLast?_eq_none_iff] at h
    simp [h]
  | some base =>
    have hbase : base ≠ [] := by simpa using (List.mem_filter.mp (List.mem_of_getLast? h)).2
    obtain ⟨dirs, hdirs⟩ := List.getLast?_eq_some_iff.mp h
    simp [hdirs, hbase]

theorem toText_ofText_of_plain (hhere : ['.'] ∉ Text.pieces '/' t)
    (hup : ['.', '.'] ∉ Text.pieces '/' t) :
    (ofText t).toText = Lexical.render (t.head? = some '/') (Text.filled t) := by
  have hfilled : (Text.pieces '/' t).filter (fun p => p ≠ [] ∧ p ≠ ['.']) = Text.filled t := by
    refine List.filter_congr fun p hp => ?_
    simp [show p ≠ ['.'] from fun h => hhere (h ▸ hp)]
  rw [toText_ofText, Lexical.resolve_of_not_mem_up hup, hfilled]

theorem ofText_render_filled (h : t.head? = some '/' ∨ Text.filled t ≠ []) :
    ofText (Lexical.render (t.head? = some '/') (Text.filled t)) = ofText t := by
  have hne : ∀ piece ∈ Text.filled t, piece ≠ [] := fun piece hp => by
    simpa using (List.mem_filter.mp hp).2
  have hsep : ∀ piece ∈ Text.filled t, '/' ∉ piece := fun piece hp =>
    Text.not_mem_of_mem_pieces (List.mem_filter.mp hp).1
  rw [ofText_render hne hsep, ofText_eq_ofBase t]
  rcases h with hroot | hfilled
  · simp [hroot, idle]
  · rw [List.getLast?_eq_some_getLast hfilled]
    rfl

theorem fileRoot_ne_nil_of_extension {base : Text} (h : (cutExtension base).2 ≠ []) :
    (cutExtension base).1 ≠ [] := by
  apply cutExtension_fst_ne_nil
  rintro rfl
  exact h rfl

end Parts

namespace Path

theorem extension_cases (p : Path) :
    p.parts.extension = [] ∨ ∃ e, '.' ∉ e ∧ '/' ∉ e ∧ p.parts.extension = '.' :: e := by
  rcases Parts.cutExtension_snd ((Text.filled p.text).getLast?.getD []) with h | ⟨e, hdot, h⟩
  · exact .inl h
  · have hsep : '/' ∉ '.' :: e := h ▸ p.unseparated_extension
    exact .inr ⟨e, hdot, fun he => hsep (.tail '.' he), h⟩

/-- Nothing but separators gets lost when a path is taken apart, and what is written out again is
the text without the idle ones. -/
theorem parts_lossless (p : Path) :
    p.parts = Parts.ofCuts p.text ∧
      (p.parts.rooted = true ↔ ∃ s, p.text = '/' :: s) ∧
      p.parts.dirs ++ (if p.parts.base = [] then [] else [p.parts.base]) = Text.filled p.text ∧
      (p.parts.extension = [] ∨ ∃ e, '.' ∉ e ∧ '/' ∉ e ∧ p.parts.extension = '.' :: e) ∧
      (p.parts.extension ≠ [] → p.parts.fileRoot ≠ []) ∧
      (['.'] ∉ Text.pieces '/' p.text → ['.', '.'] ∉ Text.pieces '/' p.text →
        p.isAbsolute = true ∨ Text.filled p.text ≠ [] →
        (ofText p.parts.toText).parts = p.parts ∧ p.parts.toText = Text.tidied p.text) := by
  refine ⟨Parts.ofText_eq_ofCuts p.text, ?_, Parts.dirs_append_base p.text, p.extension_cases,
    Parts.fileRoot_ne_nil_of_extension, ?_⟩
  · exact decide_eq_true_iff.trans List.head?_eq_some_iff
  · intro hhere hup hfilled
    rw [isAbsolute_eq, decide_eq_true_iff] at hfilled
    have htext := Parts.toText_ofText_of_plain hhere hup
    rw [parts_ofText, parts, htext]
    exact ⟨Parts.ofText_render_filled hfilled, (Text.tidied_eq_render hfilled).symm⟩

/-- The last dot begins an extension, although nothing stands behind it. -/
theorem env_lossless :
    (ofString "//srv///.env.local.//").parts =
        ⟨true, ["srv".toList], ".env.local".toList, ".".toList⟩ ∧
      (ofString "//srv///.env.local.//").parts.fileRoot ≠ [] ∧
      (ofString "/srv/.env.local.").parts = (ofString "//srv///.env.local.//").parts ∧
      Text.tidied "//srv///.env.local.//".toList = "/srv/.env.local.".toList := by
  have hwritten : (ofString "//srv///.env.local.//").parts.toText = "/srv/.env.local.".toList := by
    decide
  obtain ⟨-, -, -, -, hroot, hback⟩ := parts_lossless (ofString "//srv///.env.local.//")
  obtain ⟨hparts, htidied⟩ := hback (by decide) (by decide) (.inl rfl)
  rw [hwritten] at hparts htidied
  exact ⟨by decide, hroot (by decide), hparts, htidied.symm⟩

end Path

end Relayout
