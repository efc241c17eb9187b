import Relayout.Proofs.Path.Parts

/-!
# Absolute paths in normal form

An absolute path in normal form is a list of plain names. The names determine the components and
the parts of the path, and a list of pieces without `..` resolves to the names in it.
-/

namespace Relayout

namespace Lexical

variable {rooted : Bool} {stack pieces : List Text} {piece : Text}

theorem resolve_of_not_mem_up (h : ['.', '.'] ∉ pieces) :
    resolve rooted pieces = pieces.filter fun p => p ≠ [] ∧ p ≠ ['.'] := by
  have hfold : ∀ stack : List Text, pieces.foldl (push rooted) stack =
      (pieces.filter fun p => p ≠ [] ∧ p ≠ ['.']).reverse ++ stack := by
    induction pieces with
    | nil => exact fun stack => rfl
    | cons p pieces ih =>
      intro stack
      rw [List.mem_cons, not_or] at h
      rw [List.foldl_cons, ih h.2]
      by_cases hidle : p = [] ∨ p = ['.']
      · rw [push_idle hidle, List.filter_cons_of_neg (by simpa [or_iff_not_imp_left] using hidle)]
      · rw [push_kept hidle (Ne.symm h.1), List.filter_cons_of_pos (by simpa [not_or] using hidle)]
        simp
  rw [resolve, hfold]
  simp

theorem resolve_names {names : List Text} (h : ∀ n ∈ names, n.IsName) :
    resolve rooted names = names := by
  rw [resolve_of_not_mem_up fun hup => (h _ hup).not_up rfl, List.filter_eq_self]
  intro n hn
  exact decide_eq_true ⟨(h n hn).nonempty, (h n hn).not_here⟩

/-- Plain names with a `.` here and there are joined without the `.`s. -/
theorem join_harmless {dirs extra : List Text} {base : Text} (hd : ∀ d ∈ dirs, d.IsName)
    (he : ∀ e ∈ extra, e.IsName ∨ e = ['.']) (hb : base.IsName) :
    ∃ below : List Text, below ≠ [] ∧ (∀ n ∈ dirs ++ below, n.IsName) ∧
      join true (dirs ++ extra) base = render true (dirs ++ below) := by
  have hharmless : ∀ p ∈ dirs ++ extra ++ [base], p.IsName ∨ p = ['.'] := by
    intro p hp
    rcases List.mem_append.mp hp with hp | hp
    · rcases List.mem_append.mp hp with hp | hp
      · exact .inl (hd p hp)
      · exact he p hp
    · rw [List.mem_singleton.mp hp]
      exact .inl hb
  have hsep : ∀ p ∈ dirs ++ extra ++ [base], '/' ∉ p := by
    intro p hp
    rcases hharmless p hp with hname | rfl
    · exact hname.unseparated
    · decide
  have hup : ['.', '.'] ∉ dirs ++ extra ++ [base] := by
    intro hm
    rcases hharmless _ hm with hname | hhere
    · exact hname.not_up rfl
    · exact absurd hhere (by decide)
  have hname : ∀ p : Text, p.IsName → p ≠ [] ∧ p ≠ ['.'] := fun p h => ⟨h.nonempty, h.not_here⟩
  have hdirs : dirs.filter (fun p => p ≠ [] ∧ p ≠ ['.']) = dirs :=
    List.filter_eq_self.mpr fun d hm => decide_eq_true (hname d (hd d hm))
  refine ⟨(extra ++ [base]).filter fun p => p ≠ [] ∧ p ≠ ['.'], ?_, ?_, ?_⟩
  · exact List.ne_nil_of_mem (List.mem_filter.mpr
      ⟨List.mem_append_right extra (List.mem_singleton_self base), decide_eq_true (hname base hb)⟩)
  · intro n hn
    rw [← hdirs, ← List.filter_append, ← List.append_assoc, List.mem_filter] at hn
    rcases hharmless n hn.1 with h | h
    · exact h
    · exact absurd h (of_decide_eq_true hn.2).2
  · rw [join_eq (fun d hm => hsep d (List.mem_append_left _ hm))
        (hsep base (List.mem_append_right _ (List.mem_singleton_self base))),
      resolve_of_not_mem_up hup, List.append_assoc, List.filter_append, hdirs]

end Lexical

/-- Bytes that stand for themselves wherever they are read. -/
structure Bytes.IsName (b : Bytes) : Prop where
  nonempty : b ≠ []
  unseparated : Path.slash ∉ b
  not_here : b ≠ [Path.dot]
  not_up : b ≠ [Path.dot, Path.dot]

instance (b : Bytes) : Decidable b.IsName :=
  decidable_of_iff
    (b ≠ [] ∧ Path.slash ∉ b ∧ b ≠ [Path.dot] ∧ b ≠ [Path.dot, Path.dot])
    ⟨fun ⟨h₁, h₂, h₃, h₄⟩ => ⟨h₁, h₂, h₃, h₄⟩, fun ⟨h₁, h₂, h₃, h₄⟩ => ⟨h₁, h₂, h₃, h₄⟩⟩

theorem Text.isName_ofUtf8_iff {b : Bytes} : (ofUtf8 b).IsName ↔ b.IsName := by
  have hsep : '/' ∈ ofUtf8 b ↔ Path.slash ∈ b := mem_ofUtf8_iff (by decide)
  have hhere : ofUtf8 b = ['.'] ↔ b = [Path.dot] := ofUtf8_eq_iff (by decide)
  have hup : ofUtf8 b = ['.', '.'] ↔ b = [Path.dot, Path.dot] := ofUtf8_eq_iff (by decide)
  constructor
  · rintro ⟨h₁, h₂, h₃, h₄⟩
    exact ⟨mt ofUtf8_eq_nil_iff.mpr h₁, mt hsep.mpr h₂, mt hhere.mpr h₃, mt hup.mpr h₄⟩
  · rintro ⟨h₁, h₂, h₃, h₄⟩
    exact ⟨mt ofUtf8_eq_nil_iff.mp h₁, mt hsep.mp h₂, mt hhere.mp h₃, mt hup.mp h₄⟩

theorem Text.isName_toUtf8_iff {t : Text} : Bytes.IsName t.toUtf8 ↔ t.IsName := by
  rw [← isName_ofUtf8_iff, ofUtf8_toUtf8]

namespace Path

def ofNames (names : List Text) : Path := ofText (Lexical.render true names)

variable {names : List Text}

theorem text_ofNames (names : List Text) : (ofNames names).text = Lexical.render true names :=
  text_ofText _

theorem ofText_text_ofNames (names : List Text) : ofText (ofNames names).text = ofNames names := by
  rw [text_ofNames, ofNames]

theorem isAbsolute_ofNames (names : List Text) : (ofNames names).isAbsolute := by
  rw [isAbsolute_eq, text_ofNames]
  rfl

theorem Component.ofPiece?_kept {n : Bytes} (hidle : ¬ (n = [] ∨ n = [dot]))
    (hup : n ≠ [dot, dot]) : ofPiece? n = some (.name n) := by
  unfold ofPiece?
  split
  · exact absurd (.inl rfl) hidle
  · exact absurd (.inr rfl) hidle
  · exact absurd rfl hup
  · rfl

theorem Component.ofPiece?_of_isName {n : Bytes} (h : n.IsName) : ofPiece? n = some (.name n) :=
  ofPiece?_kept (by simp [h.nonempty, h.not_here]) h.not_up

theorem components_ofNames (h : ∀ n ∈ names, n.IsName) :
    (ofNames names).components = .root :: names.map fun n => .name n.toUtf8 := by
  by_cases hnil : names = []
  · subst hnil
    rfl
  have hpieces :
      Text.pieces slash (ofText (Text.joined '/' names)).bytes = names.map Text.toUtf8 := by
    rw [pieces_bytes_ofText, Text.pieces_joined (fun n hn => (h n hn).unseparated) hnil]
  have hkept : (names.map Text.toUtf8).filterMap Component.ofPiece? =
      names.map fun n => .name n.toUtf8 := by
    rw [List.filterMap_map, ← List.filterMap_eq_map]
    apply List.filterMap_congr
    intro n hn
    exact Component.ofPiece?_of_isName (Text.isName_toUtf8_iff.mpr (h n hn))
  calc
    (ofNames names).components =
        .root :: (Text.pieces slash (ofText (Text.joined '/' names)).bytes).filterMap
          Component.ofPiece? := rfl
    _ = .root :: names.map fun n => .name n.toUtf8 := by rw [hpieces, hkept]

theorem name_mem_components_ofNames_iff (h : ∀ n ∈ names, n.IsName) {n : Text} :
    .name n.toUtf8 ∈ (ofNames names).components ↔ n ∈ names := by
  rw [components_ofNames h, List.mem_cons, List.mem_map]
  constructor
  · rintro (hroot | ⟨m, hm, heq⟩)
    · cases hroot
    · rwa [← Text.toUtf8_injective (Component.name.inj heq)]
  · exact fun hn => .inr ⟨n, hn, rfl⟩

theorem parts_ofNames (h : ∀ n ∈ names, n.IsName) :
    (ofNames names).parts =
      { rooted := true, dirs := names.dropLast,
        fileRoot := (Parts.cutExtension (names.getLast?.getD [])).1,
        extension := (Parts.cutExtension (names.getLast?.getD [])).2 } := by
  rw [ofNames, parts_ofText]
  exact @Parts.ofText_render true names (fun n hn => (h n hn).nonempty)
    fun n hn => (h n hn).unseparated

theorem normalize_ofNames (h : ∀ n ∈ names, n.IsName) :
    (ofNames names).normalize = ofNames names := by
  have hpieces : (ofNames names).components.map Component.text = [] :: names := by
    rw [components_ofNames h, List.map_cons, List.map_map]
    refine congrArg ([] :: ·) ((List.map_congr_left fun n _ => ?_).trans (List.map_id names))
    exact Text.ofUtf8_toUtf8 n
  have hresolved : (ofNames names).resolved = names := by
    rw [resolved, hpieces]
    exact Lexical.resolve_names h
  rw [normalize_eq, hresolved]
  rfl

theorem exists_ofNames {p : Path} (ha : p.isAbsolute) (hn : p.normalize = p) :
    ∃ names : List Text, (∀ n ∈ names, n.IsName) ∧ p = ofNames names := by
  refine ⟨p.resolved, ?_, ?_⟩
  · rw [resolved, ha, resolve_components]
    exact Lexical.isName_of_mem_resolve fun piece h => Text.not_mem_of_mem_pieces h
  · rw [ofNames, ← ha, ← normalize_eq, hn]

end Path

end Relayout
