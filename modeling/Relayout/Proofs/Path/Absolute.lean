import Relayout.Proofs.Path.Below
import Relayout.Proofs.Path.Canonical

/-!
# Paths made absolute

An entry is read behind its directory, however the text of the directory ends. So a path resolves to
the same whether it is first made absolute, entry by entry and with each `..` left in, or is written
behind the working directory as it is. Entries with plain names keep a normal form normal.
-/

namespace Relayout

namespace Path

variable {p dir workingDirectory : Path}

theorem bytes_ne_nil_of_isAbsolute (h : p.isAbsolute) : p.bytes ≠ [] := by
  intro ht
  rw [isAbsolute_eq_bytes, ht] at h
  cases h

theorem normalize_entry (h : dir.bytes ≠ []) (b : Bytes) :
    (dir.entry b).normalize = (Path.mk (dir.bytes ++ slash :: b)).normalize := by
  unfold entry
  split
  next hend =>
    obtain ⟨s, hs⟩ := List.getLast?_eq_some_iff.mp (hend.resolve_left h)
    have habsolute : (Path.mk (dir.bytes ++ b)).isAbsolute =
        (Path.mk (dir.bytes ++ slash :: b)).isAbsolute := by
      rw [isAbsolute_eq_bytes, isAbsolute_eq_bytes, List.head?_append_of_ne_nil _ h,
        List.head?_append_of_ne_nil _ h]
    refine normalize_eq_iff.mpr ⟨habsolute, ?_⟩
    have hdir : dir.text = Text.ofUtf8 s ++ ['/'] := by
      rw [text, hs]
      exact text_append ⟨s⟩ []
    have hkept : (Path.mk (dir.bytes ++ b)).text = Text.ofUtf8 s ++ '/' :: Text.ofUtf8 b := by
      rw [hs, ← List.append_cons]
      exact text_append ⟨s⟩ b
    rw [resolved_eq, resolved_eq, habsolute, hkept, text_append, hdir, Text.pieces_append_cons,
      Text.pieces_append_cons, Text.pieces_append_cons, Lexical.resolve_append,
      List.append_assoc, Lexical.resolve_append, List.foldl_append, Text.pieces, List.foldl_cons,
      Lexical.push_idle (.inl rfl), List.foldl_nil]
  next => rfl

theorem resolved_entry (h : dir.isAbsolute) (b : Bytes) :
    (dir.entry b).isAbsolute ∧ (dir.entry b).resolved =
      ((Text.pieces '/' (Text.ofUtf8 b)).foldl (Lexical.push true)
        dir.resolved.reverse).reverse := by
  have hne := bytes_ne_nil_of_isAbsolute h
  obtain ⟨habsolute, hresolved⟩ := normalize_eq_iff.mp (normalize_entry hne b)
  rw [isAbsolute_append hne] at habsolute
  rw [resolved_append hne, h] at hresolved
  exact ⟨habsolute.trans h, hresolved⟩

theorem resolved_foldl_entry {names : List Bytes} (h : dir.isAbsolute)
    (hnames : ∀ n ∈ names, slash ∉ n) :
    (names.foldl entry dir).isAbsolute ∧ (names.foldl entry dir).resolved =
      ((names.map Text.ofUtf8).foldl (Lexical.push true) dir.resolved.reverse).reverse := by
  induction names generalizing dir with
  | nil => exact ⟨h, dir.resolved.reverse_reverse.symm⟩
  | cons n names ih =>
    obtain ⟨hn, hrest⟩ := List.forall_mem_cons.mp hnames
    obtain ⟨habsolute, hresolved⟩ := resolved_entry h n
    obtain ⟨hentries, hread⟩ := ih habsolute hrest
    have hsep : '/' ∉ Text.ofUtf8 n := (Text.mem_ofUtf8_iff (by decide)).not.mpr hn
    rw [hresolved, Text.pieces_of_not_mem hsep, List.reverse_reverse] at hread
    exact ⟨hentries, hread⟩

theorem resolved_start (h : p.isAbsolute) (workingDirectory : Path) :
    (p.start workingDirectory).isAbsolute ∧ (p.start workingDirectory).resolved = [] := by
  unfold start
  rw [if_pos h]
  split <;> decide

theorem foldl_push_busy {rooted : Bool} {stack : List Text} (pieces : List Bytes) :
    ((pieces.filter (!isIdle ·)).map Text.ofUtf8).foldl (Lexical.push rooted) stack =
      (pieces.map Text.ofUtf8).foldl (Lexical.push rooted) stack := by
  rw [← Component.foldl_push_filterMap, ← Component.foldl_push_filterMap, List.filterMap_filter]
  refine congrArg (List.foldl _ _ <| List.map _ ·) (List.filterMap_congr fun n _ => ?_)
  cases h : Component.ofPiece? n <;> simp [isIdle, h]

theorem resolved_absolute (h : (p.start workingDirectory).isAbsolute) :
    (p.absolute workingDirectory).isAbsolute ∧ (p.absolute workingDirectory).resolved =
      ((Text.pieces '/' p.text).foldl (Lexical.push true)
        (p.start workingDirectory).resolved.reverse).reverse := by
  have hcut : ∀ piece ∈ p.cut.2.filter (!isIdle ·), slash ∉ piece :=
    fun piece hpiece => not_mem_of_mem_cut (List.mem_of_mem_filter hpiece)
  obtain ⟨habsolute, hresolved⟩ := resolved_foldl_entry h hcut
  rw [foldl_push_busy, foldl_push_cut] at hresolved
  unfold absolute
  dsimp only
  split
  · -- behind a separator at the end there is only a piece that stands for nothing
    obtain ⟨hend, hread⟩ := resolved_entry habsolute []
    refine ⟨hend, hread.trans ?_⟩
    rw [← hresolved]
    exact List.reverse_reverse _
  · exact ⟨habsolute, hresolved⟩

/-- Making a path absolute first makes no difference to what it is normalized to. -/
theorem normalize_absolute (h : p.isAbsolute ∨ workingDirectory.isAbsolute) :
    (p.absolute workingDirectory).isAbsolute ∧ (p.absolute workingDirectory).normalize =
      (if p.isAbsolute then p else ⟨workingDirectory.bytes ++ slash :: p.bytes⟩).normalize := by
  by_cases hp : p.isAbsolute
  · obtain ⟨hstart, hnone⟩ := resolved_start hp workingDirectory
    obtain ⟨habsolute, hresolved⟩ := resolved_absolute hstart
    refine ⟨habsolute, ?_⟩
    rw [if_pos hp, normalize_eq_iff, habsolute, hp, hresolved, hnone, resolved_eq, hp]
    exact ⟨rfl, rfl⟩
  · have hstart : p.start workingDirectory = workingDirectory := if_neg hp
    have hdir := h.resolve_left hp
    have hne := bytes_ne_nil_of_isAbsolute hdir
    obtain ⟨habsolute, hresolved⟩ := resolved_absolute (hstart ▸ hdir)
    refine ⟨habsolute, ?_⟩
    rw [if_neg hp, normalize_eq_iff, habsolute, hresolved, isAbsolute_append hne,
      resolved_append hne, hdir, hstart]
    exact ⟨rfl, rfl⟩

example : ((ofString "//a/.././b/").absolute (ofString "/home")) =
    ofString "//a/../b/" := by
  decide

/-! ## Entries below a root -/

/-- The path that names lead to from the root. -/
def rooted (names : List Bytes) : Path := ⟨slash :: Text.joined slash names⟩

variable {names more : List Bytes}

theorem ofNames_eq_rooted (names : List Text) : ofNames names = rooted (names.map Text.toUtf8) := by
  have hroot : (ofNames names).bytes = slash :: (ofText (Text.joined '/' names)).bytes :=
    @Text.toUtf8_cons_ascii '/' (by decide) _
  rw [rooted, ← bytes_ofText_joined, ← hroot]

theorem replaced_rooted (names : List Bytes) :
    (rooted names).replaced = ofNames (names.map Text.ofUtf8) := by
  have htext : (rooted names).text = '/' :: Text.joined '/' (names.map Text.ofUtf8) := by
    rw [← @Text.ofUtf8_joined '/' (by decide)]
    exact @Text.ofUtf8_cons_ascii '/' (by decide) _
  rw [replaced, htext]
  rfl

theorem normalize_rooted (h : ∀ n ∈ names, n.IsName) :
    (rooted names).normalize = (rooted names).replaced := by
  rw [← normalize_replaced, replaced_rooted]
  exact normalize_ofNames <|
    List.forall_mem_map.mpr fun n hn => Text.isName_ofUtf8_iff.mpr (h n hn)

theorem entry_rooted (h : ∀ n ∈ names, n.IsName) (name : Bytes) :
    (rooted names).entry name = rooted (names ++ [name]) := by
  by_cases hnil : names = []
  · subst hnil
    rfl
  have hpieces : Text.pieces slash (rooted names).bytes = [] :: names := by
    rw [rooted, Text.pieces, if_pos rfl,
      Text.pieces_joined (fun n hn => (h n hn).unseparated) hnil]
  have hend : (rooted names).bytes.getLast? ≠ some slash := by
    intro hend
    have hlast := Text.getLast?_pieces hend
    rw [hpieces, List.getLast?_cons_of_ne_nil hnil] at hlast
    exact (h [] (List.mem_of_getLast? hlast)).nonempty rfl
  have hne : (rooted names).bytes ≠ [] := List.cons_ne_nil _ _
  rw [entry, if_neg (not_or.mpr ⟨hne, hend⟩), rooted, rooted, Text.joined_concat hnil]
  rfl

theorem foldl_entry_rooted (h : ∀ n ∈ names, n.IsName) (hmore : ∀ n ∈ more, n.IsName) :
    more.foldl entry (rooted names) = rooted (names ++ more) := by
  induction more generalizing names with
  | nil => rw [List.append_nil, List.foldl_nil]
  | cons n more ih =>
    obtain ⟨hn, hrest⟩ := List.forall_mem_cons.mp hmore
    have hnames : ∀ m ∈ names ++ [n], m.IsName :=
      List.forall_mem_append.mpr ⟨h, List.forall_mem_singleton.mpr hn⟩
    rw [List.foldl_cons, entry_rooted h, ih hnames hrest, List.append_assoc]
    rfl

theorem isText_rooted_iff (names : List Bytes) :
    (rooted names).IsText ↔ ∀ n ∈ names, (Text.ofUtf8? n).isSome := by
  have hroot : (rooted names).IsText ↔ (Text.ofUtf8? []).isSome ∧
      (Text.ofUtf8? (Text.joined slash names)).isSome :=
    @Text.isSome_ofUtf8?_append_ascii '/' [] _ (by decide)
  have hempty : (Text.ofUtf8? []).isSome := rfl
  rw [hroot, and_iff_right hempty]
  exact @Text.isSome_ofUtf8?_joined_iff '/' (by decide) names

/-- Below an absolute path in normal form, names lead to paths whose normal form has nothing but
their strays replaced. -/
theorem normalize_foldl_entry (ha : dir.isAbsolute) (hn : dir.normalize = dir)
    (h : ∀ n ∈ names, n.IsName) :
    (names.foldl entry dir).normalize = (names.foldl entry dir).replaced ∧
      ((names.foldl entry dir).IsText ↔ ∀ n ∈ names, (Text.ofUtf8? n).isSome) := by
  obtain ⟨above, habove, rfl⟩ := exists_ofNames ha hn
  have hbytes : ∀ n ∈ above.map Text.toUtf8, n.IsName :=
    List.forall_mem_map.mpr fun n hn => Text.isName_toUtf8_iff.mpr (habove n hn)
  have hall := List.forall_mem_append.mpr ⟨hbytes, h⟩
  have htext : ∀ n ∈ above.map Text.toUtf8, (Text.ofUtf8? n).isSome :=
    List.forall_mem_map.mpr fun n _ => Text.isSome_ofUtf8?_toUtf8 n
  rw [ofNames_eq_rooted, foldl_entry_rooted hbytes h, isText_rooted_iff, List.forall_mem_append]
  exact ⟨normalize_rooted hall, and_iff_right htext⟩

end Path

end Relayout
