import Relayout.Proofs.Path.Canonical

/-!
# Entries of directories

The entry of a directory has one component more than the directory, however the bytes of the
directory begin and end. So the names that lead from a directory to a place are determined by the
place.
-/

namespace Relayout.Path

variable {s n : Bytes} {dir : Path} {names more : List Bytes}

theorem components_append (hne : s ≠ []) (t : Bytes) :
    (Path.mk (s ++ slash :: t)).components =
      (Path.mk s).components ++ (Text.pieces slash t).filterMap Component.ofPiece? := by
  by_cases hhere : (Text.pieces slash s).head? = some [dot]
  · obtain ⟨rest, hpieces⟩ := List.head?_eq_some_iff.mp hhere
    rcases Text.eq_or_cons_of_pieces (by decide) hpieces with rfl | ⟨s, rfl⟩
    · rfl
    · have hcut : (Path.mk (dot :: slash :: (s ++ slash :: t))).components =
          .here :: ([] :: Text.pieces slash (s ++ slash :: t)).filterMap Component.ofPiece? := rfl
      rw [List.cons_append, List.cons_append, hcut, Text.pieces_append_cons, ← List.cons_append,
        List.filterMap_append]
      rfl
  · have hfirst : (Text.pieces slash (s ++ slash :: t)).head? ≠ some [dot] := by
      rwa [Text.pieces_append_cons, List.head?_append_of_ne_nil _ (Text.pieces_ne_nil slash s)]
    rw [components_of_pieces (List.append_ne_nil_of_left_ne_nil hne _) hfirst,
      components_of_pieces hne hhere, isAbsolute_append hne, Text.pieces_append_cons,
      List.filterMap_append, List.append_assoc]

theorem components_isName (h : n.IsName) : (Path.mk n).components = [.name n] := by
  have hpieces := Text.pieces_of_not_mem h.unseparated
  have habsolute : (Path.mk n).isAbsolute = false := by
    rw [isAbsolute_eq_bytes, decide_eq_false_iff_not]
    intro hhead
    exact h.unseparated (List.mem_of_head? hhead)
  rw [components_of_pieces h.nonempty (by simpa [hpieces] using h.not_here), habsolute, hpieces]
  simp [Component.ofPiece?_of_isName h]

theorem components_entry (dir : Path) (h : n.IsName) :
    (dir.entry n).components = dir.components ++ [.name n] := by
  have hpieces : (Text.pieces slash n).filterMap Component.ofPiece? = [.name n] := by
    simp [Text.pieces_of_not_mem h.unseparated, Component.ofPiece?_of_isName h]
  obtain ⟨s⟩ := dir
  by_cases hnil : s = []
  · subst hnil
    exact components_isName h
  by_cases hend : s.getLast? = some slash
  · obtain ⟨s, rfl⟩ := List.getLast?_eq_some_iff.mp hend
    rw [entry, if_pos (.inr hend)]
    by_cases hroot : s = []
    · subst hroot
      change .root :: (Text.pieces slash n).filterMap Component.ofPiece? = _
      rw [hpieces]
      rfl
    · -- the slash at the end stands for nothing
      have hdir : (Path.mk (s ++ [slash])).components = (Path.mk s).components :=
        (components_append hroot []).trans (List.append_nil _)
      rw [hdir, ← hpieces, ← components_append hroot, ← List.append_cons]
  · rw [entry, if_neg (not_or.mpr ⟨hnil, hend⟩), components_append hnil, hpieces]

theorem components_foldl_entry (dir : Path) (h : ∀ n ∈ names, n.IsName) :
    (names.foldl entry dir).components = dir.components ++ names.map .name := by
  induction names generalizing dir with
  | nil => simp
  | cons n names ih =>
    obtain ⟨hn, hnames⟩ := List.forall_mem_cons.mp h
    rw [List.foldl_cons, ih (dir.entry n) hnames, components_entry dir hn, List.append_assoc]
    rfl

/-- Different names lead to different places. -/
theorem same_foldl_entry_iff (dir : Path) (h : ∀ n ∈ names, n.IsName)
    (hmore : ∀ n ∈ more, n.IsName) :
    (names.foldl entry dir).Same (more.foldl entry dir) ↔ names = more := by
  rw [Same, components_foldl_entry dir h, components_foldl_entry dir hmore,
    List.append_cancel_left_eq, List.map_inj_right fun _ _ => Component.name.inj]

end Relayout.Path
