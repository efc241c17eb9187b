import Mathlib.Data.List.Infix
import Relayout.Proofs.Path.Ancestors

/-!
# What is left below a root

The remainder of a path below a root is cut out of the bytes of the path. There is one exactly where
the components of the path begin with those of the root, and read again it has the components that
come after them.
-/

namespace Relayout.Path

variable {root p rest : Path} {cs : List Component} {pieces left : List Bytes}

/-! ## Reading components off -/

theorem after_eq_some (h : after cs pieces = some left) :
    left <:+ pieces ∧
      pieces.filterMap Component.ofPiece? = cs ++ left.filterMap Component.ofPiece? := by
  induction cs, pieces using after.induct with
  | case1 pieces =>
    rw [after, Option.some.injEq] at h
    exact ⟨h ▸ List.suffix_rfl, h ▸ rfl⟩
  | case2 c cs => cases h
  | case3 c cs piece pieces hpiece ih =>
    simp only [after, hpiece] at h
    obtain ⟨hsuffix, hcomponents⟩ := ih h
    refine ⟨hsuffix.trans (List.suffix_cons piece pieces), ?_⟩
    rw [List.filterMap_cons_none hpiece, hcomponents]
  | case4 cs piece pieces c hpiece ih =>
    simp only [after, hpiece, if_pos] at h
    obtain ⟨hsuffix, hcomponents⟩ := ih h
    refine ⟨hsuffix.trans (List.suffix_cons piece pieces), ?_⟩
    rw [List.filterMap_cons_some hpiece, hcomponents, List.cons_append]
  | case5 c cs piece pieces d hpiece hne =>
    simp only [after, hpiece, if_neg hne] at h
    cases h

theorem exists_after_iff :
    (∃ left, after cs pieces = some left) ↔ cs <+: pieces.filterMap Component.ofPiece? := by
  constructor
  · rintro ⟨left, h⟩
    exact ⟨_, (after_eq_some h).2.symm⟩
  · intro h
    induction cs, pieces using after.induct with
    | case1 pieces => exact ⟨pieces, by rw [after]⟩
    | case2 c cs => simp at h
    | case3 c cs piece pieces hpiece ih =>
      simp only [after, hpiece]
      rw [List.filterMap_cons_none hpiece] at h
      exact ih h
    | case4 cs piece pieces c hpiece ih =>
      simp only [after, hpiece, if_pos]
      rw [List.filterMap_cons_some hpiece, List.cons_prefix_cons] at h
      exact ih h.2
    | case5 c cs piece pieces d hpiece hne =>
      rw [List.filterMap_cons_some hpiece, List.cons_prefix_cons] at h
      exact absurd h.1.symm hne

/-! ## Cutting the remainder -/

theorem not_mem_of_mem_cut {piece : Bytes} (h : piece ∈ p.cut.2) : slash ∉ piece := by
  rcases p.cut_cases with ⟨s, -, hcut⟩ | ⟨-, hcut⟩ | ⟨s, -, hcut⟩ | ⟨-, -, -, hcut⟩
  all_goals rw [hcut] at h
  · exact Text.not_mem_of_mem_pieces h
  · cases h
  · rcases List.mem_cons.mp h with rfl | h
    · exact List.not_mem_nil
    · exact Text.not_mem_of_mem_pieces h
  · exact Text.not_mem_of_mem_pieces h

theorem readable_trimStart (h : ∀ piece ∈ left, slash ∉ piece) :
    Readable .relative (trimEnd (trimStart left)) := by
  refine .prefix_closed ⟨?_, ?_⟩ (trimEnd_prefix_self (trimStart left))
  · exact fun piece hm => h piece ((List.dropWhile_suffix _).subset hm)
  · intro piece hm
    have hbusy : isIdle piece = false := not_isIdle_of_head?_dropWhile piece hm
    constructor
    · rintro rfl
      cases hbusy
    · rintro rfl
      cases hbusy

theorem components_remainder (h : left <:+ p.cut.2) :
    (ofCut .relative (trimEnd (trimStart left))).components =
      left.filterMap Component.ofPiece? := by
  have hread := readable_trimStart fun piece hm => not_mem_of_mem_cut (h.subset hm)
  rw [components_ofCut hread, filterMap_trimEnd, trimStart, filterMap_dropWhile_isIdle]
  rfl

theorem exists_below?_iff :
    (∃ rest, root.below? p = some rest) ↔ root.components <+: p.components := by
  unfold below?
  by_cases hnil : root.components = []
  · simp [hnil]
  rw [if_neg hnil]
  by_cases hhead : root.cut.1 = p.cut.1
  · rw [if_pos hhead, components, components, hhead, List.prefix_append_right_inj,
      ← exists_after_iff]
    simp
  · rw [if_neg hhead]
    exact iff_of_false (by simp) fun hprefix =>
      hhead (cut_fst_eq_of_prefix_of_ne_nil hprefix hnil)

/-- Read again, what is left has the components after those of the root. -/
theorem components_below? (h : root.below? p = some rest) :
    p.components = root.components ++ rest.components := by
  unfold below? at h
  split at h
  next hnil =>
    obtain rfl := Option.some.inj h
    rw [hnil, components_ofCut (readable_trimEnd_cut p), components_eq_trimEnd, List.nil_append]
  next =>
    split at h
    next hhead =>
      obtain ⟨left, hleft, rfl⟩ := Option.map_eq_some_iff.mp h
      obtain ⟨hsuffix, hcomponents⟩ := after_eq_some hleft
      rw [components_remainder hsuffix, components, components, hhead, hcomponents,
        List.append_assoc]
    next => cases h

end Relayout.Path
