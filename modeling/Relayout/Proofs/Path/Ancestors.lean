import Mathlib.Data.List.Infix
import Mathlib.Data.List.TakeWhile
import Relayout.Proofs.Path.Resolution

/-!
# The paths that a path lies in

The outer paths are cut out of the bytes of a path. Read again, they have the shorter
prefixes of its components, the empty one only where the path is not absolute. So what a path lies
in depends on its place alone.
-/

namespace Relayout

namespace Path

/-- Whether a first piece behind a head is read as such again. -/
def Head.Admits : Head → Bytes → Prop
  | relative, piece => piece ≠ [] ∧ piece ≠ [dot]
  | here, piece => piece = []
  | root, _ => True

/-- Pieces that are read again as they are where they stand behind a head. -/
structure Readable (head : Head) (pieces : List Bytes) : Prop where
  unseparated : ∀ piece ∈ pieces, slash ∉ piece
  first : ∀ piece ∈ pieces.head?, head.Admits piece

variable {head : Head} {pieces qs : List Bytes} {p q a b : Path} {cs : List Component}

theorem Readable.prefix_closed (h : Readable head pieces) (hq : qs <+: pieces) :
    Readable head qs := by
  refine ⟨fun piece hp => h.unseparated piece (hq.subset hp), ?_⟩
  intro piece hp
  obtain ⟨rest, rfl⟩ := List.head?_eq_some_iff.mp hp
  obtain ⟨more, rfl⟩ := hq
  exact h.first piece rfl

theorem cut_relative {bytes : Bytes}
    (h : ∀ piece ∈ (Text.pieces slash bytes).head?, piece ≠ [] ∧ piece ≠ [dot]) :
    cut ⟨bytes⟩ = (.relative, Text.pieces slash bytes) := by
  rcases cut_cases ⟨bytes⟩ with ⟨s, rfl, -⟩ | ⟨rfl, -⟩ | ⟨s, rfl, -⟩ | ⟨-, -, -, hcut⟩
  · exact absurd rfl (h [] (by simp [Text.pieces])).1
  · exact absurd rfl (h [dot] rfl).2
  · exact absurd rfl (h [dot] rfl).2
  · exact hcut

/-- Pieces behind a head are read as the components they stand for. -/
theorem components_ofCut (h : Readable head pieces) :
    (ofCut head pieces).components = head.components ++ pieces.filterMap Component.ofPiece? := by
  by_cases hnil : pieces = []
  · subst hnil
    cases head <;> rfl
  have hpieces := Text.pieces_joined h.unseparated hnil
  cases head with
  | root =>
    change [Component.root] ++ (Text.pieces slash (Text.joined slash pieces)).filterMap _ = _
    rw [hpieces]
    rfl
  | relative =>
    have hcut : cut ⟨Text.joined slash pieces⟩ =
        (.relative, Text.pieces slash (Text.joined slash pieces)) := by
      apply cut_relative
      rw [hpieces]
      exact h.first
    change (cut ⟨Text.joined slash pieces⟩).1.components ++
      (cut ⟨Text.joined slash pieces⟩).2.filterMap _ = _
    rw [hcut, hpieces]
  | here =>
    obtain ⟨first, rest, rfl⟩ := List.exists_cons_of_ne_nil hnil
    obtain rfl : first = [] := h.first first rfl
    cases rest with
    | nil => rfl
    | cons piece rest =>
      have hrest : Text.pieces slash (Text.joined slash (piece :: rest)) = piece :: rest :=
        Text.pieces_joined (fun t ht => h.unseparated t (.tail [] ht)) (List.cons_ne_nil piece rest)
      change [Component.here] ++
        ([] :: Text.pieces slash (Text.joined slash (piece :: rest))).filterMap _ = _
      rw [hrest]
      rfl

theorem trimEnd_prefix_self (pieces : List Bytes) : trimEnd pieces <+: pieces := by
  rw [trimEnd, ← List.reverse_suffix, List.reverse_reverse]
  exact List.dropWhile_suffix _

theorem readable_pieces {bytes : Bytes} (hne : bytes ≠ []) (hroot : ∀ s, bytes ≠ slash :: s)
    (hhere : bytes ≠ [dot]) (hbelow : ∀ s, bytes ≠ dot :: slash :: s) :
    Readable .relative (Text.pieces slash bytes) := by
  refine ⟨fun _ hp => Text.not_mem_of_mem_pieces hp, ?_⟩
  intro piece hp
  obtain ⟨rest, hpieces⟩ := List.head?_eq_some_iff.mp hp
  constructor
  · rintro rfl
    rcases Text.eq_nil_or_cons_of_pieces hpieces with heq | ⟨s, heq⟩
    · exact hne heq
    · exact hroot s heq
  · rintro rfl
    rcases Text.eq_or_cons_of_pieces (by decide) hpieces with heq | ⟨s, heq⟩
    · exact hhere heq
    · exact hbelow s heq

/-- The pieces of a path can be read again, but for those at the end that stand for nothing. -/
theorem readable_trimEnd_cut (p : Path) : Readable p.cut.1 (trimEnd p.cut.2) := by
  have hnil : ∀ head, Readable head [] := fun head => ⟨nofun, nofun⟩
  rcases p.cut_cases with ⟨s, -, hcut⟩ | ⟨-, hcut⟩ | ⟨s, -, hcut⟩ | ⟨hroot, hhere, hbelow, hcut⟩
  all_goals rw [hcut]
  · exact .prefix_closed ⟨fun _ hp => Text.not_mem_of_mem_pieces hp, fun _ _ => trivial⟩
      (trimEnd_prefix_self (Text.pieces slash s))
  · exact hnil .here
  · refine .prefix_closed ⟨?_, ?_⟩ (trimEnd_prefix_self ([] :: Text.pieces slash s))
    · intro piece hp
      rcases List.mem_cons.mp hp with rfl | hp
      · exact List.not_mem_nil
      · exact Text.not_mem_of_mem_pieces hp
    · intro piece hp
      exact (Option.some.inj hp).symm
  · by_cases hne : p.bytes = []
    · rw [hne]
      exact hnil .relative
    · exact (readable_pieces hne hroot hhere hbelow).prefix_closed (trimEnd_prefix_self _)

theorem filterMap_dropWhile_isIdle (pieces : List Bytes) :
    (pieces.dropWhile isIdle).filterMap Component.ofPiece? =
      pieces.filterMap Component.ofPiece? := by
  induction pieces with
  | nil => rfl
  | cons piece pieces ih =>
    cases h : Component.ofPiece? piece with
    | none => rw [List.dropWhile_cons_of_pos (by simp [isIdle, h]), ih, List.filterMap_cons_none h]
    | some c => rw [List.dropWhile_cons_of_neg (by simp [isIdle, h])]

theorem filterMap_trimEnd (pieces : List Bytes) :
    (trimEnd pieces).filterMap Component.ofPiece? = pieces.filterMap Component.ofPiece? := by
  rw [trimEnd, List.filterMap_reverse, filterMap_dropWhile_isIdle, List.filterMap_reverse,
    List.reverse_reverse]

theorem not_isIdle_of_head?_dropWhile :
    ∀ piece ∈ (pieces.dropWhile isIdle).head?, isIdle piece = false := by
  intro piece hpiece
  have hdropped := List.head?_dropWhile_not isIdle pieces
  rw [Option.mem_def.mp hpiece] at hdropped
  simpa using hdropped

/-- The nearest path above pieces given in reverse has all but the last of their components. -/
theorem above_cons {piece : Bytes} (hread : Readable head (piece :: pieces).reverse)
    (hpiece : isIdle piece = false) :
    ∃ nearest c, above head (piece :: pieces) = nearest :: above head (pieces.dropWhile isIdle) ∧
      nearest.components = head.components ++
        (pieces.dropWhile isIdle).reverse.filterMap Component.ofPiece? ∧
      head.components ++ (piece :: pieces).reverse.filterMap Component.ofPiece? =
        nearest.components ++ [c] := by
  obtain ⟨c, hc⟩ : ∃ c, Component.ofPiece? piece = some c := by
    rwa [isIdle, Option.isNone_eq_false_iff, Option.isSome_iff_exists] at hpiece
  have htrim : trimEnd pieces.reverse = (pieces.dropWhile isIdle).reverse := by
    rw [trimEnd, List.reverse_reverse]
  have hinitial : trimEnd pieces.reverse <+: (piece :: pieces).reverse := by
    rw [List.reverse_cons]
    exact (trimEnd_prefix_self _).trans (List.prefix_append _ _)
  have hnearest := components_ofCut (hread.prefix_closed hinitial)
  refine ⟨ofCut head (trimEnd pieces.reverse), c, by rw [above], by rw [hnearest, htrim], ?_⟩
  rw [hnearest, filterMap_trimEnd, List.reverse_cons, List.filterMap_append, List.append_assoc]
  simp [hc]

/-- The components of the paths above pieces are the shorter prefixes of those of the pieces. -/
theorem exists_mem_above_iff (hread : Readable head pieces.reverse)
    (hlast : ∀ piece ∈ pieces.head?, isIdle piece = false) :
    (∃ a ∈ above head pieces, a.components = cs) ↔
      cs <+: head.components ++ pieces.reverse.filterMap Component.ofPiece? ∧
      cs ≠ head.components ++ pieces.reverse.filterMap Component.ofPiece? ∧
      (cs = [] → head ≠ .root) := by
  induction pieces using above.induct head with
  | case1 hhead =>
    subst hhead
    simp [above, Head.components]
  | case2 hhead =>
    subst hhead
    have hone : cs <+: [Component.here] ↔ cs = [.here] ∨ cs = [] := by
      rw [← List.nil_append [Component.here], List.prefix_concat_iff, List.prefix_nil]
    have hempty : (⟨[]⟩ : Path).components = [] := rfl
    simp only [above, List.mem_singleton, exists_eq_left, hempty, Head.components,
      List.reverse_nil, List.filterMap_nil, List.append_nil, hone]
    constructor
    · rintro rfl
      exact ⟨.inr rfl, (List.cons_ne_nil _ _).symm, fun _ h => Head.noConfusion h⟩
    · rintro ⟨heq | heq, hne, -⟩
      · exact absurd heq hne
      · exact heq.symm
  | case3 hhead =>
    subst hhead
    have hone : cs <+: [Component.root] ↔ cs = [.root] ∨ cs = [] := by
      rw [← List.nil_append [Component.root], List.prefix_concat_iff, List.prefix_nil]
    simp only [above, List.not_mem_nil, false_and, exists_false, Head.components,
      List.reverse_nil, List.filterMap_nil, List.append_nil, hone, false_iff]
    rintro ⟨heq | heq, hne, hroot⟩
    · exact hne heq
    · exact hroot heq rfl
  | case4 piece rest ih =>
    obtain ⟨nearest, c, habove, hnearest, hfull⟩ := above_cons hread (hlast piece rfl)
    have hinitial : (rest.dropWhile isIdle).reverse <+: (piece :: rest).reverse :=
      List.reverse_prefix.mpr ((List.dropWhile_suffix _).trans (List.suffix_cons piece rest))
    have hrest := ih (hread.prefix_closed hinitial) not_isIdle_of_head?_dropWhile
    have hshorter : ∀ cs, cs <+: nearest.components → cs ≠ nearest.components ++ [c] := by
      rintro cs hcs rfl
      have hlength := hcs.length_le
      rw [List.length_append, List.length_singleton] at hlength
      omega
    rw [← hnearest] at hrest
    rw [habove, hfull, List.prefix_concat_iff]
    constructor
    · rintro ⟨a, ha, rfl⟩
      rcases List.mem_cons.mp ha with rfl | ha
      · refine ⟨.inr List.prefix_rfl, hshorter _ List.prefix_rfl, ?_⟩
        rintro hnil rfl
        rw [hnearest] at hnil
        exact List.cons_ne_nil _ _ hnil
      · obtain ⟨hcs, -, hroot⟩ := hrest.mp ⟨a, ha, rfl⟩
        exact ⟨.inr hcs, hshorter _ hcs, hroot⟩
    · rintro ⟨heq | hcs, hne, hroot⟩
      · exact absurd heq hne
      · by_cases heq : cs = nearest.components
        · exact ⟨nearest, .head _, heq.symm⟩
        · obtain ⟨a, ha, hcomponents⟩ := hrest.mpr ⟨hcs, heq, hroot⟩
          exact ⟨a, .tail nearest ha, hcomponents⟩

/-! ## Lying in another path -/

/-- Whether a path lies in another one, which need not be written as the outer path is. -/
def LiesIn (p a : Path) : Prop := ∃ b ∈ p.outer, b.Same a

instance (p a : Path) : Decidable (p.LiesIn a) :=
  inferInstanceAs (Decidable (∃ b ∈ p.outer, b.Same a))

theorem components_eq_trimEnd (p : Path) :
    p.components =
      p.cut.1.components ++ (trimEnd p.cut.2).filterMap Component.ofPiece? := by
  rw [filterMap_trimEnd, components]

theorem exists_mem_outer_iff :
    (∃ a ∈ p.outer, a.components = cs) ↔
      cs <+: p.components ∧ cs ≠ p.components ∧ (cs = [] → p.isAbsolute = false) := by
  have habove := @exists_mem_above_iff p.cut.1 (p.cut.2.reverse.dropWhile isIdle) cs
    (readable_trimEnd_cut p) not_isIdle_of_head?_dropWhile
  rw [outer, habove, isAbsolute, decide_eq_false_iff_not, components_eq_trimEnd, trimEnd]

theorem liesIn_iff :
    p.LiesIn a ↔ a.components <+: p.components ∧ a.components ≠ p.components ∧
      (a.components = [] → p.isAbsolute = false) :=
  exists_mem_outer_iff

theorem Same.isAbsolute_eq (h : p.Same q) : p.isAbsolute = q.isAbsolute := by
  rw [Bool.eq_iff_iff, isAbsolute_iff, isAbsolute_iff, h]

theorem LiesIn.congr (hp : p.Same q) (ha : a.Same b) : p.LiesIn a ↔ q.LiesIn b := by
  rw [liesIn_iff, liesIn_iff, hp.isAbsolute_eq, hp, ha]

theorem LiesIn.not_same (h : p.LiesIn a) : ¬ a.Same p := (liesIn_iff.mp h).2.1

theorem cut_fst_eq_of_prefix_of_ne_nil (h : a.components <+: p.components)
    (hne : a.components ≠ []) : a.cut.1 = p.cut.1 := by
  obtain ⟨c, rest, hc⟩ := List.exists_cons_of_ne_nil hne
  obtain ⟨more, hmore⟩ := h
  rw [cut_fst_eq, cut_fst_eq, ← hmore, hc]
  rfl

theorem isAbsolute_eq_of_prefix_of_ne_nil (h : a.components <+: p.components)
    (hne : a.components ≠ []) : a.isAbsolute = p.isAbsolute := by
  rw [isAbsolute, isAbsolute, cut_fst_eq_of_prefix_of_ne_nil h hne]

theorem LiesIn.trans (h : p.LiesIn a) (h' : a.LiesIn b) : p.LiesIn b := by
  obtain ⟨hap, hane, -⟩ := liesIn_iff.mp h
  obtain ⟨hba, hbne, hroot⟩ := liesIn_iff.mp h'
  refine liesIn_iff.mpr ⟨hba.trans hap, ?_, ?_⟩
  · intro heq
    rw [heq] at hba
    exact hane (hap.eq_of_length_le hba.length_le)
  · intro hnil
    have hne : a.components ≠ [] := fun h => hbne (hnil.trans h.symm)
    rw [← isAbsolute_eq_of_prefix_of_ne_nil hap hne]
    exact hroot hnil

theorem liesIn_parent? (h : p.parent? = some a) : p.LiesIn a :=
  ⟨a, List.mem_of_head? h, rfl⟩

theorem not_liesIn_of_parent?_eq_none (h : p.parent? = none) : ¬ p.LiesIn a := by
  rintro ⟨b, hb, -⟩
  rw [List.head?_eq_none_iff.mp h] at hb
  cases hb

theorem components_parent? (h : p.parent? = some a) : ∃ c, p.components = a.components ++ [c] := by
  have hread := readable_trimEnd_cut p
  have hlast := @not_isIdle_of_head?_dropWhile p.cut.2.reverse
  rw [components_eq_trimEnd]
  rw [parent?, outer] at h
  rw [trimEnd] at hread ⊢
  generalize p.cut.1 = head at *
  generalize p.cut.2.reverse.dropWhile isIdle = pieces at *
  cases pieces with
  | nil =>
    cases head with
    | relative => simp [above] at h
    | root => simp [above] at h
    | here =>
      obtain rfl : ⟨[]⟩ = a := by simpa [above] using h
      exact ⟨.here, rfl⟩
  | cons piece pieces =>
    obtain ⟨nearest, c, habove, -, hfull⟩ := above_cons hread (hlast piece rfl)
    rw [habove] at h
    obtain rfl : nearest = a := Option.some.inj h
    exact ⟨c, hfull⟩

/-- What a path lies in is its parent and what this lies in. -/
theorem liesIn_iff_parent? (h : p.parent? = some a) : p.LiesIn b ↔ a.Same b ∨ a.LiesIn b := by
  obtain ⟨c, hc⟩ := components_parent? h
  constructor
  · intro hb
    obtain ⟨hinitial, hne, hroot⟩ := liesIn_iff.mp hb
    rw [hc, List.prefix_concat_iff, ← hc] at hinitial
    have hinitial := hinitial.resolve_left hne
    by_cases hsame : a.Same b
    · exact .inl hsame
    · refine .inr (liesIn_iff.mpr ⟨hinitial, fun heq => hsame heq.symm, ?_⟩)
      intro hnil
      have hane : a.components ≠ [] := fun h => hsame (h.trans hnil.symm)
      rw [isAbsolute_eq_of_prefix_of_ne_nil (liesIn_iff.mp (liesIn_parent? h)).1 hane]
      exact hroot hnil
  · rintro (hsame | hb)
    · exact (LiesIn.congr (.refl p) hsame).mp (liesIn_parent? h)
    · exact (liesIn_parent? h).trans hb

theorem components_of_parent?_eq_none (h : p.parent? = none) :
    p.components = [] ∨ p.components = [.root] := by
  rcases List.eq_nil_or_concat p.components with hnil | ⟨cs, c, hc⟩
  · exact .inl hnil
  rw [List.concat_eq_append] at hc
  by_contra hcomponents
  -- Otherwise a path lies above that has all but the last component.
  have hinitial : cs <+: p.components ∧ cs ≠ p.components ∧ (cs = [] → p.isAbsolute = false) := by
    refine ⟨hc ▸ List.prefix_append cs [c], by simp [hc], ?_⟩
    rintro rfl
    rw [Bool.eq_false_iff, ne_eq, isAbsolute_iff, hc]
    intro hroot
    obtain rfl : c = .root := Option.some.inj hroot
    exact hcomponents (.inr hc)
  obtain ⟨a, ha, -⟩ := exists_mem_outer_iff.mpr hinitial
  exact not_liesIn_of_parent?_eq_none h ⟨a, ha, .refl a⟩

theorem isEmpty_iff : p.isEmpty ↔ p.components = [] := by
  rw [isEmpty, decide_eq_true_iff]
  constructor
  · obtain ⟨bytes⟩ := p
    rintro rfl
    rfl
  · intro h
    by_contra hne
    rw [components] at h
    rcases p.cut_cases with ⟨s, -, hcut⟩ | ⟨-, hcut⟩ | ⟨s, -, hcut⟩ | ⟨hroot, hhere, hbelow, hcut⟩
    all_goals rw [hcut] at h
    · cases h
    · cases h
    · cases h
    · have hfirst := (readable_pieces hne hroot hhere hbelow).first
      obtain ⟨first, rest, hpieces⟩ := List.exists_cons_of_ne_nil (Text.pieces_ne_nil slash p.bytes)
      obtain ⟨hnil, hdot⟩ := hfirst first (by rw [hpieces]; rfl)
      have hkept := (List.filterMap_eq_nil_iff.mp h) first (by simp [hpieces])
      exact (Component.idle_of_ofPiece? hkept).elim hnil hdot

theorem Same.isEmpty_iff (h : p.Same q) : p.isEmpty ↔ q.isEmpty := by
  rw [Path.isEmpty_iff, Path.isEmpty_iff, h]

theorem LiesIn.not_isEmpty (h : p.LiesIn a) : ¬ p.isEmpty := by
  obtain ⟨hinitial, hne, -⟩ := liesIn_iff.mp h
  rw [isEmpty_iff]
  intro hnil
  rw [hnil, List.prefix_nil] at hinitial
  exact hne (hinitial.trans hnil.symm)

/-- The empty path comes last among the paths above others. -/
theorem mem_takeWhile_above (hread : Readable head pieces.reverse)
    (hlast : ∀ piece ∈ pieces.head?, isIdle piece = false) (ha : a ∈ above head pieces)
    (hne : a.bytes ≠ []) : a ∈ (above head pieces).takeWhile (·.bytes ≠ []) := by
  induction pieces using above.induct head with
  | case1 hhead =>
    subst hhead
    simp [above] at ha
  | case2 hhead =>
    subst hhead
    obtain rfl : a = ⟨[]⟩ := by simpa [above] using ha
    exact absurd rfl hne
  | case3 hhead =>
    subst hhead
    simp [above] at ha
  | case4 piece rest ih =>
    obtain ⟨nearest, c, habove, hnearest, -⟩ := above_cons hread (hlast piece rfl)
    have hinitial : (rest.dropWhile isIdle).reverse <+: (piece :: rest).reverse :=
      List.reverse_prefix.mpr ((List.dropWhile_suffix _).trans (List.suffix_cons piece rest))
    have hrest := hread.prefix_closed hinitial
    rw [habove] at ha ⊢
    rcases List.mem_cons.mp ha with rfl | ha
    · rw [List.takeWhile_cons_of_pos (by simpa using hne)]
      exact .head _
    · have hshorter := (exists_mem_above_iff hrest not_isIdle_of_head?_dropWhile).mp ⟨a, ha, rfl⟩
      have hfilled : nearest.bytes ≠ [] := by
        intro hnil
        have hempty : nearest.components = [] := by
          obtain ⟨bytes⟩ := nearest
          obtain rfl : bytes = [] := hnil
          rfl
        rw [← hnearest, hempty, List.prefix_nil] at hshorter
        exact hshorter.2.1 hshorter.1
      rw [List.takeWhile_cons_of_pos (by simpa using hfilled)]
      exact .tail nearest (ih hrest not_isIdle_of_head?_dropWhile ha)

/-- The places of a path and of those it lies in, but for the empty one. -/
theorem exists_mem_takeWhile_ancestors_iff :
    (∃ b ∈ p.ancestors.takeWhile (·.bytes ≠ []), b.Same a) ↔
      (p.Same a ∨ p.LiesIn a) ∧ ¬ a.isEmpty := by
  have hempty : ∀ b : Path, ¬ b.isEmpty ↔ b.bytes ≠ [] := by simp [isEmpty]
  rw [ancestors]
  constructor
  · rintro ⟨b, hb, hsame⟩
    have hne : b.bytes ≠ [] := by simpa using List.mem_takeWhile_imp hb
    refine ⟨?_, hsame.isEmpty_iff.not.mp ((hempty b).mpr hne)⟩
    rcases List.mem_cons.mp ((List.takeWhile_prefix _).subset hb) with rfl | hb
    · exact .inl hsame
    · exact .inr ⟨b, hb, hsame⟩
  · rintro ⟨hsame | hlies, ha⟩
    · have hp : p.bytes ≠ [] := (hempty p).mp (hsame.isEmpty_iff.not.mpr ha)
      refine ⟨p, ?_, hsame⟩
      rw [List.takeWhile_cons_of_pos (by simpa using hp)]
      exact .head _
    · have hp : p.bytes ≠ [] := (hempty p).mp hlies.not_isEmpty
      obtain ⟨b, hb, hsame⟩ := hlies
      have hne : b.bytes ≠ [] := (hempty b).mp (hsame.isEmpty_iff.not.mpr ha)
      refine ⟨b, ?_, hsame⟩
      rw [List.takeWhile_cons_of_pos (by simpa using hp)]
      exact .tail p (mem_takeWhile_above (readable_trimEnd_cut p) not_isIdle_of_head?_dropWhile hb
        hne)

end Path

end Relayout
