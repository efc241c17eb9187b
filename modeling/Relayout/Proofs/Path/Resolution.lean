import Relayout.Path.Order
import Relayout.Proofs.Path.Text

/-!
# Resolution depends on the place alone

A path is resolved by taking its text apart and putting the parts together again. That amounts to
reading its components onto one stack, so two texts that name the same place resolve to one text.
-/

namespace Relayout

namespace Lexical

variable {rooted : Bool} {stack : List Text} {piece : Text}

theorem push_idle (h : piece = [] ∨ piece = ['.']) : push rooted stack piece = stack := by
  unfold push
  exact if_pos h

/-- Pieces that stand for nothing may be left out or put in. -/
theorem foldl_push_filter (keeps : Text → Bool) (pieces : List Text)
    (h : ∀ piece, keeps piece = false → piece = [] ∨ piece = ['.']) :
    (pieces.filter keeps).foldl (push rooted) stack = pieces.foldl (push rooted) stack := by
  induction pieces generalizing stack with
  | nil => rfl
  | cons piece pieces ih =>
    cases hk : keeps piece with
    | true => rw [List.filter_cons_of_pos hk, List.foldl_cons, List.foldl_cons, ih]
    | false =>
      rw [List.filter_cons_of_neg (by simp [hk]), List.foldl_cons, push_idle (h piece hk), ih]

theorem join_eq {dirs : List Text} {base : Text} (hd : ∀ d ∈ dirs, '/' ∉ d) (hb : '/' ∉ base) :
    join rooted dirs base = render rooted (resolve rooted (dirs ++ [base])) := by
  have hdirs : dirs.flatMap (Text.pieces '/') = dirs := by
    rw [List.flatMap_congr fun d hm => Text.pieces_of_not_mem (hd d hm), List.flatMap_singleton']
  rw [join, hdirs, Text.pieces_of_not_mem hb]

end Lexical

namespace Parts

theorem cutExtension_append (base : Text) :
    (cutExtension base).1 ++ (cutExtension base).2 = base := by
  unfold cutExtension
  split
  next extension c root h =>
    split
    · exact List.append_nil base
    · -- the reversed base is the reversed extension, a dot and the reversed root
      rw [List.span_eq_takeWhile_dropWhile, Prod.mk.injEq] at h
      have hrev : base.reverse = extension ++ '.' :: c :: root := by
        rw [← h.1, ← h.2, List.takeWhile_append_dropWhile]
      rw [← List.reverse_reverse base, hrev]
      simp
  · exact List.append_nil base

theorem cutExtension_fst_ne_nil {base : Text} (h : base ≠ []) : (cutExtension base).1 ≠ [] := by
  unfold cutExtension
  split
  · split
    · exact h
    · simp
  · exact h

/-- Taking a text apart and putting it together again resolves its pieces. -/
theorem toText_ofText (t : Text) :
    (ofText t).toText =
      Lexical.render (t.head? = some '/')
        (Lexical.resolve (t.head? = some '/') (Text.pieces '/' t)) := by
  have hkeep : ∀ piece : Text, decide (piece ≠ []) = false → piece = [] ∨ piece = ['.'] := by
    intro piece h
    exact .inl (by simpa using h)
  have hplain : ∀ name ∈ (Text.pieces '/' t).filter (· ≠ []), '/' ∉ name := by
    intro name h
    exact Text.not_mem_of_mem_pieces (List.mem_filter.mp h).1
  have hfilter :=
    @Lexical.foldl_push_filter (t.head? = some '/') [] (· ≠ []) (Text.pieces '/' t) hkeep
  rw [toText, ofText, base, cutExtension_append, Lexical.resolve, ← hfilter]
  generalize (Text.pieces '/' t).filter (· ≠ []) = names at hplain ⊢
  cases h : names.getLast? with
  | none =>
    rw [List.getLast?_eq_none_iff] at h
    simp [h, Lexical.join, Lexical.resolve, Text.pieces, Lexical.push_idle]
  | some last =>
    obtain ⟨dirs, rfl⟩ := List.getLast?_eq_some_iff.mp h
    have hdirs : ∀ d ∈ dirs, '/' ∉ d := fun d hd => hplain d (List.mem_append_left _ hd)
    have hlast : '/' ∉ last :=
      hplain last (List.mem_append_right _ (List.mem_singleton_self last))
    rw [List.dropLast_concat, Option.getD_some, Lexical.join_eq hdirs hlast, Lexical.resolve]

end Parts

namespace Path

namespace Component

/-- How a component is read as a piece of a text. The root is what stands before the first
separator. -/
def text : Component → Text
  | root => []
  | here => ['.']
  | up => ['.', '.']
  | name n => Text.ofUtf8 n

theorem text_of_ofPiece? {n : Bytes} {c : Component} (h : ofPiece? n = some c) :
    c.text = Text.ofUtf8 n := by
  unfold ofPiece? at h
  split at h <;> cases h <;> rfl

theorem idle_of_ofPiece? {n : Bytes} (h : ofPiece? n = none) : n = [] ∨ n = [dot] := by
  unfold ofPiece? at h
  split at h
  · exact .inl rfl
  · exact .inr rfl
  · cases h
  · cases h

theorem push_idle {rooted : Bool} {stack : List Text} {n : Bytes} (h : n = [] ∨ n = [dot]) :
    Lexical.push rooted stack (Text.ofUtf8 n) = stack := by
  apply Lexical.push_idle
  rcases h with rfl | rfl
  · exact .inl rfl
  · exact .inr rfl

theorem foldl_push_filterMap {rooted : Bool} {stack : List Text} (pieces : List Bytes) :
    ((pieces.filterMap ofPiece?).map text).foldl (Lexical.push rooted) stack =
      (pieces.map Text.ofUtf8).foldl (Lexical.push rooted) stack := by
  induction pieces generalizing stack with
  | nil => rfl
  | cons n pieces ih =>
    cases h : ofPiece? n with
    | none =>
      rw [List.filterMap_cons_none h, List.map_cons, List.foldl_cons,
        push_idle (idle_of_ofPiece? h), ih]
    | some c =>
      rw [List.filterMap_cons_some h, List.map_cons, List.map_cons, List.foldl_cons,
        List.foldl_cons, text_of_ofPiece? h, ih]

end Component

/-- How a path is cut, by the bytes that it begins with. -/
theorem cut_cases (p : Path) :
    (∃ s, p.bytes = slash :: s ∧ p.cut = (.root, Text.pieces slash s)) ∨
      (p.bytes = [dot] ∧ p.cut = (.here, [])) ∨
      (∃ s, p.bytes = dot :: slash :: s ∧ p.cut = (.here, [] :: Text.pieces slash s)) ∨
      (∀ s, p.bytes ≠ slash :: s) ∧ p.bytes ≠ [dot] ∧ (∀ s, p.bytes ≠ dot :: slash :: s) ∧
        p.cut = (.relative, Text.pieces slash p.bytes) := by
  unfold cut
  split
  · exact .inl ⟨_, rfl, rfl⟩
  · exact .inr (.inl ⟨rfl, rfl⟩)
  · exact .inr (.inr (.inl ⟨_, rfl, rfl⟩))
  next hroot hhere hbelow =>
    exact .inr (.inr (.inr ⟨hroot, hhere, hbelow, rfl⟩))

theorem isAbsolute_eq_bytes (p : Path) : p.isAbsolute = decide (p.bytes.head? = some slash) := by
  rw [isAbsolute]
  rcases p.cut_cases with ⟨s, hp, hcut⟩ | ⟨hp, hcut⟩ | ⟨s, hp, hcut⟩ | ⟨hroot, -, -, hcut⟩
  · rw [hp, hcut]
    rfl
  · rw [hp, hcut]
    rfl
  · rw [hp, hcut]
    rfl
  · rw [hcut, decide_eq_decide, List.head?_eq_some_iff]
    exact iff_of_false nofun fun ⟨s, hs⟩ => hroot s hs

theorem isAbsolute_eq (p : Path) : p.isAbsolute = decide (p.text.head? = some '/') := by
  rw [isAbsolute_eq_bytes, decide_eq_decide, head?_text_iff]

/-- The head that a first component belongs to. -/
def Head.ofFirst : Option Component → Head
  | some .root => root
  | some .here => here
  | _ => relative

theorem Head.ofFirst_of_ofPiece? {n : Bytes} {c : Component} (h : Component.ofPiece? n = some c) :
    ofFirst (some c) = relative := by
  unfold Component.ofPiece? at h
  split at h <;> cases h <;> rfl

theorem cut_fst_eq (p : Path) : p.cut.1 = Head.ofFirst p.components.head? := by
  unfold components
  cases p.cut.1 with
  | root => rfl
  | here => rfl
  | relative =>
    rw [Head.components, List.nil_append]
    cases hfirst : (p.cut.2.filterMap Component.ofPiece?).head? with
    | none => rfl
    | some c =>
      obtain ⟨n, -, hn⟩ := List.mem_filterMap.mp (List.mem_of_head? hfirst)
      exact (Head.ofFirst_of_ofPiece? hn).symm

theorem isAbsolute_iff (p : Path) : p.isAbsolute = true ↔ p.components.head? = some .root := by
  rw [isAbsolute, decide_eq_true_iff, cut_fst_eq]
  unfold Head.ofFirst
  split
  next hroot => exact iff_of_true rfl hroot
  next hhere => simp [hhere]
  next hroot _ => exact iff_of_false nofun hroot

def resolved (p : Path) : List Text :=
  Lexical.resolve p.isAbsolute (p.components.map Component.text)

/-- What cutting leaves out of a path stands for nothing. -/
theorem foldl_push_cut (p : Path) {rooted : Bool} {stack : List Text} :
    (p.cut.2.map Text.ofUtf8).foldl (Lexical.push rooted) stack =
      (Text.pieces '/' p.text).foldl (Lexical.push rooted) stack := by
  have hidle : Lexical.push rooted stack (Text.ofUtf8 []) = stack :=
    Component.push_idle (.inl rfl)
  have hhere : Lexical.push rooted stack (Text.ofUtf8 [dot]) = stack :=
    Component.push_idle (.inr rfl)
  rw [pieces_text]
  rcases p.cut_cases with ⟨s, hp, hcut⟩ | ⟨hp, hcut⟩ | ⟨s, hp, hcut⟩ | ⟨-, -, -, hcut⟩
  · simp [hp, hcut, Text.pieces, hidle]
  · rw [hp, hcut]
    exact hhere.symm
  · have hpieces : Text.pieces slash p.bytes = [dot] :: Text.pieces slash s := by
      rw [hp]
      rfl
    simp [hpieces, hcut, hidle, hhere]
  · rw [hcut]

theorem resolve_components (p : Path) (rooted : Bool) :
    Lexical.resolve rooted (p.components.map Component.text) =
      Lexical.resolve rooted (Text.pieces '/' p.text) := by
  have hhead : (p.cut.1.components.map Component.text).foldl (Lexical.push rooted) [] = [] := by
    cases p.cut.1 <;> rfl
  rw [components, Lexical.resolve, List.map_append, List.foldl_append, hhead,
    Component.foldl_push_filterMap, foldl_push_cut, Lexical.resolve]

theorem normalize_eq (p : Path) :
    p.normalize = ofText (Lexical.render p.isAbsolute p.resolved) := by
  rw [normalize, parts, Parts.toText_ofText, resolved, resolve_components, isAbsolute_eq]

theorem Same.refl (p : Path) : p.Same p := rfl

theorem Same.normalize_eq {p q : Path} (h : p.Same q) : p.normalize = q.normalize := by
  have hroot : p.isAbsolute = q.isAbsolute := by
    rw [Bool.eq_iff_iff, isAbsolute_iff, isAbsolute_iff, h]
  rw [Path.normalize_eq, Path.normalize_eq, resolved, resolved, hroot, h]

end Path

end Relayout
