import Mathlib.Data.List.Basic
import Mathlib.Data.List.TakeDrop
import Relayout.Proofs.Text.Utf8

/-!
# Pieces and what they are joined to

Cutting at a separator undoes joining with it, as long as the pieces themselves hold none. Bytes may
be cut at the byte of an ASCII character before or after they are read.
-/

namespace Relayout.Text

variable {α : Type} [DecidableEq α] {sep c : α} {s p : List α} {ps rest : List (List α)}

theorem pieces_eq_splitOn (sep : α) (s : List α) : pieces sep s = s.splitOn sep := by
  induction s with
  | nil => rfl
  | cons c s ih =>
    obtain ⟨p, ps, h⟩ := List.exists_cons_of_ne_nil (pieces_ne_nil sep s)
    rw [List.splitOn_cons_eq_if_modifyHead, ← ih, pieces, h]
    by_cases hc : c = sep
    · simp [hc]
    · simp [hc]

omit [DecidableEq α] in
theorem joined_eq_intercalate (sep : α) (ps : List (List α)) :
    joined sep ps = [sep].intercalate ps := by
  induction ps with
  | nil => rfl
  | cons p ps ih =>
    cases ps with
    | nil => simp [joined]
    | cons q qs => simp [joined, ih, List.intercalate, List.intersperse]

theorem pieces_of_not_mem (h : sep ∉ s) : pieces sep s = [s] := by
  rw [pieces_eq_splitOn, List.splitOn_eq_singleton h]

theorem pieces_joined (h : ∀ p ∈ ps, sep ∉ p) (hne : ps ≠ []) :
    pieces sep (joined sep ps) = ps := by
  rw [pieces_eq_splitOn, joined_eq_intercalate, List.splitOn_intercalate sep h hne]

theorem pieces_append_cons (sep : α) (s t : List α) :
    pieces sep (s ++ sep :: t) = pieces sep s ++ pieces sep t := by
  rw [pieces_eq_splitOn, pieces_eq_splitOn, pieces_eq_splitOn, List.splitOn_append_cons_self]

omit [DecidableEq α] in
theorem joined_concat (hne : ps ≠ []) (p : List α) :
    joined sep (ps ++ [p]) = joined sep ps ++ sep :: p := by
  induction ps with
  | nil => exact absurd rfl hne
  | cons q ps ih =>
    cases ps with
    | nil => rfl
    | cons r ps => simpa [joined] using ih (List.cons_ne_nil r ps)

theorem not_mem_of_mem_pieces (h : p ∈ pieces sep s) : sep ∉ p := by
  induction s generalizing p with
  | nil =>
    rw [pieces, List.mem_singleton] at h
    rw [h]
    exact List.not_mem_nil
  | cons c s ih =>
    obtain ⟨q, qs, hs⟩ := List.exists_cons_of_ne_nil (pieces_ne_nil sep s)
    rw [pieces, hs] at h
    rw [hs] at ih
    split at h
    · rcases List.mem_cons.mp h with rfl | h
      · exact List.not_mem_nil
      · exact ih h
    next hc =>
      rcases List.mem_cons.mp h with rfl | h
      · rw [List.mem_cons, not_or]
        exact ⟨Ne.symm hc, ih List.mem_cons_self⟩
      · exact ih (List.mem_cons_of_mem q h)

theorem getLast?_pieces (h : s.getLast? = some sep) : (pieces sep s).getLast? = some [] := by
  obtain ⟨t, rfl⟩ := List.getLast?_eq_some_iff.mp h
  rw [pieces_append_cons]
  exact List.getLast?_concat

theorem eq_nil_or_cons_of_pieces (h : pieces sep s = [] :: rest) :
    s = [] ∨ ∃ t, s = sep :: t := by
  cases s with
  | nil => exact .inl rfl
  | cons c s =>
    unfold pieces at h
    split at h
    next hc => exact .inr ⟨s, by rw [hc]⟩
    next hc => split at h <;> cases h

theorem eq_or_cons_of_pieces (hne : c ≠ sep) (h : pieces sep s = [c] :: rest) :
    s = [c] ∨ ∃ t, s = c :: sep :: t := by
  cases s with
  | nil => cases h
  | cons d s =>
    unfold pieces at h
    split at h
    · cases h
    next hd =>
      obtain ⟨piece, more, hs⟩ := List.exists_cons_of_ne_nil (pieces_ne_nil sep s)
      rw [hs] at h
      obtain ⟨hpiece, -⟩ := List.cons.inj h
      obtain ⟨rfl, rfl⟩ := List.cons.inj hpiece
      rcases eq_nil_or_cons_of_pieces hs with rfl | ⟨t, rfl⟩
      · exact .inl rfl
      · exact .inr ⟨t, rfl⟩

/-! ## Pieces that are read or written -/

variable {β : Type} [DecidableEq β] {mark : β} {f : List α → List β}

omit [DecidableEq α] [DecidableEq β] in
theorem joined_map (hnil : f [] = []) (happend : ∀ s t, f (s ++ sep :: t) = f s ++ mark :: f t)
    (ps : List (List α)) : f (joined sep ps) = joined mark (ps.map f) := by
  induction ps with
  | nil => exact hnil
  | cons p ps ih =>
    cases ps with
    | nil => rfl
    | cons q ps =>
      rw [joined, happend, ih]
      rfl

/-- What keeps separators and brings in none may be done before or after cutting at them. -/
theorem pieces_map (hnil : f [] = []) (happend : ∀ s t, f (s ++ sep :: t) = f s ++ mark :: f t)
    (hkept : ∀ s, sep ∉ s → mark ∉ f s) (s : List α) :
    pieces mark (f s) = (pieces sep s).map f := by
  have hjoined := joined_map hnil happend (pieces sep s)
  rw [joined_pieces] at hjoined
  rw [hjoined, pieces_joined _ (by simpa using pieces_ne_nil sep s)]
  intro p hp
  obtain ⟨q, hq, rfl⟩ := List.mem_map.mp hp
  exact hkept q (not_mem_of_mem_pieces hq)

variable {a : Char}

theorem toUtf8_append_ascii (ha : a.toNat < 128) (s t : Text) :
    toUtf8 (s ++ a :: t) = s.toUtf8 ++ a.toUInt8 :: t.toUtf8 := by
  rw [toUtf8_append, toUtf8_cons_ascii (utf8Size_ascii ha)]

theorem mem_toUtf8_iff (ha : a.toNat < 128) {t : Text} : a.toUInt8 ∈ t.toUtf8 ↔ a ∈ t := by
  rw [← mem_ofUtf8_iff ha, ofUtf8_toUtf8]

theorem toUtf8_joined (ha : a.toNat < 128) (ts : List Text) :
    toUtf8 (joined a ts) = joined a.toUInt8 (ts.map toUtf8) :=
  joined_map rfl (toUtf8_append_ascii ha) ts

theorem ofUtf8_joined (ha : a.toNat < 128) (ps : List Bytes) :
    ofUtf8 (joined a.toUInt8 ps) = joined a (ps.map ofUtf8) :=
  joined_map rfl (ofUtf8_append_ascii ha) ps

theorem isSome_ofUtf8?_joined_iff (ha : a.toNat < 128) (ps : List Bytes) :
    (ofUtf8? (joined a.toUInt8 ps)).isSome ↔ ∀ p ∈ ps, (ofUtf8? p).isSome := by
  induction ps with
  | nil => exact iff_of_true rfl nofun
  | cons p ps ih =>
    cases ps with
    | nil => simp [joined]
    | cons q ps =>
      rw [joined, isSome_ofUtf8?_append_ascii ha, ih]
      simp only [List.forall_mem_cons]

theorem pieces_toUtf8 (ha : a.toNat < 128) (t : Text) :
    pieces a.toUInt8 t.toUtf8 = (pieces a t).map toUtf8 :=
  pieces_map rfl (toUtf8_append_ascii ha) (fun _ h => (mem_toUtf8_iff ha).not.mpr h) t

theorem pieces_ofUtf8 (ha : a.toNat < 128) (bytes : Bytes) :
    pieces a (ofUtf8 bytes) = (pieces a.toUInt8 bytes).map ofUtf8 :=
  pieces_map rfl (ofUtf8_append_ascii ha) (fun _ h => (mem_ofUtf8_iff ha).not.mpr h) bytes

end Relayout.Text
