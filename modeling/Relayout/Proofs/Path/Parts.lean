import Mathlib.Data.List.TakeWhile
import Relayout.Proofs.Path.NormalForm

/-!
# Parts read back from a text

A base name is cut in front of its last dot, so the extension is found again behind another file
root without a dot. The text of resolved pieces gives its last piece as the base name and the others
as directories.
-/

namespace Relayout

/-- The pieces of a text that are not empty. -/
def Text.filled (t : Text) : List Text := (pieces '/' t).filter (· ≠ [])

theorem Text.filled_joined {ps : List Text} (hne : ∀ p ∈ ps, p ≠ [])
    (hsep : ∀ p ∈ ps, '/' ∉ p) : filled (joined '/' ps) = ps := by
  by_cases hnil : ps = []
  · subst hnil
    rfl
  · rw [filled, pieces_joined hsep hnil, List.filter_eq_self]
    intro p hp
    simpa using hne p hp

theorem Lexical.decide_head?_render {rooted : Bool} {pieces : List Text}
    (hne : ∀ piece ∈ pieces, piece ≠ []) (hsep : ∀ piece ∈ pieces, '/' ∉ piece) :
    decide ((render rooted pieces).head? = some '/') = rooted := by
  cases rooted with
  | true => rfl
  | false =>
    cases pieces with
    | nil => rfl
    | cons piece pieces =>
      obtain ⟨c, rest, rfl⟩ := List.exists_cons_of_ne_nil (hne piece List.mem_cons_self)
      have hhead : (Text.joined '/' ((c :: rest) :: pieces)).head? = some c := by
        cases pieces <;> rfl
      rw [render_relative (List.cons_ne_nil _ _), hhead, decide_eq_false_iff_not]
      intro hc
      exact hsep _ List.mem_cons_self (Option.some.inj hc ▸ List.mem_cons_self)

namespace Parts

variable {rooted : Bool} {dirs pieces : List Text} {base root e : Text}

theorem all_ne_dot (h : '.' ∉ base) : ∀ c ∈ base.reverse, decide (c ≠ '.') = true := by
  intro c hc
  refine decide_eq_true ?_
  rintro rfl
  exact h (List.mem_reverse.mp hc)

theorem cutExtension_of_not_mem (h : '.' ∉ base) : cutExtension base = (base, []) := by
  have hspan : base.reverse.span (· ≠ '.') = (base.reverse, []) := by
    rw [List.span_eq_takeWhile_dropWhile, List.takeWhile_eq_self_iff.mpr (all_ne_dot h),
      List.dropWhile_eq_nil_iff.mpr (all_ne_dot h)]
  rw [cutExtension, hspan]

theorem cutExtension_append_dot (hne : root ≠ []) (he : '.' ∉ e)
    (hup : root ++ '.' :: e ≠ ['.', '.']) : cutExtension (root ++ '.' :: e) = (root, '.' :: e) := by
  obtain ⟨c, init, hroot⟩ := List.exists_cons_of_ne_nil (mt List.reverse_eq_nil_iff.mp hne)
  have hspan : (root ++ '.' :: e).reverse.span (· ≠ '.') = (e.reverse, '.' :: c :: init) := by
    have hrev : (root ++ '.' :: e).reverse = e.reverse ++ '.' :: c :: init := by
      simp [hroot]
    rw [hrev, List.span_eq_takeWhile_dropWhile, List.takeWhile_append_of_pos (all_ne_dot he),
      List.dropWhile_append_of_pos (all_ne_dot he)]
    simp
  have hback : (c :: init).reverse = root := by rw [← hroot, List.reverse_reverse]
  simp only [cutExtension, hspan, hup, if_false, hback, List.reverse_reverse]

theorem not_mem_cutExtension {c : Char} (h : c ∉ base) :
    c ∉ (cutExtension base).1 ∧ c ∉ (cutExtension base).2 := by
  rw [← cutExtension_append base, List.mem_append, not_or] at h
  exact h

theorem cutExtension_snd (base : Text) :
    (cutExtension base).2 = [] ∨ ∃ e, '.' ∉ e ∧ (cutExtension base).2 = '.' :: e := by
  unfold cutExtension
  split
  next extension c init h =>
    split
    · exact .inl rfl
    · rw [List.span_eq_takeWhile_dropWhile, Prod.mk.injEq] at h
      refine .inr ⟨extension.reverse, ?_, rfl⟩
      intro hdot
      rw [List.mem_reverse, ← h.1] at hdot
      simpa using List.mem_takeWhile_imp hdot
  · exact .inl rfl

/-- Behind another file root without a dot, the same extension is cut off. -/
theorem cutExtension_reroot (hne : root ≠ []) (hdot : '.' ∉ root) (base : Text) :
    cutExtension (root ++ (cutExtension base).2) = (root, (cutExtension base).2) := by
  rcases cutExtension_snd base with h | ⟨e, he, h⟩
  · rw [h, List.append_nil, cutExtension_of_not_mem hdot]
  · rw [h]
    refine cutExtension_append_dot hne he ?_
    intro hup
    rcases Text.eq_of_append_eq_up hne hup with rfl | ⟨-, hnil⟩
    · exact hdot (.head [])
    · cases hnil

/-- Only a name has an extension. -/
theorem isName_of_extension (hsep : '/' ∉ base) (hext : (cutExtension base).2 ≠ []) :
    base.IsName := by
  refine ⟨?_, hsep, ?_, ?_⟩
  · rintro rfl
    exact hext rfl
  · rintro rfl
    exact hext rfl
  · rintro rfl
    exact hext rfl

theorem isName_append_dot (hne : root ≠ []) (hhere : root ≠ ['.'])
    (hsep : '/' ∉ root ++ '.' :: e) : (root ++ '.' :: e).IsName := by
  refine ⟨by simp, hsep, by simp [List.append_eq_singleton_iff, hne], ?_⟩
  intro hup
  rcases Text.eq_of_append_eq_up hne hup with ht | ⟨-, hnil⟩
  · exact hhere ht
  · cases hnil

/-- The parts of a path with these directories and this base name. -/
def ofBase (rooted : Bool) (dirs : List Text) (base : Text) : Parts :=
  { rooted, dirs, fileRoot := (cutExtension base).1, extension := (cutExtension base).2 }

/-- The base name of a path without pieces. It stands for nothing. -/
def idle (rooted : Bool) : Text := if rooted then [] else ['.']

theorem unseparated_getLast? (h : ∀ piece ∈ pieces, '/' ∉ piece) :
    '/' ∉ pieces.getLast?.getD (idle rooted) := by
  cases hlast : pieces.getLast? with
  | none => cases rooted <;> decide
  | some last => exact h last (List.mem_of_getLast? hlast)

theorem resolve_dropLast_concat (pieces : List Text) :
    Lexical.resolve rooted (pieces.dropLast ++ [pieces.getLast?.getD (idle rooted)]) =
      Lexical.resolve rooted pieces := by
  cases h : pieces.getLast? with
  | none =>
    rw [List.getLast?_eq_none_iff] at h
    cases rooted <;> simp [h, idle, Lexical.resolve, Lexical.push]
  | some last =>
    obtain ⟨init, rfl⟩ := List.getLast?_eq_some_iff.mp h
    simp

theorem ofText_eq_ofBase (t : Text) : ofText t =
    ofBase (t.head? = some '/') (Text.filled t).dropLast ((Text.filled t).getLast?.getD []) := rfl

/-- The text of resolved pieces gives them back. -/
theorem ofText_render (hne : ∀ piece ∈ pieces, piece ≠ []) (hsep : ∀ piece ∈ pieces, '/' ∉ piece) :
    ofText (Lexical.render rooted pieces) =
      ofBase rooted pieces.dropLast (pieces.getLast?.getD (idle rooted)) := by
  have hback := Text.filled_joined hne hsep
  rw [ofText_eq_ofBase, Lexical.decide_head?_render hne hsep]
  cases rooted with
  | true =>
    rw [Lexical.render, Text.filled, Text.pieces, if_pos rfl, List.filter_cons_of_neg (by simp),
      ← Text.filled, hback]
    rfl
  | false =>
    by_cases hnil : pieces = []
    · subst hnil
      rfl
    · rw [Lexical.render_relative hnil, hback, List.getLast?_eq_some_getLast hnil]
      rfl

theorem ofText_render_resolve (hsep : ∀ piece ∈ pieces, '/' ∉ piece) :
    ofText (Lexical.render rooted (Lexical.resolve rooted pieces)) =
      ofBase rooted (Lexical.resolve rooted pieces).dropLast
        ((Lexical.resolve rooted pieces).getLast?.getD (idle rooted)) :=
  ofText_render (fun _ h => Lexical.ne_nil_of_mem_resolve hsep h)
    fun piece h => hsep piece (Lexical.mem_of_mem_resolve h)

end Parts

theorem Path.exists_parts_eq_ofBase (p : Path) : ∃ rooted dirs base,
    (∀ d ∈ dirs, '/' ∉ d) ∧ '/' ∉ base ∧ p.parts = .ofBase rooted dirs base := by
  have hsep : ∀ piece ∈ (Text.pieces '/' p.text).filter (· ≠ []), '/' ∉ piece :=
    fun piece hm => Text.not_mem_of_mem_pieces (List.mem_filter.mp hm).1
  refine ⟨p.text.head? = some '/', ((Text.pieces '/' p.text).filter (· ≠ [])).dropLast,
    ((Text.pieces '/' p.text).filter (· ≠ [])).getLast?.getD [], ?_, ?_, rfl⟩
  · exact fun d hd => hsep d ((List.dropLast_sublist _).mem hd)
  · cases h : ((Text.pieces '/' p.text).filter (· ≠ [])).getLast? with
    | none => exact List.not_mem_nil
    | some base => exact hsep base (List.mem_of_getLast? h)

theorem Path.unseparated_extension (p : Path) : '/' ∉ p.parts.extension := by
  obtain ⟨rooted, dirs, base, -, hbase, hp⟩ := p.exists_parts_eq_ofBase
  rw [hp]
  exact (Parts.not_mem_cutExtension hbase).2

end Relayout
