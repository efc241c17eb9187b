import Mathlib.Data.List.Induction
import Relayout.Proofs.Path.Resolution

/-!
# Resolved pieces

What reading pieces leaves is a stack of plain names, on top of the `..`s that lead out of a
relative path. Read once more, such pieces stay as they are. All but the last of them were there
before the last piece was read.
-/

namespace Relayout

/-- A piece that stands for itself wherever it is read. -/
structure Text.IsName (t : Text) : Prop where
  nonempty : t ≠ []
  unseparated : '/' ∉ t
  not_here : t ≠ ['.']
  not_up : t ≠ ['.', '.']

instance (t : Text) : Decidable t.IsName :=
  decidable_of_iff (t ≠ [] ∧ '/' ∉ t ∧ t ≠ ['.'] ∧ t ≠ ['.', '.'])
    ⟨fun ⟨h₁, h₂, h₃, h₄⟩ => ⟨h₁, h₂, h₃, h₄⟩, fun ⟨h₁, h₂, h₃, h₄⟩ => ⟨h₁, h₂, h₃, h₄⟩⟩

theorem Text.isName_of_not_mem_dot {t : Text} (hne : t ≠ []) (hsep : '/' ∉ t) (hdot : '.' ∉ t) :
    t.IsName := by
  refine ⟨hne, hsep, ?_, ?_⟩
  · rintro rfl
    exact hdot (.head [])
  · rintro rfl
    exact hdot (.head ['.'])

theorem Text.eq_of_append_eq_up {t e : Text} (hne : t ≠ []) (h : t ++ e = ['.', '.']) :
    t = ['.'] ∨ t = ['.', '.'] ∧ e = [] := by
  obtain ⟨c, rest, rfl⟩ := List.exists_cons_of_ne_nil hne
  obtain ⟨rfl, hrest⟩ : c = '.' ∧ rest ++ e = ['.'] := by simpa using h
  rcases List.append_eq_singleton_iff.mp hrest with ⟨rfl, -⟩ | ⟨rfl, rfl⟩
  · exact .inl rfl
  · exact .inr ⟨rfl, rfl⟩

/-- A name with more behind it is a name. -/
theorem Text.IsName.append {t e : Text} (h : t.IsName) (he : '/' ∉ e) : (t ++ e).IsName := by
  refine ⟨by simp [h.nonempty], by simp [h.unseparated, he], ?_, ?_⟩
  · simp [List.append_eq_singleton_iff, h.nonempty, h.not_here]
  · intro hup
    rcases eq_of_append_eq_up h.nonempty hup with ht | ⟨ht, -⟩
    · exact h.not_here ht
    · exact h.not_up ht

namespace Lexical

variable {rooted : Bool} {stack pieces : List Text} {piece name : Text}

theorem push_kept (hidle : ¬ (piece = [] ∨ piece = ['.'])) (hup : piece ≠ ['.', '.']) :
    push rooted stack piece = piece :: stack := by
  unfold push
  rw [if_neg hidle, if_neg hup]

theorem push_name (h : name.IsName) : push rooted stack name = name :: stack :=
  push_kept (by simp [h.nonempty, h.not_here]) h.not_up

theorem render_relative (h : pieces ≠ []) : render false pieces = Text.joined '/' pieces := by
  cases pieces with
  | nil => exact absurd rfl h
  | cons piece pieces => rfl

theorem resolve_concat (pieces : List Text) (piece : Text) :
    resolve rooted (pieces ++ [piece]) =
      (push rooted (resolve rooted pieces).reverse piece).reverse := by
  simp [resolve]

theorem resolve_concat_name (h : name.IsName) :
    resolve rooted (pieces ++ [name]) = resolve rooted pieces ++ [name] := by
  simp [resolve_concat, push_name h]

/-- A piece is put on top, takes the top away, or does nothing. -/
theorem push_cases (rooted : Bool) (stack : List Text) (piece : Text) :
    push rooted stack piece = stack ∨ push rooted stack piece = stack.tail ∨
      push rooted stack piece = piece :: stack := by
  by_cases hidle : piece = [] ∨ piece = ['.']
  · exact .inl (push_idle hidle)
  by_cases hup : piece = ['.', '.']
  · subst hup
    cases stack with
    | nil => cases rooted <;> simp [push]
    | cons last rest =>
      by_cases hlast : last = ['.', '.']
      · cases rooted <;> simp [push, hlast]
      · simp [push, hlast]
  · exact .inr (.inr (push_kept hidle hup))

theorem mem_of_mem_resolve (h : name ∈ resolve rooted pieces) : name ∈ pieces := by
  induction pieces using List.reverseRecOn with
  | nil => exact h
  | append_singleton pieces piece ih =>
    rw [resolve_concat, List.mem_reverse] at h
    rcases push_cases rooted (resolve rooted pieces).reverse piece with heq | heq | heq
    · rw [heq, List.mem_reverse] at h
      exact List.mem_append_left _ (ih h)
    · rw [heq] at h
      exact List.mem_append_left _ (ih (List.mem_reverse.mp (List.mem_of_mem_tail h)))
    · rw [heq, List.mem_cons, List.mem_reverse] at h
      rcases h with rfl | h
      · simp
      · exact List.mem_append_left _ (ih h)

/-- The piece read last is the last one left, or it is not left at all. -/
theorem mem_of_mem_dropLast_resolve (h : name ∈ (resolve rooted (pieces ++ [piece])).dropLast) :
    name ∈ pieces := by
  rw [resolve_concat, List.dropLast_reverse, List.mem_reverse] at h
  refine @mem_of_mem_resolve rooted pieces name (List.mem_reverse.mp ?_)
  rcases push_cases rooted (resolve rooted pieces).reverse piece with heq | heq | heq
  · rw [heq] at h
    exact List.mem_of_mem_tail h
  · rw [heq] at h
    exact List.mem_of_mem_tail (List.mem_of_mem_tail h)
  · rwa [heq] at h

/-- Names on top of `..`s, and at the root no `..` at all. -/
inductive Stacked (rooted : Bool) : List Text → Prop
  | ups (n : Nat) (h : rooted = true → n = 0) : Stacked rooted (List.replicate n ['.', '.'])
  | name {name : Text} {stack : List Text} (hn : name.IsName) (hs : Stacked rooted stack) :
      Stacked rooted (name :: stack)

theorem push_up_ups {n : Nat} (h : rooted = true → n = 0) :
    push rooted (List.replicate n ['.', '.']) ['.', '.'] =
      List.replicate (if rooted then 0 else n + 1) ['.', '.'] := by
  cases rooted with
  | true =>
    obtain rfl := h rfl
    rfl
  | false => cases n <;> rfl

namespace Stacked

theorem push (h : Stacked rooted stack) (hp : '/' ∉ piece) :
    Stacked rooted (push rooted stack piece) := by
  by_cases hidle : piece = [] ∨ piece = ['.']
  · rw [push_idle hidle]
    exact h
  by_cases hup : piece = ['.', '.']
  · subst hup
    cases h with
    | ups n hn =>
      rw [push_up_ups hn]
      exact .ups _ fun hr => by simp [hr]
    | name hn hs => simpa [Lexical.push, hn.not_up] using hs
  · rw [push_kept hidle hup]
    rw [not_or] at hidle
    exact .name ⟨hidle.1, hp, hidle.2, hup⟩ h

theorem foldl_push (h : Stacked rooted stack) (hp : ∀ piece ∈ pieces, '/' ∉ piece) :
    Stacked rooted (pieces.foldl (Lexical.push rooted) stack) := by
  induction pieces generalizing stack with
  | nil => exact h
  | cons piece pieces ih =>
    exact ih (h.push (hp piece List.mem_cons_self)) fun q hq => hp q (.tail piece hq)

theorem isName_or_up (h : Stacked rooted stack) :
    ∀ piece ∈ stack, piece.IsName ∨ rooted = false ∧ piece = ['.', '.'] := by
  induction h with
  | ups n hn =>
    intro piece hp
    obtain ⟨hne, rfl⟩ := List.mem_replicate.mp hp
    exact .inr ⟨eq_false_of_ne_true fun hr => hne (hn hr), rfl⟩
  | name hn _ ih =>
    intro piece hp
    rcases List.mem_cons.mp hp with rfl | hp
    · exact .inl hn
    · exact ih piece hp

theorem resolve_reverse (h : Stacked rooted stack) :
    resolve rooted stack.reverse = stack.reverse := by
  induction h with
  | ups n hn =>
    rw [List.reverse_replicate]
    cases rooted with
    | true =>
      obtain rfl := hn rfl
      rfl
    | false =>
      induction n with
      | zero => rfl
      | succ n ih =>
        rw [List.replicate_succ', resolve_concat, ih (by simp), List.reverse_replicate,
          push_up_ups (by simp), List.reverse_replicate]
        exact List.replicate_succ'
  | name hn _ ih => rw [List.reverse_cons, resolve_concat_name hn, ih]

end Stacked

theorem stacked_resolve (hp : ∀ piece ∈ pieces, '/' ∉ piece) :
    Stacked rooted (resolve rooted pieces).reverse := by
  rw [resolve, List.reverse_reverse]
  exact Stacked.foldl_push (.ups 0 fun _ => rfl) hp

theorem resolve_resolve (hp : ∀ piece ∈ pieces, '/' ∉ piece) :
    resolve rooted (resolve rooted pieces) = resolve rooted pieces := by
  have h : Stacked rooted (resolve rooted pieces).reverse := stacked_resolve hp
  simpa using h.resolve_reverse

theorem isName_or_up_of_mem_resolve (hp : ∀ piece ∈ pieces, '/' ∉ piece)
    (h : piece ∈ resolve rooted pieces) :
    piece.IsName ∨ rooted = false ∧ piece = ['.', '.'] :=
  (stacked_resolve hp).isName_or_up piece (List.mem_reverse.mpr h)

theorem ne_nil_of_mem_resolve (hp : ∀ piece ∈ pieces, '/' ∉ piece)
    (h : piece ∈ resolve rooted pieces) : piece ≠ [] := by
  rcases isName_or_up_of_mem_resolve hp h with hname | ⟨-, rfl⟩
  · exact hname.nonempty
  · decide

theorem isName_of_mem_resolve (hp : ∀ piece ∈ pieces, '/' ∉ piece) :
    ∀ name ∈ resolve true pieces, name.IsName := by
  intro name h
  exact (isName_or_up_of_mem_resolve hp h).resolve_right (by simp)

end Lexical

end Relayout
