/-!
# Texts cut into pieces

Names, patterns and documents are lists of characters. A separator cuts a text, or any other list,
into pieces, and `joined_pieces` says that joining the pieces gives it back.
-/

namespace Relayout

abbrev Text := List Char

namespace Text

/-- What stands between the separators, empty pieces included. -/
def pieces {α : Type} [DecidableEq α] (sep : α) : List α → List (List α)
  | [] => [[]]
  | c :: s =>
    if c = sep then [] :: pieces sep s
    else match pieces sep s with
      | [] => [[c]]
      | p :: ps => (c :: p) :: ps

def joined {α : Type} (sep : α) : List (List α) → List α
  | [] => []
  | [p] => p
  | p :: q :: ps => p ++ sep :: joined sep (q :: ps)

/-- Cuts at the first `stop`, which belongs to neither side. -/
def cutAt (stop : Char) : Text → Option (Text × Text)
  | [] => none
  | c :: s => if c = stop then some ([], s) else (cutAt stop s).map fun (a, b) => (c :: a, b)

variable {α : Type} [DecidableEq α]

theorem pieces_ne_nil (sep : α) (s : List α) : pieces sep s ≠ [] := by
  cases s with
  | nil => simp [pieces]
  | cons c s =>
    unfold pieces
    split
    · simp
    · split <;> simp

theorem joined_pieces (sep : α) (s : List α) : joined sep (pieces sep s) = s := by
  induction s with
  | nil => rfl
  | cons c s ih =>
    obtain ⟨p, ps, h⟩ := List.exists_cons_of_ne_nil (pieces_ne_nil sep s)
    rw [h] at ih
    by_cases hc : c = sep
    · subst hc
      simp [pieces, h, joined, ih]
    · cases ps with
      | nil => simpa [pieces, h, hc, joined] using ih
      | cons q qs => simpa [pieces, h, hc, joined] using ih

theorem cutAt_eq_some {stop : Char} {s a b : Text} (h : cutAt stop s = some (a, b)) :
    s = a ++ stop :: b ∧ stop ∉ a := by
  induction s generalizing a with
  | nil => simp [cutAt] at h
  | cons c s ih =>
    unfold cutAt at h
    split at h
    next hc =>
      simp only [Option.some.injEq, Prod.mk.injEq] at h
      obtain ⟨rfl, rfl⟩ := h
      simp [hc]
    next hc =>
      simp only [Option.map_eq_some_iff, Prod.mk.injEq, Prod.exists] at h
      obtain ⟨a', b', hs, rfl, rfl⟩ := h
      obtain ⟨rfl, hn⟩ := ih hs
      exact ⟨rfl, by simp [hn, Ne.symm hc]⟩

theorem length_of_cutAt {stop : Char} {s a b : Text} (h : cutAt stop s = some (a, b)) :
    b.length < s.length := by
  rw [(cutAt_eq_some h).1]
  simp
  omega

end Text

end Relayout
