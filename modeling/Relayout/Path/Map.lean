import Relayout.Path.Order

/-!
# Maps keyed by places

A map holds one entry for a place, in the order of places, under the text that was inserted first.
Its look-up is determined by `get?_insert` and `get?_erase`.
-/

namespace Relayout

structure PathMap (α : Type) where
  entries : List (Path × α)
  increasing : entries.Pairwise fun a b => a.1.Before b.1

namespace PathMap

variable {α : Type}

def empty : PathMap α := ⟨[], .nil⟩

instance : EmptyCollection (PathMap α) := ⟨empty⟩

def find? (p : Path) : List (Path × α) → Option α
  | [] => none
  | (q, a) :: rest => if q.Same p then some a else find? p rest

def get? (m : PathMap α) (p : Path) : Option α := find? p m.entries

def contains (m : PathMap α) (p : Path) : Bool := (m.get? p).isSome

def paths (m : PathMap α) : List Path := m.entries.map (·.1)

def put (p : Path) (a : α) : List (Path × α) → List (Path × α)
  | [] => [(p, a)]
  | (q, b) :: rest =>
    if q.Same p then (q, a) :: rest
    else if p.Before q then (p, a) :: (q, b) :: rest
    else (q, b) :: put p a rest

def drop (p : Path) (entries : List (Path × α)) : List (Path × α) :=
  entries.filter fun e => ¬ e.1.Same p

theorem mem_put {p : Path} {a : α} {entries : List (Path × α)} {e : Path × α}
    (h : e ∈ put p a entries) : e.1 = p ∨ ∃ b, (e.1, b) ∈ entries := by
  induction entries with
  | nil =>
    rw [put, List.mem_singleton] at h
    exact .inl (by rw [h])
  | cons head rest ih =>
    obtain ⟨q, b⟩ := head
    unfold put at h
    split at h
    · rcases List.mem_cons.1 h with rfl | h
      · exact .inr ⟨b, by simp⟩
      · exact .inr ⟨e.2, by simp [h]⟩
    · split at h
      · rcases List.mem_cons.1 h with rfl | h
        · exact .inl rfl
        · exact .inr ⟨e.2, h⟩
      · rcases List.mem_cons.1 h with rfl | h
        · exact .inr ⟨b, by simp⟩
        · rcases ih h with h | ⟨c, h⟩
          · exact .inl h
          · exact .inr ⟨c, by simp [h]⟩

theorem increasing_put (p : Path) (a : α) {entries : List (Path × α)}
    (h : entries.Pairwise fun a b => a.1.Before b.1) :
    (put p a entries).Pairwise fun a b => a.1.Before b.1 := by
  induction entries with
  | nil => simp [put]
  | cons head rest ih =>
    obtain ⟨q, b⟩ := head
    obtain ⟨hq, hrest⟩ := List.pairwise_cons.1 h
    unfold put
    split
    · exact List.pairwise_cons.2 ⟨hq, hrest⟩
    next hs =>
      split
      next hb =>
        refine List.pairwise_cons.2 ⟨fun e he => ?_, h⟩
        rcases List.mem_cons.1 he with rfl | he
        · exact hb
        · exact hb.trans (hq e he)
      next hb =>
        refine List.pairwise_cons.2 ⟨fun e he => ?_, ih hrest⟩
        rcases mem_put he with hp | ⟨c, hc⟩
        · rw [hp]
          rcases Path.before_or_same_or_before q p with h | h | h
          · exact h
          · exact absurd h hs
          · exact absurd h hb
        · exact hq (e.1, c) hc

def insert (m : PathMap α) (p : Path) (a : α) : PathMap α :=
  ⟨put p a m.entries, increasing_put p a m.increasing⟩

def erase (m : PathMap α) (p : Path) : PathMap α :=
  ⟨drop p m.entries, m.increasing.filter _⟩

theorem find?_put (p q : Path) (a : α) (entries : List (Path × α)) :
    find? q (put p a entries) = if p.Same q then some a else find? q entries := by
  induction entries with
  | nil => simp [put, find?]
  | cons head rest ih =>
    obtain ⟨r, b⟩ := head
    unfold put
    split
    next hr =>
      by_cases hq : p.Same q
      · simp [find?, hq, hr.trans hq]
      · have : ¬ r.Same q := fun h => hq (hr.symm.trans h)
        simp [find?, hq, this]
    next hr =>
      split
      · simp [find?]
      · simp only [find?, ih]
        by_cases hq : p.Same q
        · have : ¬ r.Same q := fun h => hr (h.trans hq.symm)
          simp [hq, this]
        · simp [hq]

theorem get?_insert (m : PathMap α) (p q : Path) (a : α) :
    (m.insert p a).get? q = if p.Same q then some a else m.get? q :=
  find?_put p q a m.entries

theorem find?_drop (p q : Path) (entries : List (Path × α)) :
    find? q (drop p entries) = if p.Same q then none else find? q entries := by
  induction entries with
  | nil => simp [drop, find?]
  | cons head rest ih =>
    obtain ⟨r, b⟩ := head
    unfold drop at ih ⊢
    by_cases hr : r.Same p
    · by_cases hq : p.Same q
      · simpa [hr, hq] using ih
      · have : ¬ r.Same q := fun h => hq (hr.symm.trans h)
        simpa [hr, hq, find?, this] using ih
    · by_cases hq : p.Same q
      · have : ¬ r.Same q := fun h => hr (h.trans hq.symm)
        simpa [hr, hq, find?, this] using ih
      · simp only [hq, if_false, decide_not] at ih
        simp [hr, hq, find?, ih]

theorem get?_erase (m : PathMap α) (p q : Path) :
    (m.erase p).get? q = if p.Same q then none else m.get? q :=
  find?_drop p q m.entries

theorem get?_empty (p : Path) : (empty : PathMap α).get? p = none := rfl

end PathMap

end Relayout
