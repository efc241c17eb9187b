import Relayout.Path.Basic

/-!
# The order of paths

Paths are ordered component by component: the root, then `.`, then `..`, then names, which are
compared byte by byte. A path comes before every path inside it. The order is total on
places: of two paths that do not name the same place, one comes before the other.
-/

namespace Relayout.Path

namespace Component

/-- A key whose lexicographic order is the order of components. -/
def rank : Component → List Nat
  | root => [0]
  | here => [1]
  | up => [2]
  | name n => 3 :: n.map UInt8.toNat

theorem rank_injective {c d : Component} (h : c.rank = d.rank) : c = d := by
  cases c <;> cases d <;> simp [rank] at h <;> try rfl
  exact congrArg name ((List.map_inj_right fun _ _ => UInt8.toNat_inj.1).1 h)

end Component

def rank (p : Path) : List (List Nat) := p.components.map Component.rank

def Before (p q : Path) : Prop := p.rank < q.rank

instance (p q : Path) : Decidable (Before p q) := inferInstanceAs (Decidable (_ < _))

variable {p q r : Path}

theorem rank_eq_iff : p.rank = q.rank ↔ p.Same q :=
  List.map_inj_right fun _ _ => Component.rank_injective

theorem Before.trans (h : p.Before q) (h' : q.Before r) : p.Before r := List.lt_trans h h'

theorem not_before_self : ¬ p.Before p := List.lt_irrefl _

theorem Before.not_same (h : p.Before q) : ¬ p.Same q := by
  intro hs
  rw [Before, rank_eq_iff.2 hs] at h
  exact List.lt_irrefl _ h

theorem Same.symm (h : p.Same q) : q.Same p := Eq.symm h

theorem Same.trans (h : p.Same q) (h' : q.Same r) : p.Same r := Eq.trans h h'

theorem before_or_same_or_before (p q : Path) : p.Before q ∨ p.Same q ∨ q.Before p := by
  by_cases h : p.Before q
  · exact .inl h
  · by_cases h' : q.Before p
    · exact .inr (.inr h')
    · exact .inr (.inl (rank_eq_iff.1 (List.le_antisymm (List.not_lt.1 h') (List.not_lt.1 h))))

def atMost (p q : Path) : Bool := decide ¬ q.Before p

/-- Drops each path that names the same place as the one before it. -/
def dropRepeats : List Path → List Path
  | [] => []
  | p :: ps => p :: keepNew p ps
where
  keepNew (last : Path) : List Path → List Path
    | [] => []
    | q :: qs => if last.Same q then keepNew last qs else q :: keepNew q qs

/-- The places a list names, in order, each once and with the text that was given first. -/
def sorted (ps : List Path) : List Path := dropRepeats (ps.mergeSort atMost)

end Relayout.Path
