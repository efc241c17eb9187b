import Relayout.Proofs.Glob.Expansion
import Relayout.Proofs.Text.Positions

/-!
# The marks of a group

A brace group can be given by where its braces and its commas stand in a pattern. These positions
grow from one to the next, and between them lie the alternatives: cutting the pattern at the marks
never fails, and gives the parts that the group was found with.
-/

namespace Relayout.Glob

inductive Mishap
  | countBelowNone
  | offCharacter
  deriving DecidableEq

/-- Where the braces and the commas of a group stand. -/
structure Marks where
  opening : Nat
  commas : List Nat
  closing : Nat
  deriving DecidableEq

def slice (s : Text) (first last : Nat) : Except Mishap Text :=
  match s.slice? first last with
  | some t => .ok t
  | none => .error .offCharacter

namespace Marks

/-- The texts between one position and the next, each of these left out. -/
def between (s : Text) (start : Nat) : List Nat → Nat → Except Mishap (List Text)
  | [], last => do return [← slice s start last]
  | split :: splits, last => do
    let t ← slice s start split
    return t :: (← between s (split + 1) splits last)

/-- Cuts a pattern at the marks of a group. -/
def cut (s : Text) (m : Marks) : Except Mishap Alternation := do
  let alternatives ← between s (m.opening + 1) m.commas m.closing
  let before ← slice s 0 m.opening
  let after ← slice s (m.closing + 1) s.byteCount
  return ⟨before, alternatives, after⟩

/-- The positions of the commas between texts that begin at a position. -/
def commasFrom (start : Nat) : List Text → List Nat
  | [] => []
  | [_] => []
  | t :: u :: ts => (start + t.byteCount) :: commasFrom (start + t.byteCount + 1) (u :: ts)

/-- Whether the marks are in order, and stand on braces and commas of a pattern. -/
structure Fit (s : Text) (m : Marks) : Prop where
  ordered : (m.opening :: (m.commas ++ [m.closing])).Pairwise (· < ·)
  opening : s.toUtf8[m.opening]? = some '{'.toUInt8
  commas : ∀ i ∈ m.commas, s.toUtf8[i]? = some ','.toUInt8
  closing : s.toUtf8[m.closing]? = some '}'.toUInt8

end Marks

def Alternation.marks (A : Alternation) : Marks where
  opening := A.before.byteCount
  commas := Marks.commasFrom (A.before.byteCount + 1) A.alternatives
  closing := A.before.byteCount + 1 + Text.byteCount (Text.joined ',' A.alternatives)

variable {s t u v w : Text} {ts : List Text} {c : Char} {A : Alternation}

@[simp] theorem size_opening : Char.utf8Size '{' = 1 := rfl

@[simp] theorem size_comma : Char.utf8Size ',' = 1 := rfl

@[simp] theorem size_closing : Char.utf8Size '}' = 1 := rfl

theorem slice_append (u v w : Text) :
    slice (u ++ (v ++ w)) u.byteCount (u.byteCount + v.byteCount) = .ok v := by
  rw [slice, Text.slice?_append]

theorem slice_front (u v : Text) : slice (u ++ v) 0 u.byteCount = .ok u := by
  simpa using slice_append [] u v

theorem slice_back (u v : Text) : slice (u ++ v) u.byteCount (u ++ v).byteCount = .ok v := by
  simpa using slice_append u v []

/-! ## The marks of a group -/

namespace Marks

theorem joined_behind (u w t t' : Text) (ts : List Text) :
    u ++ (Text.joined ',' (t :: t' :: ts) ++ w) =
      (u ++ (t ++ [','])) ++ (Text.joined ',' (t' :: ts) ++ w) := by
  simp [Text.joined]

theorem byteCount_behind (u t : Text) :
    (u ++ (t ++ [','])).byteCount = u.byteCount + t.byteCount + 1 := by
  simp [Nat.add_assoc]

theorem end_joined (start : Nat) (t t' : Text) (ts : List Text) :
    start + Text.byteCount (Text.joined ',' (t :: t' :: ts)) =
      start + t.byteCount + 1 + Text.byteCount (Text.joined ',' (t' :: ts)) := by
  simp only [Text.joined, Text.byteCount_append, Text.byteCount_cons, size_comma]
  omega

theorem between_joined (u w : Text) (hts : ts ≠ []) :
    between (u ++ (Text.joined ',' ts ++ w)) u.byteCount (commasFrom u.byteCount ts)
      (u.byteCount + Text.byteCount (Text.joined ',' ts)) = .ok ts := by
  induction ts generalizing u with
  | nil => exact absurd rfl hts
  | cons t ts ih =>
    cases ts with
    | nil =>
      rw [commasFrom, between, Text.joined, slice_append]
      rfl
    | cons t' ts =>
      have hrest := ih (u ++ (t ++ [','])) (List.cons_ne_nil t' ts)
      rw [← joined_behind, byteCount_behind, ← end_joined] at hrest
      have hfirst : slice (u ++ (Text.joined ',' (t :: t' :: ts) ++ w)) u.byteCount
          (u.byteCount + t.byteCount) = .ok t := by
        rw [Text.joined, List.append_assoc]
        exact slice_append u t _
      rw [commasFrom, between, hfirst, hrest]
      rfl

theorem pairwise_commasFrom (start : Nat) (hts : ts ≠ []) :
    (commasFrom start ts ++ [start + Text.byteCount (Text.joined ',' ts)]).Pairwise (· < ·) ∧
      ∀ i ∈ commasFrom start ts ++ [start + Text.byteCount (Text.joined ',' ts)], start ≤ i := by
  induction ts generalizing start with
  | nil => exact absurd rfl hts
  | cons t ts ih =>
    cases ts with
    | nil => simp [commasFrom]
    | cons t' ts =>
      obtain ⟨hordered, hstart⟩ := ih (start + t.byteCount + 1) (List.cons_ne_nil t' ts)
      rw [commasFrom, end_joined, List.cons_append, List.pairwise_cons, List.forall_mem_cons]
      refine ⟨⟨?_, hordered⟩, by omega, ?_⟩
      · intro i hi
        have := hstart i hi
        omega
      · intro i hi
        have := hstart i hi
        omega

theorem byte_at (u : Text) (hc : c.utf8Size = 1) (w : Text) :
    (u ++ c :: w).toUtf8[u.byteCount]? = some c.toUInt8 := by
  have hbyte := Text.getElem?_toUtf8_append u (c :: w) 0
  rw [Text.toUtf8_cons_ascii hc] at hbyte
  exact hbyte

theorem byte_commasFrom (u w : Text) :
    ∀ i ∈ commasFrom u.byteCount ts,
      (u ++ (Text.joined ',' ts ++ w)).toUtf8[i]? = some ','.toUInt8 := by
  induction ts generalizing u with
  | nil => simp [commasFrom]
  | cons t ts ih =>
    cases ts with
    | nil => simp [commasFrom]
    | cons t' ts =>
      rw [commasFrom, List.forall_mem_cons, joined_behind, ← byteCount_behind]
      refine ⟨?_, ih (u ++ (t ++ [',']))⟩
      have hcomma := byte_at (u ++ t) size_comma (Text.joined ',' (t' :: ts) ++ w)
      simpa using hcomma

end Marks

theorem Cut.eq_behind (h : Cut s A) :
    s = (A.before ++ ['{']) ++ (Text.joined ',' A.alternatives ++ '}' :: A.after) := by
  simpa using h.text

theorem Cut.ne_nil (h : Cut s A) : A.alternatives ≠ [] := by
  obtain ⟨a, b, others, halternatives⟩ := h.several
  simp [halternatives]

theorem byteCount_concat (u : Text) (hc : c.utf8Size = 1) :
    (u ++ [c]).byteCount = u.byteCount + 1 := by
  simp [hc]

theorem Cut.fit_marks (h : Cut s A) : A.marks.Fit s := by
  obtain ⟨hordered, hstart⟩ := Marks.pairwise_commasFrom (A.before.byteCount + 1) h.ne_nil
  refine ⟨List.pairwise_cons.mpr ⟨hstart, hordered⟩, ?_, ?_, ?_⟩
  · rw [h.text]
    exact Marks.byte_at A.before size_opening _
  · rw [h.eq_behind, Alternation.marks, ← byteCount_concat _ size_opening]
    exact Marks.byte_commasFrom _ _
  · rw [h.eq_behind, Alternation.marks, ← byteCount_concat _ size_opening, ← List.append_assoc,
      ← Text.byteCount_append]
    exact Marks.byte_at _ size_closing _

/-- Cut at its marks, a pattern falls into the parts that the group was found with. -/
theorem Cut.cut_marks (h : Cut s A) : A.marks.cut s = .ok A := by
  have hbetween := Marks.between_joined (A.before ++ ['{']) ('}' :: A.after) h.ne_nil
  rw [← h.eq_behind, byteCount_concat _ size_opening] at hbetween
  have hbefore : slice s 0 A.before.byteCount = .ok A.before := by
    rw [h.text]
    exact slice_front _ _
  have hafter : slice s
      (A.before.byteCount + 1 + Text.byteCount (Text.joined ',' A.alternatives) + 1) s.byteCount =
        .ok A.after := by
    have hgroup :
        s = (A.before ++ '{' :: (Text.joined ',' A.alternatives ++ ['}'])) ++ A.after := by
      simpa using h.text
    rw [hgroup]
    simpa [Nat.add_assoc, Nat.add_comm 1] using
      slice_back (A.before ++ '{' :: (Text.joined ',' A.alternatives ++ ['}'])) A.after
  simp only [Marks.cut, Alternation.marks, hbetween, hbefore, hafter]
  rfl

end Relayout.Glob
