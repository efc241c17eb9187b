import Relayout.Text

/-!
# Brace alternatives

`*.{ts,tsx}` stands for `*.ts` and `*.tsx`. The first group with a comma of its own is replaced by
each of its alternatives, and the texts so made are expanded in turn. A group without a comma
stays as it is, and so does everything from the first brace that is never closed.
Expansion ends because each text made has fewer opening braces than the one it is made of.
-/

namespace Relayout.Glob

structure Alternation where
  before : Text
  alternatives : List Text
  after : Text
  deriving DecidableEq

/-- Reads the rest of a group: its first alternative, the others, and the text after the closing
brace. `depth` counts the groups that are open inside it. -/
def readGroup (depth : Nat) : Text → Option (Text × List Text × Text)
  | [] => none
  | c :: s =>
    let keep := fun (a, others, rest) => (c :: a, others, rest)
    match c with
    | '{' => (readGroup (depth + 1) s).map keep
    | '}' =>
      match depth with
      | 0 => some ([], [], s)
      | d + 1 => (readGroup d s).map keep
    | ',' =>
      match depth with
      | 0 => (readGroup 0 s).map fun (a, others, rest) => ([], a :: others, rest)
      | d + 1 => (readGroup (d + 1) s).map keep
    | _ => (readGroup depth s).map keep

/-- The first group with a comma of its own, unless an unclosed brace comes before it. -/
def alternation? : Text → Option Alternation
  | [] => none
  | c :: s =>
    let keep := (alternation? s).map fun a => { a with before := c :: a.before }
    if c = '{' then
      match readGroup 0 s with
      | none => none
      | some (a, b :: others, rest) => some ⟨[], a :: b :: others, rest⟩
      | some (_, [], _) => keep
    else keep

theorem count_le_of_readGroup {depth : Nat} {s a rest : Text} {others : List Text}
    (h : readGroup depth s = some (a, others, rest)) :
    ∀ x ∈ a :: others, x.count '{' + rest.count '{' ≤ s.count '{' := by
  induction s generalizing depth a others rest with
  | nil => simp [readGroup] at h
  | cons c s ih =>
    have kept : ∀ {d a' rest' others'}, readGroup d s = some (a', others', rest') →
        (c :: a', others', rest') = (a, others, rest) →
        ∀ x ∈ a :: others, x.count '{' + rest.count '{' ≤ (c :: s).count '{' := by
      intro d a' rest' others' hs heq x hx
      obtain ⟨rfl, rfl, rfl⟩ : c :: a' = a ∧ others' = others ∧ rest' = rest := by simpa using heq
      have hle : s.count '{' ≤ (c :: s).count '{' := by simp [List.count_cons]
      rcases List.mem_cons.1 hx with rfl | hx
      · have := ih hs a' (by simp)
        simp only [List.count_cons] at *
        omega
      · have := ih hs x (by simp [hx])
        omega
    unfold readGroup at h
    split at h
    next =>
      simp only [Option.map_eq_some_iff, Prod.exists] at h
      obtain ⟨a', o', r', hs, heq⟩ := h
      exact kept hs heq
    next =>
      split at h
      · simp only [Option.some.injEq, Prod.mk.injEq] at h
        obtain ⟨rfl, rfl, rfl⟩ := h
        simp
      · simp only [Option.map_eq_some_iff, Prod.exists] at h
        obtain ⟨a', o', r', hs, heq⟩ := h
        exact kept hs heq
    next =>
      split at h
      · simp only [Option.map_eq_some_iff, Prod.exists, Prod.mk.injEq] at h
        obtain ⟨a', o', r', hs, rfl, rfl, rfl⟩ := h
        intro x hx
        rcases List.mem_cons.1 hx with rfl | hx
        · have := ih hs a' (by simp)
          simp
          omega
        · simpa using ih hs x hx
      · simp only [Option.map_eq_some_iff, Prod.exists] at h
        obtain ⟨a', o', r', hs, heq⟩ := h
        exact kept hs heq
    next =>
      simp only [Option.map_eq_some_iff, Prod.exists] at h
      obtain ⟨a', o', r', hs, heq⟩ := h
      exact kept hs heq

theorem count_lt_of_alternation {s : Text} {a : Alternation} (h : alternation? s = some a) :
    ∀ x ∈ a.alternatives, (a.before ++ x ++ a.after).count '{' < s.count '{' := by
  induction s generalizing a with
  | nil => simp [alternation?] at h
  | cons c s ih =>
    have kept : ((alternation? s).map fun a => { a with before := c :: a.before }) = some a →
        ∀ x ∈ a.alternatives, (a.before ++ x ++ a.after).count '{' < (c :: s).count '{' := by
      intro h x hx
      obtain ⟨b, hb, rfl⟩ := Option.map_eq_some_iff.1 h
      have := ih hb x hx
      simp only [List.cons_append, List.count_cons]
      omega
    unfold alternation? at h
    split at h
    next hc =>
      split at h
      · simp at h
      next hg =>
        simp only [Option.some.injEq] at h
        subst h
        intro x hx
        have := count_le_of_readGroup hg x hx
        simp only [List.nil_append, List.count_append, hc, List.count_cons_self]
        omega
      · exact kept h
    next => exact kept h

def expand (pattern : Text) : List Text :=
  match h : alternation? pattern with
  | none => [pattern]
  | some a => a.alternatives.attach.flatMap fun ⟨x, hx⟩ =>
    have := count_lt_of_alternation h x hx
    expand (a.before ++ x ++ a.after)
termination_by pattern.count '{'
decreasing_by assumption

end Relayout.Glob
