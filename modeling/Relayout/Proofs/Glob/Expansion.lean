import Relayout.Proofs.Glob.Groups

/-!
# What brace alternatives expand to

Expansion leaves a text alone once no brace group with a comma of its own is left in it, but for
those behind a brace that is never closed. Where all braces of one part of a pattern are closed,
that part and the rest are expanded for themselves, and every text of the one goes with every text
of the other.
-/

namespace Relayout.Glob

/-- Whether every group with a comma of its own lies behind an opening brace without a match. -/
def Settled (s : Text) : Prop :=
  ∀ a t b, Listed t → s = a ++ (t ++ b) → ∃ a₁ a₂, a = a₁ ++ '{' :: a₂ ∧ ¬ Closes (a₂ ++ (t ++ b))

namespace Alternation

/-- The same cut with more text before it. -/
def behind (u : Text) (A : Alternation) : Alternation := { A with before := u ++ A.before }

/-- The text with one alternative in the group's place. -/
def choose (A : Alternation) (x : Text) : Text := A.before ++ x ++ A.after

end Alternation

variable {s p q a b rest x : Text} {others : List Text} {c : Char} {A : Alternation}

theorem map_behind_nil (o : Option Alternation) : o.map (.behind []) = o := by
  cases o <;> rfl

theorem map_behind_map_behind (c : Char) (u : Text) (o : Option Alternation) :
    (o.map (Alternation.behind u)).map (Alternation.behind [c]) =
      o.map (Alternation.behind (c :: u)) := by
  cases o <;> rfl

theorem alternation?_unclosed (h : readGroup 0 s = none) : alternation? ('{' :: s) = none := by
  simp [alternation?, h]

theorem alternation?_listed (h : readGroup 0 s = some (a, b :: others, rest)) :
    alternation? ('{' :: s) = some ⟨[], a :: b :: others, rest⟩ := by
  simp [alternation?, h]

theorem alternation?_passed (hc : c = '{' → ∃ a rest, readGroup 0 s = some (a, [], rest)) :
    alternation? (c :: s) = (alternation? s).map (.behind [c]) := by
  rw [alternation?]
  split
  next ho =>
    obtain ⟨a, rest, h⟩ := hc ho
    rw [h]
    rfl
  next => rfl

/-- What the search for a group comes upon: a brace that is not closed, the group, or a character
that it passes over, such as the brace of a group without a comma. -/
inductive Meets : Char → Text → Prop
  | unclosed {s : Text} (h : readGroup 0 s = none) : Meets '{' s
  | listed {s a b rest : Text} {others : List Text}
      (h : readGroup 0 s = some (a, b :: others, rest)) : Meets '{' s
  | passed {c : Char} {s : Text} (hc : c = '{' → ∃ a rest, readGroup 0 s = some (a, [], rest)) :
      Meets c s

theorem meets (c : Char) (s : Text) : Meets c s := by
  cases hread : readGroup 0 s with
  | none =>
    by_cases hc : c = '{'
    · rw [hc]
      exact .unclosed hread
    · exact .passed fun ho => absurd ho hc
  | some group =>
    obtain ⟨a, others, rest⟩ := group
    cases others with
    | nil => exact .passed fun _ => ⟨a, rest, hread⟩
    | cons b others =>
      by_cases hc : c = '{'
      · rw [hc]
        exact .listed hread
      · exact .passed fun ho => absurd ho hc

/-- How a text is cut: at a group with several alternatives, with no unclosed brace before it. -/
structure Cut (s : Text) (A : Alternation) : Prop where
  text : s = A.before ++ '{' :: (Text.joined ',' A.alternatives ++ '}' :: A.after)
  balanced : ∀ x ∈ A.alternatives, Balanced x
  several : ∃ a b others, A.alternatives = a :: b :: others
  closed : ∀ a b, A.before = a ++ '{' :: b →
    Closes (b ++ '{' :: (Text.joined ',' A.alternatives ++ '}' :: A.after))

theorem Cut.behind (h : Cut s A) (hc : c = '{' → Closes s) : Cut (c :: s) (A.behind [c]) := by
  refine ⟨?_, h.balanced, h.several, ?_⟩
  · exact congrArg (c :: ·) h.text
  · intro a b hbefore
    cases a with
    | nil =>
      obtain ⟨rfl, rfl⟩ := List.cons_eq_cons.mp hbefore
      have hs := hc rfl
      rwa [h.text] at hs
    | cons d a => exact h.closed a b (List.cons_eq_cons.mp hbefore).2

theorem cut_of_alternation? (h : alternation? s = some A) : Cut s A := by
  induction s generalizing A with
  | nil => cases h
  | cons c s ih =>
    cases meets c s with
    | unclosed hread =>
      rw [alternation?_unclosed hread] at h
      cases h
    | @listed _ a b rest others hread =>
      rw [alternation?_listed hread] at h
      cases h
      obtain ⟨hbalanced, htext⟩ := (reads_of_eq_some hread).balanced
      refine ⟨congrArg ('{' :: ·) htext, hbalanced, ⟨a, b, others, rfl⟩, ?_⟩
      intro _ _ hnil
      simp at hnil
    | passed hc =>
      rw [alternation?_passed hc] at h
      obtain ⟨B, hB, rfl⟩ := Option.map_eq_some_iff.mp h
      refine (ih hB).behind fun ho => ?_
      obtain ⟨a, rest, hread⟩ := hc ho
      rw [closes_iff, hread]
      rfl

theorem Cut.listed (h : Cut s A) : Listed ('{' :: (Text.joined ',' A.alternatives ++ ['}'])) := by
  obtain ⟨a, b, others, halternatives⟩ := h.several
  have hbalanced := h.balanced
  rw [halternatives] at hbalanced ⊢
  obtain ⟨ha, hothers⟩ := List.forall_mem_cons.mp hbalanced
  refine ⟨a, Text.joined ',' (b :: others), ha, .joined hothers, ?_⟩
  simp [Text.joined]

theorem exists_readGroup_of_listed {t : Text} (ht : Listed t) (r : Text) :
    ∃ s a b others, t ++ r = '{' :: s ∧ readGroup 0 s = some (a, b :: others, r) := by
  obtain ⟨u, v, hu, hv, rfl⟩ := ht
  obtain ⟨b, others, hb, -⟩ := readGroup_balanced_zero hv (readGroup_end (s := r))
  have hcomma : readGroup 0 (',' :: (v ++ '}' :: r)) = some ([], b :: others, r) := by
    rw [readGroup_comma, hb]
    rfl
  obtain ⟨a, others', ha, hle⟩ := readGroup_balanced_zero hu hcomma
  cases others' with
  | nil => simp at hle
  | cons b' others' => exact ⟨_, a, b', others', by simp, ha⟩

/-- The search for a group gives up exactly where the text is settled. -/
theorem alternation?_eq_none_iff : alternation? s = none ↔ Settled s := by
  constructor
  · intro h a t b ht hs
    subst hs
    induction a with
    | nil =>
      obtain ⟨s, x, y, others, hs, hread⟩ := exists_readGroup_of_listed ht b
      rw [List.nil_append, hs, alternation?_listed hread] at h
      cases h
    | cons c a ih =>
      rw [List.cons_append] at h
      cases meets c (a ++ (t ++ b)) with
      | unclosed hread =>
        refine ⟨[], a, rfl, ?_⟩
        rw [closes_iff, hread]
        exact Bool.false_ne_true
      | listed hread =>
        rw [alternation?_listed hread] at h
        cases h
      | passed hc =>
        rw [alternation?_passed hc, Option.map_eq_none_iff] at h
        obtain ⟨a₁, a₂, rfl, hopen⟩ := ih h
        exact ⟨c :: a₁, a₂, rfl, hopen⟩
  · intro h
    cases hs : alternation? s with
    | none => rfl
    | some A =>
      have hcut := cut_of_alternation? hs
      obtain ⟨a₁, a₂, hbefore, hopen⟩ := h _ _ A.after hcut.listed (by simpa using hcut.text)
      refine absurd (hcut.closed a₁ a₂ hbefore) ?_
      simpa using hopen

/-! ## Expanding -/

theorem expand_of_none (h : alternation? s = none) : expand s = [s] := by
  rw [expand]
  split
  · rfl
  next hs =>
    rw [h] at hs
    cases hs

theorem expand_of_some (h : alternation? s = some A) :
    expand s = A.alternatives.flatMap fun x => expand (A.choose x) := by
  rw [expand]
  split
  next hs =>
    rw [h] at hs
    cases hs
  next B hs =>
    rw [h] at hs
    cases hs
    exact (List.flatMap_subtype fun _ _ => rfl).trans (by rw [List.unattach_attach]; rfl)

/-- Induction along the texts that a pattern is expanded through. -/
theorem expansion {motive : Text → Prop} (settled : ∀ s, alternation? s = none → motive s)
    (cut : ∀ s A, alternation? s = some A → (∀ x ∈ A.alternatives, motive (A.choose x)) → motive s)
    (s : Text) : motive s :=
  expand.induct motive settled cut s

theorem expand_ne_nil (s : Text) : expand s ≠ [] := by
  induction s using expansion with
  | settled s h => simp [expand_of_none h]
  | cut s A h ih =>
    obtain ⟨a, b, others, halternatives⟩ := (cut_of_alternation? h).several
    rw [expand_of_some h, halternatives, List.flatMap_cons]
    exact List.append_ne_nil_of_left_ne_nil (ih a (by simp [halternatives])) _

theorem alternation?_of_mem_expand (hx : x ∈ expand s) : alternation? x = none := by
  induction s using expansion with
  | settled s h =>
    rw [expand_of_none h, List.mem_singleton] at hx
    rwa [hx]
  | cut s A h ih =>
    rw [expand_of_some h, List.mem_flatMap] at hx
    obtain ⟨y, hy, hx⟩ := hx
    exact ih y hy hx

theorem Cut.closed_choose (h : Cut s A) (hs : Closed s) (hx : x ∈ A.alternatives) :
    Closed (A.choose x) := by
  have hgroup : Balanced ('{' :: (Text.joined ',' A.alternatives ++ ['}'])) :=
    .group (.joined h.balanced) .nil
  rw [h.text] at hs
  have hgiven :
      Closed (A.before ++ ('{' :: (Text.joined ',' A.alternatives ++ ['}']) ++ A.after)) := by
    simpa using hs
  simpa [Alternation.choose] using hgiven.replace hgroup (h.balanced x hx)

theorem closed_of_mem_expand (hs : Closed s) (hx : x ∈ expand s) : Closed x := by
  induction s using expansion with
  | settled s h =>
    rw [expand_of_none h, List.mem_singleton] at hx
    rwa [hx]
  | cut s A h ih =>
    rw [expand_of_some h, List.mem_flatMap] at hx
    obtain ⟨y, hy, hx⟩ := hx
    exact ih y hy ((cut_of_alternation? h).closed_choose hs hy) hx

theorem settled_of_mem_expand (hx : x ∈ expand s) : Settled x :=
  alternation?_eq_none_iff.mp (alternation?_of_mem_expand hx)

theorem not_listed_of_mem_expand (hs : Closed s) (hx : x ∈ expand s) {t : Text} (ht : Listed t) :
    ¬ t <:+: x := by
  rintro ⟨a, b, rfl⟩
  obtain ⟨a₁, a₂, rfl, hopen⟩ := settled_of_mem_expand hx a t b ht (List.append_assoc a t b)
  refine hopen (closed_of_mem_expand hs hx a₁ _ ?_)
  simp

/-- A group with a comma of its own is left only behind a brace that is never closed, so nowhere if
all braces are closed. A pattern without other such groups stays as it is. -/
theorem expand_settles (s : Text) :
    (∀ x ∈ expand s, Settled x) ∧
      (Closed s → ∀ x ∈ expand s, ∀ t, Listed t → ¬ t <:+: x) ∧ (Settled s → expand s = [s]) :=
  ⟨fun _ hx => settled_of_mem_expand hx, fun hs _ hx _ ht => not_listed_of_mem_expand hs hx ht,
    fun hs => expand_of_none (alternation?_eq_none_iff.mpr hs)⟩

theorem expand_settles_behind_open :
    "a\x7bb\x7bc,d\x7d".toList ∈ expand "\x7ba,x\x7d\x7bb\x7bc,d\x7d".toList ∧
      Settled "a\x7bb\x7bc,d\x7d".toList ∧
      expand "a\x7bb\x7bc,d\x7d".toList = ["a\x7bb\x7bc,d\x7d".toList] ∧
      Closed "\x7b\x7ba,b\x7d\x7d\x7d".toList ∧
      "\x7ba\x7d\x7d".toList ∈ expand "\x7b\x7ba,b\x7d\x7d\x7d".toList ∧
      ∀ t, Listed t → ¬ t <:+: "\x7ba\x7d\x7d".toList := by
  have hopen : "a\x7bb\x7bc,d\x7d".toList ∈ expand "\x7ba,x\x7d\x7bb\x7bc,d\x7d".toList := by
    decide +kernel
  have hclosed : Closed "\x7b\x7ba,b\x7d\x7d\x7d".toList := by decide
  have hmem : "\x7ba\x7d\x7d".toList ∈ expand "\x7b\x7ba,b\x7d\x7d\x7d".toList := by
    decide +kernel
  have hsettled := (expand_settles "\x7ba,x\x7d\x7bb\x7bc,d\x7d".toList).1 _ hopen
  exact ⟨hopen, hsettled, (expand_settles "a\x7bb\x7bc,d\x7d".toList).2.2 hsettled, hclosed, hmem,
    (expand_settles "\x7b\x7ba,b\x7d\x7d\x7d".toList).2.1 hclosed _ hmem⟩

/-- The search gives up at an unclosed brace, although a whole group follows it. -/
theorem open_brace_hides_group :
    "\x7bx\x7ba,b\x7d".toList ∈ expand "\x7bx\x7ba,b\x7d".toList ∧ Listed "\x7ba,b\x7d".toList ∧
      "\x7ba,b\x7d".toList <:+: "\x7bx\x7ba,b\x7d".toList := by
  have ha : Balanced ['a'] := .char (by decide) (by decide) .nil
  have hb : Balanced ['b'] := .char (by decide) (by decide) .nil
  exact ⟨by decide +kernel, ⟨['a'], ['b'], ha, hb, rfl⟩, ⟨['{', 'x'], [], rfl⟩⟩

/-! ## Patterns in two parts -/

theorem passed_append (hc : c = '{' → ∃ a rest, readGroup 0 p = some (a, [], rest)) (q : Text)
    (ho : c = '{') : ∃ a rest, readGroup 0 (p ++ q) = some (a, [], rest) := by
  obtain ⟨a, rest, hread⟩ := hc ho
  exact ⟨a, rest ++ q, readGroup_append hread q⟩

theorem alternation?_append_of_some (h : alternation? p = some A) (q : Text) :
    alternation? (p ++ q) = some { A with after := A.after ++ q } := by
  induction p generalizing A with
  | nil => cases h
  | cons c p ih =>
    rw [List.cons_append]
    cases meets c p with
    | unclosed hread =>
      rw [alternation?_unclosed hread] at h
      cases h
    | listed hread =>
      rw [alternation?_listed hread] at h
      cases h
      rw [alternation?_listed (readGroup_append hread q)]
    | passed hc =>
      rw [alternation?_passed hc] at h
      obtain ⟨B, hB, rfl⟩ := Option.map_eq_some_iff.mp h
      rw [alternation?_passed (passed_append hc q), ih hB]
      rfl

theorem alternation?_append_of_none (hp : Closed p) (h : alternation? p = none) (q : Text) :
    alternation? (p ++ q) = (alternation? q).map (.behind p) := by
  induction p with
  | nil => exact (map_behind_nil _).symm
  | cons c p ih =>
    obtain ⟨hcloses, hrest⟩ := closed_cons_iff.mp hp
    rw [List.cons_append]
    cases meets c p with
    | unclosed hread =>
      have hopen := closes_iff.mp (hcloses rfl)
      rw [hread] at hopen
      cases hopen
    | listed hread =>
      rw [alternation?_listed hread] at h
      cases h
    | passed hc =>
      rw [alternation?_passed hc, Option.map_eq_none_iff] at h
      rw [alternation?_passed (passed_append hc q), ih hrest h, map_behind_map_behind]

theorem expand_append_of_none (hp : Closed p) (h : alternation? p = none) (q : Text) :
    expand (p ++ q) = (expand q).map (p ++ ·) := by
  induction q using expansion with
  | settled q hq =>
    have hnone : alternation? (p ++ q) = none := by
      rw [alternation?_append_of_none hp h, hq]
      rfl
    rw [expand_of_none hnone, expand_of_none hq]
    rfl
  | cut q A hq ih =>
    have hsome : alternation? (p ++ q) = some (A.behind p) := by
      rw [alternation?_append_of_none hp h, hq]
      rfl
    rw [expand_of_some hsome, expand_of_some hq, List.map_flatMap]
    refine List.flatMap_congr ?_
    intro x hx
    rw [← ih x hx]
    simp [Alternation.behind, Alternation.choose]

/-- The parts of a pattern are expanded for themselves, the first part slowest. -/
theorem expand_append (hp : Closed p) (q : Text) :
    expand (p ++ q) = (expand p).flatMap fun x => (expand q).map (x ++ ·) := by
  induction p using expansion with
  | settled p h => rw [expand_append_of_none hp h, expand_of_none h, List.flatMap_singleton]
  | cut p A h ih =>
    rw [expand_of_some (alternation?_append_of_some h q), expand_of_some h, List.flatMap_assoc]
    refine List.flatMap_congr ?_
    intro x hx
    rw [← ih x hx ((cut_of_alternation? h).closed_choose hp hx)]
    simp [Alternation.choose]

theorem expand_product :
    (∀ p q, Closed p →
      expand (p ++ q) = (expand p).flatMap fun x => (expand q).map (x ++ ·)) ∧
      ∀ s, expand s ≠ [] :=
  ⟨fun _ q hp => expand_append hp q, expand_ne_nil⟩

theorem expand_product_with_strays :
    Closed "\x7ba,b\x7d\x7d".toList ∧
      expand ("\x7ba,b\x7d\x7d".toList ++ "\x7bc,d\x7d\x7be,".toList) =
        (expand "\x7ba,b\x7d\x7d".toList).flatMap
          (fun x => (expand "\x7bc,d\x7d\x7be,".toList).map (x ++ ·)) ∧
      expand "\x7ba,b\x7d\x7d\x7bc,d\x7d\x7be,".toList =
        ["a\x7dc\x7be,".toList, "a\x7dd\x7be,".toList,
          "b\x7dc\x7be,".toList, "b\x7dd\x7be,".toList] := by
  have hclosed : Closed "\x7ba,b\x7d\x7d".toList := by decide
  exact ⟨hclosed, expand_product.1 _ _ hclosed, by decide +kernel⟩

end Relayout.Glob
