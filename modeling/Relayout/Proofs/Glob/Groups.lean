import Mathlib.Data.List.Basic
import Relayout.Glob.Braces

/-!
# Braces and their matches

Balanced texts are given by a grammar that knows nothing of how groups are read. An opening brace
has its match where a balanced text and a closing brace follow it. Reading a group succeeds exactly
there, its alternatives are balanced, and a balanced text never changes what lies behind it.
-/

namespace Relayout.Glob

inductive Balanced : Text → Prop
  | nil : Balanced []
  | char {c : Char} {s : Text} (ho : c ≠ '{') (hc : c ≠ '}') (hs : Balanced s) : Balanced (c :: s)
  | group {u s : Text} (hu : Balanced u) (hs : Balanced s) : Balanced ('{' :: (u ++ '}' :: s))

/-- Whether an opening brace before `s` has its match in `s`. -/
def Closes (s : Text) : Prop := ∃ u r, Balanced u ∧ s = u ++ '}' :: r

/-- Whether every opening brace has its match. There may be other closing braces. -/
def Closed (s : Text) : Prop := ∀ a b, s = a ++ '{' :: b → Closes b

/-- A brace group with a comma of its own. -/
def Listed (t : Text) : Prop :=
  ∃ u v, Balanced u ∧ Balanced v ∧ t = '{' :: (u ++ ',' :: (v ++ ['}']))

variable {d : Nat} {s s' u v t a b r rest : Text} {others : List Text} {c : Char}

namespace Balanced

theorem append (hu : Balanced u) (hv : Balanced v) : Balanced (u ++ v) := by
  induction hu with
  | nil => exact hv
  | char ho hc _ ih => exact .char ho hc ih
  | group hw _ _ ih =>
    have h := Balanced.group hw ih
    simpa using h

theorem joined {ts : List Text} (h : ∀ t ∈ ts, Balanced t) : Balanced (Text.joined ',' ts) := by
  induction ts with
  | nil => exact .nil
  | cons t ts ih =>
    have ht := h t List.mem_cons_self
    have hts := ih fun x hx => h x (List.mem_cons_of_mem t hx)
    cases ts with
    | nil => exact ht
    | cons x ts => exact ht.append (.char (by decide) (by decide) hts)

end Balanced

theorem Closes.append (h : Closes s) (q : Text) : Closes (s ++ q) := by
  obtain ⟨u, r, hu, rfl⟩ := h
  exact ⟨u, r ++ q, hu, by simp⟩

theorem closed_nil : Closed [] := by
  intro a b h
  simp at h

theorem closed_cons_iff : Closed (c :: s) ↔ (c = '{' → Closes s) ∧ Closed s := by
  constructor
  · intro h
    refine ⟨?_, ?_⟩
    · rintro rfl
      exact h [] s rfl
    · intro a b hs
      exact h (c :: a) b (by rw [hs, List.cons_append])
  · rintro ⟨hc, hs⟩ a b h
    cases a with
    | nil =>
      obtain ⟨rfl, rfl⟩ := List.cons_eq_cons.mp h
      exact hc rfl
    | cons x a =>
      obtain ⟨rfl, rfl⟩ := List.cons_eq_cons.mp h
      exact hs a b rfl

theorem Closed.of_append (h : Closed (a ++ b)) : Closed b := by
  induction a with
  | nil => exact h
  | cons c a ih => exact ih (closed_cons_iff.mp h).2

theorem Closed.append (ha : Closed a) (hb : Closed b) : Closed (a ++ b) := by
  induction a with
  | nil => exact hb
  | cons c a ih =>
    obtain ⟨hc, ha⟩ := closed_cons_iff.mp ha
    exact closed_cons_iff.mpr ⟨fun h => (hc h).append b, ih ha⟩

theorem Balanced.closed (h : Balanced u) : Closed u := by
  induction h with
  | nil => exact closed_nil
  | char ho _ _ ih => exact closed_cons_iff.mpr ⟨fun h => absurd h ho, ih⟩
  | @group w v hw _ ihw ihv =>
    refine closed_cons_iff.mpr ⟨fun _ => ⟨w, v, hw, rfl⟩, ihw.append ?_⟩
    exact closed_cons_iff.mpr ⟨fun h => absurd h (by decide), ihv⟩

/-! ## Reading a group -/

/-- What was read of a group, with a text put before its first alternative. -/
def lead (u : Text) : Text × List Text × Text → Text × List Text × Text
  | (a, others, rest) => (u ++ a, others, rest)

theorem map_lead_nil (x : Option (Text × List Text × Text)) : x.map (lead []) = x := by
  cases x <;> rfl

theorem map_lead_map_lead (x : Option (Text × List Text × Text)) :
    (x.map (lead u)).map (lead v) = x.map (lead (v ++ u)) := by
  cases x <;> simp [lead]

theorem map_lead_eq_some_iff {x : Option (Text × List Text × Text)} :
    x.map (lead u) = some (a, others, rest) ↔ ∃ a', x = some (a', others, rest) ∧ u ++ a' = a := by
  constructor
  · intro h
    obtain ⟨⟨a', others', rest'⟩, rfl, heq⟩ := Option.map_eq_some_iff.mp h
    obtain ⟨rfl, rfl, rfl⟩ : u ++ a' = a ∧ others' = others ∧ rest' = rest := by
      simpa [lead] using heq
    exact ⟨a', rfl, rfl⟩
  · rintro ⟨a', rfl, rfl⟩
    rfl

theorem readGroup_open : readGroup d ('{' :: s) = (readGroup (d + 1) s).map (lead ['{']) := rfl

theorem readGroup_close : readGroup (d + 1) ('}' :: s) = (readGroup d s).map (lead ['}']) := rfl

theorem readGroup_end : readGroup 0 ('}' :: s) = some ([], [], s) := rfl

theorem readGroup_comma :
    readGroup 0 (',' :: s) = (readGroup 0 s).map fun (a, others, rest) => ([], a :: others, rest) :=
  rfl

theorem readGroup_kept (ho : c ≠ '{') (hc : c ≠ '}') (h : ¬ (d = 0 ∧ c = ',')) :
    readGroup d (c :: s) = (readGroup d s).map (lead [c]) := by
  rw [readGroup.eq_def]
  split
  · contradiction
  next heq =>
    obtain ⟨rfl, rfl⟩ := List.cons_eq_cons.mp heq
    split
    · exact absurd rfl ho
    · exact absurd rfl hc
    · cases d with
      | zero => exact absurd ⟨rfl, rfl⟩ h
      | succ d => rfl
    · rfl

/-- How a group is read, by what stands first in it. -/
inductive Reads : Nat → Text → Text → List Text → Text → Prop
  | ended {s : Text} : Reads 0 ('}' :: s) [] [] s
  | comma {s a rest : Text} {others : List Text} (h : Reads 0 s a others rest) :
      Reads 0 (',' :: s) [] (a :: others) rest
  | opened {d : Nat} {s a rest : Text} {others : List Text} (h : Reads (d + 1) s a others rest) :
      Reads d ('{' :: s) ('{' :: a) others rest
  | closed {d : Nat} {s a rest : Text} {others : List Text} (h : Reads d s a others rest) :
      Reads (d + 1) ('}' :: s) ('}' :: a) others rest
  | kept {d : Nat} {c : Char} {s a rest : Text} {others : List Text} (ho : c ≠ '{') (hc : c ≠ '}')
      (hcomma : ¬ (d = 0 ∧ c = ',')) (h : Reads d s a others rest) :
      Reads d (c :: s) (c :: a) others rest

theorem Reads.eq_some (h : Reads d s a others rest) : readGroup d s = some (a, others, rest) := by
  induction h with
  | ended => rfl
  | comma _ ih => rw [readGroup_comma, ih, Option.map_some]
  | opened _ ih => rw [readGroup_open, ih, Option.map_some, lead, List.singleton_append]
  | closed _ ih => rw [readGroup_close, ih, Option.map_some, lead, List.singleton_append]
  | kept ho hc hcomma _ ih =>
    rw [readGroup_kept ho hc hcomma, ih, Option.map_some, lead, List.singleton_append]

theorem reads_of_eq_some (h : readGroup d s = some (a, others, rest)) :
    Reads d s a others rest := by
  induction s generalizing d a others with
  | nil => cases h
  | cons c s ih =>
    by_cases ho : c = '{'
    · subst ho
      rw [readGroup_open] at h
      obtain ⟨a₁, hread, rfl⟩ := map_lead_eq_some_iff.mp h
      exact .opened (ih hread)
    by_cases hc : c = '}'
    · subst hc
      cases d with
      | zero =>
        cases h
        exact .ended
      | succ d =>
        rw [readGroup_close] at h
        obtain ⟨a₁, hread, rfl⟩ := map_lead_eq_some_iff.mp h
        exact .closed (ih hread)
    by_cases hcomma : d = 0 ∧ c = ','
    · obtain ⟨rfl, rfl⟩ := hcomma
      rw [readGroup_comma] at h
      obtain ⟨⟨a₁, others₁, rest₁⟩, hread, heq⟩ := Option.map_eq_some_iff.mp h
      cases heq
      exact .comma (ih hread)
    · rw [readGroup_kept ho hc hcomma] at h
      obtain ⟨a₁, hread, rfl⟩ := map_lead_eq_some_iff.mp h
      exact .kept ho hc hcomma (ih hread)

/-- A balanced text inside a group belongs to one alternative. -/
theorem readGroup_balanced (hu : Balanced u) :
    readGroup (d + 1) (u ++ s) = (readGroup (d + 1) s).map (lead u) := by
  induction hu generalizing d s with
  | nil => rw [List.nil_append, map_lead_nil]
  | char ho hc _ ih =>
    rw [List.cons_append, readGroup_kept ho hc (by simp), ih, map_lead_map_lead,
      List.singleton_append]
  | @group w v _ _ ihw ihv =>
    rw [List.cons_append, List.append_assoc, List.cons_append, readGroup_open, ihw, readGroup_close,
      ihv, map_lead_map_lead, map_lead_map_lead, map_lead_map_lead]
    simp

/-- A balanced text at the front of a group adds alternatives to it, if anything. -/
theorem readGroup_balanced_zero (hu : Balanced u) (h : readGroup 0 s = some (a, others, rest)) :
    ∃ a' others', readGroup 0 (u ++ s) = some (a', others', rest) ∧
      others.length ≤ others'.length := by
  induction hu with
  | nil => exact ⟨a, others, h, Nat.le_refl _⟩
  | @char c w ho hc _ ih =>
    obtain ⟨a', others', ih, hle⟩ := ih
    by_cases hcomma : c = ','
    · subst hcomma
      refine ⟨[], a' :: others', ?_, Nat.le_succ_of_le hle⟩
      rw [List.cons_append, readGroup_comma, ih]
      rfl
    · refine ⟨c :: a', others', ?_, hle⟩
      rw [List.cons_append, readGroup_kept ho hc (by simp [hcomma]), ih]
      rfl
  | @group w v hw _ _ ih =>
    obtain ⟨a', others', ih, hle⟩ := ih
    refine ⟨'{' :: (w ++ '}' :: a'), others', ?_, hle⟩
    rw [List.cons_append, List.append_assoc, List.cons_append, readGroup_open,
      readGroup_balanced hw, readGroup_close, ih]
    rfl

/-- What is read inside a group ends with the closing brace of that group. -/
theorem Reads.exists_of_succ (h : Reads (d + 1) s a others rest) :
    ∃ u s' a', Balanced u ∧ s = u ++ '}' :: s' ∧ a = u ++ '}' :: a' ∧
      Reads d s' a' others rest := by
  -- A group inside is read to its end first, which leaves a shorter text but not a shorter reading.
  induction hn : s.length using Nat.strongRecOn generalizing d s a with
  | ind n ih =>
    cases h with
    | @opened _ s a₁ _ _ hinner =>
      rw [List.length_cons] at hn
      obtain ⟨u₁, s₁, a₂, hu₁, rfl, rfl, hbehind⟩ := ih s.length (by omega) hinner rfl
      rw [List.length_append, List.length_cons] at hn
      obtain ⟨u₂, s₂, a₃, hu₂, rfl, rfl, houter⟩ := ih s₁.length (by omega) hbehind rfl
      exact ⟨'{' :: (u₁ ++ '}' :: u₂), s₂, a₃, .group hu₁ hu₂, by simp, by simp, houter⟩
    | @closed _ s a₁ _ _ houter => exact ⟨[], s, a₁, .nil, rfl, rfl, houter⟩
    | @kept _ c s a₁ _ _ ho hc _ hrest =>
      rw [List.length_cons] at hn
      obtain ⟨u, s₁, a₂, hu, rfl, rfl, houter⟩ := ih s.length (by omega) hrest rfl
      exact ⟨c :: u, s₁, a₂, .char ho hc hu, rfl, rfl, houter⟩

theorem joined_append (u a : Text) (others : List Text) :
    Text.joined ',' ((u ++ a) :: others) = u ++ Text.joined ',' (a :: others) := by
  cases others <;> simp [Text.joined]

/-- The alternatives of a group are balanced, and with commas between them they are its text. -/
theorem Reads.balanced (h : Reads 0 s a others rest) :
    (∀ x ∈ a :: others, Balanced x) ∧ s = Text.joined ',' (a :: others) ++ '}' :: rest := by
  induction hn : s.length using Nat.strongRecOn generalizing s a others with
  | ind n ih =>
    cases h with
    | ended => exact ⟨List.forall_mem_singleton.mpr .nil, rfl⟩
    | @comma s a₁ _ others₁ hrest =>
      rw [List.length_cons] at hn
      obtain ⟨hbalanced, rfl⟩ := ih s.length (by omega) hrest rfl
      exact ⟨List.forall_mem_cons.mpr ⟨.nil, hbalanced⟩, rfl⟩
    | @opened _ s a₁ _ _ hinner =>
      obtain ⟨u, s₁, a₂, hu, rfl, rfl, hrest⟩ := hinner.exists_of_succ
      rw [List.length_cons, List.length_append, List.length_cons] at hn
      obtain ⟨hbalanced, rfl⟩ := ih s₁.length (by omega) hrest rfl
      obtain ⟨ha, hothers⟩ := List.forall_mem_cons.mp hbalanced
      refine ⟨List.forall_mem_cons.mpr ⟨.group hu ha, hothers⟩, ?_⟩
      have hjoined := joined_append ('{' :: (u ++ ['}'])) a₂ others
      simp only [List.cons_append, List.append_assoc, List.nil_append] at hjoined ⊢
      rw [hjoined]
      simp
    | @kept _ c s a₁ _ _ ho hc _ hrest =>
      rw [List.length_cons] at hn
      obtain ⟨hbalanced, rfl⟩ := ih s.length (by omega) hrest rfl
      obtain ⟨ha, hothers⟩ := List.forall_mem_cons.mp hbalanced
      refine ⟨List.forall_mem_cons.mpr ⟨.char ho hc ha, hothers⟩, ?_⟩
      exact congrArg (· ++ '}' :: rest) (joined_append [c] a₁ others).symm

theorem closes_iff : Closes s ↔ (readGroup 0 s).isSome := by
  rw [Option.isSome_iff_exists]
  constructor
  · rintro ⟨u, r, hu, rfl⟩
    obtain ⟨a, others, h, -⟩ := readGroup_balanced_zero hu (readGroup_end (s := r))
    exact ⟨(a, others, r), h⟩
  · rintro ⟨⟨a, others, rest⟩, h⟩
    obtain ⟨hbalanced, rfl⟩ := (reads_of_eq_some h).balanced
    exact ⟨_, rest, .joined hbalanced, rfl⟩

instance : DecidablePred Closes := fun _ => decidable_of_iff' _ closes_iff

instance : DecidablePred Closed
  | [] => isTrue closed_nil
  | _ :: s =>
    have := instDecidablePredTextClosed s
    decidable_of_iff' _ closed_cons_iff

/-- What follows a group does not change how it is read. -/
theorem Reads.append (h : Reads d s a others rest) (q : Text) :
    Reads d (s ++ q) a others (rest ++ q) := by
  induction h with
  | ended => exact .ended
  | comma _ ih => exact .comma ih
  | opened _ ih => exact .opened ih
  | closed _ ih => exact .closed ih
  | kept ho hc hcomma _ ih => exact .kept ho hc hcomma ih

theorem readGroup_append (h : readGroup d s = some (a, others, rest)) (q : Text) :
    readGroup d (s ++ q) = some (a, others, rest ++ q) :=
  ((reads_of_eq_some h).append q).eq_some

/-! ## Texts that may stand for each other -/

theorem isSome_readGroup_kept (ho : c ≠ '{') (hc : c ≠ '}') :
    (readGroup d (c :: s)).isSome = (readGroup d s).isSome := by
  by_cases hcomma : d = 0 ∧ c = ','
  · obtain ⟨rfl, rfl⟩ := hcomma
    rw [readGroup_comma, Option.isSome_map]
  · rw [readGroup_kept ho hc hcomma, Option.isSome_map]

/-- A balanced text has no part in whether what lies before it is closed. -/
theorem isSome_readGroup_balanced (hu : Balanced u) :
    (readGroup d (u ++ s)).isSome = (readGroup d s).isSome := by
  induction hu generalizing d s with
  | nil => rfl
  | char ho hc _ ih => rw [List.cons_append, isSome_readGroup_kept ho hc, ih]
  | group hw _ _ ih =>
    rw [List.cons_append, List.append_assoc, List.cons_append, readGroup_open, Option.isSome_map,
      readGroup_balanced hw, Option.isSome_map, readGroup_close, Option.isSome_map, ih]

theorem isSome_readGroup_congr
    (h : ∀ d, (readGroup d s).isSome = (readGroup d s').isSome) (b : Text) :
    (readGroup d (b ++ s)).isSome = (readGroup d (b ++ s')).isSome := by
  induction b generalizing d with
  | nil => exact h d
  | cons c b ih =>
    rw [List.cons_append, List.cons_append]
    by_cases ho : c = '{'
    · subst ho
      simp only [readGroup_open, Option.isSome_map, ih]
    · by_cases hc : c = '}'
      · subst hc
        cases d with
        | zero => rfl
        | succ d => simp only [readGroup_close, Option.isSome_map, ih]
      · rw [isSome_readGroup_kept ho hc, isSome_readGroup_kept ho hc, ih]

/-- A balanced text may be replaced by another one. -/
theorem Closed.replace (h : Closed (b ++ (u ++ r))) (hu : Balanced u) (hv : Balanced v) :
    Closed (b ++ (v ++ r)) := by
  have hsame : ∀ d, (readGroup d (u ++ r)).isSome = (readGroup d (v ++ r)).isSome := by
    intro d
    rw [isSome_readGroup_balanced hu, isSome_readGroup_balanced hv]
  induction b with
  | nil => exact hv.closed.append (Closed.of_append (a := u) h)
  | cons c b ih =>
    rw [List.cons_append] at h ⊢
    obtain ⟨hc, h⟩ := closed_cons_iff.mp h
    refine closed_cons_iff.mpr ⟨?_, ih h⟩
    intro ho
    rw [closes_iff, ← isSome_readGroup_congr hsame]
    exact closes_iff.mp (hc ho)

end Relayout.Glob
