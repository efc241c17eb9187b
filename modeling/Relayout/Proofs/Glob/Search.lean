import Mathlib.Logic.Relation
import Relayout.Proofs.Glob.Marks
import Relayout.Proofs.Outcome

/-!
# Searching for a group by position

The group to expand can also be found by going through the bytes of a pattern: from an opening brace
on the open braces are counted, and the commas noted that stand where one is open. At the brace that
closes it the group is found, or without a comma the search begins anew behind its opening brace.
The search never takes one from a count of none, ends after finitely many steps, and finds the marks
of the group that `alternation?` cuts out.
-/

namespace Relayout.Glob

inductive Search
  | seeking (start : Nat)
  | reading (opening position depth : Nat) (commas : List Nat)
  | ended (found : Option Marks)
  deriving DecidableEq

def oneLess : Nat → Except Mishap Nat
  | 0 => .error .countBelowNone
  | depth + 1 => .ok depth

namespace Search

/-- What follows the brace that closes a group. -/
def closed (opening position : Nat) (commas : List Nat) : Search :=
  if commas = [] then seeking (opening + 1) else ended (some ⟨opening, commas, position⟩)

/-- One step of the search in a pattern. A search that has ended stays as it is. -/
def next (s : Text) : Search → Except Mishap Search
  | seeking start => do
    let rest ← slice s start s.byteCount
    match rest.cutAt '{' with
    | none => return ended none
    | some (passed, _) =>
      return reading (start + passed.byteCount) (start + passed.byteCount) 0 []
  | reading opening position depth commas =>
    match s.toUtf8[position]? with
    | none => return ended none
    | some b =>
      if b = '{'.toUInt8 then return reading opening (position + 1) (depth + 1) commas
      else if b = '}'.toUInt8 then do
        let depth ← oneLess depth
        if depth = 0 then return closed opening position commas
        else return reading opening (position + 1) depth commas
      else if b = ','.toUInt8 ∧ depth = 1 then
        return reading opening (position + 1) depth (commas ++ [position])
      else return reading opening (position + 1) depth commas
  | ended found => return ended found

def Steps (s : Text) (σ τ : Search) : Prop := σ.next s = .ok τ

/-- Whether a search comes to a state from another one. -/
abbrev Reaches (s : Text) : Search → Search → Prop := Relation.ReflTransGen (Steps s)

end Search

variable {s u w a rest : Text} {others : List Text} {c : Char} {m : Marks} {σ τ : Search}
  {d opening position depth start : Nat} {commas : List Nat} {found : Option Marks}

/-! ## Steps of the search -/

namespace Search

theorem steps_end (h : s.toUtf8[position]? = none) :
    Steps s (reading opening position depth commas) (ended none) := by
  simp only [Steps, next, h]
  rfl

theorem steps_opening (h : s.toUtf8[position]? = some '{'.toUInt8) :
    Steps s (reading opening position depth commas)
      (reading opening (position + 1) (depth + 1) commas) := by
  simp only [Steps, next, h, if_pos]
  rfl

theorem steps_closing (h : s.toUtf8[position]? = some '}'.toUInt8) :
    Steps s (reading opening position (d + 1) commas)
      (if d = 0 then closed opening position commas
        else reading opening (position + 1) d commas) := by
  simp only [Steps, next, h, if_neg (show '}'.toUInt8 ≠ '{'.toUInt8 by decide), if_pos]
  cases d <;> rfl

theorem steps_comma (h : s.toUtf8[position]? = some ','.toUInt8) :
    Steps s (reading opening position 1 commas)
      (reading opening (position + 1) 1 (commas ++ [position])) := by
  simp only [Steps, next, h]
  rfl

theorem steps_passed {b : UInt8} (h : s.toUtf8[position]? = some b) (ho : b ≠ '{'.toUInt8)
    (hc : b ≠ '}'.toUInt8) (hcomma : ¬ (b = ','.toUInt8 ∧ depth = 1)) :
    Steps s (reading opening position depth commas)
      (reading opening (position + 1) depth commas) := by
  simp only [Steps, next, h, if_neg ho, if_neg hc, if_neg hcomma]
  rfl

theorem reaches_passed {bytes front back : Bytes} (hs : s.toUtf8 = front ++ (bytes ++ back))
    (h : ∀ b ∈ bytes, b ≠ '{'.toUInt8 ∧ b ≠ '}'.toUInt8 ∧ ¬ (b = ','.toUInt8 ∧ depth = 1)) :
    Reaches s (reading opening front.length depth commas)
      (reading opening (front.length + bytes.length) depth commas) := by
  induction bytes generalizing front with
  | nil => exact .refl
  | cons b bytes ih =>
    obtain ⟨⟨ho, hc, hcomma⟩, hrest⟩ := List.forall_mem_cons.mp h
    have hbyte : s.toUtf8[front.length]? = some b := by simp [hs]
    have hbehind := @ih (front ++ [b]) (by simp [hs]) hrest
    rw [List.length_append, List.length_singleton] at hbehind
    rw [List.length_cons, Nat.add_comm bytes.length, ← Nat.add_assoc]
    exact .head (steps_passed hbyte ho hc hcomma) hbehind

/-- A character that is none of the marks is passed byte by byte. -/
theorem reaches_kept (u w : Text) (ho : c ≠ '{') (hc : c ≠ '}') (hcomma : ¬ (d = 0 ∧ c = ',')) :
    Reaches (u ++ c :: w) (reading opening u.byteCount (d + 1) commas)
      (reading opening (u ++ [c]).byteCount (d + 1) commas) := by
  have hbytes : (u ++ c :: w).toUtf8 = u.toUtf8 ++ (String.utf8EncodeChar c ++ w.toUtf8) := by
    simp
  have hlength : (u ++ [c]).byteCount = u.byteCount + (String.utf8EncodeChar c).length := by
    simp
  rw [hlength]
  apply reaches_passed hbytes
  intro b hb
  refine ⟨?_, ?_, ?_⟩
  · rintro rfl
    exact ho (Text.eq_of_toUInt8_mem_encode (by decide) hb)
  · rintro rfl
    exact hc (Text.eq_of_toUInt8_mem_encode (by decide) hb)
  · rintro ⟨rfl, hd⟩
    exact hcomma ⟨by omega, Text.eq_of_toUInt8_mem_encode (by decide) hb⟩

theorem reaches_opening (u w : Text) :
    Reaches (u ++ '{' :: w) (reading opening u.byteCount depth commas)
      (reading opening (u ++ ['{']).byteCount (depth + 1) commas) := by
  rw [byteCount_concat u size_opening]
  exact .single (steps_opening (Marks.byte_at u size_opening w))

theorem reaches_closing (u w : Text) :
    Reaches (u ++ '}' :: w) (reading opening u.byteCount (d + 2) commas)
      (reading opening (u ++ ['}']).byteCount (d + 1) commas) := by
  rw [byteCount_concat u size_closing]
  exact .single (steps_closing (Marks.byte_at u size_closing w))

theorem reaches_comma (u w : Text) :
    Reaches (u ++ ',' :: w) (reading opening u.byteCount 1 commas)
      (reading opening (u ++ [',']).byteCount 1 (commas ++ [u.byteCount])) := by
  rw [byteCount_concat u size_comma]
  exact .single (steps_comma (Marks.byte_at u size_comma w))

/-! ## Reading a group -/

/-- Where the search goes on once a group with these alternatives has been read, the first of which
begins at `start`. -/
def behindGroup (opening start : Nat) (commas : List Nat) (ts : List Text) : Search :=
  closed opening (start + Text.byteCount (Text.joined ',' ts)) (commas ++ Marks.commasFrom start ts)

theorem behindGroup_cons (u : Text) (c : Char) :
    behindGroup opening (u ++ [c]).byteCount commas (a :: others) =
      behindGroup opening u.byteCount commas ((c :: a) :: others) := by
  cases others <;>
    simp [behindGroup, Text.joined, Marks.commasFrom, Nat.add_assoc]

theorem behindGroup_comma (u : Text) :
    behindGroup opening (u ++ [',']).byteCount (commas ++ [u.byteCount]) (a :: others) =
      behindGroup opening u.byteCount commas ([] :: a :: others) := by
  simp [behindGroup, Text.joined, Marks.commasFrom, Nat.add_assoc]

theorem behindGroup_listed (u rest : Text) {b : Text} :
    behindGroup u.byteCount (u ++ ['{']).byteCount [] (a :: b :: others) =
      ended (some (Alternation.marks ⟨u, a :: b :: others, rest⟩)) := by
  simp [behindGroup, closed, Marks.commasFrom, Alternation.marks]

theorem behindGroup_single (u : Text) :
    behindGroup u.byteCount (u ++ ['{']).byteCount [] [a] =
      seeking (u ++ ['{']).byteCount := by
  simp [behindGroup, closed, Marks.commasFrom]

/-- A group that can be read is read to the brace that closes it. -/
theorem reaches_closed (h : Reads d w a others rest) (u : Text) (commas : List Nat) :
    Reaches (u ++ w) (reading opening u.byteCount (d + 1) commas)
      (behindGroup opening u.byteCount commas (a :: others)) := by
  induction h generalizing u commas with
  | @ended w =>
    have hend : behindGroup opening u.byteCount commas [[]] =
        closed opening u.byteCount commas := by
      simp [behindGroup, Marks.commasFrom, Text.joined]
    rw [hend]
    exact .single (steps_closing (Marks.byte_at u size_closing w))
  | @comma w a rest others _ ih =>
    have hrest := ih (u ++ [',']) (commas ++ [u.byteCount])
    rw [behindGroup_comma, ← List.append_cons] at hrest
    exact (reaches_comma u w).trans hrest
  | @opened d w a rest others _ ih =>
    have hrest := ih (u ++ ['{']) commas
    rw [behindGroup_cons, ← List.append_cons] at hrest
    exact (reaches_opening u w).trans hrest
  | @closed d w a rest others _ ih =>
    have hrest := ih (u ++ ['}']) commas
    rw [behindGroup_cons, ← List.append_cons] at hrest
    exact (reaches_closing u w).trans hrest
  | @kept d c w a rest others ho hc hcomma _ ih =>
    have hrest := ih (u ++ [c]) commas
    rw [behindGroup_cons, ← List.append_cons] at hrest
    exact (reaches_kept u w ho hc hcomma).trans hrest

/-- A group that is never closed is read to the end of the pattern. -/
theorem reaches_end (h : readGroup d w = none) (u : Text) (commas : List Nat) :
    Reaches (u ++ w) (reading opening u.byteCount (d + 1) commas) (ended none) := by
  induction w generalizing d u commas with
  | nil =>
    refine .single (steps_end ?_)
    simp [Text.byteCount]
  | cons c w ih =>
    have hbehind : ∀ {d commas}, readGroup d w = none → Reaches (u ++ c :: w)
        (reading opening (u ++ [c]).byteCount (d + 1) commas) (ended none) := by
      intro d commas h
      have hrest := ih h (u ++ [c]) commas
      rwa [← List.append_cons] at hrest
    by_cases ho : c = '{'
    · subst ho
      rw [readGroup_open, Option.map_eq_none_iff] at h
      exact (reaches_opening u w).trans (hbehind h)
    by_cases hc : c = '}'
    · subst hc
      cases d with
      | zero => cases h
      | succ d =>
        rw [readGroup_close, Option.map_eq_none_iff] at h
        exact (reaches_closing u w).trans (hbehind h)
    by_cases hcomma : d = 0 ∧ c = ','
    · obtain ⟨rfl, rfl⟩ := hcomma
      rw [readGroup_comma, Option.map_eq_none_iff] at h
      exact (reaches_comma u w).trans (hbehind h)
    · rw [readGroup_kept ho hc hcomma, Option.map_eq_none_iff] at h
      exact (reaches_kept u w ho hc hcomma).trans (hbehind h)

/-! ## Running the search -/

theorem not_mem_of_cutAt {stop : Char} (h : s.cutAt stop = none) : stop ∉ s := by
  induction s with
  | nil => exact List.not_mem_nil
  | cons c s ih =>
    rw [Text.cutAt] at h
    split at h
    · cases h
    next hc =>
      rw [Option.map_eq_none_iff] at h
      simp [ih h, Ne.symm hc]

theorem alternation?_behind {q : Text} (hq : '{' ∉ q) (w : Text) :
    alternation? (q ++ w) = (alternation? w).map (.behind q) := by
  induction q with
  | nil => exact (map_behind_nil _).symm
  | cons c q ih =>
    rw [List.mem_cons, not_or] at hq
    rw [List.cons_append, alternation?_passed fun hc => absurd hc.symm hq.1, ih hq.2,
      map_behind_map_behind]

theorem steps_seeking (u w : Text) : Steps (u ++ w) (seeking u.byteCount)
    (match w.cutAt '{' with
      | none => ended none
      | some (q, _) => reading (u ++ q).byteCount (u ++ q).byteCount 0 []) := by
  simp only [Steps, next, slice_back, bind, Except.bind]
  cases w.cutAt '{' <;> simp [pure, Except.pure]

/-- What the search does from an opening brace on. -/
theorem reaches_group (u w : Text) : Reaches (u ++ '{' :: w)
    (reading u.byteCount u.byteCount 0 [])
    (match readGroup 0 w with
      | none => ended none
      | some (a, others, _) =>
        behindGroup u.byteCount (u ++ ['{']).byteCount [] (a :: others)) := by
  refine (reaches_opening u w).trans ?_
  rw [List.append_cons]
  cases hread : readGroup 0 w with
  | none => exact reaches_end hread (u ++ ['{']) []
  | some group =>
    obtain ⟨a, others, rest⟩ := group
    exact reaches_closed (reads_of_eq_some hread) (u ++ ['{']) []

/-- From a position on, the search finds the first group that begins there. -/
theorem reaches_ended (u w : Text) :
    Reaches (u ++ w) (seeking u.byteCount)
      (ended ((alternation? w).map fun A => (A.behind u).marks)) := by
  induction hn : w.length using Nat.strongRecOn generalizing u w with
  | ind n ih =>
    have hstep := steps_seeking u w
    cases hcut : w.cutAt '{' with
    | none =>
      have hnone : alternation? w = none := by
        simpa [alternation?] using alternation?_behind (not_mem_of_cutAt hcut) []
      rw [hcut] at hstep
      rw [hnone]
      exact .single hstep
    | some parts =>
      obtain ⟨q, t⟩ := parts
      obtain ⟨rfl, hq⟩ := Text.cutAt_eq_some hcut
      have hgroup := reaches_group (u ++ q) t
      rw [hcut] at hstep
      rw [List.append_assoc] at hgroup
      refine .head hstep (hgroup.trans ?_)
      rw [alternation?_behind hq]
      cases hread : readGroup 0 t with
      | none =>
        rw [alternation?_unclosed hread]
        exact .refl
      | some group =>
        obtain ⟨a, others, rest⟩ := group
        cases others with
        | cons b others =>
          rw [alternation?_listed hread]
          simp only [behindGroup_listed _ rest, Option.map_some, Alternation.behind,
            List.append_nil]
          exact .refl
        | nil =>
          rw [List.length_append, List.length_cons] at hn
          have hrest := ih t.length (by omega) (u ++ q ++ ['{']) t rfl
          rw [alternation?_passed fun _ => ⟨a, rest, hread⟩]
          simp only [behindGroup_single]
          simpa only [Option.map_map, Function.comp_def, Alternation.behind, List.append_assoc,
            List.cons_append, List.nil_append] using hrest

theorem reaches_marks (s : Text) :
    Reaches s (seeking 0) (ended ((alternation? s).map Alternation.marks)) := by
  simpa [Alternation.behind] using reaches_ended [] s

theorem steps_unique : Relator.RightUnique (Steps s) :=
  fun _ _ _ h h' => Except.ok.inj (h.symm.trans h')

theorem eq_ended_of_reaches (h : Reaches s (ended found) σ) : σ = ended found := by
  induction h with
  | refl => rfl
  | tail _ hstep ih =>
    subst ih
    exact (Except.ok.inj hstep).symm

/-- Whatever state the search comes to, from there it comes to its end. -/
theorem reaches_marks_of_reaches (h : Reaches s (seeking 0) σ) :
    Reaches s σ (ended ((alternation? s).map Alternation.marks)) := by
  rcases Relation.ReflTransGen.total_of_right_unique steps_unique h (reaches_marks s) with h' | h'
  · exact h'
  · rw [eq_ended_of_reaches h']

theorem exists_next_of_reaches (h : Reaches s (seeking 0) σ) : ∃ τ, σ.next s = .ok τ := by
  rcases (reaches_marks_of_reaches h).cases_head with rfl | ⟨τ, hstep, -⟩
  · exact ⟨_, rfl⟩
  · exact ⟨τ, hstep⟩

theorem eq_marks_of_reaches (h : Reaches s (seeking 0) (ended found)) :
    found = (alternation? s).map Alternation.marks :=
  ended.inj (eq_ended_of_reaches (reaches_marks_of_reaches h)).symm

theorem depth_pos_of_reaches (h : Reaches s (seeking 0) (reading opening position depth commas))
    (hbyte : s.toUtf8[position]? = some '}'.toUInt8) : 1 ≤ depth := by
  obtain ⟨τ, hnext⟩ := exists_next_of_reaches h
  cases depth with
  | zero =>
    simp only [next, hbyte] at hnext
    cases hnext
  | succ depth => omega

/-! ## Where the search begins anew -/

/-- Whether a search is past a position. -/
def Past (start : Nat) : Search → Prop
  | seeking again => start < again
  | reading opening _ _ _ => start ≤ opening
  | ended _ => True

theorem Past.mono {again : Nat} (h : start ≤ again) (hp : Past again σ) : Past start σ := by
  cases σ with
  | seeking last => exact Nat.lt_of_le_of_lt h hp
  | reading opening position depth commas => exact Nat.le_trans h hp
  | ended found => trivial

theorem past_closed (h : start ≤ opening) : Past start (closed opening position commas) := by
  unfold closed
  split
  · exact Nat.lt_succ_of_le h
  · trivial

theorem past_of_seeking (h : Steps s (seeking start) τ) : Past start τ := by
  obtain ⟨rest, -, h⟩ := Outcome.bind_eq_ok_iff.mp h
  split at h
  · cases h
    trivial
  · cases h
    exact Nat.le_add_right _ _

theorem past_of_reading (h : Steps s (reading opening position depth commas) τ) :
    Past opening τ := by
  rw [Steps, next] at h
  split at h
  · cases h
    trivial
  · split at h
    · cases h
      exact Nat.le_refl opening
    split at h
    · obtain ⟨depth, -, h⟩ := Outcome.bind_eq_ok_iff.mp h
      split at h
      · cases h
        exact past_closed (Nat.le_refl opening)
      · cases h
        exact Nat.le_refl opening
    split at h
    · cases h
      exact Nat.le_refl opening
    · cases h
      exact Nat.le_refl opening

theorem Past.steps (hp : Past start σ) (h : Steps s σ τ) : Past start τ := by
  cases σ with
  | seeking again => exact (past_of_seeking h).mono (Nat.le_of_lt hp)
  | reading opening position depth commas => exact (past_of_reading h).mono hp
  | ended found =>
    cases h
    trivial

theorem past_of_transGen (h : Relation.TransGen (Steps s) (seeking start) σ) : Past start σ := by
  induction h with
  | single h => exact past_of_seeking h
  | tail _ h ih => exact ih.steps h

end Search

/-- The search for a group goes on to its end without a count below none or a cut inside a
character, and begins anew only further on. The group it finds has its marks in order and is the one
that is cut out, and each alternative in its place leaves fewer opening braces than before. -/
theorem expansion_total (s : Text) :
    (∀ σ, Search.Reaches s (.seeking 0) σ → ∃ τ, σ.next s = .ok τ) ∧
      (∀ opening position depth commas,
        Search.Reaches s (.seeking 0) (.reading opening position depth commas) →
          s.toUtf8[position]? = some '}'.toUInt8 → 1 ≤ depth) ∧
      (∀ start again,
        Relation.TransGen (Search.Steps s) (.seeking start) (.seeking again) → start < again) ∧
      (∃ found, Search.Reaches s (.seeking 0) (.ended found)) ∧
      (Search.Reaches s (.seeking 0) (.ended none) → expand s = [s]) ∧
      ∀ m, Search.Reaches s (.seeking 0) (.ended (some m)) →
        m.Fit s ∧ ∃ A, m.cut s = .ok A ∧ Cut s A ∧
          (∀ x ∈ A.alternatives, (A.choose x).count '{' < s.count '{') ∧
          expand s = A.alternatives.flatMap fun x => expand (A.choose x) := by
  refine ⟨fun _ => Search.exists_next_of_reaches, fun _ _ _ _ => Search.depth_pos_of_reaches,
    fun _ _ => Search.past_of_transGen, ⟨_, Search.reaches_marks s⟩, ?_, ?_⟩
  · intro h
    exact expand_of_none (Option.map_eq_none_iff.mp (Search.eq_marks_of_reaches h).symm)
  · intro m h
    obtain ⟨A, hA, rfl⟩ := Option.map_eq_some_iff.mp (Search.eq_marks_of_reaches h).symm
    have hcut := cut_of_alternation? hA
    exact ⟨hcut.fit_marks, A, hcut.cut_marks, hcut, count_lt_of_alternation hA, expand_of_some hA⟩

def stray : Text := "\x7b\x7dé\x7b,\x7bé\x7d\x7d,".toList

/-- The first group has no comma, so the search begins anew behind its brace. -/
theorem stray_expansion :
    Search.Reaches stray (.seeking 0) (.reading 0 1 1 []) ∧
      stray.toUtf8[1]? = some '}'.toUInt8 ∧ 1 ≤ 1 ∧
      Relation.TransGen (Search.Steps stray) (.seeking 0) (.seeking 1) ∧ 0 < 1 ∧
      Search.Reaches stray (.seeking 0) (.ended (some ⟨4, [5], 10⟩)) ∧
      Marks.Fit stray ⟨4, [5], 10⟩ ∧ Marks.cut stray ⟨4, [5], 10⟩ =
        .ok ⟨"\x7b\x7dé".toList, [[], "\x7bé\x7d".toList], [',']⟩ := by
  have hfirst : Search.Steps stray (.seeking 0) (.reading 0 0 0 []) := rfl
  have hsecond : Search.Steps stray (.reading 0 0 0 []) (.reading 0 1 1 []) := rfl
  have hthird : Search.Steps stray (.reading 0 1 1 []) (.seeking 1) := rfl
  have hreading : Search.Reaches stray (.seeking 0) (.reading 0 1 1 []) :=
    .tail (.single hfirst) hsecond
  have hagain : Relation.TransGen (Search.Steps stray) (.seeking 0) (.seeking 1) :=
    .tail (.tail (.single hfirst) hsecond) hthird
  have hended : Search.Reaches stray (.seeking 0) (.ended (some ⟨4, [5], 10⟩)) :=
    Search.reaches_marks stray
  obtain ⟨-, hdepth, hpast, -, -, hfound⟩ := expansion_total stray
  obtain ⟨hfit, -⟩ := hfound _ hended
  exact ⟨hreading, rfl, hdepth _ _ _ _ hreading rfl, hagain, hpast _ _ hagain, hended, hfit, rfl⟩

end Relayout.Glob
