import Relayout.Glob.Selection
import Relayout.Proofs.Outcome
import Relayout.Proofs.Path.Text

/-!
# What patterns select

A pattern stands for its alternatives: it is valid where all of them can be read, and a text matches
it where one of them accepts the text. Valid patterns make a selection, and this selects the paths
whose texts match the pattern to include and none of those to exclude. A path with strays is never
selected.
-/

namespace Relayout.Glob

/-- Whether every alternative of a pattern can be read. -/
def Valid (pattern : Text) : Prop :=
  ∀ alternative ∈ expand pattern, ∃ tokens, Pattern.ofText alternative = .ok tokens

/-- Whether one of the alternatives of a pattern accepts a text. -/
def Matches (pattern t : Text) : Prop :=
  ∃ alternative ∈ expand pattern, ∃ tokens,
    Pattern.ofText alternative = .ok tokens ∧ tokens.accepts t

/-- Whether a pattern matches the text of a path that has no strays. -/
def MatchesPath (pattern : Text) (p : Path) : Prop := ∃ t, p.text? = some t ∧ Matches pattern t

variable {pattern included t : Text} {excluded : List Text} {read : List Pattern} {s : Selection}

theorem valid_iff :
    Valid pattern ↔ ∀ alternative ∈ expand pattern, (Pattern.ofText alternative).isOk := by
  refine forall₂_congr fun alternative _ => ?_
  cases Pattern.ofText alternative <;> simp [Except.isOk, Except.toBool]

theorem matches_iff : Matches pattern t ↔ ∃ alternative ∈ expand pattern,
    (Pattern.ofText alternative).toOption.any (·.accepts t) := by
  refine exists_congr fun alternative => and_congr_right fun _ => ?_
  cases Pattern.ofText alternative <;> simp [Except.toOption]

instance (pattern : Text) : Decidable (Valid pattern) := decidable_of_iff _ valid_iff.symm

instance (pattern t : Text) : Decidable (Matches pattern t) := decidable_of_iff _ matches_iff.symm

theorem matchesPath_iff_isText {p : Path} :
    MatchesPath pattern p ↔ p.IsText ∧ Matches pattern p.text :=
  Path.exists_text?_iff

theorem acceptsPath_iff {tokens : Pattern} {p : Path} :
    tokens.acceptsPath p ↔ p.IsText ∧ tokens.accepts p.text := by
  rw [Pattern.acceptsPath, Option.any_eq_true]
  exact Path.exists_text?_iff

instance (pattern : Text) (p : Path) : Decidable (MatchesPath pattern p) :=
  decidable_of_iff _ matchesPath_iff_isText.symm

theorem exists_patterns_iff : (∃ read, patterns pattern = .ok read) ↔ Valid pattern := by
  simp only [patterns, Outcome.exists_mapM_eq_ok_iff, Outcome.mapError_eq_ok_iff, Valid]

theorem exists_mem_patterns_iff (h : patterns pattern = .ok read) :
    (∃ tokens ∈ read, tokens.accepts t) ↔ Matches pattern t := by
  simp only [Outcome.mem_of_mapM_eq_ok h, Outcome.mapError_eq_ok_iff, Matches]
  constructor
  · rintro ⟨tokens, ⟨alternative, hm, hread⟩, haccepts⟩
    exact ⟨alternative, hm, tokens, hread, haccepts⟩
  · rintro ⟨alternative, hm, tokens, hread, haccepts⟩
    exact ⟨tokens, ⟨alternative, hm, hread⟩, haccepts⟩

namespace Selection

theorem ofPatterns_eq_ok_iff :
    ofPatterns included excluded = .ok s ↔ patterns included = .ok s.included ∧
      ∃ reads, excluded.mapM patterns = .ok reads ∧ reads.flatten = s.excluded := by
  obtain ⟨_, _⟩ := s
  simp only [ofPatterns, Outcome.bind_eq_ok_iff, Outcome.pure_eq_ok_iff, mk.injEq]
  constructor
  · rintro ⟨_, hincluded, reads, hexcluded, rfl, rfl⟩
    exact ⟨hincluded, reads, hexcluded, rfl⟩
  · rintro ⟨hincluded, reads, hexcluded, rfl⟩
    exact ⟨_, hincluded, reads, hexcluded, rfl, rfl⟩

theorem exists_ofPatterns_iff :
    (∃ s, ofPatterns included excluded = .ok s) ↔
      ∀ pattern ∈ included :: excluded, Valid pattern := by
  simp only [List.forall_mem_cons, ← exists_patterns_iff, ← Outcome.exists_mapM_eq_ok_iff,
    ofPatterns_eq_ok_iff]
  constructor
  · rintro ⟨s, hincluded, reads, hexcluded, -⟩
    exact ⟨⟨s.included, hincluded⟩, reads, hexcluded⟩
  · rintro ⟨⟨read, hincluded⟩, reads, hexcluded⟩
    exact ⟨⟨read, reads.flatten⟩, hincluded, reads, hexcluded, rfl⟩

/-- Which pattern an excluded alternative comes from makes no difference. -/
theorem exists_mem_excluded_iff (h : ofPatterns included excluded = .ok s) :
    (∃ tokens ∈ s.excluded, tokens.accepts t) ↔ ∃ pattern ∈ excluded, Matches pattern t := by
  obtain ⟨-, reads, hreads, hflatten⟩ := ofPatterns_eq_ok_iff.mp h
  simp only [← hflatten, List.mem_flatten, Outcome.mem_of_mapM_eq_ok hreads]
  constructor
  · rintro ⟨tokens, ⟨read, ⟨pattern, hm, hread⟩, htokens⟩, haccepts⟩
    exact ⟨pattern, hm, (exists_mem_patterns_iff hread).mp ⟨tokens, htokens, haccepts⟩⟩
  · rintro ⟨pattern, hm, hmatches⟩
    obtain ⟨read, hread⟩ := Outcome.exists_mapM_eq_ok_iff.mp ⟨reads, hreads⟩ pattern hm
    obtain ⟨tokens, htokens, haccepts⟩ := (exists_mem_patterns_iff hread).mpr hmatches
    exact ⟨tokens, ⟨read, ⟨pattern, hm, hread⟩, htokens⟩, haccepts⟩

theorem accepts_iff (h : ofPatterns included excluded = .ok s) (p : Path) :
    s.accepts p ↔
      MatchesPath included p ∧ ∀ pattern ∈ excluded, ¬ MatchesPath pattern p := by
  by_cases htext : p.IsText
  · have hnone : (∀ pattern ∈ excluded, ¬ Matches pattern p.text) ↔
        ¬ ∃ pattern ∈ excluded, Matches pattern p.text := by simp
    simp only [matchesPath_iff_isText, htext, true_and]
    rw [hnone, ← exists_mem_excluded_iff h, ← exists_mem_patterns_iff (ofPatterns_eq_ok_iff.mp h).1]
    simp [accepts, acceptsPath_iff, htext]
  · simp [accepts, acceptsPath_iff, matchesPath_iff_isText, htext]

end Selection

end Relayout.Glob
