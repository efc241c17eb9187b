import Relayout.Proofs.Outcome
import Relayout.Transform

/-!
# What a transform is made of

A configuration compiles in one way, and a compiled transform gives one of three kinds of commands
for a file. Everything that is shown of planned commands goes through these two descriptions.
-/

namespace Relayout

namespace RuleSpec

/-- What a rule becomes. An append without a guard becomes nothing. -/
inductive Compiled : RuleSpec → Rule → Prop
  | replaceDir (source target : Text) :
      Compiled (.replaceDirectoryName source target) (.replaceDir source target)
  | appendDir (name : Text) {fileRoot : Text} (guarded : fileRoot ≠ []) :
      Compiled (.appendDirectoryName name (some fileRoot))
        (.appendDir ⟨fileRoot⟩ (if name = "@fileRoot".toList then .fileRoot else .literal name))
  | replaceFileRoot (fileRoot : Text) :
      Compiled (.replaceFileRoot fileRoot) (.replaceFileRoot fileRoot)

theorem compile?_eq_some_iff {s : RuleSpec} {r : Rule} : s.compile? = some r ↔ s.Compiled r := by
  constructor
  · intro h
    cases s with
    | replaceDirectoryName source target =>
      cases h
      exact .replaceDir source target
    | appendDirectoryName name fileRootNot =>
      match fileRootNot with
      | none => cases h
      | some [] => cases h
      | some (c :: cs) =>
        cases h
        exact .appendDir name (List.cons_ne_nil c cs)
    | replaceFileRoot fileRoot =>
      cases h
      exact .replaceFileRoot fileRoot
  · intro h
    cases h with
    | replaceDir _ _ => rfl
    | appendDir name guarded =>
      obtain ⟨c, cs, rfl⟩ := List.exists_cons_of_ne_nil guarded
      rfl
    | replaceFileRoot _ => rfl

end RuleSpec

namespace Config

open Outcome

theorem requireSupported_eq_ok_iff {c : Config} {u : Unit} :
    c.requireSupported = .ok u ↔ c.version = supportedVersion ∧ c.posix = true := by
  unfold requireSupported
  by_cases hv : c.version = supportedVersion
  · by_cases hp : c.posix = true
    · simp [hv, hp, pure_eq_ok_iff]
    · simp [hv, hp, throw_ne_ok]
  · simp [hv, bind_eq_ok_iff, throw_ne_ok]

def deletions (c : Config) : List Text := (c.deleteRules.bind (·.fileRoot)).getD []

/-- The rules that a configuration has where it compiles. -/
def ruleSets (c : Config) : RuleSets where
  delete := ((c.deleteRules.bind (·.fileRoot)).getD []).map Deletion.mk
  replace := compileRules c.replaceRules
  copy := compileRules c.copyRules

theorem ruleSets_replace (c : Config) : c.ruleSets.replace = compileRules c.replaceRules := rfl

theorem ruleSets_copy (c : Config) : c.ruleSets.copy = compileRules c.copyRules := rfl

theorem compile_eq (c : Config) : c.compile = c.requireSupported >>= fun _ =>
    if c.ruleSets.replace ≠ [] ∧ c.ruleSets.copy ≠ [] then throw .conflictingRuleSets
    else pure c.ruleSets := rfl

theorem compile_eq_ok_iff {c : Config} {rules : RuleSets} :
    c.compile = .ok rules ↔ (c.version = supportedVersion ∧ c.posix = true) ∧
      (c.ruleSets.replace = [] ∨ c.ruleSets.copy = []) ∧ c.ruleSets = rules := by
  rw [compile_eq, bind_eq_ok_iff]
  simp only [requireSupported_eq_ok_iff, exists_and_left, exists_const]
  apply and_congr_right
  intro _
  by_cases hc : c.ruleSets.replace ≠ [] ∧ c.ruleSets.copy ≠ []
  · rw [if_pos hc]
    simp [throw_ne_ok, hc]
  · rw [if_neg hc, pure_eq_ok_iff]
    have hone : c.ruleSets.replace = [] ∨ c.ruleSets.copy = [] :=
      Decidable.byContradiction fun h => hc (not_or.mp h)
    simp [hone]

theorem compile_eq_error_iff {c : Config} {fault : Fault} :
    c.compile = .error fault ↔ c.requireSupported = .error fault ∨
      (c.version = supportedVersion ∧ c.posix = true) ∧
        (c.ruleSets.replace ≠ [] ∧ c.ruleSets.copy ≠ []) ∧ .conflictingRuleSets = fault := by
  rw [compile_eq, bind_eq_error_iff]
  simp only [requireSupported_eq_ok_iff, exists_and_left, exists_const]
  apply or_congr_right
  apply and_congr_right
  intro _
  by_cases hc : c.ruleSets.replace ≠ [] ∧ c.ruleSets.copy ≠ []
  · rw [if_pos hc, throw_eq_error_iff, and_iff_right hc]
  · rw [if_neg hc]
    simp [hc, pure_ne_error]

end Config

namespace Transform

theorem ofConfig_eq_ok_iff {c : Config} {t : Transform} :
    ofConfig c = .ok t ↔ (c.version = Config.supportedVersion ∧ c.posix = true) ∧
      (c.ruleSets.replace = [] ∨ c.ruleSets.copy = []) ∧
      ⟨c.includePattern, c.excludePatterns, c.ruleSets, c.tests⟩ = t := by
  unfold ofConfig
  simp only [Outcome.bind_eq_ok_iff, Config.compile_eq_ok_iff, Outcome.pure_eq_ok_iff]
  constructor
  · rintro ⟨rules, ⟨hs, hone, rfl⟩, rfl⟩
    exact ⟨hs, hone, rfl⟩
  · rintro ⟨hs, hone, rfl⟩
    exact ⟨c.ruleSets, ⟨hs, hone, rfl⟩, rfl⟩

def pathRules (t : Transform) : List Rule := t.rules.replace ++ t.rules.copy

theorem deletes_iff {c : Config} {t : Transform} (hc : ofConfig c = .ok t) {fileRoot : Text} :
    t.rules.deletes fileRoot ↔ fileRoot ∈ c.deletions := by
  obtain ⟨-, -, rfl⟩ := ofConfig_eq_ok_iff.mp hc
  simp [RuleSets.deletes, Config.ruleSets, Deletion.selects, Config.deletions]

theorem commandFor?_eq_some {t : Transform} {p : Path} {command : Command}
    (h : t.commandFor? p = some command) :
    (command = .delete p ∧ t.rules.deletes p.parts.fileRoot) ∨
      (command = .move p (.ofText (Rule.destination t.rules.replace p.parts)) ∧
        t.rules.replace ≠ [] ∧ Rule.destination t.rules.replace p.parts ≠ p.text ∧
        t.rules.deletes p.parts.fileRoot = false) ∨
      (command = .copy p (.ofText (Rule.destination t.rules.copy p.parts)) ∧ t.rules.replace = [] ∧
        t.rules.copy ≠ [] ∧ Rule.destination t.rules.copy p.parts ≠ p.text ∧
        t.rules.deletes p.parts.fileRoot = false) := by
  simp only [commandFor?] at h
  split at h
  next hd =>
    cases h
    exact .inl ⟨rfl, hd⟩
  next hd =>
    have hkept := Bool.eq_false_iff.mpr hd
    split at h
    next hr =>
      split at h
      · cases h
      next hne =>
        cases h
        exact .inr (.inl ⟨rfl, hr, hne, hkept⟩)
    next hr =>
      split at h
      next hc =>
        split at h
        · cases h
        next hne =>
          cases h
          exact .inr (.inr ⟨rfl, Decidable.not_not.mp hr, hc, hne, hkept⟩)
      next => cases h

theorem target_eq_destination {c : Config} {t : Transform} {p target : Path}
    (hc : ofConfig c = .ok t)
    (hcmd : t.commandFor? p = some (.move p target) ∨ t.commandFor? p = some (.copy p target)) :
    target = .ofText (Rule.destination t.pathRules p.parts) := by
  obtain ⟨-, hone, rfl⟩ := ofConfig_eq_ok_iff.mp hc
  unfold pathRules
  rcases hcmd with h | h
  · rcases commandFor?_eq_some h with ⟨heq, -⟩ | ⟨heq, hr, -⟩ | ⟨heq, -⟩
    · cases heq
    · cases heq
      rw [Or.resolve_left hone hr, List.append_nil]
    · cases heq
  · rcases commandFor?_eq_some h with ⟨heq, -⟩ | ⟨heq, -⟩ | ⟨heq, hr, -⟩
    · cases heq
    · cases heq
    · cases heq
      rw [hr, List.nil_append]

theorem source_eq_of_commandFor? {t : Transform} {p : Path} {command : Command}
    (h : t.commandFor? p = some command) : command.source = p := by
  rcases commandFor?_eq_some h with ⟨rfl, -⟩ | ⟨rfl, -⟩ | ⟨rfl, -⟩
  · rfl
  · rfl
  · rfl

theorem kind_ne_create {t : Transform} {files : List Path} {command : Command}
    (h : command ∈ t.commandsFor files) : command.kind ≠ .create := by
  obtain ⟨p, -, h⟩ := List.mem_filterMap.mp h
  rcases commandFor?_eq_some h with ⟨rfl, -⟩ | ⟨rfl, -⟩ | ⟨rfl, -⟩
  · exact Command.Kind.noConfusion
  · exact Command.Kind.noConfusion
  · exact Command.Kind.noConfusion

theorem kind_ne_move {t : Transform} {files : List Path} {command : Command}
    (hnone : t.rules.replace = []) (h : command ∈ t.commandsFor files) : command.kind ≠ .move := by
  obtain ⟨p, -, h⟩ := List.mem_filterMap.mp h
  rcases commandFor?_eq_some h with ⟨rfl, -⟩ | ⟨-, hsome, -⟩ | ⟨rfl, -⟩
  · exact Command.Kind.noConfusion
  · exact absurd hnone hsome
  · exact Command.Kind.noConfusion

theorem kind_ne_copy {t : Transform} {files : List Path} {command : Command}
    (hnone : t.rules.copy = []) (h : command ∈ t.commandsFor files) : command.kind ≠ .copy := by
  obtain ⟨p, -, h⟩ := List.mem_filterMap.mp h
  rcases commandFor?_eq_some h with ⟨rfl, -⟩ | ⟨rfl, -⟩ | ⟨-, -, hsome, -⟩
  · exact Command.Kind.noConfusion
  · exact Command.Kind.noConfusion
  · exact absurd hnone hsome

theorem commandFor?_source {t : Transform} {files : List Path} {command : Command}
    (h : command ∈ t.commandsFor files) :
    command.source ∈ files ∧ t.commandFor? command.source = some command := by
  obtain ⟨p, hp, hcommand⟩ := List.mem_filterMap.mp h
  rw [source_eq_of_commandFor? hcommand]
  exact ⟨hp, hcommand⟩

/-- The commands for a listing are about some of its files, in its order. -/
theorem sources_eq_filter (t : Transform) (files : List Path) :
    (t.commandsFor files).map Command.source = files.filter fun p => (t.commandFor? p).isSome := by
  induction files with
  | nil => rfl
  | cons p files ih =>
    rw [commandsFor] at ih ⊢
    cases h : t.commandFor? p with
    | none => simp [h, ih]
    | some command => simp [h, ih, source_eq_of_commandFor? h]

/-- Each command for a listing in strict order is about a file of its own. -/
theorem pairwise_sources {t : Transform} {files : List Path} (h : files.Pairwise Path.Before) :
    (t.commandsFor files).Pairwise fun c d => ¬ c.source.Same d.source := by
  refine List.pairwise_filterMap.mpr (h.imp ?_)
  intro p q hbefore c hc d hd
  rw [source_eq_of_commandFor? hc, source_eq_of_commandFor? hd]
  exact hbefore.not_same

def moving (rule : RuleSpec) : Config where
  version := Config.supportedVersion
  posix := true
  includePattern := "**/*".toList
  excludePatterns := []
  deleteRules := none
  replaceRules := some [rule]
  copyRules := none
  tests := []

def mover (rule : RuleSpec) : Transform := ⟨"**/*".toList, [], (moving rule).ruleSets, []⟩

theorem ofConfig_moving (rule : RuleSpec) : ofConfig (moving rule) = .ok (mover rule) :=
  ofConfig_eq_ok_iff.mpr ⟨⟨rfl, rfl⟩, .inr rfl, rfl⟩

def pagesToApp : RuleSpec := .replaceDirectoryName "pages".toList "app".toList

end Transform

end Relayout
