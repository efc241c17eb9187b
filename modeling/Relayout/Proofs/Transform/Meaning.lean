import Mathlib.Data.List.Forall2
import Mathlib.Data.List.ReduceOption
import Relayout.Proofs.Transform.Compilation
import Relayout.Proofs.Transform.Run

/-!
# What a configuration means

The rules of a configuration are read here as they are written, with nothing compiled: an append
without a guard says nothing, and the others change a path one after the other. A plan gives for
each listed path what a configuration, so read, asks for there.
-/

namespace Relayout

namespace RuleSpec

/-- The rules that say something. -/
def effective (specs : Option (List RuleSpec)) : List RuleSpec :=
  (specs.getD []).filter fun s => s.unguarded? = none

def act (p : Parts) : RuleSpec → Parts
  | replaceDirectoryName source target =>
    { p with dirs := p.dirs.map fun d => if d = source then target else d }
  | appendDirectoryName name fileRootNot =>
    if fileRootNot = some p.fileRoot then p
    else { p with dirs := p.dirs ++ [if name = "@fileRoot".toList then p.fileRoot else name] }
  | replaceFileRoot fileRoot => { p with fileRoot }

/-- The text of the path that the rules make of `p`. -/
def result (specs : Option (List RuleSpec)) (p : Path) : Text :=
  ((effective specs).foldl act p.parts).toText

def Changes (specs : Option (List RuleSpec)) (p : Path) : Prop :=
  effective specs ≠ [] ∧ result specs p ≠ p.text

theorem unguarded?_eq_none_iff {s : RuleSpec} : s.unguarded? = none ↔ s.compile? ≠ none := by
  cases s with
  | replaceDirectoryName _ _ => exact iff_of_true rfl (Option.some_ne_none _)
  | replaceFileRoot _ => exact iff_of_true rfl (Option.some_ne_none _)
  | appendDirectoryName name fileRootNot =>
    match fileRootNot with
    | none => exact iff_of_false (Option.some_ne_none name) fun h => h rfl
    | some [] => exact iff_of_false (Option.some_ne_none name) fun h => h rfl
    | some (c :: cs) => exact iff_of_true rfl (Option.some_ne_none _)

theorem Compiled.apply_eq {s : RuleSpec} {r : Rule} (h : s.Compiled r) (p : Parts) :
    Rule.apply p r = act p s := by
  cases h with
  | replaceDir _ _ => rfl
  | replaceFileRoot _ => rfl
  | @appendDir name fileRoot _ =>
    by_cases hroot : fileRoot = p.fileRoot
    · simp [Rule.apply, act, Guard.holds, hroot]
    · simp only [Rule.apply, act, Guard.holds, ne_eq, hroot, not_false_eq_true, decide_true,
        if_true, Option.some.injEq, if_false]
      by_cases hname : name = "@fileRoot".toList
      · rw [if_pos hname, if_pos hname]
      · rw [if_neg hname, if_neg hname]

theorem foldl_compile? (specs : List RuleSpec) (p : Parts) :
    (specs.filterMap compile?).foldl Rule.apply p =
      (specs.filter fun s => s.unguarded? = none).foldl act p := by
  induction specs generalizing p with
  | nil => rfl
  | cons s specs ih =>
    have hguard := @unguarded?_eq_none_iff s
    cases h : s.compile? with
    | none =>
      rw [List.filterMap_cons_none h, List.filter_cons_of_neg (by simp [hguard, h]), ih]
    | some r =>
      rw [List.filterMap_cons_some h, List.filter_cons_of_pos (by simp [hguard, h]),
        List.foldl_cons, List.foldl_cons, (compile?_eq_some_iff.mp h).apply_eq, ih]

theorem destination_compileRules (specs : Option (List RuleSpec)) (p : Path) :
    Rule.destination (Config.compileRules specs) p.parts = result specs p :=
  congrArg Parts.toText (foldl_compile? (specs.getD []) p.parts)

theorem compileRules_eq_nil_iff {specs : Option (List RuleSpec)} :
    Config.compileRules specs = [] ↔ effective specs = [] := by
  rw [Config.compileRules, effective, List.filterMap_eq_nil_iff, List.filter_eq_nil_iff]
  simp [unguarded?_eq_none_iff]

end RuleSpec

namespace Config

open RuleSpec

/-- What a configuration asks for at a path. -/
inductive Asks (c : Config) (p : Path) : Option Command → Prop
  | delete (chosen : p.parts.fileRoot ∈ c.deletions) : Asks c p (some (.delete p))
  | move (kept : p.parts.fileRoot ∉ c.deletions) (changes : Changes c.replaceRules p) :
      Asks c p (some (.move p (.ofText (result c.replaceRules p))))
  | copy (kept : p.parts.fileRoot ∉ c.deletions) (changes : Changes c.copyRules p) :
      Asks c p (some (.copy p (.ofText (result c.copyRules p))))
  | nothing (kept : p.parts.fileRoot ∉ c.deletions) (unmoved : ¬ Changes c.replaceRules p)
      (uncopied : ¬ Changes c.copyRules p) : Asks c p none

theorem Asks.unique {c : Config} {p : Path} {answer other : Option Command}
    (hone : effective c.replaceRules = [] ∨ effective c.copyRules = []) (h : c.Asks p answer)
    (h' : c.Asks p other) : answer = other := by
  have hboth : Changes c.replaceRules p → ¬ Changes c.copyRules p := by
    rintro ⟨hmoves, -⟩ ⟨hcopies, -⟩
    exact hone.elim hmoves hcopies
  cases h with
  | delete chosen =>
    cases h' with
    | delete _ => rfl
    | move kept _ => exact absurd chosen kept
    | copy kept _ => exact absurd chosen kept
    | nothing kept _ _ => exact absurd chosen kept
  | move kept changes =>
    cases h' with
    | delete chosen => exact absurd chosen kept
    | move _ _ => rfl
    | copy _ changes' => exact absurd changes' (hboth changes)
    | nothing _ unmoved _ => exact absurd changes unmoved
  | copy kept changes =>
    cases h' with
    | delete chosen => exact absurd chosen kept
    | move _ changes' => exact absurd changes (hboth changes')
    | copy _ _ => rfl
    | nothing _ _ uncopied => exact absurd changes uncopied
  | nothing kept unmoved uncopied =>
    cases h' with
    | delete chosen => exact absurd chosen kept
    | move _ changes => exact absurd changes unmoved
    | copy _ changes => exact absurd changes uncopied
    | nothing _ _ _ => rfl

/-- A supported configuration compiles unless both of its rule lists say something. -/
theorem compile_conflicting_iff {c : Config} (hversion : c.version = supportedVersion)
    (hposix : c.posix = true) :
    (c.compile = .error .conflictingRuleSets ↔
      effective c.replaceRules ≠ [] ∧ effective c.copyRules ≠ []) ∧
    (c.compile ≠ .error .conflictingRuleSets → ∃ rules, c.compile = .ok rules) := by
  have hsupported : c.requireSupported = .ok () :=
    requireSupported_eq_ok_iff.mpr ⟨hversion, hposix⟩
  have hconflict : c.compile = .error .conflictingRuleSets ↔
      c.ruleSets.replace ≠ [] ∧ c.ruleSets.copy ≠ [] := by
    rw [compile_eq_error_iff, hsupported]
    simp [hversion, hposix]
  constructor
  · rw [hconflict]
    exact and_congr (not_congr compileRules_eq_nil_iff) (not_congr compileRules_eq_nil_iff)
  · intro hfree
    cases h : c.compile with
    | ok rules => exact ⟨rules, rfl⟩
    | error fault =>
      rcases compile_eq_error_iff.mp h with hfault | ⟨-, -, rfl⟩
      · rw [hsupported] at hfault
        cases hfault
      · exact absurd h hfree

/-- A configuration that moves nothing, as its one rule for moves has no guard. -/
def pageNesting : Config where
  version := supportedVersion
  posix := true
  includePattern := "**/*".toList
  excludePatterns := []
  deleteRules := some ⟨some ["b".toList]⟩
  replaceRules := some [.appendDirectoryName "x".toList none]
  copyRules := some [.replaceDirectoryName "pages".toList "app".toList,
    .appendDirectoryName "@fileRoot".toList (some "index".toList), .replaceFileRoot "page".toList]
  tests := []

theorem conflict_with_moves :
    { pageNesting with replaceRules := pageNesting.copyRules }.compile =
      .error .conflictingRuleSets :=
  (compile_conflicting_iff rfl rfl).1.mpr (by decide)

theorem both_lists_without_conflict :
    pageNesting.version = supportedVersion ∧ pageNesting.posix = true ∧
      ¬ (pageNesting.compile = .error .conflictingRuleSets ↔
        pageNesting.replaceRules.getD [] ≠ [] ∧ pageNesting.copyRules.getD [] ≠ []) := by
  refine ⟨rfl, rfl, fun h => ?_⟩
  have hcompiles : pageNesting.compile = .ok pageNesting.ruleSets :=
    compile_eq_ok_iff.mpr ⟨⟨rfl, rfl⟩, .inl rfl, rfl⟩
  have hfails := h.mpr ⟨List.cons_ne_nil _ _, List.cons_ne_nil _ _⟩
  rw [hcompiles] at hfails
  cases hfails

end Config

namespace Transform

open MemoryFs RuleSpec

variable {c : Config} {t : Transform} {fs tree : MemoryFs}

theorem asks_commandFor? (hc : ofConfig c = .ok t) (p : Path) : c.Asks p (t.commandFor? p) := by
  have hdeletes := @deletes_iff c t hc p.parts.fileRoot
  obtain ⟨-, hone, rfl⟩ := ofConfig_eq_ok_iff.mp hc
  have hmove : c.ruleSets.replace = [] → ¬ Changes c.replaceRules p :=
    fun hnil h => h.1 (compileRules_eq_nil_iff.mp hnil)
  have hcopy : c.ruleSets.copy = [] → ¬ Changes c.copyRules p :=
    fun hnil h => h.1 (compileRules_eq_nil_iff.mp hnil)
  simp only [commandFor?]
  split
  next hd => exact .delete (hdeletes.mp hd)
  next hd =>
    have kept : p.parts.fileRoot ∉ c.deletions := fun hmem => hd (hdeletes.mpr hmem)
    split
    next hr =>
      rw [Config.ruleSets_replace, destination_compileRules]
      -- With rules for moves there are none for copies, so a file left in place is not copied.
      have uncopied := hcopy (hone.resolve_left hr)
      split
      next heq => exact .nothing kept (fun h => h.2 heq) uncopied
      next hne => exact .move kept ⟨fun hnil => hr (compileRules_eq_nil_iff.mpr hnil), hne⟩
    next hr =>
      have unmoved := hmove (Decidable.not_not.mp hr)
      split
      next hs =>
        rw [Config.ruleSets_copy, destination_compileRules]
        split
        next heq => exact .nothing kept unmoved fun h => h.2 heq
        next hne => exact .copy kept ⟨fun hnil => hs (compileRules_eq_nil_iff.mpr hnil), hne⟩
      next hs => exact .nothing kept unmoved (hcopy (Decidable.not_not.mp hs))

theorem commandFor?_eq_iff (hc : ofConfig c = .ok t) {p : Path} {answer : Option Command} :
    t.commandFor? p = answer ↔ c.Asks p answer := by
  have hasks := asks_commandFor? hc p
  constructor
  · rintro rfl
    exact hasks
  · intro h
    obtain ⟨-, hone, -⟩ := ofConfig_eq_ok_iff.mp hc
    exact hasks.unique (hone.imp compileRules_eq_nil_iff.mp compileRules_eq_nil_iff.mp) h

theorem answers_iff (hc : ofConfig c = .ok t) {files : List Path}
    {answers : List (Option Command)} :
    List.Forall₂ c.Asks files answers ↔ answers = files.map t.commandFor? := by
  have hasks : c.Asks = fun p answer => t.commandFor? p = answer :=
    funext fun _ => funext fun _ => propext (commandFor?_eq_iff hc).symm
  rw [hasks, ← List.forall₂_map_left_iff, List.forall₂_eq_eq_eq, eq_comm]

theorem one_kind (hc : ofConfig c = .ok t) (files : List Path) :
    (∀ command ∈ t.commandsFor files, command.kind ≠ .move) ∨
      ∀ command ∈ t.commandsFor files, command.kind ≠ .copy := by
  obtain ⟨-, hone, rfl⟩ := ofConfig_eq_ok_iff.mp hc
  exact hone.imp (fun hnone _ => kind_ne_move hnone) fun hnone _ => kind_ne_copy hnone

/-- A plan is what a configuration asks for at the listed paths, one after the other, and there is
one answer for each. -/
theorem plan_asked {lister : Lister (StateM MemoryFs)} {files : List Path}
    (hc : ofConfig c = .ok t)
    (hlisted : lister c.includePattern c.excludePatterns fs = (.ok files, tree)) :
    ∃ answers, (∀ others, List.Forall₂ c.Asks files others ↔ others = answers) ∧
      perform (t.plan lister) fs = (.ok answers.reduceOption, tree) ∧
      (answers.reduceOption.map Command.source).Sublist files ∧
      ((∀ command ∈ answers.reduceOption, command.kind ≠ .move) ∨
        ∀ command ∈ answers.reduceOption, command.kind ≠ .copy) ∧
      ∀ command ∈ answers.reduceOption, command.kind ≠ .create := by
  refine ⟨files.map t.commandFor?, fun _ => answers_iff hc, ?_⟩
  have hcommands : (files.map t.commandFor?).reduceOption = t.commandsFor files := by
    rw [List.reduceOption, List.filterMap_map, commandsFor]
    rfl
  have hplan : perform (t.plan lister) fs = (.ok (t.commandsFor files), tree) := by
    obtain ⟨-, -, rfl⟩ := ofConfig_eq_ok_iff.mp hc
    exact perform_plan_ok hlisted
  rw [hcommands]
  refine ⟨hplan, ?_, one_kind hc files, fun _ h => kind_ne_create h⟩
  rw [sources_eq_filter]
  exact List.filter_sublist

def pageNester : Transform := ⟨"**/*".toList, [], Config.pageNesting.ruleSets, []⟩

/-- Of two pages, one is listed twice and copied twice, and the other one deleted. -/
theorem site_plan_asked : ∃ answers,
    List.Forall₂ Config.pageNesting.Asks
        [.ofString "/site/pages/a.ts", .ofString "/site/pages/b.ts", .ofString "/site/pages/a.ts"]
        answers ∧
      answers.reduceOption =
        [.copy (.ofString "/site/pages/a.ts") (.ofString "/site/app/a/page.ts"),
          .delete (.ofString "/site/pages/b.ts"),
          .copy (.ofString "/site/pages/a.ts") (.ofString "/site/app/a/page.ts")] := by
  let files : List Path :=
    [.ofString "/site/pages/a.ts", .ofString "/site/pages/b.ts", .ofString "/site/pages/a.ts"]
  let lister : Lister (StateM MemoryFs) := fun _ _ => pure (.ok files)
  have hcompiled : ofConfig Config.pageNesting = .ok pageNester :=
    ofConfig_eq_ok_iff.mpr ⟨⟨rfl, rfl⟩, .inl rfl, rfl⟩
  have hlisted : lister "**/*".toList [] site = (.ok files, site) := rfl
  obtain ⟨answers, hanswers, hplan, -⟩ := plan_asked hcompiled hlisted
  refine ⟨answers, (hanswers answers).mpr rfl, ?_⟩
  have hcommands : pageNester.commandsFor files =
      [.copy (.ofString "/site/pages/a.ts") (.ofString "/site/app/a/page.ts"),
        .delete (.ofString "/site/pages/b.ts"),
        .copy (.ofString "/site/pages/a.ts") (.ofString "/site/app/a/page.ts")] := by
    decide +kernel
  have hends := (perform_plan_ok (t := pageNester) hlisted).symm.trans hplan
  rw [← hcommands]
  exact (Except.ok.inj (Prod.mk.inj hends).1).symm

end Transform

end Relayout
