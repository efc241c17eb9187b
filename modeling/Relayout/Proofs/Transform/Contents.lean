import Mathlib.Tactic.ByContra
import Relayout.Proofs.Memory.Contents
import Relayout.Proofs.Transform.Compilation
import Relayout.Proofs.Transform.Run

/-!
# What a run does to the contents of a tree

A run has no guard against two files that are sent to one place, nor against a place that is taken.
What it loses is what its commands write over, so a plan for free places only loses nothing.
-/

namespace Relayout.Transform

open Execution MemoryFs

variable {c : Config} {t : Transform} {fs tree : MemoryFs} {root : Path} {paths : List Path}
  {cs : List Command} {dryRun : Bool} {content : Bytes}

theorem target?_isSome_of_mem (hdelete : t.rules.delete = []) {files : List Path}
    {command : Command} (h : command ∈ t.commandsFor files) : command.target?.isSome := by
  obtain ⟨p, -, hp⟩ := List.mem_filterMap.mp h
  rcases commandFor?_eq_some hp with ⟨-, hdeletes⟩ | ⟨rfl, -⟩ | ⟨rfl, -⟩
  · rw [RuleSets.deletes, hdelete] at hdeletes
    cases hdeletes
  · rfl
  · rfl

/-- A run without rules for deletions loses a content exactly when it is carried out and one of its
commands writes over the only file that holds the content by then. In particular it loses nothing
where each of its commands fills a free place. -/
theorem run_loses_iff_overwritten {summary : Option Summary} (hcompiled : ofConfig c = .ok t)
    (hdelete : c.deleteRules = none)
    (hrun : perform (t.run (Listing.lister root fs.paths) dryRun) fs = (.ok (cs, summary), tree))
    (hheld : fs.Holds content) :
    (¬ tree.Holds content ↔ dryRun = false ∧ Overwritten fs cs content) ∧
      (Vacant fs cs → tree.Holds content) := by
  have hnone : t.rules.delete = [] := by
    obtain ⟨-, -, rfl⟩ := ofConfig_eq_ok_iff.mp hcompiled
    simp [Config.ruleSets, hdelete]
  obtain ⟨⟨files, -, rfl⟩, hend⟩ := perform_run_eq_ok_iff.mp hrun
  have hcs : ∀ c ∈ t.commandsFor files, c.target?.isSome := fun _ => target?_isSome_of_mem hnone
  have hlost : ¬ tree.Holds content ↔
      dryRun = false ∧ Overwritten fs (t.commandsFor files) content := by
    cases dryRun with
    | true =>
      obtain ⟨-, rfl⟩ := hend
      simp [hheld]
    | false =>
      obtain ⟨done, -, hexecuted⟩ := hend
      have hruns := (perform_executeAll_eq_ok_iff.mp hexecuted).1
      constructor
      · intro h
        exact ⟨rfl, hruns.overwritten_of_not_holds hcs hheld h⟩
      · rintro ⟨-, h⟩
        exact hruns.not_holds_of_overwritten hcs h
  refine ⟨hlost, ?_⟩
  intro hvacant
  by_contra h
  exact hvacant.not_overwritten hcs (hlost.mp h).2

def allToIndex : RuleSpec := .replaceFileRoot "index".toList

def runOnSite (rule : RuleSpec) : Except Fault (List Command × Option Summary) × MemoryFs :=
  perform ((mover rule).run (Listing.lister (.ofString "/site") site.paths) false) site

theorem run_site {rule : RuleSpec} {done : Summary}
    (hplan : (mover rule).commandsFor
      [.ofString "/site/pages/a.ts", .ofString "/site/pages/b.ts"] = cs)
    (hdone : (perform (executeAll cs) site).1 = .ok done) :
    runOnSite rule = (.ok (cs, some done), (perform (executeAll cs) site).2) := by
  refine perform_run_eq_ok_iff.mpr ⟨⟨_, listing_site, hplan⟩, ?_⟩
  rw [if_neg Bool.false_ne_true]
  exact ⟨done, rfl, Prod.ext hdone rfl⟩

def movesTo (a b : String) : List Command :=
  [.move (.ofString "/site/pages/a.ts") (.ofString a),
    .move (.ofString "/site/pages/b.ts") (.ofString b)]

/-- The pages stay apart under another directory, so both are kept. -/
theorem site_keeps_pages : ∃ tree,
    runOnSite pagesToApp =
        (.ok (movesTo "/site/app/a.ts" "/site/app/b.ts", some ⟨0, 2, 0, 0⟩), tree) ∧
      tree.Holds [1] ∧ tree.Holds [2] := by
  have hrun : runOnSite pagesToApp =
      (.ok (movesTo "/site/app/a.ts" "/site/app/b.ts", some ⟨0, 2, 0, 0⟩), _) :=
    run_site (by decide +kernel) (by decide +kernel)
  have hvacant : Vacant site (movesTo "/site/app/a.ts" "/site/app/b.ts") := by decide +kernel
  refine ⟨_, hrun, ?_, ?_⟩
  · have hheld : site.Holds [1] := by decide +kernel
    exact (run_loses_iff_overwritten (ofConfig_moving _) rfl hrun hheld).2 hvacant
  · have hheld : site.Holds [2] := by decide +kernel
    exact (run_loses_iff_overwritten (ofConfig_moving _) rfl hrun hheld).2 hvacant

/-- Under one name the second page is written over the first, though every path of the site is
absolute and in normal form and the run succeeds. -/
theorem site_loses_page :
    (∀ p ∈ site.paths ++ site.dirs, p.isAbsolute ∧ p.normalize = p) ∧
      ofConfig (moving allToIndex) = .ok (mover allToIndex) ∧
      (moving allToIndex).deleteRules = none ∧
      ∃ tree, runOnSite allToIndex =
          (.ok (movesTo "/site/pages/index.ts" "/site/pages/index.ts", some ⟨0, 2, 0, 0⟩), tree) ∧
        site.Holds [1] ∧ ¬ tree.Holds [1] := by
  have hnormal : ∀ p ∈ site.paths ++ site.dirs, p.isAbsolute ∧ p.normalize = p := by decide +kernel
  have hrun : runOnSite allToIndex =
      (.ok (movesTo "/site/pages/index.ts" "/site/pages/index.ts", some ⟨0, 2, 0, 0⟩), _) :=
    run_site (by decide +kernel) (by decide +kernel)
  have hheld : site.Holds [1] := by decide +kernel
  have hlost : ¬ (perform (executeAll (movesTo "/site/pages/index.ts" "/site/pages/index.ts"))
      site).2.Holds [1] := by decide +kernel
  exact ⟨hnormal, ofConfig_moving _, rfl, _, hrun, hheld, hlost⟩

end Relayout.Transform
