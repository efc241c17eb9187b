import Mathlib.Data.List.Sort
import Relayout.Proofs.Listing
import Relayout.Proofs.Memory.Contents
import Relayout.Proofs.Rule.FixedPoint
import Relayout.Proofs.Transform.Compilation
import Relayout.Proofs.Transform.Run

/-!
# Running again

A document that only renames, and renames nothing that it has named itself, asks for nothing at a
target. After a run, a second one therefore finds the sources of copies as the only files that it
has commands for, and these are the commands it had before.
-/

namespace Relayout

namespace RuleSpec

/-- A rule that renames to a plain name, and to a file root without a dot. -/
def Renaming : RuleSpec → Prop
  | replaceDirectoryName _ target => target.IsName
  | appendDirectoryName _ _ => False
  | replaceFileRoot fileRoot => fileRoot ≠ [] ∧ '/' ∉ fileRoot ∧ '.' ∉ fileRoot

instance : DecidablePred Renaming := fun s => by
  cases s <;> unfold Renaming <;> infer_instance

theorem Renaming.compiled {s : RuleSpec} {r : Rule} (h : s.Renaming) (hc : s.Compiled r) :
    r.Renaming := by
  cases hc with
  | replaceDir _ _ => exact h
  | appendDir _ _ => exact h.elim
  | replaceFileRoot _ => exact h

end RuleSpec

namespace Config

def pathSpecs (c : Config) : List RuleSpec := c.replaceRules.getD [] ++ c.copyRules.getD []

/-- A document that only renames. It renames nothing that it has named itself, and does not delete
what it has renamed. -/
structure Settling (c : Config) : Prop where
  renames : ∀ s ∈ c.pathSpecs, s.Renaming
  apart : ∀ source target source' target', .replaceDirectoryName source target ∈ c.pathSpecs →
    .replaceDirectoryName source' target' ∈ c.pathSpecs → source ≠ target'
  kept : ∀ fileRoot, .replaceFileRoot fileRoot ∈ c.pathSpecs → fileRoot ∉ c.deletions

end Config

namespace Transform

open Execution MemoryFs

variable {c : Config} {t : Transform} {fs tree : MemoryFs} {root p q : Path} {cs : List Command}
  {command : Command}

theorem exists_spec_of_mem_pathRules (hc : ofConfig c = .ok t) {r : Rule} (h : r ∈ t.pathRules) :
    ∃ s ∈ c.pathSpecs, s.Compiled r := by
  obtain ⟨-, -, rfl⟩ := ofConfig_eq_ok_iff.mp hc
  have hr : r ∈ c.pathSpecs.filterMap RuleSpec.compile? := List.filterMap_append ▸ h
  obtain ⟨s, hs, hcompiled⟩ := List.mem_filterMap.mp hr
  exact ⟨s, hs, RuleSpec.compile?_eq_some_iff.mp hcompiled⟩

theorem settling_pathRules (hc : ofConfig c = .ok t) (h : c.Settling) :
    Rule.Settling t.pathRules where
  renames r hr := by
    obtain ⟨s, hs, hcompiled⟩ := exists_spec_of_mem_pathRules hc hr
    exact (h.renames s hs).compiled hcompiled
  apart source target source' target' hr hr' := by
    obtain ⟨s, hs, hcompiled⟩ := exists_spec_of_mem_pathRules hc hr
    obtain ⟨s', hs', hcompiled'⟩ := exists_spec_of_mem_pathRules hc hr'
    cases hcompiled
    cases hcompiled'
    exact h.apart source target source' target' hs hs'

theorem not_deletes_rerooted (hc : ofConfig c = .ok t) (h : c.Settling) {fileRoot : Text}
    (hkept : t.rules.deletes fileRoot = false) :
    t.rules.deletes (t.pathRules.foldl Rule.rerooted fileRoot) = false := by
  rcases Rule.foldl_rerooted_cases t.pathRules with ⟨new, hr, heq⟩ | heq
  · obtain ⟨s, hs, hcompiled⟩ := exists_spec_of_mem_pathRules hc hr
    cases hcompiled
    rw [heq, Bool.eq_false_iff, ne_eq, deletes_iff hc]
    exact h.kept new hs
  · rw [heq, hkept]

theorem target_eq (hc : ofConfig c = .ok t) (h : t.commandFor? p = some command)
    (ht : q ∈ command.target?) :
    q = .ofText (Rule.destination t.pathRules p.parts) ∧
      t.rules.deletes p.parts.fileRoot = false := by
  rcases commandFor?_eq_some h with ⟨rfl, -⟩ | ⟨rfl, -, -, hkept⟩ | ⟨rfl, -, -, -, hkept⟩
  · cases ht
  · cases ht
    exact ⟨target_eq_destination hc (.inl h), hkept⟩
  · cases ht
    exact ⟨target_eq_destination hc (.inr h), hkept⟩

theorem commandFor?_eq_none (hc : ofConfig c = .ok t)
    (hkept : t.rules.deletes p.parts.fileRoot = false)
    (hfixed : Rule.destination t.pathRules p.parts = p.text) : t.commandFor? p = none := by
  rw [Option.eq_none_iff_forall_ne_some]
  intro command h
  rcases commandFor?_eq_some h with ⟨rfl, hdeletes⟩ | ⟨rfl, -, hne, -⟩ | ⟨rfl, -, -, hne, -⟩
  · rw [hkept] at hdeletes
    cases hdeletes
  · have heq := Path.ofText_inj.mp (target_eq_destination hc (.inl h))
    exact hne (heq.trans hfixed)
  · have heq := Path.ofText_inj.mp (target_eq_destination hc (.inr h))
    exact hne (heq.trans hfixed)

theorem filter_copy_eq_nil (hc : ofConfig c = .ok t) (hnone : c.copyRules.getD [] = [])
    (files : List Path) : (t.commandsFor files).filter (·.kind = .copy) = [] := by
  obtain ⟨-, -, rfl⟩ := ofConfig_eq_ok_iff.mp hc
  rw [List.filter_eq_nil_iff]
  intro command h
  have hkind := kind_ne_copy (congrArg (List.filterMap RuleSpec.compile?) hnone) h
  exact fun hcopy => hkind (of_decide_eq_true hcopy)

/-- Whether a file is to be copied. -/
def copies (t : Transform) (p : Path) : Bool := (t.commandFor? p).any (·.kind = .copy)

theorem commandsFor_filter (files : List Path) :
    t.commandsFor (files.filter t.copies) = (t.commandsFor files).filter (·.kind = .copy) := by
  rw [commandsFor, commandsFor, List.filterMap_filter, List.filter_filterMap]
  apply List.filterMap_congr
  intro p _
  rw [copies]
  cases t.commandFor? p with
  | none => rfl
  | some command => cases command.kind <;> rfl

/-- A run over the files of a tree, carried out by a document whose rules settle. -/
structure SettledRun (c : Config) (t : Transform) (fs tree : MemoryFs) (selects : Path → Bool) :
    Prop where
  compiled : ofConfig c = .ok t
  settling : c.Settling
  normal : ∀ p ∈ fs.paths, p.isAbsolute ∧ p.normalize = p
  runs : Runs fs (t.commandsFor (fs.paths.filter selects)) tree

namespace SettledRun

variable {selects : Path → Bool}

theorem mem_paths_source (hc : command ∈ t.commandsFor (fs.paths.filter selects)) :
    command.source ∈ fs.paths ∧ t.commandFor? command.source = some command := by
  obtain ⟨hp, hcommand⟩ := commandFor?_source hc
  exact ⟨(List.mem_filter.mp hp).1, hcommand⟩

/-- Nothing is asked for at a target. -/
theorem commandFor?_target (h : SettledRun c t fs tree selects)
    (hc : command ∈ t.commandsFor (fs.paths.filter selects)) (hq : q ∈ command.target?) :
    q.normalize = q ∧ t.commandFor? q = none := by
  obtain ⟨hp, hcommand⟩ := mem_paths_source hc
  obtain ⟨habsolute, hnormal⟩ := h.normal _ hp
  obtain ⟨heq, hkept⟩ := target_eq h.compiled hcommand hq
  obtain ⟨hrest, hroot⟩ :=
    (settling_pathRules h.compiled h.settling).target_at_rest habsolute hnormal heq
  have hkept' := not_deletes_rerooted h.compiled h.settling hkept
  rw [← hroot] at hkept'
  exact ⟨hrest.normal, commandFor?_eq_none h.compiled hkept' hrest.fixed⟩

theorem eq_of_same (hp : p.normalize = p) (hq : q.normalize = q) (h : p.Same q) : p = q := by
  rw [← hp, h.normalize_eq, hq]

theorem target_apart (h : SettledRun c t fs tree selects) {other : Command}
    (hc : command ∈ t.commandsFor (fs.paths.filter selects))
    (hother : other ∈ t.commandsFor (fs.paths.filter selects)) (hq : q ∈ other.target?) :
    ¬ q.Same command.source := by
  intro hsame
  obtain ⟨hp, hcommand⟩ := mem_paths_source hc
  obtain ⟨hnormal, hnone⟩ := h.commandFor?_target hother hq
  rw [eq_of_same hnormal (h.normal _ hp).2 hsame, hcommand] at hnone
  cases hnone

theorem source_gone (h : SettledRun c t fs tree selects)
    (hc : command ∈ t.commandsFor (fs.paths.filter selects)) (hconsumes : command.consumes) :
    command.source ∉ tree.paths := by
  intro hp
  have hnone : tree.read? command.source = none := by
    refine h.runs.read?_eq_none (fun _ hd => kind_ne_create hd)
      ⟨?_, .inr ⟨command, hc, hconsumes, ?_⟩⟩
    · intro d hd q hq
      exact h.target_apart hc hd hq
    · exact .refl _
  obtain ⟨content, hcontent⟩ := exists?_iff.mp (exists?_of_mem_paths hp)
  rw [hnone] at hcontent
  cases hcontent

/-- Of the files that something is asked for, the sources of copies are left, and no file is new. -/
theorem selected_iff (h : SettledRun c t fs tree selects)
    (hasked : t.commandFor? p = some command) :
    p ∈ tree.paths.filter selects ↔ p ∈ fs.paths.filter selects ∧ command.kind = .copy := by
  have hsource := source_eq_of_commandFor? hasked
  constructor
  · intro hp
    obtain ⟨hp, hselects⟩ := List.mem_filter.mp hp
    have hold : p ∈ fs.paths := by
      refine (h.runs.mem_paths_or_target (fun _ hd => kind_ne_create hd) hp).resolve_right ?_
      rintro ⟨d, hd, hq⟩
      rw [(h.commandFor?_target hd hq).2] at hasked
      cases hasked
    have hlisted := List.mem_filter.mpr ⟨hold, hselects⟩
    refine ⟨hlisted, ?_⟩
    have hc : command ∈ t.commandsFor (fs.paths.filter selects) :=
      List.mem_filterMap.mpr ⟨p, hlisted, hasked⟩
    have hgone := h.source_gone hc
    rw [hsource] at hgone
    cases command with
    | delete _ => exact absurd hp (hgone rfl)
    | move _ _ => exact absurd hp (hgone rfl)
    | copy _ _ => rfl
    | create _ => exact absurd rfl (kind_ne_create hc)
  · rintro ⟨hp, hcopy⟩
    obtain ⟨hold, hselects⟩ := List.mem_filter.mp hp
    refine List.mem_filter.mpr ⟨h.runs.mem_paths hold ?_, hselects⟩
    intro d hd hconsumes hsame
    obtain ⟨hd, hd'⟩ := mem_paths_source hd
    rw [eq_of_same (h.normal _ hd).2 (h.normal p hold).2 hsame, hasked] at hd'
    cases hd'
    cases command <;> cases hcopy
    cases hconsumes

theorem commandsFor_again (h : SettledRun c t fs tree selects) :
    t.commandsFor (tree.paths.filter selects) =
      (t.commandsFor (fs.paths.filter selects)).filter (·.kind = .copy) := by
  have hcopies : ∀ command ∈ t.commandsFor (tree.paths.filter selects),
      decide (command.kind = .copy) = true := by
    intro command hc
    obtain ⟨hp, hasked⟩ := commandFor?_source hc
    exact decide_eq_true ((h.selected_iff hasked).mp hp).2
  -- Both listings are in strict order, so they agree where they hold the same sources of copies.
  have hsources : (tree.paths.filter selects).filter t.copies =
      (fs.paths.filter selects).filter t.copies := by
    refine List.Pairwise.eq_of_mem_iff ((tree.pairwise_paths.filter _).filter _)
      ((fs.pairwise_paths.filter _).filter _) ?_
    intro p
    refine (List.mem_filter.trans ?_).trans List.mem_filter.symm
    apply and_congr_left
    intro hp
    obtain ⟨command, hasked, hkind⟩ := (Option.any_eq_true _ _).mp hp
    rw [h.selected_iff hasked, and_iff_left (of_decide_eq_true hkind)]
  calc
    t.commandsFor (tree.paths.filter selects)
      = (t.commandsFor (tree.paths.filter selects)).filter (·.kind = .copy) :=
        (List.filter_eq_self.mpr hcopies).symm
    _ = t.commandsFor ((tree.paths.filter selects).filter t.copies) := (commandsFor_filter _).symm
    _ = t.commandsFor ((fs.paths.filter selects).filter t.copies) := by rw [hsources]
    _ = (t.commandsFor (fs.paths.filter selects)).filter (·.kind = .copy) := commandsFor_filter _

end SettledRun

/-- After a run, a second one is the carrying out of the copies that the first one made. A document
without rules for copies asks for nothing any more, so the second run makes no call. -/
theorem second_run_copies_again {summary : Option Summary} (hcompiled : ofConfig c = .ok t)
    (hsettling : c.Settling) (hnormal : ∀ p ∈ fs.paths, p.isAbsolute ∧ p.normalize = p)
    (hrun : perform (t.run (Listing.lister root fs.paths) false) fs = (.ok (cs, summary), tree)) :
    (∀ dryRun, perform (t.run (Listing.lister root tree.paths) dryRun) tree =
      perform (carryOut dryRun (cs.filter (·.kind = .copy))) tree) ∧
    (c.copyRules.getD [] = [] →
      ∀ dryRun, perform (t.run (Listing.lister root tree.paths) dryRun) tree =
        (.ok ([], if dryRun then none else some .empty), tree)) := by
  obtain ⟨⟨files, hfiles, rfl⟩, hend⟩ := perform_run_eq_ok_iff.mp hrun
  rw [if_neg Bool.false_ne_true] at hend
  obtain ⟨done, -, hexecuted⟩ := hend
  obtain ⟨s, hs, hlisted⟩ := Listing.ofPaths_eq_ok_iff.mp hfiles
  have hagain : Listing.ofPaths root tree.paths t.included t.excluded =
      .ok (tree.paths.filter fun p => (root.below? p).any s.accepts) :=
    Listing.ofPaths_eq_ok_iff.mpr ⟨s, hs, Listing.below_eq_filter tree.pairwise_paths s⟩
  rw [Listing.below_eq_filter fs.pairwise_paths] at hlisted
  subst hlisted
  have hruns := (perform_executeAll_eq_ok_iff.mp hexecuted).1
  have hplan := SettledRun.commandsFor_again ⟨hcompiled, hsettling, hnormal, hruns⟩
  refine ⟨?_, ?_⟩
  · intro dryRun
    rw [perform_run_ok hagain, hplan]
  · intro hnone dryRun
    rw [perform_run_ok hagain, hplan, filter_copy_eq_nil hcompiled hnone]
    cases dryRun <;> rfl

def pageCopying : Config where
  version := Config.supportedVersion
  posix := true
  includePattern := "**/*".toList
  excludePatterns := []
  deleteRules := some ⟨some ["b".toList]⟩
  replaceRules := none
  copyRules := some [pagesToApp, .replaceFileRoot "page".toList]
  tests := []

def pageCopier : Transform := ⟨"**/*".toList, [], pageCopying.ruleSets, []⟩

theorem settling_pageCopying : pageCopying.Settling where
  renames := by decide
  apart source target source' target' h h' := by
    obtain ⟨rfl, rfl⟩ : source = "pages".toList ∧ target = "app".toList := by
      simpa [Config.pathSpecs, pageCopying, pagesToApp] using h
    obtain ⟨rfl, rfl⟩ : source' = "pages".toList ∧ target' = "app".toList := by
      simpa [Config.pathSpecs, pageCopying, pagesToApp] using h'
    decide
  kept fileRoot h := by
    obtain rfl : fileRoot = "page".toList := by
      simpa [Config.pathSpecs, pageCopying, pagesToApp] using h
    decide

def pageCopied : Command :=
  .copy (.ofString "/site/pages/a.ts") (.ofString "/site/app/page.ts")

/-- One page is copied and the other one deleted. Again, the one that is left is copied. -/
theorem site_copies_page_again : ∃ tree,
    perform (pageCopier.run (Listing.lister (.ofString "/site") site.paths) false) site =
        (.ok ([pageCopied, .delete (.ofString "/site/pages/b.ts")], some ⟨1, 0, 1, 0⟩), tree) ∧
      ∀ dryRun,
        perform (pageCopier.run (Listing.lister (.ofString "/site") tree.paths) dryRun) tree =
          perform (carryOut dryRun [pageCopied]) tree := by
  have hcompiled : ofConfig pageCopying = .ok pageCopier :=
    ofConfig_eq_ok_iff.mpr ⟨⟨rfl, rfl⟩, .inl rfl, rfl⟩
  have hnormal : ∀ p ∈ site.paths, p.isAbsolute ∧ p.normalize = p := by decide +kernel
  have hplan : pageCopier.commandsFor
      [.ofString "/site/pages/a.ts", .ofString "/site/pages/b.ts"] =
        [pageCopied, .delete (.ofString "/site/pages/b.ts")] := by decide +kernel
  have hdone : (perform (executeAll [pageCopied, .delete (.ofString "/site/pages/b.ts")]) site).1 =
      .ok ⟨1, 0, 1, 0⟩ := by decide +kernel
  have hrun : perform (pageCopier.run (Listing.lister (.ofString "/site") site.paths) false) site =
      (.ok ([pageCopied, .delete (.ofString "/site/pages/b.ts")], some ⟨1, 0, 1, 0⟩), _) :=
    perform_run_eq_ok_iff.mpr ⟨⟨_, listing_site, hplan⟩, _, rfl, Prod.ext hdone rfl⟩
  exact ⟨_, hrun, (second_run_copies_again hcompiled settling_pageCopying hnormal hrun).1⟩

end Transform

end Relayout
