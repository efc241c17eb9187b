import Mathlib.Data.List.Forall2
import Relayout.Proofs.Listing
import Relayout.Proofs.Memory.Paths
import Relayout.Proofs.Transform.Compilation
import Relayout.Proofs.Transform.Run

/-!
# Previews

A preview is a plan over one file. Which command a file gets does not depend on the files beside it,
so a plan over any files is made of their previews, in the order of the paths.
-/

namespace Relayout.Transform

open MemoryFs

variable {t : Transform} {fs : MemoryFs} {root p : Path} {paths : List Path} {s : Glob.Selection}
  {command : Command}

/-- The command that a file gets where the files below a root are selected. -/
def preview? (t : Transform) (s : Glob.Selection) (root p : Path) : Option Command :=
  if (root.below? p).any s.accepts then t.commandFor? p else none

theorem preview?_eq_some_iff :
    t.preview? s root p = some command ↔
      (root.below? p).any s.accepts ∧ t.commandFor? p = some command := by
  rw [preview?, Option.ite_none_right_eq_some]

theorem commandsFor_filter_below (files : List Path) :
    t.commandsFor (files.filter fun p => (root.below? p).any s.accepts) =
      files.filterMap (t.preview? s root) := by
  rw [commandsFor, List.filterMap_filter]
  rfl

theorem perform_plan (hs : Glob.Selection.ofPatterns t.included t.excluded = .ok s)
    (hapart : paths.Pairwise fun p q => ¬ p.Same q) :
    perform (t.plan (Listing.lister root paths)) fs =
      (.ok ((Path.sorted paths).filterMap (t.preview? s root)), fs) := by
  have hlisted : Listing.ofPaths root paths t.included t.excluded =
      .ok ((Path.sorted paths).filter fun p => (root.below? p).any s.accepts) :=
    Listing.ofPaths_eq_ok_iff.mpr ⟨s, hs, (Path.unambiguous_of_apart hapart).sorted_filter _⟩
  have hlister : (Listing.lister root paths : Lister (StateM MemoryFs)) t.included t.excluded fs =
      (.ok ((Path.sorted paths).filter fun p => (root.below? p).any s.accepts), fs) :=
    congrArg (·, fs) hlisted
  rw [perform_plan_ok hlister, commandsFor_filter_below]

theorem perform_plan_single (hs : Glob.Selection.ofPatterns t.included t.excluded = .ok s) :
    perform (t.plan (Listing.lister root [p])) fs = (.ok (t.preview? s root p).toList, fs) := by
  rw [perform_plan hs (List.pairwise_singleton _ p),
    Path.sorted_eq_self (List.pairwise_singleton _ p), List.filterMap_eq_flatMap_toList,
    List.flatMap_singleton]

/-- Of the commands for files in strict order, those about one of the files are its preview. -/
theorem filter_source_same {files : List Path} (hbefore : files.Pairwise Path.Before)
    (hp : p ∈ files) :
    (files.filterMap (t.preview? s root)).filter (·.source.Same p) =
      (t.preview? s root p).toList := by
  have hsource : ∀ q ∈ files, (t.preview? s root q).filter (·.source.Same p) =
      if q.Same p then t.preview? s root q else none := by
    intro q _
    cases h : t.preview? s root q with
    | none => rw [Option.filter_none, ite_self]
    | some command =>
      rw [Option.filter_some, source_eq_of_commandFor? (preview?_eq_some_iff.mp h).2]
      simp only [decide_eq_true_eq]
  calc
    (files.filterMap (t.preview? s root)).filter (·.source.Same p)
      = files.filterMap fun q => (t.preview? s root q).filter (·.source.Same p) :=
        List.filter_filterMap
    _ = files.filterMap fun q => if q.Same p then t.preview? s root q else none :=
        List.filterMap_congr hsource
    _ = (files.filter (·.Same p)).filterMap (t.preview? s root) := by
        simp only [List.filterMap_filter, decide_eq_true_eq]
    _ = (t.preview? s root p).toList := by
        rw [Path.filter_same hbefore hp, List.filterMap_eq_flatMap_toList, List.flatMap_singleton]

/-- A plan over files that lie apart, in whatever order they are given, is what the previews of the
files show, one after the other in the only order that their paths have. What it asks for at one of
them is what its preview shows. -/
theorem plan_eq_previews (hs : Glob.Selection.ofPatterns t.included t.excluded = .ok s)
    (hapart : paths.Pairwise fun p q => ¬ p.Same q) :
    ∃ order previews,
      (∀ other, other.Perm paths ∧ other.Pairwise Path.Before ↔ other = order) ∧
      List.Forall₂
        (fun p preview => perform (t.plan (Listing.lister root [p])) fs = (.ok preview, fs))
        order previews ∧
      (∀ given, given.Perm paths →
        perform (t.plan (Listing.lister root given)) fs = (.ok previews.flatten, fs)) ∧
      ∀ p ∈ paths, perform (t.plan (Listing.lister root [p])) fs =
        (.ok (previews.flatten.filter (·.source.Same p)), fs) := by
  have hflatten : ((Path.sorted paths).map fun p => (t.preview? s root p).toList).flatten =
      (Path.sorted paths).filterMap (t.preview? s root) := by
    rw [List.filterMap_eq_flatMap_toList, List.flatMap_def]
  refine ⟨Path.sorted paths, (Path.sorted paths).map fun p => (t.preview? s root p).toList,
    fun _ => Path.perm_before_iff hapart, ?_, ?_, ?_⟩
  · rw [List.forall₂_map_right_iff, List.forall₂_same]
    intro p _
    exact perform_plan_single hs
  · intro given hperm
    have hgiven : given.Pairwise fun p q => ¬ p.Same q :=
      (hperm.pairwise_iff fun hn hs => hn hs.symm).mpr hapart
    have hsorted : Path.sorted given = Path.sorted paths :=
      (Path.perm_before_iff hapart).mp
        ⟨(Path.sorted_perm hgiven).trans hperm, Path.pairwise_sorted given⟩
    rw [perform_plan hs hgiven, hsorted, hflatten]
  · intro p hp
    have hmem : p ∈ Path.sorted paths := (Path.sorted_perm hapart).mem_iff.mpr hp
    rw [hflatten, filter_source_same (Path.pairwise_sorted paths) hmem, perform_plan_single hs]

/-- The pages are given the wrong way round, and each moves as it does on its own. -/
theorem site_previews : ∃ previews,
    List.Forall₂
      (fun p preview =>
        perform ((mover pagesToApp).plan (Listing.lister (.ofString "/site") [p])) site =
          (.ok preview, site))
      site.paths previews ∧
    perform ((mover pagesToApp).plan (Listing.lister (.ofString "/site") site.paths.reverse)) site =
      (.ok previews.flatten, site) ∧
    previews.flatten =
      [.move (.ofString "/site/pages/a.ts") (.ofString "/site/app/a.ts"),
        .move (.ofString "/site/pages/b.ts") (.ofString "/site/app/b.ts")] := by
  obtain ⟨s, hs, -⟩ := Listing.ofPaths_eq_ok_iff.mp listing_site
  have hapart : site.paths.reverse.Pairwise fun p q => ¬ p.Same q := by decide +kernel
  have hperm : site.paths.Perm site.paths.reverse := (List.reverse_perm _).symm
  obtain ⟨order, previews, horder, hpreviews, hplan, -⟩ :=
    @plan_eq_previews (mover pagesToApp) site (.ofString "/site") site.paths.reverse s hs hapart
  obtain rfl := (horder site.paths).mp ⟨hperm, site.pairwise_paths⟩
  have hlister : (Listing.lister (.ofString "/site") site.paths : Lister (StateM MemoryFs))
      (mover pagesToApp).included (mover pagesToApp).excluded site = (.ok _, site) :=
    congrArg (·, site) listing_site
  have hends := (perform_plan_ok hlister).symm.trans (hplan _ hperm)
  refine ⟨previews, hpreviews, hplan _ (.refl _), ?_⟩
  rw [← Except.ok.inj (Prod.mk.inj hends).1]
  decide +kernel

end Relayout.Transform
