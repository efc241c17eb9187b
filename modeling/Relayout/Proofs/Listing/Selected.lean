import Relayout.Proofs.Glob.Selection
import Relayout.Proofs.Listing
import Relayout.Proofs.Path.Below

/-!
# What a listing selects

A listing gives the places below its root whose remainder the patterns select, in order, each once
and with the first of its texts. Which texts those are depends on the order of the paths only where
one place is written in two ways.
-/

namespace Relayout.Listing

/-- Whether a path is to be listed: it lies below the root, and the pattern to include matches what
is left of it while none of those to exclude does. -/
structure Selected (root : Path) (included : Text) (excluded : List Text) (p : Path) : Prop where
  below : root.components <+: p.components
  left : ∀ rest, root.below? p = some rest →
    Glob.MatchesPath included rest ∧ ∀ pattern ∈ excluded, ¬ Glob.MatchesPath pattern rest

/-- The paths that are to be listed, in order, of each place the one that comes first. -/
structure Lists (root : Path) (included : Text) (excluded : List Text) (paths files : List Path) :
    Prop where
  ordered : files.Pairwise Path.Before
  places : ∀ p, (∃ q ∈ files, q.Same p) ↔
    ∃ q ∈ paths, Selected root included excluded q ∧ q.Same p
  first : ∀ p, p ∈ files ↔ Selected root included excluded p ∧
    ∃ before after, paths = before ++ p :: after ∧
      ∀ q ∈ before, Selected root included excluded q → ¬ q.Same p

variable {root p : Path} {paths given : List Path} {included : Text}
  {excluded stricter : List Text} {s t : Glob.Selection}

theorem selected_iff : Selected root included excluded p ↔
    ∃ rest, root.below? p = some rest ∧ Glob.MatchesPath included rest ∧
      ∀ pattern ∈ excluded, ¬ Glob.MatchesPath pattern rest := by
  constructor
  · rintro ⟨hbelow, hleft⟩
    obtain ⟨rest, hrest⟩ := Path.exists_below?_iff.mpr hbelow
    exact ⟨rest, hrest, hleft rest hrest⟩
  · rintro ⟨rest, hrest, hmatches⟩
    refine ⟨Path.exists_below?_iff.mp ⟨rest, hrest⟩, ?_⟩
    intro rest' hrest'
    obtain rfl : rest = rest' := Option.some.inj (hrest.symm.trans hrest')
    exact hmatches

instance (root : Path) (included : Text) (excluded : List Text) (p : Path) :
    Decidable (Selected root included excluded p) :=
  decidable_of_iff ((root.below? p).any fun rest => Glob.MatchesPath included rest ∧
      ∀ pattern ∈ excluded, ¬ Glob.MatchesPath pattern rest) <| by
    simp only [selected_iff, Option.any_eq_true, decide_eq_true_eq]

theorem any_accepts_iff (h : Glob.Selection.ofPatterns included excluded = .ok s) :
    (root.below? p).any s.accepts ↔ Selected root included excluded p := by
  rw [selected_iff, Option.any_eq_true]
  exact exists_congr fun rest => and_congr_right fun _ => Glob.Selection.accepts_iff h rest

theorem lists_below (h : Glob.Selection.ofPatterns included excluded = .ok s) (paths : List Path) :
    Lists root included excluded paths (below root s paths) where
  ordered := Path.pairwise_sorted _
  places p := by
    rw [below, Path.exists_same_mem_sorted_iff]
    simp only [List.mem_filter, any_accepts_iff h, and_assoc]
  first p := by
    rw [below, Path.mem_sorted_iff, List.find?_filter, List.find?_eq_some_iff_append]
    simp only [any_accepts_iff h, decide_eq_true_eq, Bool.not_eq_true', decide_eq_false_iff_not,
      not_and, Path.Same.refl, and_true]

theorem below_eq_of_mem_iff (h : Path.Unambiguous paths) (hmem : ∀ p, p ∈ given ↔ p ∈ paths) :
    below root s given = below root s paths := by
  refine (h.subset (List.filter_subset_self paths)).sorted_eq fun p => ?_
  rw [List.mem_filter, List.mem_filter, hmem]

theorem below_sublist (h : Path.Unambiguous paths)
    (haccepts : ∀ rest, t.accepts rest → s.accepts rest) :
    (below root t paths).Sublist (below root s paths) := by
  refine (h.subset (List.filter_subset_self paths)).sorted_sublist fun p hp => ?_
  obtain ⟨hmem, hany⟩ := List.mem_filter.mp hp
  obtain ⟨rest, hrest, haccepted⟩ := (Option.any_eq_true _ _).mp hany
  exact List.mem_filter.mpr ⟨hmem, (Option.any_eq_true _ _).mpr
    ⟨rest, hrest, haccepts rest haccepted⟩⟩

theorem accepts_of_subset (hs : Glob.Selection.ofPatterns included excluded = .ok s)
    (ht : Glob.Selection.ofPatterns included stricter = .ok t) (hsub : excluded ⊆ stricter)
    (rest : Path) (h : t.accepts rest) : s.accepts rest := by
  obtain ⟨hincluded, hnone⟩ := (Glob.Selection.accepts_iff ht rest).mp h
  exact (Glob.Selection.accepts_iff hs rest).mpr
    ⟨hincluded, fun pattern hm => hnone pattern (hsub hm)⟩

/-- Valid patterns make a listing. Where no place is written in two ways, neither the order of the
paths nor their repetitions change it, and further patterns to exclude only take paths from it. -/
theorem lists_of_valid (hvalid : ∀ pattern ∈ included :: excluded, Glob.Valid pattern) :
    (∀ p rest, root.below? p = some rest → p.components = root.components ++ rest.components) ∧
      ∃ files, ofPaths root paths included excluded = .ok files ∧
        Lists root included excluded paths files ∧
        (Path.Unambiguous paths →
          (∀ given, (∀ p, p ∈ given ↔ p ∈ paths) →
            ofPaths root given included excluded = .ok files) ∧
          ∀ stricter, excluded ⊆ stricter → (∀ pattern ∈ stricter, Glob.Valid pattern) →
            ∃ fewer, ofPaths root paths included stricter = .ok fewer ∧ fewer.Sublist files) := by
  obtain ⟨s, hs⟩ := Glob.Selection.exists_ofPatterns_iff.mpr hvalid
  refine ⟨fun p rest => Path.components_below?, below root s paths,
    ofPaths_eq_ok_iff.mpr ⟨s, hs, rfl⟩, lists_below hs paths, fun hone => ⟨?_, ?_⟩⟩
  · intro given hmem
    exact ofPaths_eq_ok_iff.mpr ⟨s, hs, below_eq_of_mem_iff hone hmem⟩
  · intro stricter hsub hstricter
    have hall : ∀ pattern ∈ included :: stricter, Glob.Valid pattern :=
      List.forall_mem_cons.mpr ⟨hvalid included List.mem_cons_self, hstricter⟩
    obtain ⟨t, ht⟩ := Glob.Selection.exists_ofPatterns_iff.mpr hall
    exact ⟨below root t paths, ofPaths_eq_ok_iff.mpr ⟨t, ht, rfl⟩,
      below_sublist hone (accepts_of_subset hs ht hsub)⟩

def site : Path := .ofString "/site/"

def app : Path := .ofString "/site/src/app.ts"

def appAgain : Path := .ofString "/site/src//app.ts"

def sitePaths : List Path :=
  [app, .ofString "/site/api/get.ts", .ofString "/site/lib/./view.tsx"]

def scripts : Text := "**/*.\x7bts,tsx\x7d".toList

/-- Where one place is written in two ways, the text that comes first is listed. Without it, nothing
is changed by giving the paths once more in another order, and one pattern more only takes paths. -/
theorem scripts_listed :
    (∃ files, ofPaths site (appAgain :: sitePaths) scripts ["**/api/*".toList] = .ok files ∧
      appAgain ∈ files ∧ app ∉ files) ∧
    ∃ files fewer, ofPaths site sitePaths scripts ["**/api/*".toList] = .ok files ∧
      ofPaths site (sitePaths.reverse ++ sitePaths) scripts ["**/api/*".toList] = .ok files ∧
      ofPaths site sitePaths scripts ["lib/**".toList, "**/api/*".toList] = .ok fewer ∧
      fewer.Sublist files := by
  have hvalid : ∀ pattern ∈ scripts :: ["**/api/*".toList], Glob.Valid pattern := by
    decide +kernel
  refine ⟨?_, ?_⟩
  · obtain ⟨-, files, hfiles, hlists, -⟩ :=
      @lists_of_valid site (appAgain :: sitePaths) _ _ hvalid
    have hfirst : appAgain ∈ files :=
      (hlists.first _).mpr ⟨by decide +kernel, [], sitePaths, rfl, nofun⟩
    refine ⟨files, hfiles, hfirst, fun hsecond => ?_⟩
    have heq := Path.unambiguous_of_pairwise hlists.ordered _ hfirst _ hsecond (by decide)
    exact absurd heq (by decide)
  · obtain ⟨-, files, hfiles, -, hone⟩ := @lists_of_valid site sitePaths _ _ hvalid
    obtain ⟨hsame, hfewer⟩ := hone (by decide)
    have hstricter := hfewer ["lib/**".toList, "**/api/*".toList] (by decide) (by decide +kernel)
    obtain ⟨fewer, hok, hsub⟩ := hstricter
    exact ⟨files, fewer, hfiles, hsame _ (by simp), hok, hsub⟩

end Relayout.Listing
