import Mathlib.Data.List.Basic
import Relayout.Proofs.Listing
import Relayout.Proofs.Memory.Paths
import Relayout.Proofs.Transform.Compilation
import Relayout.Proofs.Transform.Run

/-!
# How a run may fail

A run over a tree's own files finds each of them when its turn comes, whatever was moved, copied or
deleted before. So it fails only by a pattern or by what is the matter with a target.
-/

namespace Relayout.Transform

open Execution MemoryFs

variable {t : Transform} {fs mid tree : MemoryFs} {root : Path} {files : List Path}
  {c : Command} {before after : List Command} {dryRun : Bool} {fault : Fault}

/-- The faults that a run over the files of a tree may end with. -/
inductive Expected (t : Transform) (fs : MemoryFs) : Fault → Prop
  | invalidPattern {pattern : Text} {error : Glob.PatternError}
      (h : pattern ∈ t.included :: t.excluded) : Expected t fs (.invalidPattern pattern error)
  | ontoItself {p target : Path} {command : Command} (hp : p ∈ fs.paths)
      (hc : t.commandFor? p = some command) (ht : target ∈ command.target?)
      (h : p.normalize = target.normalize) :
      Expected t fs (.sameSourceAndTarget command.kind p)
  | fileInTheWay {p target dir file : Path} {command : Command} (hp : p ∈ fs.paths)
      (hc : t.commandFor? p = some command) (ht : target ∈ command.target?)
      (hd : target.parent? = some dir) (hf : file ∈ dir.ancestors) :
      Expected t fs (.io .createDirectory dir (.fileInTheWay file))
  | writeRejected {p target : Path} {command : Command} {operation : Operation} (hp : p ∈ fs.paths)
      (hc : t.commandFor? p = some command) (ht : target ∈ command.target?)
      (ho : operation = .copyTo ∨ operation = .finishWriting) (hr : fs.rejectsWrites target) :
      Expected t fs (.io operation target (.writeRejected target))

theorem Expected.kind_ne_notFound {operation : Operation} {p : Path} {e : SystemError}
    (h : Expected t fs (.io operation p e)) : e.kind ≠ .notFound := by
  cases h with
  | fileInTheWay => exact ErrorKind.noConfusion
  | writeRejected => exact ErrorKind.noConfusion

/-- When the turn of a command comes, its file is there. -/
theorem source_there (h : Listing.ofPaths root fs.paths t.included t.excluded = .ok files)
    (hsplit : t.commandsFor files = before ++ c :: after) (hruns : Runs fs before mid) :
    mid.exists? c.source := by
  have hapart := pairwise_sources (Listing.pairwise_of_ofPaths h) (t := t)
  have hmem : c ∈ t.commandsFor files := by simp [hsplit]
  rw [hsplit] at hapart
  have hp := Listing.mem_of_ofPaths h (commandFor?_source hmem).1
  refine exists?_of_mem_paths (hruns.mem_paths hp ?_)
  intro d hd _
  exact (List.pairwise_append.mp hapart).2.2 d hd c (.head after)

theorem expected_of_obstructed (h : Listing.ofPaths root fs.paths t.included t.excluded = .ok files)
    (hc : c ∈ t.commandsFor files) (hruns : Runs fs before mid) (hfault : Obstructed mid c fault) :
    Expected t fs fault := by
  obtain ⟨hp, hcommand⟩ := commandFor?_source hc
  have hp := Listing.mem_of_ofPaths h hp
  cases hfault with
  | ontoItself ht hsame => exact .ontoItself hp hcommand ht hsame
  | blocked ht hblocked =>
    obtain ⟨hdir, hfile⟩ := hblocked
    exact .fileInTheWay hp hcommand ht (Option.filter_eq_some_iff.mp hdir).1
      (List.mem_of_find?_eq_some hfile)
  | rejected ht ho hr =>
    rw [hruns.rejectsWrites_eq] at hr
    exact .writeRejected hp hcommand ht ho hr

/-- A run over the files of a tree never fails because something is not found. It fails by an
invalid pattern, by a file sent onto itself, by a file where a directory is to be made, or by a
target that rejects writes. -/
theorem run_fault_expected
    (hrun : perform (t.run (Listing.lister root fs.paths) dryRun) fs = (.error fault, tree)) :
    Expected t fs fault ∧ ∀ operation p e, fault = .io operation p e → e.kind ≠ .notFound := by
  have hexpected : Expected t fs fault := by
    rcases perform_run_eq_error_iff.mp hrun with ⟨h, -⟩ | ⟨files, hfiles, -, hexecuted⟩
    · obtain ⟨pattern, hpattern, e, rfl⟩ :=
        Glob.Selection.ofPatterns_eq_error (Listing.ofPaths_eq_error_iff.mp h)
      exact .invalidPattern hpattern
    · obtain ⟨before, c, after, mid, hsplit, hruns, hc⟩ :=
        perform_executeAll_eq_error_iff.mp hexecuted
      have hmem : c ∈ t.commandsFor files := by simp [hsplit]
      have hthere := source_there hfiles hsplit hruns
      exact expected_of_obstructed hfiles hmem hruns
        ((executes_of_perform hc).obstructed hthere (kind_ne_create hmem))
  refine ⟨hexpected, ?_⟩
  rintro operation p e rfl
  exact hexpected.kind_ne_notFound

def guardedSite : MemoryFs := site.failWritesTo (.ofString "/site/app/b.ts")

def rejectedPage : Fault :=
  .io .copyTo (.ofString "/site/app/b.ts") (.writeRejected (.ofString "/site/app/b.ts"))

/-- The first page is moved and the second one is not, as its target rejects writes. -/
theorem guarded_site_rejects_page : ∃ tree,
    perform ((mover pagesToApp).run (Listing.lister (.ofString "/site") guardedSite.paths) false)
        guardedSite = (.error rejectedPage, tree) ∧
      Expected (mover pagesToApp) guardedSite rejectedPage ∧
      ∀ operation p e, rejectedPage = .io operation p e → e.kind ≠ .notFound := by
  have hexecuted : (perform (executeAll ((mover pagesToApp).commandsFor
      [.ofString "/site/pages/a.ts", .ofString "/site/pages/b.ts"])) guardedSite).1 =
        .error rejectedPage := by decide +kernel
  have hrun : perform ((mover pagesToApp).run (Listing.lister (.ofString "/site") guardedSite.paths)
      false) guardedSite = (.error rejectedPage, _) :=
    perform_run_eq_error_iff.mpr (.inr ⟨_, listing_site, rfl, Prod.ext hexecuted rfl⟩)
  exact ⟨_, hrun, run_fault_expected hrun⟩

end Relayout.Transform
