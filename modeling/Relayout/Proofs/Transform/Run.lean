import Relayout.Memory.Basic
import Relayout.Proofs.Listing
import Relayout.Proofs.Memory.Failure
import Relayout.Proofs.Memory.Paths
import Relayout.Proofs.Outcome
import Relayout.Run

/-!
# What a run gives on a tree

A run over a fixed list of paths fails where the listing does and otherwise carries out the commands
for what is listed. All that is shown of runs goes through this equation.
-/

namespace Relayout.Transform

open Execution MemoryFs

variable {t : Transform} {fs tree : MemoryFs} {root : Path} {paths : List Path}
  {cs : List Command} {dryRun : Bool} {fault : Fault}

/-- What a run does once it has its commands. -/
def carryOut (dryRun : Bool) (commands : List Command) :
    ExceptT Fault (StateM MemoryFs) (List Command × Option Summary) :=
  if dryRun then return (commands, none)
  else do
    let summary ← executeAll commands
    return (commands, some summary)

theorem run_eq (t : Transform) (lister : Lister (StateM MemoryFs)) (dryRun : Bool) :
    t.run lister dryRun = t.plan lister >>= carryOut dryRun := by
  cases dryRun <;> rfl

theorem perform_plan_ok {lister : Lister (StateM MemoryFs)} {files : List Path}
    (h : lister t.included t.excluded fs = (.ok files, tree)) :
    perform (t.plan lister) fs = (.ok (t.commandsFor files), tree) := by
  have hlist : perform (ExceptT.mk (lister t.included t.excluded)) fs = (.ok files, tree) := h
  unfold plan
  rw [perform_bind_ok hlist]
  rfl

theorem perform_plan_error {lister : Lister (StateM MemoryFs)}
    (h : lister t.included t.excluded fs = (.error fault, tree)) :
    perform (t.plan lister) fs = (.error fault, tree) := by
  have hlist : perform (ExceptT.mk (lister t.included t.excluded)) fs = (.error fault, tree) := h
  exact perform_bind_error hlist

theorem perform_run_ok {files : List Path}
    (h : Listing.ofPaths root paths t.included t.excluded = .ok files) :
    perform (t.run (Listing.lister root paths) dryRun) fs =
      perform (carryOut dryRun (t.commandsFor files)) fs := by
  have hlist : (Listing.lister root paths : Lister (StateM MemoryFs)) t.included t.excluded fs =
      (.ok files, fs) := congrArg (·, fs) h
  rw [run_eq, perform_bind_ok (perform_plan_ok hlist)]

theorem perform_run_error (h : Listing.ofPaths root paths t.included t.excluded = .error fault) :
    perform (t.run (Listing.lister root paths) dryRun) fs = (.error fault, fs) := by
  have hlist : (Listing.lister root paths : Lister (StateM MemoryFs)) t.included t.excluded fs =
      (.error fault, fs) := congrArg (·, fs) h
  rw [run_eq, perform_bind_error (perform_plan_error hlist)]

theorem perform_carryOut_eq_ok_iff {commands : List Command} {summary : Option Summary} :
    perform (carryOut dryRun commands) fs = (.ok (cs, summary), tree) ↔
      commands = cs ∧
      if dryRun then summary = none ∧ tree = fs
      else ∃ done, summary = some done ∧ perform (executeAll cs) fs = (.ok done, tree) := by
  cases dryRun with
  | true =>
    constructor
    · intro h
      cases h
      exact ⟨rfl, rfl, rfl⟩
    · rintro ⟨rfl, rfl, rfl⟩
      rfl
  | false =>
    rw [carryOut, if_neg Bool.false_ne_true, if_neg Bool.false_ne_true, perform_bind_eq_ok_iff]
    constructor
    · rintro ⟨done, mid, hexecuted, hlast⟩
      cases hlast
      exact ⟨rfl, done, rfl, hexecuted⟩
    · rintro ⟨rfl, done, rfl, hexecuted⟩
      exact ⟨done, tree, hexecuted, rfl⟩

theorem perform_carryOut_eq_error_iff {commands : List Command} :
    perform (carryOut dryRun commands) fs = (.error fault, tree) ↔
      dryRun = false ∧ perform (executeAll commands) fs = (.error fault, tree) := by
  cases dryRun with
  | true =>
    constructor
    · intro h
      cases h
    · rintro ⟨⟨⟩, -⟩
  | false =>
    rw [carryOut, if_neg Bool.false_ne_true, perform_bind_eq_error_iff]
    constructor
    · rintro (h | ⟨_, _, -, h⟩)
      · exact ⟨rfl, h⟩
      · cases h
    · rintro ⟨-, h⟩
      exact .inl h

theorem perform_run_eq_ok_iff {summary : Option Summary} :
    perform (t.run (Listing.lister root paths) dryRun) fs = (.ok (cs, summary), tree) ↔
      (∃ files, Listing.ofPaths root paths t.included t.excluded = .ok files ∧
        t.commandsFor files = cs) ∧
      if dryRun then summary = none ∧ tree = fs
      else ∃ done, summary = some done ∧ perform (executeAll cs) fs = (.ok done, tree) := by
  cases h : Listing.ofPaths root paths t.included t.excluded with
  | error fault => simp [perform_run_error h]
  | ok files => simp [perform_run_ok h, perform_carryOut_eq_ok_iff]

theorem perform_run_eq_error_iff :
    perform (t.run (Listing.lister root paths) dryRun) fs = (.error fault, tree) ↔
      (Listing.ofPaths root paths t.included t.excluded = .error fault ∧ tree = fs) ∨
      ∃ files, Listing.ofPaths root paths t.included t.excluded = .ok files ∧
        dryRun = false ∧ perform (executeAll (t.commandsFor files)) fs = (.error fault, tree) := by
  cases h : Listing.ofPaths root paths t.included t.excluded with
  | error e => simp [perform_run_error h, eq_comm]
  | ok files => simp [perform_run_ok h, perform_carryOut_eq_error_iff]

def site : MemoryFs :=
  (empty.withFile (.ofString "/site/pages/a.ts") [1]).withFile (.ofString "/site/pages/b.ts") [2]

theorem listing_site : Listing.ofPaths (.ofString "/site") site.paths "**/*".toList [] =
    .ok [.ofString "/site/pages/a.ts", .ofString "/site/pages/b.ts"] := by
  have hpatterns : Glob.Selection.ofPatterns "**/*".toList [] =
      .ok ⟨[[.components, .star]], []⟩ := by cbv
  refine Listing.ofPaths_eq_ok_iff.mpr ⟨_, hpatterns, ?_⟩
  rw [Listing.below_eq_filter site.pairwise_paths]
  decide +kernel

end Relayout.Transform
