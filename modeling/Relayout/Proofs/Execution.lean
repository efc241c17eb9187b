import Relayout.Proofs.Memory.Effect
import Relayout.Proofs.Path.Canonical

/-!
# What commands are refused

A move or copy is refused before anything is done where its paths resolve to one text, as two paths
do that differ in their strays only. On whatever file system it is carried out, all its other faults
are those of calls. So on a tree the refusals are known by the paths alone, and a command that is
not refused has two places to work on.
-/

namespace Relayout

namespace Execution

variable {m : Type → Type} {Reader Writer : Type} {α β ε ε' : Type} [Monad m] [LawfulMonad m]

omit [LawfulMonad m] in
theorem run_adapt (f : ε → ε') (y : ExceptT ε m α) :
    (y.adapt f).run = Except.mapError f <$> y.run := rfl

theorem adapt_bind (f : ε → ε') (y : ExceptT ε m α) (g : α → ExceptT ε m β) :
    (y >>= g).adapt f = y.adapt f >>= fun a => (g a).adapt f := by
  apply ExceptT.ext
  rw [run_adapt, ExceptT.run_bind, ExceptT.run_bind, run_adapt, map_bind, bind_map_left]
  congr 1
  funext result
  cases result with
  | ok a => rfl
  | error e => exact map_pure _ _

/-- Whether all faults of a program are those of calls on a file system. -/
def FailsInCalls (x : ExceptT Fault m α) : Prop :=
  ∃ y : ExceptT (Operation × Path × SystemError) m α,
    x = y.adapt fun (operation, path, error) => .io operation path error

namespace FailsInCalls

theorem during (operation : Operation) (path : Path) (call : ExceptT SystemError m α) :
    FailsInCalls (during operation path call) := by
  refine ⟨call.adapt fun error => (operation, path, error), ?_⟩
  apply ExceptT.ext
  rw [run_adapt, run_adapt, ← comp_map, Execution.during, run_adapt]
  congr 1
  funext result
  cases result with
  | ok _ => rfl
  | error _ => rfl

theorem lift (x : m α) : FailsInCalls (ExceptT.lift x) := by
  refine ⟨ExceptT.lift x, ?_⟩
  apply ExceptT.ext
  rw [run_adapt, ExceptT.run_lift, ExceptT.run_lift, ← comp_map]
  rfl

theorem pure (a : α) : FailsInCalls (Pure.pure a : ExceptT Fault m α) := by
  refine ⟨Pure.pure a, ?_⟩
  apply ExceptT.ext
  rw [run_adapt, ExceptT.run_pure, ExceptT.run_pure, map_pure]
  rfl

theorem bind {x : ExceptT Fault m α} {f : α → ExceptT Fault m β} (hx : FailsInCalls x)
    (hf : ∀ a, FailsInCalls (f a)) : FailsInCalls (x >>= f) := by
  obtain ⟨y, rfl⟩ := hx
  choose g hg using hf
  obtain rfl := funext hg
  exact ⟨y >>= g, (adapt_bind _ y g).symm⟩

theorem requireDistinct {source target : Path} (kind : Command.Kind)
    (h : source.normalize ≠ target.normalize) :
    FailsInCalls (requireDistinct kind source target : ExceptT Fault m Unit) := by
  rw [Execution.requireDistinct, if_neg h]
  exact pure ()

theorem makeParent [FileSystem m Reader Writer] (path : Path) :
    FailsInCalls (makeParent path : ExceptT Fault m Unit) := by
  unfold Execution.makeParent
  cases path.parent? with
  | none => exact pure ()
  | some dir =>
    by_cases h : dir.isEmpty
    · simpa only [if_pos h] using pure ()
    · simpa only [if_neg h] using during _ _ _

variable [Journal m] [FileSystem m Reader Writer]

theorem note (notice : Notice) : FailsInCalls (note notice : ExceptT Fault m Unit) :=
  lift (Journal.note notice : m Unit)

theorem copyFile (source target : Path) :
    FailsInCalls (copyFile source target : ExceptT Fault m Unit) := by
  refine (makeParent target).bind fun _ => ?_
  refine (during .open source _).bind fun _ => ?_
  refine (during .openForWriting target _).bind fun _ => ?_
  refine (during .copyTo target _).bind fun _ => ?_
  exact (during .finishWriting target _).bind fun _ => note _

/-- Only by comparing its paths does a command fail before any call is made. -/
theorem execute {c : Command} (h : ∀ target ∈ c.target?, c.source.normalize ≠ target.normalize) :
    FailsInCalls (execute c : ExceptT Fault m Unit) := by
  cases c with
  | delete p => exact (note _).bind fun _ => during .delete p _
  | create p => exact (note _).bind fun _ => during .create p _
  | move source target =>
    refine (requireDistinct .move (h target rfl)).bind fun _ => (note _).bind fun _ => ?_
    exact (copyFile source target).bind fun _ => during .removeMoved source _
  | copy source target =>
    refine (requireDistinct .copy (h target rfl)).bind fun _ => (note _).bind fun _ => ?_
    exact copyFile source target

end FailsInCalls

end Execution

namespace MemoryFs

open Execution

variable {fs tree : MemoryFs} {c : Command} {target : Path} {fault : Fault}

theorem io_of_failsInCalls {x : ExceptT Fault (StateM MemoryFs) Unit} (hx : FailsInCalls x)
    (h : (perform x fs).1 = .error fault) : ∃ operation p error, fault = .io operation p error := by
  obtain ⟨y, rfl⟩ := hx
  change (y fs).1.mapError _ = _ at h
  cases hy : (y fs).1 with
  | ok a =>
    rw [hy] at h
    cases h
  | error e =>
    rw [hy] at h
    obtain ⟨operation, p, error⟩ := e
    exact ⟨operation, p, error, (Except.error.inj h).symm⟩

/-- Whether a command is turned away as one that would put a file onto itself. -/
def Refused (fs : MemoryFs) (c : Command) : Prop :=
  ∃ kind p, (perform (execute c) fs).1 = .error (.sameSourceAndTarget kind p)

theorem perform_execute_refused (ht : target ∈ c.target?)
    (h : c.source.normalize = target.normalize) :
    perform (execute c) fs = (.error (.sameSourceAndTarget c.kind c.source), fs) := by
  have hguard : ∀ kind, perform (requireDistinct kind c.source target) fs =
      (.error (.sameSourceAndTarget kind c.source), fs) := fun kind =>
    (perform_requireDistinct fs kind c.source target).trans (if_pos h)
  cases c with
  | delete _ => cases ht
  | create _ => cases ht
  | move _ _ =>
    cases ht
    exact perform_bind_error (hguard .move)
  | copy _ _ =>
    cases ht
    exact perform_bind_error (hguard .copy)

theorem refused_iff (ht : target ∈ c.target?) :
    Refused fs c ↔ c.source.normalize = target.normalize := by
  constructor
  · rintro ⟨kind, p, hrefused⟩
    by_contra hd
    have hcalls : FailsInCalls (execute c : ExceptT Fault (StateM MemoryFs) Unit) := by
      refine .execute fun q hq => ?_
      obtain rfl : target = q := Option.mem_unique ht hq
      exact hd
    obtain ⟨operation, q, error, hio⟩ := io_of_failsInCalls hcalls hrefused
    cases hio
  · intro h
    exact ⟨c.kind, c.source, by rw [perform_execute_refused ht h]⟩

/-- A move or copy is refused exactly where the texts of both its paths are resolved to one, as
those of one place always are, and then the tree stays as it is. Otherwise what is put at the target
leaves the source alone. -/
theorem refused_iff_one_resolution (fs : MemoryFs) (ht : target ∈ c.target?) :
    (Refused fs c ↔ ∃ u, Lexical.Resolves c.source.text u ∧ Lexical.Resolves target.text u) ∧
      (c.source.Same target → Refused fs c) ∧
      (Refused fs c →
        perform (execute c) fs = (.error (.sameSourceAndTarget c.kind c.source), fs)) ∧
      (¬ Refused fs c → ¬ c.source.Same target ∧
        ∀ (tree : MemoryFs) content, (tree.store target content).read? c.source =
          tree.read? c.source) := by
  have hone : (∃ u, Lexical.Resolves c.source.text u ∧ Lexical.Resolves target.text u) ↔
      c.source.normalize = target.normalize := by
    simp only [Lexical.resolves_iff, exists_eq_left, Path.normalize, Path.parts,
      Parts.toText_ofText, Path.ofText_inj]
  refine ⟨(refused_iff ht).trans hone.symm, ?_, ?_, ?_⟩
  · intro hsame
    exact (refused_iff ht).mpr hsame.normalize_eq
  · intro hrefused
    exact perform_execute_refused ht ((refused_iff ht).mp hrefused)
  · intro hpassed
    have hapart : ¬ c.source.Same target := fun hsame =>
      hpassed ((refused_iff ht).mpr hsame.normalize_eq)
    refine ⟨hapart, ?_⟩
    intro tree content
    rw [read?_store, if_neg fun hsame => hapart hsame.symm]

def keepFile : MemoryFs := MemoryFs.empty.withFile (.ofString "./src/keep.ts") [107]

def detour : Command := .move (.ofString "./src/keep.ts") (.ofString "lib/..//src/./keep.ts")

/-- The two places differ, but resolving both paths leads to one text. -/
theorem detour_refused :
    ¬ detour.source.Same (.ofString "lib/..//src/./keep.ts") ∧ Refused keepFile detour ∧
      perform (execute detour) keepFile =
        (.error (.sameSourceAndTarget .move (.ofString "./src/keep.ts")), keepFile) := by
  obtain ⟨hiff, -, hunchanged, -⟩ := refused_iff_one_resolution keepFile
    (rfl : (.ofString "lib/..//src/./keep.ts") ∈ detour.target?)
  have hrefused : Refused keepFile detour :=
    hiff.mpr ⟨"src/keep.ts".toList, Lexical.resolves_iff.mpr (by decide),
      Lexical.resolves_iff.mpr (by decide)⟩
  exact ⟨by decide, hrefused, hunchanged hrefused⟩

/-- There is nothing to resolve in two paths that differ, and yet they are refused: their strays are
replaced alike before they are compared. -/
theorem strays_refused :
    Refused keepFile (.move .stray .otherStray) ∧ Path.stray.Straight ∧ Path.otherStray.Straight ∧
      Path.stray.components = [.root, .name [0xFF]] ∧
      Path.otherStray.components = [.root, .name [0xFE]] :=
  ⟨(refused_iff rfl).mpr (by decide), by decide, by decide, by decide, by decide⟩

end MemoryFs

end Relayout
