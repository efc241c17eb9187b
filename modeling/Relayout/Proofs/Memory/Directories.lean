import Relayout.Proofs.Memory.Outcomes
import Relayout.Proofs.Path.Ancestors

/-!
# The directories of a tree

Where a directory is, those it lies in are too, and so are those that a file lies in, but for the
root and the empty path, which need not be made. Directories are never taken away, so a place where
a file may be put stays one.
-/

namespace Relayout.MemoryFs

open Execution

variable {fs mid tree : MemoryFs} {p q a dir source target : Path} {content : Bytes} {c : Command}
  {result : Except Fault Unit}

/-- Whether the directories are there that a file at a place lies in. -/
def Housed (fs : MemoryFs) (p : Path) : Prop :=
  ∀ a, p.LiesIn a → a.isEmpty ∨ a.Same ⟨[Path.slash]⟩ ∨ fs.isDir a

/-- What directories and files lie in is there too: a directory lies in directories only, but for
the empty path, and a file is housed. -/
structure Closed (fs : MemoryFs) : Prop where
  dirs : ∀ d a, fs.isDir d → d.LiesIn a → a.isEmpty ∨ fs.isDir a
  files : ∀ p, fs.exists? p → fs.Housed p

theorem closed_empty : empty.Closed := ⟨nofun, nofun⟩

theorem isDir_congr (h : p.Same q) : fs.isDir p = fs.isDir q := by
  have hsame : ∀ d : Path, d.Same p ↔ d.Same q := fun d => ⟨(·.trans h), (·.trans h.symm)⟩
  simp only [isDir, hsame]

theorem exists?_congr (h : p.Same q) : fs.exists? p = fs.exists? q :=
  congrArg Option.isSome (read?_congr h)

theorem exists?_store : (fs.store p content).exists? q ↔ p.Same q ∨ fs.exists? q := by
  change (read? _ q).isSome ↔ _ ∨ (fs.read? q).isSome
  rw [read?_store]
  split
  next h => simp [h]
  next h => simp [h]

theorem exists?_removed : (fs.removed p).exists? q ↔ ¬ p.Same q ∧ fs.exists? q := by
  change (read? _ q).isSome ↔ _ ∧ (fs.read? q).isSome
  rw [read?_removed]
  split
  next h => simp [h]
  next h => simp [h]

theorem isDir_addDir_iff : (fs.addDir dir).isDir p ↔ fs.isDir p ∨ dir.Same p := by
  constructor
  · intro h
    unfold addDir at h
    split at h
    · exact .inl h
    · rw [isDir, List.any_append, Bool.or_eq_true] at h
      exact h.imp_right fun h => by simpa using h
  · exact isDir_addDir

theorem isDir_foldl_addDir_iff {dirs : List Path} :
    (dirs.foldl addDir fs).isDir p ↔ fs.isDir p ∨ ∃ d ∈ dirs, d.Same p := by
  induction dirs generalizing fs with
  | nil => simp
  | cons d dirs ih =>
    rw [List.foldl_cons, ih, isDir_addDir_iff, or_assoc]
    simp

/-- Adding a directory adds those it lies in, and no others. -/
theorem isDir_addDirs_iff :
    (fs.addDirs dir).isDir a ↔ fs.isDir a ∨ (dir.Same a ∨ dir.LiesIn a) ∧ ¬ a.isEmpty := by
  rw [addDirs, isDir_foldl_addDir_iff, Path.exists_mem_takeWhile_ancestors_iff]

theorem exists?_addDirs : (fs.addDirs dir).exists? p = fs.exists? p := by
  rw [exists?, addDirs_files]
  rfl

theorem Housed.congr (h : fs.Housed p) (hs : p.Same q) : fs.Housed q :=
  fun a ha => h a ((Path.LiesIn.congr hs (.refl a)).mpr ha)

theorem Housed.mono (h : fs.Housed p) (hdirs : ∀ d, fs.isDir d → tree.isDir d) : tree.Housed p :=
  fun a ha => (h a ha).imp_right (.imp_right (hdirs a))

/-- The call that looks for the directory of a file alone finds all that the file lies in. -/
theorem Closed.housed (h : fs.Closed) (hp : fs.hasParent p) : fs.Housed p := by
  intro a ha
  unfold hasParent at hp
  split at hp
  next hnone => exact absurd ha (Path.not_liesIn_of_parent?_eq_none hnone)
  next dir hdir =>
    rw [Bool.or_eq_true, Option.isNone_iff_eq_none] at hp
    rcases (Path.liesIn_iff_parent? hdir).mp ha with hsame | hlies
    · rcases hp with htop | hp
      · rcases Path.components_of_parent?_eq_none htop with hnil | hroot
        · exact .inl (hsame.isEmpty_iff.mp (Path.isEmpty_iff.mpr hnil))
        · exact .inr (.inl (hsame.symm.trans hroot))
      · rw [isDir_congr hsame] at hp
        exact .inr (.inr hp)
    · rcases hp with htop | hp
      · exact absurd hlies (Path.not_liesIn_of_parent?_eq_none htop)
      · exact (h.dirs dir a hp hlies).imp_right .inr

/-- What a change leaves of a tree with closed directories: they are so again, and all there. -/
structure Grows (fs tree : MemoryFs) : Prop where
  closed : tree.Closed
  isDir : ∀ d, fs.isDir d → tree.isDir d

theorem Grows.trans (h : Grows fs mid) (h' : Grows mid tree) : Grows fs tree :=
  ⟨h'.closed, fun d hd => h'.isDir d (h.isDir d hd)⟩

namespace Closed

theorem grows_self (h : fs.Closed) : Grows fs fs := ⟨h, fun _ hd => hd⟩

theorem grows_count (h : fs.Closed) : Grows fs fs.count := ⟨⟨h.dirs, h.files⟩, fun _ hd => hd⟩

theorem grows_addDirs (h : fs.Closed) (dir : Path) : Grows fs (fs.addDirs dir) := by
  have hmono : ∀ d, fs.isDir d → (fs.addDirs dir).isDir d := fun _ hd => isDir_addDirs hd dir
  refine ⟨⟨?_, ?_⟩, hmono⟩
  · intro d a hd ha
    rcases isDir_addDirs_iff.mp hd with hd | ⟨hd, -⟩
    · exact (h.dirs d a hd ha).imp_right (hmono a)
    · have hdir : dir.LiesIn a := by
        rcases hd with hsame | hlies
        · exact (Path.LiesIn.congr hsame (.refl a)).mpr ha
        · exact hlies.trans ha
      by_cases hempty : a.isEmpty
      · exact .inl hempty
      · exact .inr (isDir_addDirs_iff.mpr (.inr ⟨.inr hdir, hempty⟩))
  · intro p hp
    rw [exists?_addDirs] at hp
    exact (h.files p hp).mono hmono

theorem grows_store (h : fs.Closed) (hp : fs.Housed p) (content : Bytes) :
    Grows fs (fs.store p content) := by
  refine ⟨⟨h.dirs, ?_⟩, fun _ hd => hd⟩
  intro q hq
  rcases exists?_store.mp hq with hsame | hq
  · exact hp.congr hsame
  · exact h.files q hq

theorem grows_removed (h : fs.Closed) (p : Path) : Grows fs (fs.removed p) :=
  ⟨⟨h.dirs, fun q hq => h.files q (exists?_removed.mp hq).2⟩, fun _ hd => hd⟩

theorem grows_withParent (h : fs.Closed) (p : Path) : Grows fs (fs.withParent p) := by
  unfold withParent
  split
  · exact h.grows_self
  · exact h.grows_count.trans (h.grows_count.closed.grows_addDirs _)

theorem housed_withParent (h : fs.Closed) (p : Path) : (fs.withParent p).Housed p :=
  (h.grows_withParent p).closed.housed (hasParent_withParent fs p)

theorem grows_opened (h : fs.Closed) (p : Path) : Grows fs (fs.opened p) := by
  have hparent := h.grows_withParent p
  have hcounted := hparent.trans hparent.closed.grows_count
  have htwice := hcounted.trans hcounted.closed.grows_count
  exact htwice.trans (htwice.closed.grows_store (h.housed_withParent p) [])

theorem grows_withFile (h : fs.Closed) (p : Path) (content : Bytes) :
    Grows fs (fs.withFile p content) := by
  unfold withFile
  split
  next hnone =>
    exact h.grows_store (fun a ha => absurd ha (Path.not_liesIn_of_parent?_eq_none hnone)) content
  next dir hdir =>
    have hdirs := h.grows_addDirs dir
    refine hdirs.trans (hdirs.closed.grows_store ?_ content)
    intro a ha
    by_cases hempty : a.isEmpty
    · exact .inl hempty
    · have hlies := (Path.liesIn_iff_parent? hdir).mp ha
      exact .inr (.inr (isDir_addDirs_iff.mpr (.inr ⟨hlies, hempty⟩)))

end Closed

/-! ## Calls and commands -/

theorem Leaves.grows {place : Option Path} (h : Leaves fs place tree) (hfs : fs.Closed) :
    Grows fs tree := by
  cases h with
  | counted => exact hfs.grows_count
  | removed p => exact hfs.grows_removed p
  | made _ => exact hfs.grows_count.trans (hfs.grows_count.closed.grows_addDirs _)
  | stored hp content =>
    exact hfs.grows_count.trans (hfs.grows_count.closed.grows_store (hfs.housed hp) content)

theorem Copies.grows (h : Copies fs source target result tree) (hfs : fs.Closed) :
    Grows fs tree := by
  have hparent := hfs.grows_withParent target
  have hopened := hfs.grows_opened target
  cases h with
  | blocked _ => exact hfs.grows_count
  | missing _ _ => exact hparent.trans hparent.closed.grows_count
  | rejected _ _ _ => exact hopened
  | copied _ _ _ =>
    exact hopened.trans (hopened.closed.grows_store (hfs.housed_withParent target) _)

theorem Executes.grows (h : Executes fs c result tree) (hfs : fs.Closed) : Grows fs tree := by
  cases h with
  | deleted _ => exact hfs.grows_removed _
  | absent _ => exact hfs.grows_count
  | moveRefused _ => exact hfs.grows_self
  | copyRefused _ => exact hfs.grows_self
  | moveFailed _ hcopy => exact hcopy.grows hfs
  | copyFailed _ hcopy => exact hcopy.grows hfs
  | moved _ hcopy => exact (hcopy.grows hfs).trans ((hcopy.grows hfs).closed.grows_removed _)
  | copied _ hcopy => exact hcopy.grows hfs
  | createRejected _ => exact hfs.grows_count
  | createOutside _ _ => exact hfs.grows_count
  | created _ hp =>
    exact hfs.grows_count.trans (hfs.grows_count.closed.grows_store (hfs.housed hp) [])

end Relayout.MemoryFs
