import Mathlib.Data.List.Basic
import Relayout.Execution
import Relayout.Memory.Basic
import Relayout.Proofs.Path.Resolution

/-!
# How commands end on a tree in memory

A command ends in one of a few ways, and each of them leaves one tree. `Executes` lists them with
the conditions under which they come about, and `Leaves` does so for the calls made on their own, so
that what holds of all of them is shown by cases.
-/

namespace Relayout.MemoryFs

open Execution

variable {α β : Type} {fs mid : MemoryFs} {p q dir source target : Path} {content : Bytes}

/-- Carries a program out on a tree: its result and the tree it leaves. -/
def perform (x : ExceptT Fault (StateM MemoryFs) α) (fs : MemoryFs) : Except Fault α × MemoryFs :=
  x fs

theorem perform_note (notice : Notice) :
    perform (note notice : ExceptT Fault (StateM MemoryFs) Unit) fs = (.ok (), fs) := rfl

section

variable {x : ExceptT Fault (StateM MemoryFs) α} {f : α → ExceptT Fault (StateM MemoryFs) β}
  {operation : Operation} {call : ExceptT SystemError (StateM MemoryFs) α} {a : α}

theorem perform_bind_ok (h : perform x fs = (.ok a, mid)) :
    perform (x >>= f) fs = perform (f a) mid := by
  change ExceptT.bindCont f (perform x fs).1 (perform x fs).2 = _
  rw [h]
  rfl

theorem perform_bind_error {fault : Fault} (h : perform x fs = (.error fault, mid)) :
    perform (x >>= f) fs = (.error fault, mid) := by
  change ExceptT.bindCont f (perform x fs).1 (perform x fs).2 = _
  rw [h]
  rfl

theorem perform_bind_eq_ok_iff {b : β} {tree : MemoryFs} :
    perform (x >>= f) fs = (.ok b, tree) ↔
      ∃ a mid, perform x fs = (.ok a, mid) ∧ perform (f a) mid = (.ok b, tree) := by
  constructor
  · intro h
    cases hx : perform x fs with
    | mk result mid =>
      cases result with
      | error fault =>
        rw [perform_bind_error hx] at h
        cases h
      | ok a =>
        rw [perform_bind_ok hx] at h
        exact ⟨a, mid, rfl, h⟩
  · rintro ⟨a, mid, hx, hf⟩
    rw [perform_bind_ok hx, hf]

theorem perform_during_ok (h : call fs = (.ok a, mid)) :
    perform (during operation p call) fs = (.ok a, mid) := by
  change ((call fs).1.mapError (Fault.io operation p), (call fs).2) = _
  rw [h]
  rfl

theorem perform_during_error {error : SystemError} (h : call fs = (.error error, mid)) :
    perform (during operation p call) fs = (.error (.io operation p error), mid) := by
  change ((call fs).1.mapError (Fault.io operation p), (call fs).2) = _
  rw [h]
  rfl

end

/-! ## Trees -/

theorem read?_store (fs : MemoryFs) (p q : Path) (content : Bytes) :
    (fs.store p content).read? q = if p.Same q then some content else fs.read? q :=
  PathMap.get?_insert fs.files p q content

theorem read?_congr (h : p.Same q) : fs.read? p = fs.read? q := by
  unfold read? PathMap.get?
  induction fs.files.entries with
  | nil => rfl
  | cons head rest ih =>
    unfold PathMap.find?
    have hiff : head.1.Same p ↔ head.1.Same q := ⟨(·.trans h), (·.trans h.symm)⟩
    rw [ih, if_congr hiff rfl rfl]

theorem exists?_iff : fs.exists? p = true ↔ ∃ content, fs.read? p = some content :=
  Option.isSome_iff_exists

theorem foldl_addDir {motive : MemoryFs → Prop} (h : motive fs)
    (hadd : ∀ tree dir, motive tree → motive (tree.addDir dir)) (dirs : List Path) :
    motive (dirs.foldl addDir fs) := by
  induction dirs generalizing fs with
  | nil => exact h
  | cons dir dirs ih => exact ih (hadd fs dir h)

theorem addDirs_files (p : Path) : (fs.addDirs p).files = fs.files := by
  refine foldl_addDir (motive := fun tree => tree.files = fs.files) rfl ?_ _
  intro tree dir h
  unfold addDir
  split <;> exact h

theorem read?_addDirs (fs : MemoryFs) (dir p : Path) :
    (fs.addDirs dir).read? p = fs.read? p := by
  rw [read?, addDirs_files]
  rfl

theorem read?_withFile (fs : MemoryFs) (p : Path) (content : Bytes) (q : Path) :
    (fs.withFile p content).read? q = if p.Same q then some content else fs.read? q := by
  unfold withFile
  cases p.parent? with
  | none => exact read?_store fs p q content
  | some dir =>
    refine (read?_store (fs.addDirs dir) p q content).trans ?_
    rw [read?_addDirs]

theorem addDirs_failing (p : Path) : (fs.addDirs p).failing = fs.failing := by
  refine foldl_addDir (motive := fun tree => tree.failing = fs.failing) rfl ?_ _
  intro tree dir h
  unfold addDir
  split <;> exact h

theorem isDir_addDir (h : fs.isDir p ∨ dir.Same p) : (fs.addDir dir).isDir p := by
  unfold addDir
  split
  next hd =>
    rcases h with h | h
    · exact h
    · obtain ⟨d, hm, hs⟩ := List.any_eq_true.mp hd
      exact List.any_eq_true.mpr ⟨d, hm, decide_eq_true ((of_decide_eq_true hs).trans h)⟩
  next =>
    rw [isDir, List.any_append, Bool.or_eq_true]
    rcases h with h | h
    · exact .inl h
    · exact .inr (by simpa using h)

theorem isDir_addDirs (h : fs.isDir p) (dir : Path) : (fs.addDirs dir).isDir p :=
  foldl_addDir (motive := fun tree => tree.isDir p) h (fun _ _ h => isDir_addDir (.inl h)) _

theorem isDir_addDirs_self (h : dir.bytes ≠ []) : (fs.addDirs dir).isDir dir := by
  rw [addDirs, Path.ancestors, List.takeWhile_cons_of_pos (by simpa using h), List.foldl_cons]
  exact foldl_addDir (motive := fun tree => tree.isDir dir) (isDir_addDir (.inr rfl))
    (fun _ _ h => isDir_addDir (.inl h)) _

/-- The directory that must be there for a file to be written: none for a file that lies in no
directory or in the one that needs no name. -/
def directory? (p : Path) : Option Path := p.parent?.filter fun dir => dir.bytes ≠ []

def withParent (fs : MemoryFs) (p : Path) : MemoryFs :=
  match directory? p with
  | none => fs
  | some dir => fs.count.addDirs dir

/-- A file stands where the directory of `p`, or one that this lies in, would have to be made. -/
def Blocked (fs : MemoryFs) (p dir file : Path) : Prop :=
  directory? p = some dir ∧ dir.ancestors.find? fs.exists? = some file

theorem withParent_files (fs : MemoryFs) (p : Path) : (fs.withParent p).files = fs.files := by
  unfold withParent
  split
  · rfl
  · exact addDirs_files _

theorem withParent_failing (fs : MemoryFs) (p : Path) : (fs.withParent p).failing = fs.failing := by
  unfold withParent
  split
  · rfl
  · exact addDirs_failing _

theorem isDir_withParent (h : fs.isDir q) (p : Path) : (fs.withParent p).isDir q := by
  unfold withParent
  split
  · exact h
  · exact @isDir_addDirs fs.count q h _

theorem read?_withParent (fs : MemoryFs) (p q : Path) : (fs.withParent p).read? q = fs.read? q := by
  rw [read?, withParent_files]
  rfl

theorem hasParent_withParent (fs : MemoryFs) (p : Path) : (fs.withParent p).hasParent p := by
  unfold withParent hasParent directory?
  cases p.parent? with
  | none => rfl
  | some dir =>
    by_cases hd : dir.bytes = []
    · have hempty : dir = ⟨[]⟩ := by rw [← hd]
      have houter : (⟨[]⟩ : Path).parent? = none := by
        change (Path.above .relative []).head? = none
        rw [Path.above, List.head?_nil]
      simp [hempty, houter]
    · simp [Option.filter, hd, isDir_addDirs_self hd]

def opened (fs : MemoryFs) (p : Path) : MemoryFs := (fs.withParent p).count.count.store p []

def removed (fs : MemoryFs) (p : Path) : MemoryFs := { fs.count with files := fs.files.erase p }

theorem read?_removed (fs : MemoryFs) (p q : Path) :
    (fs.removed p).read? q = if p.Same q then none else fs.read? q :=
  PathMap.get?_erase fs.files p q

theorem read?_opened (fs : MemoryFs) (p q : Path) :
    (fs.opened p).read? q = if p.Same q then some [] else fs.read? q := by
  rw [opened, read?_store]
  congr 1
  exact read?_withParent fs p q

theorem read?_filled (fs : MemoryFs) (p q : Path) (content : Bytes) :
    ((fs.opened p).store p content).read? q = if p.Same q then some content else fs.read? q := by
  rw [read?_store, read?_opened]
  split <;> rfl

/-! ## Calls -/

/-- What a call may leave of a tree, by the place where it puts a file. -/
inductive Leaves (fs : MemoryFs) : Option Path → MemoryFs → Prop
  | counted {place : Option Path} : Leaves fs place fs.count
  | removed (p : Path) : Leaves fs none (fs.removed p)
  | made {dir : Path} (h : dir.ancestors.find? fs.exists? = none) :
      Leaves fs none (fs.count.addDirs dir)
  | stored {p : Path} (h : fs.hasParent p) (content : Bytes) :
      Leaves fs (some p) (fs.count.store p content)

theorem leaves_unlink (fs : MemoryFs) (p : Path) : Leaves fs none (unlink p fs).2 := by
  unfold unlink
  split
  · exact .removed p
  · exact .counted

theorem leaves_makeDirs (fs : MemoryFs) (dir : Path) : Leaves fs none (makeDirs dir fs).2 := by
  unfold makeDirs
  split
  · exact .counted
  next h => exact .made h

theorem leaves_openRead (fs : MemoryFs) (p : Path) : Leaves fs none (openRead p fs).2 := by
  unfold openRead
  split
  · exact .counted
  · exact .counted

theorem leaves_openWrite (fs : MemoryFs) (p : Path) : Leaves fs (some p) (openWrite p fs).2 := by
  unfold openWrite
  split
  next h => exact .stored h []
  next => exact .counted

theorem leaves_writeFile (fs : MemoryFs) (p : Path) (content : Bytes) :
    Leaves fs (some p) (writeFile p content fs).2 := by
  unfold writeFile
  split
  · exact .counted
  · split
    next h => exact .stored h content
    next => exact .counted

/-- A call that puts no file leaves no file changed. -/
theorem Leaves.read?_eq_some {tree : MemoryFs} (h : Leaves fs none tree) (q : Path)
    (content : Bytes) (hq : tree.read? q = some content) : fs.read? q = some content := by
  cases h with
  | counted => exact hq
  | removed p =>
    rw [read?_removed] at hq
    split at hq
    · cases hq
    · exact hq
  | made _ => exact (read?_addDirs fs.count _ q).symm.trans hq

theorem makeParent_eq (p : Path) :
    (makeParent p : ExceptT Fault (StateM MemoryFs) Unit) =
      match directory? p with
      | none => pure ()
      | some dir => during .createDirectory dir (makeDirs dir) := by
  unfold makeParent directory?
  cases p.parent? with
  | none => rfl
  | some dir =>
    by_cases hd : dir.bytes = []
    · simp [Option.filter, Path.isEmpty, hd]
    · simp only [Option.filter, Path.isEmpty, hd, decide_true, decide_false, ne_eq,
        not_false_eq_true]
      rfl

theorem perform_makeParent (fs : MemoryFs) (p : Path) :
    (∃ dir file, fs.Blocked p dir file ∧
      perform (makeParent p) fs =
        (.error (.io .createDirectory dir (.fileInTheWay file)), fs.count)) ∨
    ((∀ dir file, ¬ fs.Blocked p dir file) ∧
      perform (makeParent p) fs = (.ok (), fs.withParent p)) := by
  unfold withParent Blocked
  rw [makeParent_eq]
  cases directory? p with
  | none => exact .inr ⟨by simp, rfl⟩
  | some dir =>
    cases hf : dir.ancestors.find? fs.exists? with
    | some file =>
      have hcall : makeDirs dir fs = (.error (.fileInTheWay file), fs.count) := by rw [makeDirs, hf]
      exact .inl ⟨dir, file, ⟨rfl, hf⟩, perform_during_error hcall⟩
    | none =>
      have hcall : makeDirs dir fs = (.ok (), fs.count.addDirs dir) := by rw [makeDirs, hf]
      refine .inr ⟨?_, perform_during_ok hcall⟩
      rintro d file ⟨hd, hfile⟩
      cases hd
      rw [hf] at hfile
      cases hfile

theorem openRead_withParent (fs : MemoryFs) (source target : Path) :
    (FileSystem.openRead source : ExceptT SystemError (StateM MemoryFs) Bytes)
        (fs.withParent target) =
      ((match fs.read? source with
        | some content => .ok content
        | none => .error (.noSuchEntry source)), (fs.withParent target).count) := by
  change openRead source (fs.withParent target) = _
  rw [openRead, read?_withParent]
  cases fs.read? source <;> rfl

theorem openWrite_withParent (fs : MemoryFs) (p : Path) :
    (FileSystem.openWrite p : ExceptT SystemError (StateM MemoryFs) MemoryWriter)
      (fs.withParent p).count = (.ok ⟨p, [], fs.rejectsWrites p⟩, fs.opened p) := by
  have hparent : (fs.withParent p).count.hasParent p := hasParent_withParent fs p
  have hfails : (fs.withParent p).count.rejectsWrites p = fs.rejectsWrites p := by
    change (fs.withParent p).failing.any (·.Same p) = _
    rw [withParent_failing]
    rfl
  change openWrite p (fs.withParent p).count = _
  rw [openWrite, if_pos hparent, hfails]
  rfl

/-- A file that was just opened takes everything at once or, if it rejects writes, nothing: where
there is nothing to write, that only shows when the file is closed. -/
theorem perform_fill (fs : MemoryFs) (p : Path) (content : Bytes) (fails : Bool) :
    perform (do
      let (count, writer) ←
        during .copyTo p (FileSystem.pour content (⟨p, [], fails⟩ : MemoryWriter))
      during .finishWriting p (FileSystem.close writer)
      note (.copied count p) : ExceptT Fault (StateM MemoryFs) Unit) fs =
    if fails then
      (.error (.io (if content = [] then .finishWriting else .copyTo) p (.writeRejected p)), fs)
    else (.ok (), fs.store p content) := by
  cases fails with
  | false =>
    have hwrite : MemoryWriter.write ⟨p, [], false⟩ content = .ok ⟨p, content, false⟩ := by
      by_cases hc : content = []
      · rw [hc]
        rfl
      · simp [MemoryWriter.write, hc]
    have hpour : (FileSystem.pour content (⟨p, [], false⟩ : MemoryWriter) :
        ExceptT SystemError (StateM MemoryFs) (Nat × MemoryWriter)) fs =
          (.ok (content.length, ⟨p, content, false⟩), fs) := by
      change ((MemoryWriter.write ⟨p, [], false⟩ content).map _, fs) = _
      rw [hwrite]
      rfl
    rw [perform_bind_ok (perform_during_ok hpour)]
    rfl
  | true =>
    by_cases hc : content = []
    · rw [hc]
      rfl
    · have hpour : (FileSystem.pour content (⟨p, [], true⟩ : MemoryWriter) :
          ExceptT SystemError (StateM MemoryFs) (Nat × MemoryWriter)) fs =
            (.error (.writeRejected p), fs) := by
        change ((MemoryWriter.write ⟨p, [], true⟩ content).map _, fs) = _
        simp [MemoryWriter.write, hc, Except.map]
      rw [perform_bind_error (perform_during_error hpour), if_neg hc]
      rfl

/-- The ways in which copying a file ends, with the trees that are left. -/
inductive Copies (fs : MemoryFs) (source target : Path) : Except Fault Unit → MemoryFs → Prop
  | blocked {dir file : Path} (h : fs.Blocked target dir file) :
      Copies fs source target (.error (.io .createDirectory dir (.fileInTheWay file))) fs.count
  | missing (h : fs.read? source = none) (hn : ∀ dir file, ¬ fs.Blocked target dir file) :
      Copies fs source target (.error (.io .open source (.noSuchEntry source)))
        (fs.withParent target).count
  | rejected {content : Bytes} (h : fs.read? source = some content) (hr : fs.rejectsWrites target)
      (hn : ∀ dir file, ¬ fs.Blocked target dir file) :
      Copies fs source target
        (.error
          (.io (if content = [] then .finishWriting else .copyTo) target (.writeRejected target)))
        (fs.opened target)
  | copied {content : Bytes} (h : fs.read? source = some content)
      (hr : fs.rejectsWrites target = false) (hn : ∀ dir file, ¬ fs.Blocked target dir file) :
      Copies fs source target (.ok ()) ((fs.opened target).store target content)

theorem perform_copyFile (fs : MemoryFs) (source target : Path) :
    Copies fs source target (perform (copyFile source target) fs).1
      (perform (copyFile source target) fs).2 := by
  unfold copyFile
  rcases perform_makeParent fs target with ⟨dir, file, hblocked, h⟩ | ⟨hn, h⟩
  · rw [perform_bind_error h]
    exact .blocked hblocked
  · rw [perform_bind_ok h]
    have hread := openRead_withParent fs source target
    cases hsource : fs.read? source with
    | none =>
      rw [hsource] at hread
      rw [perform_bind_error (perform_during_error hread)]
      exact .missing hsource hn
    | some content =>
      rw [hsource] at hread
      rw [perform_bind_ok (perform_during_ok hread),
        perform_bind_ok (perform_during_ok (openWrite_withParent fs target)), perform_fill]
      cases hr : fs.rejectsWrites target with
      | true => exact .rejected hsource hr hn
      | false => exact .copied hsource hr hn

inductive Executes (fs : MemoryFs) : Command → Except Fault Unit → MemoryFs → Prop
  | deleted {p : Path} (h : fs.exists? p) : Executes fs (.delete p) (.ok ()) (fs.removed p)
  | absent {p : Path} (h : fs.exists? p = false) :
      Executes fs (.delete p) (.error (.io .delete p (.noSuchEntry p))) fs.count
  | moveRefused {source target : Path} (h : source.normalize = target.normalize) :
      Executes fs (.move source target) (.error (.sameSourceAndTarget .move source)) fs
  | copyRefused {source target : Path} (h : source.normalize = target.normalize) :
      Executes fs (.copy source target) (.error (.sameSourceAndTarget .copy source)) fs
  | moveFailed {source target : Path} {fault : Fault} {tree : MemoryFs}
      (hd : source.normalize ≠ target.normalize) (h : Copies fs source target (.error fault) tree) :
      Executes fs (.move source target) (.error fault) tree
  | copyFailed {source target : Path} {fault : Fault} {tree : MemoryFs}
      (hd : source.normalize ≠ target.normalize) (h : Copies fs source target (.error fault) tree) :
      Executes fs (.copy source target) (.error fault) tree
  | moved {source target : Path} {tree : MemoryFs} (hd : source.normalize ≠ target.normalize)
      (h : Copies fs source target (.ok ()) tree) :
      Executes fs (.move source target) (.ok ()) (tree.removed source)
  | copied {source target : Path} {tree : MemoryFs} (hd : source.normalize ≠ target.normalize)
      (h : Copies fs source target (.ok ()) tree) : Executes fs (.copy source target) (.ok ()) tree
  | createRejected {p : Path} (hr : fs.rejectsWrites p) :
      Executes fs (.create p) (.error (.io .create p (.writeRejected p))) fs.count
  | createOutside {p : Path} (hr : fs.rejectsWrites p = false) (h : fs.hasParent p = false) :
      Executes fs (.create p) (.error (.io .create p (.noSuchEntry p))) fs.count
  | created {p : Path} (hr : fs.rejectsWrites p = false) (h : fs.hasParent p) :
      Executes fs (.create p) (.ok ()) (fs.count.store p [])

theorem Copies.exists?_source {tree : MemoryFs} (h : Copies fs source target (.ok ()) tree)
    (hd : source.normalize ≠ target.normalize) : tree.exists? source := by
  cases h with
  | copied hs _ _ =>
    have hne : ¬ target.Same source := fun hsame => hd hsame.symm.normalize_eq
    change (read? _ source).isSome
    rw [read?_filled, if_neg hne, hs]
    rfl

theorem perform_requireDistinct (fs : MemoryFs) (kind : Command.Kind) (source target : Path) :
    perform (requireDistinct kind source target) fs =
      if source.normalize = target.normalize then (.error (.sameSourceAndTarget kind source), fs)
      else (.ok (), fs) := by
  unfold requireDistinct
  split <;> rfl

theorem perform_move {tree : MemoryFs} (hd : source.normalize ≠ target.normalize)
    (h : perform (copyFile source target) fs = (.ok (), tree)) :
    perform (execute (.move source target)) fs = (.ok (), tree.removed source) := by
  have hcopy := perform_copyFile fs source target
  have hguard := perform_requireDistinct fs .move source target
  rw [if_neg hd] at hguard
  rw [h] at hcopy
  unfold execute
  rw [perform_bind_ok hguard, perform_bind_ok (perform_note _), perform_bind_ok h]
  have hcall : (FileSystem.unlink source : ExceptT SystemError (StateM MemoryFs) Unit) tree =
      (.ok (), tree.removed source) := by
    change unlink source tree = _
    rw [unlink, if_pos (hcopy.exists?_source hd)]
    rfl
  exact perform_during_ok hcall

theorem perform_execute (fs : MemoryFs) (c : Command) :
    Executes fs c (perform (execute c) fs).1 (perform (execute c) fs).2 := by
  cases c with
  | delete p =>
    change Executes fs _ ((unlink p fs).1.mapError (.io .delete p)) (unlink p fs).2
    unfold unlink
    cases h : fs.exists? p with
    | true => exact .deleted h
    | false => exact .absent h
  | move source target =>
    have hcopy := perform_copyFile fs source target
    have hguard := perform_requireDistinct fs .move source target
    by_cases hd : source.normalize = target.normalize
    · rw [if_pos hd] at hguard
      unfold execute
      rw [perform_bind_error hguard]
      exact .moveRefused hd
    · rw [if_neg hd] at hguard
      cases hresult : perform (copyFile source target) fs with
      | mk result tree =>
        rw [hresult] at hcopy
        cases result with
        | error fault =>
          unfold execute
          rw [perform_bind_ok hguard, perform_bind_ok (perform_note _), perform_bind_error hresult]
          exact .moveFailed hd hcopy
        | ok _ =>
          rw [perform_move hd hresult]
          exact .moved hd hcopy
  | copy source target =>
    have hcopy := perform_copyFile fs source target
    have hguard := perform_requireDistinct fs .copy source target
    unfold execute
    by_cases hd : source.normalize = target.normalize
    · rw [if_pos hd] at hguard
      rw [perform_bind_error hguard]
      exact .copyRefused hd
    · rw [if_neg hd] at hguard
      rw [perform_bind_ok hguard, perform_bind_ok (perform_note _)]
      cases hresult : perform (copyFile source target) fs with
      | mk result tree =>
        rw [hresult] at hcopy
        cases result with
        | error fault => exact .copyFailed hd hcopy
        | ok _ => exact .copied hd hcopy
  | create p =>
    change Executes fs _ ((writeFile p [] fs).1.mapError (.io .create p)) (writeFile p [] fs).2
    unfold writeFile
    cases hr : fs.rejectsWrites p with
    | true => exact .createRejected hr
    | false =>
      cases h : fs.hasParent p with
      | true => exact .created hr h
      | false => exact .createOutside hr h

end Relayout.MemoryFs
