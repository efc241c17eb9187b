import Relayout.Proofs.Memory.History
import Relayout.Proofs.Memory.Paths

/-!
# Files apart from directories

In a tidy tree no place is a file and a directory, and no file lies in another. Directories are made
only where no file stands. A file, though, is put at its place with no look at what is there, only
at the directory it lies in. So whether a step leaves its tree tidy is decided at one place.
-/

namespace Relayout

/-- Where a command puts a file. -/
def Command.place? : Command → Option Path
  | .delete _ => none
  | .move _ p | .copy _ p | .create p => some p

namespace MemoryFs

variable {fs mid tree : MemoryFs} {p q dir source target : Path} {content : Bytes} {c : Command}
  {place : Option Path} {result : Except Fault Unit}

structure Tidy (fs : MemoryFs) : Prop where
  no_dir : ∀ p, fs.exists? p → ¬ fs.isDir p
  apart : ∀ p q, fs.exists? p → fs.exists? q → ¬ p.LiesIn q

theorem tidy_iff_paths :
    fs.Tidy ↔ (∀ p ∈ fs.paths, ¬ fs.isDir p) ∧ ∀ p ∈ fs.paths, ∀ q ∈ fs.paths, ¬ p.LiesIn q := by
  constructor
  · intro h
    exact ⟨fun p hp => h.no_dir p (exists?_of_mem_paths hp),
      fun p hp q hq => h.apart p q (exists?_of_mem_paths hp) (exists?_of_mem_paths hq)⟩
  · rintro ⟨hdirs, hapart⟩
    refine ⟨?_, ?_⟩
    · intro p hp
      obtain ⟨p', hp', hsame⟩ := exists_mem_paths_of_exists? hp
      rw [← isDir_congr hsame]
      exact hdirs p' hp'
    · intro p q hp hq
      obtain ⟨p', hp', hsame⟩ := exists_mem_paths_of_exists? hp
      obtain ⟨q', hq', hsame'⟩ := exists_mem_paths_of_exists? hq
      rw [← Path.LiesIn.congr hsame hsame']
      exact hapart p' hp' q' hq'

instance (fs : MemoryFs) : Decidable fs.Tidy := decidable_of_iff' _ tidy_iff_paths

/-- What a change makes of a tree if it puts a file at one place at most: the directories it makes
are elsewhere, and no file was where they are. -/
structure Places (fs tree : MemoryFs) (place : Option Path) : Prop where
  files : ∀ q, tree.exists? q → fs.exists? q ∨ ∃ p ∈ place, p.Same q
  dirs : ∀ d, fs.isDir d → tree.isDir d
  made : ∀ d, tree.isDir d → fs.isDir d ∨ ¬ fs.exists? d ∧ ∀ p ∈ place, ¬ p.Same d

namespace Places

/-- A change decides at its place whether the tree stays tidy: no directory was there, and none of
the files that are left lies in it or it in them. -/
theorem tidy_iff (h : Places fs tree place) (ht : fs.Tidy) :
    tree.Tidy ↔ ∀ p ∈ place, tree.exists? p →
      ¬ fs.isDir p ∧ ∀ q, tree.exists? q → ¬ q.LiesIn p ∧ ¬ p.LiesIn q := by
  constructor
  · intro htree p _ hp
    exact ⟨fun hd => htree.no_dir p hp (h.dirs p hd),
      fun q hq => ⟨htree.apart q p hq hp, htree.apart p q hp hq⟩⟩
  · intro hplace
    refine ⟨?_, ?_⟩
    -- The file is an old one or the one at the place, and the directory is an old one or was made.
    · intro q hq hd
      rcases h.made q hd with hd | ⟨hnone, hother⟩
      · rcases h.files q hq with hfs | ⟨p, hp, hsame⟩
        · exact ht.no_dir q hfs hd
        · rw [← exists?_congr hsame] at hq
          rw [← isDir_congr hsame] at hd
          exact (hplace p hp hq).1 hd
      · rcases h.files q hq with hfs | ⟨p, hp, hsame⟩
        · exact hnone hfs
        · exact hother p hp hsame
    · intro q r hq hr hlies
      rcases h.files q hq with hq' | ⟨p, hp, hsame⟩
      · rcases h.files r hr with hr' | ⟨p, hp, hsame⟩
        · exact ht.apart q r hq' hr' hlies
        · rw [← exists?_congr hsame] at hr
          rw [← Path.LiesIn.congr (.refl q) hsame] at hlies
          exact ((hplace p hp hr).2 q hq).1 hlies
      · rw [← exists?_congr hsame] at hq
        rw [← Path.LiesIn.congr hsame (.refl r)] at hlies
        exact ((hplace p hp hq).2 r hr).2 hlies

theorem self (fs : MemoryFs) (place : Option Path) : Places fs fs place :=
  ⟨fun _ hq => .inl hq, fun _ hd => hd, fun _ hd => .inl hd⟩

theorem count (h : Places fs mid place) : Places fs mid.count place := ⟨h.files, h.dirs, h.made⟩

theorem removed (h : Places fs mid place) (p : Path) : Places fs (mid.removed p) place :=
  ⟨fun q hq => h.files q (exists?_removed.mp hq).2, h.dirs, h.made⟩

theorem store (h : Places fs mid (some p)) (content : Bytes) :
    Places fs (mid.store p content) (some p) := by
  refine ⟨?_, h.dirs, h.made⟩
  intro q hq
  rcases exists?_store.mp hq with hsame | hq
  · exact .inr ⟨p, rfl, hsame⟩
  · exact h.files q hq

end Places

theorem not_exists?_of_find?_eq_none (h : dir.ancestors.find? fs.exists? = none)
    (hp : dir.Same p ∨ dir.LiesIn p) : ¬ fs.exists? p := by
  have hnone := List.find?_eq_none.mp h
  rcases hp with hsame | ⟨a, ha, hsame⟩
  · rw [← exists?_congr hsame]
    exact hnone dir (.head _)
  · rw [← exists?_congr hsame]
    exact hnone a (.tail dir ha)

theorem places_addDirs (h : dir.ancestors.find? fs.exists? = none)
    (hplace : ∀ p ∈ place, p.LiesIn dir) : Places fs (fs.count.addDirs dir) place := by
  refine ⟨?_, fun d hd => @isDir_addDirs fs.count d hd dir, ?_⟩
  · intro q hq
    rw [exists?_addDirs] at hq
    exact .inl hq
  · intro d hd
    rcases isDir_addDirs_iff.mp hd with hd | ⟨hd, -⟩
    · exact .inl hd
    · refine .inr ⟨not_exists?_of_find?_eq_none h hd, ?_⟩
      intro p hp hsame
      have hlies : p.LiesIn d := by
        rcases hd with hd | hd
        · exact (Path.LiesIn.congr (.refl p) hd).mp (hplace p hp)
        · exact (hplace p hp).trans hd
      exact hlies.not_same hsame.symm

theorem places_withParent (hn : ∀ dir file, ¬ fs.Blocked p dir file) :
    Places fs (fs.withParent p) (some p) := by
  unfold withParent
  cases hdir : directory? p with
  | none => exact .self fs _
  | some dir =>
    have hfree : dir.ancestors.find? fs.exists? = none :=
      Option.eq_none_iff_forall_ne_some.mpr fun file hfile => hn dir file ⟨hdir, hfile⟩
    refine places_addDirs hfree ?_
    rintro _ ⟨⟩
    exact Path.liesIn_parent? (Option.filter_eq_some_iff.mp hdir).1

theorem Copies.places (h : Copies fs source target result tree) :
    Places fs tree (some target) := by
  cases h with
  | blocked _ => exact (Places.self fs _).count
  | missing _ hn => exact (places_withParent hn).count
  | rejected _ _ hn => exact (places_withParent hn).count.count.store []
  | copied _ _ hn => exact ((places_withParent hn).count.count.store []).store _

theorem Executes.places (h : Executes fs c result tree) : Places fs tree c.place? := by
  cases h with
  | deleted _ => exact (Places.self fs _).removed _
  | absent _ => exact (Places.self fs _).count
  | moveRefused _ => exact .self fs _
  | copyRefused _ => exact .self fs _
  | moveFailed _ hcopy => exact hcopy.places
  | copyFailed _ hcopy => exact hcopy.places
  | moved _ hcopy => exact hcopy.places.removed _
  | copied _ hcopy => exact hcopy.places
  | createRejected _ => exact (Places.self fs _).count
  | createOutside _ _ => exact (Places.self fs _).count
  | created _ _ => exact (Places.self fs _).count.store []

theorem Leaves.places (h : Leaves fs place tree) : Places fs tree place := by
  cases h with
  | counted => exact (Places.self fs place).count
  | removed p => exact (Places.self fs none).removed p
  | made hfree => exact places_addDirs hfree fun _ hp => nomatch hp
  | stored _ content => exact (Places.self fs _).count.store content

theorem places_shutdown (fs : MemoryFs) (w : MemoryWriter) :
    Places fs (w.shutdown fs).2 (some w.path) := by
  unfold MemoryWriter.shutdown
  split
  · exact .self fs _
  · exact (Places.self fs _).store w.buffer

end MemoryFs

namespace Session

open MemoryFs

variable {s : Session} {st : Step} {slot : String} {place : Option Path}

/-- Where a step puts a file, if it is one that does. -/
def place? (s : Session) : Step → Option Path
  | .execute c => c.place?
  | .writeFile p _ | .openWrite p _ => some p
  | .shutdown slot => (slot? slot s.writers).map (·.path)
  | .batch _ | .unlink _ | .makeDirs _ | .openRead _ _ | .readAll _ | .write _ _ | .flush _
  | .drop _ => none

theorem places_call {α : Type} {c : Call α} {next : Session → α → Result × Session}
    (h : Places s.fs (c s.fs).2 place) (hnext : ∀ s a, (next s a).2.fs = s.fs) :
    Places s.fs (s.call c next).2.fs place := by
  unfold Session.call
  cases hc : c s.fs with
  | mk result tree =>
    rw [hc] at h
    cases result with
    | ok a =>
      rw [hnext]
      exact h
    | error _ => exact h

theorem places_withWriter {next : MemoryWriter → Result × Session}
    (h : ∀ w, slot? slot s.writers = some w → Places s.fs (next w).2.fs place) :
    Places s.fs (s.withWriter slot next).2.fs place := by
  unfold Session.withWriter
  split
  · exact .self s.fs place
  next w hw => exact h w hw

theorem places_step (s : Session) (hst : ∀ cs, st ≠ .batch cs) :
    Places s.fs (s.step st).2.fs (s.place? st) := by
  cases st with
  | execute c => exact (perform_execute s.fs c).places
  | batch cs => exact absurd rfl (hst cs)
  | unlink p => exact places_call (leaves_unlink s.fs p).places fun _ _ => rfl
  | makeDirs p => exact places_call (leaves_makeDirs s.fs p).places fun _ _ => rfl
  | writeFile p data => exact places_call (leaves_writeFile s.fs p data).places fun _ _ => rfl
  | openRead p slot => exact places_call (leaves_openRead s.fs p).places fun _ _ => rfl
  | readAll slot =>
    simp only [Session.step]
    split
    · exact .self s.fs none
    · exact .self s.fs none
  | openWrite p slot => exact places_call (leaves_openWrite s.fs p).places fun _ _ => rfl
  | write slot data =>
    refine places_withWriter ?_
    intro w _
    split
    · exact .self s.fs none
    · exact .self s.fs none
  | flush slot => exact places_withWriter fun _ _ => .self s.fs none
  | shutdown slot =>
    refine places_withWriter ?_
    intro w hw
    rw [place?, hw]
    exact places_call (places_shutdown s.fs w) fun _ _ => rfl
  | drop slot => exact .self s.fs none

/-- A step leaves a tidy tree tidy exactly if the file that it puts somewhere, if any, comes where
no directory was, and among files that it does not lie in and that do not lie in it. -/
theorem tidy_step_iff (h : s.fs.Tidy) (hst : ∀ cs, st ≠ .batch cs) :
    (s.step st).2.fs.Tidy ↔ ∀ p ∈ s.place? st, (s.step st).2.fs.exists? p →
      ¬ s.fs.isDir p ∧ ∀ q, (s.step st).2.fs.exists? q → ¬ q.LiesIn p ∧ ¬ p.LiesIn q :=
  (s.places_step hst).tidy_iff h

/-- A file beside an empty directory. -/
def shelf : Session := start ((empty.withFile (.ofString "/r/a") [1]).withDir (.ofString "/r/d"))

def filing : Step := .execute (.copy (.ofString "/r/a") (.ofString "/r/e/a"))

theorem shelf_stays_tidy :
    shelf.fs.Tidy ∧ (shelf.step filing).2.fs.Tidy ∧ ¬ shelf.fs.isDir (.ofString "/r/e/a") ∧
      ∀ q, (shelf.step filing).2.fs.exists? q →
        ¬ q.LiesIn (.ofString "/r/e/a") ∧ ¬ Path.LiesIn (.ofString "/r/e/a") q := by
  have hbefore : shelf.fs.Tidy := by decide +kernel
  have hafter : (shelf.step filing).2.fs.Tidy := by decide +kernel
  have hexists : (shelf.step filing).2.fs.exists? (.ofString "/r/e/a") := by decide +kernel
  have hsingle : ∀ cs, filing ≠ .batch cs := fun _ h => Step.noConfusion h
  exact ⟨hbefore, hafter, (tidy_step_iff hbefore hsingle).mp hafter _ rfl hexists⟩

/-- Neither a call nor a command looks for a directory where it puts a file. -/
theorem shelf_file_over_directory :
    shelf.fs.Tidy ∧ ¬ (shelf.step (.writeFile (.ofString "/r/d") [2])).2.fs.Tidy ∧
      ¬ (shelf.step (.execute (.copy (.ofString "/r/a") (.ofString "/r/d")))).2.fs.Tidy := by
  decide +kernel

/-- Where directories are closed, files lie in each other only at the root and at the empty path. If
no file is there, a step spoils a tidy tree only by putting a file where a directory is. -/
theorem Sound.tidy_step_iff_not_isDir (hs : s.Sound) (h : s.fs.Tidy) (hst : ∀ cs, st ≠ .batch cs)
    (htop : ∀ p, (s.step st).2.fs.exists? p → ¬ p.isEmpty ∧ ¬ p.Same ⟨[Path.slash]⟩) :
    (s.step st).2.fs.Tidy ↔
      ∀ p ∈ s.place? st, (s.step st).2.fs.exists? p → ¬ s.fs.isDir p := by
  have hplaces := s.places_step hst
  have hclosed := (hs.step st).closed
  rw [hplaces.tidy_iff h]
  constructor
  · intro hplace p hp hfile
    exact (hplace p hp hfile).1
  · intro hplace p hp hfile
    refine ⟨hplace p hp hfile, fun q hq => ⟨?_, ?_⟩⟩
    · intro hlies
      obtain ⟨hempty, hroot⟩ := htop p hfile
      have hdir := ((hclosed.files q hq p hlies).resolve_left hempty).resolve_left hroot
      rcases hplaces.made p hdir with hdir | ⟨-, hother⟩
      · exact hplace p hp hfile hdir
      · exact hother p hp (.refl p)
    · intro hlies
      obtain ⟨hempty, hroot⟩ := htop q hq
      have hdir := ((hclosed.files p hfile q hlies).resolve_left hempty).resolve_left hroot
      have hbefore : s.fs.exists? q := by
        rcases hplaces.files q hq with hbefore | ⟨p', hp', hsame⟩
        · exact hbefore
        · obtain rfl := Option.mem_unique hp hp'
          exact absurd hsame.symm hlies.not_same
      rcases hplaces.made q hdir with hdir | ⟨hnone, -⟩
      · exact h.no_dir q hbefore hdir
      · exact hnone hbefore

end Session

end Relayout
