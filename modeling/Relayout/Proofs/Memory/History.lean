import Relayout.Memory.Session
import Relayout.Proofs.Memory.Directories
import Relayout.Proofs.Memory.Failure

/-!
# Histories of a tree in memory

A tree that began empty has seen the steps of a session and, between them, what is added to it
directly. A writer may have been opened at any time before it stores its file, and the directories
that were there then are still there. So the directories of a tree are closed throughout.
-/

namespace Relayout

namespace MemoryFs

open Execution

variable {fs tree : MemoryFs} {cs : List Command}

theorem Runs.grows (h : Runs fs cs tree) (hfs : fs.Closed) : Grows fs tree := by
  induction h with
  | done _ => exact hfs.grows_self
  | step hc _ ih =>
    have hstep := (executes_of_perform hc).grows hfs
    exact hstep.trans (ih hstep.closed)

theorem Closed.grows_execute (h : fs.Closed) (c : Command) :
    Grows fs (perform (execute c) fs).2 :=
  (perform_execute fs c).grows h

theorem Closed.grows_executeAll (h : fs.Closed) (cs : List Command) :
    Grows fs (perform (executeAll cs) fs).2 := by
  cases hrun : perform (executeAll cs) fs with
  | mk result tree =>
    cases result with
    | ok _ => exact (perform_executeAll_eq_ok_iff.mp hrun).1.grows h
    | error _ =>
      obtain ⟨before, c, after, mid, -, hbefore, hc⟩ := perform_executeAll_eq_error_iff.mp hrun
      have hmid := hbefore.grows h
      exact hmid.trans ((executes_of_perform hc).grows hmid.closed)

end MemoryFs

namespace Session

open MemoryFs

variable {s : Session} {tree : MemoryFs} {slot : String}

/-- What happens to a tree and what is open on it. Commands that run side by side are the calls that
each of them makes, in any order. -/
inductive Event
  | step (step : Step)
  | withFile (path : Path) (content : Bytes)
  | withDir (path : Path)
  | failWritesTo (path : Path)

def after (s : Session) : Event → Session
  | .step step => (s.step step).2
  | .withFile p content => { s with fs := s.fs.withFile p content }
  | .withDir p => { s with fs := s.fs.withDir p }
  | .failWritesTo p => { s with fs := s.fs.failWritesTo p }

theorem exists_mem_of_slot? {α : Type} {slots : List (String × α)} {a : α}
    (h : slot? slot slots = some a) : ∃ e ∈ slots, e.2 = a := by
  obtain ⟨e, he, rfl⟩ := Option.map_eq_some_iff.mp h
  exact ⟨e, List.mem_of_find?_eq_some he, rfl⟩

theorem eq_or_mem_of_mem_set {α : Type} {slots : List (String × α)} {a : α} {e : String × α}
    (he : e ∈ set slot a slots) : e = (slot, a) ∨ e ∈ slots :=
  (List.mem_cons.mp he).imp_right List.mem_of_mem_filter

theorem slot?_set {α : Type} (slot : String) (a : α) (slots : List (String × α)) :
    slot? slot (set slot a slots) = some a := by
  simp [slot?, set]

theorem slot?_clear {α : Type} {name : String} {slots : List (String × α)} :
    slot? slot (clear name slots) = if name = slot then none else slot? slot slots := by
  unfold slot? clear
  rw [List.find?_filter]
  split
  next h =>
    rw [h]
    simp
  next h =>
    congr 2
    funext e
    by_cases he : e.1 = slot
    · simp [he, Ne.symm h]
    · simp [he]

theorem slot?_set_of_ne {α : Type} {name : String} (h : name ≠ slot) (a : α)
    (slots : List (String × α)) : slot? slot (set name a slots) = slot? slot slots := by
  have hcons : slot? slot (set name a slots) = slot? slot (clear name slots) := by
    simp [slot?, set, h]
  rw [hcons, slot?_clear, if_neg h]

theorem of_slot?_set {α : Type} {name : String} {a b : α} {slots : List (String × α)}
    (h : slot? slot (set name a slots) = some b) :
    (name = slot ∧ a = b) ∨ (name ≠ slot ∧ slot? slot slots = some b) := by
  by_cases hname : name = slot
  · rw [hname, slot?_set] at h
    exact .inl ⟨hname, Option.some.inj h⟩
  · rw [slot?_set_of_ne hname] at h
    exact .inr ⟨hname, h⟩

/-- A tree with closed directories, and on it writers whose files have a place to go. -/
structure Sound (s : Session) : Prop where
  closed : s.fs.Closed
  housed : ∀ e ∈ s.writers, s.fs.Housed e.2.path

namespace Sound

theorem grown (h : s.Sound) (hg : Grows s.fs tree) : Sound { s with fs := tree } :=
  ⟨hg.closed, fun e he => (h.housed e he).mono hg.isDir⟩

theorem hold (h : s.Sound) {w : MemoryWriter} (hw : s.fs.Housed w.path) (slot : String) :
    Sound { s with writers := set slot w s.writers } := by
  refine ⟨h.closed, ?_⟩
  intro e he
  rcases eq_or_mem_of_mem_set he with rfl | he
  · exact hw
  · exact h.housed e he

theorem housed_of_slot? (h : s.Sound) {w : MemoryWriter} (hw : slot? slot s.writers = some w) :
    s.fs.Housed w.path := by
  obtain ⟨e, he, rfl⟩ := exists_mem_of_slot? hw
  exact h.housed e he

theorem call {α : Type} (h : s.Sound) {c : Call α} {next : Session → α → Result × Session}
    (hg : Grows s.fs (c s.fs).2)
    (hnext : ∀ a, (c s.fs).1 = .ok a → (next { s with fs := (c s.fs).2 } a).2.Sound) :
    (s.call c next).2.Sound := by
  unfold Session.call
  cases hc : c s.fs with
  | mk result tree =>
    rw [hc] at hg hnext
    cases result with
    | ok a => exact hnext a rfl
    | error _ => exact h.grown hg

theorem withWriter (h : s.Sound) {next : MemoryWriter → Result × Session}
    (hnext : ∀ w, s.fs.Housed w.path → (next w).2.Sound) : (s.withWriter slot next).2.Sound := by
  unfold Session.withWriter
  split
  · exact h
  next w hw => exact hnext w (h.housed_of_slot? hw)

theorem openWrite (h : s.Sound) (p : Path) (slot : String) :
    (s.step (.openWrite p slot)).2.Sound := by
  have hg := (leaves_openWrite s.fs p).grows h.closed
  refine h.call hg ?_
  intro w hw
  refine (h.grown hg).hold ?_ slot
  unfold MemoryFs.openWrite at hw
  split at hw
  next hp =>
    cases hw
    exact (h.closed.housed hp).mono hg.isDir
  next => cases hw

theorem write (h : s.Sound) (slot : String) (data : Bytes) :
    (s.step (.write slot data)).2.Sound := by
  refine h.withWriter ?_
  intro w hw
  cases hwrite : w.write data with
  | error _ => exact h
  | ok w' =>
    refine h.hold ?_ slot
    unfold MemoryWriter.write at hwrite
    split at hwrite
    · cases hwrite
      exact hw
    · split at hwrite
      · cases hwrite
      · cases hwrite
        exact hw

theorem shutdown (h : s.Sound) (slot : String) : (s.step (.shutdown slot)).2.Sound := by
  refine h.withWriter ?_
  intro w hw
  -- The file goes where the directories were looked for when the writer was opened, not now.
  have hstore := h.closed.grows_store hw w.buffer
  refine h.call ?_ ?_
  · unfold MemoryWriter.shutdown
    split
    · exact h.closed.grows_self
    · exact hstore
  · intro w' hw'
    unfold MemoryWriter.shutdown at hw' ⊢
    split at hw'
    · cases hw'
    next hfails =>
      cases hw'
      rw [if_neg hfails]
      exact (h.grown hstore).hold (w := { w with buffer := [] }) (hw.mono hstore.isDir) slot

theorem step (h : s.Sound) (st : Step) : (s.step st).2.Sound := by
  cases st with
  | execute c => exact h.grown (h.closed.grows_execute c)
  | batch cs => exact h.grown (h.closed.grows_executeAll cs)
  | unlink p =>
    have hg := (leaves_unlink s.fs p).grows h.closed
    exact h.call hg fun _ _ => h.grown hg
  | makeDirs p =>
    have hg := (leaves_makeDirs s.fs p).grows h.closed
    exact h.call hg fun _ _ => h.grown hg
  | writeFile p data =>
    have hg := (leaves_writeFile s.fs p data).grows h.closed
    exact h.call hg fun _ _ => h.grown hg
  | openRead p slot =>
    have hg := (leaves_openRead s.fs p).grows h.closed
    exact h.call hg fun _ _ => ⟨(h.grown hg).closed, (h.grown hg).housed⟩
  | readAll slot =>
    simp only [Session.step]
    split
    · exact h
    · exact ⟨h.closed, h.housed⟩
  | openWrite p slot => exact h.openWrite p slot
  | write slot data => exact h.write slot data
  | flush slot => exact h.withWriter fun _ _ => h
  | shutdown slot => exact h.shutdown slot
  | drop slot => exact ⟨h.closed, fun e he => h.housed e (List.mem_of_mem_filter he)⟩

theorem after (h : s.Sound) (e : Event) : (s.after e).Sound := by
  cases e with
  | step st => exact h.step st
  | withFile p content => exact h.grown (h.closed.grows_withFile p content)
  | withDir p => exact h.grown (h.closed.grows_addDirs p)
  | failWritesTo p => exact ⟨⟨h.closed.dirs, h.closed.files⟩, h.housed⟩

theorem foldl_after (h : s.Sound) (events : List Event) : (events.foldl Session.after s).Sound := by
  induction events generalizing s with
  | nil => exact h
  | cons e events ih => exact ih (h.after e)

end Sound

theorem sound_start (h : tree.Closed) : (start tree).Sound := ⟨h, nofun⟩

/-- Whatever has happened to a tree that began empty, all the directories are there that its
directories and its files lie in. -/
theorem closed_foldl_after (events : List Event) :
    (events.foldl after (start .empty)).fs.Closed :=
  ((sound_start closed_empty).foldl_after events).closed

end Session

end Relayout
