import Mathlib.Data.List.DropRight
import Mathlib.Data.List.Induction
import Relayout.Proofs.Memory.History

/-!
# What a writer stores

A writer is given bytes by the calls made on it and stores them when it is shut down. It may be used
on after that, but it starts anew: each shutdown puts in the place of the file what was written
since the one before. So the file holds all that was ever written exactly if nothing was written
before an earlier shutdown.
-/

namespace Relayout.Session

open MemoryFs

variable {s t : Session} {slot : String} {p : Path} {w : MemoryWriter} {e : Event}
  {events : List Event}

namespace Event

/-- What an event gives to the writer in the slot. -/
def written (slot : String) : Event → Bytes
  | .step (.write name data) => if name = slot then data else []
  | _ => []

def saves (slot : String) : Event → Bool
  | .step (.shutdown name) => name = slot
  | _ => false

/-- The writer in the slot is neither dropped nor replaced by one that is opened. -/
def Keeps (slot : String) : Event → Prop
  | .step (.openWrite _ name) | .step (.drop name) => name ≠ slot
  | _ => True

instance (slot : String) (e : Event) : Decidable (e.Keeps slot) := by
  unfold Keeps
  split <;> infer_instance

end Event

/-- All that the writer in the slot was given. -/
def written (slot : String) (events : List Event) : Bytes := events.flatMap (Event.written slot)

/-- What the writer in the slot was given after it was last shut down. -/
def unsaved (slot : String) (events : List Event) : Bytes :=
  written slot (events.rtakeWhile fun e => ¬ e.saves slot)

/-- What the writer in the slot was given before it was last shut down. -/
def saved (slot : String) (events : List Event) : Bytes :=
  written slot (events.rdropWhile fun e => ¬ e.saves slot)

theorem written_append (slot : String) (events later : List Event) :
    written slot (events ++ later) = written slot events ++ written slot later :=
  List.flatMap_append

theorem saved_append_unsaved (slot : String) (events : List Event) :
    saved slot events ++ unsaved slot events = written slot events := by
  rw [saved, unsaved, ← written_append, List.rdropWhile_append_rtakeWhile]

theorem unsaved_concat (slot : String) (events : List Event) (e : Event) :
    unsaved slot (events ++ [e]) =
      if e.saves slot then [] else unsaved slot events ++ e.written slot := by
  cases h : e.saves slot with
  | true =>
    rw [unsaved, List.rtakeWhile_concat_neg _ _ _ (by simp [h])]
    rfl
  | false =>
    rw [unsaved, List.rtakeWhile_concat_pos _ _ _ (by simp [h]), written_append]
    simp [unsaved, written]

/-! ## The writer in its slot -/

theorem slot?_call {α : Type} {c : Call α} {next : Session → α → Result × Session}
    (hnext : ∀ t a, slot? slot (next t a).2.writers = slot? slot t.writers) :
    slot? slot (s.call c next).2.writers = slot? slot s.writers := by
  unfold call
  cases c s.fs with
  | mk result tree =>
    cases result with
    | ok a => exact hnext _ a
    | error _ => rfl

theorem slot?_withWriter {name : String} {next : MemoryWriter → Result × Session}
    (hnext : ∀ v, slot? slot (next v).2.writers = slot? slot s.writers) :
    slot? slot (s.withWriter name next).2.writers = slot? slot s.writers := by
  unfold withWriter
  split
  · rfl
  next v _ => exact hnext v

theorem write_eq_ok (hw : w.fails = false) (data : Bytes) :
    w.write data = .ok { w with buffer := w.buffer ++ data } := by
  unfold MemoryWriter.write
  by_cases hdata : data = []
  · rw [if_pos hdata, hdata, List.append_nil]
  · simp [hdata, hw]

theorem step_write (h : slot? slot s.writers = some w) (hw : w.fails = false) (data : Bytes) :
    s.step (.write slot data) =
      (.done, { s with
        writers := set slot { w with buffer := w.buffer ++ data } s.writers }) := by
  simp only [step, withWriter, h, write_eq_ok hw]

theorem step_flush (h : slot? slot s.writers = some w) : s.step (.flush slot) = (.done, s) := by
  simp only [step, withWriter, h]

theorem step_shutdown (h : slot? slot s.writers = some w) (hw : w.fails = false) :
    s.step (.shutdown slot) =
      (.done, { s with
        fs := s.fs.store w.path w.buffer
        writers := set slot { w with buffer := [] } s.writers }) := by
  simp [step, withWriter, h, call, MemoryWriter.shutdown, hw]

theorem slot?_step_write {name : String} (hname : name ≠ slot) (data : Bytes) :
    slot? slot (s.step (.write name data)).2.writers = slot? slot s.writers := by
  refine slot?_withWriter fun v => ?_
  cases v.write data with
  | ok v => exact slot?_set_of_ne hname v s.writers
  | error _ => rfl

theorem slot?_step_shutdown {name : String} (hname : name ≠ slot) :
    slot? slot (s.step (.shutdown name)).2.writers = slot? slot s.writers :=
  slot?_withWriter fun _ => slot?_call fun t v => slot?_set_of_ne hname v t.writers

/-- The writer in the slot after an event. -/
def MemoryWriter.following (w : MemoryWriter) (slot : String) (e : Event) : MemoryWriter :=
  { w with buffer := if e.saves slot then [] else w.buffer ++ e.written slot }

theorem following_of_idle (hsaves : e.saves slot = false) (hwritten : e.written slot = [])
    (hsame : slot? slot (s.after e).writers = slot? slot s.writers)
    (h : slot? slot s.writers = some w) :
    slot? slot (s.after e).writers = some (MemoryWriter.following w slot e) := by
  rw [hsame, h, MemoryWriter.following, hsaves, hwritten]
  simp

/-- Whatever happens, the writer takes what it is given and starts anew when it is shut down. -/
theorem slot?_after (h : slot? slot s.writers = some w) (hw : w.fails = false)
    (he : e.Keeps slot) :
    slot? slot (s.after e).writers = some (MemoryWriter.following w slot e) := by
  cases e with
  | withFile _ _ | withDir _ | failWritesTo _ => exact following_of_idle rfl rfl rfl h
  | step st =>
    cases st with
    | execute _ | batch _ => exact following_of_idle rfl rfl rfl h
    | unlink _ | makeDirs _ | writeFile _ _ | openRead _ _ =>
      exact following_of_idle rfl rfl (slot?_call fun _ _ => rfl) h
    | readAll name =>
      refine following_of_idle rfl rfl ?_ h
      simp only [after, step]
      split <;> rfl
    | openWrite _ name =>
      exact following_of_idle rfl rfl (slot?_call fun t v => slot?_set_of_ne he v t.writers) h
    | write name data =>
      by_cases hname : name = slot
      · subst hname
        simp [after, step_write h hw, slot?_set, MemoryWriter.following, Event.saves, Event.written]
      · refine following_of_idle rfl ?_ (slot?_step_write hname data) h
        simp [Event.written, hname]
    | flush _ => exact following_of_idle rfl rfl (slot?_withWriter fun _ => rfl) h
    | shutdown name =>
      by_cases hname : name = slot
      · subst hname
        simp [after, step_shutdown h hw, slot?_set, MemoryWriter.following, Event.saves]
      · refine following_of_idle ?_ rfl (slot?_step_shutdown hname) h
        simp [Event.saves, hname]
    | drop name =>
      refine following_of_idle rfl rfl ?_ h
      exact slot?_clear.trans (if_neg he)

/-- While it is kept, a writer holds what it was given since it was last shut down. -/
theorem slot?_foldl_after (h : slot? slot s.writers = some ⟨p, [], false⟩)
    (hevents : ∀ e ∈ events, e.Keeps slot) :
    slot? slot (events.foldl after s).writers = some ⟨p, unsaved slot events, false⟩ := by
  -- from the right, since the last event settles what is unsaved
  induction events using List.reverseRecOn with
  | nil => exact h
  | append_singleton events e ih =>
    have hbefore := ih fun d hd => hevents d (List.mem_append_left _ hd)
    rw [List.foldl_append, List.foldl_cons, List.foldl_nil,
      slot?_after hbefore rfl (hevents e (by simp)), MemoryWriter.following, unsaved_concat]

theorem slot?_step_openWrite (h : (s.step (.openWrite p slot)).1 = .done) :
    slot? slot (s.step (.openWrite p slot)).2.writers = some ⟨p, [], s.fs.rejectsWrites p⟩ := by
  by_cases hparent : s.fs.hasParent p
  · simp [step, call, openWrite, hparent, slot?_set]
  · simp [step, call, openWrite, hparent] at h

/-- A writer that was opened where writing does not fail takes all that it is given. When it is shut
down, the file holds what was written since it was last shut down, which is all that was written
exactly if nothing was before that. -/
theorem shutdown_stores_unsaved (hopened : (s.step (.openWrite p slot)).1 = .done)
    (hwritable : s.fs.rejectsWrites p = false) (hkept : ∀ e ∈ events, e.Keeps slot)
    (ht : events.foldl after (s.step (.openWrite p slot)).2 = t) :
    (∀ data, (t.step (.write slot data)).1 = .done) ∧
      (t.step (.flush slot)).1 = .done ∧
      (t.step (.shutdown slot)).1 = .done ∧
      (t.step (.shutdown slot)).2.fs.read? p = some (unsaved slot events) ∧
      ((t.step (.shutdown slot)).2.fs.read? p = some (written slot events) ↔
        saved slot events = []) := by
  have hnew := slot?_step_openWrite hopened
  rw [hwritable] at hnew
  have hw : slot? slot t.writers = some ⟨p, unsaved slot events, false⟩ :=
    ht ▸ slot?_foldl_after hnew hkept
  have hread : (t.step (.shutdown slot)).2.fs.read? p = some (unsaved slot events) := by
    rw [step_shutdown hw rfl, read?_store, if_pos (.refl p)]
  refine ⟨?_, ?_, ?_, hread, ?_⟩
  · intro data
    rw [step_write hw rfl]
  · rw [step_flush hw]
  · rw [step_shutdown hw rfl]
  · rw [hread, ← saved_append_unsaved, Option.some_inj]
    simp

def desk : Session := start (empty.withDir (.ofString "/r"))

def letter : Path := .ofString "/r/a"

/-- A letter in two parts, the first stored and read before the second is written. -/
def inParts : List Event :=
  [.step (.write "pen" [1]), .step (.shutdown "pen"), .step (.openRead letter "eye"),
    .step (.write "pen" [2]), .step (.flush "pen"), .step (.write "pen" [3])]

theorem inParts_stores_last :
    (desk.step (.openWrite letter "pen")).1 = .done ∧ desk.fs.rejectsWrites letter = false ∧
      (∀ e ∈ inParts, e.Keeps "pen") ∧
      ((inParts.foldl after (desk.step (.openWrite letter "pen")).2).step
        (.shutdown "pen")).2.fs.read? letter = some [2, 3] := by
  have hopened : (desk.step (.openWrite letter "pen")).1 = .done := by with_unfolding_all rfl
  have hwritable : desk.fs.rejectsWrites letter = false := by decide +kernel
  have hkept : ∀ e ∈ inParts, e.Keeps "pen" := by decide
  have hunsaved : unsaved "pen" inParts = [2, 3] := by decide
  obtain ⟨-, -, -, hread, -⟩ := shutdown_stores_unsaved hopened hwritable hkept rfl
  exact ⟨hopened, hwritable, hkept, hunsaved ▸ hread⟩

/-- A writer that is shut down again leaves an empty file, and one that was given more in between
leaves what it was given then. -/
theorem shutdown_again_forgets :
    let opened := (desk.step (.openWrite letter "pen")).2
    let stored : List Event := [.step (.write "pen" [1]), .step (.shutdown "pen")]
    let resumed := stored ++ [.step (.write "pen" [2])]
    (desk.step (.openWrite letter "pen")).1 = .done ∧ desk.fs.rejectsWrites letter = false ∧
      (stored.foldl after opened).fs.read? letter = some [1] ∧
      written "pen" stored = [1] ∧
      ((stored.foldl after opened).step (.shutdown "pen")).2.fs.read? letter = some [] ∧
      written "pen" resumed = [1, 2] ∧
      ((resumed.foldl after opened).step (.shutdown "pen")).2.fs.read? letter = some [2] := by
  intro opened stored resumed
  refine ⟨?_, ?_⟩
  · with_unfolding_all rfl
  · decide +kernel

end Relayout.Session
