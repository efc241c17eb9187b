import Relayout.Proofs.Memory.Clients

/-!
# What single calls do

A call puts a file, opens, feeds, stores or drops a writer, opens a reader or takes from it, or does
nothing that matters to those. What a writer was given and what was taken from a reader can be told
from the calls made so far.
-/

namespace Relayout

open Session

namespace Moment

/-- From then on the writer in the slot is another one, or none. -/
def replaces (slot : String) : Moment → Bool
  | ⟨.openWrite _ name, .done, _⟩ => name = slot
  | ⟨.drop name, .done, _⟩ => name = slot
  | _ => false

def reopens (slot : String) : Moment → Bool
  | ⟨.openRead _ name, .done, _⟩ => name = slot
  | _ => false

/-- What the writer in the slot has been given and has not stored, after it was `held`. -/
def given (slot : String) (held : Bytes) : Moment → Bytes
  | ⟨.write name data, .done, _⟩ => if name = slot then held ++ data else held
  | ⟨.shutdown name, .done, _⟩ => if name = slot then [] else held
  | _ => held

def taken (slot : String) : Moment → Bytes
  | ⟨.read name _, .content bytes, _⟩ => if name = slot then bytes else []
  | ⟨.readAll name, .content bytes, _⟩ => if name = slot then bytes else []
  | _ => []

end Moment

/-- All that was written in the slot since the last shutdown. -/
def given (slot : String) (since : List Moment) : Bytes := since.foldl (Moment.given slot) []

/-- All that was read in the slot. -/
def taken (slot : String) (since : List Moment) : Bytes := since.flatMap (Moment.taken slot)

theorem given_concat (slot : String) (since : List Moment) (m : Moment) :
    given slot (since ++ [m]) = m.given slot (given slot since) := by
  simp [given]

theorem taken_concat (slot : String) (since : List Moment) (m : Moment) :
    taken slot (since ++ [m]) = taken slot since ++ m.taken slot := by
  simp [taken]

/-- After what was done before, a call puts all of the content at the path at once. -/
inductive Puts (before : List Moment) : Moment → Path → Bytes → Prop
  | made {p : Path} {content : Bytes} {tree : MemoryFs} :
      Puts before ⟨.withFile p content, .done, tree⟩ p content
  | written {p : Path} {content : Bytes} {tree : MemoryFs} :
      Puts before ⟨.writeFile p content, .done, tree⟩ p content
  | emptied {p : Path} {slot : String} {tree : MemoryFs} :
      Puts before ⟨.openWrite p slot, .done, tree⟩ p []
  | stored {p : Path} {slot : String} {tree tree' : MemoryFs} {earlier since : List Moment}
      (h : before = earlier ++ ⟨.openWrite p slot, .done, tree'⟩ :: since)
      (hkept : ∀ m ∈ since, m.replaces slot = false) :
      Puts before ⟨.shutdown slot, .done, tree⟩ p (given slot since)

/-- Calls of this kind leave all that is open as it is. -/
structure Moment.Quiet (m : Moment) : Prop where
  replaces : ∀ slot, m.replaces slot = false := by intro; rfl
  reopens : ∀ slot, m.reopens slot = false := by intro; rfl
  given : ∀ slot held, m.given slot held = held := by intros; rfl
  taken : ∀ slot, m.taken slot = [] := by intro; rfl

namespace Session

variable {α : Type} {s t : Session} {slot : String} {p : Path} {rest : Bytes} {w : MemoryWriter}
  {m : Moment}

/-- The ways in which a call ends, with the session that is left. -/
inductive Acts (s : Session) : Moment → Session → Prop
  | quiet {m : Moment} {tree : MemoryFs} (hm : m.Quiet)
      (hfiles : ∀ q content, tree.read? q = some content → s.fs.read? q = some content) :
      Acts s m { s with fs := tree }
  | put {m : Moment} {p : Path} {content : Bytes} {tree : MemoryFs} (hm : m.Quiet)
      (hputs : ∀ before, Puts before m p content)
      (hfiles : ∀ q, tree.read? q = if p.Same q then some content else s.fs.read? q) :
      Acts s m { s with fs := tree }
  | readerOpened {p : Path} {slot : String} {content : Bytes} {tree : MemoryFs}
      (hfiles : ∀ q, tree.read? q = s.fs.read? q) (h : tree.read? p = some content) :
      Acts s ⟨.openRead p slot, .done, tree⟩
        { s with fs := tree, readers := set slot content s.readers }
  | took {action : Action} {slot : String} {bytes rest : Bytes}
      (haction : action = .readAll slot ∨ ∃ count, action = .read slot count)
      (h : slot? slot s.readers = some (bytes ++ rest)) :
      Acts s ⟨action, .content bytes, s.fs⟩ { s with readers := set slot rest s.readers }
  | writerOpened {p : Path} {slot : String} {fails : Bool} {tree : MemoryFs}
      (hfiles : ∀ q, tree.read? q = if p.Same q then some [] else s.fs.read? q) :
      Acts s ⟨.openWrite p slot, .done, tree⟩
        { s with fs := tree, writers := set slot ⟨p, [], fails⟩ s.writers }
  | wrote {slot : String} {data : Bytes} {w : MemoryWriter} (h : slot? slot s.writers = some w) :
      Acts s ⟨.write slot data, .done, s.fs⟩
        { s with writers := set slot { w with buffer := w.buffer ++ data } s.writers }
  | shutDown {slot : String} {w : MemoryWriter} (h : slot? slot s.writers = some w) :
      Acts s ⟨.shutdown slot, .done, s.fs.store w.path w.buffer⟩
        { s with
          fs := s.fs.store w.path w.buffer
          writers := set slot { w with buffer := [] } s.writers }
  | dropped {slot : String} :
      Acts s ⟨.drop slot, .done, s.fs⟩ { s with writers := clear slot s.writers }

theorem Acts.failed {action : Action} {error : SystemError} {tree : MemoryFs}
    (hfiles : tree.files = s.fs.files) :
    Acts s ⟨action, .failed error, tree⟩ { s with fs := tree } := by
  refine .quiet ?_ fun q content hq => ?_
  · cases action <;> exact {}
  · rw [MemoryFs.read?, hfiles] at hq
    exact hq

theorem Acts.nothingOpen {action : Action} : Acts s ⟨action, .nothingOpen, s.fs⟩ s := by
  refine .quiet ?_ fun _ _ h => h
  cases action <;> exact {}

theorem quiet_of_call {action : Action} {c : MemoryFs.Call α} {result : Result}
    (h : s.call c (fun t _ => (.done, t)) = (result, t)) (hm : (Moment.mk action result t.fs).Quiet)
    (hleaves : MemoryFs.Leaves s.fs none (c s.fs).2) : Acts s ⟨action, result, t.fs⟩ t := by
  have ht : t = { s with fs := (c s.fs).2 } := by
    unfold call at h
    cases hc : c s.fs with
    | mk ends tree =>
      rw [hc] at h
      cases ends <;> cases h <;> rfl
  rw [ht] at hm ⊢
  exact .quiet hm (hleaves.read?_eq_some)

theorem acts_openRead {result : Result} (h : s.act (.openRead p slot) = (result, t)) :
    Acts s ⟨.openRead p slot, result, t.fs⟩ t := by
  simp only [act, step, call, MemoryFs.openRead] at h
  cases hread : s.fs.read? p with
  | none =>
    rw [hread] at h
    cases h
    exact .failed rfl
  | some content =>
    rw [hread] at h
    cases h
    exact .readerOpened (fun _ => rfl) hread

theorem acts_openWrite {result : Result} (h : s.act (.openWrite p slot) = (result, t)) :
    Acts s ⟨.openWrite p slot, result, t.fs⟩ t := by
  simp only [act, step, call, MemoryFs.openWrite] at h
  cases hparent : s.fs.hasParent p with
  | true =>
    rw [hparent] at h
    cases h
    exact .writerOpened fun q => MemoryFs.read?_store s.fs.count p q []
  | false =>
    rw [hparent] at h
    cases h
    exact .failed rfl

theorem acts_writeFile {data : Bytes} {result : Result}
    (h : s.act (.writeFile p data) = (result, t)) :
    Acts s ⟨.writeFile p data, result, t.fs⟩ t := by
  simp only [act, step, call, MemoryFs.writeFile] at h
  cases hrejects : s.fs.rejectsWrites p with
  | true =>
    rw [hrejects] at h
    cases h
    exact .failed rfl
  | false =>
    rw [hrejects] at h
    cases hparent : s.fs.hasParent p with
    | true =>
      rw [hparent] at h
      cases h
      exact .put {} (fun _ => .written) fun q => MemoryFs.read?_store s.fs.count p q data
    | false =>
      rw [hparent] at h
      cases h
      exact .failed rfl

theorem acts_write {data : Bytes} {result : Result} (h : s.act (.write slot data) = (result, t)) :
    Acts s ⟨.write slot data, result, t.fs⟩ t := by
  simp only [act, step, withWriter] at h
  cases hw : slot? slot s.writers with
  | none =>
    rw [hw] at h
    cases h
    exact .nothingOpen
  | some w =>
    rw [hw] at h
    simp only [MemoryWriter.write] at h
    split at h
    next w' hwrite =>
      cases h
      split at hwrite
      next hdata =>
        cases hwrite
        have hwrote : Acts s ⟨.write slot data, _, _⟩ _ := .wrote hw
        rw [hdata, List.append_nil] at hwrote
        rw [hdata]
        exact hwrote
      next =>
        split at hwrite
        · cases hwrite
        · cases hwrite
          exact .wrote hw
    next =>
      cases h
      exact .failed rfl

theorem acts_shutdown {result : Result} (h : s.act (.shutdown slot) = (result, t)) :
    Acts s ⟨.shutdown slot, result, t.fs⟩ t := by
  simp only [act, step, withWriter] at h
  cases hw : slot? slot s.writers with
  | none =>
    rw [hw] at h
    cases h
    exact .nothingOpen
  | some w =>
    rw [hw] at h
    simp only [call, MemoryWriter.shutdown] at h
    cases hfails : w.fails with
    | true =>
      rw [hfails] at h
      cases h
      exact .failed rfl
    | false =>
      rw [hfails] at h
      cases h
      have hstored := Acts.shutDown hw
      rw [hfails] at hstored
      exact hstored

theorem acts_read {count : Nat} {result : Result} (h : s.act (.read slot count) = (result, t)) :
    Acts s ⟨.read slot count, result, t.fs⟩ t := by
  simp only [act, read] at h
  cases hr : slot? slot s.readers with
  | none =>
    rw [hr] at h
    cases h
    exact .nothingOpen
  | some content =>
    rw [hr] at h
    cases h
    rw [← List.take_append_drop count content] at hr
    exact .took (.inr ⟨count, rfl⟩) hr

theorem acts_readAll {result : Result} (h : s.act (.readAll slot) = (result, t)) :
    Acts s ⟨.readAll slot, result, t.fs⟩ t := by
  simp only [act, step] at h
  cases hr : slot? slot s.readers with
  | none =>
    rw [hr] at h
    cases h
    exact .nothingOpen
  | some content =>
    rw [hr] at h
    cases h
    rw [← List.append_nil content] at hr
    exact .took (.inl rfl) hr

theorem acts {action : Action} {result : Result} (h : s.act action = (result, t)) :
    Acts s ⟨action, result, t.fs⟩ t := by
  cases action with
  | withFile p content =>
    cases h
    exact .put {} (fun _ => .made) (MemoryFs.read?_withFile s.fs p content)
  | withDir p =>
    cases h
    exact .quiet {} fun q _ hq => (MemoryFs.read?_addDirs s.fs p q).symm.trans hq
  | failWritesTo p =>
    cases h
    exact .quiet {} fun _ _ h => h
  | unlink p =>
    exact quiet_of_call (c := MemoryFs.unlink p) h {} (MemoryFs.leaves_unlink s.fs p)
  | makeDirs p =>
    exact quiet_of_call (c := MemoryFs.makeDirs p) h {} (MemoryFs.leaves_makeDirs s.fs p)
  | writeFile p data => exact acts_writeFile h
  | openRead p slot => exact acts_openRead h
  | read slot count => exact acts_read h
  | readAll slot => exact acts_readAll h
  | openWrite p slot => exact acts_openWrite h
  | write slot data => exact acts_write h
  | flush slot =>
    simp only [act, step, withWriter] at h
    cases hw : slot? slot s.writers with
    | none =>
      rw [hw] at h
      cases h
      exact .nothingOpen
    | some w =>
      rw [hw] at h
      cases h
      exact .quiet {} fun _ _ h => h
  | shutdown slot => exact acts_shutdown h
  | drop slot =>
    cases h
    exact .dropped

theorem Acts.writer (h : Acts s m t) (hw : slot? slot t.writers = some w) :
    (∃ tree, m = ⟨.openWrite w.path slot, .done, tree⟩ ∧ w.buffer = []) ∨
      ∃ v, slot? slot s.writers = some v ∧ v.path = w.path ∧ m.replaces slot = false ∧
        m.given slot v.buffer = w.buffer := by
  cases h with
  | quiet hm _ | put hm _ _ =>
    exact .inr ⟨w, hw, rfl, hm.replaces slot, hm.given slot w.buffer⟩
  | readerOpened => exact .inr ⟨w, hw, rfl, rfl, rfl⟩
  | took haction =>
    refine .inr ⟨w, hw, rfl, ?_⟩
    rcases haction with rfl | ⟨_, rfl⟩ <;> exact ⟨rfl, rfl⟩
  | writerOpened =>
    rcases of_slot?_set hw with ⟨rfl, rfl⟩ | ⟨hname, hw⟩
    · exact .inl ⟨_, rfl, rfl⟩
    · exact .inr ⟨w, hw, rfl, by simp [Moment.replaces, hname], rfl⟩
  | wrote hv | shutDown hv =>
    rcases of_slot?_set hw with ⟨rfl, rfl⟩ | ⟨hname, hw⟩
    · exact .inr ⟨_, hv, rfl, rfl, by simp [Moment.given]⟩
    · exact .inr ⟨w, hw, rfl, rfl, by simp [Moment.given, hname]⟩
  | dropped =>
    rw [slot?_clear] at hw
    split at hw
    · cases hw
    next hname => exact .inr ⟨w, hw, rfl, by simp [Moment.replaces, hname], rfl⟩

theorem Acts.reader (h : Acts s m t) (hm : m.reopens slot = false)
    (hr : slot? slot s.readers = some rest) :
    ∃ rest', slot? slot t.readers = some rest' ∧ m.taken slot ++ rest' = rest := by
  cases h with
  | quiet hquiet _ | put hquiet _ _ => exact ⟨rest, hr, by rw [hquiet.taken, List.nil_append]⟩
  | @readerOpened _ name content _ =>
    have hname : name ≠ slot := by simpa [Moment.reopens] using hm
    exact ⟨rest, (slot?_set_of_ne hname content s.readers).trans hr, rfl⟩
  | @took action name bytes rest' haction hread =>
    by_cases hname : name = slot
    · subst hname
      rw [hread] at hr
      cases hr
      refine ⟨rest', slot?_set name rest' s.readers, ?_⟩
      rcases haction with rfl | ⟨_, rfl⟩ <;> simp [Moment.taken]
    · refine ⟨rest, (slot?_set_of_ne hname rest' s.readers).trans hr, ?_⟩
      rcases haction with rfl | ⟨_, rfl⟩ <;> simp [Moment.taken, hname]
  | writerOpened | wrote | shutDown | dropped => exact ⟨rest, hr, rfl⟩

theorem Acts.reader_opened {tree : MemoryFs} (h : Acts s ⟨.openRead p slot, .done, tree⟩ t) :
    ∃ content, tree.read? p = some content ∧ slot? slot t.readers = some content := by
  have hreopens : ¬ (Moment.mk (.openRead p slot) .done tree).Quiet := by
    intro hm
    simpa [Moment.reopens] using hm.reopens slot
  cases h with
  | quiet hm _ => exact absurd hm hreopens
  | put hm _ _ => exact absurd hm hreopens
  | readerOpened _ hread => exact ⟨_, hread, slot?_set slot _ s.readers⟩

end Session

end Relayout
