import Relayout.Proofs.Memory.Moments

/-!
# Whole files

Many clients share a tree, and some write to the same file. A file still holds what was put there
at once: what it was made with or written with in one call, nothing, once it was opened for writing,
or all that one writer was given since it was opened or last shut down. And a reader gives what its
file held when it was opened.
-/

namespace Relayout

namespace Session

variable {s t : Session} {slot : String} {p : Path} {content : Bytes} {w : MemoryWriter}
  {m : Moment} {past : List Moment}

/-- A call put the content at the path, and it has been there since. -/
def Stems (past : List Moment) (p : Path) (content : Bytes) : Prop :=
  ∃ before m later q, past = before ++ m :: later ∧ q.Same p ∧ Puts before m q content ∧
    ∀ x ∈ m :: later, x.tree.read? p = some content

/-- A call opened the writer, which is still in its slot and holds what it was given since. -/
def Traced (past : List Moment) (slot : String) (w : MemoryWriter) : Prop :=
  ∃ before tree since, past = before ++ ⟨.openWrite w.path slot, .done, tree⟩ :: since ∧
    (∀ m ∈ since, m.replaces slot = false) ∧ given slot since = w.buffer

/-- The files and all that is open come from the calls made so far. -/
structure Kept (s : Session) (past : List Moment) : Prop where
  files : ∀ p content, s.fs.read? p = some content → Stems past p content
  writers : ∀ slot w, slot? slot s.writers = some w → Traced past slot w
  readers : ∀ before p slot tree since,
    past = before ++ ⟨.openRead p slot, .done, tree⟩ :: since →
      (∀ m ∈ since, m.reopens slot = false) →
        ∃ content rest, tree.read? p = some content ∧ slot? slot s.readers = some rest ∧
          taken slot since ++ rest = content

theorem Traced.puts (h : Traced past slot w) (tree : MemoryFs) :
    Puts past ⟨.shutdown slot, .done, tree⟩ w.path w.buffer := by
  obtain ⟨before, tree', since, hpast, hkept, hgiven⟩ := h
  rw [← hgiven]
  exact .stored hpast hkept

namespace Kept

theorem read?_of_acts (h : Kept s past) (hacts : Acts s m t) (hread : t.fs.read? p = some content) :
    s.fs.read? p = some content ∨ ∃ q, q.Same p ∧ Puts past m q content := by
  have hput : ∀ {q : Path} {put : Bytes},
      (t.fs.read? p = if q.Same p then some put else s.fs.read? p) → Puts past m q put →
        s.fs.read? p = some content ∨ ∃ q, q.Same p ∧ Puts past m q content := by
    intro q put hfiles hputs
    rw [hread] at hfiles
    split at hfiles
    next hsame =>
      cases hfiles
      exact .inr ⟨q, hsame, hputs⟩
    next => exact .inl hfiles.symm
  cases hacts with
  | quiet _ hfiles => exact .inl (hfiles p content hread)
  | put _ hputs hfiles => exact hput (hfiles p) (hputs past)
  | readerOpened hfiles => exact .inl ((hfiles p).symm.trans hread)
  | writerOpened hfiles => exact hput (hfiles p) .emptied
  | @shutDown slot w hw =>
    exact hput (MemoryFs.read?_store s.fs w.path p w.buffer) ((h.writers slot w hw).puts _)
  | took | wrote | dropped => exact .inl hread

theorem files_of_acts (h : Kept s past) (hacts : Acts s m t) (htree : m.tree = t.fs)
    (hread : t.fs.read? p = some content) : Stems (past ++ [m]) p content := by
  rw [← htree] at hread
  rcases h.read?_of_acts hacts (htree ▸ hread) with hold | ⟨q, hsame, hputs⟩
  · obtain ⟨before, m', later, q, rfl, hsame, hputs, hlater⟩ := h.files p content hold
    refine ⟨before, m', later ++ [m], q, by simp, hsame, hputs, ?_⟩
    intro x hx
    rw [← List.cons_append, List.mem_append, List.mem_singleton] at hx
    rcases hx with hx | rfl
    · exact hlater x hx
    · exact hread
  · refine ⟨past, m, [], q, rfl, hsame, hputs, ?_⟩
    intro x hx
    rw [List.mem_singleton.mp hx]
    exact hread

theorem writers_of_acts (h : Kept s past) (hacts : Acts s m t)
    (hw : slot? slot t.writers = some w) : Traced (past ++ [m]) slot w := by
  rcases hacts.writer hw with ⟨tree, rfl, hbuffer⟩ | ⟨v, hv, hpath, hreplaces, hgiven⟩
  · exact ⟨past, tree, [], rfl, List.forall_mem_nil _, hbuffer.symm⟩
  · obtain ⟨before, tree, since, rfl, hkept, hbuffer⟩ := h.writers slot v hv
    refine ⟨before, tree, since ++ [m], by simp [hpath], ?_, ?_⟩
    · intro x hx
      rw [List.mem_append, List.mem_singleton] at hx
      rcases hx with hx | rfl
      · exact hkept x hx
      · exact hreplaces
    · rw [given_concat, hbuffer, hgiven]

theorem readers_of_acts (h : Kept s past) (hacts : Acts s m t) {before since : List Moment}
    {tree : MemoryFs} (hpast : past ++ [m] = before ++ ⟨.openRead p slot, .done, tree⟩ :: since)
    (hkept : ∀ x ∈ since, x.reopens slot = false) :
    ∃ content rest, tree.read? p = some content ∧ slot? slot t.readers = some rest ∧
      taken slot since ++ rest = content := by
  rcases since.eq_nil_or_concat with rfl | ⟨since, last, rfl⟩
  -- The reader is opened by the call itself.
  · obtain ⟨-, hm⟩ := List.append_inj' hpast rfl
    rw [List.singleton_inj.mp hm] at hacts
    obtain ⟨content, hread, hopen⟩ := hacts.reader_opened
    exact ⟨content, content, hread, hopen, rfl⟩
  · rw [List.concat_eq_append] at hpast hkept ⊢
    rw [← List.cons_append, ← List.append_assoc] at hpast
    obtain ⟨hpast, hm⟩ := List.append_inj' hpast rfl
    rw [← List.singleton_inj.mp hm] at hkept ⊢
    obtain ⟨content, rest, hread, hopen, htaken⟩ :=
      h.readers before p slot tree since hpast fun x hx => hkept x (by simp [hx])
    obtain ⟨rest', hopen', hrest⟩ := hacts.reader (hkept m (by simp)) hopen
    refine ⟨content, rest', hread, hopen', ?_⟩
    rw [taken_concat, List.append_assoc, hrest, htaken]

theorem acts (h : Kept s past) (hacts : Acts s m t) (htree : m.tree = t.fs) :
    Kept t (past ++ [m]) where
  files _ _ hread := h.files_of_acts hacts htree hread
  writers _ _ hw := h.writers_of_acts hacts hw
  readers _ _ _ _ _ hpast hkept := h.readers_of_acts hacts hpast hkept

end Kept

theorem kept_start : Kept (start .empty) [] where
  files _ _ hread := by cases hread
  writers _ _ hw := by cases hw
  readers before p slot tree since hpast := by simp at hpast

end Session

namespace Pool

open Session

theorem kept_call {pool : Pool} (h : Kept pool.session pool.past) (action : Action) :
    Kept (pool.call action).session (pool.call action).past :=
  h.acts (acts rfl) rfl

theorem kept_after {pool : Pool} (h : Kept pool.session pool.past) (turn : Turn) :
    Kept (pool.after turn).session (pool.after turn).past := by
  cases turn with
  | call action => exact kept_call h action
  | execute slot c => exact h
  | resume i =>
    cases hp : pool.programs[i]? with
    | none => simpa only [after, hp] using h
    | some program =>
      cases program with
      | call action next => simpa only [after, hp] using kept_call h action
      | done | halted => simpa only [after, hp] using h

theorem kept_run (turns : List Turn) : Kept (run turns).session (run turns).past := by
  have hfrom : ∀ pool : Pool, Kept pool.session pool.past →
      Kept (turns.foldl after pool).session (turns.foldl after pool).past := by
    induction turns with
    | nil => exact fun _ h => h
    | cons turn turns ih => exact fun pool h => ih (pool.after turn) (kept_after h turn)
  exact hfrom empty kept_start

/-- Whatever turns the clients of a tree have had, a file holds the whole of what one call put
there, and has held it since. And a reader gives all that its file held when it was opened. -/
theorem files_whole (turns : List Turn) :
    (∀ p content, (run turns).session.fs.read? p = some content →
      Stems (run turns).past p content) ∧
    ∀ before p slot tree since,
      (run turns).past = before ++ ⟨.openRead p slot, .done, tree⟩ :: since →
        (∀ m ∈ since, m.reopens slot = false) →
          ∃ content rest, tree.read? p = some content ∧
            ((run turns).session.act (.readAll slot)).1 = .content rest ∧
            taken slot since ++ rest = content := by
  refine ⟨(kept_run turns).files, ?_⟩
  intro before p slot tree since hpast hkept
  obtain ⟨content, rest, hread, hopen, htaken⟩ :=
    (kept_run turns).readers before p slot tree since hpast hkept
  refine ⟨content, rest, hread, ?_, htaken⟩
  simp only [act, step, hopen]

def shared : Path := .ofString "/p/a"

/-- Two writers and a command at work on one file, which is removed while they are. -/
def crossing : List Turn :=
  [.call (.withFile shared [7, 8]), .call (.openRead shared "reader"),
    .call (.openWrite shared "first"), .call (.openWrite shared "second"),
    .call (.write "first" [1]), .call (.write "second" [2]), .call (.write "first" [3]),
    .call (.shutdown "first"), .execute "copier" (.copy shared (.ofString "/p/b")), .resume 0,
    .resume 0, .call (.unlink shared), .call (.read "reader" 1), .call (.shutdown "second"),
    .resume 0, .resume 0, .resume 0, .resume 0]

theorem files_whole_crossing :
    (run crossing).session.fs.read? shared = some [2] ∧
      Stems (run crossing).past shared [2] ∧
      (run crossing).session.fs.read? (.ofString "/p/b") = some [1, 3] ∧
      Stems (run crossing).past (.ofString "/p/b") [1, 3] ∧
      ∃ rest, ((run crossing).session.act (.readAll "reader")).1 = .content rest ∧
        taken "reader" ((run crossing).past.drop 2) ++ rest = [7, 8] := by
  have hshared : (run crossing).session.fs.read? shared = some [2] := by decide +kernel
  have hcopy : (run crossing).session.fs.read? (.ofString "/p/b") = some [1, 3] := by decide +kernel
  have hopened : (run (crossing.take 2)).session.fs.read? shared = some [7, 8] := by decide +kernel
  have hpast : (run crossing).past = (run crossing).past.take 1 ++
      ⟨.openRead shared "reader", .done, (run (crossing.take 2)).session.fs⟩ ::
        (run crossing).past.drop 2 := by with_unfolding_all rfl
  have hkept : ∀ m ∈ (run crossing).past.drop 2, m.reopens "reader" = false := by decide +kernel
  obtain ⟨content, rest, hcontent, hrest, htaken⟩ := (files_whole crossing).2 _ _ _ _ _ hpast hkept
  rw [hopened] at hcontent
  cases hcontent
  exact ⟨hshared, (files_whole crossing).1 _ _ hshared, hcopy, (files_whole crossing).1 _ _ hcopy,
    rest, hrest, htaken⟩

end Pool

end Relayout
