import Relayout.Proofs.Memory.History

/-!
# Clients of one tree

Clients share a tree and what is open on it. Single calls are all that each of them can make: a
command is carried out call by call, and between two of its calls others have their turns. Left to
itself, a command carried out in this way does what it does to a tree at once.
-/

namespace Relayout

open Execution

namespace Session

inductive Action
  | withFile (path : Path) (content : Bytes)
  | withDir (path : Path)
  | failWritesTo (path : Path)
  | unlink (path : Path)
  | makeDirs (path : Path)
  | writeFile (path : Path) (data : Bytes)
  | openRead (path : Path) (slot : String)
  | read (slot : String) (count : Nat)
  | readAll (slot : String)
  | openWrite (path : Path) (slot : String)
  | write (slot : String) (data : Bytes)
  | flush (slot : String)
  | shutdown (slot : String)
  | drop (slot : String)

/-- Takes at most `count` bytes of what is left in a reader. -/
def read (s : Session) (slot : String) (count : Nat) : Result × Session :=
  match slot? slot s.readers with
  | none => (.nothingOpen, s)
  | some content =>
    (.content (content.take count),
      { s with readers := set slot (content.drop count) s.readers })

def act (s : Session) : Action → Result × Session
  | .withFile p content => (.done, s.after (.withFile p content))
  | .withDir p => (.done, s.after (.withDir p))
  | .failWritesTo p => (.done, s.after (.failWritesTo p))
  | .unlink p => s.step (.unlink p)
  | .makeDirs p => s.step (.makeDirs p)
  | .writeFile p data => s.step (.writeFile p data)
  | .openRead p slot => s.step (.openRead p slot)
  | .read slot count => s.read slot count
  | .readAll slot => s.step (.readAll slot)
  | .openWrite p slot => s.step (.openWrite p slot)
  | .write slot data => s.step (.write slot data)
  | .flush slot => s.step (.flush slot)
  | .shutdown slot => s.step (.shutdown slot)
  | .drop slot => s.step (.drop slot)

end Session

open Session

/-- What a client does: each call it makes, and how it goes on from the result. A client that finds
its reader or writer taken away goes no further. -/
inductive Program (α : Type)
  | done (a : α)
  | call (action : Action) (next : Result → Program α)
  | halted

namespace Program

variable {α β : Type}

def bind : Program α → (α → Program β) → Program β
  | done a, f => f a
  | call action next, f => call action fun result => (next result).bind f
  | halted, _ => halted

instance : Monad Program where
  pure := done
  bind := bind

/-- Makes all the calls with none in between. -/
def run : Program α → Session → Option α × Session
  | done a, s => (some a, s)
  | call action next, s => (next (s.act action).1).run (s.act action).2
  | halted, s => (none, s)

end Program

/-- Makes calls with what it opens in a slot of its own. -/
abbrev Client := ReaderT String Program

namespace Client

def order (action : Action) : ExceptT SystemError Client Unit := fun _ =>
  .call action fun
    | .done => .done (.ok ())
    | .failed e => .done (.error e)
    | _ => .halted

def take (slot : String) : ExceptT SystemError Client Bytes := fun _ =>
  .call (.readAll slot) fun
    | .content bytes => .done (.ok bytes)
    | .failed e => .done (.error e)
    | _ => .halted

end Client

instance : Journal Client := ⟨fun _ _ => .done ()⟩

instance : FileSystem Client String String where
  unlink p := Client.order (.unlink p)
  makeDirs p := Client.order (.makeDirs p)
  openRead p := do
    let slot ← (read : Client String)
    Client.order (.openRead p slot)
    return slot
  openWrite p := do
    let slot ← (read : Client String)
    Client.order (.openWrite p slot)
    return slot
  pour reader writer := do
    let content ← Client.take reader
    Client.order (.write writer content)
    return (content.length, writer)
  close writer := Client.order (.shutdown writer)
  writeFile p content := Client.order (.writeFile p content)

/-- A command carried out call by call, with what it opens in the slot. -/
def Program.ofCommand (slot : String) (c : Command) : Program (Except Fault Unit) :=
  (execute c : ExceptT Fault Client Unit) slot

/-- A call that was made, how it ended and the tree it left. -/
structure Moment where
  action : Action
  result : Result
  tree : MemoryFs

/-- A session with the commands that are being carried out on it and all the calls made so far. -/
structure Pool where
  session : Session
  programs : List (Program (Except Fault Unit))
  past : List Moment

inductive Turn
  | call (action : Action)
  | execute (slot : String) (command : Command)
  /-- One of the commands that are being carried out makes its next call. -/
  | resume (index : Nat)

namespace Pool

def empty : Pool := ⟨start .empty, [], []⟩

def call (pool : Pool) (action : Action) : Pool :=
  let (result, session) := pool.session.act action
  { pool with session, past := pool.past ++ [⟨action, result, session.fs⟩] }

def after (pool : Pool) : Turn → Pool
  | .call action => pool.call action
  | .execute slot c => { pool with programs := pool.programs ++ [.ofCommand slot c] }
  | .resume i =>
    match pool.programs[i]? with
    | some (.call action next) =>
      { pool.call action with
        programs := pool.programs.set i (next (pool.session.act action).1) }
    | _ => pool

def run (turns : List Turn) : Pool := turns.foldl after empty

end Pool

namespace Client

variable {ε α β γ δ : Type} {slot : String} {s t : Session} {c : MemoryFs.Call α}
  {x : ExceptT ε Client α} {y : ExceptT ε (StateM MemoryFs) β}
  {link : α → β → Session → Prop} {link' : γ → δ → Session → Prop}

def run (x : ExceptT ε Client α) (slot : String) (s : Session) :
    Option (Except ε α) × Session :=
  Program.run (x slot) s

/-- A client ends as what was done at once to the tree, and `link` holds of what they give. -/
inductive Agree (link : α → β → Session → Prop) :
    Option (Except ε α) × Session → Except ε β × MemoryFs → Prop
  | ok {a : α} {b : β} {t : Session} (h : link a b t) : Agree link (some (.ok a), t) (.ok b, t.fs)
  | error (e : ε) (t : Session) : Agree link (some (.error e), t) (.error e, t.fs)

theorem run_program_bind (p : Program α) (f : α → Program β) (s : Session) :
    (p.bind f).run s = match p.run s with
      | (some a, t) => (f a).run t
      | (none, t) => (none, t) := by
  induction p generalizing s with
  | done a => rfl
  | call action next ih => exact ih (s.act action).1 (s.act action).2
  | halted => rfl

theorem run_bind (x : ExceptT ε Client α) (f : α → ExceptT ε Client γ) (slot : String)
    (s : Session) :
    run (x >>= f) slot s = match run x slot s with
      | (some (.ok a), t) => run (f a) slot t
      | (some (.error e), t) => (some (.error e), t)
      | (none, t) => (none, t) := by
  refine (run_program_bind (x slot) _ s).trans ?_
  unfold run
  rcases (x slot).run s with ⟨_ | _ | _, t⟩ <;> rfl

theorem Agree.bind {f : α → ExceptT ε Client γ} {g : β → ExceptT ε (StateM MemoryFs) δ}
    (h : Agree link (run x slot s) (y s.fs))
    (hnext : ∀ a b t, link a b t → Agree link' (run (f a) slot t) (g b t.fs)) :
    Agree link' (run (x >>= f) slot s) ((y >>= g) s.fs) := by
  rw [run_bind]
  change Agree link' _ (ExceptT.bindCont g (y s.fs).1 (y s.fs).2)
  generalize run x slot s = ends, y s.fs = ends' at h
  cases h with
  | ok h => exact hnext _ _ _ h
  | error e t => exact .error e t

theorem Agree.map {ends : Option (Except ε α) × Session} {result : Except ε β} {fs : MemoryFs}
    {link' : α → γ → Session → Prop} {g : β → γ} (h : Agree link ends (result, fs))
    (hlink : ∀ a b t, link a b t → link' a (g b) t) : Agree link' ends (result.map g, fs) := by
  cases h with
  | ok h => exact .ok (hlink _ _ _ h)
  | error e t => exact .error e t

theorem Agree.returning {x : ExceptT ε Client Unit} {ends : Except ε β × MemoryFs}
    {link : Unit → β → Session → Prop} (h : Agree link (run x slot s) ends) (a : γ) :
    Agree (fun c b t => c = a ∧ link () b t) (run (do x; return a) slot s) ends := by
  rw [run_bind]
  generalize run x slot s = ends' at h
  cases h with
  | ok h => exact .ok ⟨rfl, h⟩
  | error e t => exact .error e t

theorem Agree.mono {ends : Option (Except ε α) × Session} {ends' : Except ε β × MemoryFs}
    {weaker : α → β → Session → Prop} (h : Agree link ends ends')
    (hlink : ∀ a b t, link a b t → weaker a b t) : Agree weaker ends ends' := by
  cases h with
  | ok h => exact .ok (hlink _ _ _ h)
  | error e t => exact .error e t

theorem Agree.during {x : ExceptT SystemError Client α}
    {y : ExceptT SystemError (StateM MemoryFs) β} (operation : Operation) (p : Path)
    (h : Agree link (run x slot s) (y s.fs)) :
    Agree link (run (during operation p x) slot s) (during operation p y s.fs) := by
  have hrun : run (Execution.during operation p x) slot s =
      ((run x slot s).1.map (Except.mapError (.io operation p)), (run x slot s).2) := by
    refine (run_program_bind (x slot) _ s).trans ?_
    unfold run
    rcases (x slot).run s with ⟨_ | _, t⟩ <;> rfl
  have hat : Execution.during operation p y s.fs =
      ((y s.fs).1.mapError (.io operation p), (y s.fs).2) := rfl
  rw [hrun, hat]
  generalize run x slot s = ends, y s.fs = ends' at h
  cases h with
  | ok h => exact .ok h
  | error e t => exact .error _ t

theorem Agree.after_note {f : ExceptT ε Client γ} {g : ExceptT ε (StateM MemoryFs) δ} (n : Notice)
    (h : Agree link' (run f slot s) (g s.fs)) :
    Agree link' (run (do note n; f) slot s) ((do note n; g : ExceptT ε (StateM MemoryFs) δ) s.fs) :=
  h

theorem run_order {action : Action} (h : s.act action = (.done, t)) :
    run (order action) slot s = (some (.ok ()), t) := by
  change Program.run (.call action _) s = _
  rw [Program.run, h]
  rfl

theorem run_order_failed {action : Action} {error : SystemError}
    (h : s.act action = (.failed error, t)) :
    run (order action) slot s = (some (.error error), t) := by
  change Program.run (.call action _) s = _
  rw [Program.run, h]
  rfl

theorem agree_order {action : Action} {next : Session → α → Session}
    (hact : s.act action = s.call c fun t a => (.done, next t a))
    (hnext : ∀ t a, (next t a).fs = t.fs) :
    Agree (fun _ a t => t = next { s with fs := t.fs } a) (run (order action) slot s) (c s.fs) := by
  unfold Session.call at hact
  cases hc : c s.fs with
  | mk result fs =>
    rw [hc] at hact
    cases result with
    | error e =>
      rw [run_order_failed hact]
      exact .error e { s with fs }
    | ok a =>
      have hfs := hnext { s with fs } a
      have h : Agree (fun _ a t => t = next { s with fs := t.fs } a)
          (run (order action) slot s)
          ((.ok a : Except SystemError α), (next { s with fs } a).fs) := by
        rw [run_order hact]
        exact .ok (by rw [hfs])
      rwa [hfs] at h

theorem agree_call {action : Action} {c : MemoryFs.Call Unit}
    (hact : s.act action = s.call c fun t _ => (.done, t)) :
    Agree (fun _ _ _ => True) (run (order action) slot s) (c s.fs) :=
  (agree_order hact fun _ _ => rfl).mono fun _ _ _ _ => trivial

theorem agree_makeParent (p : Path) :
    Agree (fun _ _ _ => True) (run (makeParent p) slot s)
      (MemoryFs.perform (makeParent p) s.fs) := by
  unfold makeParent
  cases p.parent? with
  | none => exact .ok trivial
  | some dir =>
    by_cases hdir : dir.isEmpty
    · simp only [hdir, if_true]
      exact .ok trivial
    · simp only [if_neg hdir]
      exact (agree_call (c := MemoryFs.makeDirs dir) rfl).during .createDirectory dir

theorem agree_openRead (p : Path) :
    Agree (fun reader content t => reader = slot ∧ slot? slot t.readers = some content)
      (run (FileSystem.openRead p) slot s) (MemoryFs.openRead p s.fs) := by
  have hact : s.act (.openRead p slot) = s.call (MemoryFs.openRead p) fun t content =>
      (.done, { t with readers := set slot content t.readers }) := rfl
  refine ((agree_order hact fun _ _ => rfl).returning slot).mono ?_
  rintro _ content t ⟨rfl, ht⟩
  rw [ht]
  exact ⟨rfl, slot?_set _ content s.readers⟩

theorem agree_openWrite (p : Path) :
    Agree (fun writer w t => writer = slot ∧ t.readers = s.readers ∧ slot? slot t.writers = some w)
      (run (FileSystem.openWrite p) slot s) (MemoryFs.openWrite p s.fs) := by
  have hact : s.act (.openWrite p slot) = s.call (MemoryFs.openWrite p) fun t w =>
      (.done, { t with writers := set slot w t.writers }) := rfl
  refine ((agree_order hact fun _ _ => rfl).returning slot).mono ?_
  rintro _ w t ⟨rfl, ht⟩
  rw [ht]
  exact ⟨rfl, rfl, slot?_set _ w s.writers⟩

theorem agree_write {w : MemoryWriter} (hw : slot? slot s.writers = some w) (data : Bytes) :
    Agree (fun _ w' t => slot? slot t.writers = some w') (run (order (.write slot data)) slot s)
      (w.write data, s.fs) := by
  cases hwrite : w.write data with
  | error e =>
    have hact : s.act (.write slot data) = (.failed e, s) := by
      simp only [act, step, withWriter, hw, hwrite]
    rw [run_order_failed hact]
    exact .error e s
  | ok w' =>
    have hact :
        s.act (.write slot data) = (.done, { s with writers := set slot w' s.writers }) := by
      simp only [act, step, withWriter, hw, hwrite]
    rw [run_order hact]
    exact .ok (t := { s with writers := set slot w' s.writers }) (slot?_set slot w' _)

theorem agree_pour {content : Bytes} {w : MemoryWriter} (hr : slot? slot s.readers = some content)
    (hw : slot? slot s.writers = some w) :
    Agree (fun poured poured' t => poured.1 = poured'.1 ∧ poured.2 = slot ∧
        slot? slot t.writers = some poured'.2)
      (run (FileSystem.pour slot slot) slot s)
      ((FileSystem.pour content w : ExceptT SystemError (StateM MemoryFs) _) s.fs) := by
  let taken : Session := { s with readers := set slot [] s.readers }
  have htake : run (take slot) slot s = (some (.ok content), taken) := by
    change Program.run (.call (.readAll slot) _) s = _
    simp only [Program.run, act, step, hr, taken]
  have hpour : run (FileSystem.pour slot slot) slot s = run (do
      order (.write slot content)
      return (content.length, slot)) slot taken := by
    change run (take slot >>= _) slot s = _
    rw [run_bind, htake]
  rw [hpour]
  have hwrite : Agree _ _ (w.write content, s.fs) := agree_write (s := taken) hw content
  refine (hwrite.returning (content.length, slot)).map ?_
  rintro _ w' t ⟨rfl, hw'⟩
  exact ⟨rfl, rfl, hw'⟩

theorem agree_close {w : MemoryWriter} (hw : slot? slot s.writers = some w) :
    Agree (fun _ _ _ => True) (run (FileSystem.close slot) slot s)
      ((FileSystem.close w : ExceptT SystemError (StateM MemoryFs) _) s.fs) := by
  have hact : s.act (.shutdown slot) = s.call w.shutdown fun t w =>
      (.done, { t with writers := set slot w t.writers }) := by
    simp only [act, step, withWriter, hw]
  have h : Agree _ (run (order (.shutdown slot)) slot s) _ := agree_order hact fun _ _ => rfl
  exact h.map fun _ _ _ _ => trivial

theorem agree_copyFile (source target : Path) :
    Agree (fun _ _ _ => True) (run (copyFile source target) slot s)
      (MemoryFs.perform (copyFile source target) s.fs) := by
  refine (agree_makeParent target).bind ?_
  rintro _ _ s -
  refine ((agree_openRead source).during .open source).bind ?_
  rintro _ content s ⟨rfl, hr⟩
  refine ((agree_openWrite target).during .openForWriting target).bind ?_
  rintro _ w t ⟨rfl, hreaders, hw⟩
  rw [← hreaders] at hr
  refine ((agree_pour hr hw).during .copyTo target).bind ?_
  rintro ⟨count, _⟩ ⟨_, w'⟩ t ⟨rfl, rfl, hw⟩
  refine ((agree_close hw).during .finishWriting target).bind ?_
  rintro _ _ t -
  exact .ok trivial

theorem agree_requireDistinct (kind : Command.Kind) (source target : Path) :
    Agree (fun _ _ t => t = s) (run (requireDistinct kind source target) slot s)
      (MemoryFs.perform (requireDistinct kind source target) s.fs) := by
  unfold requireDistinct
  split
  · exact .error _ s
  · exact .ok rfl

theorem agree_execute (c : Command) :
    Agree (fun _ _ _ => True) (run (execute c) slot s) (MemoryFs.perform (execute c) s.fs) := by
  cases c with
  | delete p =>
    refine .after_note (.deleting p) ?_
    exact (agree_call (c := MemoryFs.unlink p) rfl).during .delete p
  | move source target =>
    refine (agree_requireDistinct .move source target).bind ?_
    rintro _ _ s rfl
    refine .after_note (.moving source target) ?_
    refine (agree_copyFile source target).bind ?_
    rintro _ _ s -
    exact (agree_call (c := MemoryFs.unlink source) rfl).during .removeMoved source
  | copy source target =>
    refine (agree_requireDistinct .copy source target).bind ?_
    rintro _ _ s rfl
    exact (agree_copyFile source target).after_note (.copying source target)
  | create p =>
    refine .after_note (.creating p) ?_
    exact (agree_call (c := MemoryFs.writeFile p []) rfl).during .create p

/-- Left to itself, a command carried out call by call does what it does at once. -/
theorem run_ofCommand (slot : String) (c : Command) (s : Session) :
    ((Program.ofCommand slot c).run s).1 = some (MemoryFs.perform (execute c) s.fs).1 ∧
      ((Program.ofCommand slot c).run s).2.fs = (MemoryFs.perform (execute c) s.fs).2 := by
  have h : Agree _ ((Program.ofCommand slot c).run s) (MemoryFs.perform (execute c) s.fs) :=
    agree_execute c
  generalize (Program.ofCommand slot c).run s = ends,
    MemoryFs.perform (execute c) s.fs = ends' at h
  cases h with
  | ok _ => exact ⟨rfl, rfl⟩
  | error _ _ => exact ⟨rfl, rfl⟩

end Client

namespace Pool

/-- A program that has its turns one after another makes all its calls. -/
theorem exists_resumes {p : Program (Except Fault Unit)} {pool : Pool} {i : Nat}
    (h : pool.programs[i]? = some p) :
    ∃ n, ((List.replicate n (.resume i)).foldl after pool).session = (p.run pool.session).2 ∧
      ((List.replicate n (.resume i)).foldl after pool).programs[i]? =
        some ((p.run pool.session).1.elim .halted .done) := by
  induction p generalizing pool with
  | done a => exact ⟨0, rfl, h⟩
  | halted => exact ⟨0, rfl, h⟩
  | call action next ih =>
    let result := (pool.session.act action).1
    have hafter : pool.after (.resume i) =
        { pool.call action with programs := pool.programs.set i (next result) } := by
      simp only [after, h, result]
    have hi : i < pool.programs.length := (List.getElem?_eq_some_iff.mp h).1
    have hnext : (pool.after (.resume i)).programs[i]? = some (next result) := by
      rw [hafter]
      exact List.getElem?_set_self hi
    obtain ⟨n, hsession, hprogram⟩ := ih result hnext
    refine ⟨n + 1, ?_, ?_⟩
    · rw [List.replicate_succ, List.foldl_cons, hsession, hafter]
      rfl
    · rw [List.replicate_succ, List.foldl_cons, hprogram, hafter]
      rfl

/-- Among the turns of clients there are those in which a command is not interrupted. -/
theorem exists_resumes_execute (pool : Pool) (slot : String) (c : Command) :
    ∃ n,
      let turns := Turn.execute slot c :: List.replicate n (.resume pool.programs.length)
      let left := turns.foldl after pool
      left.session.fs = (pool.session.step (.execute c)).2.fs ∧
        left.programs[pool.programs.length]? =
          some (.done (MemoryFs.perform (execute c) pool.session.fs).1) := by
  have hlast : (pool.after (.execute slot c)).programs[pool.programs.length]? =
      some (.ofCommand slot c) := List.getElem?_concat_length
  obtain ⟨n, hsession, hprogram⟩ := exists_resumes hlast
  obtain ⟨hresult, htree⟩ := Client.run_ofCommand slot c pool.session
  refine ⟨n, ?_, ?_⟩
  · rw [List.foldl_cons, hsession]
    exact htree
  · rw [List.foldl_cons, hprogram]
    change some ((Program.ofCommand slot c).run pool.session |>.1.elim _ _) = _
    rw [hresult]
    rfl

end Pool

end Relayout
