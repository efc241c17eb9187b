import Relayout.Proofs.Memory.Effect

/-!
# Where a batch stops

A batch that fails has carried out the commands before the one that fails. A command whose file is
there fails only by what is the matter with its target, and at which targets writes are rejected is
the same throughout.
-/

namespace Relayout.MemoryFs

open Execution

variable {fs mid tree : MemoryFs} {c : Command} {cs : List Command} {p source target : Path}
  {fault : Fault} {result : Except Fault Unit}

theorem perform_bind_eq_error_iff {α β : Type} {x : ExceptT Fault (StateM MemoryFs) α}
    {f : α → ExceptT Fault (StateM MemoryFs) β} :
    perform (x >>= f) fs = (.error fault, tree) ↔
      perform x fs = (.error fault, tree) ∨
        ∃ a mid, perform x fs = (.ok a, mid) ∧ perform (f a) mid = (.error fault, tree) := by
  cases hx : perform x fs with
  | mk result mid =>
    cases result with
    | error e => simp [perform_bind_error hx]
    | ok a => simp [perform_bind_ok hx]

theorem perform_executeFrom_eq_error_iff {done : Summary} :
    perform (executeFrom done cs) fs = (.error fault, tree) ↔
      ∃ before c after mid, cs = before ++ c :: after ∧ Runs fs before mid ∧
        perform (execute c) mid = (.error fault, tree) := by
  induction cs generalizing fs done with
  | nil =>
    constructor
    · intro h
      cases h
    · rintro ⟨before, c, after, mid, heq, -⟩
      exact absurd heq.symm (List.append_ne_nil_of_right_ne_nil before (List.cons_ne_nil c after))
  | cons c cs ih =>
    rw [executeFrom, perform_bind_eq_error_iff]
    constructor
    · rintro (h | ⟨⟨⟩, mid, h, hrest⟩)
      · exact ⟨[], c, cs, fs, rfl, .done fs, h⟩
      · obtain ⟨before, d, after, mid', rfl, hruns, hd⟩ := ih.mp hrest
        exact ⟨c :: before, d, after, mid', rfl, .step h hruns, hd⟩
    · rintro ⟨before, d, after, mid, heq, hruns, hd⟩
      cases hruns with
      | done _ =>
        obtain ⟨rfl, rfl⟩ := List.cons.inj heq
        exact .inl hd
      | step h hrest =>
        obtain ⟨rfl, rfl⟩ := List.cons.inj heq
        exact .inr ⟨(), _, h, ih.mpr ⟨_, d, after, mid, rfl, hrest, hd⟩⟩

/-- A batch fails as its first command that fails does, on the tree that the ones before it left. -/
theorem perform_executeAll_eq_error_iff :
    perform (executeAll cs) fs = (.error fault, tree) ↔
      ∃ before c after mid, cs = before ++ c :: after ∧ Runs fs before mid ∧
        perform (execute c) mid = (.error fault, tree) := by
  rw [← @perform_executeFrom_eq_error_iff _ _ _ _ .empty, executeAll, perform_bind_eq_error_iff]
  constructor
  · rintro (h | ⟨_, _, -, h⟩)
    · exact h
    · cases h
  · exact .inl

theorem Copies.failing_eq (h : Copies fs source target result tree) :
    tree.failing = fs.failing := by
  cases h with
  | blocked _ => rfl
  | missing _ _ => exact withParent_failing fs target
  | rejected _ _ _ => exact withParent_failing fs target
  | copied _ _ _ => exact withParent_failing fs target

theorem Executes.failing_eq (h : Executes fs c result tree) : tree.failing = fs.failing := by
  cases h with
  | moveFailed _ h => exact h.failing_eq
  | copyFailed _ h => exact h.failing_eq
  | moved _ h => exact h.failing_eq
  | copied _ h => exact h.failing_eq
  | _ => rfl

theorem Runs.rejectsWrites_eq (h : Runs fs cs tree) (p : Path) :
    tree.rejectsWrites p = fs.rejectsWrites p := by
  induction h with
  | done _ => rfl
  | step hc _ ih => rw [ih, rejectsWrites, (executes_of_perform hc).failing_eq, rejectsWrites]

/-! ## What may be the matter with a target -/

/-- The faults that a deletion, move or copy of a file that is there may end with. -/
inductive Obstructed (fs : MemoryFs) (c : Command) : Fault → Prop
  | ontoItself {target : Path} (ht : target ∈ c.target?)
      (h : c.source.normalize = target.normalize) :
      Obstructed fs c (.sameSourceAndTarget c.kind c.source)
  | blocked {target dir file : Path} (ht : target ∈ c.target?) (h : fs.Blocked target dir file) :
      Obstructed fs c (.io .createDirectory dir (.fileInTheWay file))
  | rejected {target : Path} {operation : Operation} (ht : target ∈ c.target?)
      (ho : operation = .copyTo ∨ operation = .finishWriting) (hr : fs.rejectsWrites target) :
      Obstructed fs c (.io operation target (.writeRejected target))

theorem Copies.obstructed (h : Copies fs c.source target (.error fault) tree)
    (hs : fs.exists? c.source) (ht : target ∈ c.target?) : Obstructed fs c fault := by
  cases h with
  | blocked hblocked => exact .blocked ht hblocked
  | missing hmissing _ =>
    obtain ⟨content, hcontent⟩ := exists?_iff.mp hs
    rw [hmissing] at hcontent
    cases hcontent
  | rejected _ hr _ =>
    refine .rejected ht ?_ hr
    split
    · exact .inr rfl
    · exact .inl rfl

theorem Executes.obstructed (h : Executes fs c (.error fault) tree) (hs : fs.exists? c.source)
    (hc : c.kind ≠ .create) : Obstructed fs c fault := by
  cases h with
  | absent habsent => exact absurd hs (by simp [Command.source, habsent])
  | moveRefused hsame => exact .ontoItself rfl hsame
  | copyRefused hsame => exact .ontoItself rfl hsame
  | moveFailed _ hcopy => exact hcopy.obstructed hs rfl
  | copyFailed _ hcopy => exact hcopy.obstructed hs rfl
  | createRejected _ => exact absurd rfl hc
  | createOutside _ _ => exact absurd rfl hc

end Relayout.MemoryFs
