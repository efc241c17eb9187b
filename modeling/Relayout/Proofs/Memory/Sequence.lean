import Relayout.Proofs.Memory.Failure

/-!
# Batches in turn

A batch is its commands one after the other, so cutting it in two and carrying out the second part
where the first succeeds is carrying out the whole. Its summary counts the commands of each kind. A
batch that fails ends as its first command that fails does, and what comes after that is not begun.
-/

namespace Relayout

namespace Summary

variable {s t : Summary}

/-- Counts what two batches have carried out together. -/
def plus (s t : Summary) : Summary :=
  ⟨s.deleted + t.deleted, s.moved + t.moved, s.copied + t.copied, s.created + t.created⟩

instance : Add Summary := ⟨plus⟩

/-- The counter for the commands of a kind. -/
def counted (s : Summary) : Command.Kind → Nat
  | .delete => s.deleted
  | .move => s.moved
  | .copy => s.copied
  | .create => s.created

theorem eq_of_counted (h : ∀ kind, s.counted kind = t.counted kind) : s = t := by
  obtain ⟨_, _, _, _⟩ := s
  obtain ⟨_, _, _, _⟩ := t
  rw [mk.injEq]
  exact ⟨h .delete, h .move, h .copy, h .create⟩

theorem counted_add (s t : Summary) (kind : Command.Kind) :
    (s + t).counted kind = s.counted kind + t.counted kind := by
  cases kind <;> rfl

theorem counted_record (s : Summary) (kind other : Command.Kind) :
    (s.record kind).counted other = s.counted other + if kind = other then 1 else 0 := by
  cases kind <;> cases other <;> rfl

theorem add_empty (s : Summary) : s + empty = s :=
  eq_of_counted fun kind => by cases kind <;> rfl

theorem record_add (s t : Summary) (kind : Command.Kind) :
    (s + t).record kind = s + t.record kind := by
  refine eq_of_counted fun other => ?_
  rw [counted_record, counted_add, counted_add, counted_record, Nat.add_assoc]

theorem total_record (s : Summary) (kind : Command.Kind) :
    (s.record kind).total = s.total + 1 := by
  cases kind <;> simp only [record, total] <;> omega

/-- The summary of commands that have all been carried out. -/
def ofCommands (cs : List Command) : Summary := cs.foldl (fun s c => s.record c.kind) empty

theorem counted_foldl_record (s : Summary) (cs : List Command) (kind : Command.Kind) :
    (cs.foldl (fun s c => s.record c.kind) s).counted kind =
      s.counted kind + cs.countP (·.kind = kind) := by
  induction cs generalizing s with
  | nil => rfl
  | cons c cs ih =>
    rw [List.foldl_cons, ih, counted_record, List.countP_cons, Nat.add_assoc]
    simp [Nat.add_comm]

theorem total_foldl_record (s : Summary) (cs : List Command) :
    (cs.foldl (fun s c => s.record c.kind) s).total = s.total + cs.length := by
  induction cs generalizing s with
  | nil => rfl
  | cons c cs ih =>
    rw [List.foldl_cons, ih, total_record, List.length_cons]
    omega

theorem counted_ofCommands (cs : List Command) (kind : Command.Kind) :
    (ofCommands cs).counted kind = cs.countP (·.kind = kind) := by
  have hempty : empty.counted kind = 0 := by cases kind <;> rfl
  rw [ofCommands, counted_foldl_record, hempty, Nat.zero_add]

theorem total_ofCommands (cs : List Command) : (ofCommands cs).total = cs.length := by
  rw [ofCommands, total_foldl_record]
  exact Nat.zero_add cs.length

theorem eq_ofCommands_iff {cs : List Command} :
    s = ofCommands cs ↔
      (∀ kind, s.counted kind = cs.countP (·.kind = kind)) ∧ s.total = cs.length := by
  constructor
  · rintro rfl
    exact ⟨counted_ofCommands cs, total_ofCommands cs⟩
  · rintro ⟨hcounted, -⟩
    exact eq_of_counted fun kind => (hcounted kind).trans (counted_ofCommands cs kind).symm

end Summary

namespace Execution

variable {m : Type → Type} {Reader Writer : Type} [Monad m] [LawfulMonad m] [Journal m]
  [FileSystem m Reader Writer]

/-- On whatever file system, a batch goes on with its second part from what its first part gives. -/
theorem executeFrom_append (done : Summary) (cs ds : List Command) :
    (executeFrom done (cs ++ ds) : ExceptT Fault m Summary) =
      executeFrom done cs >>= fun first => executeFrom first ds := by
  induction cs generalizing done with
  | nil => rw [List.nil_append, executeFrom, pure_bind]
  | cons c cs ih => simp only [List.cons_append, executeFrom, ih, bind_assoc]

/-- What was counted before a batch is added to what it counts. -/
theorem executeFrom_add (earlier done : Summary) (cs : List Command) :
    (executeFrom (earlier + done) cs : ExceptT Fault m Summary) =
      (earlier + ·) <$> executeFrom done cs := by
  induction cs generalizing done with
  | nil => exact (map_pure _ done).symm
  | cons c cs ih => simp only [executeFrom, Summary.record_add, ih, map_bind]

end Execution

namespace MemoryFs

open Execution

variable {fs tree : MemoryFs} {cs ds : List Command}

theorem perform_executeAll (cs : List Command) (fs : MemoryFs) :
    perform (executeAll cs) fs = perform (executeFrom .empty cs) fs := by
  unfold executeAll
  cases h : perform (executeFrom .empty cs) fs with
  | mk result tree =>
    cases result with
    | error fault => exact perform_bind_error h
    | ok summary =>
      rw [perform_bind_ok h, perform_bind_ok (perform_note _)]
      rfl

/-- Carries out one batch and, where it succeeds, another on the tree that it leaves. -/
def performBoth (cs ds : List Command) (fs : MemoryFs) : Except Fault Summary × MemoryFs :=
  match perform (executeAll cs) fs with
  | (.error fault, tree) => (.error fault, tree)
  | (.ok first, mid) =>
    match perform (executeAll ds) mid with
    | (.error fault, tree) => (.error fault, tree)
    | (.ok second, tree) => (.ok (first + second), tree)

theorem perform_executeFrom (done : Summary) (ds : List Command) (fs : MemoryFs) :
    perform (executeFrom done ds) fs =
      match perform (executeAll ds) fs with
      | (.error fault, tree) => (.error fault, tree)
      | (.ok summary, tree) => (.ok (done + summary), tree) := by
  rw [perform_executeAll, ← Summary.add_empty done, executeFrom_add, ← bind_pure_comp]
  cases h : perform (executeFrom .empty ds) fs with
  | mk result tree =>
    cases result with
    | error fault => exact perform_bind_error h
    | ok summary =>
      rw [perform_bind_ok h, Summary.add_empty]
      rfl

theorem perform_executeAll_append (cs ds : List Command) (fs : MemoryFs) :
    perform (executeAll (cs ++ ds)) fs = performBoth cs ds fs := by
  rw [performBoth, perform_executeAll, perform_executeAll, executeFrom_append]
  cases h : perform (executeFrom .empty cs) fs with
  | mk result mid =>
    cases result with
    | error fault => exact perform_bind_error h
    | ok first => rw [perform_bind_ok h, perform_executeFrom]

theorem perform_executeAll_stops {before : List Command} {c : Command} {mid : MemoryFs}
    {fault : Fault} (hbefore : Runs fs before mid)
    (hc : perform (execute c) mid = (.error fault, tree)) (others : List Command) :
    perform (executeAll (before ++ c :: others)) fs = (.error fault, tree) :=
  perform_executeAll_eq_error_iff.mpr ⟨before, c, others, mid, rfl, hbefore, hc⟩

/-- A batch cut in two anywhere is its parts in turn. It succeeds exactly where each command does on
the tree left by those before it, and counts them all. It fails exactly where one command does after
others have succeeded: as that one, with the tree that it leaves, whatever was to come next. -/
theorem batches_in_turn (fs : MemoryFs) (cs ds : List Command) :
    perform (executeAll (cs ++ ds)) fs = performBoth cs ds fs ∧
    (∀ summary tree, perform (executeAll cs) fs = (.ok summary, tree) ↔
      Runs fs cs tree ∧ (∀ kind, summary.counted kind = cs.countP (·.kind = kind)) ∧
        summary.total = cs.length) ∧
    ∀ fault tree, perform (executeAll cs) fs = (.error fault, tree) ↔
      ∃ before c after mid, cs = before ++ c :: after ∧ Runs fs before mid ∧
        perform (execute c) mid = (.error fault, tree) ∧
        ∀ others, perform (executeAll (before ++ c :: others)) fs = (.error fault, tree) := by
  refine ⟨perform_executeAll_append cs ds fs, ?_, ?_⟩
  · intro summary tree
    rw [perform_executeAll_eq_ok_iff, ← Summary.ofCommands, Summary.eq_ofCommands_iff]
  · intro fault tree
    rw [perform_executeAll_eq_error_iff]
    constructor
    · rintro ⟨before, c, after, mid, rfl, hbefore, hc⟩
      exact ⟨before, c, after, mid, rfl, hbefore, hc, perform_executeAll_stops hbefore hc⟩
    · rintro ⟨before, c, after, mid, hcs, hbefore, hc, -⟩
      exact ⟨before, c, after, mid, hcs, hbefore, hc⟩

end MemoryFs

end Relayout
