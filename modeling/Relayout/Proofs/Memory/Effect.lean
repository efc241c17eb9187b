import Relayout.Proofs.Memory.Outcomes

/-!
# What commands do to the files

A command that succeeds acts on the contents of a tree as a function, whatever directories had to be
made for it. A batch that succeeds is the composition of these functions.
-/

namespace Relayout

namespace Command

/-- Where a command puts a file that is there already. -/
def target? : Command → Option Path
  | .move _ target | .copy _ target => some target
  | .delete _ | .create _ => none

def consumes : Command → Bool
  | .delete _ | .move _ _ => true
  | .copy _ _ | .create _ => false

/-- The contents that a command makes of the contents at each place. -/
def effect (read : Path → Option Bytes) (p : Path) : Command → Option Bytes
  | .delete q => if q.Same p then none else read p
  | .create q => if q.Same p then some [] else read p
  | .copy source target => if target.Same p then read source else read p
  | .move source target =>
    if source.Same p then none else if target.Same p then read source else read p

section

variable {read : Path → Option Bytes} {c : Command} {p target : Path}

theorem kind_ne_create (ht : target ∈ c.target?) : c.kind ≠ .create := by
  cases c with
  | create _ => cases ht
  | delete _ => exact Kind.noConfusion
  | move _ _ => exact Kind.noConfusion
  | copy _ _ => exact Kind.noConfusion

theorem effect_of_apart (hs : ¬ c.source.Same p) (ht : ∀ q ∈ c.target?, ¬ q.Same p) :
    c.effect read p = read p := by
  cases c with
  | delete _ => exact if_neg hs
  | create _ => exact if_neg hs
  | copy _ q => exact if_neg (ht q rfl)
  | move _ q => exact (if_neg hs).trans (if_neg (ht q rfl))

theorem effect_target (ht : target ∈ c.target?) (hs : ¬ c.source.Same target) :
    c.effect read target = read c.source := by
  cases c with
  | delete _ => cases ht
  | create _ => cases ht
  | copy _ _ =>
    cases ht
    exact if_pos (Path.Same.refl target)
  | move _ _ =>
    cases ht
    exact (if_neg hs).trans (if_pos (Path.Same.refl target))

theorem effect_source_consumed (hc : c.consumes) : c.effect read c.source = none := by
  cases c with
  | delete p => exact if_pos (Path.Same.refl p)
  | move p _ => exact if_pos (Path.Same.refl p)
  | create _ => cases hc
  | copy _ _ => cases hc

theorem effect_source_kept (hk : c.kind ≠ .create) (hc : c.consumes = false)
    (ht : ∀ q ∈ c.target?, ¬ q.Same c.source) : c.effect read c.source = read c.source := by
  cases c with
  | delete _ => cases hc
  | move _ _ => cases hc
  | create _ => exact absurd rfl hk
  | copy _ q => exact if_neg (ht q rfl)

end

end Command

namespace MemoryFs

open Execution

variable {fs mid tree : MemoryFs} {c : Command} {cs ds : List Command} {source target : Path}

theorem Copies.read?_eq (h : Copies fs source target (.ok ()) tree) (p : Path) :
    tree.read? p = if target.Same p then fs.read? source else fs.read? p := by
  cases h with
  | copied hs _ _ => rw [read?_filled, hs]

theorem Executes.read?_eq (h : Executes fs c (.ok ()) tree) (p : Path) :
    tree.read? p = c.effect fs.read? p := by
  cases h with
  | deleted _ => exact read?_removed fs _ p
  | moved _ hcopy => rw [read?_removed, hcopy.read?_eq, Command.effect]
  | copied _ hcopy => rw [hcopy.read?_eq, Command.effect]
  | created _ _ => exact read?_store fs.count _ p []

theorem Executes.exists_source (h : Executes fs c (.ok ()) tree) (hc : c.kind ≠ .create) :
    ∃ content, fs.read? c.source = some content := by
  cases h with
  | deleted he => exact exists?_iff.mp he
  | moved _ hcopy =>
    cases hcopy with
    | copied hs _ _ => exact ⟨_, hs⟩
  | copied _ hcopy =>
    cases hcopy with
    | copied hs _ _ => exact ⟨_, hs⟩
  | created _ _ => exact absurd rfl hc

theorem Executes.target_apart (h : Executes fs c (.ok ()) tree) (ht : target ∈ c.target?) :
    ¬ c.source.Same target := by
  cases h with
  | deleted _ => cases ht
  | moved hd _ =>
    cases ht
    exact fun hs => hd hs.normalize_eq
  | copied hd _ =>
    cases ht
    exact fun hs => hd hs.normalize_eq
  | created _ _ => cases ht

inductive Runs : MemoryFs → List Command → MemoryFs → Prop
  | done (fs : MemoryFs) : Runs fs [] fs
  | step {fs mid tree : MemoryFs} {c : Command} {cs : List Command}
      (h : perform (execute c) fs = (.ok (), mid)) (hrest : Runs mid cs tree) :
      Runs fs (c :: cs) tree

theorem executes_of_perform {result : Except Fault Unit}
    (h : perform (execute c) fs = (result, tree)) : Executes fs c result tree := by
  have hc := perform_execute fs c
  rwa [h] at hc

theorem perform_executeFrom_eq_ok_iff {done summary : Summary} :
    perform (executeFrom done cs) fs = (.ok summary, tree) ↔
      Runs fs cs tree ∧ summary = cs.foldl (fun s c => s.record c.kind) done := by
  induction cs generalizing fs done with
  | nil =>
    constructor
    · intro h
      cases h
      exact ⟨.done _, rfl⟩
    · rintro ⟨⟨⟩, rfl⟩
      rfl
  | cons c cs ih =>
    rw [executeFrom, perform_bind_eq_ok_iff]
    constructor
    · rintro ⟨⟨⟩, mid, h, hrest⟩
      obtain ⟨hruns, hs⟩ := ih.mp hrest
      exact ⟨.step h hruns, hs⟩
    · rintro ⟨hruns, hs⟩
      cases hruns with
      | step h hrest => exact ⟨(), _, h, ih.mpr ⟨hrest, hs⟩⟩

theorem perform_executeAll_eq_ok_iff {summary : Summary} :
    perform (executeAll cs) fs = (.ok summary, tree) ↔
      Runs fs cs tree ∧ summary = cs.foldl (fun s c => s.record c.kind) .empty := by
  rw [← perform_executeFrom_eq_ok_iff, executeAll, perform_bind_eq_ok_iff]
  constructor
  · rintro ⟨result, mid, h, hrest⟩
    cases hrest
    exact h
  · intro h
    exact ⟨summary, tree, h, rfl⟩

theorem runs_append_iff :
    Runs fs (cs ++ ds) tree ↔ ∃ mid, Runs fs cs mid ∧ Runs mid ds tree := by
  induction cs generalizing fs with
  | nil =>
    constructor
    · intro h
      exact ⟨fs, .done fs, h⟩
    · rintro ⟨mid, ⟨⟩, h⟩
      exact h
  | cons c cs ih =>
    constructor
    · intro h
      cases h with
      | step h hrest =>
        obtain ⟨mid, hcs, hds⟩ := ih.mp hrest
        exact ⟨mid, .step h hcs, hds⟩
    · rintro ⟨mid, hcs, hds⟩
      cases hcs with
      | step h hrest => exact .step h (ih.mpr ⟨mid, hrest, hds⟩)

end MemoryFs

end Relayout
