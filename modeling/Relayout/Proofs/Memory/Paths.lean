import Relayout.Proofs.Memory.Effect

/-!
# The paths of a tree

A file keeps the path under which it was first put until it is removed. After a batch, the paths of
a tree are those that it had before and that were not consumed, and targets.
-/

namespace Relayout

namespace PathMap

variable {α : Type} {m : PathMap α} {p q : Path} {a : α}

theorem get?_of_mem {e : Path × α} (he : e ∈ m.entries) : m.get? e.1 = some e.2 := by
  obtain ⟨entries, hincreasing⟩ := m
  change e ∈ entries at he
  change find? e.1 entries = some e.2
  induction entries with
  | nil => cases he
  | cons head rest ih =>
    obtain ⟨hbefore, hrest⟩ := List.pairwise_cons.mp hincreasing
    rcases List.mem_cons.mp he with rfl | he
    · exact if_pos (Path.Same.refl e.1)
    · exact (if_neg (hbefore e he).not_same).trans (ih hrest he)

theorem exists_mem_of_get? (h : m.get? p = some a) :
    ∃ e ∈ m.entries, e.1.Same p ∧ e.2 = a := by
  obtain ⟨entries, _⟩ := m
  change find? p entries = some a at h
  change ∃ e ∈ entries, e.1.Same p ∧ e.2 = a
  induction entries with
  | nil => cases h
  | cons head rest ih =>
    obtain ⟨q, b⟩ := head
    unfold find? at h
    split at h
    next hsame => exact ⟨(q, b), .head rest, hsame, Option.some.inj h⟩
    · obtain ⟨e, he, ha⟩ := ih (List.pairwise_cons.mp ‹_›).2 h
      exact ⟨e, .tail _ he, ha⟩

theorem mem_paths_put {entries : List (Path × α)} (h : p ∈ entries.map (·.1)) :
    p ∈ (put q a entries).map (·.1) := by
  induction entries with
  | nil => cases h
  | cons head rest ih =>
    obtain ⟨r, b⟩ := head
    unfold put
    rcases List.mem_cons.mp h with rfl | h
    · split
      · exact .head _
      · split
        · exact .tail q (.head _)
        · exact .head _
    · split
      · exact .tail r h
      · split
        · exact .tail q (.tail r h)
        · exact .tail r (ih h)

theorem mem_paths_insert (h : p ∈ m.paths) : p ∈ (m.insert q a).paths := mem_paths_put h

theorem mem_paths_of_insert (h : p ∈ (m.insert q a).paths) : p = q ∨ p ∈ m.paths := by
  obtain ⟨e, he, rfl⟩ := List.mem_map.mp h
  rcases mem_put he with heq | ⟨b, hb⟩
  · exact .inl heq
  · exact .inr (List.mem_map.mpr ⟨_, hb, rfl⟩)

theorem mem_paths_erase_iff : p ∈ (m.erase q).paths ↔ p ∈ m.paths ∧ ¬ p.Same q := by
  change p ∈ (drop q m.entries).map (·.1) ↔ p ∈ m.entries.map (·.1) ∧ ¬ p.Same q
  rw [drop, List.mem_map, List.mem_map]
  constructor
  · rintro ⟨e, he, rfl⟩
    obtain ⟨he, hq⟩ := List.mem_filter.mp he
    exact ⟨⟨e, he, rfl⟩, of_decide_eq_true hq⟩
  · rintro ⟨⟨e, he, rfl⟩, hq⟩
    exact ⟨e, List.mem_filter.mpr ⟨he, decide_eq_true hq⟩, rfl⟩

theorem pairwise_paths (m : PathMap α) : m.paths.Pairwise Path.Before :=
  List.pairwise_map.mpr m.increasing

end PathMap

namespace MemoryFs

open Execution

variable {fs tree : MemoryFs} {c : Command} {cs : List Command} {p source target : Path}

theorem pairwise_paths (fs : MemoryFs) : fs.paths.Pairwise Path.Before :=
  PathMap.pairwise_paths fs.files

theorem exists?_of_mem_paths (h : p ∈ fs.paths) : fs.exists? p := by
  obtain ⟨e, he, rfl⟩ := List.mem_map.mp h
  exact exists?_iff.mpr ⟨e.2, PathMap.get?_of_mem he⟩

theorem exists_mem_paths_of_exists? (h : fs.exists? p) : ∃ q ∈ fs.paths, q.Same p := by
  obtain ⟨content, hcontent⟩ := exists?_iff.mp h
  obtain ⟨e, he, hsame, -⟩ := PathMap.exists_mem_of_get? hcontent
  exact ⟨e.1, List.mem_map.mpr ⟨e, he, rfl⟩, hsame⟩

theorem Copies.files_eq (h : Copies fs source target (.ok ()) tree) :
    ∃ content, tree.files = (fs.files.insert target []).insert target content := by
  cases h with
  | @copied content _ _ _ =>
    refine ⟨content, ?_⟩
    rw [← withParent_files fs target]
    rfl

theorem Copies.mem_paths (h : Copies fs source target (.ok ()) tree) (hp : p ∈ fs.paths) :
    p ∈ tree.paths := by
  obtain ⟨content, hfiles⟩ := h.files_eq
  rw [paths, hfiles]
  exact PathMap.mem_paths_insert (PathMap.mem_paths_insert hp)

theorem Copies.mem_paths_or_eq (h : Copies fs source target (.ok ()) tree) (hp : p ∈ tree.paths) :
    p ∈ fs.paths ∨ p = target := by
  obtain ⟨content, hfiles⟩ := h.files_eq
  rw [paths, hfiles] at hp
  rcases PathMap.mem_paths_of_insert hp with heq | hp
  · exact .inr heq
  · exact (PathMap.mem_paths_of_insert hp).symm

theorem Executes.mem_paths (h : Executes fs c (.ok ()) tree) (hp : p ∈ fs.paths)
    (hc : c.consumes → ¬ c.source.Same p) : p ∈ tree.paths := by
  cases h with
  | deleted _ => exact PathMap.mem_paths_erase_iff.mpr ⟨hp, fun hs => hc rfl hs.symm⟩
  | moved _ hcopy =>
    exact PathMap.mem_paths_erase_iff.mpr ⟨hcopy.mem_paths hp, fun hs => hc rfl hs.symm⟩
  | copied _ hcopy => exact hcopy.mem_paths hp
  | created _ _ => exact PathMap.mem_paths_insert hp

theorem Executes.mem_paths_or_target (h : Executes fs c (.ok ()) tree) (hc : c.kind ≠ .create)
    (hp : p ∈ tree.paths) : p ∈ fs.paths ∨ p ∈ c.target? := by
  cases h with
  | deleted _ => exact .inl (PathMap.mem_paths_erase_iff.mp hp).1
  | moved _ hcopy =>
    rcases hcopy.mem_paths_or_eq (PathMap.mem_paths_erase_iff.mp hp).1 with hp | rfl
    · exact .inl hp
    · exact .inr rfl
  | copied _ hcopy =>
    rcases hcopy.mem_paths_or_eq hp with hp | rfl
    · exact .inl hp
    · exact .inr rfl
  | created _ _ => exact absurd rfl hc

/-- A path stays as long as its file is not consumed. -/
theorem Runs.mem_paths (h : Runs fs cs tree) (hp : p ∈ fs.paths)
    (hcs : ∀ c ∈ cs, c.consumes → ¬ c.source.Same p) : p ∈ tree.paths := by
  induction h with
  | done _ => exact hp
  | @step fs mid tree c cs hc _ ih =>
    have hmid := (executes_of_perform hc).mem_paths hp (hcs c (.head cs))
    exact ih hmid fun d hd => hcs d (.tail c hd)

/-- The paths that come into a tree are targets. -/
theorem Runs.mem_paths_or_target (h : Runs fs cs tree) (hcs : ∀ c ∈ cs, c.kind ≠ .create)
    (hp : p ∈ tree.paths) : p ∈ fs.paths ∨ ∃ c ∈ cs, p ∈ c.target? := by
  induction h with
  | done _ => exact .inl hp
  | @step fs mid tree c cs hc _ ih =>
    rcases ih (fun d hd => hcs d (.tail c hd)) hp with hmid | ⟨d, hd, htarget⟩
    · rcases (executes_of_perform hc).mem_paths_or_target (hcs c (.head cs)) hmid with hfs | ht
      · exact .inl hfs
      · exact .inr ⟨c, .head cs, ht⟩
    · exact .inr ⟨d, .tail c hd, htarget⟩

end MemoryFs

end Relayout
