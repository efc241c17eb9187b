import Relayout.Proofs.Memory.Effect

/-!
# Moves and copies lose nothing

A move or copy that fails leaves all files but its target as they were, and one that succeeds leaves
all files but its source and target as they were. Once a file has been copied it can be removed, so
no move ends half done.
-/

namespace Relayout.MemoryFs

open Execution

variable {fs tree : MemoryFs} {source target : Path} {fault : Fault} {moves : Bool}

/-- What a move or copy that fails leaves of a tree. -/
structure Kept (fs tree : MemoryFs) (source target : Path) : Prop where
  others : ∀ p, ¬ p.Same target → tree.read? p = fs.read? p
  source_kept : tree.read? source = fs.read? source
  target_kept : tree.read? target = fs.read? target ∨ tree.read? target = some []
  dirs : ∀ d, fs.isDir d → tree.isDir d

/-- What a move or copy that succeeds makes of a tree. -/
structure Relocated (fs tree : MemoryFs) (source target : Path) (moves : Bool) : Prop where
  others : ∀ p, ¬ p.Same source → ¬ p.Same target → tree.read? p = fs.read? p
  source_left : tree.read? source = if moves then none else fs.read? source
  target_filled : ∃ content, fs.read? source = some content ∧ tree.read? target = some content
  dirs : ∀ d, fs.isDir d → tree.isDir d

/-- How a move or copy may end. Removing the source is not among the calls that may fail. -/
def Safe (fs : MemoryFs) (source target : Path) (moves : Bool) : Except Fault Unit × MemoryFs → Prop
  | (.error fault, tree) => (∀ p e, fault ≠ .io .removeMoved p e) ∧ Kept fs tree source target
  | (.ok _, tree) => Relocated fs tree source target moves

/-- What a move or copy needs to succeed. -/
structure Ready (fs : MemoryFs) (source target : Path) : Prop where
  distinct : source.normalize ≠ target.normalize
  source_there : fs.exists? source
  writable : fs.rejectsWrites target = false
  unblocked : ∀ dir file, ¬ fs.Blocked target dir file

theorem Kept.refl (fs : MemoryFs) (source target : Path) : Kept fs fs source target :=
  ⟨fun _ _ => rfl, rfl, .inl rfl, fun _ h => h⟩

theorem Copies.kept (h : Copies fs source target (.error fault) tree) (hd : ¬ source.Same target) :
    Kept fs tree source target := by
  cases h with
  | blocked _ => exact ⟨fun _ _ => rfl, rfl, .inl rfl, fun _ h => h⟩
  | missing _ _ =>
    exact ⟨fun p _ => read?_withParent fs target p, read?_withParent fs target source,
      .inl (read?_withParent fs target target), fun _ h => isDir_withParent h target⟩
  | rejected _ _ _ =>
    have hothers : ∀ p, ¬ p.Same target → (fs.opened target).read? p = fs.read? p := by
      intro p hp
      rw [read?_opened, if_neg fun h => hp h.symm]
    refine ⟨hothers, hothers source hd, .inr ?_, fun _ h => isDir_withParent h target⟩
    rw [read?_opened, if_pos (Path.Same.refl target)]

theorem Copies.not_removeMoved (h : Copies fs source target (.error fault) tree) (p : Path)
    (e : SystemError) : fault ≠ .io .removeMoved p e := by
  cases h with
  | blocked _ => simp
  | missing _ _ => simp
  | rejected _ _ _ => split <;> simp

theorem Copies.isDir (h : Copies fs source target (.ok ()) tree) {d : Path} (hd : fs.isDir d) :
    tree.isDir d := by
  cases h with
  | copied _ _ _ => exact isDir_withParent hd target

theorem Copies.relocated_copy (h : Copies fs source target (.ok ()) tree)
    (hd : ¬ source.Same target) : Relocated fs tree source target false := by
  refine ⟨?_, ?_, ?_, fun d hdir => h.isDir hdir⟩
  · intro p _ hp
    rw [h.read?_eq, if_neg fun hs => hp hs.symm]
  · rw [h.read?_eq, if_neg fun hs => hd hs.symm]
    rfl
  · obtain ⟨content, hs⟩ : ∃ content, fs.read? source = some content := by
      cases h with
      | copied hs _ _ => exact ⟨_, hs⟩
    refine ⟨content, hs, ?_⟩
    rw [h.read?_eq, if_pos (Path.Same.refl target), hs]

theorem Copies.relocated_move (h : Copies fs source target (.ok ()) tree)
    (hd : ¬ source.Same target) : Relocated fs (tree.removed source) source target true := by
  have hcopy := h.relocated_copy hd
  obtain ⟨content, hs, ht⟩ := hcopy.target_filled
  refine ⟨?_, ?_, ⟨content, hs, ?_⟩, hcopy.dirs⟩
  · intro p hp hp'
    rw [read?_removed, if_neg fun h => hp h.symm, hcopy.others p hp hp']
  · rw [read?_removed, if_pos (Path.Same.refl source)]
    rfl
  · rw [read?_removed, if_neg hd, ht]

theorem Copies.eq_ok_iff {result : Except Fault Unit} (h : Copies fs source target result tree)
    (hd : source.normalize ≠ target.normalize) : result = .ok () ↔ Ready fs source target := by
  cases h with
  | blocked hblocked =>
    refine ⟨nofun, ?_⟩
    intro hready
    exact absurd hblocked (hready.unblocked _ _)
  | missing hs _ =>
    refine ⟨nofun, ?_⟩
    intro hready
    obtain ⟨content, hcontent⟩ := exists?_iff.mp hready.source_there
    rw [hs] at hcontent
    cases hcontent
  | rejected _ hr _ =>
    refine ⟨nofun, ?_⟩
    intro hready
    rw [hready.writable] at hr
    cases hr
  | copied hs hr hn => exact ⟨fun _ => ⟨hd, exists?_iff.mpr ⟨_, hs⟩, hr, hn⟩, fun _ => rfl⟩

theorem Executes.move_ok_iff {result : Except Fault Unit}
    (h : Executes fs (.move source target) result tree) :
    result = .ok () ↔ Ready fs source target := by
  cases h with
  | moveRefused hsame => exact ⟨nofun, fun hready => absurd hsame hready.distinct⟩
  | moveFailed hd hcopy => exact hcopy.eq_ok_iff hd
  | moved hd hcopy => exact hcopy.eq_ok_iff hd

theorem Executes.copy_ok_iff {result : Except Fault Unit}
    (h : Executes fs (.copy source target) result tree) :
    result = .ok () ↔ Ready fs source target := by
  cases h with
  | copyRefused hsame => exact ⟨nofun, fun hready => absurd hsame hready.distinct⟩
  | copyFailed hd hcopy => exact hcopy.eq_ok_iff hd
  | copied hd hcopy => exact hcopy.eq_ok_iff hd

/-- Every way in which a move or copy ends is safe, and one that meets its conditions succeeds. Once
its copy is made, a move succeeds. -/
theorem relocation_safe (fs : MemoryFs) (source target : Path) :
    (Safe fs source target true (perform (execute (.move source target)) fs) ∧
      Safe fs source target false (perform (execute (.copy source target)) fs)) ∧
    (source.normalize ≠ target.normalize → (perform (copyFile source target) fs).1 = .ok () →
      (perform (execute (.move source target)) fs).1 = .ok ()) ∧
    ((perform (execute (.move source target)) fs).1 = .ok () ↔ Ready fs source target) ∧
    ((perform (execute (.copy source target)) fs).1 = .ok () ↔ Ready fs source target) := by
  have hsame : source.normalize ≠ target.normalize → ¬ source.Same target :=
    fun hd hs => hd hs.normalize_eq
  have hmove := perform_execute fs (.move source target)
  have hcopy := perform_execute fs (.copy source target)
  have hmove_ok := hmove.move_ok_iff
  refine ⟨⟨?_, ?_⟩, ?_, hmove_ok, hcopy.copy_ok_iff⟩
  · generalize perform (execute (.move source target)) fs = outcome at hmove ⊢
    obtain ⟨result, tree⟩ := outcome
    cases hmove with
    | moveRefused _ => exact ⟨by simp, .refl _ _ _⟩
    | moveFailed hd h => exact ⟨h.not_removeMoved, h.kept (hsame hd)⟩
    | moved hd h => exact h.relocated_move (hsame hd)
  · generalize perform (execute (.copy source target)) fs = outcome at hcopy ⊢
    obtain ⟨result, tree⟩ := outcome
    cases hcopy with
    | copyRefused _ => exact ⟨by simp, .refl _ _ _⟩
    | copyFailed hd h => exact ⟨h.not_removeMoved, h.kept (hsame hd)⟩
    | copied hd h => exact h.relocated_copy (hsame hd)
  · intro hd hcopied
    exact hmove_ok.mpr (((perform_copyFile fs source target).eq_ok_iff hd).mp hcopied)

end Relayout.MemoryFs
