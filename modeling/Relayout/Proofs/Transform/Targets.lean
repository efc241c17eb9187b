import Relayout.Proofs.Execution
import Relayout.Proofs.Transform.Compilation

/-!
# Targets are never their sources

A transform compares the text of a target with that of the file, and a command compares both after
normalizing them. Whatever the rules write, putting the parts of a path together gives a normalized
text. So the two comparisons agree on normalized paths, and no command that is planned for them is
refused.
-/

namespace Relayout

/-- Parts may hold any text, separators and `..` among it, and still make a canonical path. -/
theorem Parts.canonical_toText (p : Parts) : (Path.ofText p.toText).Canonical := by
  have hsep : ∀ piece ∈ p.dirs.flatMap (Text.pieces '/') ++ Text.pieces '/' p.base,
      '/' ∉ piece := by
    intro piece hpiece
    rcases List.mem_append.mp hpiece with hpiece | hpiece
    · obtain ⟨dir, -, hpiece⟩ := List.mem_flatMap.mp hpiece
      exact Text.not_mem_of_mem_pieces hpiece
    · exact Text.not_mem_of_mem_pieces hpiece
  have hstacked : Lexical.Stacked p.rooted (Lexical.resolve p.rooted
      (p.dirs.flatMap (Text.pieces '/') ++ Text.pieces '/' p.base)).reverse :=
    Lexical.stacked_resolve hsep
  have habsolute : (Path.ofText p.toText).isAbsolute = p.rooted := by
    rw [Path.isAbsolute_eq, Path.text_ofText]
    exact Lexical.decide_head?_render (fun piece => Lexical.ne_nil_of_mem_resolve hsep)
      fun piece hpiece => hsep piece (Lexical.mem_of_mem_resolve hpiece)
  rw [← habsolute] at hstacked
  exact Path.canonical_of_render hstacked (by rw [habsolute, Path.text_ofText]; rfl)

namespace Transform

open Execution MemoryFs

variable {t : Transform} {p target : Path} {c : Command}

theorem exists_rules_of_target (hc : t.commandFor? p = some c) (ht : target ∈ c.target?) :
    ∃ rules, target = .ofText (Rule.destination rules p.parts) ∧ target.text ≠ p.text := by
  rcases commandFor?_eq_some hc with ⟨rfl, -⟩ | ⟨rfl, -, hne, -⟩ | ⟨rfl, -, -, hne, -⟩
  · cases ht
  · cases ht
    exact ⟨t.rules.replace, rfl, by rwa [Path.text_ofText]⟩
  · cases ht
    exact ⟨t.rules.copy, rfl, by rwa [Path.text_ofText]⟩

/-- The target of a file with a normalized path is normalized and another path, whatever the rules
write. So no move or copy that is planned for such a file is refused: on a tree in memory nor on any
other file system. -/
theorem planned_never_refused (hp : p.normalize = p) (hc : t.commandFor? p = some c)
    (ht : target ∈ c.target?) :
    c.source = p ∧ target.normalize = target ∧ target.text ≠ p.text ∧
      target.normalize ≠ p.normalize ∧ (∀ fs, ¬ Refused fs c) ∧
      ∀ {m : Type → Type} {Reader Writer : Type} [Monad m] [LawfulMonad m] [Journal m]
        [FileSystem m Reader Writer], FailsInCalls (execute c : ExceptT Fault m Unit) := by
  have hsource := source_eq_of_commandFor? hc
  obtain ⟨rules, htarget, hne⟩ := exists_rules_of_target hc ht
  have hnormal : target.normalize = target := by
    rw [htarget]
    exact Path.normalize_eq_self_iff.mpr ⟨Path.isText_ofText _, Parts.canonical_toText _⟩
  have hapart : target.normalize ≠ p.normalize := by
    rw [hnormal, hp]
    exact fun h => hne (congrArg Path.text h)
  refine ⟨hsource, hnormal, hne, hapart, ?_, ?_⟩
  · intro fs
    rw [refused_iff ht, hsource]
    exact hapart.symm
  · intro m Reader Writer _ _ _ _
    refine .execute fun q hq => ?_
    rw [← Option.mem_unique ht hq, hsource]
    exact hapart.symm

/-- Rules that write what is no plain name: two steps up, separators, a `.` and nothing at all. -/
def detouring : Config :=
  { moving pagesToApp with
    replaceRules := none
    copyRules := some [.replaceDirectoryName "docs".toList "../..".toList,
      .appendDirectoryName "x//./y/".toList (some "index".toList), .replaceFileRoot []] }

theorem detour_planned :
    ∃ t c, ofConfig detouring = .ok t ∧ t.commandFor? (.ofString "/srv/docs/a.md") = some c ∧
      c = .copy (.ofString "/srv/docs/a.md") (.ofString "/x/y/.md") ∧
      (Path.ofString "/x/y/.md").normalize = (.ofString "/x/y/.md") ∧
      ¬ Refused (MemoryFs.empty.withFile (.ofString "/srv/docs/a.md") []) c ∧
      FailsInCalls (execute c : ExceptT Fault (StateM MemoryFs) Unit) := by
  have hcompiled : ofConfig detouring =
      .ok ⟨"**/*".toList, [], detouring.ruleSets, []⟩ :=
    ofConfig_eq_ok_iff.mpr ⟨⟨rfl, rfl⟩, .inl rfl, rfl⟩
  have hplanned : commandFor? ⟨"**/*".toList, [], detouring.ruleSets, []⟩
      (.ofString "/srv/docs/a.md") =
        some (.copy (.ofString "/srv/docs/a.md") (.ofString "/x/y/.md")) := by decide
  obtain ⟨-, hnormal, -, -, hmemory, hcalls⟩ :=
    planned_never_refused (by decide) hplanned (rfl : (Path.ofString "/x/y/.md") ∈ _)
  exact ⟨_, _, hcompiled, hplanned, rfl, hnormal, hmemory _, hcalls⟩

end Transform

end Relayout
