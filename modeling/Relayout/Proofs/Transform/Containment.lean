import Relayout.Proofs.Rule.Effect
import Relayout.Proofs.Transform.Compilation

/-!
# Targets inside the root

The rules of a transform see the whole path of a file, the names of its root included, so a rename
may move a file out of the root. It stays inside exactly when the renames leave every name of the
root as it is.
-/

namespace Relayout

namespace Path

def Within (root p : Path) : Prop := ∃ rest, rest ≠ [] ∧ p.components = root.components ++ rest

theorem not_within {root p : Path} (h : ¬ root.components <+: p.components) : ¬ root.Within p := by
  rintro ⟨rest, -, heq⟩
  exact h ⟨rest, heq.symm⟩

theorem within_ofNames_iff {names rest : List Text} (h : ∀ n ∈ names, n.IsName)
    (hr : ∀ n ∈ rest, n.IsName) :
    (ofNames names).Within (ofNames rest) ↔ ∃ below, below ≠ [] ∧ rest = names ++ below := by
  rw [Within, components_ofNames h, components_ofNames hr]
  constructor
  · rintro ⟨tail, hne, heq⟩
    rw [List.cons_append, List.cons.injEq] at heq
    obtain ⟨left, below, rfl, hleft, hbelow⟩ := List.map_eq_append_iff.mp heq.2
    have hinj : left = names := (List.map_inj_right fun _ _ h =>
      Text.toUtf8_injective (Component.name.inj h)).mp hleft
    refine ⟨below, ?_, by rw [hinj]⟩
    intro hnil
    rw [hnil] at hbelow
    exact hne hbelow.symm
  · rintro ⟨below, hne, rfl⟩
    exact ⟨below.map fun n => .name n.toUtf8, by simpa using hne, by simp⟩

end Path

namespace RuleSpec

/-- All that a rule writes are plain names. -/
def Plain : RuleSpec → Prop
  | replaceDirectoryName _ target => target.IsName
  | appendDirectoryName name _ => name.IsName
  | replaceFileRoot fileRoot => fileRoot.IsName

theorem Plain.compile {s : RuleSpec} {r : Rule} (h : s.Plain) (hc : s.compile? = some r) :
    r.Plain := by
  cases compile?_eq_some_iff.mp hc with
  | replaceDir _ _ => exact h
  | appendDir name _ =>
    split
    · trivial
    · exact h
  | replaceFileRoot _ => exact h

end RuleSpec

namespace Config

def Plain (c : Config) : Prop := ∀ s ∈ c.replaceRules.getD [] ++ c.copyRules.getD [], s.Plain

theorem Plain.compileRules {specs : Option (List RuleSpec)} (h : ∀ s ∈ specs.getD [], s.Plain) :
    ∀ r ∈ Config.compileRules specs, r.Plain := by
  intro r hr
  obtain ⟨s, hs, hc⟩ := List.mem_filterMap.mp hr
  exact (h s hs).compile hc

end Config

namespace Transform

variable {c : Config} {t : Transform} {root p target : Path}

/-- A move or copy that rules with plain names ask for, of a file inside a root. -/
structure PlainRelocation (c : Config) (t : Transform) (root p target : Path) : Prop where
  compiled : ofConfig c = .ok t
  plain : c.Plain
  rooted : root.isAbsolute
  root_normal : root.normalize = root
  file_normal : p.normalize = p
  inside : root.Within p
  asked : t.commandFor? p = some (.move p target) ∨ t.commandFor? p = some (.copy p target)

namespace PlainRelocation

theorem plain_pathRules (h : PlainRelocation c t root p target) : ∀ r ∈ t.pathRules, r.Plain := by
  obtain ⟨-, -, rfl⟩ := ofConfig_eq_ok_iff.mp h.compiled
  intro r hr
  rcases List.mem_append.mp hr with hr | hr
  · exact Config.Plain.compileRules (fun s hs => h.plain s (List.mem_append_left _ hs)) r hr
  · exact Config.Plain.compileRules (fun s hs => h.plain s (List.mem_append_right _ hs)) r hr

theorem exists_names (h : PlainRelocation c t root p target) :
    ∃ names inside : List Text, inside ≠ [] ∧ (∀ n ∈ names ++ inside, n.IsName) ∧
      root = .ofNames names ∧ p = .ofNames (names ++ inside) := by
  obtain ⟨names, hnames, rfl⟩ := Path.exists_ofNames h.rooted h.root_normal
  have hp : p.isAbsolute := by
    obtain ⟨rest, -, heq⟩ := h.inside
    rw [Path.isAbsolute_iff, heq, Path.components_ofNames hnames]
    rfl
  obtain ⟨file, hfile, rfl⟩ := Path.exists_ofNames hp h.file_normal
  obtain ⟨inside, hinside, rfl⟩ := (Path.within_ofNames_iff hnames hfile).mp h.inside
  exact ⟨names, inside, hinside, hfile, rfl, rfl⟩

end PlainRelocation

/-- A target lies inside the root exactly when the renames leave the names of the root as they are.
Two dots must not be appended, as a file root may be: they would be read as the directory above. -/
theorem within_target_iff (h : PlainRelocation c t root p target)
    (hground : Rule.Grounded t.pathRules p.parts.fileRoot) :
    root.Within target ↔
      ∀ n : Text, .name n.toUtf8 ∈ root.components → Rule.rename t.pathRules n = n := by
  have htarget := target_eq_destination h.compiled h.asked
  have hrules := h.plain_pathRules
  obtain ⟨names, inside, hinside, hfile, rfl, rfl⟩ := h.exists_names
  have hnames : ∀ n ∈ names, n.IsName := fun n hn => hfile n (List.mem_append_left _ hn)
  have hne : names ++ inside ≠ [] := fun h => hinside (List.append_eq_nil_iff.mp h).2
  obtain ⟨below, hbelow, hplain, hdest⟩ := Rule.destination_ofNames hfile hne hrules hground
  rw [htarget, hdest]
  rw [Path.ofText_text_ofNames, Path.within_ofNames_iff hnames hplain,
    List.dropLast_append_of_ne_nil hinside, List.map_append, List.append_assoc]
  simp only [Path.name_mem_components_ofNames_iff hnames]
  -- The target begins with the renamed names of the root, so only these are to be compared.
  have hfixed : names.map (Rule.rename t.pathRules) = names ↔
      ∀ n ∈ names, Rule.rename t.pathRules n = n := by
    simpa using @List.map_inj_left _ _ names (Rule.rename t.pathRules) id
  constructor
  · rintro ⟨rest, -, heq⟩ n hn
    have hmap := (List.append_inj heq (List.length_map _)).1
    exact hfixed.mp hmap n hn
  · intro h
    rw [hfixed.mpr h]
    refine ⟨_, ?_, rfl⟩
    intro hnil
    exact hbelow (List.append_eq_nil_iff.mp hnil).2

theorem plain_moving {rule : RuleSpec} (h : rule.Plain) : (moving rule).Plain := by
  intro s hs
  obtain rfl : s = rule := by simpa [moving] using hs
  exact h

def name (s : String) : Path.Component := .name (Text.toUtf8 s.toList)

def intoOwnDirectory : RuleSpec := .appendDirectoryName "@fileRoot".toList (some "index".toList)

theorem relocation_in_site : PlainRelocation (moving pagesToApp) (mover pagesToApp)
    (.ofString "/home/site") (.ofString "/home/site/pages/index.tsx")
    (.ofString "/home/site/app/index.tsx") where
  compiled := ofConfig_moving _
  plain := plain_moving (by decide : Text.IsName "app".toList)
  rooted := rfl
  root_normal := rfl
  file_normal := rfl
  inside := ⟨[name "pages", name "index.tsx"], by decide, by decide⟩
  asked := .inl (by decide)

theorem within_target_in_site :
    (Path.ofString "/home/site").Within (.ofString "/home/site/app/index.tsx") := by
  refine (within_target_iff relocation_in_site (by decide)).mpr ?_
  intro n hn
  have hroot : Path.ofString "/home/site" = .ofNames ["home".toList, "site".toList] := by decide
  rw [hroot, Path.name_mem_components_ofNames_iff (by decide)] at hn
  obtain rfl | rfl : n = "home".toList ∨ n = "site".toList := by simpa using hn
  · decide
  · decide

/-- A rename that meets the root leads out of it, and so does a file root of two dots. -/
theorem targets_outside_root :
    (PlainRelocation (moving pagesToApp) (mover pagesToApp) (.ofString "/home/pages/site")
        (.ofString "/home/pages/site/pages/index.tsx") (.ofString "/home/app/site/app/index.tsx") ∧
      ¬ (Path.ofString "/home/pages/site").Within (.ofString "/home/app/site/app/index.tsx")) ∧
    (PlainRelocation (moving intoOwnDirectory) (mover intoOwnDirectory) (.ofString "/srv")
        (.ofString "/srv/...tsx") (.ofString "/...tsx") ∧
      ¬ (Path.ofString "/srv").Within (.ofString "/...tsx")) := by
  refine ⟨⟨?_, ?_⟩, ?_, ?_⟩
  · exact {
      compiled := ofConfig_moving _
      plain := plain_moving (by decide : Text.IsName "app".toList)
      rooted := rfl
      root_normal := rfl
      file_normal := rfl
      inside := ⟨[name "pages", name "index.tsx"], by decide, by decide⟩
      asked := .inl (by decide) }
  · exact Path.not_within (by decide)
  · exact {
      compiled := ofConfig_moving _
      plain := plain_moving (by decide : Text.IsName "@fileRoot".toList)
      rooted := rfl
      root_normal := rfl
      file_normal := rfl
      inside := ⟨[name "...tsx"], by decide, by decide⟩
      asked := .inl (by decide) }
  · exact Path.not_within (by decide)

end Transform

end Relayout
