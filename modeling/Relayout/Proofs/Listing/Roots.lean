import Relayout.Proofs.Path.Absolute
import Relayout.Proofs.Transform.Compilation

/-!
# Clean listings

A root is resolved before the files below it are listed, and again whenever they are listed anew.
What the entries of directories lead to from a resolved root is in normal form, so a file comes with
the text that rules would give it, and rules that change nothing in it plan nothing for it.
-/

namespace Relayout

namespace Rule

variable {r : Rule} {rules : List Rule} {p : Parts}

/-- There is nothing in the parts that the rule would change. -/
def Spares (p : Parts) : Rule → Prop
  | replaceDir source _ => source ∉ p.dirs
  | appendDir guard _ => guard.except = p.fileRoot
  | replaceFileRoot fileRoot => fileRoot = p.fileRoot

instance (p : Parts) : DecidablePred (Spares p)
  | replaceDir _ _ => inferInstanceAs (Decidable (_ ∉ _))
  | appendDir _ _ => inferInstanceAs (Decidable (_ = _))
  | replaceFileRoot _ => inferInstanceAs (Decidable (_ = _))

theorem Spares.apply_eq (h : r.Spares p) : r.apply p = p := by
  cases r with
  | replaceDir source target =>
    have hdirs : p.dirs.map (fun d => if d = source then target else d) = p.dirs := by
      refine (List.map_congr_left fun d hd => if_neg ?_).trans (List.map_id p.dirs)
      rintro rfl
      exact h hd
    rw [apply, hdirs]
  | appendDir guard name =>
    have hguard : guard.holds p.fileRoot = false := by
      rw [Guard.holds, h]
      simp
    simp [apply, hguard]
  | replaceFileRoot fileRoot =>
    obtain rfl : fileRoot = p.fileRoot := h
    rfl

theorem destination_of_spares (h : ∀ r ∈ rules, r.Spares p) : destination rules p = p.toText := by
  have hfixed : rules.foldl apply p = p := by
    induction rules with
    | nil => rfl
    | cons r rules ih =>
      obtain ⟨hr, hrest⟩ := List.forall_mem_cons.mp h
      rw [List.foldl_cons, hr.apply_eq, ih hrest]
  rw [destination, hfixed]

end Rule

/-- For a file whose text is normalized and that the path rules spare there is nothing to do but to
delete it. -/
theorem Transform.commandFor?_of_spares {t : Transform} {p : Path} (hp : p.normalize = p.replaced)
    (h : ∀ r ∈ t.pathRules, r.Spares p.parts) :
    t.commandFor? p = if t.rules.deletes p.parts.fileRoot then some (.delete p) else none := by
  obtain ⟨hreplace, hcopy⟩ := List.forall_mem_append.mp h
  have htext : p.parts.toText = p.text := Path.ofText_inj.mp hp
  simp [commandFor?, Rule.destination_of_spares hreplace, Rule.destination_of_spares hcopy, htext]

namespace Listing

variable {workingDirectory root : Path}

theorem resolveRoot_of_ne_nil (h : root.bytes ≠ []) (workingDirectory : Path) :
    resolveRoot workingDirectory root = .ok (root.absolute workingDirectory).normalize :=
  if_neg (by simpa [Path.isEmpty] using h)

theorem resolveRoot_of_normal (ha : root.isAbsolute) (hn : root.normalize = root)
    (elsewhere : Path) : resolveRoot elsewhere root = .ok root := by
  have hor : root.isAbsolute ∨ elsewhere.isAbsolute := .inl ha
  have hroot := (Path.normalize_absolute hor).2
  rw [if_pos ha, hn] at hroot
  rw [resolveRoot_of_ne_nil (Path.bytes_ne_nil_of_isAbsolute ha), hroot]

/-- A root resolves to an absolute path in normal form, the one that it stands for in the working
directory, and this is left as it is from then on. Below it, the normal form of a file has nothing
but the strays in its names replaced, and no move or copy is planned for one that the rules
spare. -/
theorem resolveRoot_clean (hdir : workingDirectory.isAbsolute) (hroot : root.bytes ≠ []) :
    ∃ dir, resolveRoot workingDirectory root = .ok dir ∧
      dir.isAbsolute ∧ dir.normalize = dir ∧
      dir = (if root.isAbsolute then root
        else ⟨workingDirectory.bytes ++ Path.slash :: root.bytes⟩).normalize ∧
      (∀ elsewhere, resolveRoot elsewhere dir = .ok dir) ∧
      ∀ (names : List Bytes) (p : Path), (∀ n ∈ names, n.IsName) → names.foldl Path.entry dir = p →
        (p.normalize = p ↔ ∀ n ∈ names, (Text.ofUtf8? n).isSome) ∧
        p.normalize = p.replaced ∧
        ∀ t : Transform, (∀ r ∈ t.pathRules, r.Spares p.parts) →
          t.commandFor? p =
            if t.rules.deletes p.parts.fileRoot then some (.delete p) else none := by
  have hor : root.isAbsolute ∨ workingDirectory.isAbsolute := .inr hdir
  obtain ⟨habsolute, hnormal⟩ := Path.normalize_absolute hor
  have ha : (root.absolute workingDirectory).normalize.isAbsolute := by
    rw [Path.isAbsolute_normalize, habsolute]
  have hn := (root.absolute workingDirectory).normalize_normalize
  refine ⟨_, resolveRoot_of_ne_nil hroot workingDirectory, ha, hn, hnormal,
    resolveRoot_of_normal ha hn, ?_⟩
  rintro names p hnames rfl
  obtain ⟨hp, htext⟩ := Path.normalize_foldl_entry ha hn hnames
  refine ⟨?_, hp, fun t hspares => Transform.commandFor?_of_spares hp hspares⟩
  rw [hp, Path.replaced_eq_self_iff, htext]

def home : Path := .ofString "/home/me"

def detour : Path := .ofString "docs/../../srv//./x/"

def shop : Path := .ofString "/home/srv/x"

def counter : Path := .ofString "/home/srv/x/pages/index.tsx"

/-- Rules of all kinds, made for other files. -/
def refitting : Transform where
  included := "**/*".toList
  excluded := []
  rules.delete := [⟨"page".toList⟩]
  rules.replace := [.replaceDir "app".toList "lib".toList, .appendDir ⟨"index".toList⟩ .fileRoot,
    .replaceFileRoot "index".toList]
  rules.copy := []
  tests := []

def pageNames : List Bytes := [Text.toUtf8 "pages".toList, Text.toUtf8 "index.tsx".toList]

theorem detour_leads_to_shop :
    home.isAbsolute ∧ detour.bytes ≠ [] ∧ resolveRoot home detour = .ok shop ∧
      (∀ elsewhere, resolveRoot elsewhere shop = .ok shop) ∧
      (∀ n ∈ pageNames, n.IsName ∧ (Text.ofUtf8? n).isSome) ∧
      pageNames.foldl Path.entry shop = counter ∧ counter.normalize = counter ∧
      (∀ r ∈ refitting.pathRules, r.Spares counter.parts) ∧
      refitting.commandFor? counter = none := by
  have hhome : home.isAbsolute := by decide
  have hdetour : detour.bytes ≠ [] := by decide
  obtain ⟨dir, hdir, -, -, hnormal, hagain, hbelow⟩ := resolveRoot_clean hhome hdetour
  obtain rfl : dir = shop := hnormal.trans (by decide)
  have hnames : ∀ n ∈ pageNames, n.IsName ∧ (Text.ofUtf8? n).isSome := by decide
  have hcounter : pageNames.foldl Path.entry shop = counter := by decide
  have hspares : ∀ r ∈ refitting.pathRules, r.Spares counter.parts := by decide
  have hkept : refitting.rules.deletes counter.parts.fileRoot = false := by decide
  obtain ⟨hfile, -, hplan⟩ := hbelow _ _ (fun n hn => (hnames n hn).1) hcounter
  have hplanned := hplan refitting hspares
  rw [hkept] at hplanned
  exact ⟨hhome, hdetour, hdir, hagain, hnames, hcounter, hfile.mpr fun n hn => (hnames n hn).2,
    hspares, hplanned⟩

/-- An entry below a resolved root that is not its own normal form. -/
theorem stray_entry_not_normal :
    home.isAbsolute ∧ home.normalize = home ∧ resolveRoot home shop = .ok shop ∧
      Bytes.IsName [0xFF] ∧ (shop.entry [0xFF]).normalize = .ofString "/home/srv/x/\uFFFD" ∧
      (shop.entry [0xFF]).normalize ≠ shop.entry [0xFF] :=
  ⟨by decide, by decide, rfl, by decide, by decide, by decide⟩

end Listing

end Relayout
