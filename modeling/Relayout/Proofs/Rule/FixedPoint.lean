import Relayout.Proofs.Rule.Effect

/-!
# Renamed paths stay as they are

Where no rule renames what another has renamed to, a second pass of the rules changes nothing: a
directory name that was written is no source of a rename, and the extension is cut off again in
front of the dot it had. So the target of a file is left alone when the rules see it again, and so
is what the rules make of any other text.
-/

namespace Relayout

namespace Rule

/-- A rule that renames to a plain name, and to a file root without a dot. -/
def Renaming : Rule → Prop
  | replaceDir _ target => target.IsName
  | appendDir _ _ => False
  | replaceFileRoot new => new ≠ [] ∧ '/' ∉ new ∧ '.' ∉ new

instance : DecidablePred Renaming
  | replaceDir _ _ => inferInstanceAs (Decidable (Text.IsName _))
  | appendDir _ _ => inferInstanceAs (Decidable False)
  | replaceFileRoot _ => inferInstanceAs (Decidable (_ ∧ _ ∧ _))

/-- Renames of which none applies to what another one renames to. -/
structure Settling (rules : List Rule) : Prop where
  renames : ∀ r ∈ rules, r.Renaming
  apart : ∀ source target source' target', replaceDir source target ∈ rules →
    replaceDir source' target' ∈ rules → source ≠ target'

variable {rules : List Rule} {name fileRoot : Text}

theorem Renaming.plain {r : Rule} (h : r.Renaming) : r.Plain := by
  cases r with
  | replaceDir _ _ => exact h
  | appendDir _ _ => exact h.elim
  | replaceFileRoot new =>
    obtain ⟨hne, hsep, hdot⟩ := h
    exact Text.isName_of_not_mem_dot hne hsep hdot

theorem rename_of_no_source (h : ∀ target, replaceDir name target ∉ rules) :
    rename rules name = name := by
  induction rules with
  | nil => rfl
  | cons r rules ih =>
    have hrest := ih fun target hm => h target (.tail r hm)
    have hr : renamed name r = name := by
      cases r with
      | replaceDir source target =>
        refine if_neg ?_
        rintro rfl
        exact h target (.head rules)
      | appendDir _ _ => rfl
      | replaceFileRoot _ => rfl
    rw [rename, List.foldl_cons, hr]
    exact hrest

theorem rerooted_rerooted (rules : List Rule) (fileRoot : Text) :
    rules.foldl rerooted (rules.foldl rerooted fileRoot) = rules.foldl rerooted fileRoot := by
  rcases foldl_rerooted_cases rules with ⟨new, -, h⟩ | h
  · rw [h, h]
  · rw [h]

namespace Settling

theorem rename_rename (h : Settling rules) (name : Text) :
    rename rules (rename rules name) = rename rules name := by
  rcases rename_cases rules name with heq | ⟨source, target, hm, heq⟩
  · rw [heq, heq]
  · rw [heq]
    exact rename_of_no_source fun other hother => h.apart _ other source target hother hm rfl

theorem cutExtension_rerooted (h : Settling rules) (base : Text) :
    Parts.cutExtension
        (rules.foldl rerooted (Parts.cutExtension base).1 ++ (Parts.cutExtension base).2) =
      (rules.foldl rerooted (Parts.cutExtension base).1, (Parts.cutExtension base).2) := by
  rcases foldl_rerooted_cases rules with ⟨new, hm, heq⟩ | heq
  · obtain ⟨hne, -, hdot⟩ := h.renames _ hm
    rw [heq, Parts.cutExtension_reroot hne hdot]
  · rw [heq, Parts.cutExtension_append]

theorem appended_eq_nil (h : ∀ r ∈ rules, r.Renaming) : appended rules fileRoot = [] := by
  induction rules generalizing fileRoot with
  | nil => rfl
  | cons r rules ih =>
    have hrules : ∀ s ∈ rules, s.Renaming := fun s hs => h s (.tail r hs)
    cases r with
    | replaceDir _ _ => exact ih hrules
    | appendDir _ _ => exact (h _ (.head rules)).elim
    | replaceFileRoot _ => exact ih hrules

variable {p : Parts}

theorem isName_renamed (h : Settling rules) {dirs : List Text} {base : Text}
    (hd : ∀ d ∈ dirs, d.IsName) (hb : base.IsName) :
    ∀ n ∈ dirs.map (rename rules) ++ [base], n.IsName := by
  intro n hn
  rcases List.mem_append.mp hn with hn | hn
  · obtain ⟨d, hm, rfl⟩ := List.mem_map.mp hn
    exact isName_rename (fun r hr => (h.renames r hr).plain) (hd d hm)
  · rw [List.mem_singleton.mp hn]
    exact hb

theorem unseparated_rename (h : Settling rules) (hn : '/' ∉ name) : '/' ∉ rename rules name := by
  rcases rename_cases rules name with heq | ⟨source, target, hm, heq⟩
  · rwa [heq]
  · rw [heq]
    exact Text.IsName.unseparated (h.renames _ hm)

theorem destination_eq_render (h : Settling rules) (hd : ∀ d ∈ p.dirs, '/' ∉ d)
    (hb : '/' ∉ rules.foldl rerooted p.fileRoot ++ p.extension) :
    destination rules p = Lexical.render p.rooted (Lexical.resolve p.rooted
      (p.dirs.map (rename rules) ++ [rules.foldl rerooted p.fileRoot ++ p.extension])) := by
  have hdirs : ∀ d ∈ p.dirs.map (rename rules), '/' ∉ d := by
    intro d hm
    obtain ⟨d, hold, rfl⟩ := List.mem_map.mp hm
    exact h.unseparated_rename (hd d hold)
  rw [destination, foldl_apply, appended_eq_nil h.renames, List.append_nil, Parts.toText,
    Parts.base, Lexical.join_eq hdirs hb]

theorem destination_eq (h : Settling rules) (hr : p.rooted = true) (hd : ∀ d ∈ p.dirs, d.IsName)
    (hb : (rules.foldl rerooted p.fileRoot ++ p.extension).IsName) :
    destination rules p =
      (Path.ofNames
        (p.dirs.map (rename rules) ++ [rules.foldl rerooted p.fileRoot ++ p.extension])).text := by
  rw [h.destination_eq_render (fun d hm => (hd d hm).unseparated) hb.unseparated, hr,
    Lexical.resolve_names (h.isName_renamed hd hb), Path.text_ofNames]

end Settling

/-- An absolute path in normal form that the rules make nothing else of. -/
structure AtRest (rules : List Rule) (p : Path) : Prop where
  rooted : p.isAbsolute
  normal : p.normalize = p
  fixed : destination rules p.parts = p.text

/-- Only the root itself has no base name, and then it keeps having none unless rules give one. -/
theorem Settling.isName_base_or_root (h : Settling rules) {names : List Text} {base : Text}
    (hnames : ∀ n ∈ names, n.IsName) (hlast : names.getLast?.getD [] = base) :
    (rules.foldl rerooted (Parts.cutExtension base).1 ++ (Parts.cutExtension base).2).IsName ∨
      names = [] ∧ ∀ fileRoot, rules.foldl rerooted fileRoot = fileRoot := by
  have hplain : ∀ r ∈ rules, r.Plain := fun r hr => (h.renames r hr).plain
  by_cases hne : names = []
  · subst hne
    obtain rfl : [] = base := hlast
    rcases foldl_rerooted_cases rules with ⟨new, hm, heq⟩ | hkept
    · have hnew : (new ++ []).IsName := by
        rw [List.append_nil]
        exact hplain _ hm
      left
      rw [heq]
      exact hnew
    · exact .inr ⟨rfl, hkept⟩
  · left
    refine isName_foldl_rerooted hplain ?_
    rw [← hlast, List.getLast?_eq_some_getLast hne]
    exact hnames _ (List.getLast_mem hne)

/-- What is made of a path is at rest, and its file root is the one that the rules give. -/
theorem Settling.target_at_rest (h : Settling rules) {p target : Path} (ha : p.isAbsolute)
    (hn : p.normalize = p) (ht : target = .ofText (destination rules p.parts)) :
    AtRest rules target ∧ target.parts.fileRoot = rules.foldl rerooted p.parts.fileRoot := by
  obtain ⟨names, hnames, rfl⟩ := Path.exists_ofNames ha hn
  have hdirs : ∀ d ∈ names.dropLast, d.IsName :=
    fun d hd => hnames d (List.dropLast_sublist names |>.mem hd)
  rw [Path.parts_ofNames hnames] at ht ⊢
  generalize hlast : names.getLast?.getD [] = base at ht ⊢
  rcases h.isName_base_or_root hnames hlast with hb | ⟨hroot, hkept⟩
  · rw [h.destination_eq rfl hdirs hb] at ht
    obtain rfl := ht.trans (Path.ofText_text_ofNames _)
    have hnames' := h.isName_renamed hdirs hb
    have hparts := Path.parts_ofNames hnames'
    rw [List.dropLast_concat, List.getLast?_concat, Option.getD_some,
      h.cutExtension_rerooted] at hparts
    refine ⟨⟨Path.isAbsolute_ofNames _, Path.normalize_ofNames hnames', ?_⟩, by rw [hparts]⟩
    have hdirs' : ∀ d ∈ names.dropLast.map (rename rules), d.IsName :=
      fun d hd => hnames' d (List.mem_append_left _ hd)
    have hagain : (names.dropLast.map (rename rules)).map (rename rules) =
        names.dropLast.map (rename rules) := by
      rw [List.map_map]
      exact List.map_congr_left fun d _ => h.rename_rename d
    rw [hparts, h.destination_eq rfl hdirs' (by rwa [rerooted_rerooted]), rerooted_rerooted, hagain]
  · subst hroot
    obtain rfl : [] = base := hlast
    have hdest : destination rules (Path.ofNames []).parts = (Path.ofNames []).text := by
      rw [Path.parts_ofNames hnames, destination, foldl_apply, appended_eq_nil h.renames, hkept,
        Path.text_ofNames]
      rfl
    have htarget : target = .ofText (destination rules (Path.ofNames []).parts) := by
      rw [Path.parts_ofNames hnames]
      exact ht
    rw [hdest, Path.ofText_text_ofNames] at htarget
    subst htarget
    exact ⟨⟨Path.isAbsolute_ofNames [], Path.normalize_ofNames hnames, hdest⟩, (hkept _).symm⟩

/-- The base name that rules make of a base name. -/
def rebased (rules : List Rule) (base : Text) : Text :=
  rules.foldl rerooted (Parts.cutExtension base).1 ++ (Parts.cutExtension base).2

namespace Settling

variable {rooted : Bool} {dirs : List Text} {base : Text}

theorem rebased_rebased (h : Settling rules) (base : Text) :
    rebased rules (rebased rules base) = rebased rules base := by
  rw [rebased, rebased, h.cutExtension_rerooted, rerooted_rerooted]

/-- Rules that give a file root make a name of every base name, and others leave it alone. -/
theorem rebased_cases (h : Settling rules) :
    (∀ base, '/' ∉ base → (rebased rules base).IsName) ∨ ∀ base, rebased rules base = base := by
  rcases foldl_rerooted_cases rules with ⟨new, hm, heq⟩ | heq
  · left
    intro base hb
    have hnew : new.IsName := (h.renames _ hm).plain
    rw [rebased, heq]
    exact hnew.append (Parts.not_mem_cutExtension hb).2
  · right
    intro base
    rw [rebased, heq, Parts.cutExtension_append]

theorem unseparated_rebased (h : Settling rules) (hb : '/' ∉ base) : '/' ∉ rebased rules base := by
  rcases h.rebased_cases with hname | hkept
  · exact (hname base hb).unseparated
  · rwa [hkept]

theorem destination_ofBase (h : Settling rules) (hd : ∀ d ∈ dirs, '/' ∉ d) (hb : '/' ∉ base) :
    destination rules (.ofBase rooted dirs base) = Lexical.render rooted
      (Lexical.resolve rooted (dirs.map (rename rules) ++ [rebased rules base])) :=
  h.destination_eq_render hd (h.unseparated_rebased hb)

/-- Resolved pieces that the rules leave alone one by one make a text that they leave alone. -/
theorem destination_render (h : Settling rules) {pieces : List Text}
    (hsep : ∀ piece ∈ pieces, '/' ∉ piece)
    (hdirs : ∀ d ∈ (Lexical.resolve rooted pieces).dropLast, rename rules d = d)
    (hbase : rebased rules ((Lexical.resolve rooted pieces).getLast?.getD (Parts.idle rooted)) =
      (Lexical.resolve rooted pieces).getLast?.getD (Parts.idle rooted)) :
    destination rules (.ofText (Lexical.render rooted (Lexical.resolve rooted pieces))) =
      Lexical.render rooted (Lexical.resolve rooted pieces) := by
  have hkept : (Lexical.resolve rooted pieces).dropLast.map (rename rules) =
      (Lexical.resolve rooted pieces).dropLast :=
    (List.map_congr_left hdirs).trans (List.map_id _)
  have hleft : ∀ piece ∈ Lexical.resolve rooted pieces, '/' ∉ piece :=
    fun piece hm => hsep piece (Lexical.mem_of_mem_resolve hm)
  rw [Parts.ofText_render_resolve hsep,
    h.destination_ofBase (fun d hd => hleft d ((List.dropLast_sublist _).mem hd))
      (Parts.unseparated_getLast? hleft),
    hkept, hbase, Parts.resolve_dropLast_concat, Lexical.resolve_resolve hsep]

end Settling

/-- What rules make of a path, whatever its text, they leave alone. A directory becomes the base
name where `.` or `..` stood behind it, but only if no rule gives a file root. -/
theorem Settling.destination_destination (h : Settling rules) (p : Path) :
    destination rules (Path.ofText (destination rules p.parts)).parts =
      destination rules p.parts := by
  obtain ⟨rooted, dirs, base, hd, hb, hp⟩ := p.exists_parts_eq_ofBase
  have hsep : ∀ piece ∈ dirs.map (rename rules) ++ [rebased rules base], '/' ∉ piece := by
    intro piece hm
    rcases List.mem_append.mp hm with hm | hm
    · obtain ⟨d, hold, rfl⟩ := List.mem_map.mp hm
      exact h.unseparated_rename (hd d hold)
    · rw [List.mem_singleton.mp hm]
      exact h.unseparated_rebased hb
  rw [hp, h.destination_ofBase hd hb, Path.parts_ofText]
  apply h.destination_render hsep
  · -- only the base name can be a `..` that no rename has been asked about, and it comes last
    intro d hm
    obtain ⟨d, -, rfl⟩ := List.mem_map.mp (Lexical.mem_of_mem_dropLast_resolve hm)
    exact h.rename_rename d
  · rcases h.rebased_cases with hname | hkept
    · rw [Lexical.resolve_concat_name (hname base hb), List.getLast?_concat, Option.getD_some,
        h.rebased_rebased]
    · exact hkept _

def hereAndPages : List Rule :=
  [.replaceDir "pages".toList "app".toList, .replaceDir ".".toList "here".toList]

/-- The directory behind which `..` stands is renamed once, and is the base name from then on. -/
theorem pages_renamed_once :
    Settling hereAndPages ∧
      destination hereAndPages (Path.ofString "..//./pages/docs/..").parts =
        "../here/app".toList ∧
      destination hereAndPages (Path.ofString "../here/app").parts = "../here/app".toList := by
  have hsettling : Settling hereAndPages := by
    refine ⟨by decide, ?_⟩
    intro source target source' target' h h'
    simp only [hereAndPages, List.mem_cons, replaceDir.injEq, List.not_mem_nil, or_false] at h h'
    obtain ⟨rfl, rfl⟩ | ⟨rfl, rfl⟩ := h <;> obtain ⟨rfl, rfl⟩ | ⟨rfl, rfl⟩ := h' <;> decide
  have honce : destination hereAndPages (Path.ofString "..//./pages/docs/..").parts =
      "../here/app".toList := by decide
  have htwice := hsettling.destination_destination (.ofString "..//./pages/docs/..")
  rw [honce] at htwice
  exact ⟨hsettling, honce, htwice⟩

end Rule

end Relayout
