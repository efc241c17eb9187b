import Relayout.Proofs.Path.Names
import Relayout.Rule.Basic

/-!
# What a list of rules does

Rules run one after the other on a changing path. Here their joint effect is given at once: each
directory name goes through all renames, each appended name through those after its append, and the
file root is the last one given. With plain names only, no directory of the path is ever taken away.
-/

namespace Relayout.Rule

def renamed (name : Text) : Rule → Text
  | replaceDir source target => if name = source then target else name
  | appendDir _ _ | replaceFileRoot _ => name

/-- What rules in order make of one directory name. -/
def rename (rules : List Rule) (name : Text) : Text := rules.foldl renamed name

def rerooted (fileRoot : Text) : Rule → Text
  | replaceFileRoot new => new
  | replaceDir _ _ | appendDir _ _ => fileRoot

def written (fileRoot : Text) : Appended → Text
  | .literal n => n
  | .fileRoot => fileRoot

/-- The names that rules append, as the rules after each append leave them. -/
def appended : List Rule → Text → List Text
  | [], _ => []
  | appendDir guard name :: rules, fileRoot =>
    if guard.holds fileRoot then
      rename rules (written fileRoot name) :: appended rules fileRoot
    else appended rules fileRoot
  | replaceDir _ _ :: rules, fileRoot => appended rules fileRoot
  | replaceFileRoot new :: rules, _ => appended rules new

theorem foldl_apply (rules : List Rule) (p : Parts) :
    rules.foldl apply p =
      { p with
        dirs := p.dirs.map (rename rules) ++ appended rules p.fileRoot
        fileRoot := rules.foldl rerooted p.fileRoot } := by
  induction rules generalizing p with
  | nil =>
    have hid : rename [] = id := rfl
    simp [hid, appended]
  | cons r rules ih =>
    rw [List.foldl_cons, ih]
    cases r with
    | replaceDir source target =>
      simp only [apply, appended, List.map_map]
      rfl
    | appendDir guard name =>
      cases hg : guard.holds p.fileRoot with
      | true =>
        simp only [apply, appended, hg, if_true, List.map_append, List.append_assoc]
        cases name <;> rfl
      | false =>
        simp only [apply, appended, hg, Bool.false_eq_true, if_false]
        rfl
    | replaceFileRoot new => rfl

def Plain : Rule → Prop
  | replaceDir _ target => target.IsName
  | appendDir _ (.literal n) => n.IsName
  | appendDir _ .fileRoot => True
  | replaceFileRoot new => new.IsName

/-- No appended name is two dots, which would be read as the directory above. -/
def Grounded (rules : List Rule) (fileRoot : Text) : Prop := ['.', '.'] ∉ appended rules fileRoot

instance (rules : List Rule) (fileRoot : Text) : Decidable (Grounded rules fileRoot) :=
  inferInstanceAs (Decidable (_ ∉ _))

variable {rules : List Rule} {name fileRoot extension : Text}

/-- A name that is no source stays, and any other ends as a target. -/
theorem rename_cases (rules : List Rule) (name : Text) :
    rename rules name = name ∨
      ∃ source target, replaceDir source target ∈ rules ∧ rename rules name = target := by
  induction rules generalizing name with
  | nil => exact .inl rfl
  | cons r rules ih =>
    have hcons : rename (r :: rules) name = rename rules (renamed name r) := rfl
    rw [hcons]
    rcases ih (renamed name r) with hkept | ⟨source, target, hm, heq⟩
    · rw [hkept]
      cases r with
      | replaceDir source target =>
        by_cases hs : name = source
        · exact .inr ⟨source, target, .head rules, if_pos hs⟩
        · exact .inl (if_neg hs)
      | appendDir _ _ => exact .inl rfl
      | replaceFileRoot _ => exact .inl rfl
    · exact .inr ⟨source, target, .tail r hm, heq⟩

theorem rename_eq_or_isName (h : ∀ r ∈ rules, r.Plain) :
    rename rules name = name ∨ (rename rules name).IsName := by
  rcases rename_cases rules name with heq | ⟨source, target, hm, heq⟩
  · exact .inl heq
  · rw [heq]
    exact .inr (h _ hm)

theorem isName_rename (h : ∀ r ∈ rules, r.Plain) (hn : name.IsName) :
    (rename rules name).IsName := by
  rcases @rename_eq_or_isName rules name h with heq | hplain
  · rw [heq]
    exact hn
  · exact hplain

/-- Where plain names are written, an appended name is a plain name or stands for nothing. -/
theorem appended_harmless (h : ∀ r ∈ rules, r.Plain) (hg : Grounded rules fileRoot)
    (hne : fileRoot ≠ []) (hsep : '/' ∉ fileRoot) :
    ∀ n ∈ appended rules fileRoot, n.IsName ∨ n = ['.'] := by
  induction rules generalizing fileRoot with
  | nil => exact fun n hn => absurd hn List.not_mem_nil
  | cons r rules ih =>
    have hrules : ∀ s ∈ rules, s.Plain := fun s hs => h s (List.mem_cons_of_mem r hs)
    have hr := h r List.mem_cons_self
    cases r with
    | replaceDir source target => exact ih hrules hg hne hsep
    | replaceFileRoot new => exact ih hrules hg hr.nonempty hr.unseparated
    | appendDir guard name =>
      rw [Grounded, appended] at hg
      rw [appended]
      split at hg
      next hguard =>
        rw [List.mem_cons, not_or] at hg
        obtain ⟨hfirst, hrest⟩ := hg
        rw [if_pos hguard]
        intro n hn
        rcases List.mem_cons.mp hn with rfl | hn
        · cases name with
          | literal n => exact .inl (isName_rename hrules hr)
          | fileRoot =>
            rcases @rename_eq_or_isName rules fileRoot hrules with heq | hplain
            · rw [written, heq] at hfirst ⊢
              by_cases hhere : fileRoot = ['.']
              · exact .inr hhere
              · exact .inl ⟨hne, hsep, hhere, Ne.symm hfirst⟩
            · exact .inl hplain
        · exact ih hrules hrest hne hsep n hn
      next hguard =>
        rw [if_neg hguard]
        exact ih hrules hg hne hsep

theorem foldl_rerooted_cases (rules : List Rule) :
    (∃ new, replaceFileRoot new ∈ rules ∧ ∀ fileRoot, rules.foldl rerooted fileRoot = new) ∨
      ∀ fileRoot, rules.foldl rerooted fileRoot = fileRoot := by
  induction rules with
  | nil => exact .inr fun _ => rfl
  | cons r rules ih =>
    rcases ih with ⟨new, hm, h⟩ | h
    · exact .inl ⟨new, .tail r hm, fun fileRoot => h (rerooted fileRoot r)⟩
    · cases r with
      | replaceDir _ _ => exact .inr h
      | appendDir _ _ => exact .inr h
      | replaceFileRoot new => exact .inl ⟨new, .head rules, fun _ => h new⟩

theorem foldl_rerooted (h : ∀ r ∈ rules, r.Plain) :
    rules.foldl rerooted fileRoot = fileRoot ∨ (rules.foldl rerooted fileRoot).IsName := by
  rcases foldl_rerooted_cases rules with ⟨new, hm, heq⟩ | heq
  · rw [heq]
    exact .inr (h _ hm)
  · exact .inl (heq fileRoot)

theorem isName_foldl_rerooted {base : Text} (h : ∀ r ∈ rules, r.Plain) (hb : base.IsName) :
    (rules.foldl rerooted (Parts.cutExtension base).1 ++ (Parts.cutExtension base).2).IsName := by
  rcases @foldl_rerooted rules (Parts.cutExtension base).1 h with heq | hnew
  · rw [heq, Parts.cutExtension_append]
    exact hb
  · exact hnew.append (Parts.not_mem_cutExtension hb.unseparated).2

/-- The target of a file: its directories renamed, then at least its own name. -/
theorem destination_ofNames {names : List Text} (hn : ∀ n ∈ names, n.IsName) (hne : names ≠ [])
    (h : ∀ r ∈ rules, r.Plain) (hg : Grounded rules (Path.ofNames names).parts.fileRoot) :
    ∃ below : List Text, below ≠ [] ∧
      (∀ n ∈ names.dropLast.map (rename rules) ++ below, n.IsName) ∧
      destination rules (Path.ofNames names).parts =
        (Path.ofNames (names.dropLast.map (rename rules) ++ below)).text := by
  obtain ⟨base, hlast⟩ := Option.ne_none_iff_exists'.mp (mt List.getLast?_eq_none_iff.mp hne)
  obtain ⟨dirs, rfl⟩ := List.getLast?_eq_some_iff.mp hlast
  have hdirs : ∀ d ∈ dirs, d.IsName := fun d hd => hn d (List.mem_append_left _ hd)
  have hbase : base.IsName := hn base (List.mem_append_right _ (List.mem_singleton_self base))
  rw [Path.parts_ofNames hn, List.dropLast_concat, hlast, Option.getD_some] at hg ⊢
  have hroot := (Parts.not_mem_cutExtension hbase.unseparated).1
  have happ := appended_harmless h hg (Parts.cutExtension_fst_ne_nil hbase.nonempty) hroot
  have hbase' := isName_foldl_rerooted h hbase
  have hdirs' : ∀ d ∈ dirs.map (rename rules), d.IsName := by
    intro d hd
    obtain ⟨d, hm, rfl⟩ := List.mem_map.mp hd
    exact isName_rename h (hdirs d hm)
  obtain ⟨below, hbelow, hplain, hjoin⟩ := Lexical.join_harmless hdirs' happ hbase'
  refine ⟨below, hbelow, hplain, ?_⟩
  rw [destination, foldl_apply, Path.text_ofNames]
  exact hjoin

end Relayout.Rule
