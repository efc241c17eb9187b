import Relayout.Proofs.Rule.Effect

/-!
# The target of a path in closed form

What rules running in order make of a path is given here by the positions of the rules. A rename
reaches the directory names of the path and those appended before it. An append sees the file root
that was given last before it.
-/

namespace Relayout.Rule

def given? : Rule → Option Text
  | replaceFileRoot new => some new
  | replaceDir _ _ | appendDir _ _ => none

/-- The file root that rules in order leave: the last one given, or else the one before them. -/
def fileRootAfter (rules : List Rule) (fileRoot : Text) : Text :=
  (rules.filterMap given?).getLast?.getD fileRoot

/-- The directory name that the rule at a position puts into the target, if it appends one. -/
def appendedAt (rules : List Rule) (fileRoot : Text) (i : Nat) : Option Text :=
  match rules[i]? with
  | some (appendDir guard name) =>
    let current := fileRootAfter (rules.take i) fileRoot
    if guard.except = current then none
    else some (rename (rules.drop (i + 1)) (written current name))
  | _ => none

variable {r : Rule} {rules : List Rule} {fileRoot : Text}

theorem fileRootAfter_cons :
    fileRootAfter (r :: rules) fileRoot = fileRootAfter rules (rerooted fileRoot r) := by
  cases r with
  | replaceDir _ _ => rfl
  | appendDir _ _ => rfl
  | replaceFileRoot new => simp [fileRootAfter, given?, rerooted, List.getLast?_cons]

theorem foldl_rerooted_eq : rules.foldl rerooted fileRoot = fileRootAfter rules fileRoot := by
  induction rules generalizing fileRoot with
  | nil => rfl
  | cons r rules ih => rw [List.foldl_cons, ih, fileRootAfter_cons]

theorem appendedAt_succ (i : Nat) :
    appendedAt (r :: rules) fileRoot (i + 1) = appendedAt rules (rerooted fileRoot r) i := by
  simp only [appendedAt, List.getElem?_cons_succ, List.take_succ_cons, List.drop_succ_cons,
    fileRootAfter_cons]

theorem appended_eq_filterMap :
    appended rules fileRoot = (List.range rules.length).filterMap (appendedAt rules fileRoot) := by
  induction rules generalizing fileRoot with
  | nil => rfl
  | cons r rules ih =>
    -- The positions after the first are those of the other rules, seen from the root `r` leaves.
    have hrest : (List.map Nat.succ (List.range rules.length)).filterMap
        (appendedAt (r :: rules) fileRoot) = appended rules (rerooted fileRoot r) := by
      rw [ih, List.filterMap_map]
      exact List.filterMap_congr fun i _ => appendedAt_succ i
    rw [List.length_cons, List.range_succ_eq_map, List.filterMap_cons, hrest]
    cases r with
    | replaceDir _ _ => rfl
    | appendDir guard name =>
      by_cases hguard : guard.except = fileRoot
      · simp [appended, appendedAt, Guard.holds, fileRootAfter, rerooted, hguard]
      · simp [appended, appendedAt, Guard.holds, fileRootAfter, rerooted, hguard]
    | replaceFileRoot _ => rfl

/-- Directories go through all renames and appended names through the renames after them. The base
name is the last file root given, or else the old one, with the old extension. -/
theorem destination_eq_join (rules : List Rule) (p : Parts) :
    destination rules p =
      Lexical.join p.rooted
        (p.dirs.map (rename rules) ++
          (List.range rules.length).filterMap (appendedAt rules p.fileRoot))
        (fileRootAfter rules p.fileRoot ++ p.extension) := by
  rw [destination, foldl_apply, appended_eq_filterMap, foldl_rerooted_eq]
  rfl

/-- Each rename reaches what stood there before it: the directory first, then the appended name. -/
example : destination
    [.replaceDir "about".toList "info".toList, .appendDir ⟨"index".toList⟩ .fileRoot,
      .replaceFileRoot "page".toList, .appendDir ⟨"page".toList⟩ .fileRoot,
      .replaceDir "about".toList "team".toList]
    (Parts.ofText "/docs/about/about.tsx".toList) = "/docs/info/team/page.tsx".toList := by
  decide

end Relayout.Rule
