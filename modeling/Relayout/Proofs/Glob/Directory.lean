import Relayout.Proofs.Glob.Expansion
import Relayout.Proofs.Glob.Selection
import Relayout.Proofs.Path.Resolution

/-!
# Excluding a directory

The pattern `dir/**` accepts what lies below a directory as long as no name on the way is hidden: a
wildcard never takes a dot at the start of a name, whether it includes or excludes. So excluding a
directory leaves its hidden files, and all files of its hidden directories, to the other patterns.
-/

namespace Relayout.Glob

/-- Whether every character of a text stands for itself in a pattern. -/
def Literal (t : Text) : Prop := ∀ c ∈ t, c ≠ '?' ∧ c ≠ '*' ∧ c ≠ '[' ∧ c ≠ '{'

instance (t : Text) : Decidable (Literal t) := List.decidableBAll _ t

/-- Whether a name begins with a dot. -/
def Hidden (name : Text) : Prop := name.head? = some '.'

instance (name : Text) : Decidable (Hidden name) := inferInstanceAs (Decidable (_ = _))

variable {dir t rest included : Text} {excluded : List Text} {s : Selection} {c : Char}
  {tokens : Pattern} {last : Option Char} {position : Nat} {atStart : Bool}

/-! ## Reading -/

theorem expand_of_not_mem (h : '{' ∉ t) : expand t = [t] := by
  refine expand_of_none (alternation?_eq_none_iff.mpr ?_)
  rintro a group b ⟨u, v, -, -, rfl⟩ rfl
  simp at h

theorem readFrom_cons (hany : c ≠ '?') (hstar : c ≠ '*') (hset : c ≠ '[') :
    Pattern.readFrom tokens last position (c :: t) =
      Pattern.readFrom (tokens ++ [.char c]) (some c) (position + 1) t := by
  rw [Pattern.readFrom]
  case x => exact hany
  case x_1 => exact fun _ h => absurd h hstar
  case x_2 => exact fun _ h => absurd h hstar
  case x_3 => exact hstar
  case x_4 => exact hset

theorem readFrom_directory (h : Literal dir) :
    Pattern.readFrom tokens last position (dir ++ '/' :: t) =
      Pattern.readFrom (tokens ++ (dir ++ ['/']).map .char) (some '/') (position + (dir.length + 1))
        t := by
  induction dir generalizing tokens last position with
  | nil => exact readFrom_cons (by decide) (by decide) (by decide)
  | cons c dir ih =>
    obtain ⟨⟨hany, hstar, hset, -⟩, hdir⟩ := List.forall_mem_cons.mp h
    rw [List.cons_append, readFrom_cons hany hstar hset, ih hdir, List.append_assoc, Nat.add_assoc,
      Nat.add_comm 1]
    rfl

theorem ofText_directory (h : Literal dir) :
    Pattern.ofText (dir ++ "/**".toList) = .ok ((dir ++ ['/']).map .char ++ [.components]) := by
  have hpattern : "/**".toList = '/' :: ['*', '*'] := rfl
  have hend : ∀ tokens position, Pattern.readFrom tokens (some '/') position ['*', '*'] =
      .ok (Pattern.addComponents tokens) := by
    intro tokens position
    rw [Pattern.readFrom.eq_def]
    rfl
  rw [Pattern.ofText, hpattern, readFrom_directory h, hend]
  simp [Pattern.addComponents]

/-! ## Matching -/

theorem matchFrom_directory (dir : Text) :
    matchFrom ((dir ++ ['/']).map .char ++ tokens) atStart (dir ++ '/' :: t) =
      matchFrom tokens true t := by
  induction dir generalizing atStart with
  | nil => simp [matchFrom, Token.takes]
  | cons c dir ih => simpa [matchFrom, Token.takes] using ih

/-- That nothing is left is seen by taking all there is, too. -/
theorem matchFrom_nil_orElse (t : Text) :
    (matchFrom [] true t <|> sweep true (matchFrom []) true t) =
      sweep true (matchFrom []) true t := by
  cases t with
  | nil => rfl
  | cons c t => rfl

theorem sweep_separator (t : Text) :
    sweep true (matchFrom []) atStart ('/' :: t) = sweep true (matchFrom []) true t := by
  rw [sweep, if_neg (by simp), if_pos rfl, if_pos rfl, matchFrom_nil_orElse]

theorem sweep_cons {components : Bool → Text → Outcome} (hc : c ≠ '/')
    (hdot : atStart = true → c ≠ '.') :
    sweep true components atStart (c :: t) = sweep true components false t := by
  rw [sweep, if_neg fun h => hdot h.1 h.2, if_neg hc, if_pos rfl]

/-- A run of components ends where a name is hidden, but for a name that has begun already. -/
theorem sweep_matched_iff (t : Text) : sweep true (matchFrom []) atStart t = .matched ↔
    (atStart = true → ∀ name ∈ (Text.pieces '/' t).head?, ¬ Hidden name) ∧
      ∀ name ∈ (Text.pieces '/' t).tail, ¬ Hidden name := by
  induction t generalizing atStart with
  | nil => simp [sweep, matchFrom, Text.pieces, Hidden]
  | cons c t ih =>
    obtain ⟨name, names, hnames⟩ := List.exists_cons_of_ne_nil (Text.pieces_ne_nil '/' t)
    rw [hnames] at ih
    rw [Text.pieces, hnames]
    by_cases hc : c = '/'
    · rw [hc, sweep_separator, ih]
      simp [Hidden]
    by_cases hdot : atStart = true ∧ c = '.'
    · obtain ⟨rfl, rfl⟩ := hdot
      simp [sweep, Hidden]
    · rw [sweep_cons hc fun h h' => hdot ⟨h, h'⟩, ih]
      simpa [hc, Hidden] using fun _ => not_and.mp hdot

theorem matches_directory_iff (h : Literal dir) :
    Matches (dir ++ "/**".toList) (dir ++ '/' :: rest) ↔
      ∀ name ∈ rest.splitOn '/', ¬ Hidden name := by
  have hbrace : '{' ∉ dir ++ "/**".toList := by
    rw [List.mem_append, not_or]
    exact ⟨fun hm => (h _ hm).2.2.2 rfl, by decide⟩
  have hall : (∀ name ∈ rest.splitOn '/', ¬ Hidden name) ↔
      (∀ name ∈ (Text.pieces '/' rest).head?, ¬ Hidden name) ∧
        ∀ name ∈ (Text.pieces '/' rest).tail, ¬ Hidden name := by
    obtain ⟨name, names, hnames⟩ := List.exists_cons_of_ne_nil (Text.pieces_ne_nil '/' rest)
    rw [← Text.pieces_eq_splitOn, hnames]
    simp
  simp only [Matches, expand_of_not_mem hbrace, List.mem_singleton, exists_eq_left,
    ofText_directory h, Except.ok.injEq, exists_eq_left', Pattern.accepts, decide_eq_true_eq]
  rw [matchFrom_directory, matchFrom, matchFrom_nil_orElse, sweep_matched_iff, hall]
  simp

/-! ## Excluding -/

/-- What lies at `rest` below a directory. -/
def inside (dir : Text) (rest : Path) : Path := ⟨dir.toUtf8 ++ Path.slash :: rest.bytes⟩

theorem text_inside (dir : Text) (rest : Path) : (inside dir rest).text = dir ++ '/' :: rest.text :=
  calc
    (inside dir rest).text = (Path.ofText dir).text ++ '/' :: rest.text :=
      (Path.ofText dir).text_append rest.bytes
    _ = dir ++ '/' :: rest.text := by rw [Path.text_ofText]

theorem matchesPath_directory_iff (h : Literal dir) (rest : Path) :
    MatchesPath (dir ++ "/**".toList) (inside dir rest) ↔
      (inside dir rest).IsText ∧ ∀ name ∈ rest.text.splitOn '/', ¬ Hidden name := by
  rw [matchesPath_iff_isText, text_inside, matches_directory_iff h]

/-- Where `dir/**` is excluded, nothing below the directory is accepted whose path from there has no
hidden name. Of the rest, the exclusion takes nothing away. -/
theorem directory_excluded_iff (hdir : Literal dir) (hmem : dir ++ "/**".toList ∈ excluded)
    (hs : Selection.ofPatterns included excluded = .ok s) (rest : Path) :
    ((∀ name ∈ rest.text.splitOn '/', ¬ Hidden name) → s.accepts (inside dir rest) = false) ∧
      ((∃ name ∈ rest.text.splitOn '/', Hidden name) →
        (s.accepts (inside dir rest) ↔ MatchesPath included (inside dir rest) ∧
          ∀ pattern ∈ excluded, pattern ≠ dir ++ "/**".toList →
            ¬ MatchesPath pattern (inside dir rest))) := by
  have haccepts := Selection.accepts_iff hs (inside dir rest)
  refine ⟨?_, ?_⟩
  · intro hplain
    rw [Bool.eq_false_iff, ne_eq, haccepts]
    rintro ⟨hmatches, hleft⟩
    have htext := (matchesPath_iff_isText.mp hmatches).1
    exact hleft _ hmem ((matchesPath_directory_iff hdir rest).mpr ⟨htext, hplain⟩)
  · rintro ⟨name, hname, hhidden⟩
    have hleft : ¬ MatchesPath (dir ++ "/**".toList) (inside dir rest) := fun h =>
      ((matchesPath_directory_iff hdir rest).mp h).2 name hname hhidden
    rw [haccepts]
    refine and_congr_right fun _ => ⟨fun h pattern hm _ => h pattern hm, ?_⟩
    intro h pattern hm
    by_cases heq : pattern = dir ++ "/**".toList
    · rw [heq]
      exact hleft
    · exact h pattern hm heq

def confExcluded : List Text := ["docs/*".toList, "conf/**".toList]

/-- One pattern includes the hidden file, and none excludes it. -/
theorem conf_excluded_but_hidden :
    ∃ s, Selection.ofPatterns "\x7b**/*,**/.env\x7d".toList confExcluded = .ok s ∧
      s.accepts (.ofString "conf/db/main.toml") = false ∧ s.accepts (.ofString "conf/db/.env") := by
  have hvalid : ∀ pattern ∈ "\x7b**/*,**/.env\x7d".toList :: confExcluded, Valid pattern := by
    decide +kernel
  obtain ⟨s, hs⟩ := Selection.exists_ofPatterns_iff.mpr hvalid
  have hexcluded := @directory_excluded_iff "conf".toList _ _ _ (by decide) (by decide) hs
  refine ⟨s, hs, (hexcluded (.ofString "db/main.toml")).1 (by decide +kernel), ?_⟩
  exact ((hexcluded (.ofString "db/.env")).2 (by decide +kernel)).mpr (by decide +kernel)

/-- A hidden file is accepted although its directory is excluded. -/
theorem hidden_file_in_excluded_directory :
    Literal "conf".toList ∧ "conf".toList ++ "/**".toList ∈ ["conf/**".toList] ∧
      ∃ s, Selection.ofPatterns "**/.env".toList ["conf/**".toList] = .ok s ∧
        s.accepts (.ofString "conf/.env") := by
  refine ⟨by decide, by decide, ?_⟩
  obtain ⟨s, hs⟩ := Selection.exists_ofPatterns_iff.mpr
    (by decide +kernel : ∀ pattern ∈ "**/.env".toList :: ["conf/**".toList], Valid pattern)
  exact ⟨s, hs, (Selection.accepts_iff hs (.ofString "conf/.env")).mpr (by decide +kernel)⟩

end Relayout.Glob
