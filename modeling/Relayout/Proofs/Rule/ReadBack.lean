import Relayout.Proofs.Rule.Effect

/-!
# What is read back from a target

The text of a target is taken apart again by whoever runs more rules on it. Its last piece is the
base name that the rules left, whatever they did to the directories, so the extension is found as
it was. Where only plain names were written, all the parts are found as they were.
-/

namespace Relayout

namespace Text

variable {sep : Char} {t e : Text}

/-- What stands behind the last separator, or the whole text. -/
def lastPiece (sep : Char) (t : Text) : Text := (pieces sep t).getLast?.getD []

theorem not_mem_lastPiece : sep ∉ lastPiece sep t := by
  rw [lastPiece, List.getLast?_eq_some_getLast (pieces_ne_nil sep t)]
  exact not_mem_of_mem_pieces (List.getLast_mem _)

theorem lastPiece_of_not_mem (h : sep ∉ t) : lastPiece sep t = t := by
  rw [lastPiece, pieces_of_not_mem h]
  rfl

theorem pieces_append (h : sep ∉ e) :
    pieces sep (t ++ e) = (pieces sep t).dropLast ++ [lastPiece sep t ++ e] := by
  induction t with
  | nil => exact pieces_of_not_mem h
  | cons c t ih =>
    obtain ⟨piece, rest, ht⟩ := List.exists_cons_of_ne_nil (pieces_ne_nil sep t)
    rw [lastPiece, ht] at ih
    rw [lastPiece, List.cons_append]
    by_cases hc : c = sep
    · simp [pieces, hc, ht, ih, List.getLast?_cons]
    · cases rest with
      | nil =>
        replace ih : pieces sep (t ++ e) = [piece ++ e] := by simpa using ih
        simp [pieces, hc, ht, ih]
      | cons next rest =>
        simp [pieces, hc, ht, ih, List.getLast?_cons]

end Text

namespace Parts

variable {p : Parts} {init : List Text} {name : Text}

/-- A last piece that is a name is read back as the base name. -/
theorem ofText_toText (hbase : Text.pieces '/' p.base = init ++ [name]) (hname : name.IsName) :
    ofText p.toText =
      ofBase p.rooted
        (Lexical.resolve p.rooted (p.dirs.flatMap (Text.pieces '/') ++ init)) name := by
  have hsep : ∀ piece ∈ p.dirs.flatMap (Text.pieces '/') ++ Text.pieces '/' p.base,
      '/' ∉ piece := by
    intro piece hm
    rcases List.mem_append.mp hm with hm | hm
    · obtain ⟨d, -, hd⟩ := List.mem_flatMap.mp hm
      exact Text.not_mem_of_mem_pieces hd
    · exact Text.not_mem_of_mem_pieces hm
  rw [hbase, ← List.append_assoc] at hsep
  rw [toText, Lexical.join, hbase, ← List.append_assoc, ofText_render_resolve hsep,
    Lexical.resolve_concat_name hname, List.dropLast_concat, List.getLast?_concat,
    Option.getD_some]

theorem extension_ofText_toText (hsep : '/' ∉ p.extension)
    (hname : (Text.lastPiece '/' p.fileRoot ++ p.extension).IsName) :
    (ofText p.toText).extension =
      (cutExtension (Text.lastPiece '/' p.fileRoot ++ p.extension)).2 := by
  rw [ofText_toText (Text.pieces_append hsep) hname]
  rfl

/-- Parts that are read back as they are from their text. -/
structure Legible (p : Parts) : Prop where
  dirs : ∀ d ∈ p.dirs, d.IsName
  fileRoot : p.fileRoot.IsName
  unseparated : '/' ∉ p.extension
  cut : cutExtension p.base = (p.fileRoot, p.extension)

theorem Legible.ofText_toText (h : p.Legible) : ofText p.toText = p := by
  have hbase : p.base.IsName := h.fileRoot.append h.unseparated
  have hdirs : p.dirs.flatMap (Text.pieces '/') = p.dirs := by
    rw [List.flatMap_congr fun d hd => Text.pieces_of_not_mem (h.dirs d hd).unseparated,
      List.flatMap_singleton']
  have hpieces : Text.pieces '/' p.base = [] ++ [p.base] :=
    Text.pieces_of_not_mem hbase.unseparated
  rw [Parts.ofText_toText hpieces hbase, List.append_nil, hdirs, Lexical.resolve_names h.dirs,
    ofBase, h.cut]

end Parts

namespace Rule

/-- A rule that writes plain names, and file roots without a dot. -/
def Legible : Rule → Prop
  | replaceDir _ target => target.IsName
  | appendDir _ (.literal name) => name.IsName
  | appendDir _ .fileRoot => True
  | replaceFileRoot new => new ≠ [] ∧ '/' ∉ new ∧ '.' ∉ new

instance : DecidablePred Legible
  | replaceDir _ _ => inferInstanceAs (Decidable (Text.IsName _))
  | appendDir _ (.literal _) => inferInstanceAs (Decidable (Text.IsName _))
  | appendDir _ .fileRoot => inferInstanceAs (Decidable True)
  | replaceFileRoot _ => inferInstanceAs (Decidable (_ ∧ _ ∧ _))

variable {r : Rule} {rules first second : List Rule} {p : Path} {q : Parts}

theorem Legible.plain (h : r.Legible) : r.Plain := by
  cases r with
  | replaceDir _ _ => exact h
  | appendDir _ name => cases name <;> exact h
  | replaceFileRoot new =>
    obtain ⟨hne, hsep, hdot⟩ := h
    exact Text.isName_of_not_mem_dot hne hsep hdot

/-- One rule: what it writes is read back, and the rest as before. -/
theorem Legible.apply (hr : r.Legible) (h : q.Legible) : (r.apply q).Legible := by
  cases r with
  | replaceDir source target =>
    refine ⟨?_, h.fileRoot, h.unseparated, h.cut⟩
    intro d hd
    obtain ⟨d, hold, rfl⟩ := List.mem_map.mp hd
    split
    · exact hr
    · exact h.dirs d hold
  | appendDir guard name =>
    simp only [Rule.apply]
    split
    · refine ⟨?_, h.fileRoot, h.unseparated, h.cut⟩
      intro d hd
      rcases List.mem_append.mp hd with hd | hd
      · exact h.dirs d hd
      · rw [List.mem_singleton.mp hd]
        cases name with
        | literal name => exact hr
        | fileRoot => exact h.fileRoot
    · exact h
  | replaceFileRoot new =>
    refine ⟨h.dirs, Legible.plain hr, h.unseparated, ?_⟩
    have hcut := Parts.cutExtension_reroot hr.1 hr.2.2 q.base
    rwa [h.cut] at hcut

theorem legible_foldl_apply (hr : ∀ r ∈ rules, r.Legible) (h : q.Legible) :
    (rules.foldl apply q).Legible := by
  induction rules generalizing q with
  | nil => exact h
  | cons r rules ih =>
    exact ih (fun s hs => hr s (.tail r hs)) ((hr r List.mem_cons_self).apply h)

/-- What is read back from a target is what the rules left before it was written. -/
theorem parts_destination (hr : ∀ r ∈ rules, r.Legible) (h : q.Legible) :
    (Path.ofText (destination rules q)).parts = rules.foldl apply q := by
  rw [Path.parts_ofText]
  exact (legible_foldl_apply hr h).ofText_toText

end Rule

theorem Path.legible_parts {p : Path} (ha : p.isAbsolute) (hn : p.normalize = p)
    (hroot : p.text ≠ ['/']) (hhere : p.parts.fileRoot ≠ ['.'])
    (hup : p.parts.fileRoot ≠ ['.', '.']) : p.parts.Legible := by
  obtain ⟨names, hnames, rfl⟩ := exists_ofNames ha hn
  have hne : names ≠ [] := by
    rintro rfl
    exact hroot rfl
  obtain ⟨dirs, base, rfl⟩ := (List.eq_nil_or_concat' names).resolve_left hne
  have hdirs : ∀ d ∈ dirs, d.IsName := fun d hd => hnames d (List.mem_append_left _ hd)
  have hbase : base.IsName := hnames base (by simp)
  rw [parts_ofNames hnames, List.dropLast_concat, List.getLast?_concat, Option.getD_some] at *
  obtain ⟨hsep, hsep'⟩ := Parts.not_mem_cutExtension hbase.unseparated
  refine ⟨hdirs, ⟨Parts.cutExtension_fst_ne_nil hbase.nonempty, hsep, hhere, hup⟩, hsep', ?_⟩
  rw [Parts.base, Parts.cutExtension_append]

namespace Rule

variable {r : Rule} {rules first second : List Rule} {p : Path} {q : Parts}

/-- Rules may be run in stages, with the path written out and read back in between. The first stage
must write what is read back; the second may write anything. -/
theorem destination_append (ha : p.isAbsolute) (hn : p.normalize = p) (hroot : p.text ≠ ['/'])
    (hhere : p.parts.fileRoot ≠ ['.']) (hup : p.parts.fileRoot ≠ ['.', '.'])
    (hfirst : ∀ r ∈ first, r.Legible) :
    destination (first ++ second) p.parts =
      destination second (Path.ofText (destination first p.parts)).parts := by
  rw [parts_destination hfirst (Path.legible_parts ha hn hroot hhere hup), destination,
    List.foldl_append]
  rfl

def post : Path := .ofString "/srv/pages/blog/post.test.tsx"

def intoDirectory : List Rule :=
  [.replaceDir "pages".toList "app".toList, .appendDir ⟨"index".toList⟩ .fileRoot]

def ontoPage : List Rule :=
  [.replaceDir "post.test".toList "posts".toList, .replaceFileRoot "page".toList,
    .appendDir ⟨"index".toList⟩ (.literal "all".toList)]

/-- The second stage renames the directory that the first one has made. -/
theorem post_in_stages :
    (∀ r ∈ intoDirectory ++ ontoPage, r.Legible) ∧
      post.isAbsolute ∧ post.normalize = post ∧ post.parts.fileRoot = "post.test".toList ∧
      destination intoDirectory post.parts =
        "/srv/app/blog/post.test/post.test.tsx".toList ∧
      destination ontoPage (Path.ofText (destination intoDirectory post.parts)).parts =
        "/srv/app/blog/posts/all/page.tsx".toList := by
  have hlegible : ∀ r ∈ intoDirectory ++ ontoPage, r.Legible := by decide
  have hroot : post.parts.fileRoot = "post.test".toList := by decide
  have hstages : destination (intoDirectory ++ ontoPage) post.parts =
      destination ontoPage (Path.ofText (destination intoDirectory post.parts)).parts :=
    destination_append rfl (by decide) (by decide) (by rw [hroot]; decide) (by rw [hroot]; decide)
      fun r hr => hlegible r (List.mem_append_left _ hr)
  refine ⟨hlegible, rfl, by decide, hroot, by decide, ?_⟩
  rw [← hstages]
  decide

/-- The base name that rules leave ends in a name, off which the old extension is cut again. -/
theorem isName_lastPiece_rerooted (hext : p.parts.extension ≠ [])
    (hgiven : ∀ new, replaceFileRoot new ∈ rules →
      Text.lastPiece '/' new ≠ [] ∧ Text.lastPiece '/' new ≠ ['.']) :
    (Text.lastPiece '/' (rules.foldl rerooted p.parts.fileRoot) ++ p.parts.extension).IsName ∧
      (Parts.cutExtension (Text.lastPiece '/' (rules.foldl rerooted p.parts.fileRoot) ++
        p.parts.extension)).2 = p.parts.extension := by
  obtain ⟨rooted, dirs, base, -, hbase, hp⟩ := p.exists_parts_eq_ofBase
  obtain ⟨hroot, hsep⟩ := Parts.not_mem_cutExtension hbase
  rw [hp] at hext ⊢
  simp only [Parts.ofBase] at hext ⊢
  rcases foldl_rerooted_cases rules with ⟨new, hm, heq⟩ | heq
  · obtain ⟨hne, hhere⟩ := hgiven new hm
    obtain ⟨e, hdot, he⟩ := (Parts.cutExtension_snd base).resolve_left hext
    rw [he] at hsep
    rw [heq, he]
    have hname := Parts.isName_append_dot hne hhere
      (List.not_mem_append Text.not_mem_lastPiece hsep)
    exact ⟨hname, by rw [Parts.cutExtension_append_dot hne hdot hname.not_up]⟩
  · rw [heq, Text.lastPiece_of_not_mem hroot, Parts.cutExtension_append]
    exact ⟨Parts.isName_of_extension hbase hext, rfl⟩

/-- A target has the extension of the path it is made of, wherever the rules put it. -/
theorem extension_parts_destination (hext : p.parts.extension ≠ [])
    (hgiven : ∀ new, replaceFileRoot new ∈ rules →
      Text.lastPiece '/' new ≠ [] ∧ Text.lastPiece '/' new ≠ ['.']) :
    (Path.ofText (destination rules p.parts)).parts.extension = p.parts.extension := by
  obtain ⟨hname, hcut⟩ := isName_lastPiece_rerooted hext hgiven
  have hback := @Parts.extension_ofText_toText (rules.foldl apply p.parts)
  rw [foldl_apply] at hback
  rw [← hcut, Path.parts_ofText, destination, foldl_apply]
  exact hback p.unseparated_extension hname

def guide : Path := .ofString "docs/guide.v2.md"

def outOfDocs : List Rule :=
  [.replaceDir "docs".toList [], .appendDir ⟨"index".toList⟩ (.literal "../..".toList),
    .replaceFileRoot "old/..".toList]

theorem guide_keeps_extension :
    guide.parts.extension = ".md".toList ∧
      destination outOfDocs guide.parts = "../../old/...md".toList ∧
      (Path.ofText (destination outOfDocs guide.parts)).parts.extension = ".md".toList := by
  have hext : guide.parts.extension = ".md".toList := by decide
  have hgiven : ∀ new, replaceFileRoot new ∈ outOfDocs →
      Text.lastPiece '/' new ≠ [] ∧ Text.lastPiece '/' new ≠ ['.'] := by
    intro new h
    obtain rfl : new = "old/..".toList := by simpa [outOfDocs] using h
    decide
  refine ⟨hext, by decide, ?_⟩
  rw [extension_parts_destination (by rw [hext]; decide) hgiven, hext]

end Rule

end Relayout
