import Mathlib.Data.List.Nodup
import Relayout.Proofs.Disk.Survey
import Relayout.Proofs.Listing.Selected
import Relayout.Proofs.Path.Entries

/-!
# Walking a tree of directories

A directory gives its entries in whatever order it likes, and reading it may break off. A survey of
a tree without a failure holds a file exactly where the tree itself holds one, at a place that only
directories lead to. So the files listed are those of the tree, each once and none through a link,
and once they are selected and sorted nothing tells in which order they were found.
-/

namespace Relayout

namespace Node

/-- Whether the entries of all directories have names, and no two of one directory the same. -/
def Named (n : Node) : Prop := ∀ place entries, n.at? place = some (.dir entries) →
  (entries.map Prod.fst).Nodup ∧ ∀ e ∈ entries, e.1.IsName

mutual

/-- Whether a survey is one that can be made of a node. -/
inductive Surveyed : Node → Survey → Prop
  | file {content : Bytes} : Surveyed (.file content) .file
  | link {target : Path} : Surveyed (.link target) .link
  /-- The entries come in any order, and all of them unless reading broke off. -/
  | dir {entries order : List (Bytes × Node)} {given : List (Bytes × Survey)}
      {failure : Option SystemError} (hsub : order.Subperm entries)
      (hall : failure = none → order.Perm entries) (h : SurveyedIn order given) :
      Surveyed (.dir entries) (.dir given failure)
  | unknown {n : Node} {e : SystemError} : Surveyed n (.unknown e)

inductive SurveyedIn : List (Bytes × Node) → List (Bytes × Survey) → Prop
  | nil : SurveyedIn [] []
  | cons {name : Bytes} {n : Node} {s : Survey} {order : List (Bytes × Node)}
      {given : List (Bytes × Survey)} (h : Surveyed n s) (hrest : SurveyedIn order given) :
      SurveyedIn ((name, n) :: order) ((name, s) :: given)

end

/-- The files of a node, at the paths that its names lead to from a root. -/
structure Collected (n : Node) (root : Path) (found : List Path) : Prop where
  places : ∃ places : List Place, places.Nodup ∧
    (∀ place, place ∈ places ↔ ∃ content, n.at? place = some (.file content)) ∧
    found = places.map fun place => place.foldl Path.entry root
  apart : found.Pairwise fun p q => ¬ p.Same q
  unlinked : ∀ place target, n.at? place = some (.link target) →
    ∀ more : Place, (∀ name ∈ more, name.IsName) → (place ++ more).foldl Path.entry root ∉ found

variable {n m : Node} {s t : Survey} {entries order : List (Bytes × Node)}
  {given : List (Bytes × Survey)} {name : Bytes} {place more : Place} {root : Path}

/-! ## Places of a node -/

theorem mem_of_named? (h : named? name entries = some m) : (name, m) ∈ entries := by
  obtain ⟨⟨found, n⟩, hfind, rfl⟩ := Option.map_eq_some_iff.mp h
  have hname : found = name := by simpa using List.find?_some hfind
  exact hname ▸ List.mem_of_find?_eq_some hfind

theorem named?_of_mem (hnodup : (entries.map Prod.fst).Nodup) (h : (name, m) ∈ entries) :
    named? name entries = some m := by
  induction entries with
  | nil => cases h
  | cons e rest ih =>
    rw [List.map_cons, List.nodup_cons] at hnodup
    rcases List.mem_cons.mp h with rfl | hmem
    · simp [named?]
    · have hne : e.1 ≠ name := by
        rintro rfl
        exact hnodup.1 (List.mem_map.mpr ⟨_, hmem, rfl⟩)
      have hrest := ih hnodup.2 hmem
      simpa [named?, hne] using hrest

theorem at?_append : n.at? (place ++ more) = (n.at? place).bind (at? more) := by
  induction place generalizing n with
  | nil => rfl
  | cons name place ih =>
    cases n with
    | file content => rfl
    | link target => rfl
    | dir entries =>
      rw [List.cons_append, at?, at?, Option.bind_assoc]
      congr 1
      funext m
      exact ih

theorem named_file (content : Bytes) : (file content).Named := by
  intro place entries h
  cases place <;> cases h

theorem named_link (target : Path) : (link target).Named := by
  intro place entries h
  cases place <;> cases h

theorem named_dir_iff : (dir entries).Named ↔
    (entries.map Prod.fst).Nodup ∧ ∀ e ∈ entries, e.1.IsName ∧ e.2.Named := by
  constructor
  · intro h
    obtain ⟨hnodup, hnames⟩ := h [] entries rfl
    refine ⟨hnodup, fun e he => ⟨hnames e he, fun place inner hinner => ?_⟩⟩
    refine h (e.1 :: place) inner ?_
    rw [at?, named?_of_mem hnodup he]
    exact hinner
  · rintro ⟨hnodup, h⟩ place inner hinner
    cases place with
    | nil =>
      cases hinner
      exact ⟨hnodup, fun e he => (h e he).1⟩
    | cons name place =>
      obtain ⟨m, hm, hinner⟩ := Option.bind_eq_some_iff.mp hinner
      exact (h _ (mem_of_named? hm)).2 place inner hinner

mutual

def decideNamed : (n : Node) → Decidable n.Named
  | .file content => isTrue (named_file content)
  | .link target => isTrue (named_link target)
  | .dir entries =>
    have := decideNamedIn entries
    decidable_of_iff' _ named_dir_iff

def decideNamedIn :
    (entries : List (Bytes × Node)) → Decidable (∀ e ∈ entries, e.1.IsName ∧ e.2.Named)
  | [] => isTrue nofun
  | (_, n) :: rest =>
    have := decideNamed n
    have := decideNamedIn rest
    decidable_of_iff' _ List.forall_mem_cons

end

instance : DecidablePred Named := decideNamed

theorem Named.isName (hn : n.Named) (h : n.at? place = some m) : ∀ name ∈ place, name.IsName := by
  induction place generalizing n with
  | nil => simp
  | cons name place ih =>
    cases n with
    | file content => cases h
    | link target => cases h
    | dir entries =>
      obtain ⟨-, hentries⟩ := named_dir_iff.mp hn
      obtain ⟨u, hu, h⟩ := Option.bind_eq_some_iff.mp h
      obtain ⟨hname, hnamed⟩ := hentries _ (mem_of_named? hu)
      exact List.forall_mem_cons.mpr ⟨hname, ih hnamed h⟩

/-! ## What a survey finds -/

theorem SurveyedIn.map_fst (h : SurveyedIn order given) :
    given.map Prod.fst = order.map Prod.fst := by
  induction given generalizing order with
  | nil =>
    cases h
    rfl
  | cons f given ih =>
    cases h with
    | cons h hrest => simp [ih hrest]

theorem SurveyedIn.exists_node (h : SurveyedIn order given) (hmem : (name, s) ∈ given) :
    ∃ n, (name, n) ∈ order ∧ n.Surveyed s := by
  induction given generalizing order with
  | nil => cases hmem
  | cons f given ih =>
    cases h with
    | @cons _ n _ _ _ h hrest =>
      rcases List.mem_cons.mp hmem with heq | hmem
      · cases heq
        exact ⟨n, List.mem_cons_self, h⟩
      · obtain ⟨n, hn, hs⟩ := ih hrest hmem
        exact ⟨n, List.mem_cons_of_mem _ hn, hs⟩

theorem SurveyedIn.exists_survey (h : SurveyedIn order given) (hmem : (name, n) ∈ order) :
    ∃ s, (name, s) ∈ given ∧ n.Surveyed s := by
  induction given generalizing order with
  | nil =>
    cases h
    cases hmem
  | cons f given ih =>
    cases h with
    | @cons _ _ s _ _ h hrest =>
      rcases List.mem_cons.mp hmem with heq | hmem
      · cases heq
        exact ⟨s, List.mem_cons_self, h⟩
      · obtain ⟨s, hs, hn⟩ := ih hrest hmem
        exact ⟨s, List.mem_cons_of_mem _ hs, hn⟩

mutual

theorem surveyed_ofNode : ∀ n : Node, n.Surveyed (Survey.ofNode n)
  | .file _ => .file
  | .link _ => .link
  | .dir entries =>
    .dir (List.Subperm.refl entries) (fun _ => .refl entries) (surveyedIn_ofEntries entries)

theorem surveyedIn_ofEntries : ∀ entries, SurveyedIn entries (Survey.ofEntries entries)
  | [] => .nil
  | (_, n) :: rest => .cons (surveyed_ofNode n) (surveyedIn_ofEntries rest)

end

theorem holds_file_iff (hn : n.Named) (h : n.Surveyed s) (hs : s.Readable) :
    s.Holds place .file ↔ ∃ content, n.at? place = some (.file content) := by
  induction place generalizing n s with
  | nil =>
    rw [Survey.holds_nil_iff]
    cases h with
    | file => simp [at?]
    | link => simp [at?]
    | dir => simp [at?]
    | unknown => cases hs [] _ .here
  | cons name place ih =>
    rw [Survey.holds_cons_iff]
    cases h with
    | file => simp [at?]
    | link => simp [at?]
    | unknown => cases hs [] _ .here
    | @dir entries order given failure hsub hall h =>
      obtain ⟨hnodup, hentries⟩ := named_dir_iff.mp hn
      have hperm : order.Perm entries := by
        cases failure with
        | none => exact hall rfl
        | some e => cases hs [] _ .here
      constructor
      · rintro ⟨_, _, u, heq, hmem, hu⟩
        cases heq
        obtain ⟨m, hm, hsurveyed⟩ := h.exists_node hmem
        have hentry := hperm.mem_iff.mp hm
        obtain ⟨content, hcontent⟩ :=
          (ih (hentries _ hentry).2 hsurveyed (hs.inside hmem)).mp hu
        refine ⟨content, ?_⟩
        rw [at?, named?_of_mem hnodup hentry]
        exact hcontent
      · rintro ⟨content, hcontent⟩
        obtain ⟨m, hm, hcontent⟩ := Option.bind_eq_some_iff.mp hcontent
        have hentry := mem_of_named? hm
        obtain ⟨u, hmem, hsurveyed⟩ := h.exists_survey (hperm.mem_iff.mpr hentry)
        exact ⟨given, failure, u, rfl, hmem,
          (ih (hentries _ hentry).2 hsurveyed (hs.inside hmem)).mpr ⟨content, hcontent⟩⟩

theorem nodup_places (hn : n.Named) (h : n.Surveyed s) : s.places.Nodup := by
  induction s using Survey.induction generalizing n with
  | file => exact List.nodup_singleton _
  | link => exact List.nodup_nil
  | unknown e => exact List.nodup_nil
  | dir given failure ih =>
    cases h with
    | @dir entries order _ _ hsub _ h =>
      obtain ⟨hnodup, hentries⟩ := named_dir_iff.mp hn
      have hgiven : (given.map Prod.fst).Nodup := by
        obtain ⟨part, hpart, hentries⟩ := hsub
        rw [h.map_fst, ← (hpart.map Prod.fst).nodup_iff]
        exact hnodup.sublist (hentries.map Prod.fst)
      rw [Survey.places, Survey.placesIn_eq, List.nodup_flatMap]
      constructor
      · intro e he
        obtain ⟨m, hm, hsurveyed⟩ := h.exists_node he
        have hplaces := ih e he (hentries _ (hsub.subset hm)).2 hsurveyed
        exact hplaces.map (List.cons_injective)
      · refine (List.pairwise_map.mp hgiven).imp fun hne => ?_
        intro place hleft hright
        obtain ⟨inner, -, rfl⟩ := List.mem_map.mp hleft
        obtain ⟨inner', -, heq⟩ := List.mem_map.mp hright
        exact hne (List.cons.inj heq).1.symm

theorem collected_places (hn : n.Named) (h : n.Surveyed s) (hs : s.Readable) (root : Path) :
    n.Collected root (s.places.map fun place => place.foldl Path.entry root) := by
  have hfiles : ∀ place, place ∈ s.places ↔ ∃ content, n.at? place = some (.file content) :=
    fun place => Survey.mem_places_iff.trans (holds_file_iff hn h hs)
  have hnames : ∀ place ∈ s.places, ∀ name ∈ place, name.IsName := by
    intro place hplace
    obtain ⟨content, hcontent⟩ := (hfiles place).mp hplace
    exact hn.isName hcontent
  refine ⟨⟨s.places, nodup_places hn h, hfiles, rfl⟩, ?_, ?_⟩
  · rw [List.pairwise_map]
    refine (nodup_places hn h).imp_of_mem fun {p q} hp hq hne hsame => ?_
    exact hne ((Path.same_foldl_entry_iff root (hnames p hp) (hnames q hq)).mp hsame)
  · intro place target hlink more hmore hmem
    obtain ⟨file, hfile, heq⟩ := List.mem_map.mp hmem
    have hthrough : ∀ name ∈ place ++ more, name.IsName :=
      List.forall_mem_append.mpr ⟨hn.isName hlink, hmore⟩
    have hsame : (file.foldl Path.entry root).Same ((place ++ more).foldl Path.entry root) := by
      rw [heq]
      exact .refl _
    obtain rfl := (Path.same_foldl_entry_iff root (hnames file hfile) hthrough).mp hsame
    obtain ⟨content, hcontent⟩ := (hfiles _).mp hfile
    rw [at?_append, hlink] at hcontent
    cases more <;> cases hcontent

end Node

variable {s : Survey} {entries : List (Bytes × Node)}

theorem Disk.survey_eq_ofNode {d : Disk} {p : Path} {place : Place} (hfind : d.find p = .ok place)
    (hdir : d.root.at? place = some (.dir entries)) :
    d.survey p = Survey.ofNode (.dir entries) := by
  simp only [survey, hfind, hdir, Survey.ofNode]

/-- What is listed of a tree of directories are its files, each once and none through a link.
Selecting and sorting them loses none, and hides the order in which the directories gave their
entries. If any of them could not be read, this is told instead. -/
theorem Node.walk_exact (hn : (dir entries).Named) (hs : (dir entries).Surveyed s) (root : Path) :
    (∀ (d : Disk) (place : Place), d.find root = .ok place →
      d.root.at? place = some (.dir entries) →
        (dir entries).Surveyed (d.survey root) ∧ (d.survey root).Readable) ∧
      (s.Readable → ∃ found, s.files root = .ok found ∧ (dir entries).Collected root found ∧
        ∀ selection : Glob.Selection,
          (Listing.below root selection found).Perm
              (found.filter fun p => (root.below? p).any selection.accepts) ∧
            ∀ t, (dir entries).Surveyed t → t.Readable → ∃ again, t.files root = .ok again ∧
              Listing.below root selection again = Listing.below root selection found) ∧
      (¬ s.Readable → ∃ place t operation e, s.Holds place t ∧
        t.failure? = some (operation, e) ∧
          s.files root = .error (.io operation (place.foldl Path.entry root) e)) := by
  refine ⟨?_, ?_, fun hr => Survey.files_of_not_readable hr root⟩
  · intro d place hfind hdir
    rw [Disk.survey_eq_ofNode hfind hdir]
    exact ⟨surveyed_ofNode _, Survey.readable_ofNode _⟩
  · intro hr
    have hcollected := collected_places hn hs hr root
    have hone := Path.unambiguous_of_apart hcollected.apart
    refine ⟨_, Survey.files_of_readable hr root, hcollected, fun selection => ⟨?_, ?_⟩⟩
    · exact Path.sorted_perm (hcollected.apart.filter _)
    · intro t ht htr
      have hplaces : ∀ place, place ∈ t.places ↔ place ∈ s.places := by
        intro place
        rw [Survey.mem_places_iff, Survey.mem_places_iff, holds_file_iff hn ht htr,
          holds_file_iff hn hs hr]
      refine ⟨_, Survey.files_of_readable htr root, Listing.below_eq_of_mem_iff hone fun p => ?_⟩
      simp only [List.mem_map, hplaces]

namespace Survey

def name (s : String) : Bytes := Text.toUtf8 s.toList

def shop : Path := .ofString "/shop"

def shelves : List (Bytes × Node) :=
  [(name "lib", .dir [(name "b.ts", .file []), (name "up", .link shop)]),
    (name "a.ts", .file []), (name "old", .link (.ofString "lib"))]

def shopDisk : Disk := ⟨.dir [(name "shop", .dir shelves)], []⟩

/-- A survey that came upon a file before the directory that it could not open. -/
def locked : Survey :=
  .dir [(name "old", .link), (name "a.ts", .file), (name "lib", .unreadable (.errno 13))] none

theorem shop_walked :
    (Node.dir shelves).Named ∧ shopDisk.find shop = .ok [name "shop"] ∧
      (Node.dir shelves).Surveyed (shopDisk.survey shop) ∧ (shopDisk.survey shop).Readable ∧
      (shopDisk.survey shop).files shop =
        .ok [.ofString "/shop/lib/b.ts", .ofString "/shop/a.ts"] ∧
      (Node.dir shelves).Collected shop [.ofString "/shop/lib/b.ts", .ofString "/shop/a.ts"] ∧
      (Node.dir shelves).Surveyed (ofNode (.dir shelves.reverse)) ∧
      (ofNode (.dir shelves.reverse)).files shop =
        .ok [.ofString "/shop/a.ts", .ofString "/shop/lib/b.ts"] ∧
      (∀ selection,
        Listing.below shop selection [.ofString "/shop/a.ts", .ofString "/shop/lib/b.ts"] =
          Listing.below shop selection [.ofString "/shop/lib/b.ts", .ofString "/shop/a.ts"]) ∧
      (Node.dir shelves).Surveyed locked ∧ ¬ locked.Readable ∧
      ∃ place t operation e, locked.Holds place t ∧ t.failure? = some (operation, e) ∧
        locked.files shop = .error (.io operation (place.foldl Path.entry shop) e) := by
  have hnamed : (Node.dir shelves).Named := by decide
  have hlocate : shopDisk.locate (fun _ => true) Disk.linkLimit false [] [name "shop"] =
      .ok ⟨[], some (name "shop"), false⟩ := by
    rw [Disk.locate]
    rfl
  have hspot : shopDisk.locatePath (fun _ => true) shop =
      .ok ⟨[], some (name "shop"), false⟩ := hlocate
  have hfind : shopDisk.find shop = .ok [name "shop"] := by
    simp only [Disk.find, hspot]
    rfl
  have hread : shopDisk.survey shop = ofNode (.dir shelves) := Disk.survey_eq_ofNode hfind rfl
  have hfiles : (shopDisk.survey shop).files shop =
      .ok [.ofString "/shop/lib/b.ts", .ofString "/shop/a.ts"] := by
    rw [hread]
    rfl
  have horder : shelves.reverse.Perm shelves := List.reverse_perm shelves
  have hreversed : (Node.dir shelves).Surveyed (ofNode (.dir shelves.reverse)) :=
    .dir horder.subperm (fun _ => horder) (Node.surveyedIn_ofEntries _)
  have hlib : (Node.dir [(name "b.ts", .file []), (name "up", .link shop)]).Surveyed
      (.unreadable (.errno 13)) :=
    .dir List.nil_subperm (fun h => absurd h (Option.some_ne_none _)) .nil
  have hlocked : (Node.dir shelves).Surveyed locked :=
    .dir horder.subperm (fun _ => horder) (.cons .link (.cons .file (.cons hlib .nil)))
  have hunread : ¬ locked.Readable := by
    intro h
    have hmem : (name "lib", unreadable (.errno 13)) ∈
        [(name "old", link), (name "a.ts", file), (name "lib", unreadable (.errno 13))] := by
      simp
    cases h [name "lib"] _ (.inside hmem .here)
  obtain ⟨hdisk, -, herror⟩ := Node.walk_exact hnamed hlocked shop
  obtain ⟨hsurvey, hreadable⟩ := hdisk shopDisk _ hfind rfl
  obtain ⟨-, hok, -⟩ := Node.walk_exact hnamed hsurvey shop
  obtain ⟨found, hfound, hcollected, hlisting⟩ := hok hreadable
  cases hfiles.symm.trans hfound
  refine ⟨hnamed, hfind, hsurvey, hreadable, hfiles, hcollected, hreversed, rfl, ?_, hlocked,
    hunread, herror hunread⟩
  intro selection
  obtain ⟨again, hagain, hsame⟩ := (hlisting selection).2 _ hreversed (readable_ofNode _)
  cases hagain
  exact hsame

end Survey

end Relayout
