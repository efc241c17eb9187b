import Relayout.Proofs.Path.Ancestors
import Relayout.Proofs.Path.Names

/-!
# The canonical text of a path

Pieces read from left to right, each by the rule for its kind, leave one stack, and normalizing
prints it. What is printed has a form that its pieces show, and the texts of that form are those
that normalizing leaves as they are. Read back, it gives the stack that was printed, so more may be
read after it, and two paths have one canonical text only where they have one stack.
-/

namespace Relayout

namespace Lexical

variable {rooted : Bool} {stack after pieces : List Text} {piece t u : Text}

/-! ## Reading and printing -/

/-- What one piece makes of the pieces read before it, the last of which comes first. -/
inductive Turns (rooted : Bool) : List Text → Text → List Text → Prop
  | idle {stack : List Text} {piece : Text} (h : piece = [] ∨ piece = ['.']) :
      Turns rooted stack piece stack
  | name {stack : List Text} {piece : Text} (h : piece.IsName) :
      Turns rooted stack piece (piece :: stack)
  | back {stack : List Text} {last : Text} (h : last.IsName) :
      Turns rooted (last :: stack) ['.', '.'] stack
  /-- There is no name to go back from, and a relative path leads out of where it starts. -/
  | out {stack : List Text} (hrooted : rooted = false)
      (h : ∀ last ∈ stack.head?, last = ['.', '.']) :
      Turns rooted stack ['.', '.'] (['.', '.'] :: stack)
  | stay (hrooted : rooted = true) : Turns rooted [] ['.', '.'] []

/-- What pieces read one after the other make of a stack. -/
inductive Reads (rooted : Bool) : List Text → List Text → List Text → Prop
  | done {stack : List Text} : Reads rooted stack [] stack
  | next {before between after pieces : List Text} {piece : Text}
      (h : Turns rooted before piece between) (hs : Reads rooted between pieces after) :
      Reads rooted before (piece :: pieces) after

/-- The text of a stack. An empty one is the root, or the place where relative paths start. -/
def printed (rooted : Bool) (stack : List Text) : Text :=
  if rooted then '/' :: ['/'].intercalate stack.reverse
  else if stack = [] then ['.']
  else ['/'].intercalate stack.reverse

/-- All pieces of a text are read onto an empty stack, which is printed. -/
def Resolves (t u : Text) : Prop :=
  ∃ stack, Reads (t.head? = some '/') [] (t.splitOn '/') stack ∧
    u = printed (t.head? = some '/') stack

theorem push_up_name {last : Text} (h : last.IsName) :
    push rooted (last :: stack) ['.', '.'] = stack := by
  simp [push, h.not_up]

theorem turns_iff (hs : Stacked rooted stack) (hp : '/' ∉ piece) :
    Turns rooted stack piece after ↔ push rooted stack piece = after := by
  constructor
  · intro h
    cases h with
    | idle h => exact push_idle h
    | name h => exact push_name h
    | back h => exact push_up_name h
    | out hrooted h =>
      subst hrooted
      cases stack with
      | nil => rfl
      | cons last rest => simp [push, h last rfl]
    | stay hrooted =>
      subst hrooted
      rfl
  · rintro rfl
    by_cases hidle : piece = [] ∨ piece = ['.']
    · rw [push_idle hidle]
      exact .idle hidle
    by_cases hup : piece = ['.', '.']
    · -- what a `..` does is up to what stands on top: nothing but a `..`, or a name
      subst hup
      cases hs with
      | ups n hn =>
        rw [push_up_ups hn]
        cases rooted with
        | true =>
          obtain rfl := hn rfl
          exact .stay rfl
        | false =>
          exact .out rfl fun last hlast => List.eq_of_mem_replicate (List.mem_of_head? hlast)
      | name hn _ =>
        rw [push_up_name hn]
        exact .back hn
    · rw [not_or] at hidle
      have hname : piece.IsName := ⟨hidle.1, hp, hidle.2, hup⟩
      rw [push_name hname]
      exact .name hname

theorem reads_iff (hs : Stacked rooted stack) (hp : ∀ piece ∈ pieces, '/' ∉ piece) :
    Reads rooted stack pieces after ↔ pieces.foldl (push rooted) stack = after := by
  induction pieces generalizing stack with
  | nil =>
    constructor
    · rintro ⟨⟩
      rfl
    · rintro rfl
      exact .done
  | cons piece pieces ih =>
    have hpiece : '/' ∉ piece := hp piece List.mem_cons_self
    have hrest := ih (hs.push hpiece) fun q hq => hp q (.tail piece hq)
    constructor
    · intro h
      cases h with
      | next h h' =>
        obtain rfl := (turns_iff hs hpiece).mp h
        exact hrest.mp h'
    · intro h
      exact .next ((turns_iff hs hpiece).mpr rfl) (hrest.mpr h)

theorem printed_eq_render : printed rooted stack = render rooted stack.reverse := by
  cases rooted with
  | true => simp [printed, render, Text.joined_eq_intercalate]
  | false =>
    by_cases hnil : stack = []
    · subst hnil
      rfl
    · rw [render_relative (mt List.reverse_eq_nil_iff.mp hnil), Text.joined_eq_intercalate]
      simp [printed, hnil]

theorem resolves_iff :
    Resolves t u ↔ u = render (t.head? = some '/')
      (resolve (t.head? = some '/') (Text.pieces '/' t)) := by
  have hread : ∀ stack, Reads (t.head? = some '/') [] (Text.pieces '/' t) stack ↔
      (Text.pieces '/' t).foldl (push (t.head? = some '/')) [] = stack := fun stack =>
    reads_iff (.ups 0 fun _ => rfl) fun piece hp => Text.not_mem_of_mem_pieces hp
  simp only [Resolves, ← Text.pieces_eq_splitOn, hread, printed_eq_render, exists_eq_left',
    resolve]

/-! ## Reading what was printed -/

theorem Stacked.busy (h : Stacked rooted stack) :
    ∀ piece ∈ stack, piece ≠ [] ∧ piece ≠ ['.'] ∧ '/' ∉ piece := by
  intro piece hp
  rcases h.isName_or_up piece hp with hname | ⟨-, rfl⟩
  · exact ⟨hname.nonempty, hname.not_here, hname.unseparated⟩
  · decide

/-- The text of a stack gives the stack back. -/
theorem resolve_pieces_render (h : Stacked rooted pieces.reverse) :
    resolve rooted (Text.pieces '/' (render rooted pieces)) = pieces := by
  have hsep : ∀ piece ∈ pieces, '/' ∉ piece :=
    fun piece hp => (h.busy piece (List.mem_reverse.mpr hp)).2.2
  have hback : resolve rooted pieces = pieces := by simpa using h.resolve_reverse
  by_cases hnil : pieces = []
  · subst hnil
    cases rooted <;> decide
  have hpieces := Text.pieces_joined hsep hnil
  cases rooted with
  | true =>
    have hroot : Text.pieces '/' (render true pieces) = [] :: pieces := by
      rw [render, Text.pieces, if_pos rfl, hpieces]
    rw [hroot, resolve, List.foldl_cons, push_idle (.inl rfl)]
    exact hback
  | false => rw [render_relative hnil, hpieces, hback]

theorem resolve_append (pieces more : List Text) :
    resolve rooted (pieces ++ more) =
      (more.foldl (push rooted) (resolve rooted pieces).reverse).reverse := by
  simp [resolve]

theorem stacked_iff : Stacked rooted stack ↔ ∃ n names,
    stack = names ++ List.replicate n ['.', '.'] ∧ (∀ name ∈ names, name.IsName) ∧
      (rooted = true → n = 0) := by
  constructor
  · intro h
    induction h with
    | ups n hn => exact ⟨n, [], rfl, nofun, hn⟩
    | name hn _ ih =>
      obtain ⟨n, names, rfl, hnames, hrooted⟩ := ih
      exact ⟨n, _ :: names, rfl, List.forall_mem_cons.mpr ⟨hn, hnames⟩, hrooted⟩
  · rintro ⟨n, names, rfl, hnames, hrooted⟩
    induction names with
    | nil => exact .ups n hrooted
    | cons name names ih =>
      obtain ⟨hname, hrest⟩ := List.forall_mem_cons.mp hnames
      exact .name hname (ih hrest)

end Lexical

namespace Path

variable {p q : Path} {pieces : List Text} {b : Bytes}

/-- The text behind the root. -/
def unrooted (p : Path) : Text := if p.isAbsolute then p.text.tail else p.text

/-- The form of a normalized text, as its pieces show it. -/
structure Canonical (p : Path) : Prop where
  /-- No piece stands for nothing, but in the texts that hold nothing else. -/
  busy : p.text = ['.'] ∨ p.text = ['/'] ∨
    ∀ piece ∈ p.unrooted.splitOn '/', piece ≠ [] ∧ piece ≠ ['.']
  /-- Each `..` stands in front of all names, where the path is not absolute. -/
  leading : ∃ n names, p.unrooted.splitOn '/' = List.replicate n ['.', '.'] ++ names ∧
    ['.', '.'] ∉ names ∧ (p.isAbsolute = true → n = 0)

theorem resolved_eq (p : Path) :
    p.resolved = Lexical.resolve p.isAbsolute (Text.pieces '/' p.text) := by
  rw [resolved, resolve_components]

theorem stacked_resolved (p : Path) : Lexical.Stacked p.isAbsolute p.resolved.reverse := by
  rw [resolved_eq]
  exact Lexical.stacked_resolve fun piece hp => Text.not_mem_of_mem_pieces hp

theorem isAbsolute_normalize (p : Path) : p.normalize.isAbsolute = p.isAbsolute := by
  have hbusy := fun piece hp => p.stacked_resolved.busy piece (List.mem_reverse.mpr hp)
  rw [isAbsolute_eq p.normalize, normalize_eq, text_ofText]
  exact Lexical.decide_head?_render (fun piece hp => (hbusy piece hp).1)
    fun piece hp => (hbusy piece hp).2.2

theorem resolved_normalize (p : Path) : p.normalize.resolved = p.resolved := by
  rw [resolved_eq, isAbsolute_normalize, normalize_eq, text_ofText]
  exact Lexical.resolve_pieces_render p.stacked_resolved

theorem unrooted_render (h : p.text = Lexical.render p.isAbsolute pieces) (hne : pieces ≠ []) :
    p.unrooted = Text.joined '/' pieces := by
  rw [unrooted, h]
  cases p.isAbsolute with
  | true => rfl
  | false => exact Lexical.render_relative hne

theorem render_unrooted (p : Path) :
    Lexical.render p.isAbsolute (Text.pieces '/' p.unrooted) = p.text := by
  have habs := p.isAbsolute_eq
  rw [unrooted]
  cases hp : p.isAbsolute with
  | true =>
    rw [hp, eq_comm, decide_eq_true_iff, List.head?_eq_some_iff] at habs
    obtain ⟨s, hs⟩ := habs
    simp [hs, Lexical.render, Text.joined_pieces]
  | false =>
    rw [Lexical.render_relative (Text.pieces_ne_nil _ _), Text.joined_pieces]
    rfl

theorem canonical_of_render (hs : Lexical.Stacked p.isAbsolute pieces.reverse)
    (ht : p.text = Lexical.render p.isAbsolute pieces) : p.Canonical := by
  by_cases hnil : pieces = []
  · subst hnil
    have hempty : p.text = ['/'] ∧ p.unrooted = [] ∨ p.text = ['.'] ∧ p.unrooted = ['.'] := by
      rw [unrooted, ht]
      cases p.isAbsolute <;> decide
    rcases hempty with ⟨htext, hrest⟩ | ⟨htext, hrest⟩
    · exact ⟨.inr (.inl htext), 0, [[]], by rw [hrest]; rfl, by decide, fun _ => rfl⟩
    · exact ⟨.inl htext, 0, [['.']], by rw [hrest]; rfl, by decide, fun _ => rfl⟩
  · have hsplit : p.unrooted.splitOn '/' = pieces := by
      rw [unrooted_render ht hnil, ← Text.pieces_eq_splitOn, Text.pieces_joined _ hnil]
      exact fun piece hp => (hs.busy piece (List.mem_reverse.mpr hp)).2.2
    obtain ⟨n, names, heq, hnames, hrooted⟩ := Lexical.stacked_iff.mp hs
    refine ⟨.inr (.inr ?_), n, names.reverse, ?_, ?_, hrooted⟩
    · intro piece hp
      rw [hsplit] at hp
      obtain ⟨hne, hhere, -⟩ := hs.busy piece (List.mem_reverse.mpr hp)
      exact ⟨hne, hhere⟩
    · rw [hsplit, ← List.reverse_reverse pieces, heq]
      simp
    · intro hup
      exact (hnames _ (List.mem_reverse.mp hup)).not_up rfl

theorem Canonical.exists_render (h : p.Canonical) : ∃ pieces : List Text,
    Lexical.Stacked p.isAbsolute pieces.reverse ∧ p.text = Lexical.render p.isAbsolute pieces := by
  obtain ⟨n, names, hsplit, hup, hrooted⟩ := h.leading
  rcases h.busy with hhere | hroot | hbusy
  · refine ⟨[], .ups 0 fun _ => rfl, ?_⟩
    rw [isAbsolute_eq, hhere]
    rfl
  · refine ⟨[], .ups 0 fun _ => rfl, ?_⟩
    rw [isAbsolute_eq, hroot]
    rfl
  · rw [hsplit] at hbusy
    rw [← Text.pieces_eq_splitOn] at hsplit
    -- a busy piece that is no `..` is a name
    have hnames : ∀ name ∈ names.reverse, Text.IsName name := by
      intro name hname
      rw [List.mem_reverse] at hname
      obtain ⟨hne, hhere⟩ := hbusy name (List.mem_append_right _ hname)
      exact ⟨hne, Text.not_mem_of_mem_pieces (hsplit ▸ List.mem_append_right _ hname), hhere,
        fun h => hup (h ▸ hname)⟩
    refine ⟨List.replicate n ['.', '.'] ++ names, ?_, by rw [← hsplit, render_unrooted]⟩
    exact Lexical.stacked_iff.mpr ⟨n, names.reverse, by simp, hnames, hrooted⟩

theorem canonical_normalize (p : Path) : p.normalize.Canonical := by
  have hs := p.stacked_resolved
  rw [← isAbsolute_normalize] at hs
  refine canonical_of_render hs ?_
  rw [isAbsolute_normalize, normalize_eq, text_ofText]

theorem isText_normalize (p : Path) : p.normalize.IsText := isText_ofText _

/-- The paths that normalizing leaves as they are. -/
theorem normalize_eq_self_iff : p.normalize = p ↔ p.IsText ∧ p.Canonical := by
  constructor
  · intro h
    exact h ▸ ⟨p.isText_normalize, p.canonical_normalize⟩
  · rintro ⟨htext, h⟩
    obtain ⟨pieces, hs, ht⟩ := h.exists_render
    rw [normalize_eq, resolved_eq, ht, Lexical.resolve_pieces_render hs, ← ht]
    exact replaced_eq_self_iff.mpr htext

theorem normalize_normalize (p : Path) : p.normalize.normalize = p.normalize :=
  normalize_eq_self_iff.mpr ⟨p.isText_normalize, p.canonical_normalize⟩

/-- Normalizing is reading all pieces by the rules, and its result is in canonical form. -/
theorem normalize_resolves (p : Path) :
    (∀ u, Lexical.Resolves p.text u ↔ ofText u = p.normalize) ∧
      p.normalize.isAbsolute = p.isAbsolute ∧ p.normalize.Canonical ∧
      p.normalize.normalize = p.normalize := by
  refine ⟨?_, p.isAbsolute_normalize, p.canonical_normalize, p.normalize_normalize⟩
  intro u
  rw [Lexical.resolves_iff, normalize_eq, resolved_eq, isAbsolute_eq, ofText_inj]

example : (ofString "a/../../b//./c/../d.e/").normalize = ofString "../b/d.e" := by
  decide

/-! ## Reading on -/

theorem Canonical.text_ne_nil (h : p.Canonical) : p.text ≠ [] := by
  intro ht
  rcases h.busy with hhere | hroot | hbusy
  · exact absurd (ht.symm.trans hhere) (by decide)
  · exact absurd (ht.symm.trans hroot) (by decide)
  · exact (hbusy [] (by simp [unrooted, ht])).1 rfl

theorem isAbsolute_append (hp : p.bytes ≠ []) :
    (Path.mk (p.bytes ++ slash :: b)).isAbsolute = p.isAbsolute := by
  rw [isAbsolute_eq_bytes, isAbsolute_eq_bytes, List.head?_append_of_ne_nil _ hp]

theorem resolved_append (hp : p.bytes ≠ []) :
    (Path.mk (p.bytes ++ slash :: b)).resolved =
      ((Text.pieces '/' (Text.ofUtf8 b)).foldl (Lexical.push p.isAbsolute)
        p.resolved.reverse).reverse := by
  rw [resolved_eq, isAbsolute_append hp, text_append, Text.pieces_append_cons,
    Lexical.resolve_append, resolved_eq]

/-- What stands in front may be normalized before more is read behind it. -/
theorem normalize_append (p : Path) (b : Bytes) (hp : p.bytes ≠ []) :
    (Path.mk (p.bytes ++ slash :: b)).normalize =
      (Path.mk (p.normalize.bytes ++ slash :: b)).normalize := by
  have hp' : p.normalize.bytes ≠ [] := text_eq_nil_iff.not.mp p.canonical_normalize.text_ne_nil
  rw [normalize_eq, normalize_eq (Path.mk (p.normalize.bytes ++ slash :: b)),
    isAbsolute_append hp, isAbsolute_append hp', resolved_append hp, resolved_append hp',
    isAbsolute_normalize, resolved_normalize]

def docs : Path := ofString "docs/../..//"

/-- The `..` that is left in front is not taken away by the one that is read on. -/
theorem docs_append :
    docs.bytes ≠ [] ∧ docs.normalize = ofString ".." ∧
      (ofString "docs/../..////../srv/./").normalize =
        (ofString "..//../srv/./").normalize ∧
      (ofString "..//../srv/./").normalize = ofString "../../srv" := by
  have hback : docs.normalize = ofString ".." := by decide
  have hread := normalize_append docs (Text.toUtf8 "/../srv/./".toList) (by decide)
  rw [hback] at hread
  exact ⟨by decide, hback, hread, by decide⟩

/-! ## Equality of places and of canonical texts -/

theorem normalize_eq_iff :
    p.normalize = q.normalize ↔ p.isAbsolute = q.isAbsolute ∧ p.resolved = q.resolved := by
  constructor
  · intro h
    rw [← isAbsolute_normalize, ← isAbsolute_normalize q, ← resolved_normalize,
      ← resolved_normalize q, h]
    exact ⟨rfl, rfl⟩
  · rintro ⟨habs, hresolved⟩
    rw [normalize_eq, normalize_eq q, habs, hresolved]

/-- A path that goes down from where it starts, without saying so by a `.` in front. -/
structure Straight (p : Path) : Prop where
  nonempty : p.text ≠ []
  no_up : ['.', '.'] ∉ Text.pieces '/' p.text
  no_here : (Text.pieces '/' p.text).head? ≠ some ['.']

instance (p : Path) : Decidable p.Straight :=
  decidable_of_iff (p.text ≠ [] ∧ (∀ piece ∈ Text.pieces '/' p.text, piece ≠ ['.', '.']) ∧
      (Text.pieces '/' p.text).head? ≠ some ['.'])
    ⟨fun ⟨h₁, h₂, h₃⟩ => ⟨h₁, fun hup => h₂ _ hup rfl, h₃⟩,
      fun ⟨h₁, h₂, h₃⟩ => ⟨h₁, fun _ hp heq => h₂ (heq ▸ hp), h₃⟩⟩

theorem Straight.replaced (h : p.Straight) : p.replaced.Straight := by
  refine ⟨?_, ?_, ?_⟩
  all_goals rw [text_replaced]
  · exact h.nonempty
  · exact h.no_up
  · exact h.no_here

theorem Component.filterMap_ofPiece? (h : ['.', '.'] ∉ pieces) :
    (pieces.map Text.toUtf8).filterMap ofPiece? =
      (pieces.filter fun t => t ≠ [] ∧ t ≠ ['.']).map fun n : Text => name n.toUtf8 := by
  induction pieces with
  | nil => rfl
  | cons t pieces ih =>
    obtain ⟨hup, hrest⟩ := not_or.mp (List.mem_cons.not.mp h)
    by_cases hidle : t = [] ∨ t = ['.']
    · have hnone : ofPiece? t.toUtf8 = none := by rcases hidle with rfl | rfl <;> rfl
      rw [List.map_cons, List.filterMap_cons_none hnone, ih hrest, List.filter_cons_of_neg]
      simpa [or_iff_not_imp_left] using hidle
    · have hsome : ofPiece? t.toUtf8 = some (.name t.toUtf8) :=
        ofPiece?_kept
          (mt (Or.imp (@Text.toUtf8_injective t []) (@Text.toUtf8_injective t ['.'])) hidle)
          fun heq => hup (@Text.toUtf8_injective ['.', '.'] t heq.symm)
      rw [List.map_cons, List.filterMap_cons_some hsome, ih hrest, List.filter_cons_of_pos,
        List.map_cons]
      simpa [not_or] using hidle

theorem components_of_pieces (hne : p.bytes ≠ [])
    (hhere : (Text.pieces slash p.bytes).head? ≠ some [dot]) :
    p.components = (if p.isAbsolute then [.root] else []) ++
      (Text.pieces slash p.bytes).filterMap Component.ofPiece? := by
  obtain ⟨bytes⟩ := p
  by_cases hroot : ∃ s, bytes = slash :: s
  · obtain ⟨s, rfl⟩ := hroot
    rfl
  · have hcut : cut ⟨bytes⟩ = (.relative, Text.pieces slash bytes) := by
      apply cut_relative
      intro piece hp
      refine ⟨?_, fun h => hhere (h ▸ hp)⟩
      rintro rfl
      obtain ⟨rest, hpieces⟩ := List.head?_eq_some_iff.mp hp
      exact (Text.eq_nil_or_cons_of_pieces hpieces).elim hne hroot
    simp [components, isAbsolute, hcut, Head.components]

theorem Straight.components_eq (h : p.Straight) (htext : p.IsText) :
    p.components =
      (if p.isAbsolute then [.root] else []) ++ p.resolved.map fun n => .name n.toUtf8 := by
  obtain ⟨t, rfl⟩ := htext.exists_ofText
  have hhere : (Text.pieces slash (ofText t).bytes).head? ≠ some [dot] := by
    rw [pieces_bytes_ofText, List.head?_map, ne_eq, Option.map_eq_some_iff]
    rintro ⟨piece, hpiece, heq⟩
    obtain rfl : piece = ['.'] := Text.toUtf8_injective heq
    exact h.no_here (by rwa [text_ofText])
  rw [components_of_pieces (text_eq_nil_iff.not.mp h.nonempty) hhere, pieces_bytes_ofText,
    Component.filterMap_ofPiece? (by simpa using h.no_up), resolved_eq,
    Lexical.resolve_of_not_mem_up h.no_up, text_ofText]

theorem Straight.same_of_normalize_eq (hp : p.Straight) (hq : q.Straight) (hptext : p.IsText)
    (hqtext : q.IsText) (h : p.normalize = q.normalize) : p.Same q := by
  obtain ⟨habs, hresolved⟩ := normalize_eq_iff.mp h
  rw [Same, hp.components_eq hptext, hq.components_eq hqtext, habs, hresolved]

theorem normalize_replaced (p : Path) : p.replaced.normalize = p.normalize := by
  rw [normalize, normalize, parts_replaced]

/-- Paths of one place have one canonical text. Straight paths of one canonical text have one place
once their strays are replaced, and where they have none. -/
theorem normalize_agrees (p q : Path) :
    (p.Same q → p.normalize = q.normalize) ∧
      (p.Straight → q.Straight → p.normalize = q.normalize →
        p.replaced.Same q.replaced ∧ (p.IsText → q.IsText → p.Same q)) := by
  refine ⟨Same.normalize_eq, ?_⟩
  intro hp hq h
  refine ⟨?_, fun hptext hqtext => hp.same_of_normalize_eq hq hptext hqtext h⟩
  rw [← normalize_replaced p, ← normalize_replaced q] at h
  exact hp.replaced.same_of_normalize_eq hq.replaced p.isText_replaced q.isText_replaced h

def hosts : Path := ofString "/./etc//hosts.d/."

def hostsAgain : Path := ofString "//etc/./hosts.d/"

theorem hosts_agree :
    hosts.Straight ∧ hostsAgain.Straight ∧ hosts.IsText ∧ hostsAgain.IsText ∧
      hosts.Same hostsAgain ∧ hosts.normalize = hostsAgain.normalize := by
  have hsame : hosts.Same hostsAgain :=
    ((normalize_agrees hosts hostsAgain).2 (by decide) (by decide) (by decide)).2
      (by decide) (by decide)
  exact ⟨by decide, by decide, by decide, by decide, hsame,
    (normalize_agrees hosts hostsAgain).1 hsame⟩

/-- A `.` in front is a component and leaves no trace in the canonical text. -/
example : (ofString "./etc").normalize = (ofString "etc").normalize ∧
    ¬ (ofString "./etc").Same (ofString "etc") := by
  decide

/-- Strays are all replaced alike, so two places can have one canonical text. -/
theorem strays_disagree :
    stray.Straight ∧ otherStray.Straight ∧ stray.normalize = otherStray.normalize ∧
      ¬ stray.Same otherStray := by
  decide

end Path

end Relayout
