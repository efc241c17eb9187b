import Mathlib.Data.List.Forall2
import Relayout.Command.JsonForm
import Relayout.Proofs.Document.RoundTrip

/-!
# The two written forms of a command

A command is written as an object and as a list of words. An object is read as a command exactly if
the fields that would be written of that command are there, in whatever order and among whatever
others. A list of words is read exactly if it is the one that would be written of a command without
strays. So each form gives such a command back, and no two of them have the same one. Strays are
where the forms part: they make an object fail, and among words they are replaced.
-/

namespace Relayout

theorem Json.field?_of_mem {fields : List (String × Json)} {e : String × Json}
    (h : (fields.map (·.1)).Nodup) (he : e ∈ fields) : field? e.1 fields = some e.2 := by
  induction fields with
  | nil => cases he
  | cons head rest ih =>
    obtain ⟨hhead, hrest⟩ := List.nodup_cons.mp h
    rw [field?_cons]
    rcases List.mem_cons.mp he with rfl | he
    · exact if_pos rfl
    · have hne : head.1 ≠ e.1 := fun heq => hhead (List.mem_map.mpr ⟨e, he, heq.symm⟩)
      rw [if_neg hne, ih hrest he]

namespace Command

variable {α β : Type} {c : Command} {kind : Kind} {names : List String}
  {present : List (String × Json)} {ws : List Text} {v : Json} {p : Path} {ps : List Path}
  {word : Text}

theorem mapM_eq_some_iff {f : α → Option β} {as : List α} {bs : List β} :
    as.mapM f = some bs ↔ List.Forall₂ (fun a b => f a = some b) as bs := by
  induction as generalizing bs with
  | nil => simp [eq_comm]
  | cons a as ih =>
    rw [List.mapM_cons]
    constructor
    · intro h
      obtain ⟨b, hb, h⟩ := Option.bind_eq_some_iff.mp h
      obtain ⟨rest, hrest, h⟩ := Option.bind_eq_some_iff.mp h
      cases h
      exact .cons hb (ih.mp hrest)
    · intro h
      cases h with
      | cons hb hrest => simp [hb, ih.mpr hrest]

theorem forall₂_and_right_iff {R : α → β → Prop} {P : β → Prop} {as : List α} {bs : List β} :
    List.Forall₂ (fun a b => P b ∧ R a b) as bs ↔ (∀ b ∈ bs, P b) ∧ List.Forall₂ R as bs := by
  induction bs generalizing as with
  | nil => simp
  | cons b bs ih => cases as <;> simp [ih, and_assoc, and_left_comm]

/-! ## Objects -/

theorem Kind.ofWord?_eq_some_iff : Kind.ofWord? word = some kind ↔ word = kind.word.toList := by
  constructor
  · intro h
    unfold ofWord? at h
    have hword := List.find?_some h
    exact (of_decide_eq_true hword).symm
  · rintro rfl
    cases kind <;> decide

theorem readKind?_eq_some_iff : readKind? v = some kind ↔ v = .string kind.word.toList := by
  cases v <;> simp [readKind?, Kind.ofWord?_eq_some_iff]

theorem readPath?_eq_some_iff : readPath? v = some p ↔ p.IsText ∧ v = .string p.text := by
  constructor
  · intro h
    cases v with
    | string t =>
      obtain rfl : .ofText t = p := Option.some.inj h
      exact ⟨Path.isText_ofText t, by rw [Path.text_ofText]⟩
    | _ => cases h
  · rintro ⟨htext, rfl⟩
    exact congrArg some (Path.replaced_eq_self_iff.mpr htext)

theorem ofPaths?_eq_some_iff : ofPaths? kind ps = some c ↔ kind = c.kind ∧ ps = c.paths := by
  constructor
  · intro h
    unfold ofPaths? at h
    split at h <;> cases h <;> exact ⟨rfl, rfl⟩
  · rintro ⟨rfl, rfl⟩
    cases c <;> rfl

theorem length_paths (c : Command) : c.kind.fieldNames.length = c.paths.length := by
  cases c <;> rfl

theorem readPaths_eq_some_iff :
    (names.mapM fun name => (Json.field? name present).bind readPath?) = some ps ↔
      (∀ p ∈ ps, p.IsText) ∧ names.length = ps.length ∧
        ∀ e ∈ names.zip (ps.map fun p => Json.string p.text),
          Json.field? e.1 present = some e.2 := by
  have hfield : ∀ name p, (Json.field? name present).bind readPath? = some p ↔
      p.IsText ∧ Json.field? name present = some (.string p.text) := by
    intro name p
    simp only [Option.bind_eq_some_iff, readPath?_eq_some_iff, exists_eq_right_right]
    exact and_comm
  simp only [mapM_eq_some_iff, hfield]
  rw [forall₂_and_right_iff, ← List.forall₂_map_right_iff (f := fun p : Path => Json.string p.text)
      (R := fun name v => Json.field? name present = some v),
    List.forall₂_iff_zip, List.length_map]
  exact and_congr_right fun _ => and_congr_right fun _ =>
    ⟨fun h e he => h he, fun h _ _ he => h _ he⟩

/-- The fields that are written of a command. -/
def fields (c : Command) : List (String × Json) :=
  ("kind", .string c.kind.word.toList) ::
    c.kind.fieldNames.zip (c.paths.map fun p => .string p.text)

theorem mapM_text?_eq_some_iff {ts : List Text} :
    ps.mapM Path.text? = some ts ↔ (∀ p ∈ ps, p.IsText) ∧ ps.map Path.text = ts := by
  simp only [mapM_eq_some_iff, Path.text?_eq_some_iff_isText]
  rw [List.forall₂_and_left, ← List.forall₂_map_left_iff, List.forall₂_eq_eq_eq]

/-- Only commands without strays are written. -/
theorem toJson?_eq_some_iff : toJson? c = some v ↔ c.IsText ∧ v = .object c.fields := by
  simp only [toJson?, Option.bind_eq_bind, Option.bind_eq_some_iff, mapM_text?_eq_some_iff,
    Option.pure_def, Option.some.injEq]
  constructor
  · rintro ⟨_, ⟨htext, rfl⟩, rfl⟩
    rw [List.map_map]
    exact ⟨htext, rfl⟩
  · rintro ⟨htext, rfl⟩
    exact ⟨_, ⟨htext, rfl⟩, by rw [List.map_map]; rfl⟩

example (p q : Path) : fields (.move p q) = [("kind", .string "move".toList),
    ("fromPath", .string p.text), ("toPath", .string q.text)] := rfl

/-- An object is read as a command exactly if it has the fields that are written of it. -/
theorem ofJson?_object_eq_some_iff :
    ofJson? (.object present) = some c ↔
      c.IsText ∧ ∀ e ∈ c.fields, Json.field? e.1 present = some e.2 := by
  rw [fields, List.forall_mem_cons]
  simp only [ofJson?, Option.bind_eq_bind, Option.bind_eq_some_iff, readKind?_eq_some_iff,
    ofPaths?_eq_some_iff, readPaths_eq_some_iff]
  constructor
  · rintro ⟨_, hkind, _, rfl, _, ⟨htext, -, hpaths⟩, rfl, rfl⟩
    exact ⟨htext, hkind, hpaths⟩
  · rintro ⟨htext, hkind, hpaths⟩
    exact ⟨_, hkind, _, rfl, _, ⟨htext, length_paths c, hpaths⟩, rfl, rfl⟩

theorem nodup_fields (c : Command) : (c.fields.map (·.1)).Nodup := by
  cases c <;> simp [fields, Command.kind, Kind.fieldNames, paths]

theorem ofJson?_of_toJson? (h : toJson? c = some v) : ofJson? v = some c := by
  obtain ⟨htext, rfl⟩ := toJson?_eq_some_iff.mp h
  exact ofJson?_object_eq_some_iff.mpr
    ⟨htext, fun _ he => Json.field?_of_mem c.nodup_fields he⟩

theorem isSome_toJson?_iff : (toJson? c).isSome ↔ c.IsText := by
  simp [Option.isSome_iff_exists, toJson?_eq_some_iff]

/-! ## Words -/

theorem ofWords?_eq_some_iff : ofWords? ws = some c ↔ c.IsText ∧ ws = c.words := by
  constructor
  · intro h
    fun_cases ofWords? ws with
    | case1 | case2 | case4 | case5 =>
      cases h
      simp [IsText, paths, words, Path.isText_ofText]
    | case3 _ _ hdelete hcreate =>
      rw [ofWords?, if_neg hdelete, if_neg hcreate] at h
      cases h
    | case6 _ _ _ hmove hcopy =>
      rw [ofWords?, if_neg hmove, if_neg hcopy] at h
      cases h
    | case7 => simp [ofWords?] at h
  · rintro ⟨htext, rfl⟩
    rw [ofWords?_words, replaced_eq_self_iff.mpr htext]

/-- The shapes of the lists of words that are written. -/
theorem isSome_ofWords?_iff :
    (ofWords? ws).isSome ↔
      (∃ p, ws = ["delete".toList, p] ∨ ws = ["create".toList, p]) ∨
        ∃ p q, ws = ["move".toList, p, q] ∨ ws = ["copy".toList, p, q] := by
  constructor
  · intro h
    obtain ⟨c, hc⟩ := Option.isSome_iff_exists.mp h
    obtain ⟨-, rfl⟩ := ofWords?_eq_some_iff.mp hc
    cases c with
    | delete p => exact .inl ⟨p.text, .inl rfl⟩
    | create p => exact .inl ⟨p.text, .inr rfl⟩
    | move p q => exact .inr ⟨p.text, q.text, .inl rfl⟩
    | copy p q => exact .inr ⟨p.text, q.text, .inr rfl⟩
  · rintro (⟨p, rfl | rfl⟩ | ⟨p, q, rfl | rfl⟩) <;> rfl

/-- Whatever words are read, the command with its strays replaced is written in the same ones. -/
theorem words_eq_iff {d : Command} : words c = words d ↔ c.replaced = d.replaced := by
  constructor
  · intro h
    have hread := c.ofWords?_words
    rw [h, ofWords?_words, Option.some.injEq] at hread
    exact hread.symm
  · intro h
    have hc := (ofWords?_eq_some_iff.mp c.ofWords?_words).2
    rw [hc, h, ← (ofWords?_eq_some_iff.mp d.ofWords?_words).2]

/-- Commands without strays have both forms, each of which gives them back, and others have only
words, which are read with every stray replaced. Each list of words that is read is the one written
of its command, and only those of a few shapes are. So no form is shared by two commands without
strays, nor an object by any two. -/
theorem forms_faithful :
    (∀ c, (toJson? c).isSome ↔ c.IsText) ∧
    (∀ c v, toJson? c = some v → ofJson? v = some c) ∧
    (∀ c present, ofJson? (.object present) = some c ↔
      c.IsText ∧ ∀ e ∈ c.fields, Json.field? e.1 present = some e.2) ∧
    (∀ c, ofWords? (words c) = some c.replaced ∧ (c.IsText → ofWords? (words c) = some c)) ∧
    (∀ c ws, ofWords? ws = some c ↔ c.IsText ∧ ws = words c) ∧
    (∀ ws, (ofWords? ws).isSome ↔
      (∃ p, ws = ["delete".toList, p] ∨ ws = ["create".toList, p]) ∨
        ∃ p q, ws = ["move".toList, p, q] ∨ ws = ["copy".toList, p, q]) ∧
    (∀ c d v, toJson? c = some v → toJson? d = some v → c = d) ∧
    (∀ c d, words c = words d ↔ c.replaced = d.replaced) ∧
    (∀ c d, c.IsText → d.IsText → words c = words d → c = d) := by
  refine ⟨fun _ => isSome_toJson?_iff, fun _ _ => ofJson?_of_toJson?,
    fun _ _ => ofJson?_object_eq_some_iff, fun c => ⟨c.ofWords?_words, ?_⟩,
    fun _ _ => ofWords?_eq_some_iff, fun _ => isSome_ofWords?_iff, ?_, fun _ _ => words_eq_iff, ?_⟩
  · exact fun htext => ofWords?_eq_some_iff.mpr ⟨htext, rfl⟩
  · intro c d v hc hd
    exact Option.some.inj ((ofJson?_of_toJson? hc).symm.trans (ofJson?_of_toJson? hd))
  · intro c d hc hd h
    rwa [words_eq_iff, replaced_eq_self_iff.mpr hc, replaced_eq_self_iff.mpr hd] at h

def accented : Command := .move (.ofString "a b/\u00E9.ts") (.ofString "/\uFFFD")

/-- A replacement that is written in a path is no stray. -/
theorem accented_written :
    accented.IsText ∧
      (∃ v, toJson? accented = some v ∧ ofJson? v = some accented ∧
        ∀ d, toJson? d = some v → accented = d) ∧
      ofWords? accented.words = some accented ∧
      ∀ d, d.IsText → accented.words = d.words → accented = d := by
  have htext : accented.IsText := by decide
  obtain ⟨hsome, hobject, -, hwords, -, -, hone, -, hsingle⟩ := forms_faithful
  obtain ⟨v, hv⟩ := Option.isSome_iff_exists.mp ((hsome accented).mpr htext)
  exact ⟨htext, ⟨v, hv, hobject accented v hv, fun d => hone accented d v hv⟩,
    (hwords accented).2 htext, fun d => hsingle accented d htext⟩

/-- Two commands about different files are written in the same words, and one of them in no
object. -/
theorem strays_share_words :
    toJson? (.delete .stray) = none ∧ words (.delete .stray) = words (.delete .otherStray) ∧
      ofWords? (words (.delete .stray)) = some (.delete (.ofString "/\uFFFD")) ∧
      ¬ Same (.delete .stray) (.delete .otherStray) ∧
      ¬ Same (.delete .stray) (.delete (.ofString "/\uFFFD")) := by
  decide

end Command

end Relayout
