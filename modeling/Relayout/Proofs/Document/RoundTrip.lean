import Relayout.Command.JsonForm
import Relayout.Document.JsonForm
import Relayout.Proofs.Path.Text

/-!
# Reading what was written of a configuration

Every value that a configuration is written as is read back as the part it was written from. A field
that is left out is read as missing, and no field that is there is written as `null`, so what is
missing stays apart from what is empty. Only the strays in the paths of a test are not read back:
what the test is written as has a replacement for each of them.
-/

namespace Relayout

namespace Command

/-- Whether there is no stray in the paths of a command. -/
def IsText (c : Command) : Prop := ∀ p ∈ c.paths, p.IsText

instance (c : Command) : Decidable c.IsText :=
  inferInstanceAs (Decidable (∀ p ∈ c.paths, p.IsText))

/-- The command with every stray in its paths replaced. -/
def replaced : Command → Command
  | .delete p => .delete p.replaced
  | .move p q => .move p.replaced q.replaced
  | .copy p q => .copy p.replaced q.replaced
  | .create p => .create p.replaced

theorem replaced_eq_self_iff {c : Command} : c.replaced = c ↔ c.IsText := by
  cases c <;> simp [replaced, IsText, paths, Path.replaced_eq_self_iff]

theorem ofWords?_words (c : Command) : ofWords? c.words = some c.replaced := by
  cases c <;> rfl

end Command

namespace Json

variable {α : Type} {name other : String} {xs ys : List (String × Json)} {read : Json → Option α}
  {write : α → Json}

theorem field?_append : field? name (xs ++ ys) = (field? name xs).or (field? name ys) := by
  unfold field?
  rw [List.find?_append]
  cases xs.find? fun e => decide (e.1 = name) <;> rfl

theorem field?_nil : field? name [] = none := rfl

theorem field?_cons (v : Json) :
    field? name ((other, v) :: xs) = if other = name then some v else field? name xs := by
  unfold field?
  rw [List.find?_cons]
  by_cases h : other = name <;> simp [h]

/-- Whether all that is written is read back. -/
def Restores (read : Json → Option α) (write : α → Json) : Prop := ∀ a, read (write a) = some a

theorem mapM_map {f : α → α} (h : ∀ a, read (write a) = some (f a)) (as : List α) :
    (as.map write).mapM read = some (as.map f) := by
  induction as with
  | nil => rfl
  | cons a as ih => simp [List.mapM_cons, h a, ih]

theorem Restores.mapM (h : Restores read write) (as : List α) :
    (as.map write).mapM read = some as := by
  rw [@mapM_map _ read write id h, List.map_id]

theorem Restores.optionalField (h : Restores read write) (hnull : ∀ a, write a ≠ .null)
    (o : Option α) : format.optionalField read (o.map write) = some o := by
  cases o with
  | none => rfl
  | some a =>
    have hpresent : format.optional (write a) = some (some (write a)) := by
      cases hw : write a with
      | null => exact absurd hw (hnull a)
      | _ => rfl
    simp [Format.optionalField, hpresent, h a]

theorem restores_string : Restores format.text .string := fun _ => rfl

end Json

namespace Config

open Json

variable {α : Type} {name other : String}

theorem field?_writtenIf (write : α → Json) (o : Option α) :
    field? name (writtenIf other write o) = if other = name then o.map write else none := by
  cases o with
  | none => simp [writtenIf, field?]
  | some a =>
    rw [writtenIf, field?_cons]
    rfl

theorem restores_texts : Restores format.texts textsToJson := fun ts => restores_string.mapM ts

theorem restores_guard :
    Restores (readGuard format) fun guard => .object (writtenIf "fileRootNot" .string guard) := by
  intro guard
  change format.optionalField format.text (field? "fileRootNot" (writtenIf "fileRootNot" _ _)) = _
  rw [field?_writtenIf, if_pos rfl]
  exact restores_string.optionalField (fun _ h => Json.noConfusion h) guard

theorem restores_rule : Restores (readRule format) ruleToJson := by
  intro rule
  cases rule with
  | replaceDirectoryName source target => rfl
  | appendDirectoryName name guard =>
    change (readGuard format _).bind
      (fun guard => some (RuleSpec.appendDirectoryName name guard)) = _
    rw [restores_guard guard]
    rfl
  | replaceFileRoot fileRoot => rfl

theorem restores_rules : Restores (readRules format) rulesToJson :=
  fun rules => restores_rule.mapM rules

theorem restores_delete : Restores (readDelete format) deleteToJson := by
  intro d
  change (format.optionalField format.texts (field? "fileRoot" (writtenIf "fileRoot" _ _))).bind
    (fun fileRoot => some (DeleteSpec.mk fileRoot)) = _
  rw [field?_writtenIf, if_pos rfl, restores_texts.optionalField fun _ h => Json.noConfusion h]
  rfl

theorem readTest_words (c : Command) :
    readTest format (textsToJson c.words) = some c.replaced := by
  change (format.texts (textsToJson c.words)).bind Command.ofWords? = _
  rw [restores_texts]
  exact c.ofWords?_words

theorem restores_version : Restores format.version fun n : UInt32 => .integer n.toNat := by
  intro n
  have hn := n.toNat_lt_size
  change (if 0 ≤ (n.toNat : Int) ∧ (n.toNat : Int).toNat < UInt32.size then
    some (n.toNat : Int).toNat.toUInt32 else none) = _
  rw [Int.toNat_natCast, if_pos ⟨Int.natCast_nonneg _, hn⟩]
  simp

theorem testsToJson_eq (tests : List Command) :
    testsToJson tests = writtenIf "tests"
      (fun cs : List Command => .array (cs.map fun c => textsToJson c.words))
      (if tests = [] then none else some tests) := by
  unfold testsToJson
  split <;> rfl

theorem listField_tests (tests : List Command) :
    format.listField (readTest format) (field? "tests" (testsToJson tests)) =
      some (tests.map Command.replaced) := by
  rw [testsToJson_eq, field?_writtenIf, if_pos rfl]
  split
  next h => rw [h]; rfl
  next => exact mapM_map readTest_words tests

/-- A configuration is read by reading each of its fields. -/
theorem read_eq_some_iff {ν : Type} {F : Format ν} {v : ν} {c : Config} :
    read F v = some c ↔ ∃ field, F.record fieldNames v = some field ∧
      (field "version").bind F.version = some c.version ∧
      (field "posix").bind F.flag = some c.posix ∧
      (field "includePattern").bind F.text = some c.includePattern ∧
      F.listField F.text (field "excludePatterns") = some c.excludePatterns ∧
      F.optionalField (readDelete F) (field "deleteRules") = some c.deleteRules ∧
      F.optionalField (readRules F) (field "replaceRules") = some c.replaceRules ∧
      F.optionalField (readRules F) (field "copyRules") = some c.copyRules ∧
      F.listField (readTest F) (field "tests") = some c.tests := by
  simp only [read, Option.bind_eq_bind, Option.bind_eq_some_iff, Option.pure_def, Option.some.injEq]
  constructor
  · rintro ⟨field, hrecord, n, hn, _, hversion, b, hb, _, hposix, t, ht, _, hincluded,
      _, hexcluded, _, hdelete, _, hreplace, _, hcopy, _, htests, rfl⟩
    exact ⟨field, hrecord, ⟨n, hn, hversion⟩, ⟨b, hb, hposix⟩, ⟨t, ht, hincluded⟩,
      hexcluded, hdelete, hreplace, hcopy, htests⟩
  · rintro ⟨field, hrecord, ⟨n, hn, hversion⟩, ⟨b, hb, hposix⟩, ⟨t, ht, hincluded⟩,
      hexcluded, hdelete, hreplace, hcopy, htests⟩
    exact ⟨field, hrecord, n, hn, _, hversion, b, hb, _, hposix, t, ht, _, hincluded,
      _, hexcluded, _, hdelete, _, hreplace, _, hcopy, _, htests, rfl⟩

/-- The fields that are always written. -/
def required (c : Config) : List (String × Json) :=
  [("version", .integer c.version.toNat), ("posix", .bool c.posix),
    ("includePattern", .string c.includePattern),
    ("excludePatterns", textsToJson c.excludePatterns)]

/-- All fields that are written. -/
def fields (c : Config) : List (String × Json) :=
  required c ++ writtenIf "deleteRules" deleteToJson c.deleteRules
    ++ writtenIf "replaceRules" rulesToJson c.replaceRules
    ++ writtenIf "copyRules" rulesToJson c.copyRules
    ++ testsToJson c.tests

theorem toJson_eq (c : Config) : c.toJson = .object c.fields := rfl

theorem field?_fields (c : Config) (name : String) :
    field? name c.fields =
      (field? name c.required).or
        ((if "deleteRules" = name then c.deleteRules.map deleteToJson else none).or
          ((if "replaceRules" = name then c.replaceRules.map rulesToJson else none).or
            ((if "copyRules" = name then c.copyRules.map rulesToJson else none).or
              (field? name (testsToJson c.tests))))) := by
  simp only [fields, field?_append, field?_writtenIf, Option.or_assoc]

@[simp] theorem field?_testsToJson_ne (h : "tests" ≠ name) (tests : List Command) :
    field? name (testsToJson tests) = none := by
  rw [testsToJson_eq, field?_writtenIf, if_neg h]

theorem field?_deleteRules (c : Config) :
    field? "deleteRules" c.fields = c.deleteRules.map deleteToJson := by
  simp [field?_fields, required, field?_cons, field?_nil]

theorem field?_replaceRules (c : Config) :
    field? "replaceRules" c.fields = c.replaceRules.map rulesToJson := by
  simp [field?_fields, required, field?_cons, field?_nil]

theorem field?_copyRules (c : Config) :
    field? "copyRules" c.fields = c.copyRules.map rulesToJson := by
  simp [field?_fields, required, field?_cons, field?_nil]

theorem field?_tests (c : Config) :
    field? "tests" c.fields = field? "tests" (testsToJson c.tests) := by
  simp [field?_fields, required, field?_cons, field?_nil]

theorem ofJson?_toJson_eq (c : Config) :
    ofJson? c.toJson = some { c with tests := c.tests.map Command.replaced } := by
  have hdelete := restores_delete.optionalField (fun _ h => Json.noConfusion h) c.deleteRules
  have hreplace := restores_rules.optionalField (fun _ h => Json.noConfusion h) c.replaceRules
  have hcopy := restores_rules.optionalField (fun _ h => Json.noConfusion h) c.copyRules
  have htests := listField_tests c.tests
  rw [← field?_deleteRules] at hdelete
  rw [← field?_replaceRules] at hreplace
  rw [← field?_copyRules] at hcopy
  rw [← field?_tests] at htests
  rw [toJson_eq]
  exact read_eq_some_iff.mpr ⟨fun name => field? name c.fields, rfl, restores_version c.version,
    rfl, rfl, restores_texts c.excludePatterns, hdelete, hreplace, hcopy, htests⟩

theorem replaced_tests_eq_iff {c : Config} :
    { c with tests := c.tests.map Command.replaced } = c ↔ ∀ test ∈ c.tests, test.IsText := by
  have htests := @List.map_inj_left _ _ c.tests Command.replaced id
  rw [List.map_id] at htests
  simp only [← Command.replaced_eq_self_iff]
  constructor
  · intro h
    exact htests.mp (congrArg tests h)
  · intro h
    rw [htests.mpr h]

/-- What is written of a configuration is always read back, as that configuration but for the strays
in its tests. -/
theorem ofJson?_toJson (c : Config) :
    ofJson? c.toJson = some { c with tests := c.tests.map Command.replaced } ∧
      (ofJson? c.toJson = some c ↔ ∀ test ∈ c.tests, test.IsText) := by
  refine ⟨c.ofJson?_toJson_eq, ?_⟩
  rw [ofJson?_toJson_eq, Option.some.injEq, replaced_tests_eq_iff]

/-- A configuration with a test of a file whose name is no text. -/
def strayTested : Config where
  version := 1
  posix := true
  includePattern := "**/*".toList
  excludePatterns := []
  deleteRules := some ⟨none⟩
  replaceRules := none
  copyRules := some []
  tests := [.delete .stray]

/-- The test that is read back is about another file. -/
theorem strayTested_altered :
    ofJson? strayTested.toJson =
        some { strayTested with tests := [.delete (.ofString "/\uFFFD")] } ∧
      ¬ Command.Same (.delete (.ofString "/\uFFFD")) (.delete .stray) := by
  decide

end Config

end Relayout
