import Relayout.Path.Parts
import Relayout.Proofs.Text.Pieces

/-!
# Paths and their texts

A path that is written as a text has that text. The text of any path is cut into pieces where its
bytes are, so it is empty or begins at the root just where the bytes do.
-/

namespace Relayout.Path

variable {p q : Path} {t u : Text}

@[simp] theorem text_ofText (t : Text) : (ofText t).text = t := Text.ofUtf8_toUtf8 t

@[simp] theorem parts_ofText (t : Text) : (ofText t).parts = .ofText t := by
  rw [parts, text_ofText]

theorem ofText_inj : ofText t = ofText u ↔ t = u :=
  ⟨fun h => by simpa using congrArg text h, congrArg ofText⟩

theorem text_eq_nil_iff : p.text = [] ↔ p.bytes = [] := Text.ofUtf8_eq_nil_iff

theorem head?_text_iff : p.text.head? = some '/' ↔ p.bytes.head? = some slash :=
  Text.head?_ofUtf8_iff (by decide)

theorem text_append (p : Path) (b : Bytes) :
    (Path.mk (p.bytes ++ slash :: b)).text = p.text ++ '/' :: Text.ofUtf8 b :=
  @Text.ofUtf8_append_ascii '/' (by decide) p.bytes b

theorem pieces_text (p : Path) :
    Text.pieces '/' p.text = (Text.pieces slash p.bytes).map Text.ofUtf8 :=
  Text.pieces_ofUtf8 (by decide) p.bytes

theorem pieces_bytes_ofText (t : Text) :
    Text.pieces slash (ofText t).bytes = (Text.pieces '/' t).map Text.toUtf8 :=
  @Text.pieces_toUtf8 '/' (by decide) t

theorem bytes_ofText_joined (ts : List Text) :
    (ofText (Text.joined '/' ts)).bytes = Text.joined slash (ts.map Text.toUtf8) :=
  @Text.toUtf8_joined '/' (by decide) ts

/-- Whether there is no stray in a path. -/
def IsText (p : Path) : Prop := p.text?.isSome

instance (p : Path) : Decidable p.IsText := inferInstanceAs (Decidable (_ = true))

theorem text?_eq_some_iff : p.text? = some t ↔ p = ofText t := by
  obtain ⟨bytes⟩ := p
  rw [text?, Text.ofUtf8?_eq_some_iff, ofText, Path.mk.injEq]

theorem text?_ofText (t : Text) : (ofText t).text? = some t := text?_eq_some_iff.mpr rfl

theorem IsText.exists_ofText (h : p.IsText) : ∃ t, p = ofText t := by
  obtain ⟨t, ht⟩ := Option.isSome_iff_exists.mp h
  exact ⟨t, text?_eq_some_iff.mp ht⟩

theorem isText_ofText (t : Text) : (ofText t).IsText := by
  rw [IsText, text?_ofText]
  rfl

theorem text?_eq_some_iff_isText : p.text? = some t ↔ p.IsText ∧ p.text = t := by
  rw [text?_eq_some_iff]
  constructor
  · rintro rfl
    exact ⟨isText_ofText t, text_ofText t⟩
  · rintro ⟨htext, rfl⟩
    obtain ⟨t, rfl⟩ := htext.exists_ofText
    rw [text_ofText]

theorem exists_text?_iff {P : Text → Prop} :
    (∃ t, p.text? = some t ∧ P t) ↔ p.IsText ∧ P p.text := by
  simp only [text?_eq_some_iff_isText]
  constructor
  · rintro ⟨t, ⟨htext, rfl⟩, h⟩
    exact ⟨htext, h⟩
  · rintro ⟨htext, h⟩
    exact ⟨p.text, ⟨htext, rfl⟩, h⟩

/-- The path with a text in which every stray of `p` has been replaced. -/
def replaced (p : Path) : Path := ofText p.text

theorem text_replaced (p : Path) : p.replaced.text = p.text := text_ofText p.text

theorem isText_replaced (p : Path) : p.replaced.IsText := isText_ofText p.text

theorem parts_replaced (p : Path) : p.replaced.parts = p.parts := by
  rw [replaced, parts_ofText, parts]

theorem replaced_eq_self_iff : p.replaced = p ↔ p.IsText := by
  constructor
  · intro h
    exact h ▸ p.isText_replaced
  · intro h
    obtain ⟨t, rfl⟩ := h.exists_ofText
    rw [replaced, text_ofText]

/-- A byte that no text has, as the name of an entry of the root. -/
def stray : Path := ⟨[slash, 0xFF]⟩

def otherStray : Path := ⟨[slash, 0xFE]⟩

end Relayout.Path
