import Mathlib.Data.List.Basic
import Relayout.Text.Utf8

/-!
# Reading the bytes of texts

Every text is read back from its bytes, and bytes without a stray are those of the text they are
read as. The byte of an ASCII character belongs to no other character and to no stray, so bytes may
be cut there before they are read.
-/

namespace Relayout.Text

variable {s t : Text} {a c : Char} {b : UInt8} {bytes more : Bytes}

@[simp] theorem toUtf8_nil : toUtf8 [] = [] := rfl

@[simp] theorem toUtf8_append (u v : Text) : (u ++ v).toUtf8 = u.toUtf8 ++ v.toUtf8 :=
  List.flatMap_append

@[simp] theorem toUtf8_cons (c : Char) (s : Text) :
    toUtf8 (c :: s) = String.utf8EncodeChar c ++ s.toUtf8 :=
  List.flatMap_cons

/-! ## Single bytes -/

theorem toUtf8_cons_ascii (h : c.utf8Size = 1) (s : Text) :
    toUtf8 (c :: s) = c.toUInt8 :: s.toUtf8 := by
  rw [toUtf8_cons, String.utf8EncodeChar_eq_singleton h]
  rfl

/-- Every byte of a longer character has its highest bit set. -/
theorem high_of_mem_encode (hc : 127 < c.toNat) (h : b ∈ String.utf8EncodeChar c) :
    128 ≤ b.toNat := by
  have hv : ¬ c.val.toNat ≤ 127 := Nat.not_le.mpr hc
  simp only [String.utf8EncodeChar, if_neg hv] at h
  split at h
  · simp only [List.mem_cons, List.not_mem_nil, or_false] at h
    rcases h with rfl | rfl <;> rw [UInt8.toNat_ofNat'] <;> omega
  · split at h
    · simp only [List.mem_cons, List.not_mem_nil, or_false] at h
      rcases h with rfl | rfl | rfl <;> rw [UInt8.toNat_ofNat'] <;> omega
    · simp only [List.mem_cons, List.not_mem_nil, or_false] at h
      rcases h with rfl | rfl | rfl | rfl <;> rw [UInt8.toNat_ofNat'] <;> omega

theorem utf8Size_ascii (h : c.toNat < 128) : c.utf8Size = 1 := by
  rw [Char.utf8Size_eq_one_iff, UInt32.le_iff_toNat_le]
  exact Nat.le_of_lt_succ h

theorem toNat_toUInt8_ascii (h : a.toNat < 128) : a.toUInt8.toNat = a.toNat := by
  rw [Char.toUInt8, UInt32.toNat_toUInt8]
  exact Nat.mod_eq_of_lt (Nat.lt_trans h (by decide))

theorem encode_ascii (h : a.toNat < 128) : String.utf8EncodeChar a = [a.toUInt8] :=
  String.utf8EncodeChar_eq_singleton (utf8Size_ascii h)

/-- The byte of an ASCII character is in the encoding of no other character. -/
theorem eq_of_toUInt8_mem_encode (ha : a.toNat < 128)
    (h : a.toUInt8 ∈ String.utf8EncodeChar c) : c = a := by
  have hlow : a.toUInt8.toNat = a.toNat := toNat_toUInt8_ascii ha
  by_cases hc : 127 < c.toNat
  · have := high_of_mem_encode hc h
    omega
  · rw [encode_ascii (by omega), List.mem_singleton] at h
    have heq : a.toUInt8.toNat = c.toUInt8.toNat := congrArg UInt8.toNat h
    rw [hlow, toNat_toUInt8_ascii (by omega)] at heq
    exact Char.toNat_inj.mp heq.symm

/-! ## Reading character by character -/

theorem firstChar?_encode_append (c : Char) (bytes : Bytes) :
    firstChar? (String.utf8EncodeChar c ++ bytes) = some c := by
  have hsize : (String.utf8EncodeChar c).length ≤ 4 := by
    rw [String.length_utf8EncodeChar]
    exact c.utf8Size_le_four
  rw [firstChar?, List.take_append, List.take_of_length_le hsize, List.toByteArray_append]
  exact ByteArray.utf8DecodeChar?_utf8EncodeChar_append

theorem exists_eq_encode_append (h : firstChar? bytes = some c) :
    ∃ more, bytes = String.utf8EncodeChar c ++ more := by
  obtain ⟨rest, hrest⟩ := ByteArray.exists_of_utf8DecodeChar?_eq_some h
  have hfront : bytes.take 4 = String.utf8EncodeChar c ++ rest.data.toList := by
    have hlists := congrArg (·.data.toList) hrest
    simpa only [ByteArray.data_append, Array.toList_append, List.toList_data_toByteArray]
      using hlists
  refine ⟨rest.data.toList ++ bytes.drop 4, ?_⟩
  rw [← List.append_assoc, ← hfront, List.take_append_drop]

@[simp] theorem readUtf8_nil : readUtf8 [] = [] := rfl

theorem readFrom_eq (skipped : Nat) (bytes : Bytes) :
    readFrom skipped bytes = readUtf8 (bytes.drop skipped) := by
  induction bytes generalizing skipped with
  | nil => simp [readFrom]
  | cons a s ih =>
    cases skipped with
    | zero => rfl
    | succ skipped => exact ih skipped

theorem readUtf8_encode_append (c : Char) (bytes : Bytes) :
    readUtf8 (String.utf8EncodeChar c ++ bytes) = some c :: readUtf8 bytes := by
  have hfirst := firstChar?_encode_append c bytes
  have hlength := String.length_utf8EncodeChar c
  cases hencode : String.utf8EncodeChar c with
  | nil =>
    have := c.utf8Size_pos
    rw [hencode, List.length_nil] at hlength
    omega
  | cons a s =>
    rw [hencode, List.length_cons] at hlength
    rw [hencode, List.cons_append] at hfirst
    have hdrop : c.utf8Size - 1 = s.length := by omega
    simp only [List.cons_append, readUtf8, readFrom, hfirst]
    rw [hdrop, readFrom_eq, List.drop_left]
    rfl

theorem readUtf8_stray (h : firstChar? (b :: bytes) = none) :
    readUtf8 (b :: bytes) = none :: readUtf8 (bytes.drop (strayTail b bytes)) := by
  simp only [readUtf8, readFrom, h]
  rw [readFrom_eq]
  rfl

/-- Bytes are read from the front: none, a character and more, or a stray and more. -/
theorem readUtf8_induction {motive : Bytes → Prop} (nil : motive [])
    (char : ∀ c bytes, motive bytes → motive (String.utf8EncodeChar c ++ bytes))
    (stray : ∀ b bytes, firstChar? (b :: bytes) = none →
      motive (bytes.drop (strayTail b bytes)) → motive (b :: bytes)) (bytes : Bytes) :
    motive bytes := by
  induction hn : bytes.length using Nat.strongRecOn generalizing bytes with
  | ind n ih =>
    cases bytes with
    | nil => exact nil
    | cons b bytes =>
      cases hfirst : firstChar? (b :: bytes) with
      | none =>
        refine stray b bytes hfirst (ih _ ?_ _ rfl)
        rw [List.length_cons] at hn
        rw [List.length_drop]
        omega
      | some c =>
        obtain ⟨more, hmore⟩ := exists_eq_encode_append hfirst
        rw [hmore] at hn ⊢
        refine char c more (ih _ ?_ more rfl)
        have := c.utf8Size_pos
        rw [List.length_append, String.length_utf8EncodeChar] at hn
        omega

theorem readUtf8_toUtf8_append (t : Text) (bytes : Bytes) :
    readUtf8 (t.toUtf8 ++ bytes) = t.map some ++ readUtf8 bytes := by
  induction t with
  | nil => rfl
  | cons c t ih =>
    rw [toUtf8_cons, List.append_assoc, readUtf8_encode_append, ih]
    rfl

theorem readUtf8_toUtf8 (t : Text) : readUtf8 t.toUtf8 = t.map some := by
  simpa using readUtf8_toUtf8_append t []

/-- Where no stray is read, the bytes are those of the text. -/
theorem eq_toUtf8_of_readUtf8 (h : readUtf8 bytes = t.map some) : bytes = t.toUtf8 := by
  induction bytes using readUtf8_induction generalizing t with
  | nil =>
    obtain rfl : t = [] := List.map_eq_nil_iff.mp h.symm
    rfl
  | char c bytes ih =>
    rw [readUtf8_encode_append] at h
    obtain ⟨d, t, rfl, heq, hrest⟩ := List.map_eq_cons_iff.mp h.symm
    obtain rfl := Option.some.inj heq
    rw [toUtf8_cons, ← ih hrest.symm]
  | stray b bytes hfirst _ =>
    rw [readUtf8_stray hfirst] at h
    obtain ⟨d, t, rfl, heq, -⟩ := List.map_eq_cons_iff.mp h.symm
    cases heq

theorem encode_infix_of_mem_readUtf8 (h : some c ∈ readUtf8 bytes) :
    String.utf8EncodeChar c <:+: bytes := by
  induction bytes using readUtf8_induction with
  | nil => cases h
  | char d bytes ih =>
    rw [readUtf8_encode_append] at h
    rcases List.mem_cons.mp h with heq | h
    · obtain rfl := Option.some.inj heq
      exact (List.prefix_append _ _).isInfix
    · exact (ih h).trans (List.suffix_append _ _).isInfix
  | stray b bytes hfirst ih =>
    rw [readUtf8_stray hfirst] at h
    have hrest := ih ((List.mem_cons.mp h).resolve_left nofun)
    exact hrest.trans ((List.drop_suffix _ _).trans (List.suffix_cons b bytes)).isInfix

/-! ## Cutting at an ASCII character -/

theorem not_isTail_ascii (ha : a.toNat < 128) : isTail a.toUInt8 = false := by
  have hlow := toNat_toUInt8_ascii ha
  simp only [isTail, Bool.and_eq_false_iff, decide_eq_false_iff_not, UInt8.le_iff_toNat_le]
  exact .inl (by rw [hlow]; exact Nat.not_le.mpr ha)

theorem not_isSecond_ascii (ha : a.toNat < 128) (b : UInt8) :
    isSecond b a.toUInt8 = false := by
  have hlow := toNat_toUInt8_ascii ha
  have hbelow : ∀ n : UInt8, 128 ≤ n.toNat → decide (n ≤ a.toUInt8) = false := by
    intro n hn
    rw [decide_eq_false_iff_not, UInt8.le_iff_toNat_le]
    omega
  unfold isSecond
  split
  · rw [hbelow 0xA0 (by decide), Bool.false_and]
  split
  · rw [hbelow 0x80 (by decide), Bool.false_and]
  split
  · rw [hbelow 0x90 (by decide), Bool.false_and]
  split
  · rw [hbelow 0x80 (by decide), Bool.false_and]
  · rw [not_isTail_ascii ha, Bool.and_false]

theorem strayTail_append_ascii (ha : a.toNat < 128) :
    strayTail b (bytes ++ a.toUInt8 :: more) = strayTail b bytes ∧
      strayTail b bytes ≤ bytes.length := by
  match bytes with
  | [] =>
    cases more <;> simp [strayTail, not_isSecond_ascii ha]
  | [c] =>
    by_cases hc : isSecond b c <;> simp [strayTail, not_isTail_ascii ha, hc]
  | c :: d :: bytes =>
    refine ⟨rfl, ?_⟩
    rw [strayTail]
    split
    · split <;> simp
    · simp

theorem firstChar?_append_ascii (ha : a.toNat < 128) (hne : bytes ≠ [])
    (h : firstChar? bytes = none) : firstChar? (bytes ++ a.toUInt8 :: more) = none := by
  rw [Option.eq_none_iff_forall_ne_some]
  intro c hc
  obtain ⟨rest, hrest⟩ := exists_eq_encode_append hc
  rcases List.append_eq_append_iff.mp hrest with ⟨middle, hencode, hmiddle⟩ | ⟨middle, heq, -⟩
  · cases middle with
    | nil =>
      rw [List.append_nil] at hencode
      rw [← hencode, ← List.append_nil (String.utf8EncodeChar c),
        firstChar?_encode_append] at h
      cases h
    | cons d middle =>
      -- the character would hold the byte of `a`, and be `a` itself
      obtain ⟨rfl, -⟩ := List.cons.inj hmiddle
      obtain rfl : c = a := eq_of_toUInt8_mem_encode ha (by simp [hencode])
      rw [encode_ascii ha] at hencode
      have hlength := congrArg List.length hencode
      have hpos := List.length_pos_iff.mpr hne
      simp only [List.length_append, List.length_cons, List.length_nil] at hlength
      omega
  · rw [heq, firstChar?_encode_append] at h
    cases h

theorem readUtf8_append_ascii (ha : a.toNat < 128) (bytes more : Bytes) :
    readUtf8 (bytes ++ a.toUInt8 :: more) = readUtf8 bytes ++ some a :: readUtf8 more := by
  induction bytes using readUtf8_induction with
  | nil => simpa [encode_ascii ha] using readUtf8_encode_append a more
  | char c bytes ih =>
    rw [List.append_assoc, readUtf8_encode_append, readUtf8_encode_append, ih, List.cons_append]
  | stray b bytes hfirst ih =>
    obtain ⟨htail, hle⟩ := @strayTail_append_ascii a b bytes more ha
    have hwhole := @firstChar?_append_ascii a (b :: bytes) more ha (List.cons_ne_nil b bytes) hfirst
    rw [List.cons_append] at hwhole ⊢
    rw [readUtf8_stray hwhole, readUtf8_stray hfirst, htail, List.drop_append_of_le_length hle, ih,
      List.cons_append]

/-! ## Texts and bytes -/

@[simp] theorem ofUtf8_toUtf8 (t : Text) : ofUtf8 t.toUtf8 = t := by
  simp [ofUtf8, readUtf8_toUtf8, Function.comp_def]

theorem toUtf8_injective : Function.Injective toUtf8 :=
  Function.LeftInverse.injective ofUtf8_toUtf8

theorem readUtf8_eq_of_not_mem (h : none ∉ readUtf8 bytes) :
    readUtf8 bytes = (ofUtf8 bytes).map some := by
  rw [ofUtf8, List.map_map]
  refine ((List.map_congr_left fun read hread => ?_).trans (List.map_id _)).symm
  cases read with
  | none => exact absurd hread h
  | some c => rfl

theorem ofUtf8_eq_iff (hne : replacement ∉ t) : ofUtf8 bytes = t ↔ bytes = t.toUtf8 := by
  constructor
  · rintro rfl
    exact eq_toUtf8_of_readUtf8 <| readUtf8_eq_of_not_mem fun hread =>
      hne (List.mem_map.mpr ⟨none, hread, rfl⟩)
  · rintro rfl
    exact ofUtf8_toUtf8 t

theorem ofUtf8_eq_nil_iff : ofUtf8 bytes = [] ↔ bytes = [] := ofUtf8_eq_iff List.not_mem_nil

theorem mapM_id_eq_some_iff {read : List (Option Char)} :
    read.mapM id = some t ↔ read = t.map some := by
  induction read generalizing t with
  | nil => cases t <;> simp
  | cons r read ih =>
    rw [List.mapM_cons]
    cases t with
    | nil => cases r <;> cases read.mapM id <;> simp
    | cons c t =>
      rw [List.map_cons, List.cons.injEq, ← ih]
      cases r <;> cases read.mapM id <;> simp

theorem ofUtf8?_eq_some_iff : ofUtf8? bytes = some t ↔ bytes = t.toUtf8 := by
  rw [ofUtf8?, mapM_id_eq_some_iff]
  constructor
  · exact eq_toUtf8_of_readUtf8
  · rintro rfl
    exact readUtf8_toUtf8 t

theorem isSome_ofUtf8?_iff : (ofUtf8? bytes).isSome ↔ none ∉ readUtf8 bytes := by
  rw [ofUtf8?, Option.isSome_iff_exists]
  simp only [mapM_id_eq_some_iff]
  constructor
  · rintro ⟨t, ht⟩
    simp [ht]
  · exact fun h => ⟨_, readUtf8_eq_of_not_mem h⟩

theorem isSome_ofUtf8?_toUtf8 (t : Text) : (ofUtf8? t.toUtf8).isSome :=
  Option.isSome_iff_exists.mpr ⟨t, ofUtf8?_eq_some_iff.mpr rfl⟩

theorem isSome_ofUtf8?_append_ascii (ha : a.toNat < 128) :
    (ofUtf8? (bytes ++ a.toUInt8 :: more)).isSome ↔
      (ofUtf8? bytes).isSome ∧ (ofUtf8? more).isSome := by
  simp [isSome_ofUtf8?_iff, readUtf8_append_ascii ha]

theorem ofUtf8_append_ascii (ha : a.toNat < 128) (bytes more : Bytes) :
    ofUtf8 (bytes ++ a.toUInt8 :: more) = ofUtf8 bytes ++ a :: ofUtf8 more := by
  simp [ofUtf8, readUtf8_append_ascii ha]

theorem ofUtf8_cons_ascii (ha : a.toNat < 128) (bytes : Bytes) :
    ofUtf8 (a.toUInt8 :: bytes) = a :: ofUtf8 bytes :=
  ofUtf8_append_ascii ha [] bytes

theorem head?_ofUtf8_iff (ha : a.toNat < 128) :
    (ofUtf8 bytes).head? = some a ↔ bytes.head? = some a.toUInt8 := by
  constructor
  · intro h
    cases bytes with
    | nil => cases h
    | cons b bytes =>
      cases hfirst : firstChar? (b :: bytes) with
      | none =>
        rw [ofUtf8, readUtf8_stray hfirst] at h
        obtain rfl : replacement = a := Option.some.inj h
        exact absurd ha (by decide)
      | some c =>
        obtain ⟨more, hmore⟩ := exists_eq_encode_append hfirst
        rw [ofUtf8, hmore, readUtf8_encode_append] at h
        obtain rfl : c = a := Option.some.inj h
        rw [hmore, encode_ascii ha]
        rfl
  · intro h
    obtain ⟨more, rfl⟩ := List.head?_eq_some_iff.mp h
    rw [ofUtf8_cons_ascii ha]
    rfl

theorem mem_ofUtf8_iff (ha : a.toNat < 128) : a ∈ ofUtf8 bytes ↔ a.toUInt8 ∈ bytes := by
  constructor
  · intro h
    obtain ⟨read, hread, heq⟩ := List.mem_map.mp h
    cases read with
    | none =>
      rw [Option.getD_none] at heq
      subst heq
      exact absurd ha (by decide)
    | some c =>
      obtain rfl : c = a := heq
      have hinfix := encode_infix_of_mem_readUtf8 hread
      rw [encode_ascii ha] at hinfix
      exact hinfix.subset (List.mem_singleton_self _)
  · intro h
    obtain ⟨front, back, rfl⟩ := List.append_of_mem h
    simp [ofUtf8_append_ascii ha]

end Relayout.Text
