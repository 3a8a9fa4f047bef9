import MethodMetadata.Text.ModifiedUtf8

/-! Modified UTF-8 gives every text back: groups are read as the units they were made from, and
units are joined to the characters they were made from, and to no others. Plain bytes are read no
differently. -/
namespace MethodMetadata

namespace Utf16

private theorem unit_toNat {n : Nat} (h : n < 65536) : (UInt16.ofNat n).toNat = n := by
  rw [UInt16.toNat_ofNat', Nat.mod_eq_of_lt h]

private theorem char_range (c : Char) :
    c.toNat < 0xD800 ∨ 0xDFFF < c.toNat ∧ c.toNat < 0x110000 :=
  c.valid

private theorem isLeading_iff (unit : UInt16) :
    isLeading unit = true ↔ 0xD800 ≤ unit.toNat ∧ unit.toNat < 0xDC00 := by
  simp [isLeading, UInt16.le_iff_toNat_le, UInt16.lt_iff_toNat_lt]

private theorem isTrailing_iff (unit : UInt16) :
    isTrailing unit = true ↔ 0xDC00 ≤ unit.toNat ∧ unit.toNat < 0xE000 := by
  simp [isTrailing, UInt16.le_iff_toNat_le, UInt16.lt_iff_toNat_lt]

private theorem decodeOnto_plain {unit : UInt16} (h : unit.toNat < 0xD800 ∨ 0xDFFF < unit.toNat)
    (joined : List Char) (rest : List UInt16) :
    decodeOnto joined (unit :: rest) = decodeOnto (Char.ofNat unit.toNat :: joined) rest := by
  have hl : ¬isLeading unit = true := by rw [isLeading_iff]; omega
  have ht : ¬isTrailing unit = true := by rw [isTrailing_iff]; omega
  rw [decodeOnto.eq_def]
  simp only [hl, ht, if_false, Bool.false_eq_true]

private theorem decodeOnto_pair {leading trailing : UInt16} (hl : isLeading leading = true)
    (ht : isTrailing trailing = true) (joined : List Char) (rest : List UInt16) :
    decodeOnto joined (leading :: trailing :: rest) =
      decodeOnto (joinPair leading trailing :: joined) rest := by
  rw [decodeOnto.eq_def]
  simp only [hl, ht, if_true]

private theorem decodeOnto_encodeChar (joined : List Char) (c : Char) (rest : List UInt16) :
    decodeOnto joined (encodeChar c ++ rest) = decodeOnto (c :: joined) rest := by
  have hc := char_range c
  by_cases hb : c.toNat < 0x10000
  · have hn := unit_toNat hb
    simp only [encodeChar, hb, if_true, List.cons_append, List.nil_append]
    rw [decodeOnto_plain (by rw [hn]; omega), hn, Char.ofNat_toNat]
  · have hh := unit_toNat (n := 0xD800 + (c.toNat - 0x10000) / 0x400) (by omega)
    have hw := unit_toNat (n := 0xDC00 + (c.toNat - 0x10000) % 0x400) (by omega)
    simp only [encodeChar, hb, if_false, List.cons_append, List.nil_append]
    rw [decodeOnto_pair (by rw [isLeading_iff, hh]; omega) (by rw [isTrailing_iff, hw]; omega),
      joinPair, hh, hw]
    refine congrArg (fun d => decodeOnto (d :: joined) rest) ?_
    refine Eq.trans (congrArg Char.ofNat ?_) (Char.ofNat_toNat c)
    omega

private theorem decodeOnto_encode (joined text : List Char) :
    decodeOnto joined (encode text) = some (joined.reverse ++ text) := by
  induction text generalizing joined with
  | nil => simp [encode, decodeOnto]
  | cons c text ih =>
    have hs : encode (c :: text) = encodeChar c ++ encode text := rfl
    rw [hs, decodeOnto_encodeChar, ih]
    simp

/-- The units of a text are joined to the text. -/
theorem decode_encode (text : List Char) : decode (encode text) = some text :=
  decodeOnto_encode [] text

private theorem toNat_ofNat {n : Nat} (h : n < 0xD800 ∨ 0xDFFF < n ∧ n < 0x110000) :
    (Char.ofNat n).toNat = n := by
  rw [Char.ofNat, dif_pos h]
  rfl

private theorem encodeChar_plain {unit : UInt16}
    (h : unit.toNat < 0xD800 ∨ 0xDFFF < unit.toNat) :
    encodeChar (Char.ofNat unit.toNat) = [unit] := by
  have hu : unit.toNat < 0x10000 := unit.toNat_lt
  have hc : (Char.ofNat unit.toNat).toNat = unit.toNat := toNat_ofNat (by omega)
  rw [encodeChar, hc, if_pos hu, UInt16.ofNat_toNat]

private theorem encodeChar_joinPair {leading trailing : UInt16} (hl : isLeading leading = true)
    (ht : isTrailing trailing = true) :
    encodeChar (joinPair leading trailing) = [leading, trailing] := by
  rw [isLeading_iff] at hl
  rw [isTrailing_iff] at ht
  have hc : (joinPair leading trailing).toNat =
      0x10000 + (leading.toNat - 0xD800) * 0x400 + (trailing.toNat - 0xDC00) :=
    toNat_ofNat (by omega)
  have hleading : 0xD800 + ((joinPair leading trailing).toNat - 0x10000) / 0x400 =
      leading.toNat := by omega
  have htrailing : 0xDC00 + ((joinPair leading trailing).toNat - 0x10000) % 0x400 =
      trailing.toNat := by omega
  rw [encodeChar, if_neg (by omega)]
  dsimp only
  rw [hleading, htrailing, UInt16.ofNat_toNat, UInt16.ofNat_toNat]

private theorem encode_of_decodeOnto {joined text : List Char} {units : List UInt16}
    (h : decodeOnto joined units = some text) :
    ∃ more, text = joined.reverse ++ more ∧ encode more = units := by
  fun_induction decodeOnto joined units with
  | case1 joined =>
    cases h
    exact ⟨[], (List.append_nil _).symm, rfl⟩
  | case2 | case4 | case5 => cases h
  | case3 joined leading hl trailing rest ht ih =>
    obtain ⟨more, rfl, rfl⟩ := ih h
    refine ⟨joinPair leading trailing :: more, by simp, ?_⟩
    rw [encode, List.flatMap_cons, encodeChar_joinPair hl ht]
    rfl
  | case6 joined unit rest hl ht ih =>
    obtain ⟨more, rfl, rfl⟩ := ih h
    refine ⟨Char.ofNat unit.toNat :: more, by simp, ?_⟩
    have hplain : unit.toNat < 0xD800 ∨ 0xDFFF < unit.toNat := by
      rw [isLeading_iff] at hl
      rw [isTrailing_iff] at ht
      omega
    rw [encode, List.flatMap_cons, encodeChar_plain hplain]
    rfl

/-- Units are joined to a text exactly if they are the units of the text. -/
theorem decode_eq_some_iff {units : List UInt16} {text : List Char} :
    decode units = some text ↔ encode text = units := by
  constructor
  · intro h
    obtain ⟨more, rfl, hm⟩ := encode_of_decodeOnto h
    exact hm
  · rintro rfl
    exact decode_encode text

private theorem length_le_encode (text : List Char) : text.length ≤ (encode text).length := by
  induction text with
  | nil => exact Nat.le_refl 0
  | cons c text ih =>
    have hc : 1 ≤ (encodeChar c).length := by
      unfold encodeChar
      split <;> simp
    rw [encode, List.flatMap_cons, List.length_append, List.length_cons, ← encode]
    omega

private theorem decodeOnto_small (joined : List Char) {units : List UInt16}
    (h : ∀ u ∈ units, u.toNat < 0xD800) :
    decodeOnto joined units = some (joined.reverse ++ units.map fun u => Char.ofNat u.toNat) := by
  induction units generalizing joined with
  | nil => simp [decodeOnto]
  | cons u units ih =>
    rw [decodeOnto_plain (.inl (h u List.mem_cons_self)),
      ih _ fun v hv => h v (List.mem_cons_of_mem _ hv)]
    simp

end Utf16

namespace ModifiedUtf8

private theorem byte_toNat {n : Nat} (h : n < 256) : (UInt8.ofNat n).toNat = n := by
  rw [UInt8.toNat_ofNat', Nat.mod_eq_of_lt h]

private theorem continuation_eq_ok {b : UInt8} (h : 0x80 ≤ b.toNat ∧ b.toNat < 0xC0) :
    continuation b = .ok (b.toNat - 0x80) := by
  rw [continuation, if_pos (by simpa [UInt8.le_iff_toNat_le, UInt8.lt_iff_toNat_lt] using h)]

theorem unitsOnto_one {lead : UInt8} (h : lead.toNat < 0x80) (read : List UInt16)
    (rest : List UInt8) :
    unitsOnto read (lead :: rest) = unitsOnto (UInt16.ofNat lead.toNat :: read) rest := by
  rw [unitsOnto.eq_def]
  simp [UInt8.lt_iff_toNat_lt, h]

theorem unitsOnto_two {lead b : UInt8} (h : 0xC0 ≤ lead.toNat ∧ lead.toNat < 0xE0)
    (hb : 0x80 ≤ b.toNat ∧ b.toNat < 0xC0) (read : List UInt16) (rest : List UInt8) :
    unitsOnto read (lead :: b :: rest) =
      unitsOnto (UInt16.ofNat ((lead.toNat - 0xC0) * 0x40 + (b.toNat - 0x80)) :: read) rest := by
  have h1 : ¬lead.toNat < 0x80 := by omega
  have h2 : ¬lead.toNat < 0xC0 := by omega
  rw [unitsOnto.eq_def]
  simp [UInt8.lt_iff_toNat_lt, h1, h2, h.2, continuation_eq_ok hb]

theorem unitsOnto_three {lead b c : UInt8} (h : 0xE0 ≤ lead.toNat ∧ lead.toNat < 0xF0)
    (hb : 0x80 ≤ b.toNat ∧ b.toNat < 0xC0) (hc : 0x80 ≤ c.toNat ∧ c.toNat < 0xC0)
    (read : List UInt16) (rest : List UInt8) :
    unitsOnto read (lead :: b :: c :: rest) =
      unitsOnto (UInt16.ofNat ((lead.toNat - 0xE0) * 0x1000 + (b.toNat - 0x80) * 0x40 +
        (c.toNat - 0x80)) :: read) rest := by
  have h1 : ¬lead.toNat < 0x80 := by omega
  have h2 : ¬lead.toNat < 0xC0 := by omega
  have h3 : ¬lead.toNat < 0xE0 := by omega
  rw [unitsOnto.eq_def]
  simp [UInt8.lt_iff_toNat_lt, h1, h2, h3, h.2, continuation_eq_ok hb, continuation_eq_ok hc]

/-- A unit is read from the group that it is written as. -/
theorem unitsOnto_encodeUnit (read : List UInt16) (unit : UInt16) (rest : List UInt8) :
    unitsOnto read (encodeUnit unit ++ rest) = unitsOnto (unit :: read) rest := by
  have hu : unit.toNat < 65536 := unit.toNat_lt
  -- Whatever the length of the group, its fields add up to the unit again.
  have hsame {n : Nat} (hn : n = unit.toNat) :
      unitsOnto (UInt16.ofNat n :: read) rest = unitsOnto (unit :: read) rest := by
    rw [hn, UInt16.ofNat_toNat]
  unfold encodeUnit
  dsimp only
  split
  · have hn := byte_toNat (n := unit.toNat) (by omega)
    exact (unitsOnto_one (by omega) _ _).trans (hsame hn)
  · split
    · have hn := byte_toNat (n := 0xC0 + unit.toNat / 0x40) (by omega)
      have hl := byte_toNat (n := 0x80 + unit.toNat % 0x40) (by omega)
      exact (unitsOnto_two (by omega) (by omega) _ _).trans (hsame (by omega))
    · have hn := byte_toNat (n := 0xE0 + unit.toNat / 0x1000) (by omega)
      have hh := byte_toNat (n := 0x80 + unit.toNat / 0x40 % 0x40) (by omega)
      have hl := byte_toNat (n := 0x80 + unit.toNat % 0x40) (by omega)
      exact (unitsOnto_three (by omega) (by omega) (by omega) _ _).trans (hsame (by omega))

private theorem unitsOnto_encodeUnits (read us : List UInt16) :
    unitsOnto read (us.flatMap encodeUnit) = .ok (read.reverse ++ us) := by
  induction us generalizing read with
  | nil => simp [unitsOnto]
  | cons u us ih =>
    rw [List.flatMap_cons, unitsOnto_encodeUnit, ih]
    simp

private theorem unitsOnto_plain (read : List UInt16) {bytes : List UInt8}
    (h : ∀ b ∈ bytes, b.toNat < 0x80) :
    unitsOnto read bytes = .ok (read.reverse ++ bytes.map fun b => UInt16.ofNat b.toNat) := by
  induction bytes generalizing read with
  | nil => simp [unitsOnto]
  | cons b bytes ih =>
    rw [unitsOnto_one (h b List.mem_cons_self), ih _ fun c hc => h c (List.mem_cons_of_mem _ hc)]
    simp

def decodeGroups (bytes : List UInt8) : Except Error String :=
  match units bytes with
  | .error e => .error e
  | .ok us =>
    match Utf16.decode us with
    | none => .error .unpairedSurrogate
    | some text => .ok (String.ofList text)

/-- Bytes below 0x80 alone are read as groups would be. -/
theorem decode_eq_decodeGroups (bytes : List UInt8) : decode bytes = decodeGroups bytes := by
  by_cases h : bytes.all (· < 0x80) = true
  · have hb : ∀ b ∈ bytes, b.toNat < 0x80 := fun b hb =>
      UInt8.lt_iff_toNat_lt.mp (by simpa using List.all_eq_true.mp h b hb)
    have hs : ∀ u ∈ bytes.map (fun b => UInt16.ofNat b.toNat), u.toNat < 0xD800 := by
      intro u hu
      obtain ⟨b, hm, rfl⟩ := List.mem_map.mp hu
      have := hb b hm
      rw [UInt16.toNat_ofNat']
      omega
    have hu : units bytes = .ok (bytes.map fun b => UInt16.ofNat b.toNat) := unitsOnto_plain [] hb
    have hd := Utf16.decodeOnto_small [] hs
    rw [decode, if_pos h, decodeGroups, hu]
    simp only [Utf16.decode, hd, List.reverse_nil, List.nil_append, List.map_map]
    refine congrArg (fun l => Except.ok (String.ofList l)) (List.map_congr_left fun b hm => ?_)
    have := hb b hm
    rw [Function.comp_apply, UInt16.toNat_ofNat', Nat.mod_eq_of_lt (by omega)]
  · rw [decode, if_neg h]
    rfl

/-- What a text is encoded as decodes to the text. -/
theorem decode_encode (text : String) : decode (encode text) = .ok text := by
  have hu : units (encode text) = .ok (Utf16.encode text.toList) := unitsOnto_encodeUnits [] _
  rw [decode_eq_decodeGroups, decodeGroups, hu]
  simp only [Utf16.decode_encode, String.ofList_toList]

private theorem length_unitsOnto_le {read us : List UInt16} {bytes : List UInt8}
    (h : unitsOnto read bytes = .ok us) : us.length ≤ read.length + bytes.length := by
  fun_induction unitsOnto read bytes with
  | case1 =>
    cases h
    simp
  | case3 | case4 | case5 | case7 | case8 | case9 | case10 | case12 => cases h
  -- A group of one, two or three bytes.
  | case2 read _ rest _ ih | case6 read _ _ _ _ _ rest _ _ ih
  | case11 read _ _ _ _ _ _ _ _ _ rest _ _ ih =>
    have := ih h
    simp only [List.length_cons] at this ⊢
    omega

/-- A character takes a byte at least. -/
theorem length_le_of_decode {bytes : List UInt8} {text : String} (h : decode bytes = .ok text) :
    text.toList.length ≤ bytes.length := by
  rw [decode_eq_decodeGroups, decodeGroups] at h
  split at h
  next => cases h
  next us hu =>
    split at h
    next => cases h
    next joined hj =>
      cases h
      rw [String.toList_ofList]
      have hunits := length_unitsOnto_le hu
      have hchars := Utf16.length_le_encode joined
      rw [Utf16.decode_eq_some_iff.mp hj] at hchars
      simp only [List.length_nil] at hunits
      omega

end ModifiedUtf8

end MethodMetadata
