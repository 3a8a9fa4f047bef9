import MethodMetadata.Proofs.ShortestGroups

/-! Modified UTF-8 without the detour through UTF-16: the bytes of a character are cut out of its
code point by masks, as in UTF-8, except for the zero character and for those that take a surrogate
pair. -/
namespace MethodMetadata.ModifiedUtf8

/-- A mark and, behind it, bits of a code point from a shift on. -/
def cut (mark : UInt8) (code shift mask : UInt32) : UInt8 :=
  (code >>> shift &&& mask).toUInt8 ||| mark

/-- The bytes of a character by masks. The surrogates share the bits of the code point between them,
and the leading one holds those above the basic plane less one. -/
def charBytes (c : Char) : List UInt8 :=
  let code := c.val
  match if c = '\x00' then 2 else c.utf8Size with
  | 1 => [code.toUInt8]
  | 2 => [cut 0xC0 code 6 0x1F, cut 0x80 code 0 0x3F]
  | 3 => [cut 0xE0 code 12 0x0F, cut 0x80 code 6 0x3F, cut 0x80 code 0 0x3F]
  | _ =>
    [0xED, ((code >>> 16 &&& 0x0F).toUInt8 - 1) &&& 0x0F ||| 0xA0, cut 0x80 code 10 0x3F,
      0xED, cut 0xB0 code 6 0x1F, cut 0x80 code 0 0x3F]

private theorem toUInt8_bits {code shift mask : UInt32} {k w : Nat} (hs : shift.toNat = k)
    (hk : k < 32) (hm : mask.toNat = 2 ^ w - 1) :
    (code >>> shift &&& mask).toUInt8 = UInt8.ofNat (code.toNat / 2 ^ k % 2 ^ w) := by
  apply UInt8.toNat_inj.mp
  rw [UInt32.toNat_toUInt8, UInt8.toNat_ofNat', UInt32.toNat_and, UInt32.toNat_shiftRight, hs, hm,
    Nat.mod_eq_of_lt hk, Nat.shiftRight_eq_div_pow, Nat.and_two_pow_sub_one_eq_mod]

private theorem cut_eq (code : UInt32) {mark : UInt8} {shift mask : UInt32} {k w : Nat}
    {f : Nat → Nat} (hs : shift.toNat = k) (hk : k < 32) (hm : mask.toNat = 2 ^ w - 1)
    (hmark : ∀ n < 2 ^ w, UInt8.ofNat n ||| mark = UInt8.ofNat (f n)) :
    cut mark code shift mask = UInt8.ofNat (f (code.toNat / 2 ^ k % 2 ^ w)) := by
  rw [cut, toUInt8_bits hs hk hm]
  exact hmark _ (Nat.mod_lt _ (Nat.two_pow_pos w))

private theorem cut_continuation (code shift : UInt32) {k : Nat} (hs : shift.toNat = k)
    (hk : k < 32) : cut 0x80 code shift 0x3F = UInt8.ofNat (0x80 + code.toNat / 2 ^ k % 0x40) :=
  cut_eq code (w := 6) (f := (0x80 + ·)) hs hk rfl (by decide)

private theorem cut_last (code : UInt32) :
    cut 0x80 code 0 0x3F = UInt8.ofNat (0x80 + code.toNat % 0x40) := by
  have h := cut_continuation code 0 (k := 0) rfl (by decide)
  rwa [Nat.pow_zero, Nat.div_one] at h

private theorem cut_lead_two (code : UInt32) :
    cut 0xC0 code 6 0x1F = UInt8.ofNat (0xC0 + code.toNat / 0x40 % 0x20) :=
  cut_eq code (k := 6) (w := 5) (f := (0xC0 + ·)) rfl (by decide) rfl (by decide)

private theorem cut_lead_three (code : UInt32) :
    cut 0xE0 code 12 0x0F = UInt8.ofNat (0xE0 + code.toNat / 0x1000 % 0x10) :=
  cut_eq code (k := 12) (w := 4) (f := (0xE0 + ·)) rfl (by decide) rfl (by decide)

private theorem cut_trailing (code : UInt32) :
    cut 0xB0 code 6 0x1F = UInt8.ofNat (0xB0 + code.toNat / 0x40 % 0x10) := by
  -- The mask lets through a bit more than a trailing surrogate holds, which the mark has anyway.
  have hbits : code.toNat / 0x40 % 0x20 % 0x10 = code.toNat / 0x40 % 0x10 :=
    Nat.mod_mod_of_dvd _ (by decide)
  rw [← hbits]
  exact cut_eq code (k := 6) (w := 5) (f := fun n => 0xB0 + n % 0x10) rfl (by decide) rfl
    (by decide)

private theorem leading_eq {code : UInt32} (h : 0x10000 ≤ code.toNat)
    (hlast : code.toNat < 0x110000) :
    ((code >>> 16 &&& 0x0F).toUInt8 - 1) &&& 0x0F ||| 0xA0 =
      UInt8.ofNat (0xA0 + (code.toNat / 0x10000 - 1)) := by
  -- Of the last plane the mask leaves nothing, so that the subtraction wraps around.
  have hmark : ∀ n < 0x11, 0 < n →
      (UInt8.ofNat (n % 0x10) - 1) &&& 0x0F ||| 0xA0 = UInt8.ofNat (0xA0 + (n - 1)) := by decide
  rw [toUInt8_bits (k := 16) (w := 4) rfl (by decide) rfl]
  exact hmark (code.toNat / 0x10000) (by omega) (by omega)

private theorem encodeUnit_ofNat {n : Nat} (h : n < 0x10000) : encodeUnit (UInt16.ofNat n) =
    if 0 < n ∧ n < 0x80 then [UInt8.ofNat n]
    else if n < 0x800 then [UInt8.ofNat (0xC0 + n / 0x40), UInt8.ofNat (0x80 + n % 0x40)]
    else [UInt8.ofNat (0xE0 + n / 0x1000), UInt8.ofNat (0x80 + n / 0x40 % 0x40),
      UInt8.ofNat (0x80 + n % 0x40)] := by
  rw [encodeUnit, UInt16.toNat_ofNat', Nat.mod_eq_of_lt h]

private theorem size_eq (c : Char) : (if c = '\x00' then 2 else c.utf8Size) =
    if 0 < c.toNat ∧ c.toNat < 0x80 then 1 else if c.toNat < 0x800 then 2
    else if c.toNat < 0x10000 then 3 else 4 := by
  have hzero : c = '\x00' ↔ c.toNat = 0 := by
    rw [← Char.toNat_inj]
    rfl
  have hsize : c.utf8Size = if c.toNat ≤ 0x7F then 1 else if c.toNat ≤ 0x7FF then 2
      else if c.toNat ≤ 0xFFFF then 3 else 4 := by
    simp only [Char.utf8Size, UInt32.le_iff_toNat_le]
    rfl
  rw [hsize]
  simp only [hzero]
  repeat' split
  all_goals omega

private theorem charBytes_plain {c : Char} (h : c.toNat < 0x10000) :
    charBytes c = encodeUnit (UInt16.ofNat c.toNat) := by
  have hn : c.val.toNat = c.toNat := rfl
  rw [charBytes, size_eq, encodeUnit_ofNat h]
  by_cases hone : 0 < c.toNat ∧ c.toNat < 0x80
  · rw [if_pos hone, if_pos hone]
    rfl
  · rw [if_neg hone, if_neg hone]
    by_cases htwo : c.toNat < 0x800
    · have hlead : c.toNat / 0x40 % 0x20 = c.toNat / 0x40 := Nat.mod_eq_of_lt (by omega)
      rw [if_pos htwo, if_pos htwo, cut_lead_two, cut_last, hn, hlead]
      rfl
    · have hlead : c.toNat / 0x1000 % 0x10 = c.toNat / 0x1000 := Nat.mod_eq_of_lt (by omega)
      rw [if_neg htwo, if_neg htwo, if_pos h, cut_lead_three,
        cut_continuation c.val 6 rfl (by decide), cut_last, hn, hlead]
      rfl

private theorem charBytes_pair {c : Char} (h : ¬c.toNat < 0x10000) : charBytes c =
    encodeUnit (UInt16.ofNat (0xD800 + (c.toNat - 0x10000) / 0x400)) ++
      encodeUnit (UInt16.ofNat (0xDC00 + (c.toNat - 0x10000) % 0x400)) := by
  have hn : c.val.toNat = c.toNat := rfl
  have hlast : c.toNat < 0x110000 := by
    rcases c.valid with hv | hv
    · exact absurd (Nat.lt_trans hv (by decide)) h
    · exact hv.2
  rw [charBytes, size_eq, if_neg (by omega), if_neg (by omega), if_neg h,
    encodeUnit_ofNat (by omega), encodeUnit_ofNat (by omega), if_neg (by omega),
    if_neg (by omega), if_neg (by omega), if_neg (by omega), leading_eq (by omega) (by omega),
    cut_continuation c.val 10 rfl (by decide), cut_trailing, cut_last, hn]
  have hleading : 0xE0 + (0xD800 + (c.toNat - 0x10000) / 0x400) / 0x1000 = 0xED := by omega
  have htrailing : 0xE0 + (0xDC00 + (c.toNat - 0x10000) % 0x400) / 0x1000 = 0xED := by omega
  have hplane : 0x80 + (0xD800 + (c.toNat - 0x10000) / 0x400) / 0x40 % 0x40 =
      0xA0 + (c.toNat / 0x10000 - 1) := by omega
  have hhigh : (0xD800 + (c.toNat - 0x10000) / 0x400) % 0x40 = c.toNat / 2 ^ 10 % 0x40 := by omega
  have hmiddle : 0x80 + (0xDC00 + (c.toNat - 0x10000) % 0x400) / 0x40 % 0x40 =
      0xB0 + c.toNat / 0x40 % 0x10 := by omega
  have hlow : (0xDC00 + (c.toNat - 0x10000) % 0x400) % 0x40 = c.toNat % 0x40 := by omega
  rw [hleading, htrailing, hplane, hhigh, hmiddle, hlow]
  rfl

/-- Masks give the bytes that the UTF-16 units of a character are written as. -/
theorem charBytes_eq (c : Char) : charBytes c = (Utf16.encodeChar c).flatMap encodeUnit := by
  rw [Utf16.encodeChar]
  by_cases h : c.toNat < 0x10000
  · rw [if_pos h, charBytes_plain h, List.flatMap_singleton]
  · rw [if_neg h, charBytes_pair h]
    simp

/-- What is encoded is decoded to the text, has no zero byte and starts no group of four. The bytes
of each character are those that masks cut out of its code point. -/
theorem encode_reads_back (text : String) :
    encode text = text.toList.flatMap charBytes ∧ decode (encode text) = .ok text ∧
      ∀ b ∈ encode text, b ≠ 0 ∧ b < 0xF0 := by
  refine ⟨?_, decode_encode text, fun b hb => ?_⟩
  · rw [encode, Utf16.encode, List.flatMap_assoc, funext charBytes_eq]
  · obtain ⟨unit, -, hunit⟩ := List.mem_flatMap.mp hb
    obtain ⟨hpos, hlt⟩ := mem_encodeUnit hunit
    refine ⟨?_, UInt8.lt_iff_toNat_lt.mpr hlt⟩
    rintro rfl
    exact absurd hpos (Nat.lt_irrefl 0)

/-- The zero character, and one that takes a surrogate pair. -/
theorem encode_reads_back_zero :
    let text := "\x00😀"
    encode text = text.toList.flatMap charBytes ∧ decode (encode text) = .ok text ∧
      0xED ∈ encode text ∧ (0xED : UInt8) ≠ 0 ∧ (0xED : UInt8) < 0xF0 := by
  intro text
  obtain ⟨hbytes, hdecode, hrange⟩ := encode_reads_back text
  have hmem : 0xED ∈ encode text := by decide +kernel
  exact ⟨hbytes, hdecode, hmem, hrange 0xED hmem⟩

end MethodMetadata.ModifiedUtf8
