import MethodMetadata.Proofs.Formats

/-! What a format reads is what it writes, so that bytes which are read and written again stay as
they are. Numbers are read in this way, and pairs, counted sequences and blocks if their parts are. -/
namespace MethodMetadata

private theorem foldl_big_endian_div (bytes : List UInt8) (start : Nat) :
    bytes.foldl (fun n b => n * 256 + b.toNat) start / 256 ^ bytes.length = start := by
  induction bytes generalizing start with
  | nil => exact Nat.div_one start
  | cons b bytes ih =>
    have hb := b.toNat_lt
    rw [List.foldl_cons, List.length_cons, Nat.pow_succ, ← Nat.div_div_eq_div_mul, ih]
    omega

private theorem toBigEndian_foldl (bytes : List UInt8) (start : Nat) :
    toBigEndian bytes.length (bytes.foldl (fun n b => n * 256 + b.toNat) start) = bytes := by
  induction bytes generalizing start with
  | nil => rfl
  | cons b bytes ih =>
    have hhead : UInt8.ofNat (start * 256 + b.toNat) = b := by
      apply UInt8.toNat_inj.mp
      have hb := b.toNat_lt
      rw [UInt8.toNat_ofNat']
      omega
    rw [List.foldl_cons, List.length_cons, toBigEndian, ih, Nat.shiftRight_eq_div_pow, Nat.pow_mul]
    exact congrArg (· :: bytes) ((congrArg UInt8.ofNat (foldl_big_endian_div bytes _)).trans hhead)

/-- Bytes are the last bytes of the number that they stand for. -/
theorem toBigEndian_ofBigEndian (bytes : List UInt8) :
    toBigEndian bytes.length (ofBigEndian bytes) = bytes :=
  toBigEndian_foldl bytes 0

private theorem ofBigEndian_lt (bytes : List UInt8) : ofBigEndian bytes < 256 ^ bytes.length := by
  have h := foldl_big_endian_div bytes 0
  exact (Nat.div_eq_zero_iff_lt (Nat.pow_pos (by decide))).mp h

theorem takeBlock_eq_ok {length : Nat} {bytes block rest : List UInt8}
    (h : takeBlock length bytes = .ok (block, rest)) :
    block.length = length ∧ bytes = block ++ rest := by
  unfold takeBlock at h
  dsimp only at h
  split at h
  next hl =>
    cases h
    exact ⟨hl, (List.take_append_drop length bytes).symm⟩
  next => cases h

namespace Format

variable {α β : Type}

/-- Values that are read have a property, and are written as the bytes that they were read from. -/
def WritesBack (format : Format α) (P : α → Prop) : Prop :=
  ∀ bytes value rest, format.read bytes = .ok (value, rest) →
    P value ∧ ∃ front, format.write value = .ok front ∧ bytes = front ++ rest

theorem WritesBack.mono {format : Format α} {P Q : α → Prop} (h : format.WritesBack P)
    (hpq : ∀ value, P value → Q value) : format.WritesBack Q := by
  intro bytes value rest hr
  obtain ⟨hp, hw⟩ := h bytes value rest hr
  exact ⟨hpq value hp, hw⟩

private theorem writesBack_bigEndian (width : Nat) :
    (bigEndian width).WritesBack (· < 256 ^ width) := by
  intro bytes n rest h
  simp only [bigEndian] at h
  split at h
  next hl =>
    cases h
    have hn := ofBigEndian_lt (bytes.take width)
    have hw := toBigEndian_ofBigEndian (bytes.take width)
    rw [hl] at hn hw
    exact ⟨hn, _, congrArg Except.ok hw, (List.take_append_drop width bytes).symm⟩
  next => cases h

/-- Two fields write back one after the other. -/
theorem WritesBack.pair {first : Format α} {second : Format β} {P : α → Prop} {Q : β → Prop}
    (hf : first.WritesBack P) (hs : second.WritesBack Q) :
    (first.pair second).WritesBack fun value => P value.1 ∧ Q value.2 := by
  intro bytes value rest h
  obtain ⟨⟨a, middle⟩, ha, h⟩ := bind_eq_ok_iff.mp h
  obtain ⟨⟨b, last⟩, hb, h⟩ := bind_eq_ok_iff.mp h
  cases pure_eq_ok_iff.mp h
  obtain ⟨hp, left, hl, rfl⟩ := hf _ _ _ ha
  obtain ⟨hq, right, hr, rfl⟩ := hs _ _ _ hb
  refine ⟨⟨hp, hq⟩, left ++ right, ?_, (List.append_assoc _ _ _).symm⟩
  exact bind_eq_ok_iff.mpr ⟨_, hl, bind_eq_ok_iff.mpr ⟨_, hr, rfl⟩⟩

theorem WritesBack.imap {format : Format α} {pack : α → β} {unpack : β → α} {P : α → Prop}
    (h : format.WritesBack P) (hp : ∀ a, P a → unpack (pack a) = a) :
    (format.imap pack unpack).WritesBack fun value => P (unpack value) := by
  intro bytes value rest hr
  obtain ⟨⟨a, left⟩, ha, hr⟩ := bind_eq_ok_iff.mp hr
  cases pure_eq_ok_iff.mp hr
  obtain ⟨hpa, hw⟩ := h _ _ _ ha
  simp only [Format.imap, hp a hpa]
  exact ⟨hpa, hw⟩

theorem writesBack_byte : byte.WritesBack fun _ => True :=
  ((writesBack_bigEndian 1).imap fun _ h => UInt8.toNat_ofNat_of_lt' h).mono fun _ _ => trivial

theorem writesBack_word16 : word16.WritesBack fun _ => True :=
  ((writesBack_bigEndian 2).imap fun _ h => UInt16.toNat_ofNat_of_lt' h).mono fun _ _ => trivial

theorem writesBack_word32 : word32.WritesBack fun _ => True :=
  ((writesBack_bigEndian 4).imap fun _ h => UInt32.toNat_ofNat_of_lt' h).mono fun _ _ => trivial

theorem writesBack_word64 : word64.WritesBack fun _ => True :=
  ((writesBack_bigEndian 8).imap fun _ h => UInt64.toNat_ofNat_of_lt' h).mono fun _ _ => trivial

private theorem readManyOnto_eq_ok {format : Format α} {P : α → Prop} (hb : format.WritesBack P)
    {done values : List α} {count : Nat} {bytes rest : List UInt8}
    (h : readManyOnto format done count bytes = .ok (values, rest)) :
    ∃ more parts, values = done.reverse ++ more ∧ more.length = count ∧ (∀ v ∈ more, P v) ∧
      List.Forall₂ (fun v part => format.write v = .ok part) more parts ∧
        bytes = parts.flatten ++ rest := by
  induction count generalizing done bytes with
  | zero =>
    cases h
    exact ⟨[], [], (List.append_nil _).symm, rfl, nofun, .nil, rfl⟩
  | succ count ih =>
    rw [readManyOnto] at h
    split at h
    next => cases h
    next value left hr =>
      obtain ⟨hp, part, hw, rfl⟩ := hb _ _ _ hr
      obtain ⟨more, parts, rfl, hl, hm, hparts, rfl⟩ := ih h
      refine ⟨value :: more, part :: parts, ?_, congrArg Nat.succ hl,
        List.forall_mem_cons.mpr ⟨hp, hm⟩, .cons hw hparts, ?_⟩
      · rw [List.reverse_cons, List.append_assoc, List.singleton_append]
      · rw [List.flatten_cons, List.append_assoc]

/-- A counted sequence writes back if its elements do, since the count was read from two bytes. -/
theorem WritesBack.counted {format : Format α} {P : α → Prop} (hb : format.WritesBack P) :
    (counted format).WritesBack fun values => ∀ v ∈ values, P v := by
  intro bytes values rest h
  obtain ⟨⟨count, left⟩, hc, hmany⟩ := bind_eq_ok_iff.mp h
  obtain ⟨-, front, hw, rfl⟩ := writesBack_word16 _ _ _ hc
  obtain ⟨more, parts, rfl, hl, hm, hparts, rfl⟩ := readManyOnto_eq_ok hb hmany
  have hshort : values.length < 65536 := hl ▸ count.toNat_lt
  have hcount : UInt16.ofNat values.length = count := hl ▸ UInt16.ofNat_toNat
  refine ⟨hm, front ++ parts.flatten, ?_, (List.append_assoc _ _ _).symm⟩
  simp only [Format.counted, if_pos hshort, hcount]
  exact bind_eq_ok_iff.mpr ⟨_, hw, bind_eq_ok_iff.mpr
    ⟨_, writeMany_eq_ok_iff.mpr ⟨parts, hparts, rfl⟩, rfl⟩⟩

theorem writesBack_block32 : block32.WritesBack (·.length < 2 ^ 32) := by
  intro bytes block rest h
  obtain ⟨⟨length, left⟩, hr, htake⟩ := bind_eq_ok_iff.mp h
  obtain ⟨-, front, hw, rfl⟩ := writesBack_word32 _ _ _ hr
  obtain ⟨hl, rfl⟩ := takeBlock_eq_ok htake
  have hshort : block.length < 2 ^ 32 := hl ▸ length.toNat_lt
  have hlength : UInt32.ofNat block.length = length := hl ▸ UInt32.ofNat_toNat
  refine ⟨hshort, front ++ block, ?_, (List.append_assoc _ _ _).symm⟩
  simp only [block32, hlength]
  exact bind_eq_ok_iff.mpr ⟨_, hw, rfl⟩

/-- A value that a whole text of bytes is read as is written as these bytes. -/
theorem WritesBack.readAll {format : Format α} {P : α → Prop} (hb : format.WritesBack P)
    {what : String} {bytes : List UInt8} {value : α} (h : format.readAll what bytes = .ok value) :
    P value ∧ format.write value = .ok bytes := by
  obtain ⟨⟨read, rest⟩, hr, h⟩ := bind_eq_ok_iff.mp h
  obtain ⟨⟨⟩, he, h⟩ := bind_eq_ok_iff.mp h
  cases pure_eq_ok_iff.mp h
  obtain ⟨hp, front, hw, rfl⟩ := hb _ _ _ hr
  cases rest with
  | nil => exact ⟨hp, (List.append_nil front).symm ▸ hw⟩
  | cons => cases he

end Format

end MethodMetadata
