import Mathlib.Algebra.Group.Nat.Defs
import MethodMetadata.Format
import MethodMetadata.Proofs.Traversal

/-! What a format writes reads back, whatever bytes follow. Numbers do, and pairs, counted
sequences and blocks do if their parts do. -/
namespace MethodMetadata

theorem length_toBigEndian (width n : Nat) : (toBigEndian width n).length = width := by
  induction width with
  | zero => rfl
  | succ width ih => rw [toBigEndian, List.length_cons, ih]

private theorem foldl_big_endian (width n start : Nat) :
    (toBigEndian width n).foldl (fun m b => m * 256 + b.toNat) start =
      start * 256 ^ width + n % 256 ^ width := by
  induction width generalizing start with
  | zero => simp [toBigEndian, Nat.mod_one]
  | succ width ih =>
    have hb : (UInt8.ofNat (n >>> (8 * width))).toNat = n / 256 ^ width % 256 := by
      rw [UInt8.toNat_ofNat', Nat.shiftRight_eq_div_pow, Nat.pow_mul]
    rw [toBigEndian, List.foldl_cons, ih, hb, Nat.pow_succ, Nat.mod_mul, Nat.add_mul,
      Nat.mul_assoc, Nat.mul_comm 256, Nat.mul_comm (n / 256 ^ width % 256), Nat.add_assoc,
      Nat.add_comm (n % 256 ^ width)]

/-- The last bytes of a number stand for its residue. -/
theorem ofBigEndian_toBigEndian (width n : Nat) :
    ofBigEndian (toBigEndian width n) = n % 256 ^ width := by
  rw [ofBigEndian, foldl_big_endian, Nat.zero_mul, Nat.zero_add]

theorem takeBlock_append (block rest : List UInt8) :
    takeBlock block.length (block ++ rest) = .ok (block, rest) := by
  simp [takeBlock]

namespace Format

variable {α β : Type}

/-- The bytes that a value is written as give the value back, and leave what follows them. -/
def ReadsBack (format : Format α) (value : α) : Prop :=
  ∀ bytes rest, format.write value = .ok bytes → format.read (bytes ++ rest) = .ok (value, rest)

private theorem readsBack_bigEndian {width n : Nat} (hn : n < 256 ^ width) :
    (bigEndian width).ReadsBack n := by
  intro bytes rest h
  obtain rfl := Except.ok.inj h
  have hl := length_toBigEndian width n
  have ht : (toBigEndian width n ++ rest).take width = toBigEndian width n :=
    List.take_left' hl
  have hd : (toBigEndian width n ++ rest).drop width = rest := List.drop_left' hl
  simp only [bigEndian, ht, hd, hl, if_true, ofBigEndian_toBigEndian, Nat.mod_eq_of_lt hn]

/-- Two fields read back one after the other. -/
theorem ReadsBack.pair {first : Format α} {second : Format β} {value : α × β}
    (hf : first.ReadsBack value.1) (hs : second.ReadsBack value.2) :
    (first.pair second).ReadsBack value := by
  intro bytes rest h
  obtain ⟨left, hl, h⟩ := bind_eq_ok_iff.mp h
  obtain ⟨right, hr, h⟩ := bind_eq_ok_iff.mp h
  obtain rfl := pure_eq_ok_iff.mp h
  rw [List.append_assoc]
  exact bind_eq_ok_iff.mpr ⟨_, hf _ _ hl, bind_eq_ok_iff.mpr ⟨_, hs _ _ hr, rfl⟩⟩

theorem ReadsBack.imap {format : Format α} {pack : α → β} {unpack : β → α} {value : β}
    (h : format.ReadsBack (unpack value)) (hp : pack (unpack value) = value) :
    (format.imap pack unpack).ReadsBack value := by
  intro bytes rest hw
  refine bind_eq_ok_iff.mpr ⟨_, h _ _ hw, ?_⟩
  exact congrArg (fun v => Except.ok (v, rest)) hp

theorem readsBack_byte (b : UInt8) : byte.ReadsBack b :=
  (readsBack_bigEndian b.toNat_lt).imap (UInt8.ofNat_toNat)

theorem readsBack_word16 (w : UInt16) : word16.ReadsBack w :=
  (readsBack_bigEndian w.toNat_lt).imap (UInt16.ofNat_toNat)

theorem readsBack_word32 (w : UInt32) : word32.ReadsBack w :=
  (readsBack_bigEndian w.toNat_lt).imap (UInt32.ofNat_toNat)

theorem readsBack_word64 (w : UInt64) : word64.ReadsBack w :=
  (readsBack_bigEndian w.toNat_lt).imap (UInt64.ofNat_toNat)

/-- What is written one after the other is written part by part. -/
theorem writeMany_eq_ok_iff {format : Format α} {values : List α} {bytes : List UInt8} :
    format.writeMany values = .ok bytes ↔
      ∃ parts, List.Forall₂ (fun v part => format.write v = .ok part) values parts ∧
        parts.flatten = bytes := by
  simp only [writeMany, bind_eq_ok_iff, pure_eq_ok_iff, mapM_eq_ok_iff]

private theorem readManyOnto_written {format : Format α} {values : List α}
    {parts : List (List UInt8)}
    (hw : List.Forall₂ (fun v part => format.write v = .ok part) values parts)
    (hb : ∀ v ∈ values, format.ReadsBack v) (done : List α) (rest : List UInt8) :
    readManyOnto format done values.length (parts.flatten ++ rest) =
      .ok (done.reverse ++ values, rest) := by
  induction hw generalizing done with
  | nil => simp [readManyOnto]
  | @cons v part values parts hv _ ih =>
    rw [List.length_cons, List.flatten_cons, List.append_assoc, readManyOnto,
      hb v List.mem_cons_self _ _ hv]
    simp only
    rw [ih (fun u hu => hb u (List.mem_cons_of_mem _ hu))]
    simp

/-- A counted sequence is written as its length and the parts that its values are written as. -/
theorem counted_write_eq_ok {format : Format α} {values : List α} {bytes : List UInt8}
    (h : (counted format).write values = .ok bytes) :
    values.length < 65536 ∧ ∃ parts,
      List.Forall₂ (fun v part => format.write v = .ok part) values parts ∧
        bytes = toBigEndian 2 values.length ++ parts.flatten := by
  by_cases hl : values.length < 65536
  · simp only [counted, hl, if_true] at h
    obtain ⟨count, hc, h⟩ := bind_eq_ok_iff.mp h
    obtain ⟨body, hm, h⟩ := bind_eq_ok_iff.mp h
    obtain ⟨parts, hp, rfl⟩ := writeMany_eq_ok_iff.mp hm
    obtain rfl := pure_eq_ok_iff.mp h
    obtain rfl := Except.ok.inj hc
    have hn : (UInt16.ofNat values.length).toNat = values.length := by
      rw [UInt16.toNat_ofNat', Nat.mod_eq_of_lt hl]
    exact ⟨hl, parts, hp, by rw [hn]⟩
  · simp [counted, hl] at h

/-- A sequence can be written if its items can be, and if they can be counted. -/
theorem exists_counted_write {format : Format α} {values : List α} (h : values.length < 65536)
    (hw : ∀ v ∈ values, ∃ part, format.write v = .ok part) :
    ∃ bytes, (counted format).write values = .ok bytes := by
  obtain ⟨parts, hparts⟩ := exists_forall₂ hw
  have hmany : format.writeMany values = .ok parts.flatten :=
    writeMany_eq_ok_iff.mpr ⟨parts, hparts, rfl⟩
  refine ⟨toBigEndian 2 (UInt16.ofNat values.length).toNat ++ parts.flatten, ?_⟩
  simp only [counted, if_pos h, hmany]
  rfl

/-- A counted sequence reads back if its values do. -/
theorem ReadsBack.counted {format : Format α} {values : List α}
    (hb : ∀ v ∈ values, format.ReadsBack v) : (counted format).ReadsBack values := by
  intro bytes rest h
  obtain ⟨hl, parts, hp, rfl⟩ := counted_write_eq_ok h
  have hn : (UInt16.ofNat values.length).toNat = values.length := by
    rw [UInt16.toNat_ofNat', Nat.mod_eq_of_lt hl]
  rw [List.append_assoc]
  refine bind_eq_ok_iff.mpr ⟨_, readsBack_word16 (UInt16.ofNat values.length) _ _ ?_, ?_⟩
  · exact congrArg (fun n => Except.ok (toBigEndian 2 n)) hn
  · simp only [hn]
    exact readManyOnto_written hp hb [] rest

theorem readsBack_block32 {block : List UInt8} (hl : block.length < 2 ^ 32) :
    block32.ReadsBack block := by
  intro bytes rest h
  obtain ⟨length, hw, h⟩ := bind_eq_ok_iff.mp h
  obtain rfl := pure_eq_ok_iff.mp h
  have hn : (UInt32.ofNat block.length).toNat = block.length := by
    rw [UInt32.toNat_ofNat', Nat.mod_eq_of_lt hl]
  rw [List.append_assoc]
  refine bind_eq_ok_iff.mpr ⟨_, readsBack_word32 _ _ _ hw, ?_⟩
  simp only [hn]
  exact takeBlock_append block rest

/-- A whole text of bytes that a value is written as gives the value back. -/
theorem ReadsBack.readAll {format : Format α} {value : α} {bytes : List UInt8}
    (hb : format.ReadsBack value) (h : format.write value = .ok bytes) (what : String) :
    format.readAll what bytes = .ok value := by
  have hr := hb bytes [] h
  rw [List.append_nil] at hr
  exact bind_eq_ok_iff.mpr ⟨_, hr, rfl⟩

/-- Two fields are written one after the other. -/
theorem pair_write_eq_ok {first : Format α} {second : Format β} {value : α × β}
    {bytes : List UInt8} (h : (first.pair second).write value = .ok bytes) :
    ∃ left right, first.write value.1 = .ok left ∧ second.write value.2 = .ok right ∧
      bytes = left ++ right := by
  obtain ⟨left, hl, h⟩ := bind_eq_ok_iff.mp h
  obtain ⟨right, hr, h⟩ := bind_eq_ok_iff.mp h
  exact ⟨left, right, hl, hr, (pure_eq_ok_iff.mp h).symm⟩

/-- A sequence of items of one width is as long as they are, and its length in two bytes. -/
theorem counted_write_length {format : Format α} {values : List α} {bytes : List UInt8} {width : Nat}
    (h : (Format.counted format).write values = .ok bytes)
    (hwidth : ∀ v part, format.write v = .ok part → part.length = width) :
    bytes.length = 2 + values.length * width := by
  obtain ⟨-, parts, hp, rfl⟩ := counted_write_eq_ok h
  rw [List.length_append, length_toBigEndian]
  apply congrArg (2 + ·)
  clear h
  induction hp with
  | nil => simp
  | @cons v part values parts hv _ ih =>
    rw [List.flatten_cons, List.length_append, List.length_cons, hwidth v part hv, ih,
      Nat.succ_mul, Nat.add_comm]

/-- Every item of a sequence is written within the bytes of the sequence. -/
theorem counted_write_mem {format : Format α} {values : List α} {bytes : List UInt8}
    (h : (Format.counted format).write values = .ok bytes) {v : α} (hv : v ∈ values) :
    ∃ part, format.write v = .ok part ∧ part.length ≤ bytes.length := by
  obtain ⟨-, parts, hp, rfl⟩ := counted_write_eq_ok h
  obtain ⟨part, hmem, hw⟩ := exists_of_mem_left hp hv
  refine ⟨part, hw, ?_⟩
  have hm := (List.sublist_flatten_of_mem hmem).length_le
  rw [List.length_append]
  omega

end Format

end MethodMetadata
