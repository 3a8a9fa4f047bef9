import MethodMetadata.ClassFile.ConstantFormat

/-! Properties of readers that pass from the fields of a structure to the structure. Whatever holds
of numbers, blocks and the faults of single constants in this way holds of constants. -/
namespace MethodMetadata

namespace Format

abbrev Reader (α : Type) := List UInt8 → Except Fault (α × List UInt8)

/-- A property that holds of a reader if it holds of the readers that it calls. -/
structure Compositional (P : ∀ ⦃α : Type⦄, Reader α → Prop) : Prop where
  pure : ∀ {α : Type} (value : α), P fun bytes => .ok (value, bytes)
  bind : ∀ {α β : Type} {first : Reader α} {second : α → Reader β}, P first →
    (∀ a, P (second a)) → P fun bytes => first bytes >>= fun taken => second taken.1 taken.2
  bigEndian : ∀ width, P (bigEndian width).read
  takeBlock : ∀ length, P (takeBlock length)
  unknownTag : ∀ {α : Type} (tag : UInt8), P fun _ => (.error (.unknownTag tag) : Except _ (α × _))
  unknownHandleKind : ∀ {α : Type} (number : UInt8),
    P fun _ => (.error (.unknownHandleKind number) : Except _ (α × _))

namespace Compositional

variable {P : ∀ ⦃α : Type⦄, Reader α → Prop} {α β : Type}

theorem pair (h : Compositional P) {first : Format α} {second : Format β} (hf : P first.read)
    (hs : P second.read) : P (first.pair second).read :=
  h.bind hf fun a => h.bind hs fun b => h.pure (a, b)

theorem imap (h : Compositional P) {format : Format α} (hf : P format.read) (pack : α → β)
    (unpack : β → α) : P (format.imap pack unpack).read :=
  h.bind hf fun a => h.pure (pack a)

theorem byte (h : Compositional P) : P byte.read := h.imap (h.bigEndian 1) _ _
theorem word16 (h : Compositional P) : P word16.read := h.imap (h.bigEndian 2) _ _
theorem word32 (h : Compositional P) : P word32.read := h.imap (h.bigEndian 4) _ _
theorem word64 (h : Compositional P) : P word64.read := h.imap (h.bigEndian 8) _ _

private theorem readManyOnto (h : Compositional P) {format : Format α} (hf : P format.read)
    (count : Nat) (done : List α) : P (readManyOnto format done count) := by
  induction count generalizing done with
  | zero => exact h.pure done.reverse
  | succ count ih =>
    have hbind : Format.readManyOnto format done (count + 1) = fun bytes =>
        format.read bytes >>= fun taken =>
          Format.readManyOnto format (taken.1 :: done) count taken.2 := by
      funext bytes
      rw [Format.readManyOnto]
      cases format.read bytes <;> rfl
    rw [hbind]
    exact h.bind hf fun value => ih (value :: done)

/-- What readers share that are made of others, counted sequences share. -/
theorem counted (h : Compositional P) {format : Format α} (hf : P format.read) :
    P (counted format).read :=
  h.bind h.word16 fun count => h.readManyOnto hf count.toNat []

theorem block32 (h : Compositional P) : P block32.read :=
  h.bind h.word32 fun length => h.takeBlock length.toNat

private theorem text (h : Compositional P) : P text.read :=
  h.bind h.word16 fun length => h.bind (h.takeBlock length.toNat) fun block =>
    h.pure (EncodedText.ofBytes block)

private theorem handleKind (h : Compositional P) : P HandleKind.format.read := by
  have hread : HandleKind.format.read = fun bytes => Format.byte.read bytes >>= fun taken =>
      (HandleKind.ofNumber? taken.1).elim (.error (.unknownHandleKind taken.1)) fun kind =>
        .ok (kind, taken.2) := by
    funext bytes
    refine congrArg _ (funext fun taken => ?_)
    dsimp only
    cases HandleKind.ofNumber? taken.1 <;> rfl
  have hkind (number : UInt8) : P fun rest => (HandleKind.ofNumber? number).elim
      (.error (.unknownHandleKind number)) fun kind => .ok (kind, rest) := by
    cases HandleKind.ofNumber? number with
    | some kind => exact h.pure kind
    | none => exact h.unknownHandleKind number
  rw [hread]
  exact h.bind h.byte hkind

private theorem readFields (h : Compositional P) (tag : UInt8) :
    P (Constant.readFields tag) := by
  have hfields {α : Type} {format : Format α} (hf : P format.read) (pack : α → Constant) :
      P fun bytes => Constant.readFields.fields bytes format pack :=
    h.bind hf fun value => h.pure (pack value)
  have hpair : P Constant.indexPair.read := h.pair h.word16 h.word16
  unfold Constant.readFields
  split
  case h_1 => exact hfields h.text _
  case h_2 => exact hfields (h.imap h.word32 _ _) _
  case h_3 => exact hfields h.word32 _
  case h_4 => exact hfields (h.imap h.word64 _ _) _
  case h_5 => exact hfields h.word64 _
  case h_12 => exact hfields (h.pair h.handleKind h.word16) _
  -- Constants that refer to one constant, and those that refer to two.
  case h_6 | h_7 | h_13 | h_16 | h_17 => exact hfields h.word16 _
  case h_8 | h_9 | h_10 | h_11 | h_14 | h_15 => exact hfields hpair _
  case h_18 => exact h.unknownTag tag

/-- What holds of the fields of constants holds of constants. -/
theorem constant (h : Compositional P) : P Constant.format.read :=
  h.bind h.byte h.readFields

end Compositional

end Format

end MethodMetadata
