import MethodMetadata.Proofs.Edits
import MethodMetadata.Proofs.Readers

/-! Formats that tell where their values end. Whatever follows a value is left alone, and bytes that
are cut off inside of a value run out before anything else can be found wrong with them. -/
namespace MethodMetadata

namespace Format

variable {α β : Type}

/-- The bytes end where more of them are needed. -/
def RunsOut (read : Reader α) (bytes : List UInt8) : Prop :=
  ∃ fault, read bytes = .error fault ∧ fault.kind = .unexpectedEnd

/-- A value is read from bytes that are all needed for it, and from no others. -/
def SelfDelimiting ⦃α : Type⦄ (read : Reader α) : Prop :=
  ∀ ⦃bytes value rest⦄, read bytes = .ok (value, rest) → ∃ front, bytes = front ++ rest ∧
    (∀ other, read (front ++ other) = .ok (value, other)) ∧
    ∀ cut more, front = cut ++ more → more ≠ [] → RunsOut read cut

namespace SelfDelimiting

private theorem pure (value : α) : SelfDelimiting fun bytes => .ok (value, bytes) := by
  intro bytes _ rest h
  cases h
  refine ⟨[], rfl, fun _ => rfl, fun cut more hcut hmore => ?_⟩
  exact absurd (List.append_eq_nil_iff.mp hcut.symm).2 hmore

private theorem error (fault : Fault) : SelfDelimiting fun _ => (.error fault : Except _ (α × _)) :=
  fun _ _ _ h => nomatch h

/-- One reader behind another, which decides what is read. -/
theorem bind {first : Reader α} {second : α → Reader β} (hf : SelfDelimiting first)
    (hs : ∀ a, SelfDelimiting (second a)) :
    SelfDelimiting fun bytes => first bytes >>= fun taken => second taken.1 taken.2 := by
  intro bytes value rest h
  obtain ⟨⟨a, middle⟩, ha, hb⟩ := bind_eq_ok_iff.mp h
  obtain ⟨left, rfl, hleft, hleftcut⟩ := hf ha
  obtain ⟨right, rfl, hright, hrightcut⟩ := hs a hb
  refine ⟨left ++ right, (List.append_assoc _ _ _).symm, fun other => ?_, fun cut more hcut hmore => ?_⟩
  · rw [List.append_assoc]
    exact bind_eq_ok_iff.mpr ⟨_, hleft _, hright other⟩
  · have hsecond (behind : List UInt8) (hr : right = behind ++ more) :
        RunsOut (fun bytes => first bytes >>= fun taken => second taken.1 taken.2)
          (left ++ behind) := by
      obtain ⟨fault, he, hk⟩ := hrightcut behind more hr hmore
      exact ⟨fault, bind_eq_error_iff.mpr (.inr ⟨_, hleft behind, he⟩), hk⟩
    -- The cut lies behind what the first reader needs, or inside of it.
    obtain ⟨behind, rfl, hr⟩ | ⟨inside, hl, hm⟩ := List.append_eq_append_iff.mp hcut
    · exact hsecond behind hr
    · by_cases hinside : inside = []
      · subst hinside
        rw [List.append_nil] at hl
        have := hsecond [] hm.symm
        rwa [List.append_nil, hl] at this
      · obtain ⟨fault, he, hk⟩ := hleftcut cut inside hl hinside
        exact ⟨fault, bind_eq_error_iff.mpr (.inl he), hk⟩

private theorem ofWidth {read : Reader α} (width : Nat) (take : List UInt8 → α)
    (missing : List UInt8 → Fault)
    (hread : ∀ bytes, read bytes = if (bytes.take width).length = width
      then .ok (take (bytes.take width), bytes.drop width) else .error (missing bytes))
    (hmissing : ∀ bytes, (missing bytes).kind = .unexpectedEnd) : SelfDelimiting read := by
  intro bytes value rest h
  rw [hread] at h
  split at h
  next hl =>
    cases h
    refine ⟨bytes.take width, (List.take_append_drop width bytes).symm, fun other => ?_,
      fun cut more hcut hmore => ?_⟩
    · rw [hread, List.take_left' hl, List.drop_left' hl, if_pos hl]
    · have hshort : (cut.take width).length ≠ width := by
        have hlength := congrArg List.length hcut
        have := List.length_pos_iff.mpr hmore
        have := List.length_take_le' width cut
        rw [hl, List.length_append] at hlength
        omega
      exact ⟨missing cut, (hread cut).trans (if_neg hshort), hmissing cut⟩
  next => cases h

end SelfDelimiting

private theorem compositional_selfDelimiting : Compositional SelfDelimiting where
  pure := SelfDelimiting.pure
  bind := SelfDelimiting.bind
  bigEndian width := .ofWidth width ofBigEndian (fun _ => .endOfInput) (fun _ => rfl) fun _ => rfl
  takeBlock length :=
    .ofWidth length id (fun bytes => .shortBlock length (bytes.take length).length) (fun _ => rfl)
      fun _ => rfl
  unknownTag tag := .error (.unknownTag tag)
  unknownHandleKind number := .error (.unknownHandleKind number)

end Format

open Format

namespace ConstantPool

private theorem readOnto_selfDelimiting (stop steps : Nat) (pool : ConstantPool) :
    SelfDelimiting (readOnto stop steps pool) := by
  induction steps generalizing pool with
  | zero => exact .pure pool
  | succ steps ih =>
    by_cases hstop : stop ≤ pool.constants.next
    · have hpure : readOnto stop (steps + 1) pool = fun bytes => .ok (pool, bytes) := by
        funext bytes
        rw [readOnto, if_pos hstop]
      rw [hpure]
      exact .pure pool
    · have hbind : readOnto stop (steps + 1) pool = fun bytes =>
          Constant.format.read bytes >>= fun taken =>
            if fits : pool.Fits taken.1 then readOnto stop steps (pool.push taken.1 fits) taken.2
            else .error (.poolOverflow ⟨taken.1, pool.nextIndex⟩) := by
        funext bytes
        rw [readOnto, if_neg hstop]
        cases Constant.format.read bytes <;> rfl
      rw [hbind]
      have hpush (constant : Constant) : SelfDelimiting fun rest =>
          if fits : pool.Fits constant then readOnto stop steps (pool.push constant fits) rest
          else .error (.poolOverflow ⟨constant, pool.nextIndex⟩) := by
        split
        next fits => exact ih (pool.push constant fits)
        next => exact .error _
      exact compositional_selfDelimiting.constant.bind hpush

/-- A pool ends where its count is reached, whether that is right or not. -/
theorem selfDelimiting : SelfDelimiting ConstantPool.format.read := by
  have hcount (count : UInt16) (pool : ConstantPool) : SelfDelimiting fun rest =>
      if pool.constants.next = count.toNat then .ok (pool, rest) else .error .poolOverrun := by
    split
    next => exact .pure pool
    next => exact .error _
  exact compositional_selfDelimiting.word16.bind fun count =>
    (readOnto_selfDelimiting count.toNat count.toNat empty).bind (hcount count)

end ConstantPool

namespace ClassFile

private theorem magic_selfDelimiting : SelfDelimiting magicFormat.read := by
  intro bytes _ rest h
  simp only [magicFormat] at h
  split at h
  next hm =>
    cases h
    refine ⟨magic, by rw [← hm, List.take_append_drop], fun _ => rfl, fun cut more hcut hmore => ?_⟩
    have hshort : cut.length < 4 := by
      have hlength := congrArg List.length hcut
      have := List.length_pos_iff.mpr hmore
      rw [List.length_append] at hlength
      simp only [magic, List.length_cons, List.length_nil] at hlength
      omega
    have htake : cut.take 4 = cut := List.take_of_length_le (Nat.le_of_lt hshort)
    have hmagic : cut ≠ magic := fun he => by simp [he, magic] at hshort
    refine ⟨.endOfInput, ?_, rfl⟩
    simp only [magicFormat, htake, if_neg hmagic, if_neg (Nat.ne_of_lt hshort)]
  next =>
    split at h <;> cases h

private theorem selfDelimiting : SelfDelimiting ClassFile.format.read := by
  have h := compositional_selfDelimiting
  have hversion : SelfDelimiting Version.format.read := h.imap (h.pair h.word16 h.word16) _ _
  have hattributes : SelfDelimiting (counted Attribute.format).read :=
    h.counted (h.imap (h.pair h.word16 h.block32) _ _)
  have hmembers : SelfDelimiting (counted Member.format).read :=
    h.counted (h.imap (h.pair h.word16 (h.pair h.word16 (h.pair h.word16 hattributes))) _ _)
  have hbody : SelfDelimiting bodyFormat.read :=
    h.imap (h.pair hversion (h.pair ConstantPool.selfDelimiting (h.pair h.word16 (h.pair h.word16
      (h.pair h.word16 (h.pair (h.counted h.word16) (h.pair hmembers (h.pair hmembers
        hattributes)))))))) _ _
  exact h.imap (h.pair magic_selfDelimiting hbody) _ _

/-- A class file that is cut off anywhere ends too early, and one with anything behind it holds
data that does not belong there. -/
theorem parse_cut_or_extended {bytes : List UInt8} {c : ClassFile}
    (h : ClassFile.parse bytes = .ok c) :
    (∀ cut, cut <+: bytes → cut ≠ bytes → ∃ fault,
      ClassFile.parse cut = .error (.malformed fault) ∧ fault.kind = .unexpectedEnd) ∧
    ∀ more, more ≠ [] → ∃ fault,
      ClassFile.parse (bytes ++ more) = .error (.malformed fault) ∧ fault.kind = .invalidData := by
  obtain ⟨⟨_, rest⟩, hr, hend⟩ := bind_eq_ok_iff.mp (mapError_eq_ok_iff.mp h)
  obtain ⟨⟨⟩, he, -⟩ := bind_eq_ok_iff.mp hend
  cases rest with
  | cons => cases he
  | nil =>
    obtain ⟨front, rfl, hextended, hcut⟩ := selfDelimiting hr
    rw [List.append_nil]
    refine ⟨?_, fun more hmore => ?_⟩
    · rintro cut ⟨missing, rfl⟩ hne
      have hmissing : missing ≠ [] := fun h => hne (by rw [h, List.append_nil])
      obtain ⟨fault, hf, hk⟩ := hcut cut missing rfl hmissing
      exact ⟨fault, mapError_eq_error_iff.mpr ⟨fault, bind_eq_error_iff.mpr (.inl hf), rfl⟩, hk⟩
    · obtain ⟨b, more, rfl⟩ := List.exists_cons_of_ne_nil hmore
      refine ⟨.trailing (b :: more).length "class file", mapError_eq_error_iff.mpr ⟨_, ?_, rfl⟩, rfl⟩
      exact bind_eq_error_iff.mpr (.inr ⟨_, hextended _, rfl⟩)

/-- The class ends inside of its last attribute, or before the first of two bytes too many. -/
theorem parse_cut_or_extended_queue :
    (∃ fault, ClassFile.parse (Assembly.queueBytes.take (Assembly.queueBytes.length - 1)) =
      .error (.malformed fault) ∧ fault.kind = .unexpectedEnd) ∧
    ∃ fault, ClassFile.parse (Assembly.queueBytes ++ [0, 0]) =
      .error (.malformed fault) ∧ fault.kind = .invalidData := by
  have hs : (ClassFile.parse Assembly.queueBytes).toOption.isSome := by decide +kernel
  obtain ⟨c, hc⟩ := isSome_toOption_iff.mp hs
  have hcut : Assembly.queueBytes.take (Assembly.queueBytes.length - 1) ≠ Assembly.queueBytes := by
    decide +kernel
  obtain ⟨hshorter, hlonger⟩ := parse_cut_or_extended hc
  exact ⟨hshorter _ (List.take_prefix _ _) hcut, hlonger _ (List.cons_ne_nil _ _)⟩

end ClassFile

end MethodMetadata
