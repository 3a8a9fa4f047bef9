import MethodMetadata.Text.Number

/-! Numbers that are written in decimal digits read back. -/
namespace MethodMetadata.Number

theorem isDigit_of_mem_toString {n : Nat} {c : Char} (h : c ∈ (toString n).toList) :
    c.isDigit = true := by
  rw [Nat.toString_eq_ofList_toDigits, String.toList_ofList] at h
  exact Nat.isDigit_of_mem_toDigits (by decide) (by decide) h

theorem toString_ne_nil (n : Nat) : (toString n).toList ≠ [] := by
  rw [Nat.toString_eq_ofList_toDigits, String.toList_ofList]
  exact Nat.toDigits_ne_nil

private theorem digit?_of_isDigit {c : Char} (h : c.isDigit = true) :
    digit? c = some (c.toNat - 48) := by
  rw [Char.isDigit, Bool.and_eq_true, decide_eq_true_eq, decide_eq_true_eq] at h
  exact if_pos h

theorem isSome_digit?_iff {c : Char} : (digit? c).isSome ↔ c.isDigit = true := by
  refine ⟨fun h => ?_, fun h => Option.isSome_of_eq_some (digit?_of_isDigit h)⟩
  unfold digit? at h
  split at h
  next hd => simpa [Char.isDigit, Char.le_def] using hd
  next => cases h

private theorem foldlM_digits {digits : List Char} (h : ∀ c ∈ digits, c.isDigit = true) (n : Nat) :
    digits.foldlM (fun n c => (digit? c).map (n * 10 + ·)) n =
      some (Nat.ofDigitChars 10 digits n) := by
  induction digits generalizing n with
  | nil => rfl
  | cons c digits ih =>
    rw [List.foldlM_cons, digit?_of_isDigit (h c List.mem_cons_self), Nat.ofDigitChars_cons,
      Nat.mul_comm 10 n]
    exact ih (fun d hd => h d (List.mem_cons_of_mem _ hd)) _

private theorem ofDigits?_toString (n : Nat) : ofDigits? (toString n).toList = some n := by
  rw [ofDigits?, if_neg (by rw [List.isEmpty_iff]; exact toString_ne_nil n),
    foldlM_digits fun _ => isDigit_of_mem_toString, Nat.toString_eq_ofList_toDigits,
    String.toList_ofList, Nat.ofDigitChars_ten_toDigits]

/-- The digits of a number tell the number. -/
theorem toString_injective {n k : Nat} (h : toString n = toString k) : n = k := by
  have hread := ofDigits?_toString n
  rw [h, ofDigits?_toString] at hread
  exact (Option.some.inj hread).symm

/-- Written in decimal, a number is read back. -/
theorem uint32?_toString (n : UInt32) : uint32? (toString n.toNat).toList = some n := by
  have hbelow : below? UInt32.size (toString n.toNat).toList = some n.toNat := by
    unfold below?
    split
    next rest hplus =>
      have hdigit : '+'.isDigit = true :=
        isDigit_of_mem_toString (n := n.toNat) (hplus ▸ List.mem_cons_self)
      cases hdigit
    next =>
      dsimp only
      rw [ofDigits?_toString, Option.filter_some, if_pos (decide_eq_true n.toNat_lt)]
  rw [uint32?, hbelow, Option.map_some, UInt32.ofNat_toNat]

end MethodMetadata.Number
