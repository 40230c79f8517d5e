import LoxInterpreter.Proofs.Number.Equality
import LoxInterpreter.Proofs.Number.Rounding

/-!
Floating-point numbers. The finite ones are known from their sign, mantissa and exponent, and two of
them are equal if they stand for the same real number.
-/

namespace Lox

open Float.Model (Format UnpackedFloat)
open Float.Model.UnpackedFloat (unpackExponent unpackMantissa)

namespace Numeral

variable {bits bits' : ℕ} {b : Binary}

/-- The three fields of the bits of a finite number. -/
theorem fields_of_ofBits (h : ofBits bits = .finite b) :
    (b.negative = true ↔ bits / 2 ^ 63 % 2 = 1) ∧
    (bits / 2 ^ 52 % 2 ^ 11 = 0 ∧ b.mantissa = bits % 2 ^ 52 ∧ b.exponent = -1074 ∨
      bits / 2 ^ 52 % 2 ^ 11 ≠ 0 ∧ bits / 2 ^ 52 % 2 ^ 11 ≠ 2047 ∧
        b.mantissa = 2 ^ 52 + bits % 2 ^ 52 ∧
        b.exponent = (bits / 2 ^ 52 % 2 ^ 11 : ℕ) - 1075) := by
  unfold ofBits at h
  simp only [Nat.pow_eq] at h
  split at h
  · split at h <;> cases h
  · split at h
    · cases h
      exact ⟨beq_iff_eq, Or.inl ⟨‹_›, rfl, rfl⟩⟩
    · cases h
      exact ⟨beq_iff_eq, Or.inr ⟨‹_›, ‹_›, rfl, rfl⟩⟩

theorem isDouble_of_ofBits (h : ofBits bits = .finite b) : b.IsDouble := by
  have hfraction : bits % 2 ^ 52 < 2 ^ 52 := Nat.mod_lt _ (by norm_num)
  obtain ⟨-, ⟨-, hmantissa, hexponent⟩ | ⟨hzero, -, hmantissa, hexponent⟩⟩ := fields_of_ofBits h
  · exact ⟨by omega, by omega, by omega⟩
  · exact ⟨by omega, by omega, by omega⟩

/-- Different bits stand for different finite numbers. -/
theorem ofBits_injective (hbits : bits < 2 ^ 64) (hbits' : bits' < 2 ^ 64)
    (h : ofBits bits = .finite b) (h' : ofBits bits' = .finite b) : bits = bits' := by
  have hfraction : bits % 2 ^ 52 < 2 ^ 52 := Nat.mod_lt _ (by norm_num)
  have hfraction' : bits' % 2 ^ 52 < 2 ^ 52 := Nat.mod_lt _ (by norm_num)
  obtain ⟨hsign, hparts⟩ := fields_of_ofBits h
  obtain ⟨hsign', hparts'⟩ := fields_of_ofBits h'
  have hsigns := hsign.symm.trans hsign'
  omega

end Numeral

/-! ### Comparison -/

theorem toNat_unpackExponent (bits : BitVec 64) :
    (@unpackExponent Format.binary64 bits).toNat = bits.toNat / 2 ^ 52 % 2 ^ 11 := by
  simp [unpackExponent, Nat.shiftRight_eq_div_pow]

theorem toNat_unpackMantissa (bits : BitVec 64) :
    (@unpackMantissa Format.binary64 bits).toNat = bits.toNat % 2 ^ 52 := by
  simp [unpackMantissa]

variable {x y : Float} {b b' : Binary}

namespace FloatModel

/-- What bits are unpacked as depends on the fields for the exponent and the mantissa. -/
theorem unpack_cases (bits : BitVec 64) {u : UnpackedFloat}
    (hu : UnpackedFloat.unpack Format.binary64 bits = u) :
    (@unpackExponent Format.binary64 bits = -1#11 ∧ @unpackMantissa Format.binary64 bits = 0#52 ∧
        ∃ s, u = .infinity s) ∨
      (@unpackExponent Format.binary64 bits = -1#11 ∧
        @unpackMantissa Format.binary64 bits ≠ 0#52 ∧ u = .notANumber) ∨
      (@unpackExponent Format.binary64 bits = 0#11 ∧ @unpackMantissa Format.binary64 bits = 0#52 ∧
        ∃ s, u = .zero s) ∨
      (@unpackExponent Format.binary64 bits ≠ -1#11 ∧
        (@unpackExponent Format.binary64 bits = 0#11 →
          @unpackMantissa Format.binary64 bits ≠ 0#52) ∧ ∃ s m e hm, u = .finite s m e hm) := by
  delta UnpackedFloat.unpack at hu
  by_cases hones : @unpackExponent Format.binary64 bits = -1#11
  · replace hu := (if_pos hones).symm.trans hu
    by_cases hfraction : @unpackMantissa Format.binary64 bits = 0#52
    · replace hu := (if_pos hfraction).symm.trans hu
      exact Or.inl ⟨hones, hfraction, _, hu.symm⟩
    · replace hu := (if_neg hfraction).symm.trans hu
      exact Or.inr (Or.inl ⟨hones, hfraction, hu.symm⟩)
  replace hu := (if_neg hones).symm.trans hu
  by_cases hzero : @unpackExponent Format.binary64 bits = 0#11
  · replace hu := (if_pos hzero).symm.trans hu
    by_cases hfraction : @unpackMantissa Format.binary64 bits = 0#52
    · replace hu := (dif_pos hfraction).symm.trans hu
      exact Or.inr (Or.inr (Or.inl ⟨hzero, hfraction, _, hu.symm⟩))
    · replace hu := (dif_neg hfraction).symm.trans hu
      exact Or.inr (Or.inr (Or.inr ⟨hones, fun _ => hfraction, _, _, _, _, hu.symm⟩))
  · replace hu := (if_neg hzero).symm.trans hu
    exact Or.inr (Or.inr (Or.inr ⟨hones, fun h => absurd h hzero, _, _, _, _, hu.symm⟩))

end FloatModel

open FloatModel

theorem unpackExponent_eq_iff {bits : BitVec 64} {v : BitVec 11} :
    @unpackExponent Format.binary64 bits = v ↔ bits.toNat / 2 ^ 52 % 2 ^ 11 = v.toNat := by
  rw [← BitVec.toNat_inj, toNat_unpackExponent]

theorem unpackMantissa_eq_iff {bits : BitVec 64} {v : BitVec 52} :
    @unpackMantissa Format.binary64 bits = v ↔ bits.toNat % 2 ^ 52 = v.toNat := by
  rw [← BitVec.toNat_inj, toNat_unpackMantissa]

/-- A finite number is zero or has a mantissa that is not. -/
theorem unpack_of_finite (h : Numeral.ofFloat x = .finite b) :
    b.mantissa = 0 ∧ (∃ s, x.toModel.unpack = .zero s) ∨
      b.mantissa ≠ 0 ∧ ∃ s m e hm, x.toModel.unpack = .finite s m e hm := by
  have hfields := (Numeral.fields_of_ofBits h).2
  have htoNat : (-1#11 : BitVec 11).toNat = 2047 ∧ (0#11 : BitVec 11).toNat = 0 ∧
      (0#52 : BitVec 52).toNat = 0 := ⟨rfl, rfl, rfl⟩
  have hexponent (v : BitVec 11) : @unpackExponent Format.binary64 x.toBits.toBitVec = v ↔
      x.toBits.toNat / 2 ^ 52 % 2 ^ 11 = v.toNat := unpackExponent_eq_iff
  have hmantissa (v : BitVec 52) : @unpackMantissa Format.binary64 x.toBits.toBitVec = v ↔
      x.toBits.toNat % 2 ^ 52 = v.toNat := unpackMantissa_eq_iff
  have hcases := unpack_cases (u := x.toModel.unpack) x.toBits.toBitVec rfl
  rw [hexponent, hexponent, hmantissa] at hcases
  rcases hcases with ⟨hones, -⟩ | ⟨hones, -⟩ | ⟨hzero, hnone, hu⟩ | ⟨hones, hsome, hu⟩
  · omega
  · omega
  · exact Or.inl ⟨by omega, hu⟩
  · refine Or.inr ⟨?_, hu⟩
    rcases hfields with ⟨hzero, hfraction, -⟩ | ⟨-, -, hfraction, -⟩
    · have hne := mt (hmantissa 0#52).2 (hsome hzero)
      omega
    · omega

/-- What is finite is equal to itself. -/
theorem beq_self_of_finite (h : Numeral.ofFloat x = .finite b) : (x == x) = true := by
  refine beq_iff_unpack.2 ⟨?_, rfl⟩
  rcases unpack_of_finite h with ⟨-, s, hs⟩ | ⟨-, s, m, e, hm, hs⟩
  · rw [hs]
    rintro ⟨⟩
  · rw [hs]
    rintro ⟨⟩

/-- The zeros are equal. -/
theorem beq_of_zero (h : Numeral.ofFloat x = .finite b) (h' : Numeral.ofFloat y = .finite b')
    (hb : b.mantissa = 0) (hb' : b'.mantissa = 0) : (x == y) = true := by
  rcases unpack_of_finite h with ⟨-, s, hs⟩ | ⟨hne, -⟩
  · rcases unpack_of_finite h' with ⟨-, s', hs'⟩ | ⟨hne', -⟩
    · rw [beq_iff_unpack, hs, hs']
      exact ⟨by rintro ⟨⟩, rfl⟩
    · exact absurd hb' hne'
  · exact absurd hb hne

/-- Numbers with the same sign, mantissa and exponent are the same. -/
theorem eq_of_finite (h : Numeral.ofFloat x = .finite b) (h' : Numeral.ofFloat y = .finite b) :
    x = y := by
  have hbits := Numeral.ofBits_injective x.toBits.toNat_lt y.toBits.toNat_lt h h'
  have hbits : x.toModel.toBits = y.toModel.toBits := UInt64.toNat_inj.1 hbits
  obtain ⟨⟨bits, hvalid⟩⟩ := x
  obtain ⟨⟨bits', hvalid'⟩⟩ := y
  obtain rfl : bits = bits' := hbits
  rfl

/-- Two finite numbers are equal if they stand for the same real number. -/
theorem beq_of_value_eq (h : Numeral.ofFloat x = .finite b) (h' : Numeral.ofFloat y = .finite b')
    (hvalue : b.value = b'.value) : (x == y) = true := by
  have hb := Numeral.isDouble_of_ofBits h
  have hb' := Numeral.isDouble_of_ofBits h'
  have hsize : b.size = b'.size := by
    rw [← b.abs_value, hvalue, b'.abs_value]
  obtain ⟨hmantissa, hexponent⟩ := hb.parts_eq hb' hsize
  by_cases hzero : b.mantissa = 0
  · exact beq_of_zero h h' hzero (hmantissa.symm.trans hzero)
  · have hpos : 0 < b.size := b.readFrom_size.pos hzero
    have hnegative : b.negative = b'.negative := by
      rw [Binary.value, Binary.value, ← hsize] at hvalue
      cases hsign : b.negative <;> cases hsign' : b'.negative <;>
        simp only [hsign, hsign'] at hvalue
      all_goals simp at hvalue ⊢
      all_goals linarith
    obtain rfl : b = b' := by
      obtain ⟨_, _, _⟩ := b
      obtain ⟨_, _, _⟩ := b'
      congr
    obtain rfl := eq_of_finite h h'
    exact beq_self_of_finite h

/-! ### Numbers that are read -/

namespace FloatModel

open Float.Model
open Float.Model.UnpackedFloat (normalize round roundWithAccuracy unpackExponent_packComponents
  unpackMantissa_packComponents)

variable {u v : UnpackedFloat}

theorem fields_of_unpack {bits : BitVec 64}
    (h : UnpackedFloat.unpack Format.binary64 bits = .notANumber) :
    @unpackExponent Format.binary64 bits = -1#11 ∧ @unpackMantissa Format.binary64 bits ≠ 0#52 := by
  rcases unpack_cases bits h with ⟨-, -, s, ⟨⟩⟩ | ⟨hones, hsome, -⟩ | ⟨-, -, s, ⟨⟩⟩ |
    ⟨-, -, s, m, e, hm, ⟨⟩⟩
  exact ⟨hones, hsome⟩

/-- What is packed stays a number. -/
theorem unpack_pack_ne (h : u ≠ .notANumber) : (Float.Model.pack u).unpack ≠ .notANumber := by
  intro hunpack
  have hunpacked : UnpackedFloat.unpack Format.binary64 (UnpackedFloat.pack Format.binary64 u) =
      .notANumber := hunpack
  obtain ⟨hexponent, hmantissa⟩ := fields_of_unpack hunpacked
  cases u with
  | notANumber => exact h rfl
  | infinity s => exact hmantissa unpackMantissa_packComponents
  | zero s => exact hmantissa unpackMantissa_packComponents
  | finite s m e hm =>
    delta UnpackedFloat.pack at hexponent hmantissa
    dsimp only at hexponent hmantissa
    split at hexponent
    next hlarge =>
      rw [if_pos hlarge] at hmantissa
      exact hmantissa unpackMantissa_packComponents
    next hlarge =>
      split at hexponent
      · -- The exponent fits, and its bits are not all ones.
        rw [unpackExponent_packComponents] at hexponent
        have htoNat := congrArg BitVec.toNat hexponent
        have hones : (-1#11 : BitVec 11).toNat = 2047 := rfl
        rw [BitVec.toNat_ofNat, hones] at htoNat
        have hmod := Nat.mod_le (e + Format.binary64.exponentBias +
          Format.binary64.mantissaBitsWithoutImplicit).toNat (2 ^ 11)
        exact hlarge (by omega)
      · rw [unpackExponent_packComponents] at hexponent
        cases hexponent

theorem dite_ne {α : Type} {c : Prop} [Decidable c] {f : c → α} {g : ¬ c → α} {a : α}
    (hf : ∀ h, f h ≠ a) (hg : ∀ h, g h ≠ a) : dite c f g ≠ a := by
  by_cases h : c
  · rw [dif_pos h]
    exact hf h
  · rw [dif_neg h]
    exact hg h

theorem roundWithAccuracy_ne (s : UnpackedFloat.Sign) (m : ℕ) (e : ℤ)
    (a : UnpackedFloat.Accuracy) :
    roundWithAccuracy Format.binary64 s m e a ≠ .notANumber := by
  delta roundWithAccuracy
  exact dite_ne (fun _ => by rintro ⟨⟩) fun _ => by rintro ⟨⟩

theorem ofNat_ne (n : ℕ) : UnpackedFloat.ofNat Format.binary64 n ≠ .notANumber := by
  unfold UnpackedFloat.ofNat UnpackedFloat.ofInt UnpackedFloat.normalize UnpackedFloat.round
  split
  · exact roundWithAccuracy_ne _ _ _ _
  · simp
  · exact roundWithAccuracy_ne _ _ _ _

/-- A number divided by one that is finite and not zero is a number. -/
theorem div_ne (hu : u ≠ .notANumber) (s : UnpackedFloat.Sign) (m : ℕ) (e : ℤ) (hm : 0 < m) :
    UnpackedFloat.div Format.binary64 u (.finite s m e hm) ≠ .notANumber := by
  cases u with
  | notANumber => exact absurd rfl hu
  | infinity | zero => rintro ⟨⟩
  | finite s' m' e' hm' => exact roundWithAccuracy_ne _ _ _ _

theorem ofScientific_ne (m : ℕ) (e : ℤ) :
    UnpackedFloat.ofScientific Format.binary64 m e ≠ .notANumber := by
  delta UnpackedFloat.ofScientific
  refine dite_ne (fun _ => by rintro ⟨⟩) fun _ => ?_
  refine dite_ne (fun _ => by rintro ⟨⟩) fun _ => ?_
  refine dite_ne (fun _ => by rintro ⟨⟩) fun _ => ?_
  exact dite_ne (fun _ => roundWithAccuracy_ne _ _ _ _) fun _ => roundWithAccuracy_ne _ _ _ _

def isNonzero : UnpackedFloat → Bool
  | .finite .. => true
  | _ => false

theorem exists_of_isNonzero (h : isNonzero v = true) : ∃ s m e hm, v = .finite s m e hm := by
  cases v with
  | finite s m e hm => exact ⟨s, m, e, hm, rfl⟩
  | notANumber | infinity | zero => cases h

theorem isNonzero_powers : ∀ (i : ℕ) (h : i < Float.exactlyRepresentablePowersOfTen.size),
    isNonzero (Float.exactlyRepresentablePowersOfTen[i]).toModel.unpack = true := by
  decide +kernel

end FloatModel

open FloatModel

/-- A decimal is read as a number. -/
theorem unpack_ofScientific_ne (m e : ℕ) :
    (Float.ofScientific m true e).toModel.unpack ≠ .notANumber := by
  unfold Float.ofScientific
  split
  next h =>
    dsimp only
    rw [if_pos rfl]
    have hsize : e < Float.exactlyRepresentablePowersOfTen.size := Nat.lt_succ_of_le h.2
    obtain ⟨s, m', e', hm', hpower⟩ := exists_of_isNonzero (isNonzero_powers e hsize)
    refine unpack_pack_ne ?_
    rw [hpower]
    exact div_ne (unpack_pack_ne (ofNat_ne _)) s m' e' hm'
  next => exact unpack_pack_ne (ofScientific_ne _ _)

/-- What is not a number by its bits is none when it is unpacked. -/
theorem unpack_of_notANumber (h : Numeral.ofFloat x = .notANumber) :
    x.toModel.unpack = .notANumber := by
  have hfields : x.toBits.toNat / 2 ^ 52 % 2 ^ 11 = 2047 ∧ x.toBits.toNat % 2 ^ 52 ≠ 0 := by
    unfold Numeral.ofFloat Numeral.ofBits at h
    simp only [Nat.pow_eq] at h
    split at h
    next hexponent =>
      split at h
      · cases h
      next hfraction => exact ⟨hexponent, hfraction⟩
    next => split at h <;> cases h
  have hexponent : @unpackExponent Format.binary64 x.toBits.toBitVec = -1#11 :=
    unpackExponent_eq_iff.2 hfields.1
  have hmantissa : @unpackMantissa Format.binary64 x.toBits.toBitVec ≠ 0#52 := fun hzero =>
    hfields.2 (unpackMantissa_eq_iff.1 hzero)
  rcases unpack_cases x.toBits.toBitVec rfl with ⟨-, hnone, -⟩ | ⟨-, -, hu⟩ | ⟨-, hnone, -⟩ |
    ⟨hones, -⟩
  · exact absurd hnone hmantissa
  · exact hu
  · exact absurd hnone hmantissa
  · exact absurd hexponent hones

/-- So a decimal is finite or infinite. -/
theorem ofScientific_ne_notANumber (m e : ℕ) :
    Numeral.ofFloat (Float.ofScientific m true e) ≠ .notANumber :=
  fun h => unpack_ofScientific_ne m e (unpack_of_notANumber h)

end Lox
