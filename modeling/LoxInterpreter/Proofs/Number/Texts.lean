import LoxInterpreter.Number.Layout
import LoxInterpreter.Proofs.Lexical.Written
import LoxInterpreter.Proofs.Number.Rounding

/-!
Texts of numbers: what they denote, and which shapes they have. A decimal is written with its point
among the digits if it is neither too small nor too large, and otherwise with an exponent. Both
texts denote the decimal.
-/

namespace Lox

open Scan (digitsValue isDigit)

namespace Layout

/-! ### What texts denote -/

def before (c : Char) (text : List Char) : List Char := text.takeWhile (· != c)

def behind (c : Char) (text : List Char) : List Char := (text.dropWhile (· != c)).drop 1

/-- The number that digits denote, perhaps with a point among them. -/
def pointValue (text : List Char) : ℚ :=
  digitsValue (before '.' text ++ behind '.' text) / 10 ^ (behind '.' text).length

def exponentValue : List Char → ℤ
  | '-' :: ds => -digitsValue ds
  | '+' :: ds => digitsValue ds
  | ds => digitsValue ds

/-- The number that a text without a sign denotes, perhaps with an exponent. -/
def magnitudeValue (text : List Char) : ℚ :=
  pointValue (before 'e' text) * 10 ^ exponentValue (behind 'e' text)

def textValue : List Char → ℚ
  | '-' :: text => -magnitudeValue text
  | text => magnitudeValue text

section

variable {c : Char} {xs ys : List Char}

theorem before_append (h : c ∉ xs) : before c (xs ++ c :: ys) = xs := by
  rw [before, List.takeWhile_append_of_pos (Lexical.ne_of_not_mem h),
    List.takeWhile_cons_of_neg (by simp), List.append_nil]

theorem behind_append (h : c ∉ xs) : behind c (xs ++ c :: ys) = ys := by
  rw [behind, List.dropWhile_append_of_pos (Lexical.ne_of_not_mem h),
    List.dropWhile_cons_of_neg (by simp), List.drop_succ_cons, List.drop_zero]

theorem before_of_not_mem (h : c ∉ xs) : before c xs = xs :=
  List.takeWhile_eq_self_iff.2 (Lexical.ne_of_not_mem h)

theorem behind_of_not_mem (h : c ∉ xs) : behind c xs = [] := by
  rw [behind, List.dropWhile_eq_nil_iff.2 (Lexical.ne_of_not_mem h), List.drop_nil]

end

/-! ### Shapes of texts -/

/-- Digits, without a zero in front of others. -/
structure IsPlain (ds : List Char) : Prop where
  ne_nil : ds ≠ []
  isDigit : ∀ d ∈ ds, isDigit d = true
  first : ds.head? = some '0' → ds = ['0']

structure IsTrimmed (ds : List Char) : Prop where
  ne_nil : ds ≠ []
  isDigit : ∀ d ∈ ds, isDigit d = true
  last : ds.getLast? ≠ some '0'

inductive IsPositional : List Char → Prop
  | whole {ds : List Char} (h : IsPlain ds) : IsPositional ds
  | fraction {whole part : List Char} (hwhole : IsPlain whole) (hpart : IsTrimmed part) :
      IsPositional (whole ++ '.' :: part)

/-- A digit that is not zero, perhaps a point and digits, and an exponent with its sign. -/
inductive IsScientific : List Char → Prop
  | whole {d sign : Char} {exponent : List Char} (hd : isDigit d = true) (hne : d ≠ '0')
      (hsign : sign ∈ ['+', '-']) (hexponent : IsPlain exponent) :
      IsScientific (d :: 'e' :: sign :: exponent)
  | fraction {d sign : Char} {part exponent : List Char} (hd : isDigit d = true) (hne : d ≠ '0')
      (hpart : IsTrimmed part) (hsign : sign ∈ ['+', '-']) (hexponent : IsPlain exponent) :
      IsScientific (d :: '.' :: (part ++ 'e' :: sign :: exponent))

theorem not_mem_of_isDigit {c : Char} {ds : List Char} (h : ∀ d ∈ ds, isDigit d = true)
    (hc : isDigit c = false) : c ∉ ds := fun hmem => by
  rw [h c hmem] at hc
  cases hc

theorem IsPositional.not_isScientific {text : List Char} (h : IsPositional text) :
    ¬ IsScientific text := by
  have hnone : 'e' ∉ text := by
    cases h with
    | whole hplain => exact not_mem_of_isDigit hplain.isDigit (by decide)
    | fraction hwhole hpart =>
      have hwhole : 'e' ∉ _ := not_mem_of_isDigit hwhole.isDigit (by decide)
      have hpart : 'e' ∉ _ := not_mem_of_isDigit hpart.isDigit (by decide)
      simp [hwhole, hpart]
  intro hscientific
  cases hscientific with
  | whole => simp at hnone
  | fraction => simp at hnone

/-! ### Digits of numbers -/

theorem digitsValue_append (xs ys : List Char) :
    digitsValue (xs ++ ys) = Nat.ofDigitChars 10 ys (digitsValue xs) :=
  List.foldl_append

theorem digitsValue_toDigits (n : ℕ) : digitsValue (Nat.toDigits 10 n) = n :=
  Nat.ofDigitChars_ten_toDigits

/-- Zeros in front of digits do not count. -/
theorem digitsValue_zeros_append (n : ℕ) (ds : List Char) :
    digitsValue (zeros n ++ ds) = digitsValue ds := by
  have hzeros : digitsValue (zeros n) = 0 := by
    refine (Nat.ofDigitChars_replicate_zero (b := 10)).trans (Nat.mul_zero _)
  rw [digitsValue_append, hzeros]
  rfl

theorem isDigit_of_mem_toDigits {n : ℕ} : ∀ d ∈ Nat.toDigits 10 n, isDigit d = true := by
  intro d hd
  have hdigit := Nat.isDigit_of_mem_toDigits (by norm_num) (by norm_num) hd
  simpa [Char.isDigit, Scan.isDigit, Char.le_def] using hdigit

theorem digitChar_ne_zero : ∀ n < 10, n ≠ 0 → Nat.digitChar n ≠ '0' := by decide

/-- The digits of a number that is not zero do not begin with a zero. -/
theorem head?_toDigits {n : ℕ} (h : n ≠ 0) : (Nat.toDigits 10 n).head? ≠ some '0' := by
  induction n using Nat.strongRecOn with
  | _ n ih =>
    rw [Nat.toDigits_eq_if (by norm_num)]
    split
    next hlt => simpa using digitChar_ne_zero n hlt h
    next hge =>
      rw [List.head?_append_of_ne_nil _ Nat.toDigits_ne_nil]
      exact ih (n / 10) (by omega) (by omega)

/-- They end with the last digit. -/
theorem getLast?_toDigits {n : ℕ} (h : n % 10 ≠ 0) : (Nat.toDigits 10 n).getLast? ≠ some '0' := by
  have hlast : (Nat.toDigits 10 n).getLast? = some (Nat.digitChar (n % 10)) := by
    rw [Nat.toDigits_eq_if (by norm_num)]
    split
    next hlt => rw [Nat.mod_eq_of_lt hlt, List.getLast?_singleton]
    next => exact List.getLast?_concat
  rw [hlast]
  exact fun heq => digitChar_ne_zero _ (Nat.mod_lt _ (by norm_num)) h (Option.some.inj heq)

theorem isPlain_toDigits (n : ℕ) : IsPlain (Nat.toDigits 10 n) where
  ne_nil := Nat.toDigits_ne_nil
  isDigit := isDigit_of_mem_toDigits
  first := by
    intro hzero
    by_cases hn : n = 0
    · rw [hn, Nat.toDigits_zero]
    · exact absurd hzero (head?_toDigits hn)

/-- The point of a decimal says how large it is. -/
theorem point_le_iff {d : Decimal} (hd : d.digits ≠ 0) (p : ℤ) :
    (Nat.toDigits 10 d.digits).length + d.exponent ≤ p ↔ d.size < 10 ^ p := by
  have hten : (0 : ℚ) < 10 ^ d.exponent := by positivity
  have hsplit : (10 : ℚ) ^ p = 10 ^ (p - d.exponent) * 10 ^ d.exponent := by
    rw [← zpow_add₀ (by norm_num), sub_add_cancel]
  rw [Decimal.size, hsplit, mul_lt_mul_iff_of_pos_right hten]
  rcases Int.lt_or_le 0 (p - d.exponent) with hlt | hle
  · obtain ⟨k, hk⟩ := Int.eq_ofNat_of_zero_le hlt.le
    have hlength := Nat.length_toDigits_le_iff (n := d.digits) (by norm_num : 1 < 10)
      (by omega : 0 < k)
    rw [hk, zpow_natCast]
    refine Iff.trans ?_ (hlength.trans (by exact_mod_cast Iff.rfl))
    omega
  · have hlength := Nat.length_toDigits_pos (b := 10) (n := d.digits)
    have hone : (10 : ℚ) ^ (p - d.exponent) ≤ 1 := zpow_le_one_of_nonpos₀ (by norm_num) hle
    have hdigits : (1 : ℚ) ≤ d.digits := by exact_mod_cast Nat.one_le_iff_ne_zero.2 hd
    exact iff_of_false (by omega) (not_lt.2 (hone.trans hdigits))

/-! ### Texts of decimals -/

theorem pointValue_fraction {whole part : List Char} (h : ∀ d ∈ whole, isDigit d = true) :
    pointValue (whole ++ '.' :: part) = digitsValue (whole ++ part) / 10 ^ part.length := by
  have hpoint : '.' ∉ whole := not_mem_of_isDigit h (by decide)
  rw [pointValue, before_append hpoint, behind_append hpoint]

theorem pointValue_whole {ds : List Char} (h : ∀ d ∈ ds, isDigit d = true) :
    pointValue ds = digitsValue ds := by
  have hpoint : '.' ∉ ds := not_mem_of_isDigit h (by decide)
  rw [pointValue, before_of_not_mem hpoint, behind_of_not_mem hpoint]
  simp

theorem magnitudeValue_positional {text : List Char} (h : 'e' ∉ text) :
    magnitudeValue text = pointValue text := by
  rw [magnitudeValue, before_of_not_mem h, behind_of_not_mem h]
  simp [exponentValue, digitsValue]

theorem magnitudeValue_scientific {text exponent : List Char} (h : 'e' ∉ text) :
    magnitudeValue (text ++ 'e' :: exponent) = pointValue text * 10 ^ exponentValue exponent := by
  rw [magnitudeValue, before_append h, behind_append h]

/-- An exponent is a sign and digits. -/
theorem exists_exponent (e : ℤ) : ∃ sign ds, sign ∈ ['+', '-'] ∧ IsPlain ds ∧
    canonical.exponent e = sign :: ds := by
  have hlength := Nat.length_toDigits_pos (b := 10) (n := e.natAbs)
  have hwidth : canonical.exponentWidth - (Nat.toDigits 10 e.natAbs).length = 0 :=
    Nat.sub_eq_zero_of_le hlength
  refine ⟨_, _, ?_, isPlain_toDigits e.natAbs, by rw [exponent, hwidth]; rfl⟩
  split <;> simp

theorem exponentValue_canonical (e : ℤ) : exponentValue (canonical.exponent e) = e := by
  have hzeros : zeros (canonical.exponentWidth - (Nat.toDigits 10 e.natAbs).length) = [] := by
    have hlength := Nat.length_toDigits_pos (b := 10) (n := e.natAbs)
    have hwidth : canonical.exponentWidth = 1 := rfl
    rw [hwidth, Nat.sub_eq_zero_of_le hlength]
    rfl
  rw [exponent, hzeros, List.nil_append]
  split
  · rw [exponentValue, digitsValue_toDigits]
    omega
  · rw [exponentValue, digitsValue_toDigits]
    omega

variable {d : Decimal}

/-- A whole number is written with all its digits. -/
theorem magnitude_whole (negative : Bool) {n : ℕ} (hn : n < 10 ^ 21) :
    canonical.magnitude ⟨negative, n, 0⟩ = Nat.toDigits 10 n := by
  have hlength := (Nat.length_toDigits_le_iff (by norm_num) (by norm_num)).2 hn
  have hpos := Nat.length_toDigits_pos (b := 10) (n := n)
  rw [magnitude]
  dsimp only
  generalize Nat.toDigits 10 n = ds at *
  have hwithin : canonical.abovePoint < (ds.length : ℤ) + 0 ∧
      (ds.length : ℤ) + 0 ≤ canonical.uptoPoint :=
    ⟨by change -6 < _; omega, by change _ ≤ 21; omega⟩
  rw [if_pos hwithin, positional, if_neg (by omega), if_neg (by omega), add_zero, sub_self]
  simp [zeros, canonical]

structure IsTight (ds : List Char) : Prop where
  ne_nil : ds ≠ []
  isDigit : ∀ d ∈ ds, isDigit d = true
  first : ds.head? ≠ some '0'
  last : ds.getLast? ≠ some '0'

theorem isTight_toDigits {n : ℕ} (h : n % 10 ≠ 0) : IsTight (Nat.toDigits 10 n) where
  ne_nil := Nat.toDigits_ne_nil
  isDigit := isDigit_of_mem_toDigits
  first := head?_toDigits fun hzero => h (by rw [hzero])
  last := getLast?_toDigits h

/-- Where the point is in front of all digits, zeros stand between them. -/
theorem positional_small {ds : List Char} (h : IsTight ds) {p : ℤ} (hp : p ≤ 0) :
    ∃ part, canonical.positional ds p = ['0'] ++ '.' :: part ∧ IsTrimmed part ∧
      digitsValue (['0'] ++ part) = digitsValue ds ∧ (part.length : ℤ) = ds.length - p := by
  refine ⟨zeros (-p).toNat ++ ds, ?_, ⟨?_, ?_, ?_⟩, ?_, ?_⟩
  · rw [positional, if_pos hp]
    simp
  · simp [h.ne_nil]
  · refine List.forall_mem_append.2 ⟨fun c hc => ?_, h.isDigit⟩
    rw [List.eq_of_mem_replicate hc]
    rfl
  · rw [List.getLast?_append_of_ne_nil _ h.ne_nil]
    exact h.last
  · rw [← digitsValue_zeros_append (-p).toNat ds]
    exact digitsValue_zeros_append 1 _
  · rw [List.length_append, zeros, List.length_replicate]
    omega

/-- Otherwise it stands among the digits. -/
theorem positional_among {ds : List Char} (h : IsTight ds) {p : ℕ} (hpos : 0 < p)
    (hp : p < ds.length) :
    canonical.positional ds p = ds.take p ++ '.' :: ds.drop p ∧ IsPlain (ds.take p) ∧
      IsTrimmed (ds.drop p) := by
  refine ⟨?_, ⟨?_, fun c hc => h.isDigit c (List.mem_of_mem_take hc), fun hzero => ?_⟩,
    ⟨?_, fun c hc => h.isDigit c (List.mem_of_mem_drop hc), ?_⟩⟩
  · rw [positional, if_neg (by omega), if_pos (by omega), Int.toNat_natCast]
    simp
  · exact List.ne_nil_of_length_pos (by rw [List.length_take]; omega)
  · rw [List.head?_take, if_neg (by omega)] at hzero
    exact absurd hzero h.first
  · exact List.ne_nil_of_length_pos (by rw [List.length_drop]; omega)
  · rw [List.getLast?_drop, if_neg (by omega)]
    exact h.last

/-- A decimal that is neither too small nor too large, and has places behind the point. -/
theorem magnitude_fraction (hmod : d.digits % 10 ≠ 0) (hexponent : d.exponent < 0)
    (hlow : 10 ^ (-6 : ℤ) ≤ d.size) (hhigh : d.size < 10 ^ (21 : ℤ)) :
    ∃ whole part, canonical.magnitude d = whole ++ '.' :: part ∧ IsPlain whole ∧ IsTrimmed part ∧
      (digitsValue (whole ++ part) : ℚ) / 10 ^ part.length = d.size := by
  have hne : d.digits ≠ 0 := fun hzero => hmod (by rw [hzero])
  have habove := mt (point_le_iff hne (-6)).1 (not_lt.2 hlow)
  have hupto := (point_le_iff hne 21).2 hhigh
  have htight := isTight_toDigits hmod
  have hvalue := digitsValue_toDigits d.digits
  -- The number of places behind the point is what the exponent says.
  have hsize {digits places : ℕ} (hdigits : digits = d.digits)
      (hplaces : (places : ℤ) = -d.exponent) : (digits : ℚ) / 10 ^ places = d.size := by
    rw [Decimal.size, ← neg_neg d.exponent, ← hplaces, zpow_neg, zpow_natCast, hdigits,
      div_eq_mul_inv]
  rw [magnitude, if_pos ⟨not_le.1 habove, hupto⟩]
  generalize Nat.toDigits 10 d.digits = ds at *
  by_cases hle : (ds.length : ℤ) + d.exponent ≤ 0
  · obtain ⟨part, htext, htrimmed, hdigits, hlength⟩ := positional_small htight hle
    have hplain : IsPlain ['0'] := ⟨by simp, List.forall_mem_singleton.2 rfl, fun _ => rfl⟩
    exact ⟨['0'], part, htext, hplain, htrimmed, hsize (hdigits.trans hvalue) (by omega)⟩
  · obtain ⟨p, hp⟩ := Int.eq_ofNat_of_zero_le (not_le.1 hle).le
    obtain ⟨htext, hplain, htrimmed⟩ := positional_among htight (p := p) (by omega) (by omega)
    rw [hp]
    refine ⟨ds.take p, ds.drop p, htext, hplain, htrimmed, hsize ?_ ?_⟩
    · rw [List.take_append_drop, hvalue]
    · rw [List.length_drop]
      omega

/-- Digits with an exponent, and the number that they denote. -/
theorem scientific_digits {ds : List Char} (h : IsTight ds) (p : ℤ) :
    IsScientific (canonical.scientific ds p) ∧
      magnitudeValue (canonical.scientific ds p) = digitsValue ds * 10 ^ (p - ds.length) := by
  obtain ⟨c, cs, rfl⟩ := List.exists_cons_of_ne_nil h.ne_nil
  obtain ⟨hc, hcs⟩ := List.forall_mem_cons.1 h.isDigit
  have hc0 : c ≠ '0' := fun heq => h.first (heq ▸ rfl)
  obtain ⟨sign, exponent, hsign, hplain, hexponent⟩ := exists_exponent (p - 1)
  have hexponentValue := exponentValue_canonical (p - 1)
  cases cs with
  | nil =>
    have he : 'e' ∉ [c] := not_mem_of_isDigit h.isDigit (by decide)
    have htext : canonical.scientific [c] p = [c] ++ 'e' :: canonical.exponent (p - 1) := rfl
    rw [htext]
    constructor
    · rw [hexponent]
      exact .whole hc hc0 hsign hplain
    · rw [magnitudeValue_scientific he, pointValue_whole h.isDigit, hexponentValue]
      rfl
  | cons c' cs =>
    have he : 'e' ∉ [c] ++ '.' :: c' :: cs := by
      have hfree : 'e' ∉ c :: c' :: cs := not_mem_of_isDigit h.isDigit (by decide)
      simpa using hfree
    have htext : canonical.scientific (c :: c' :: cs) p =
        ([c] ++ '.' :: c' :: cs) ++ 'e' :: canonical.exponent (p - 1) := rfl
    have hlast := h.last
    rw [List.getLast?_cons_cons] at hlast
    rw [htext]
    constructor
    · rw [hexponent]
      exact .fraction hc hc0 ⟨List.cons_ne_nil _ _, hcs, hlast⟩ hsign hplain
    · have hpower : p - 1 = p - (c :: c' :: cs).length + (c' :: cs).length := by
        rw [List.length_cons]
        push_cast
        ring
      rw [magnitudeValue_scientific he, pointValue_fraction (List.forall_mem_singleton.2 hc),
        List.singleton_append, hexponentValue, hpower, zpow_add₀ (by norm_num), zpow_natCast]
      field_simp

/-- A decimal that is too small or too large. -/
theorem magnitude_scientific (hmod : d.digits % 10 ≠ 0)
    (h : d.size < 10 ^ (-6 : ℤ) ∨ 10 ^ (21 : ℤ) ≤ d.size) :
    IsScientific (canonical.magnitude d) ∧ magnitudeValue (canonical.magnitude d) = d.size := by
  have hne : d.digits ≠ 0 := fun hzero => hmod (by rw [hzero])
  have hbeyond : ¬ (canonical.abovePoint < (Nat.toDigits 10 d.digits).length + d.exponent ∧
      (Nat.toDigits 10 d.digits).length + d.exponent ≤ canonical.uptoPoint) := by
    rintro ⟨habove, hupto⟩
    rcases h with hlow | hhigh
    · exact absurd ((point_le_iff hne (-6)).2 hlow) (not_le.2 habove)
    · exact absurd ((point_le_iff hne 21).1 hupto) (not_lt.2 hhigh)
  have hscientific := scientific_digits (isTight_toDigits hmod)
    ((Nat.toDigits 10 d.digits).length + d.exponent)
  rw [add_sub_cancel_left, digitsValue_toDigits] at hscientific
  rwa [magnitude, if_neg hbeyond]

end Layout

end Lox
