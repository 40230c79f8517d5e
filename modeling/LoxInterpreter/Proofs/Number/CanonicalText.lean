import LoxInterpreter.Proofs.Number.Floats
import LoxInterpreter.Proofs.Number.Texts
import LoxInterpreter.Value

/-!
The text that a program prints for a finite number. Whole numbers of up to 21 digits are written
out, and all others as their shortest decimals: with a point among the digits from `1e-6` up to
`1e21`, and with an exponent outside. No two different numbers have the same text.
-/

namespace Lox

open Layout Binary

namespace Binary

variable {b : Binary}

theorem value_neg_iff (b : Binary) :
    b.value < 0 ↔ b.negative = true ∧ b.mantissa ≠ 0 := by
  rw [value]
  cases b.negative with
  | false => simp [b.size_nonneg]
  | true =>
    have hsize : 0 < b.size ↔ b.mantissa ≠ 0 := by
      refine ⟨fun hpos hzero => ?_, b.readFrom_size.pos⟩
      rw [size, hzero, Nat.cast_zero, zero_mul] at hpos
      exact lt_irrefl _ hpos
    simp [hsize]

theorem value_eq_zero_iff (b : Binary) : b.value = 0 ↔ b.mantissa = 0 := by
  rw [← abs_eq_zero, abs_value, size]
  simp [zpow_ne_zero]

/-- A number is its magnitude with the sign in front. -/
theorem value_eq_of_neg_iff (b : Binary) : b.value = if b.value < 0 then -b.size else b.size := by
  split
  next hneg => rw [value, if_pos (b.value_neg_iff.1 hneg).1]
  next hnot => rw [← abs_value, abs_of_nonneg (not_lt.1 hnot)]

end Binary

namespace Layout

variable {b b' : Binary}

def digitText (b : Binary) : List Char := canonical.magnitude (canonical.decimal b)

theorem finite_eq (b : Binary) :
    canonical.finite b = (if b.value < 0 then ['-'] else []) ++ digitText b := by
  rw [finite, digitText]
  congr 1
  simp [canonical, b.value_neg_iff]

theorem decimal_of_whole (hwhole : b.isWhole = true) (hsize : b.size < 10 ^ 21) :
    canonical.decimal b = ⟨b.negative, b.floor, 0⟩ ∧ b.floor < 10 ^ 21 := by
  rw [size_eq_floor hwhole] at hsize
  have hfloor : b.floor < 10 ^ 21 := by exact_mod_cast hsize
  exact ⟨if_pos ⟨hwhole, hfloor⟩, hfloor⟩

theorem decimal_of_not (h : ¬ (b.isWhole = true ∧ b.size < 10 ^ 21)) :
    canonical.decimal b = b.shortest := by
  refine if_neg fun hwhole => h ⟨hwhole.1, ?_⟩
  rw [size_eq_floor hwhole.1]
  have hfloor : b.floor < 10 ^ 21 := hwhole.2
  exact_mod_cast hfloor

/-! ### Three ways to write a number -/

/-- How the magnitude of a number is written, and what that denotes. -/
inductive Written (b : Binary) : List Char → ℚ → Prop
  | whole {text : List Char} (hwhole : b.isWhole = true) (hsize : b.size < 10 ^ 21)
      (h : IsPlain text) : Written b text b.size
  | fraction {whole part : List Char} (hwhole : b.isWhole = false)
      (hlow : millionth.size ≤ b.size) (hhigh : b.size < 10 ^ 21) (h : IsPlain whole)
      (hpart : IsTrimmed part) : Written b (whole ++ '.' :: part) b.shortest.size
  | scientific {text : List Char} (hzero : b.mantissa ≠ 0)
      (hsize : b.size < millionth.size ∨ 10 ^ 21 ≤ b.size) (h : IsScientific text) :
      Written b text b.shortest.size

theorem floor_ne_zero (hwhole : b.isWhole = true) (hzero : b.mantissa ≠ 0) : b.floor ≠ 0 := by
  intro hfloor
  have hpos := b.readFrom_size.pos hzero
  rw [size_eq_floor hwhole, hfloor, Nat.cast_zero] at hpos
  exact lt_irrefl _ hpos

/-- A whole number that is not zero is not small. -/
theorem millionth_le_of_whole (hwhole : b.isWhole = true) (hzero : b.mantissa ≠ 0) :
    millionth.size ≤ b.size := by
  have hone : (1 : ℚ) ≤ b.size := by
    rw [size_eq_floor hwhole]
    exact_mod_cast Nat.one_le_iff_ne_zero.2 (floor_ne_zero hwhole hzero)
  refine le_trans ?_ hone
  norm_num [size, millionth]

/-- The shortest decimal is small or large if the number is. -/
theorem shortest_size_lt_iff (hb : b.IsDouble) :
    (b.shortest.size < 10 ^ (-6 : ℤ) ↔ b.size < millionth.size) ∧
      (b.shortest.size < 10 ^ (21 : ℤ) ↔ b.size < 10 ^ 21) := by
  rw [← shortest_millionth, ← shortest_sextillion, ← sextillion_size]
  exact ⟨hb.shortest_size_lt_iff isDouble_millionth, hb.shortest_size_lt_iff isDouble_sextillion⟩

theorem written_digitText (hb : b.IsDouble) :
    Written b (digitText b) (magnitudeValue (digitText b)) := by
  rw [digitText]
  by_cases hdecimal : b.isWhole = true ∧ b.size < 10 ^ 21
  · obtain ⟨hwhole, hsize⟩ := hdecimal
    obtain ⟨heq, hfloor⟩ := decimal_of_whole hwhole hsize
    have hdigits := isDigit_of_mem_toDigits (n := b.floor)
    have he : 'e' ∉ Nat.toDigits 10 b.floor := not_mem_of_isDigit hdigits (by decide)
    rw [heq, magnitude_whole b.negative hfloor, magnitudeValue_positional he,
      pointValue_whole hdigits, digitsValue_toDigits, ← size_eq_floor hwhole]
    exact .whole hwhole hsize (isPlain_toDigits b.floor)
  have hzero : b.mantissa ≠ 0 := by
    intro hzero
    refine hdecimal ⟨?_, ?_⟩
    · rw [isWhole, hzero]
      simp
    · rw [size, hzero]
      norm_num
  have hmod := shortest_mod hzero
  obtain ⟨hsmall, hlarge⟩ := shortest_size_lt_iff hb
  rw [decimal_of_not hdecimal]
  by_cases hrange : millionth.size ≤ b.size ∧ b.size < 10 ^ 21
  · have hwhole : b.isWhole = false := by
      rw [Bool.eq_false_iff]
      exact fun hwhole => hdecimal ⟨hwhole, hrange.2⟩
    obtain ⟨whole, part, htext, hplain, htrimmed, hvalue⟩ := magnitude_fraction hmod
      (shortest_exponent_neg hwhole) (not_lt.1 (mt hsmall.1 (not_lt.2 hrange.1)))
      (hlarge.2 hrange.2)
    have he : 'e' ∉ whole ++ '.' :: part := by
      have hfree : 'e' ∉ whole := not_mem_of_isDigit hplain.isDigit (by decide)
      have hfree' : 'e' ∉ part := not_mem_of_isDigit htrimmed.isDigit (by decide)
      simp [hfree, hfree']
    rw [htext, magnitudeValue_positional he, pointValue_fraction hplain.isDigit, hvalue]
    exact .fraction hwhole hrange.1 hrange.2 hplain htrimmed
  · have hbeyond : b.size < millionth.size ∨ 10 ^ 21 ≤ b.size := by
      by_contra hnot
      rw [not_or, not_lt, not_le] at hnot
      exact hrange hnot
    obtain ⟨hshape, hvalue⟩ := magnitude_scientific hmod
      (hbeyond.imp hsmall.2 fun hle => not_lt.1 (mt hlarge.1 (not_lt.2 hle)))
    rw [hvalue]
    exact .scientific hzero hbeyond hshape

variable {text : List Char} {q : ℚ}

namespace Written

/-- What is written reads back. -/
theorem readFrom (h : Written b text q) : b.ReadFrom q := by
  cases h with
  | whole => exact b.readFrom_size
  | fraction | scientific => exact b.readFrom_shortest

theorem eq_size (h : Written b text q) (hwhole : b.isWhole = true ∧ b.size < 10 ^ 21) :
    q = b.size := by
  cases h with
  | whole => rfl
  | fraction hnot => exact absurd hwhole.1 (by simp [hnot])
  | scientific hzero hsize =>
    rcases hsize with hsmall | hlarge
    · exact absurd hsmall (not_lt.2 (millionth_le_of_whole hwhole.1 hzero))
    · exact absurd hwhole.2 (not_lt.2 hlarge)

theorem eq_shortest_size (h : Written b text q) (hnot : ¬ (b.isWhole = true ∧ b.size < 10 ^ 21)) :
    b.mantissa ≠ 0 ∧ q = b.shortest.size := by
  cases h with
  | whole hwhole hsize => exact absurd ⟨hwhole, hsize⟩ hnot
  | fraction hwhole =>
    refine ⟨fun hzero => ?_, rfl⟩
    rw [isWhole, hzero, Nat.zero_mod] at hwhole
    cases hwhole
  | scientific hzero => exact ⟨hzero, rfl⟩

theorem isPositional_iff (h : Written b text q) :
    IsPositional text ↔ b.mantissa = 0 ∨ millionth.size ≤ b.size ∧ b.size < 10 ^ 21 := by
  cases h with
  | whole hwhole hsize hplain =>
    refine iff_of_true (.whole hplain) ?_
    rw [or_iff_not_imp_left]
    exact fun hzero => ⟨millionth_le_of_whole hwhole hzero, hsize⟩
  | fraction _ hlow hhigh hplain hpart =>
    exact iff_of_true (.fraction hplain hpart) (Or.inr ⟨hlow, hhigh⟩)
  | scientific hzero hsize hshape =>
    refine iff_of_false (fun hpositional => hpositional.not_isScientific hshape) ?_
    rintro (hmantissa | ⟨hlow, hhigh⟩)
    · exact hzero hmantissa
    · rcases hsize with hsmall | hlarge
      · exact absurd hsmall (not_lt.2 hlow)
      · exact absurd hhigh (not_lt.2 hlarge)

theorem isScientific (h : Written b text q) (hnot : ¬ IsPositional text) : IsScientific text := by
  cases h with
  | whole _ _ hplain => exact absurd (.whole hplain) hnot
  | fraction _ _ _ hplain hpart => exact absurd (.fraction hplain hpart) hnot
  | scientific _ _ hshape => exact hshape

/-- In a positional text there is a point if the number is not whole. -/
theorem point_mem_iff (h : Written b text q) (hpositional : IsPositional text) :
    '.' ∈ text ↔ b.isWhole = false := by
  cases h with
  | whole hwhole _ hplain =>
    exact iff_of_false (not_mem_of_isDigit hplain.isDigit (by decide)) (by simp [hwhole])
  | fraction hwhole => exact iff_of_true (by simp) hwhole
  | scientific _ _ hshape => exact absurd hshape hpositional.not_isScientific

/-- The text begins with a digit. -/
theorem exists_digit (h : Written b text q) : ∃ c cs, text = c :: cs ∧ Scan.isDigit c = true := by
  have hfirst {ds : List Char} (hplain : IsPlain ds) :
      ∃ c cs, ds = c :: cs ∧ Scan.isDigit c = true := by
    obtain ⟨c, cs, rfl⟩ := List.exists_cons_of_ne_nil hplain.ne_nil
    exact ⟨c, cs, rfl, hplain.isDigit c List.mem_cons_self⟩
  cases h with
  | whole _ _ hplain => exact hfirst hplain
  | @fraction whole part _ _ _ hplain _ =>
    obtain ⟨c, cs, rfl, hc⟩ := hfirst hplain
    exact ⟨c, cs ++ '.' :: part, rfl, hc⟩
  | scientific _ _ hshape =>
    cases hshape with
    | whole hd => exact ⟨_, _, rfl, hd⟩
    | fraction hd => exact ⟨_, _, rfl, hd⟩

end Written

/-! ### Signs -/

/-- With its sign, the text denotes the magnitude with the sign of the number. -/
theorem textValue_finite (hb : b.IsDouble) :
    textValue (canonical.finite b) =
      if b.value < 0 then -magnitudeValue (digitText b) else magnitudeValue (digitText b) := by
  rw [finite_eq]
  split
  · rfl
  · obtain ⟨c, cs, htext, hc⟩ := (written_digitText hb).exists_digit
    rw [List.nil_append, htext]
    have hminus : c ≠ '-' := by
      rintro rfl
      cases hc
    rw [textValue]
    exact fun _ heq => hminus (List.cons.inj heq).1

/-- The text of a number is read as the number, and has its sign. -/
theorem readFrom_textValue (hb : b.IsDouble) :
    b.ReadFrom |textValue (canonical.finite b)| ∧
      (textValue (canonical.finite b) < 0 ↔ b.value < 0) := by
  have hread := (written_digitText hb).readFrom
  have hnonneg := hread.nonneg
  rw [textValue_finite hb]
  split
  next hneg =>
    have hpos := hread.pos (b.value_neg_iff.1 hneg).2
    rw [abs_neg, abs_of_nonneg hnonneg]
    exact ⟨hread, iff_of_true (neg_neg_of_pos hpos) hneg⟩
  next hnot =>
    rw [abs_of_nonneg hnonneg]
    exact ⟨hread, iff_of_false (not_lt.2 hnonneg) hnot⟩

theorem value_eq_of_finite_eq (hb : b.IsDouble) (hb' : b'.IsDouble)
    (h : canonical.finite b = canonical.finite b') : b.value = b'.value := by
  obtain ⟨hread, hsign⟩ := readFrom_textValue hb
  obtain ⟨hread', hsign'⟩ := readFrom_textValue hb'
  rw [h] at hread hsign
  have hsize := hread.size_eq_size hread' hb hb'
  rw [value_eq_of_neg_iff, b'.value_eq_of_neg_iff, hsize]
  exact if_congr (hsign.symm.trans hsign') rfl rfl

end Layout

namespace Lexical

open Scan

/-- A lexeme alone is scanned as one token. -/
theorem scan_of_isPiece {text : List Char} {kind : Kind} {literal : Literal}
    (h : IsPiece text (.lexeme kind literal)) (line : Int) :
    ∃ t stop, scan (String.ofList text) line = .ok [t, stop] ∧
      content t = (kind, String.ofList text, literal) ∧ stop.kind = .eof := by
  obtain ⟨c, more, rfl⟩ := List.exists_cons_of_ne_nil h.ne_nil
  have hspaced : Spaced [] := by simp [Spaced]
  have hfront := front_spaced h hspaced
  have hpieces := pieces_text_append ⟨c, more, .lexeme kind literal⟩ [] hfront
  rw [List.append_nil, pieces] at hpieces
  have htext : (String.ofList (c :: more)).toList =
      Piece.text ⟨c, more, .lexeme kind literal⟩ := String.toList_ofList
  rw [scan, scanChars, htext, hpieces]
  exact ⟨_, _, rfl, rfl, rfl⟩

theorem exists_isPiece_of_isPositional {text : List Char} (h : IsPositional text) :
    ∃ literal, IsPiece text (.lexeme .number literal) := by
  cases h with
  | whole hplain => exact ⟨_, .whole hplain.ne_nil hplain.isDigit⟩
  | fraction hwhole hpart =>
    exact ⟨_, .fraction hwhole.ne_nil hpart.ne_nil
      (List.forall_mem_append.2 ⟨hwhole.isDigit, hpart.isDigit⟩)⟩

end Lexical

/-- The text of a finite number denotes the number if that is whole and less than `1e21`, and
otherwise its shortest decimal. Without its sign it is positional if the number is zero or from
`1e-6` up to `1e21`, with a point if the number is not whole; it is then scanned as one token. In
all other cases it has an exponent. Numbers with the same text are equal. -/
theorem number_text_exact {x : Float} {b : Binary} (hx : Numeral.ofFloat x = .finite b) :
    let isWhole := ∃ n : ℤ, b.value = n
    ∃ magnitude, (Value.number x).text =
        String.ofList ((if b.value < 0 then ['-'] else []) ++ magnitude) ∧
      (isWhole ∧ |b.value| < 10 ^ 21 → textValue (Value.number x).text.toList = b.value) ∧
      (¬ (isWhole ∧ |b.value| < 10 ^ 21) →
        textValue (Value.number x).text.toList = b.shortest.value) ∧
      (IsPositional magnitude ↔
        b.value = 0 ∨ millionth.value ≤ |b.value| ∧ |b.value| < 10 ^ 21) ∧
      (IsPositional magnitude → ('.' ∈ magnitude ↔ ¬ isWhole) ∧
        ∀ line, ∃ t stop, scan (String.ofList magnitude) line = .ok [t, stop] ∧
          t.kind = .number ∧ stop.kind = .eof) ∧
      (¬ IsPositional magnitude → IsScientific magnitude) ∧
      ∀ {y : Float} {b' : Binary}, Numeral.ofFloat y = .finite b' →
        (Value.number y).text = (Value.number x).text → (y == x) = true := by
  intro isWhole
  have htext {y : Float} {b' : Binary} (hy : Numeral.ofFloat y = .finite b') :
      (Value.number y).text = String.ofList (canonical.finite b') := by
    rw [Value.text, Layout.text, hy]
  have hb := Numeral.isDouble_of_ofBits hx
  have hwritten := written_digitText hb
  have hwhole : b.isWhole = true ↔ isWhole := b.isWhole_iff
  rw [htext hx, String.toList_ofList, abs_value]
  refine ⟨digitText b, congrArg String.ofList (finite_eq b), fun h => ?_, fun h => ?_, ?_, ?_, ?_,
    ?_⟩
  · rw [← hwhole] at h
    rw [textValue_finite hb, hwritten.eq_size h, ← value_eq_of_neg_iff]
  · rw [← hwhole] at h
    obtain ⟨hzero, hsize⟩ := hwritten.eq_shortest_size h
    rw [textValue_finite hb, hsize, Decimal.value, shortest_negative]
    exact if_congr (by simp [value_neg_iff, hzero]) rfl rfl
  · rw [hwritten.isPositional_iff, value_eq_zero_iff]
    rfl
  · intro hpositional
    obtain ⟨literal, hpiece⟩ := Lexical.exists_isPiece_of_isPositional hpositional
    refine ⟨?_, fun line => ?_⟩
    · rw [hwritten.point_mem_iff hpositional, ← hwhole, Bool.not_eq_true]
    · obtain ⟨t, stop, hscan, hcontent, hstop⟩ := Lexical.scan_of_isPiece hpiece line
      exact ⟨t, stop, hscan, congrArg Prod.fst hcontent, hstop⟩
  · exact hwritten.isScientific
  · intro y b' hy heq
    have hb' := Numeral.isDouble_of_ofBits hy
    rw [htext hy, String.ofList_inj] at heq
    exact beq_of_value_eq hy hx (value_eq_of_finite_eq hb' hb heq)

/-- The ends of the interval: `1e-6` has a point, and `1e21` has an exponent. -/
theorem number_text_exact_bounds :
    Numeral.ofFloat 1e-6 = .finite millionth ∧ Numeral.ofFloat 1e21 = .finite sextillion ∧
      (∃ magnitude, (Value.number 1e-6).text = String.ofList magnitude ∧
        IsPositional magnitude ∧ '.' ∈ magnitude) ∧
      ∃ magnitude, (Value.number 1e21).text = String.ofList magnitude ∧
        IsScientific magnitude := by
  have hlow : Numeral.ofFloat 1e-6 = .finite millionth := by decide +kernel
  have hhigh : Numeral.ofFloat 1e21 = .finite sextillion := by decide +kernel
  have hvalue : 0 < millionth.value ∧ millionth.value < 10 ^ 21 := by
    norm_num [value, size, millionth]
  have hvalue' : sextillion.value = 10 ^ 21 := sextillion_size
  have hfraction : ¬ ∃ n : ℤ, millionth.value = n := by
    rw [← isWhole_iff]
    decide
  obtain ⟨low, htext, -, -, hlowIff, hpoint, -⟩ := number_text_exact hlow
  obtain ⟨high, htext', -, -, hhighIff, -, hscientific, -⟩ := number_text_exact hhigh
  rw [if_neg (not_lt.2 hvalue.1.le)] at htext
  rw [hvalue', if_neg (by norm_num)] at htext'
  rw [abs_of_pos hvalue.1] at hlowIff
  rw [hvalue', abs_of_pos (by norm_num)] at hhighIff
  have hpositional := hlowIff.2 (Or.inr ⟨le_refl _, hvalue.2⟩)
  refine ⟨hlow, hhigh, ⟨low, htext, hpositional, (hpoint hpositional).1.2 hfraction⟩, high, htext',
    hscientific fun hhighPositional => ?_⟩
  rcases hhighIff.1 hhighPositional with hzero | ⟨-, hlt⟩
  · norm_num at hzero
  · exact lt_irrefl _ hlt

end Lox
