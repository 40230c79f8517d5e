import LoxInterpreter.Proofs.Lexical.Pieces
import Mathlib.Data.List.TakeWhile

/-!
The forms of pieces, one after the other: what the scanner finds where a piece of a form stands,
and that what it finds is a piece of that form. The first character tells which form it can be.
-/

namespace Lox

namespace Lexical

open Scan

/-! ### Words and rows of digits -/

theorem length_le_takeWhile {p : Char → Bool} {more cs : List Char} (h : more <+: cs)
    (hmore : ∀ c ∈ more, p c = true) : more.length ≤ (cs.takeWhile p).length := by
  obtain ⟨rest, rfl⟩ := h
  rw [List.takeWhile_append_of_pos hmore, List.length_append]
  omega

/-- Where a character does not occur, all characters are different from it. -/
theorem ne_of_not_mem {d : Char} {cs : List Char} (h : d ∉ cs) : ∀ c ∈ cs, (c != d) = true := by
  intro c hc
  rw [bne_iff_ne]
  rintro rfl
  exact h hc

theorem not_mem_takeWhile {d : Char} {cs : List Char} : d ∉ cs.takeWhile (· != d) := by
  intro hmem
  have hne := List.mem_takeWhile_imp hmem
  simp at hne

theorem eq_of_isPrefix {a b cs : List Char} (ha : a <+: cs) (hb : b <+: cs)
    (hlength : a.length = b.length) : a = b :=
  (List.prefix_of_prefix_length_le ha hb (Nat.le_of_eq hlength)).eq_of_length hlength

/-- A word character is none of those that other pieces begin with. -/
theorem ne_of_isWordCharacter {c d : Char} (hc : isWordCharacter c = true)
    (hd : isWordCharacter d = false) : c ≠ d := by
  rintro rfl
  rw [hc] at hd
  cases hd

theorem single?_eq_none {c : Char} (hc : isWordCharacter c = true) : single? c = none := by
  unfold single?
  split
  case h_11 => rfl
  all_goals exact absurd hc (by decide)

theorem double?_eq_none {c : Char} (hc : isWordCharacter c = true) : double? c = none := by
  unfold double?
  split
  case h_5 => rfl
  all_goals exact absurd hc (by decide)

theorem isSpace_eq_false {c : Char} (hc : isWordCharacter c = true) :
    (isSpace c || c == '\n') = false := by
  have hspace := ne_of_isWordCharacter hc (d := ' ') (by decide)
  have hreturn := ne_of_isWordCharacter hc (d := '\r') (by decide)
  have htab := ne_of_isWordCharacter hc (d := '\t') (by decide)
  have hnewline := ne_of_isWordCharacter hc (d := '\n') (by decide)
  simp [isSpace, hspace, hreturn, htab, hnewline]

theorem isDigit_eq_false {c : Char} (hc : isLetter c = true) : isDigit c = false := by
  refine Bool.eq_false_iff.2 fun hd => ?_
  simp only [isLetter, isDigit, Bool.or_eq_true, Bool.and_eq_true, decide_eq_true_eq, beq_iff_eq,
    Char.le_def, UInt32.le_iff_toNat_le] at hc hd
  obtain ⟨-, hd⟩ := hd
  have hnine : '9'.val.toNat = 57 := rfl
  rcases hc with (⟨h, -⟩ | ⟨h, -⟩) | rfl
  · have hlow : 'a'.val.toNat = 97 := rfl
    omega
  · have hlow : 'A'.val.toNat = 65 := rfl
    omega
  · exact absurd hd (by decide)

/-! ### What the scanner finds, by first character -/

section
variable {c : Char}

theorem front_space (h : (isSpace c || c == '\n') = true) (cs : List Char) :
    front c cs = .ok ⟨c, [], .blank⟩ := by
  unfold front
  rw [if_pos h]

theorem front_single {kind : Kind} (h : single? c = some kind) (cs : List Char) :
    front c cs = .ok ⟨c, [], .lexeme kind .nil⟩ := by
  unfold single? at h
  split at h <;> cases h <;> rfl

theorem front_double {alone withEqual : Kind} (h : double? c = some (alone, withEqual))
    (cs : List Char) :
    front c cs = match cs with
      | '=' :: _ => .ok ⟨c, ['='], .lexeme withEqual .nil⟩
      | _ => .ok ⟨c, [], .lexeme alone .nil⟩ := by
  unfold double? at h
  split at h <;> cases h <;> rfl

theorem front_slash (cs : List Char) :
    front '/' cs = match cs with
      | '/' :: rest => .ok ⟨'/', '/' :: rest.takeWhile (· != '\n'), .blank⟩
      | '*' :: rest =>
        match commentBody rest with
        | some body => .ok ⟨'/', '*' :: body, .blank⟩
        | none => .error .unterminatedComment
      | _ => .ok ⟨'/', [], .lexeme .slash .nil⟩ := rfl

theorem front_quote (cs : List Char) :
    front '"' cs =
      if (cs.takeWhile (· != '"')).length < cs.length then
        .ok ⟨'"', cs.takeWhile (· != '"') ++ ['"'],
          .lexeme .string (.string (String.ofList (cs.takeWhile (· != '"'))))⟩
      else
        .error .unterminatedString := rfl

theorem front_opening (rest : List Char) :
    front '/' ('*' :: rest) = match commentBody rest with
      | some body => .ok ⟨'/', '*' :: body, .blank⟩
      | none => .error .unterminatedComment := rfl

/-- A word character begins a number or a word. -/
theorem front_of_isWordCharacter (hc : isWordCharacter c = true) (cs : List Char) :
    front c cs =
      if isDigit c then
        .ok ⟨c, numberTail cs, .lexeme .number (.number (numberValue (c :: numberTail cs)))⟩
      else
        .ok ⟨c, cs.takeWhile isWordCharacter,
          .lexeme (Kind.ofWord (String.ofList (c :: cs.takeWhile isWordCharacter))) .nil⟩ := by
  have hslash : c ≠ '/' := ne_of_isWordCharacter hc (by decide)
  have hquote : c ≠ '"' := ne_of_isWordCharacter hc (by decide)
  have hletter : isDigit c = false → isLetter c = true := by
    intro hd
    rwa [isWordCharacter, hd, Bool.or_false] at hc
  cases hd : isDigit c with
  | true => simp [front, isSpace_eq_false hc, single?_eq_none hc, double?_eq_none hc, hslash,
      hquote, hd]
  | false => simp [front, isSpace_eq_false hc, single?_eq_none hc, double?_eq_none hc, hslash,
      hquote, hd, hletter hd]

/-- Nothing begins with any other character. -/
theorem front_other (hspace : (isSpace c || c == '\n') = false) (hsingle : single? c = none)
    (hdouble : double? c = none) (hslash : c ≠ '/') (hquote : c ≠ '"')
    (hword : isWordCharacter c = false) (cs : List Char) :
    front c cs = .error (.unexpectedCharacter c) := by
  simp only [isWordCharacter, Bool.or_eq_false_iff] at hword
  simp [front, hspace, hsingle, hdouble, hslash, hquote, hword]

theorem front_digit (hc : isDigit c = true) (cs : List Char) :
    front c cs =
      .ok ⟨c, numberTail cs, .lexeme .number (.number (numberValue (c :: numberTail cs)))⟩ := by
  rw [front_of_isWordCharacter (by simp [isWordCharacter, hc]), if_pos hc]

theorem front_letter (hc : isLetter c = true) (cs : List Char) :
    front c cs = .ok ⟨c, cs.takeWhile isWordCharacter,
      .lexeme (Kind.ofWord (String.ofList (c :: cs.takeWhile isWordCharacter))) .nil⟩ := by
  have hdigit : ¬ isDigit c = true := by simp [isDigit_eq_false hc]
  rw [front_of_isWordCharacter (by simp [isWordCharacter, hc]), if_neg hdigit]

end

/-! ### Numbers -/

theorem ne_point {c : Char} (hc : isDigit c = true) : (c != '.') = true := by
  simp only [bne_iff_ne]
  rintro rfl
  exact absurd hc (by decide)

theorem numberValue_whole {digits : List Char} (h : ∀ d ∈ digits, isDigit d = true) :
    Literal.number (numberValue digits) = decimal digits 0 := by
  have hpoint : ∀ d ∈ digits, (d != '.') = true := fun d hd => ne_point (h d hd)
  have htake : digits.takeWhile (· != '.') = digits := by
    have happend : (digits ++ []).takeWhile (· != '.') = digits ++ [].takeWhile (· != '.') :=
      List.takeWhile_append_of_pos hpoint
    simpa using happend
  have hdrop : digits.dropWhile (· != '.') = [] := by
    have happend : (digits ++ []).dropWhile (· != '.') = [].dropWhile (· != '.') :=
      List.dropWhile_append_of_pos hpoint
    simpa using happend
  simp [numberValue, htake, hdrop, decimal]

theorem numberValue_fraction {whole part : List Char} (h : ∀ d ∈ whole, isDigit d = true) :
    Literal.number (numberValue (whole ++ '.' :: part)) = decimal (whole ++ part) part.length := by
  have hpoint : ∀ d ∈ whole, (d != '.') = true := fun d hd => ne_point (h d hd)
  have htake : (whole ++ '.' :: part).takeWhile (· != '.') = whole := by
    rw [List.takeWhile_append_of_pos hpoint, List.takeWhile_cons_of_neg (by simp), List.append_nil]
  have hdrop : (whole ++ '.' :: part).dropWhile (· != '.') = '.' :: part := by
    rw [List.dropWhile_append_of_pos hpoint, List.dropWhile_cons_of_neg (by simp)]
  rw [numberValue, htake, hdrop]
  rfl

theorem fraction_cases (cs : List Char) :
    fraction cs = [] ∨ ∃ part, part ≠ [] ∧ (∀ d ∈ part, isDigit d = true) ∧
      fraction cs = '.' :: part := by
  unfold fraction
  split
  next cs =>
    split
    · exact Or.inl rfl
    next d ds h =>
      refine Or.inr ⟨d :: ds, by simp, fun e he => ?_, rfl⟩
      rw [← h] at he
      exact List.mem_takeWhile_imp he
  · exact Or.inl rfl

theorem isPiece_number {c : Char} (hc : isDigit c = true) (cs : List Char) :
    IsPiece (c :: numberTail cs)
      (.lexeme .number (.number (numberValue (c :: numberTail cs)))) := by
  have hdigits : ∀ d ∈ c :: cs.takeWhile isDigit, isDigit d = true := by
    intro d hd
    rcases List.mem_cons.1 hd with rfl | hd
    · exact hc
    · exact List.mem_takeWhile_imp hd
  rw [numberTail]
  rcases fraction_cases (cs.dropWhile isDigit) with hnone | ⟨part, hne, hpart, hsome⟩
  · rw [hnone, List.append_nil, numberValue_whole hdigits]
    exact .whole (by simp) hdigits
  · rw [hsome, ← List.cons_append, numberValue_fraction hdigits]
    refine .fraction (by simp) hne fun d hd => ?_
    rcases List.mem_append.1 hd with hd | hd
    · exact hdigits d hd
    · exact hpart d hd

theorem length_takeWhile_le_numberTail (cs : List Char) :
    (cs.takeWhile isDigit).length ≤ (numberTail cs).length := by
  rw [numberTail, List.length_append]
  omega

/-- Where a point with digits after it comes after some digits, the number goes on. -/
theorem numberTail_fraction {whole part : List Char} (hwhole : ∀ d ∈ whole, isDigit d = true)
    (hne : part ≠ []) (hpart : ∀ d ∈ part, isDigit d = true) (rest : List Char) :
    numberTail (whole ++ '.' :: (part ++ rest)) =
      whole ++ '.' :: (part ++ rest.takeWhile isDigit) := by
  have htake : (whole ++ '.' :: (part ++ rest)).takeWhile isDigit = whole := by
    rw [List.takeWhile_append_of_pos hwhole, List.takeWhile_cons_of_neg (by decide),
      List.append_nil]
  have hdrop : (whole ++ '.' :: (part ++ rest)).dropWhile isDigit = '.' :: (part ++ rest) := by
    rw [List.dropWhile_append_of_pos hwhole, List.dropWhile_cons_of_neg (by decide)]
  obtain ⟨d, ds, rfl⟩ := List.exists_cons_of_ne_nil hne
  rw [numberTail, htake, hdrop, fraction, List.takeWhile_append_of_pos hpart, List.cons_append]

/-! ### Block comments -/

/-- A block comment is closed by the first closing mark. -/
theorem commentBody_append {body : List Char} (h : ¬ ['*', '/'] <:+: body) (rest : List Char) :
    commentBody (body ++ ['*', '/'] ++ rest) = some (body ++ ['*', '/']) := by
  induction body with
  | nil => rfl
  | cons c body ih =>
    have hbody : ¬ ['*', '/'] <:+: body := fun hwithin =>
      h (hwithin.trans (List.suffix_cons c body).isInfix)
    -- No closing mark begins with `c`, since it would stand in the body.
    have hnot : ∀ more, c = '*' → body ++ ['*', '/'] ++ rest = '/' :: more → False := by
      rintro more rfl heq
      cases body with
      | nil => cases heq
      | cons d body =>
        cases heq
        exact h ⟨[], body, rfl⟩
    rw [List.cons_append, List.cons_append, commentBody.eq_2 _ _ hnot, ih hbody]
    rfl

theorem exists_of_commentBody {cs body : List Char} (h : commentBody cs = some body) :
    ∃ inner, body = inner ++ ['*', '/'] ∧ ¬ ['*', '/'] <:+: inner := by
  fun_induction commentBody cs generalizing body with
  | case1 =>
    cases h
    exact ⟨[], rfl, by simp⟩
  | case2 c cs hnot ih =>
    obtain ⟨rest, hrest, rfl⟩ := Option.map_eq_some_iff.1 h
    obtain ⟨inner, rfl, hinner⟩ := ih hrest
    refine ⟨c :: inner, rfl, fun hwithin => ?_⟩
    rcases List.infix_cons_iff.1 hwithin with hfits | hwithin
    · obtain ⟨more, hmore⟩ := hfits
      obtain ⟨rest, rfl⟩ := commentBody_isPrefix hrest
      cases hmore
      exact hnot _ rfl rfl
    · exact hinner hwithin
  | case3 => cases h

/-! ### Keywords and names -/

theorem ofWord_word (k : Keyword) : Kind.ofWord k.word = .keyword k := by
  cases k <;> rfl

/-- A word is a keyword or a name. -/
theorem isPiece_word {c : Char} {cs : List Char} (hc : isLetter c = true)
    (hcs : ∀ d ∈ cs, isWordCharacter d = true) :
    IsPiece (c :: cs) (.lexeme (Kind.ofWord (String.ofList (c :: cs))) .nil) := by
  unfold Kind.ofWord
  split
  next k hk =>
    have hword : k.word = String.ofList (c :: cs) := by
      have hfound := List.find?_some hk
      simpa using hfound
    have hpiece := IsPiece.keyword k
    rwa [hword, String.toList_ofList] at hpiece
  next hnone =>
    refine .name hc hcs fun k hk => ?_
    have hne := List.find?_eq_none.1 hnone k (Keyword.mem_all k)
    rw [← hk, String.ofList_toList] at hne
    simp at hne

theorem ofWord_of_ne {cs : List Char} (h : ∀ k : Keyword, k.word.toList ≠ cs) :
    Kind.ofWord (String.ofList cs) = .identifier := by
  have hnone : Keyword.ofWord? (String.ofList cs) = none := by
    refine List.find?_eq_none.2 fun k _ hk => h k ?_
    rw [beq_iff_eq.1 hk, String.toList_ofList]
  rw [Kind.ofWord, hnone]

/-- A keyword begins with a letter and goes on with letters. -/
theorem exists_of_keyword (k : Keyword) : ∃ c cs, k.word.toList = c :: cs ∧
    isLetter c = true ∧ ∀ d ∈ cs, isWordCharacter d = true := by
  cases k <;> exact ⟨_, _, rfl, rfl, List.all_eq_true.mp rfl⟩

/-! ### Marks -/

/-- There are three sorts of marks: of one character, with or without an equals sign, and the
slash. -/
theorem mark_cases {spelling : List Char} {kind : Kind} (h : (spelling, kind) ∈ marks) :
    (∃ c, spelling = [c] ∧ single? c = some kind) ∨
    (∃ c alone withEqual, double? c = some (alone, withEqual) ∧
      (spelling = [c] ∧ kind = alone ∨ spelling = [c, '='] ∧ kind = withEqual)) ∨
    spelling = ['/'] ∧ kind = .slash := by
  -- One case for each mark, in the order of the list.
  simp only [marks, List.mem_cons, Prod.mk.injEq, List.not_mem_nil, or_false] at h
  rcases h with ⟨rfl, rfl⟩ | ⟨rfl, rfl⟩ | ⟨rfl, rfl⟩ | ⟨rfl, rfl⟩ | ⟨rfl, rfl⟩ | ⟨rfl, rfl⟩ |
    ⟨rfl, rfl⟩ | ⟨rfl, rfl⟩ | ⟨rfl, rfl⟩ | ⟨rfl, rfl⟩ | ⟨rfl, rfl⟩ | ⟨rfl, rfl⟩ | ⟨rfl, rfl⟩ |
    ⟨rfl, rfl⟩ | ⟨rfl, rfl⟩ | ⟨rfl, rfl⟩ | ⟨rfl, rfl⟩ | ⟨rfl, rfl⟩ | ⟨rfl, rfl⟩
  case inr.inr.inr.inr.inr.inr.inr.inr.inr.inl => exact Or.inr (Or.inr ⟨rfl, rfl⟩)
  any_goals exact Or.inl ⟨_, rfl, rfl⟩
  any_goals exact Or.inr (Or.inl ⟨_, _, _, rfl, Or.inl ⟨rfl, rfl⟩⟩)
  all_goals exact Or.inr (Or.inl ⟨_, _, _, rfl, Or.inr ⟨rfl, rfl⟩⟩)

theorem isPiece_single {c : Char} {kind : Kind} (h : single? c = some kind) :
    IsPiece [c] (.lexeme kind .nil) := by
  unfold single? at h
  split at h <;> cases h <;> exact .mark (by decide)

theorem isPiece_double {c : Char} {alone withEqual : Kind}
    (h : double? c = some (alone, withEqual)) :
    IsPiece [c] (.lexeme alone .nil) ∧ IsPiece [c, '='] (.lexeme withEqual .nil) := by
  unfold double? at h
  split at h <;> cases h <;> exact ⟨.mark (by decide), .mark (by decide)⟩

end Lexical

end Lox
