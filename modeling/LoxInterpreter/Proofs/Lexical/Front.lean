import LoxInterpreter.Proofs.Lexical.Forms

/-!
The piece that the scanner finds at the beginning of a text is the longest one that the grammar
allows there, and where it finds none, there is none.
-/

namespace Lox

namespace Lexical

open Scan

variable {c : Char} {cs : List Char} {p : Piece}

theorem isPiece_of_front (h : front c cs = .ok p) : IsPiece p.text p.role := by
  unfold front at h
  simp only at h
  repeat' split at h
  all_goals cases h
  · next hspace =>
    simp only [isSpace, Bool.or_eq_true, beq_iff_eq] at hspace
    rcases hspace with hspace | rfl
    · exact .space (by simpa [or_assoc] using hspace)
    · exact .newline
  · next hsingle => exact isPiece_single hsingle
  · exact (isPiece_double ‹double? _ = some _›).2
  · exact (isPiece_double ‹double? _ = some _›).1
  · next hslash _ _ =>
    obtain rfl := beq_iff_eq.1 hslash
    exact .lineComment not_mem_takeWhile
  · next hslash _ _ _ _ hbody =>
    obtain rfl := beq_iff_eq.1 hslash
    obtain ⟨inner, rfl, hinner⟩ := exists_of_commentBody hbody
    exact .blockComment hinner
  · next hslash _ _ _ =>
    obtain rfl := beq_iff_eq.1 hslash
    exact .mark (by decide)
  · next hquote _ =>
    obtain rfl := beq_iff_eq.1 hquote
    exact .string not_mem_takeWhile
  · next hdigit => exact isPiece_number hdigit cs
  · next hletter =>
    exact isPiece_word hletter fun d hd => List.mem_takeWhile_imp hd

/-- What the scanner finds is allowed. -/
theorem allowed_of_front (h : front c cs = .ok p) : Allowed (c :: cs) p.text p.role := by
  obtain ⟨hfirst, hmore⟩ := isPrefix_of_front h
  refine ⟨?_, isPiece_of_front h, ?_⟩
  · rw [Piece.text, hfirst]
    exact List.cons_prefix_cons.2 ⟨rfl, hmore⟩
  · rintro ⟨rest, hrest⟩
    rw [List.cons_append, List.singleton_append] at hrest
    cases hrest
    rw [front_opening] at h
    split at h
    · cases h
      exact ⟨_, rfl⟩
    · cases h

/-- The scanner finds a piece that is at least as long as this one. If it is the same text, then in
the same role. -/
def FindsAtLeast (c : Char) (cs more : List Char) (role : Role) : Prop :=
  ∃ p, front c cs = .ok p ∧ more.length ≤ p.more.length ∧ (more = p.more → role = p.role)

namespace FindsAtLeast

variable {more : List Char} {kind : Kind}

theorem blank (h : c ∈ [' ', '\r', '\t']) (cs : List Char) : FindsAtLeast c cs [] .blank := by
  refine ⟨⟨c, [], .blank⟩, ?_, Nat.le_refl 0, fun _ => rfl⟩
  simp only [List.mem_cons, List.not_mem_nil, or_false] at h
  rcases h with rfl | rfl | rfl <;> rfl

theorem lineComment {body : List Char} (hbody : '\n' ∉ body) (rest : List Char) :
    FindsAtLeast '/' ('/' :: (body ++ rest)) ('/' :: body) .blank := by
  refine ⟨⟨'/', '/' :: (body ++ rest).takeWhile (· != '\n'), .blank⟩, rfl, ?_, fun _ => rfl⟩
  exact Nat.succ_le_succ (length_le_takeWhile (List.prefix_append body rest)
    (ne_of_not_mem hbody))

theorem blockComment {body : List Char} (hbody : ¬ ['*', '/'] <:+: body) (rest : List Char) :
    FindsAtLeast '/' ('*' :: (body ++ ['*', '/'] ++ rest)) ('*' :: (body ++ ['*', '/']))
      .blank := by
  refine ⟨⟨'/', '*' :: (body ++ ['*', '/']), .blank⟩, ?_, Nat.le_refl _, fun _ => rfl⟩
  rw [front_opening, commentBody_append hbody]

theorem single (h : single? c = some kind) (cs : List Char) :
    FindsAtLeast c cs [] (.lexeme kind .nil) :=
  ⟨_, front_single h cs, Nat.le_refl 0, fun _ => rfl⟩

/-- An equals sign that comes next makes the longer mark. -/
theorem alone {alone withEqual : Kind} (h : double? c = some (alone, withEqual))
    (cs : List Char) : FindsAtLeast c cs [] (.lexeme alone .nil) := by
  have hfront := front_double h cs
  split at hfront
  · exact ⟨_, hfront, Nat.zero_le 1, fun heq => nomatch heq⟩
  · exact ⟨_, hfront, Nat.le_refl 0, fun _ => rfl⟩

theorem withEqual {alone withEqual : Kind} (h : double? c = some (alone, withEqual))
    (rest : List Char) : FindsAtLeast c ('=' :: rest) ['='] (.lexeme withEqual .nil) :=
  ⟨_, front_double h ('=' :: rest), Nat.le_refl 1, fun _ => rfl⟩

/-- Where a block comment opens, a slash alone may not be taken for its beginning. -/
theorem slash {cs : List Char} (hopening : ∀ rest, cs ≠ '*' :: rest) :
    FindsAtLeast '/' cs [] (.lexeme .slash .nil) := by
  have hfront := front_slash cs
  split at hfront
  · exact ⟨_, hfront, Nat.zero_le _, fun heq => nomatch heq⟩
  next rest => exact absurd rfl (hopening rest)
  · exact ⟨_, hfront, Nat.le_refl 0, fun _ => rfl⟩

theorem string {body : List Char} (hbody : '"' ∉ body) (rest : List Char) :
    FindsAtLeast '"' (body ++ ['"'] ++ rest) (body ++ ['"'])
      (.lexeme .string (.string (String.ofList body))) := by
  have htake : (body ++ ['"'] ++ rest).takeWhile (· != '"') = body := by
    rw [List.append_assoc, List.takeWhile_append_of_pos (ne_of_not_mem hbody),
      List.singleton_append, List.takeWhile_cons_of_neg (by simp), List.append_nil]
  -- The closing quote makes the rest longer than the body.
  have hlength : body.length < (body ++ ['"'] ++ rest).length := by
    simp only [List.length_append, List.length_singleton]
    omega
  refine ⟨⟨'"', body ++ ['"'], .lexeme .string (.string (String.ofList body))⟩, ?_,
    Nat.le_refl _, fun _ => rfl⟩
  rw [front_quote, htake, if_pos hlength]

theorem whole (hmore : more <+: cs) (hdigits : ∀ d ∈ c :: more, isDigit d = true) :
    FindsAtLeast c cs more (.lexeme .number (decimal (c :: more) 0)) := by
  refine ⟨_, front_digit (hdigits c List.mem_cons_self) cs, ?_, ?_⟩
  · have hle := length_le_takeWhile hmore fun d hd => hdigits d (List.mem_cons_of_mem c hd)
    exact Nat.le_trans hle (length_takeWhile_le_numberTail cs)
  · intro heq
    dsimp only at heq ⊢
    rw [← heq, numberValue_whole hdigits]

theorem fraction {ds part : List Char} (hpart : part ≠ [])
    (hdigits : ∀ d ∈ c :: ds ++ part, isDigit d = true) (rest : List Char) :
    FindsAtLeast c (ds ++ '.' :: part ++ rest) (ds ++ '.' :: part)
      (.lexeme .number (decimal (c :: ds ++ part) part.length)) := by
  have hwhole : ∀ d ∈ c :: ds, isDigit d = true := fun e he =>
    hdigits e (List.mem_append_left part he)
  have htail := numberTail_fraction (fun e he => hwhole e (List.mem_cons_of_mem c he)) hpart
    (fun e he => hdigits e (List.mem_append_right _ he)) rest
  refine ⟨_, front_digit (hwhole c List.mem_cons_self) _, ?_, ?_⟩
  · simp only [List.append_assoc, List.cons_append, htail, List.length_append, List.length_cons]
    omega
  · intro heq
    dsimp only at heq ⊢
    rw [← heq, ← List.cons_append, numberValue_fraction hwhole]

/-- The whole word decides whether it is a keyword. -/
theorem word (hmore : more <+: cs) (hc : isLetter c = true)
    (hword : ∀ d ∈ more, isWordCharacter d = true)
    (hkind : Kind.ofWord (String.ofList (c :: more)) = kind) :
    FindsAtLeast c cs more (.lexeme kind .nil) := by
  refine ⟨_, front_letter hc cs, length_le_takeWhile hmore hword, ?_⟩
  intro heq
  dsimp only at heq ⊢
  rw [← heq, hkind]

end FindsAtLeast

theorem findsAtLeast_mark {more : List Char} {kind : Kind} (hmark : (c :: more, kind) ∈ marks)
    (hmore : more <+: cs) (hopening : c = '/' → more = [] → ∀ rest, cs ≠ '*' :: rest) :
    FindsAtLeast c cs more (.lexeme kind .nil) := by
  rcases mark_cases hmark with ⟨d, hspelling, hsingle⟩ |
    ⟨d, alone, withEqual, hdouble, ⟨hspelling, rfl⟩ | ⟨hspelling, rfl⟩⟩ | ⟨hspelling, rfl⟩
  · cases hspelling
    exact .single hsingle cs
  · cases hspelling
    exact .alone hdouble cs
  · cases hspelling
    obtain ⟨rest, rfl⟩ := hmore
    exact .withEqual hdouble rest
  · cases hspelling
    exact .slash (hopening rfl rfl)

/-- Where a piece is allowed, the scanner finds one that is at least as long. -/
theorem findsAtLeast_of_allowed {more : List Char} {role : Role}
    (h : Allowed (c :: cs) (c :: more) role) : FindsAtLeast c cs more role := by
  obtain ⟨hfits, hpiece, hopening⟩ := h
  have hmore : more <+: cs := (List.cons_prefix_cons.1 hfits).2
  generalize htext : c :: more = text at hpiece
  cases hpiece with
  | space hd =>
    cases htext
    exact .blank hd cs
  | newline =>
    cases htext
    exact ⟨⟨'\n', [], .blank⟩, rfl, Nat.le_refl 0, fun _ => rfl⟩
  | lineComment hbody =>
    cases htext
    obtain ⟨rest, rfl⟩ := hmore
    exact .lineComment hbody rest
  | blockComment hbody =>
    cases htext
    obtain ⟨rest, rfl⟩ := hmore
    exact .blockComment hbody rest
  | mark hmark =>
    rw [← htext] at hmark
    refine findsAtLeast_mark hmark hmore ?_
    rintro rfl rfl rest rfl
    exact absurd (hopening ⟨rest, rfl⟩) (by decide)
  | string hbody =>
    cases htext
    obtain ⟨rest, rfl⟩ := hmore
    exact .string hbody rest
  | whole _ hdigits =>
    cases htext
    exact .whole hmore hdigits
  | @fraction whole part hwhole hpart hdigits =>
    obtain ⟨d, ds, rfl⟩ := List.exists_cons_of_ne_nil hwhole
    obtain ⟨rfl, rfl⟩ := List.cons.inj htext
    obtain ⟨rest, rfl⟩ := hmore
    exact .fraction hpart hdigits rest
  | keyword k =>
    obtain ⟨d, ds, hword, hd, hds⟩ := exists_of_keyword k
    rw [hword] at htext
    cases htext
    refine .word hmore hd hds ?_
    rw [← hword, String.ofList_toList, ofWord_word]
  | name hc hword hne =>
    cases htext
    exact .word hmore hc hword (ofWord_of_ne hne)

theorem IsPiece.ne_nil {text : List Char} {role : Role} (h : IsPiece text role) : text ≠ [] := by
  cases h with
  | mark hmark =>
    have hne : ∀ m ∈ marks, m.1 ≠ [] := by decide
    exact hne _ hmark
  | whole hne _ => exact hne
  | fraction hne _ _ => simp
  | keyword k => cases k <;> decide
  | _ => simp

/-- A piece that a text can begin with has its first character. -/
theorem Allowed.exists_eq_cons {piece : List Char} {role : Role}
    (h : Allowed (c :: cs) piece role) : ∃ more, piece = c :: more := by
  obtain ⟨d, more, rfl⟩ := List.exists_cons_of_ne_nil h.isPiece.ne_nil
  obtain rfl := (List.cons_prefix_cons.1 h.isPrefix).1
  exact ⟨more, rfl⟩

/-- The scanner finds the longest piece. -/
theorem longest_of_front (h : front c cs = .ok p) : Longest (c :: cs) p.text p.role := by
  refine ⟨allowed_of_front h, fun {piece role} hallowed => ?_⟩
  obtain ⟨more, rfl⟩ := hallowed.exists_eq_cons
  obtain ⟨q, hq, hlength, -⟩ := findsAtLeast_of_allowed hallowed
  obtain rfl : p = q := Except.ok.inj (h.symm.trans hq)
  exact Nat.succ_le_succ hlength

/-- The longest piece is the one that the scanner finds. -/
theorem front_of_longest {text : List Char} (h : Longest (p.text ++ text) p.text p.role) :
    front p.first (p.more ++ text) = .ok p := by
  have hallowed : Allowed (p.first :: (p.more ++ text)) (p.first :: p.more) p.role := h.allowed
  obtain ⟨q, hq, hlength, hrole⟩ := findsAtLeast_of_allowed hallowed
  have hfound : Allowed (p.text ++ text) q.text q.role := allowed_of_front hq
  have hle : q.text.length ≤ p.text.length := h.length_le hfound
  -- Each of the two is at least as long as the other, and both stand in front of one text.
  have htext : p.text = q.text := by
    refine eq_of_isPrefix h.allowed.isPrefix hfound.isPrefix ?_
    simp only [Piece.text, List.length_cons] at hle ⊢
    omega
  obtain ⟨hfirst, hmore⟩ := List.cons.inj htext
  obtain ⟨first, more, role⟩ := p
  obtain ⟨first', more', role'⟩ := q
  dsimp only at hfirst hmore hrole
  rw [hq, hfirst, hrole hmore, hmore]

/-- Where the scanner finds nothing, there is nothing to find. -/
theorem stuck_of_front {cause : ScanCause} (h : front c cs = .error cause) :
    ∃ lexeme, Stuck (c :: cs) cause lexeme := by
  have hnone : ∀ piece role, ¬ Allowed (c :: cs) piece role := by
    intro piece role hallowed
    obtain ⟨more, rfl⟩ := hallowed.exists_eq_cons
    obtain ⟨p, hp, -, -⟩ := findsAtLeast_of_allowed hallowed
    rw [h] at hp
    cases hp
  have hobstacle : ∃ lexeme, Obstacle (c :: cs) cause lexeme := by
    unfold front at h
    simp only at h
    repeat' split at h
    all_goals cases h
    · next hslash _ _ _ _ =>
      obtain rfl := beq_iff_eq.1 hslash
      exact ⟨_, .comment⟩
    · next hquote _ =>
      obtain rfl := beq_iff_eq.1 hquote
      exact ⟨_, .string⟩
    · next hslash hquote _ _ =>
      exact ⟨_, .character (by simpa using hquote) (by simpa using hslash)⟩
  obtain ⟨lexeme, hobstacle⟩ := hobstacle
  exact ⟨lexeme, hobstacle, hnone⟩

theorem Obstacle.unique {text : List Char} {cause cause' : ScanCause} {lexeme lexeme' : String}
    (h : Obstacle text cause lexeme) (h' : Obstacle text cause' lexeme') :
    cause = cause' ∧ lexeme = lexeme' := by
  cases h with
  | string =>
    cases h' with
    | string => exact ⟨rfl, rfl⟩
    | character hquote _ => exact absurd rfl hquote
  | comment =>
    cases h' with
    | comment => exact ⟨rfl, rfl⟩
    | character _ hslash => exact absurd rfl hslash
  | character hquote hslash =>
    cases h' with
    | string => exact absurd rfl hquote
    | comment => exact absurd rfl hslash
    | character => exact ⟨rfl, rfl⟩

theorem front_of_stuck {cause : ScanCause} {lexeme : String} (h : Stuck (c :: cs) cause lexeme) :
    front c cs = .error cause := by
  cases hfront : front c cs with
  | ok p => exact absurd (allowed_of_front hfront) (h.not_allowed _ _)
  | error cause' =>
    obtain ⟨lexeme', h'⟩ := stuck_of_front hfront
    rw [(h.obstacle.unique h'.obstacle).1]

end Lexical

end Lox
