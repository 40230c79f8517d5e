import LoxInterpreter.Proofs.Lexical.Restart

/-!
Tokens that are written out. A lexeme is found again as a whole wherever white space or the end of
the text comes after it, since no piece that begins like it goes on over white space. So the lexemes
of a scan can be written one after the other with any white space between them: scanning what is
written gives the same tokens, at other places.
-/

namespace Lox

def spacing : List Char := [' ', '\t', '\r', '\n']

structure Separator where
  first : Char
  more : List Char
  subset_spacing : first :: more ⊆ spacing

def Separator.text (sep : Separator) : List Char := sep.first :: sep.more

/-- The lexemes of tokens one after the other, with separators between them. -/
def written (between : Nat → Separator) : List Token → List Char
  | [] => []
  | [t] => t.lexeme.toList
  | t :: u :: ts =>
    t.lexeme.toList ++ ((between 0).text ++ written (fun n => between (n + 1)) (u :: ts))

namespace Lexical

open Scan

variable {c : Char} {more rest : List Char} {kind : Kind} {literal : Literal}

/-! ### Lexemes in front of white space -/

def Spaced (text : List Char) : Prop := ∀ c ∈ text.head?, c ∈ spacing

theorem takeWhile_append_spaced {p : Char → Bool} (hp : ∀ c ∈ spacing, p c = false)
    {cs : List Char} (hcs : ∀ c ∈ cs, p c = true) (hrest : Spaced rest) :
    (cs ++ rest).takeWhile p = cs := by
  rw [List.takeWhile_append_of_pos hcs]
  cases rest with
  | nil => simp
  | cons s rest => rw [List.takeWhile_cons_of_neg (by simp [hp s (hrest s rfl)]), List.append_nil]

theorem isDigit_spacing : ∀ c ∈ spacing, isDigit c = false := by
  simp [spacing, isDigit]

theorem isWordCharacter_spacing : ∀ c ∈ spacing, isWordCharacter c = false := by
  simp [spacing, isWordCharacter, isLetter, isDigit]

theorem isSpace_spacing : ∀ c ∈ spacing, (isSpace c || c == '\n') = true := by
  simp [spacing, isSpace]

theorem numberTail_append_spaced {digits : List Char} (h : ∀ d ∈ digits, isDigit d = true)
    (hrest : Spaced rest) : numberTail (digits ++ rest) = digits := by
  have hdrop : (digits ++ rest).dropWhile isDigit = rest := by
    have hall := List.takeWhile_append_dropWhile (p := isDigit) (l := digits ++ rest)
    rw [takeWhile_append_spaced isDigit_spacing h hrest] at hall
    exact List.append_cancel_left hall
  have hnone : fraction rest = [] := by
    cases rest with
    | nil => rfl
    | cons s rest =>
      have hpoint : s ≠ '.' := ne_of_mem_of_not_mem (hrest s rfl) (by decide)
      rw [fraction]
      exact fun _ heq => hpoint (List.cons.inj heq).1
  rw [numberTail, takeWhile_append_spaced isDigit_spacing h hrest, hdrop, hnone, List.append_nil]

theorem front_double_spaced {alone withEqual : Kind} (h : double? c = some (alone, withEqual))
    (hrest : Spaced rest) : front c rest = .ok ⟨c, [], .lexeme alone .nil⟩ := by
  rw [front_double h]
  split
  · exact absurd (hrest '=' rfl) (by decide)
  · rfl

theorem front_slash_spaced (hrest : Spaced rest) :
    front '/' rest = .ok ⟨'/', [], .lexeme .slash .nil⟩ := by
  rw [front_slash]
  split
  · exact absurd (hrest '/' rfl) (by decide)
  · exact absurd (hrest '*' rfl) (by decide)
  · rfl

/-- A word is found as a whole. -/
theorem front_word_spaced (hc : isLetter c = true) (hmore : ∀ d ∈ more, isWordCharacter d = true)
    (hrest : Spaced rest) : front c (more ++ rest) =
      .ok ⟨c, more, .lexeme (Kind.ofWord (String.ofList (c :: more))) .nil⟩ := by
  rw [front_letter hc, takeWhile_append_spaced isWordCharacter_spacing hmore hrest]

/-- A lexeme is what the scanner finds in front of white space. -/
theorem front_spaced (h : IsPiece (c :: more) (.lexeme kind literal)) (hrest : Spaced rest) :
    front c (more ++ rest) = .ok ⟨c, more, .lexeme kind literal⟩ := by
  generalize htext : c :: more = text at h
  cases h with
  | mark hmark =>
    rcases mark_cases hmark with ⟨d, rfl, hsingle⟩ | ⟨d, alone, withEqual, hdouble, hor⟩ |
      ⟨rfl, rfl⟩
    · cases htext
      exact front_single hsingle rest
    · rcases hor with ⟨rfl, rfl⟩ | ⟨rfl, rfl⟩ <;> cases htext
      · exact front_double_spaced hdouble hrest
      · exact front_double hdouble ('=' :: rest)
    · cases htext
      exact front_slash_spaced hrest
  | @string body hbody =>
    cases htext
    have htake : (body ++ '"' :: rest).takeWhile (· != '"') = body := by
      rw [List.takeWhile_append_of_pos (ne_of_not_mem hbody),
        List.takeWhile_cons_of_neg (by simp), List.append_nil]
    rw [List.append_assoc, List.singleton_append, front_quote, htake, if_pos (by simp)]
  | whole hne hdigits =>
    cases htext
    obtain ⟨hc, hmore⟩ := List.forall_mem_cons.1 hdigits
    rw [front_digit hc, numberTail_append_spaced hmore hrest, numberValue_whole hdigits]
  | @fraction whole part hwhole hpart hdigits =>
    obtain ⟨d, ds, rfl⟩ := List.exists_cons_of_ne_nil hwhole
    rw [List.cons_append] at htext
    obtain ⟨rfl, rfl⟩ := List.cons.inj htext
    obtain ⟨hwhole, hpart'⟩ := List.forall_mem_append.1 hdigits
    obtain ⟨hc, hds⟩ := List.forall_mem_cons.1 hwhole
    have hnone : ([] ++ rest).takeWhile isDigit = [] :=
      takeWhile_append_spaced isDigit_spacing (by simp) hrest
    rw [List.nil_append] at hnone
    rw [List.append_assoc, List.cons_append, front_digit hc,
      numberTail_fraction hds hpart hpart', hnone, List.append_nil, ← List.cons_append,
      numberValue_fraction hwhole]
  | keyword k =>
    obtain ⟨d, ds, hword, hd, hds⟩ := exists_of_keyword k
    rw [hword] at htext
    cases htext
    rw [front_word_spaced hd hds hrest, ← hword, String.ofList_toList, ofWord_word]
  | name hc hmore hne =>
    cases htext
    rw [front_word_spaced hc hmore hrest, ofWord_of_ne hne]

/-! ### Pieces of what is written -/

theorem lexemes_cons (p : Piece) (ps : List Piece) :
    lexemes (p :: ps) = lexemes [p] ++ lexemes ps :=
  List.filterMap_append (l := [p])

/-- White space adds no lexemes. -/
theorem exists_pieces_spacing {space : List Char} (h : space ⊆ spacing) (rest : List Char) :
    ∃ ps, pieces (space ++ rest) = (ps ++ (pieces rest).1, (pieces rest).2) ∧ lexemes ps = [] := by
  induction space with
  | nil => exact ⟨[], rfl, rfl⟩
  | cons c space ih =>
    obtain ⟨hc, hspace⟩ := List.cons_subset.1 h
    obtain ⟨ps, hps, hnone⟩ := ih hspace
    have hblank : (isSpace c || c == '\n') = true := isSpace_spacing c hc
    refine ⟨⟨c, [], .blank⟩ :: ps, ?_, hnone⟩
    have hpieces := pieces_text_append ⟨c, [], .blank⟩ (space ++ rest) (front_space hblank _)
    rw [hps] at hpieces
    exact hpieces

def IsLexeme (t : Token) : Prop := IsPiece t.lexeme.toList (.lexeme t.kind t.literal)

theorem isLexeme_of_mem_tokensAt {ps : List Piece} (hps : ∀ p ∈ ps, IsPiece p.text p.role)
    (start : Place) : ∀ t ∈ tokensAt start ps, IsLexeme t := by
  induction ps generalizing start with
  | nil => simp [tokensAt]
  | cons p ps ih =>
    obtain ⟨hp, hps⟩ := List.forall_mem_cons.1 hps
    rw [tokensAt]
    split
    next => exact ih hps _
    next kind literal hrole =>
      rw [hrole, ← String.toList_ofList (l := p.text)] at hp
      exact List.forall_mem_cons.2 ⟨hp, ih hps _⟩

/-- All tokens of a text but the last are lexemes. -/
theorem isLexeme_of_kind_ne {source : String} {line : Int} {tokens : List Token}
    (h : scan source line = .ok tokens) (ht : t ∈ tokens) (hkind : t.kind ≠ .eof) : IsLexeme t := by
  obtain ⟨ps, stop, hps, rfl, hstop⟩ := exists_pieces_of_scanChars h
  rcases List.mem_append.1 ht with ht | ht
  · exact isLexeme_of_mem_tokensAt (isPiece_of_cut (cut_of_pieces hps).1) _ t ht
  · rw [List.mem_singleton.1 ht] at hkind
    exact absurd hstop hkind

/-- A lexeme in front of white space is cut off as a whole. -/
theorem exists_pieces_lexeme {t : Token} (ht : IsLexeme t) (hrest : Spaced rest) :
    ∃ p, pieces (t.lexeme.toList ++ rest) = (p :: (pieces rest).1, (pieces rest).2) ∧
      lexemes [p] = [content t] := by
  obtain ⟨c, more, htext⟩ := List.exists_cons_of_ne_nil ht.ne_nil
  have hpiece : IsPiece (c :: more) (.lexeme t.kind t.literal) := htext ▸ ht
  refine ⟨⟨c, more, .lexeme t.kind t.literal⟩, ?_, ?_⟩
  · rw [htext]
    exact pieces_text_append ⟨c, more, _⟩ rest (front_spaced hpiece hrest)
  · have hlexeme : String.ofList (c :: more) = t.lexeme := by rw [← htext, String.ofList_toList]
    exact congrArg (fun lexeme => [(t.kind, lexeme, t.literal)]) hlexeme

/-- What is written is cut completely, into the lexemes that were written. -/
theorem exists_pieces_written (between : Nat → Separator) {ts : List Token}
    (h : ∀ t ∈ ts, IsLexeme t) :
    ∃ ps, pieces (written between ts) = (ps, .complete) ∧ lexemes ps = ts.map content := by
  fun_induction written between ts with
  | case1 => exact ⟨[], by rw [pieces], rfl⟩
  | case2 between t =>
    have hrest : Spaced [] := by simp [Spaced]
    obtain ⟨p, hp, hlexeme⟩ := exists_pieces_lexeme (List.forall_mem_singleton.1 h) hrest
    rw [List.append_nil, pieces] at hp
    exact ⟨[p], hp, hlexeme⟩
  | case3 between t u ts ih =>
    obtain ⟨ht, hts⟩ := List.forall_mem_cons.1 h
    obtain ⟨ps, hps, hlexemes⟩ := ih hts
    obtain ⟨hfirst, -⟩ := List.cons_subset.1 (between 0).subset_spacing
    obtain ⟨blanks, hblanks, hnone⟩ := exists_pieces_spacing (between 0).subset_spacing
      (written (fun n => between (n + 1)) (u :: ts))
    have hrest : Spaced ((between 0).text ++ written (fun n => between (n + 1)) (u :: ts)) := by
      rintro c ⟨⟩
      exact hfirst
    obtain ⟨p, hp, hlexeme⟩ := exists_pieces_lexeme ht hrest
    refine ⟨p :: (blanks ++ ps), ?_, ?_⟩
    · rw [hp, Separator.text, hblanks, hps]
    · have happend : lexemes (blanks ++ ps) = lexemes blanks ++ lexemes ps := List.filterMap_append
      rw [lexemes_cons, hlexeme, happend, hnone, hlexemes]
      rfl

end Lexical

open Lexical

/-- The tokens of a scan are scanned again when their lexemes are written one after the other, with
any white space between them: the kinds, the lexemes and the literals are the same. -/
theorem scan_written {source : String} {line : Int} {tokens : List Token}
    (h : scan source line = .ok tokens) (between : Nat → Separator) (line' : Int) :
    ∃ again, scan (String.ofList (written between (tokens.filter (·.kind ≠ .eof)))) line' =
        .ok again ∧ again.map content = tokens.map content := by
  obtain ⟨ps, stop, hps, rfl, hstop⟩ := exists_pieces_of_scanChars h
  have hpieces := isPiece_of_cut (cut_of_pieces hps).1
  have hfilter : (Scan.tokensAt ⟨line, 0⟩ ps ++ [stop]).filter (·.kind ≠ .eof) =
      Scan.tokensAt ⟨line, 0⟩ ps := by
    have hkinds := kind_ne_eof_of_mem_tokensAt hpieces ⟨line, 0⟩
    rw [List.filter_append, List.filter_eq_self.2 (by simpa using hkinds)]
    simp [hstop]
  obtain ⟨qs, hqs, hlexemes⟩ :=
    exists_pieces_written between (isLexeme_of_mem_tokensAt hpieces ⟨line, 0⟩)
  obtain ⟨again, hagain, hcontent⟩ := scanChars_of_complete line' hqs
  obtain ⟨tokens, htokens, hcontent'⟩ := scanChars_of_complete line hps
  obtain rfl : _ = tokens := Except.ok.inj (h.symm.trans htokens)
  refine ⟨again, ?_, ?_⟩
  · rw [hfilter, scan, String.toList_ofList]
    exact hagain
  · rw [hcontent, hlexemes, map_content_tokensAt, hcontent']

/-- The marks in `!/"//"=a` do not become one mark or a comment when they are written out, and the
slashes inside the string stay there. -/
theorem scan_written_marks :
    let tokens : List Token := [⟨.bang, "!", .nil, 1, some 0⟩, ⟨.slash, "/", .nil, 1, some 1⟩,
      ⟨.string, "\"//\"", .string "//", 1, some 2⟩, ⟨.equal, "=", .nil, 1, some 6⟩,
      ⟨.identifier, "a", .nil, 1, some 7⟩, ⟨.eof, "", .nil, 1, some 8⟩]
    scan "!/\"//\"=a" 1 = .ok tokens ∧
      ∃ again, scan "!\r\n/\t\"//\"\t=\ta" 7 = .ok again ∧
        again.map content = tokens.map content := by
  intro tokens
  let between : Nat → Separator
    | 0 => ⟨'\r', ['\n'], by decide⟩
    | _ => ⟨'\t', [], by decide⟩
  have hscan : scan "!/\"//\"=a" 1 = .ok tokens := by cbv
  have hwritten : String.ofList (written between (tokens.filter (·.kind ≠ .eof))) =
      "!\r\n/\t\"//\"\t=\ta" := rfl
  obtain ⟨again, hagain, hcontent⟩ := scan_written hscan between 7
  rw [hwritten] at hagain
  exact ⟨hscan, again, hagain, hcontent⟩

end Lox
