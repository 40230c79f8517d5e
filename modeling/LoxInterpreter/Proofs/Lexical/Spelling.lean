import LoxInterpreter.Proofs.Lexical.Restart
import LoxInterpreter.Proofs.Lexical.Written
import LoxInterpreter.Proofs.Places.Bare

/-!
Spellings. The text of a lexeme tells its kind and its literal, so that two tokens with the same
lexeme differ in nothing but their places.
-/

namespace Lox

namespace Lexical

open Scan

variable {text : List Char} {kind kind' : Kind} {literal literal' : Literal} {t t' : Token}

def kindOf? : List Char → Option Kind
  | [] => none
  | c :: cs =>
    match front c cs with
    | .ok ⟨_, _, .lexeme kind _⟩ => some kind
    | _ => none

theorem front_of_isPiece {c : Char} {cs : List Char}
    (h : IsPiece (c :: cs) (.lexeme kind literal)) :
    front c cs = .ok ⟨c, cs, .lexeme kind literal⟩ := by
  have hspaced : Spaced [] := by simp [Spaced]
  have hfront := front_spaced h hspaced
  rwa [List.append_nil] at hfront

theorem kindOf?_of_isPiece (h : IsPiece text (.lexeme kind literal)) :
    kindOf? text = some kind := by
  obtain ⟨c, cs, rfl⟩ := List.exists_cons_of_ne_nil h.ne_nil
  rw [kindOf?, front_of_isPiece h]

/-- A text tells which lexeme it is. -/
theorem IsPiece.unique (h : IsPiece text (.lexeme kind literal))
    (h' : IsPiece text (.lexeme kind' literal')) : kind = kind' ∧ literal = literal' := by
  obtain ⟨c, cs, rfl⟩ := List.exists_cons_of_ne_nil h.ne_nil
  have hfront := (front_of_isPiece h).symm.trans (front_of_isPiece h')
  simp only [Except.ok.injEq, Piece.mk.injEq, Role.lexeme.injEq, true_and] at hfront
  exact hfront

theorem IsLexeme.kindOf?_eq (h : IsLexeme t) : kindOf? t.lexeme.toList = some t.kind :=
  kindOf?_of_isPiece h

/-- Tokens with the same lexeme differ in nothing but their places. -/
theorem IsLexeme.bare_eq (ht : IsLexeme t) (ht' : IsLexeme t')
    (h : t.lexeme.toList = t'.lexeme.toList) : t.bare = t'.bare := by
  have hpiece : IsPiece t.lexeme.toList (.lexeme t.kind t.literal) := ht
  rw [h] at hpiece
  obtain ⟨hkind, hliteral⟩ := hpiece.unique ht'
  rw [Token.bare, Token.bare, hkind, hliteral, String.toList_inj.1 h]

/-- A closing parenthesis has one spelling, and so has each keyword. -/
theorem text_of_rightParen (h : IsPiece text (.lexeme .rightParen literal)) : text = [')'] := by
  cases h with
  | mark hmark =>
    have hspelling : ∀ m ∈ marks, m.2 = .rightParen → m.1 = [')'] := by decide
    exact hspelling _ hmark rfl

theorem text_of_keyword {k : Keyword} (h : IsPiece text (.lexeme (.keyword k) literal)) :
    text = k.word.toList := by
  cases h with
  | mark hmark =>
    have hnone : ∀ m ∈ marks, ∀ k ∈ Keyword.all, m.2 ≠ .keyword k := by decide
    exact absurd rfl (hnone _ hmark k k.mem_all)
  | keyword => rfl

/-- A number stands for a decimal, and a string for a string. -/
theorem exists_of_number (h : IsPiece text (.lexeme .number literal)) :
    ∃ m places, literal = .number (Float.ofScientific m true places) := by
  cases h with
  | mark hmark =>
    have hnone : ∀ m ∈ marks, m.2 ≠ .number := by decide
    exact absurd rfl (hnone _ hmark)
  | whole => exact ⟨_, _, rfl⟩
  | fraction => exact ⟨_, _, rfl⟩

theorem exists_of_string (h : IsPiece text (.lexeme .string literal)) :
    ∃ body, literal = .string body := by
  cases h with
  | mark hmark =>
    have hnone : ∀ m ∈ marks, m.2 ≠ .string := by decide
    exact absurd rfl (hnone _ hmark)
  | string => exact ⟨_, rfl⟩

end Lexical

end Lox
