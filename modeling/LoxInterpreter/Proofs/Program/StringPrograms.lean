import LoxInterpreter.Proofs.Program.FileRuns
import LoxInterpreter.Token.Continuation

/-!
Programs that print a string. Whatever the string is, as long as there is no quote in it, the
program is cut into four pieces and is a single statement, whose run prints the string. Without
the closing quote the text goes on.
-/

namespace Lox

open Session Work

def printing (content : String) : String := "print \"" ++ content ++ "\";"

theorem toList_printing (content : String) :
    (printing content).toList = "print \"".toList ++ content.toList ++ ['"', ';'] := by
  rw [printing, String.toList_append, String.toList_append]
  rfl

theorem printing_injective {content content' : String} (h : printing content = printing content') :
    content = content' := by
  have hlist := congrArg String.toList h
  rw [toList_printing, toList_printing] at hlist
  exact String.toList_inj.1 (List.append_cancel_left (List.append_cancel_right hlist))

namespace Lexical

open Scan

/-- Without another quote, a quote opens a string that is never closed. -/
theorem front_open {body : List Char} (h : '"' ∉ body) :
    front '"' body = .error .unterminatedString := by
  rw [front_quote, List.takeWhile_eq_self_iff.2 (ne_of_not_mem h), if_neg (Nat.lt_irrefl _)]

def quoted (content : String) : Piece :=
  ⟨'"', content.toList ++ ['"'], .lexeme .string (.string content)⟩

theorem front_quoted {content : String} (h : '"' ∉ content.toList) (rest : List Char) :
    front '"' ((quoted content).more ++ rest) = .ok (quoted content) := by
  have htake : (content.toList ++ '"' :: rest).takeWhile (· != '"') = content.toList := by
    rw [List.takeWhile_append_of_pos (ne_of_not_mem h), List.takeWhile_cons_of_neg (by simp),
      List.append_nil]
  rw [quoted, List.append_assoc, List.singleton_append, front_quote, htake, if_pos (by simp),
    String.ofList_toList]

theorem pieces_print (rest : List Char) :
    pieces ("print \"".toList ++ rest) =
      (printWord :: space :: (pieces ('"' :: rest)).1, (pieces ('"' :: rest)).2) := by
  have hword : front 'p' (printWord.more ++ " \"".toList ++ rest) = .ok printWord :=
    front_letter (by decide) _
  have hspace := pieces_text_append space ('"' :: rest) (front_space (by decide) _)
  have hprint := pieces_text_append printWord (space.text ++ '"' :: rest) hword
  rw [hspace] at hprint
  exact hprint

/-- How the text with a whole string is cut. -/
theorem pieces_printing {content : String} (h : '"' ∉ content.toList) :
    pieces (printing content).toList =
      ([printWord, space, quoted content, semicolon], .complete) := by
  have hend : pieces (semicolon.text ++ []) = ([semicolon], .complete) := by
    rw [pieces_text_append semicolon [] (front_single rfl _), pieces]
  have hquoted := pieces_text_append (quoted content) (semicolon.text ++ [])
    (front_quoted h _)
  rw [hend] at hquoted
  have htext : '"' :: (content.toList ++ ['"', ';']) =
      (quoted content).text ++ (semicolon.text ++ []) := by
    simp [quoted, semicolon, Piece.text]
  rw [toList_printing, List.append_assoc, pieces_print, htext, hquoted]

end Lexical

open Lexical

/-- A string that is open goes on. -/
theorem continues_of_open {content : String} (h : '"' ∉ content.toList) :
    continues ("print \"" ++ content) = true := by
  have hpieces : Scan.pieces ("print \"" ++ content).toList =
      ([printWord, space], .stuck .unterminatedString ('"' :: content.toList)) := by
    rw [String.toList_append, pieces_print, Scan.pieces, front_open h]
  unfold continues scan scanChars
  rw [hpieces]
  rfl

theorem scan_printing {content : String} (h : '"' ∉ content.toList) (line : Int) :
    ∃ tokens, scan (printing content) line = .ok tokens ∧ braceDepth tokens = 0 ∧
      parse tokens = ⟨[.print (.literal (.string content))], []⟩ := by
  unfold scan scanChars
  rw [pieces_printing h]
  exact ⟨_, rfl, rfl, rfl⟩

theorem continues_printing {content : String} (h : '"' ∉ content.toList) :
    continues (printing content) = false := by
  obtain ⟨tokens, hscan, hdepth, -⟩ := scan_printing h 1
  rw [continues, hscan]
  dsimp only
  rw [hdepth]
  rfl

theorem Machine.run_printing (m : Machine) (limits : Limits) (hfuel : 2 ≤ limits.fuel)
    (hframes : 2 ≤ limits.calls.frames) (content : String) :
    m.run limits [.print (.literal (.string content))] =
      (none, { m with printed := m.printed.push content }) := by
  obtain ⟨fuel, room⟩ := limits
  obtain ⟨fuel, rfl⟩ := Nat.exists_eq_add_of_le' hfuel
  have hliteral : Run.evaluate (fuel + 1) ⟨room.depth, room.frames - 1⟩ (.literal (.string content))
      m = .ok (.string content) m :=
    Run.evaluate_literal (Nat.lt_sub_of_add_lt hframes) (.string content) m
  have hprint : Run.execute (fuel + 2) room (.print (.literal (.string content))) m =
      .ok .normal { m with printed := m.printed.push content } := by
    rw [Run.execute, Run.inFrames_of_le (Nat.le_of_succ_le hframes)]
    exact Step.bind_of_ok hliteral _
  have hprogram := Step.bind_of_ok hprint fun _ => Run.executeProgram (fuel + 2) room []
  rw [run, Run.executeProgram, hprogram]
  rfl

/-- A session that has nothing to run, and shows nothing of what it runs but what that prints. -/
structure Session.Plain (s : Session) : Prop where
  queue : s.queue = []
  printed : s.machine.printed = #[]
  host : s.toHost = {}
  tokens : s.showTokens = false
  trees : s.showTrees = false

/-- Such a session runs the program to its end, and shows the string. -/
theorem Session.Plain.exists_printing {s : Session} (h : s.Plain) {content : String}
    (hquote : '"' ∉ content.toList) (line : Int) :
    ∃ tokens, s.Accepts (printing content) line tokens ∧
      (s.machine.run s.limits (parse tokens).statements).1 = none ∧
      (s.accepting (printing content) line tokens).ran.log.toList =
        s.log.toList ++ [.output content] := by
  obtain ⟨tokens, hscan, -, hparse⟩ := scan_printing hquote line
  have hrun := s.machine.run_printing s.limits (by rw [h.host]; decide)
    (by rw [h.host]; decide) content
  have hran := run_accepting h.queue (printing content) line tokens
  refine ⟨tokens, ⟨hscan, by rw [hparse], by rw [h.host], by simp [ListsAll, h.trees]⟩,
    by rw [hparse, hrun], ?_⟩
  rw [toList_log_ran, hran, toList_log_accepting, hparse, hrun, h.printed, tokenDump, treeDump,
    h.tokens, h.trees]
  simp

/-- A program that prints a string, run from a file. -/
theorem Options.ends_printing {content path : String} (hquote : '"' ∉ content.toList)
    (hreturn : '\r' ∉ content.toList) (hpath : path ≠ typed)
    (hopens : path.contains '\x00' = false) (clock : Nat → Float) :
    ∃ machine, Options.Ends { file := some path } {} clock (some (printing content)) 0
      [.output content] machine := by
  let o : Options := { file := some path }
  have hs := Options.ofFile_session (o := o) rfl hpath clock {}
  have hplain : (o.session clock).Plain := ⟨rfl, rfl, rfl, rfl, rfl⟩
  obtain ⟨tokens, haccepts, hdone, hlog⟩ := hplain.exists_printing hquote 1
  have hreads : readable? path (some (printing content)) = some (printing content) :=
    readable?_of_not_mem hopens (by simp [toList_printing, hreturn])
  exact ⟨_, _, hs.runFile_of_done hreads haccepts hdone, hlog, rfl⟩

end Lox
