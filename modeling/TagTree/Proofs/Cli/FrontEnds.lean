import TagTree.Proofs.Cli.Answers
import TagTree.Proofs.Document.Messages

/-!
# One verdict at every front end

The command line has two commands that read a document, and the host language has two functions
that do. Each of them makes its own answer of the verdict on the text, but there is one verdict
for all (`front_ends_agree`): they accept the same texts, and what the command line writes to its
error stream is put together from the message, the line and the column that the host language is
told. These numbers are words of 32 bits there, which is enough for any text that is itself
shorter than such a word can say.
-/

set_option autoImplicit false

namespace TagTree

/-- Whether a text is a document, within a limit of 32 bits or without one. -/
def IsDocument (source : String) (maxDepth : Option UInt32) : Prop :=
  ∃ root, Document.parse (maxDepth.map UInt32.toNat) source = .accepted root

/-- The text is no document, and a front end says so by a message and a place. -/
theorem rejected_of_not_isDocument {source : String} {maxDepth : Option UInt32}
    (h : ¬ IsDocument source maxDepth) :
    ∃ why, Document.parse (maxDepth.map UInt32.toNat) source = .rejected why := by
  rcases Document.accepted_or_rejected (maxDepth.map UInt32.toNat) source with
    haccepted | ⟨why, hrejected, -⟩
  · exact absurd haccepted h
  · exact ⟨why, hrejected⟩

/-! ## The host language -/

namespace Host

variable {source : String} {maxDepth : Option UInt32}

theorem check_of_accepted {root : Element}
    (h : Document.parse (maxDepth.map UInt32.toNat) source = .accepted root) :
    check source maxDepth = .ok .ok := by
  rw [check, read, h]

theorem parse_of_accepted {root : Element}
    (h : Document.parse (maxDepth.map UInt32.toNat) source = .accepted root) :
    parse source maxDepth = .ok root.toJson := by
  rw [parse, read, h]

theorem check_of_rejected {why : Rejection}
    (h : Document.parse (maxDepth.map UInt32.toNat) source = .rejected why) :
    check source maxDepth =
      .ok (.notOk why.cause.message why.position.line.toUInt32 why.position.column.toUInt32) := by
  rw [check, read, h]

theorem parse_of_rejected {why : Rejection}
    (h : Document.parse (maxDepth.map UInt32.toNat) source = .rejected why) :
    parse source maxDepth = .error why.message := by
  rw [parse, read, h]

end Host

/-! ## The command line -/

namespace Cli

/-- The plain command lines that ask for the verdict on standard input: to check the text, or to
print it in some format. -/
inductive Asks (maxDepth : Option Nat) : List String → Prop where
  | check : Asks maxDepth (checkLine maxDepth)
  | parse (format : Format) : Asks maxDepth (parseLine format maxDepth)

variable {env : Environment} {source : String} {maxDepth : Option Nat} {arguments : List String}

theorem exit_of_accepted {root : Element} (hasks : Asks maxDepth arguments)
    (hlimit : ∀ limit ∈ maxDepth, limit < UInt64.size)
    (haccepted : Document.parse maxDepth source = .accepted root) :
    (respond (env.withInput source) arguments).exit = 0 := by
  have htext := env.text_withInput source
  cases hasks with
  | check => rw [respond_checkLine, if_pos hlimit, withDocument_of_accepted htext haccepted]
  | parse format => rw [respond_parseLine_of_accepted hlimit htext haccepted]

theorem respond_of_rejected {why : Rejection} (hasks : Asks maxDepth arguments)
    (hlimit : ∀ limit ∈ maxDepth, limit < UInt64.size)
    (hrejected : Document.parse maxDepth source = .rejected why) :
    respond (env.withInput source) arguments =
      ⟨1, "", readingLog (threshold env.logLevel false) maxDepth source ++ [why.message]⟩ := by
  have htext := env.text_withInput source
  cases hasks with
  | check =>
      rw [respond_checkLine, if_pos hlimit]
      exact withDocument_of_rejected htext hrejected
  | parse format =>
      rw [respond_parseLine, if_pos hlimit]
      exact withDocument_of_rejected htext hrejected

/-- Where the log shows no debug entries, a rejection is the one line on the error stream. -/
theorem errorLines_of_rejected {why : Rejection}
    (hquiet : (threshold env.logLevel false).shows .debug = false)
    (hrejected : Document.parse maxDepth source = .rejected why) :
    Response.errorLines
      ⟨1, "", readingLog (threshold env.logLevel false) maxDepth source ++ [why.message]⟩ =
        [why.message] := by
  have hstderr : Response.stderr
      ⟨1, "", readingLog (threshold env.logLevel false) maxDepth source ++ [why.message]⟩ =
        why.message ++ "\n" := by
    rw [readingLog, logLines_eq_nil hquiet, List.nil_append, Response.stderr, List.map_singleton,
      String.join_cons, String.join_nil, String.append_empty]
  rw [Response.errorLines, hstderr]
  exact textLines_of_isOneLine (Document.isOneLine_message hrejected)

end Cli

open Cli

/-- **All front ends give one verdict, and the same error.** For a text of fewer bytes than the
greatest word of 32 bits, 2^32 - 1, and a limit below 2^32, or none: the program exits with 0 when
it is asked to check the text or to print it in some format, the host language is told that it is a
document, and is given its tree, each of these exactly if the text is a document. Otherwise the host
language is told a message, a line and a column, and these are the rejection's, for neither number
is cut off. Put together they are what is thrown in the stead of a tree, and, unless the log shows
debug entries, the one line that the program writes; it exits with 1 and prints nothing. -/
theorem front_ends_agree (env : Environment) (source : String) (maxDepth : Option UInt32)
    (hsize : source.utf8ByteSize < UInt32.size - 1) :
    (∀ arguments, Asks (maxDepth.map UInt32.toNat) arguments →
      ((respond (env.withInput source) arguments).exit = 0 ↔ IsDocument source maxDepth)) ∧
    (Host.check source maxDepth = .ok .ok ↔ IsDocument source maxDepth) ∧
    ((∃ value, Host.parse source maxDepth = .ok value) ↔ IsDocument source maxDepth) ∧
    (¬ IsDocument source maxDepth → ∃ why message line column text,
      Document.parse (maxDepth.map UInt32.toNat) source = .rejected why ∧
      Host.check source maxDepth = .ok (.notOk message line column) ∧
      message = why.cause.message ∧ line.toNat = why.position.line ∧
      column.toNat = why.position.column ∧
      text = "Parse error at line " ++ toString line.toNat ++ ", column "
        ++ toString column.toNat ++ ": " ++ message ∧
      Host.parse source maxDepth = .error text ∧
      ∀ arguments, Asks (maxDepth.map UInt32.toNat) arguments →
        (respond (env.withInput source) arguments).exit = 1 ∧
        (respond (env.withInput source) arguments).stdout = "" ∧
        ((threshold env.logLevel false).shows .debug = false →
          (respond (env.withInput source) arguments).errorLines = [text])) := by
  have hlimit : ∀ limit ∈ maxDepth.map UInt32.toNat, limit < UInt64.size := by
    intro limit hmem
    obtain ⟨word, -, rfl⟩ := Option.map_eq_some_iff.1 hmem
    exact word.toNat_lt.trans (by decide)
  by_cases hdocument : IsDocument source maxDepth
  · obtain ⟨root, haccepted⟩ := hdocument
    have hiff (p : Prop) (hp : p) : p ↔ IsDocument source maxDepth :=
      ⟨fun _ => ⟨root, haccepted⟩, fun _ => hp⟩
    exact ⟨fun arguments hasks => hiff _ (exit_of_accepted hasks hlimit haccepted),
      hiff _ (Host.check_of_accepted haccepted),
      hiff _ ⟨_, Host.parse_of_accepted haccepted⟩, fun hnot => absurd ⟨root, haccepted⟩ hnot⟩
  · obtain ⟨why, hrejected⟩ := rejected_of_not_isDocument hdocument
    have hcheck := Host.check_of_rejected hrejected
    have hparse := Host.parse_of_rejected hrejected
    have hanswer {arguments : List String} (hasks : Asks (maxDepth.map UInt32.toNat) arguments) :=
      @respond_of_rejected env _ _ _ _ hasks hlimit hrejected
    have hiff (p : Prop) (hp : ¬ p) : p ↔ IsDocument source maxDepth :=
      ⟨fun h => absurd h hp, fun h => absurd h hdocument⟩
    have hword {n : Nat} (hn : n ≤ source.utf8ByteSize + 1) : n.toUInt32.toNat = n := by
      have hlt : n < UInt32.size := by omega
      exact Nat.mod_eq_of_lt hlt
    obtain ⟨hline, hcolumn⟩ := Document.position_le hrejected
    refine ⟨fun arguments hasks => hiff _ ?_, hiff _ ?_, hiff _ ?_, fun _ => ?_⟩
    · rw [hanswer hasks]
      exact Nat.one_ne_zero
    · rw [hcheck]
      nofun
    · rw [hparse]
      rintro ⟨value, ⟨⟩⟩
    · refine ⟨why, _, _, _, _, hrejected, hcheck, rfl, hword hline, hword hcolumn, rfl, ?_, ?_⟩
      · rw [hword hline, hword hcolumn]
        exact hparse
      · intro arguments hasks
        rw [hanswer hasks, hword hline, hword hcolumn]
        exact ⟨rfl, rfl, fun hquiet => errorLines_of_rejected hquiet hrejected⟩

/-- A wrong closing tag on the second line, where a value has a line feed in it. -/
theorem front_ends_agree_mismatch :
    "<a x=\"\n\"></b>".utf8ByteSize < UInt32.size - 1 ∧
    Host.check "<a x=\"\n\"></b>" (some 7) =
      .ok (.notOk "closing tag `b` does not match opening tag `a`" 2 3) ∧
    (respond (piped "<a x=\"\n\"></b>") ["check", "-", "--max-depth", "7"]).errorLines =
      ["Parse error at line 2, column 3: closing tag `b` does not match opening tag `a`"] := by
  have hsize : "<a x=\"\n\"></b>".utf8ByteSize < UInt32.size - 1 := by decide +kernel
  have hchecked : Host.check "<a x=\"\n\"></b>" (some 7) =
      .ok (.notOk "closing tag `b` does not match opening tag `a`" 2 3) := by decide +kernel
  obtain ⟨-, hdocument, -, hrejected⟩ := front_ends_agree (piped "") _ (some 7) hsize
  have hnot : ¬ IsDocument "<a x=\"\n\"></b>" (some 7) := by
    rw [← hdocument, hchecked]
    nofun
  obtain ⟨why, message, line, column, text, -, hcheck, -, -, -, htext, -, hanswer⟩ :=
    hrejected hnot
  rw [hchecked] at hcheck
  cases hcheck
  have hline := (hanswer _ .check).2.2 (by decide +kernel)
  rw [htext] at hline
  exact ⟨hsize, hchecked, hline⟩

end TagTree
