import Mathlib.Data.List.TakeWhile
import TagTree.Proofs.Cli.TreeLines
import TagTree.Proofs.Document.Boundaries

/-!
# Answers to plain command lines

How the two commands are asked for a text on standard input, and what they answer. The plain
command lines `parseLine` and `checkLine` spell every option out; a limit is written in decimal
digits, and read back from them (`count?_toString`). What a command answers is told by the verdict
on its text: `withDocument_of_accepted` and `withDocument_of_rejected` say all that there is to an
answer, so nothing behind them looks into a command again. Log lines are shown only from the level
of debug entries on (`logLines_eq_nil`).
-/

set_option autoImplicit false

namespace TagTree.Cli

/-! ## Command lines -/

/-- The name by which a format is asked for. -/
def Format.name : Format → String
  | tree => "tree"
  | markup => "markup"
  | json => "json"

theorem Format.ofName?_name (format : Format) : ofName? format.name = some format := by
  cases format <;> rfl

/-- The arguments that give a limit on nesting. -/
def limitArguments : Option Nat → List String
  | none => []
  | some limit => ["--max-depth", toString limit]

/-- The command line that has the text on standard input printed in a format. -/
def parseLine (format : Format) (maxDepth : Option Nat) : List String :=
  "parse" :: "-" :: "--format" :: format.name :: limitArguments maxDepth

/-- The command line that has the text on standard input checked. -/
def checkLine (maxDepth : Option Nat) : List String :=
  "check" :: "-" :: limitArguments maxDepth

/-- The decimal digits of a number count that number, if it is a word of 64 bits. -/
theorem count?_toString (n : Nat) :
    count? (toString n) = if n < UInt64.size then some n else none := by
  have htext : (toString n).toList = Nat.toDigits 10 n := Nat.toList_repr
  have hne : Nat.toDigits 10 n ≠ [] := Nat.toDigits_ne_nil
  have hdigits : ∀ c ∈ Nat.toDigits 10 n, c.isDigit = true := fun c hc =>
    Nat.isDigit_of_mem_toDigits (by decide) (by decide) hc
  have hvalue : (Nat.toDigits 10 n).foldl (fun m c => 10 * m + (c.toNat - '0'.toNat)) 0 = n := by
    rw [← Nat.ofDigitChars_eq_foldl]
    exact Nat.ofDigitChars_toDigits (by decide) (by decide)
  unfold count?
  rw [htext]
  split
  · -- a sign in front would be one of the digits
    rename_i rest hsign
    cases hdigits '+' (hsign ▸ List.mem_cons_self)
  · simp only [hvalue, List.all_eq_true.2 hdigits, ne_eq, hne, not_false_eq_true, true_and]

/-- A long option takes the argument behind it as its value. -/
theorem Setting.list?_long {command : Command} {name value : String} {rest : List String}
    (hempty : name ≠ "") (hswitch : name ≠ "verbose") (hsign : '=' ∉ name.toList) :
    list? command (("--" ++ name) :: value :: rest) = do
      let setting ← long? command name value
      let settings ← list? command rest
      return setting :: settings := by
  have hkept : ∀ c ∈ name.toList, (c != '=') = true := by
    intro c hc
    exact bne_iff_ne.2 fun h => hsign (h ▸ hc)
  have htext : ("--" ++ name).toList = '-' :: '-' :: name.toList := String.toList_append
  have htake : name.toList.takeWhile (· != '=') = name.toList :=
    List.takeWhile_eq_self_iff.2 hkept
  have hdrop : name.toList.dropWhile (· != '=') = [] := List.dropWhile_eq_nil_iff.2 hkept
  obtain ⟨c, cs, hcs⟩ := List.exists_cons_of_ne_nil fun h => hempty (String.toList_eq_nil_iff.1 h)
  rw [list?, htext]
  rw [hcs] at htake hdrop ⊢
  simp only [htake, hdrop]
  rw [← hcs, String.ofList_toList, if_neg hswitch]

/-- A hyphen alone is a path. -/
theorem Setting.list?_stdin (command : Command) (rest : List String) :
    list? command ("-" :: rest) = (list? command rest).map (.path "-" :: ·) := by
  have htext : "-".toList = ['-'] := by decide
  rw [list?, htext]
  rfl

theorem Setting.list?_limitArguments (command : Command) (maxDepth : Option Nat) :
    list? command (limitArguments maxDepth) =
      some (maxDepth.map fun limit => Setting.maxDepth (toString limit)).toList := by
  cases maxDepth with
  | none => rfl
  | some limit =>
      have hlong := @list?_long command "max-depth" (toString limit) [] (by decide) (by decide)
        (by decide)
      refine hlong.trans ?_
      cases command <;> rfl

/-- A limit is added to a draft that has none yet, unless it is no word of 64 bits. -/
theorem Draft.add_limit (d : Draft) (hd : d.maxDepth = none) (maxDepth : Option Nat) :
    (maxDepth.map fun limit => Setting.maxDepth (toString limit)).toList.foldlM add d =
      if ∀ limit ∈ maxDepth, limit < UInt64.size then some { d with maxDepth } else none := by
  cases maxDepth with
  | none =>
      cases d
      cases hd
      rw [if_pos nofun]
      rfl
  | some limit =>
      have hadd : add d (.maxDepth (toString limit)) =
          (count? (toString limit)).map fun limit => { d with maxDepth := some limit } := by
        rw [add, hd]
        rfl
      simp only [Option.map_some, Option.toList_some, List.foldlM_cons, List.foldlM_nil, hadd,
        count?_toString, Option.mem_some_iff, forall_eq']
      split <;> rfl

namespace Invocation

/-- The settings behind the name of a command are those of the command. -/
theorem ofArguments?_command {name : String} {command : Command} (rest : List String)
    (h : Command.ofName? name = some command) :
    ofArguments? (name :: rest) = (Setting.list? command rest).bind fun settings =>
      (settings.foldlM Draft.add {}).bind (·.invocation? command false) := by
  unfold Command.ofName? at h
  split at h <;> cases h <;> rfl

/-- What a plain command line asks for; a limit that is no word of 64 bits makes it unusable. -/
theorem ofArguments?_parseLine (format : Format) (maxDepth : Option Nat) :
    ofArguments? (parseLine format maxDepth) =
      if ∀ limit ∈ maxDepth, limit < UInt64.size then some (parse "-" format maxDepth false)
      else none := by
  have hformat := @Setting.list?_long .parse "format" format.name (limitArguments maxDepth)
    (by decide) (by decide) (by decide)
  have hadd : Draft.add { path := some "-" } (.format format.name) =
      some { format := some format, path := some "-" } := by
    rw [Draft.add, Format.ofName?_name]
    rfl
  have hsettings : Setting.list? .parse ("-" :: "--format" :: format.name ::
      limitArguments maxDepth) = some (.path "-" :: .format format.name ::
        (maxDepth.map fun limit => Setting.maxDepth (toString limit)).toList) := by
    rw [Setting.list?_stdin]
    refine (congrArg _ hformat).trans ?_
    rw [Setting.list?_limitArguments]
    rfl
  have hdraft := Draft.add_limit { format := some format, path := some "-" } rfl maxDepth
  rw [parseLine, ofArguments?_command _ rfl, hsettings, Option.bind_some, List.foldlM_cons]
  show ((Draft.add { path := some "-" } _).bind _).bind _ = _
  rw [hadd, Option.bind_some, hdraft]
  split <;> rfl

theorem ofArguments?_checkLine (maxDepth : Option Nat) :
    ofArguments? (checkLine maxDepth) =
      if ∀ limit ∈ maxDepth, limit < UInt64.size then some (check "-" maxDepth false)
      else none := by
  have hdraft := Draft.add_limit { path := some "-" } rfl maxDepth
  rw [checkLine, ofArguments?_command _ rfl, Setting.list?_stdin, Setting.list?_limitArguments,
    Option.map_some, Option.bind_some, List.foldlM_cons]
  show (List.foldlM Draft.add { path := some "-" } _).bind _ = _
  rw [hdraft]
  split <;> rfl

end Invocation

/-! ## Standard input -/

/-- What the program is given, with another text on its standard input. -/
def Environment.withInput (env : Environment) (text : String) : Environment :=
  { env with stdin := text.toUTF8 }

theorem Environment.text_withInput (env : Environment) (text : String) :
    (env.withInput text).text "-" = .ok text :=
  text_piped text

/-! ## The log -/

/-- A threshold that shows entries of a level shows those that are more urgent. -/
theorem shows_of_le {shown : Threshold} {level level' : LogLevel} (hle : level.rank ≤ level'.rank)
    (h : shown.shows level' = true) : shown.shows level = true := by
  cases shown with
  | none => cases h
  | some least =>
      have hleast : level'.rank ≤ least.rank := of_decide_eq_true h
      exact decide_eq_true (hle.trans hleast)

/-- Nothing is reported while a document is read that is more urgent than a debug entry. -/
theorem debug_rank_le (event : DocumentEvent) :
    LogLevel.debug.rank ≤ event.logEntry.level.rank := by
  cases event <;> simp [DocumentEvent.logEntry, LogLevel.rank]

theorem logLines_eq_nil {shown : Threshold} (h : shown.shows .debug = false)
    (events : List DocumentEvent) :
    logLines shown (events.map DocumentEvent.logEntry) = [] := by
  have hnone : ∀ entry ∈ events.map DocumentEvent.logEntry, ¬ shown.shows entry.level = true := by
    intro entry hentry hshown
    obtain ⟨event, -, rfl⟩ := List.mem_map.1 hentry
    rw [shows_of_le (debug_rank_le event) hshown] at h
    cases h
  rw [logLines, List.filter_eq_nil_iff.2 hnone, List.map_nil]

/-! ## Answers -/

section Answers

variable {env : Environment} {path source : String} {maxDepth : Option Nat} {shown : Threshold}
  {onward : Element → Response}

/-- The lines that the log shows of the reading of a text. -/
def readingLog (shown : Threshold) (maxDepth : Option Nat) (source : String) : List String :=
  logLines shown ((Document.read maxDepth source).events.map DocumentEvent.logEntry)

/-- With a document a command goes on. -/
theorem withDocument_of_accepted {root : Element} (htext : env.text path = .ok source)
    (haccepted : Document.parse maxDepth source = .accepted root) :
    withDocument env path maxDepth shown onward =
      { onward root with
        messages := readingLog shown maxDepth source ++ (onward root).messages } := by
  have hverdict : (Document.read maxDepth source).verdict = .accepted root := haccepted
  rw [withDocument, htext]
  simp only [hverdict, readingLog]

/-- With any other text it tells the rejection, and ends. -/
theorem withDocument_of_rejected {why : Rejection} (htext : env.text path = .ok source)
    (hrejected : Document.parse maxDepth source = .rejected why) :
    withDocument env path maxDepth shown onward =
      ⟨1, "", readingLog shown maxDepth source ++ [why.message]⟩ := by
  have hverdict : (Document.read maxDepth source).verdict = .rejected why := hrejected
  rw [withDocument, htext]
  simp only [hverdict, readingLog]

/-- A command that exits with 0 had a document. -/
theorem accepted_of_withDocument (h : (withDocument env path maxDepth shown onward).exit = 0) :
    ∃ source root, env.text path = .ok source ∧
      Document.parse maxDepth source = .accepted root := by
  cases htext : env.text path with
  | error message =>
      rw [withDocument, htext] at h
      cases h
  | ok source =>
      rcases Document.accepted_or_rejected maxDepth source with
        ⟨root, haccepted⟩ | ⟨why, hrejected, -⟩
      · exact ⟨source, root, rfl, haccepted⟩
      · rw [withDocument_of_rejected htext hrejected] at h
        cases h

/-- What the program answers to a plain command line. -/
theorem respond_parseLine (env : Environment) (format : Format) (maxDepth : Option Nat) :
    respond env (parseLine format maxDepth) =
      if ∀ limit ∈ maxDepth, limit < UInt64.size then
        withDocument env "-" maxDepth (threshold env.logLevel false) fun root =>
          ⟨0, format.print root, []⟩
      else usage := by
  rw [respond, Invocation.ofArguments?_parseLine]
  by_cases hlimit : ∀ limit ∈ maxDepth, limit < UInt64.size
  · rw [if_pos hlimit, if_pos hlimit]
    rfl
  · rw [if_neg hlimit, if_neg hlimit]

theorem respond_checkLine (env : Environment) (maxDepth : Option Nat) :
    respond env (checkLine maxDepth) =
      if ∀ limit ∈ maxDepth, limit < UInt64.size then
        let shown := threshold env.logLevel false
        withDocument env "-" maxDepth shown fun root =>
          ⟨0, "", logLines shown [documentOk root] ++ ["OK: -"]⟩
      else usage := by
  rw [respond, Invocation.ofArguments?_checkLine]
  by_cases hlimit : ∀ limit ∈ maxDepth, limit < UInt64.size
  · rw [if_pos hlimit, if_pos hlimit]
    rfl
  · rw [if_neg hlimit, if_neg hlimit]

/-- A document is printed, and nothing but the log is written beside it. -/
theorem respond_parseLine_of_accepted {root : Element}
    (hlimit : ∀ limit ∈ maxDepth, limit < UInt64.size) (htext : env.text "-" = .ok source)
    (haccepted : Document.parse maxDepth source = .accepted root) (format : Format) :
    respond env (parseLine format maxDepth) =
      ⟨0, format.print root, readingLog (threshold env.logLevel false) maxDepth source⟩ := by
  rw [respond_parseLine, if_pos hlimit, withDocument_of_accepted htext haccepted,
    List.append_nil]

end Answers

end TagTree.Cli
