import Mathlib

/-!
The user shell of sh.c: `parse_line`, and `run_chain` with all that it calls up to the commands that
are run. A word keeps a mark that says whether it was quoted; sh.c forgets this and tells operators
from words by their text alone. The functions are written for any way to tell them apart, so that the
shell can be compared with one that looks at the mark. What the commands return is up to them: an
oracle gives their status, or nothing where the shell does not go on.
-/

namespace Tach.Shell

abbrev Text := List UInt8

def text (s : String) : Text := s.toList.map fun c => UInt8.ofNat c.toNat

/-- A word of the line; `quoted` if it begins with a quote or a backslash. -/
structure Word where
  text : Text
  quoted : Bool
  deriving DecidableEq

def isBlank (c : UInt8) : Bool := c = 32 ∨ c = 9

def isQuote (c : UInt8) : Bool := c = 39 ∨ c = 34

/-- The inner loop of `parse_line`: the characters of a word, and the line behind it. The word is
written over the part of the line that was read. -/
def readWord (quote : Option UInt8) : Text → Text × Text
  | [] => ([], [])
  | c :: rest =>
    if quote = some c then ([], rest)
    else if quote = none ∧ isBlank c then ([], c :: rest)
    else if c = 92 then
      match rest with
      | [] => ([c], [])
      | d :: rest => (d :: (readWord quote rest).1, (readWord quote rest).2)
    else (c :: (readWord quote rest).1, (readWord quote rest).2)

/-- The loop of `parse_line`, for at most so many words. -/
def parseWords : ℕ → Text → List Word
  | 0, _ => []
  | n + 1, line =>
    match line.dropWhile isBlank with
    | [] => []
    | c :: rest =>
      if isQuote c then ⟨(readWord (some c) rest).1, true⟩ :: parseWords n (readWord (some c) rest).2
      else
        ⟨(readWord none (c :: rest)).1, c = 92 ∧ rest ≠ []⟩ ::
          parseWords n (readWord none (c :: rest)).2

/-- `ARGV_MAX`; one of them is for the `NULL` at the end. -/
def argvMax : ℕ := 32

def parseLine (line : Text) : List Word := parseWords (argvMax - 1) line

def lineWords (line : Text) : List Word := parseWords (line.length + argvMax) line

inductive Symbol
  | semi
  | and
  | or
  | pipe
  | input
  | output
  | append
  | status
  | word
  deriving DecidableEq

/-- The comparisons of `run_chain`, `run_line`, `extract_redirects` and `expand_status_words`. -/
def symbolOf (t : Text) : Symbol :=
  if t = text ";" then .semi
  else if t = text "&&" then .and
  else if t = text "||" then .or
  else if t = text "|" then .pipe
  else if t = text "<" then .input
  else if t = text ">" then .output
  else if t = text ">>" then .append
  else if t = text "$?" then .status
  else .word

def byText (w : Word) : Symbol := symbolOf w.text

/-- A shell in which a word that is quoted is nothing but a word. -/
def byMark (w : Word) : Symbol := if w.quoted then .word else symbolOf w.text

/-- The texts that are taken for something else. -/
def operators : List Text :=
  [text ";", text "&&", text "||", text "|", text "<", text ">", text ">>", text "$?"]

section Commands

/-- A command with its arguments and its redirections; the mark says whether the output is appended. -/
structure Command where
  argv : List Word
  input : Option Word
  output : Option (Word × Bool)
  deriving DecidableEq

def Symbol.isRedirect (symbol : Symbol) : Bool :=
  symbol = .input ∨ symbol = .output ∨ symbol = .append

def redirect (symbol : Symbol) (file : Word) (files : Option Word × Option (Word × Bool)) :
    Option Word × Option (Word × Bool) :=
  if symbol = .input then (some file, files.2) else (files.1, some (file, symbol = .append))

variable (look : Word → Symbol)

/-- The loop of `extract_redirects`, or the message of an error. -/
def extractRedirects (kept : List Word) (files : Option Word × Option (Word × Bool)) :
    List Word → Except Text Command
  | [] =>
    if kept = [] then .error (text "sh: syntax error: missing command\n")
    else .ok ⟨kept, files.1, files.2⟩
  | w :: rest =>
    if (look w).isRedirect then
      match rest with
      | [] => .error (text "sh: syntax error near redirection\n")
      | file :: rest => extractRedirects kept (redirect (look w) file files) rest
    else extractRedirects (kept ++ [w]) files rest

def stagesMax : ℕ := 4

def closeStage (stages : List (List Word)) (current : List Word) : Except Text (List (List Word)) :=
  if current = [] then .error (text "sh: syntax error near '|'\n")
  else if stages.length = stagesMax then .error (text "sh: too many pipeline stages\n")
  else .ok (stages ++ [current])

/-- The first loop of `run_line`. -/
def splitStages (stages : List (List Word)) (current : List Word) :
    List Word → Except Text (List (List Word))
  | [] => closeStage stages current
  | w :: rest =>
    if look w = .pipe then
      match closeStage stages current with
      | .error message => .error message
      | .ok stages => splitStages stages [] rest
    else splitStages stages (current ++ [w]) rest

/-- The commands of the stages; `run_simple` has only one. -/
def stageCommands : List (List Word) → Except Text (List Command)
  | [] => .ok []
  | stage :: rest =>
    match extractRedirects look [] (none, none) stage, stageCommands rest with
    | .error message, _ => .error message
    | .ok _, .error message => .error message
    | .ok command, .ok commands => .ok (command :: commands)

/-- The digits of a number, at most 12 of them. -/
def digits : ℕ → ℕ → Text
  | 0, _ => []
  | n + 1, value =>
    (if value / 10 = 0 then [] else digits n (value / 10)) ++ [UInt8.ofNat (48 + value % 10)]

def statusText (status : Int) : Text :=
  (if status < 0 then text "-" else []) ++ digits 12 status.natAbs

/-- `expand_status_words`. -/
def expandStatus (status : Int) (words : List Word) : List Word :=
  words.map fun w => if look w = .status then ⟨statusText status, false⟩ else w

/-- `run_line` up to the start of the commands. -/
def lineCommands (words : List Word) : Except Text (List Command) :=
  match splitStages look [] [] words with
  | .error message => .error message
  | .ok stages => stageCommands look stages

end Commands

section Chains

/-- What the shell does: it prints a message, or runs the commands of a pipeline. -/
inductive Event
  | message (message : Text)
  | ran (commands : List Command)
  deriving DecidableEq

/-- The status of the commands that were run last, unless the shell is left. -/
abbrev Oracle := List Event → Option Int

variable (look : Word → Symbol) (oracle : Oracle)

/-- The words between two operators are run; the value is what happened so far and the status. -/
def runSegment (history : List Event) (status : Int) (words : List Word) :
    List Event × Option Int :=
  match lineCommands look (expandStatus look status words) with
  | .error message => (history ++ [.message message], some 2)
  | .ok commands => (history ++ [.ran commands], oracle (history ++ [.ran commands]))

/-- Whether the next commands are run, behind `;`, `&&` or `||`. -/
def runsNext (symbol : Symbol) (status : Int) : Bool :=
  match symbol with
  | .and => status = 0
  | .or => status ≠ 0
  | _ => true

/-- The loop of `run_chain`; `current` are the words from `start` on. -/
def runChain (history : List Event) (status : Int) (run : Bool) (current : List Word) :
    List Word → List Event × Option Int
  | [] =>
    if current ≠ [] ∧ run then runSegment look oracle history status current
    else (history, some status)
  | w :: rest =>
    if look w = .semi ∨ look w = .and ∨ look w = .or then
      if current = [] then
        (history ++ [.message (text "sh: syntax error near operator\n")], some 2)
      else
        match if run then runSegment look oracle history status current else (history, some status) with
        | (history, none) => (history, none)
        | (history, some status) => runChain history status (runsNext (look w) status) [] rest
    else runChain history status run (current ++ [w]) rest

/-- What a line makes the shell do, with the last status at the beginning. -/
def runLine (status : Int) (words : List Word) : List Event × Option Int :=
  runChain look oracle [] status true [] words

/-- A round of `main` with this line. -/
def shell (status : Int) (line : Text) : List Event × Option Int :=
  runLine byText oracle status (parseLine line)

def markingShell (status : Int) (line : Text) : List Event × Option Int :=
  runLine byMark oracle status (lineWords line)

end Chains

end Tach.Shell
