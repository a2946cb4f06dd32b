import Tach.InitialStacks
import Tach.ProcessViews
import Tach.Shell
import Tach.Targets

/-!
From a command to its argument vector in the kernel: the commands that the shell runs as programs,
the batches of xargs.c, and `sys_execve`, which copies the vector into an array before
`process_exec_image_args` puts it on the stack page. The vectors that pass are those with fewer than
16 arguments of fewer than 128 characters; both programs build longer ones.
-/

namespace Tach.ExecArguments

open List Actions Act Vmm Processes Shell
open Ownership (ArgvFits buildStack_sets)
open Sectors (Errno)

section Kernel

/-- The rows of `argument_storage`. -/
def argumentMax : ℕ := 16

def argumentSize : ℕ := 128

/-- The loop of `sys_execve` with so many rows left. -/
def fetchArguments : ℕ → List Text → Except Errno (List Text)
  | 0, _ => .error .e2big
  | _ + 1, [] => .ok []
  | n + 1, t :: rest =>
    if argumentSize ≤ t.length then .error .enametoolong
    else
      match fetchArguments n rest with
      | .error e => .error e
      | .ok arguments => .ok (t :: arguments)

variable (A : Arch)

/-- `sys_execve` of a file that was read. -/
def sysExecve (pid : Pid) (image : Image) (name : List UInt8) (argv : List Text) : Sys Unit :=
  match fetchArguments argumentMax argv with
  | .error e => Act.fail e
  | .ok arguments =>
    processExec A pid image name (arguments.map fun t => t.map UInt8.toNat)

/-- The vector is no reason for `sys_execve` to fail: it is copied, and an image that can be executed
without arguments can be executed with these. -/
def Passes (argv : List Text) : Prop :=
  (∃ arguments, fetchArguments argumentMax argv = .ok arguments) ∧
    ∀ pid image name s, (processExec A pid image name [] s).result = .ok () →
      (sysExecve A pid image name argv s).result = .ok ()

/-- Fewer than 16 arguments of fewer than 128 characters. -/
def Short (argv : List Text) : Prop :=
  argv.length < argumentMax ∧ ∀ t ∈ argv, t.length < argumentSize

instance : DecidablePred Short := fun argv => by
  unfold Short
  infer_instance

end Kernel

local instance lawfulText : LawfulBEq Text := List.instLawfulBEq

/-- `g_builtins`. -/
def builtins : List Text :=
  [text "help", text "clear", text "echo", text "uname", text "ps", text "id", text "whoami",
    text "pid", text "pwd", text "cd", text "ls", text "cat", text "history", text "kill",
    text "touch", text "rm", text "syscalls", text "status", text "true", text "false", text "exit"]

/-- Whether the path of a command fits into 128 bytes, behind `/bin/` or alone. -/
def pathFits (command : Text) : Bool :=
  if command.head? = some 47 then command.length < 128 else command.length + 5 < 128

/-- The commands that `run_command` and `run_pipeline` give to `exec_external`. -/
def isExternal (argv : List Text) : Bool :=
  argv.head?.any fun command => command ∉ builtins ∨ command = text "cat" ∧ argv.length < 2

/-- The vectors with which a command calls `execve`. -/
def Event.vectors : Event → List (List Text)
  | .message _ => []
  | .ran commands =>
    (commands.map fun command => command.argv.map Word.text).filter fun argv =>
      isExternal argv ∧ argv.head?.any pathFits

/-- The vectors with which the commands of a line call `execve`. -/
def lineVectors (oracle : Oracle) (status : Int) (line : Text) : List (List Text) :=
  (shell oracle status line).1.flatMap Event.vectors

def argMaxCount : ℕ := 32

def tokenCap : ℕ := 2048

def isSpace (c : UInt8) : Bool := c = 32 ∨ c = 9 ∨ c = 10 ∨ c = 13 ∨ c = 12 ∨ c = 11

/-- The characters of a token that are stored behind the first `used`, and the rest of the input. -/
def readToken (quote : Option UInt8) (used : ℕ) : Text → Text × Text
  | [] => ([], [])
  | c :: rest =>
    if quote = some c then ([], rest)
    else if quote = none ∧ isSpace c then ([], c :: rest)
    else if used + 2 < tokenCap then
      (c :: (readToken quote (used + 1) rest).1, (readToken quote (used + 1) rest).2)
    else readToken quote used rest

def nextToken (used : ℕ) (c : UInt8) (rest : Text) : Text × Text :=
  if isQuote c then readToken (some c) used rest else readToken none used (c :: rest)

def cString (t : Text) : Text := t.takeWhile fun c => c ≠ 0

def lastBatch (fixed extra : List Text) : List (List Text) := if extra = [] then [] else [fixed ++ extra]

/-- The loop of `main` for at most so many tokens. -/
def xargsLoop (fixed : List Text) (batch : ℕ) : ℕ → ℕ → List Text → Text → List (List Text)
  | 0, _, extra, _ => lastBatch fixed extra
  | n + 1, used, extra, input =>
    match input.dropWhile isSpace with
    | [] => lastBatch fixed extra
    | c :: rest =>
      let r := nextToken used c rest
      let used := used + r.1.length + 1
      let extra := extra ++ [cString r.1]
      if extra.length = batch ∨ tokenCap ≤ used + 64 then
        (fixed ++ extra) :: xargsLoop fixed batch n 0 [] r.2
      else xargsLoop fixed batch n used extra r.2

/-- The vectors with which xargs calls `execve`; `n` is the number behind `-n`, or zero, and `words`
are the words behind the options. The input has no more tokens than characters. -/
def xargs (n : ℕ) (words : List Text) (input : Text) : List (List Text) :=
  let command := words.headD (text "echo")
  let fixed := (command :: words.tail).take argMaxCount
  let limit := argMaxCount - fixed.length
  if ¬pathFits command ∨ limit < 1 then []
  else xargsLoop fixed (if n = 0 ∨ limit < n then limit else n) input.length 0 [] input

section Fuel

variable {quote : Option UInt8} {used : ℕ} {c : UInt8} {rest : Text}

theorem length_readToken (quote : Option UInt8) (used : ℕ) (input : Text) :
    (readToken quote used input).2.length ≤ input.length := by
  induction input generalizing used with
  | nil => exact le_rfl
  | cons c rest ih =>
    unfold readToken
    split
    · exact Nat.le_succ _
    · split
      · exact le_rfl
      · split
        · exact (ih (used + 1)).trans (Nat.le_succ _)
        · exact (ih used).trans (Nat.le_succ _)

/-- A token takes at least one character. -/
theorem length_nextToken (used : ℕ) (rest : Text) (hc : isSpace c = false) :
    (nextToken used c rest).2.length ≤ rest.length := by
  unfold nextToken
  split
  · exact length_readToken _ _ _
  · unfold readToken
    rw [if_neg nofun, hc, if_neg fun h => Bool.false_ne_true h.2]
    split <;> exact length_readToken _ _ _

/-- With as many rounds as characters the loop reads the whole input. -/
theorem xargsLoop_enough (fixed : List Text) (batch n m used : ℕ) (extra : List Text) (input : Text)
    (hn : input.length ≤ n) (hm : input.length ≤ m) :
    xargsLoop fixed batch n used extra input = xargsLoop fixed batch m used extra input := by
  have hempty : ∀ k, xargsLoop fixed batch k used extra [] = lastBatch fixed extra := by
    intro k
    cases k <;> rfl
  induction n generalizing m used extra input with
  | zero =>
    obtain rfl : input = [] := length_eq_zero_iff.1 (by omega)
    rw [hempty, hempty]
  | succ n ih =>
    cases m with
    | zero =>
      obtain rfl : input = [] := length_eq_zero_iff.1 (by omega)
      rw [hempty, hempty]
    | succ m =>
      unfold xargsLoop
      cases hd : input.dropWhile isSpace with
      | nil => rfl
      | cons c rest =>
        have hc : isSpace c = false := by
          have hne : input.dropWhile isSpace ≠ [] := by rw [hd]; nofun
          have hhead := head_dropWhile_not isSpace hne
          simpa only [hd, head_cons] using hhead
        have hle := List.IsSuffix.length_le (dropWhile_suffix isSpace (l := input))
        rw [hd, length_cons] at hle
        have hshort := length_nextToken used rest hc
        dsimp only
        have hempty' : ∀ used extra k, xargsLoop fixed batch k used extra [] = lastBatch fixed extra := by
          intro used extra k
          cases k <;> rfl
        split
        · rw [ih m 0 [] _ (by omega) (by omega) (hempty' 0 [])]
        · exact ih m _ _ _ (by omega) (by omega) (hempty' _ _)

end Fuel

section Follows

variable {σ ε α β : Type} {m m' : Act σ ε α}

/-- Where `m` ends without an error, so does `m'`. -/
def Follows (m m' : Act σ ε α) : Prop :=
  ∀ s, (∃ a, (m s).result = .ok a) → ∃ a, (m' s).result = .ok a

theorem bind_fail_ne (m : Act σ ε α) (e : ε) (s : σ) (b : β) :
    ((m >>= fun _ => Act.fail e) s).result ≠ .ok b := by
  rcases hm : m s with ⟨r, t, k⟩
  cases r with
  | error e' =>
    rw [bind_of_error hm]
    nofun
  | ok a =>
    rw [bind_of_ok hm]
    nofun

theorem Follows.bind {f f' : α → Act σ ε β} (hf : ∀ a, Follows (f a) (f' a)) :
    Follows (m >>= f) (m >>= f') := by
  intro s ⟨b, hb⟩
  rcases hm : m s with ⟨r, t, k⟩
  cases r with
  | error e =>
    rw [bind_of_error hm] at hb
    cases hb
  | ok a =>
    rw [bind_of_ok hm] at hb ⊢
    exact hf a t ⟨b, hb⟩

/-- The rule for a part whose errors are handled by failing. -/
theorem Follows.attempt {f f' : Except ε α → Act σ ε β} (h : Follows m m')
    (herr : ∀ e s b, (f (.error e) s).result ≠ .ok b) (hok : ∀ a, Total (f' (.ok a))) :
    Follows (Act.attempt m >>= f) (Act.attempt m' >>= f') := by
  intro s ⟨b, hb⟩
  have hattempt : (Act.attempt m >>= f) s = ⟨(f (m s).result (m s).state).result,
      (f (m s).result (m s).state).state, (m s).marked || (f (m s).result (m s).state).marked⟩ := rfl
  rw [hattempt] at hb
  have hm : ∃ a, (m s).result = .ok a := by
    cases hr : (m s).result with
    | error e =>
      rw [hr] at hb
      exact absurd hb (herr e _ b)
    | ok a => exact ⟨a, rfl⟩
  obtain ⟨a, ha⟩ := h s hm
  have hattempt' : ((Act.attempt m' >>= f') s).result = (f' (m' s).result (m' s).state).result := rfl
  rw [hattempt', ha]
  exact hok a _

end Follows

section Stack

variable {A : Arch} {f : ℕ}

theorem sum_le_of_short (l : List (List ℕ)) (hshort : ∀ t ∈ l, t.length < argumentSize) :
    (l.map fun t => t.length + 1).sum ≤ l.length * argumentSize := by
  induction l with
  | nil => exact le_rfl
  | cons t rest ih =>
    rw [forall_mem_cons] at hshort
    rw [map_cons, sum_cons, length_cons, Nat.succ_mul, Nat.add_comm]
    exact Nat.add_le_add (ih hshort.2) hshort.1

/-- A short vector fits on the stack page. -/
theorem total_buildStack (hbits : A.bits ≤ 64) (argv : List (List ℕ)) (hlen : argv.length < argumentMax)
    (hshort : ∀ t ∈ argv, t.length < argumentSize) : Total (buildStack A f argv) := by
  intro s
  have hmax : argumentMax = 16 := rfl
  have hsize : argumentSize = 128 := rfl
  have hsum : (argv.map fun t => t.length + 1).sum ≤ argv.length * 128 := sum_le_of_short argv hshort
  have hpage : userStackPage + 4096 = userStackTop := by decide
  have hwords : (argv.length + 3) * (A.bits / 8) ≤ 18 * 8 :=
    Nat.mul_le_mul (by omega) (by omega)
  have hfits : ArgvFits A argv := by
    refine ⟨by omega, fun t ht => ?_, show _ ≤ 4096 by omega, by omega⟩
    have := hshort t ht
    omega
  refine (buildStack_sets argv s).mono ?_
  rintro r t ⟨-, ⟨-, hnot⟩ | ⟨sp, rfl, -⟩⟩
  · exact absurd hfits hnot
  · exact ⟨sp, rfl⟩

/-- What follows a prepared image in `process_exec_image_args` does not fail. -/
theorem follows_processExec (hbits : A.bits ≤ 64) (pid : Pid) (image : Image) (name : List UInt8)
    (argv : List (List ℕ)) (hlen : argv.length < argumentMax)
    (hshort : ∀ t ∈ argv, t.length < argumentSize) :
    Follows (processExec A pid image name []) (processExec A pid image name argv) := by
  refine Follows.bind fun p => ?_
  cases p with
  | none => exact fun s h => h
  | some p =>
    dsimp only
    by_cases himage : image = []
    · rw [if_pos himage, if_pos himage]
      exact fun s h => h
    rw [if_neg himage, if_neg himage]
    refine Follows.bind fun c => Follows.attempt ?_ (fun e s b => ?_) fun x => ?_
    · refine Follows.bind fun entry => Follows.bind fun _ => Follows.bind fun frame => ?_
      exact fun s _ => Total.bind (Total.zoom (total_buildStack hbits argv hlen hshort))
        (fun sp => Total.ret _) s
    · exact bind_fail_ne (vm (destroyContext A c)) e s b
    · exact total_replaceImage A pid p.mm c name x

end Stack

section Vectors

variable {A : Arch}

theorem fetchArguments_ok (n : ℕ) (argv : List Text) (hlen : argv.length < n)
    (hshort : ∀ t ∈ argv, t.length < argumentSize) : fetchArguments n argv = .ok argv := by
  induction n generalizing argv with
  | zero => exact absurd hlen (Nat.not_lt_zero _)
  | succ n ih =>
    cases argv with
    | nil => rfl
    | cons t rest =>
      rw [forall_mem_cons] at hshort
      rw [length_cons] at hlen
      unfold fetchArguments
      rw [if_neg (by omega), ih rest (by omega) hshort.2]

theorem short_of_fetchArguments (n : ℕ) (argv arguments : List Text)
    (h : fetchArguments n argv = .ok arguments) :
    argv.length < n ∧ ∀ t ∈ argv, t.length < argumentSize := by
  induction n generalizing argv arguments with
  | zero => cases h
  | succ n ih =>
    cases argv with
    | nil => exact ⟨Nat.succ_pos n, by simp⟩
    | cons t rest =>
      unfold fetchArguments at h
      split at h
      · cases h
      next ht =>
        cases hrest : fetchArguments n rest with
        | error e =>
          rw [hrest] at h
          cases h
        | ok l =>
          obtain ⟨hlen, hshort⟩ := ih rest l hrest
          exact ⟨Nat.succ_lt_succ hlen, forall_mem_cons.2 ⟨by omega, hshort⟩⟩

theorem passes_iff (hbits : A.bits ≤ 64) (argv : List Text) : Passes A argv ↔ Short argv := by
  constructor
  · rintro ⟨⟨arguments, h⟩, -⟩
    exact short_of_fetchArguments _ _ _ h
  · rintro ⟨hlen, hshort⟩
    have hfetch := fetchArguments_ok _ _ hlen hshort
    refine ⟨⟨argv, hfetch⟩, fun pid image name s h => ?_⟩
    unfold sysExecve
    rw [hfetch]
    refine (follows_processExec hbits pid image name _ ?_ ?_ s ⟨(), h⟩).elim fun _ h => h
    · rwa [length_map]
    · intro t ht
      obtain ⟨u, hu, rfl⟩ := mem_map.1 ht
      rw [length_map]
      exact hshort u hu

/-- What the shell runs for a line, and what xargs runs for its input, passes exactly if all of its
vectors are short. -/
theorem vectors_pass_iff (A : Arch) (hbits : A.bits ≤ 64) :
    (∀ oracle status line, (∀ argv ∈ lineVectors oracle status line, Passes A argv) ↔
      ∀ argv ∈ lineVectors oracle status line, Short argv) ∧
    ∀ n words input, (∀ argv ∈ xargs n words input, Passes A argv) ↔
      ∀ argv ∈ xargs n words input, Short argv :=
  ⟨fun _ _ _ => forall₂_congr fun argv _ => passes_iff hbits argv,
    fun _ _ _ => forall₂_congr fun argv _ => passes_iff hbits argv⟩

/-- Three words, and three words of input. -/
theorem vectors_pass_three :
    (∀ argv ∈ lineVectors (fun _ => some 0) 0 (text "wc -l /a"), Passes x86 argv) ∧
      ∀ argv ∈ xargs 0 [text "wc"] (text "a 'b c' d"), Passes x86 argv :=
  ⟨((vectors_pass_iff x86 (by decide)).1 _ _ _).2 (by decide +kernel),
    ((vectors_pass_iff x86 (by decide)).2 _ _ _).2 (by decide +kernel)⟩

theorem sysExecve_error (A : Arch) {argv : List Text} {e : Errno} (h : fetchArguments argumentMax argv = .error e)
    (pid : Pid) (image : Image) (name : List UInt8) (s : System) :
    (sysExecve A pid image name argv s).result = .error e := by
  unfold sysExecve
  rw [h]
  rfl

def sixteen : Text := text "a b c d e f g h i j k l m n o p"

/-- A line of 16 words, an argument of 128 characters, and an input of 16 words for xargs. -/
theorem vectors_refused : (∃ argv ∈ lineVectors (fun _ => some 0) 0 sixteen, ∀ A pid image name s,
      (sysExecve A pid image name argv s).result = .error .e2big) ∧
    (∃ argv ∈ lineVectors (fun _ => some 0) 0 (text "a " ++ List.replicate 128 97),
      ∀ A pid image name s, (sysExecve A pid image name argv s).result = .error .enametoolong) ∧
    ∃ argv ∈ xargs 0 [] sixteen, ∀ A pid image name s,
      (sysExecve A pid image name argv s).result = .error .e2big := by
  have hline : ∃ argv ∈ lineVectors (fun _ => some 0) 0 sixteen,
      fetchArguments argumentMax argv = .error .e2big := by decide +kernel
  have hlong : ∃ argv ∈ lineVectors (fun _ => some 0) 0 (text "a " ++ List.replicate 128 97),
      fetchArguments argumentMax argv = .error .enametoolong := by decide +kernel
  have hinput : ∃ argv ∈ xargs 0 [] sixteen,
      fetchArguments argumentMax argv = .error .e2big := by decide +kernel
  refine ⟨?_, ?_, ?_⟩
  · obtain ⟨argv, hmem, h⟩ := hline
    exact ⟨argv, hmem, fun A => sysExecve_error A h⟩
  · obtain ⟨argv, hmem, h⟩ := hlong
    exact ⟨argv, hmem, fun A => sysExecve_error A h⟩
  · obtain ⟨argv, hmem, h⟩ := hinput
    exact ⟨argv, hmem, fun A => sysExecve_error A h⟩

end Vectors

end Tach.ExecArguments
