/-
Lines of the log (`log.c`).

Model: `logbuf` is a buffer of 4096 characters. A message is what its format comes to, of any length. `vsnprintf` returns a number less
than 0 for a text of 2^31 characters or more, which is what its `int` cannot hold. A store outside of `logbuf` gives none.
- a line is what `write` is called with.
- not in the model: a level that is none of the enumeration, which raises SIGABRT.

Results:
- `line_eq`: the line, for each way that the lengths can add up.
- `framed_iff`: the exact condition under which a line is framed.
- `not_framed`: a message whose last character but for the newline fits: the line ends with a null byte.
-/
import Mathlib.Tactic
import Mathlib.Data.Nat.Digits.Defs
import Shuttlesock.Core.Buffer

namespace Shuttlesock.Log

open Shuttlesock.Buffer

abbrev Str := List Char

def SHUTTLESOCK_MAX_LOG_LINE_SIZE : ℕ := 4096

def SHUTTLESOCK_NOPROCESS : ℤ := -3
def SHUTTLESOCK_MASTER : ℤ := -2
def SHUTTLESOCK_MANAGER : ℤ := -1
def SHUTTLESOCK_WORKER : ℤ := 0

/-- `shuso_loglevel_t` -/
inductive Level where
  | fatal | critical | error | warning | notice | info | debug
deriving DecidableEq, Repr

def procname (procnum : ℤ) : Str :=
  if procnum = SHUTTLESOCK_NOPROCESS then "none     ".toList
  else if procnum = SHUTTLESOCK_MASTER then "master   ".toList
  else if procnum = SHUTTLESOCK_MANAGER then "manager  ".toList
  else if SHUTTLESOCK_MANAGER < procnum then "worker ".toList
  else "??????   ".toList

def Level.lvl : Level → Str
  | .fatal => "   FATAL".toList
  | .critical => "CRITICAL".toList
  | .error => "   ERROR".toList
  | .warning => " WARNING".toList
  | .notice => "  NOTICE".toList
  | .info => "    INFO".toList
  | .debug => "   DEBUG".toList

/-- `%d` -/
def decimal (n : ℤ) : Str := if n < 0 then '-' :: Nat.toDigits 10 n.natAbs else Nat.toDigits 10 n.natAbs

/-- what comes before the message -/
def linePrefix (pid procnum : ℤ) (level : Level) : Str :=
  (if SHUTTLESOCK_WORKER ≤ procnum then
    '[' :: decimal pid ++ ' ' :: procname procnum ++ ' ' :: decimal procnum ++ "] ".toList
  else '[' :: decimal pid ++ ' ' :: procname procnum ++ "] ".toList) ++ level.lvl ++ ": ".toList

def dots : Str := "...\n".toList

/-- where the last character of `logbuf` is -/
def last : ℤ := SHUTTLESOCK_MAX_LOG_LINE_SIZE - 1

/-- the rest of the call, with the prefix as a text; the line that is written -/
def writeLine (log text msg : Str) : Option Str :=
  (snprintf log 0 (size_t (last - 0)) text).bind fun (log, n) =>
    let cur := 0 + n
    (snprintf log cur (size_t (last - cur)) msg).bind fun (log, n) =>
      let cur := cur + n
      if last ≤ cur then
        let cur := last - 5
        (snprintf log cur (size_t (last - cur)) dots).map fun (log, n) => log.take (size_t (cur + n))
      else
        (snprintf log cur (size_t (last - cur)) ['\n']).map fun (log, n) => log.take (size_t (cur + n))

def shuso_log_level_vararg (log : Str) (pid procnum : ℤ) (level : Level) (msg : Str) : Option Str :=
  writeLine log (linePrefix pid procnum level) msg

/-! ## The property -/

/-- **A line is framed**: it has its prefix, its message and a newline when these fit, else what fits, dots and a newline. -/
structure Framed (text msg line : Str) : Prop where
  length : line.length ≤ SHUTTLESOCK_MAX_LOG_LINE_SIZE - 1
  whole : (text ++ msg ++ ['\n']).length ≤ SHUTTLESOCK_MAX_LOG_LINE_SIZE - 1 → line = text ++ msg ++ ['\n']
  cut : SHUTTLESOCK_MAX_LOG_LINE_SIZE - 1 < (text ++ msg ++ ['\n']).length →
    ∃ k < (text ++ msg).length, line = (text ++ msg).take k ++ dots

/-- no null byte is added -/
theorem Framed.nul {text msg line : Str} (h : Framed text msg line) (hnul : '\x00' ∈ line) : '\x00' ∈ text ++ msg := by
  rcases Nat.lt_or_ge (SHUTTLESOCK_MAX_LOG_LINE_SIZE - 1) (text ++ msg ++ ['\n']).length with hlong | hfits
  · obtain ⟨k, -, rfl⟩ := h.cut hlong
    rcases List.mem_append.1 hnul with hnul | hnul
    · exact List.mem_of_mem_take hnul
    · exact absurd hnul (by decide)
  · rw [h.whole hfits] at hnul
    exact (List.mem_append.1 hnul).resolve_right (by decide)

/-! ## The prefix -/

theorem decimal_length {n : ℤ} (h : -2 ^ 31 ≤ n ∧ n < 2 ^ 31) : (decimal n).length ≤ 11 := by
  have hdigits : (Nat.toDigits 10 n.natAbs).length ≤ 10 := Nat.toDigits_length 10 n.natAbs 10 (by norm_num) (by omega)
  unfold decimal
  split_ifs
  · rw [List.length_cons]
    omega
  · omega

theorem procname_length (procnum : ℤ) : (procname procnum).length ≤ 9 := by
  unfold procname
  split_ifs <;> decide

theorem lvl_length (level : Level) : level.lvl.length = 8 := by cases level <;> rfl

/-- a prefix that fits, and ends with a colon and a space -/
theorem linePrefix_spec {pid procnum : ℤ} (level : Level) (hpid : -2 ^ 31 ≤ pid ∧ pid < 2 ^ 31)
    (hprocnum : -2 ^ 31 ≤ procnum ∧ procnum < 2 ^ 31) :
    (linePrefix pid procnum level).length ≤ 46 ∧ ∃ xs, linePrefix pid procnum level = xs ++ [':', ' '] := by
  have h1 := decimal_length hpid
  have h2 := decimal_length hprocnum
  have h3 := procname_length procnum
  have h4 := lvl_length level
  have h5 : "] ".toList.length = 2 := rfl
  have h6 : ": ".toList.length = 2 := rfl
  refine ⟨?_, _, rfl⟩
  unfold linePrefix
  split_ifs <;> simp only [List.length_append, List.length_cons] <;> omega

/-! ## The line -/

section Line

variable {log text msg : Str}

theorem print_spec (cur : ℕ) (text : Str) (hlog : log.length = SHUTTLESOCK_MAX_LOG_LINE_SIZE) (hcur : cur < 4095) :
    ∃ rest, snprintf log cur (size_t (last - cur)) text = some (log.take cur ++ text.take (4094 - cur) ++ '\x00' :: rest,
        if text.length < 2 ^ 31 then (text.length : ℤ) else -1) ∧
      (log.take cur ++ text.take (4094 - cur) ++ '\x00' :: rest).length = SHUTTLESOCK_MAX_LOG_LINE_SIZE := by
  have hsize : size_t (last - cur) = 4095 - cur := by
    have : last - cur = (4095 - cur : ℕ) := by
      unfold last SHUTTLESOCK_MAX_LOG_LINE_SIZE
      omega
    rw [this, size_t_eq (by omega)]
  have hfit : cur + (4095 - cur) ≤ log.length := by
    rw [hlog, SHUTTLESOCK_MAX_LOG_LINE_SIZE]
    omega
  obtain ⟨rest, hprint, hlen⟩ := snprintf_spec text (show 0 < 4095 - cur by omega) hfit
  have hsub : 4095 - cur - 1 = 4094 - cur := by omega
  rw [hsub] at hprint hlen
  rw [hsize]
  exact ⟨rest, hprint, hlen.trans hlog⟩

/-- the buffer with the prefix in it and what fits of the message -/
theorem print_message (text : Str) (hlog : log.length = SHUTTLESOCK_MAX_LOG_LINE_SIZE) (htext : text.length ≤ 46) (msg : Str) :
    ∃ log1 rest, snprintf log 0 (size_t (last - 0)) text = some (log1, (text.length : ℤ)) ∧
      snprintf log1 text.length (size_t (last - text.length)) msg =
        some (text ++ msg.take (4094 - text.length) ++ '\x00' :: rest, if msg.length < 2 ^ 31 then (msg.length : ℤ) else -1) ∧
      (text ++ msg.take (4094 - text.length) ++ '\x00' :: rest).length = SHUTTLESOCK_MAX_LOG_LINE_SIZE := by
  obtain ⟨rest1, hprint1, hlen1⟩ := print_spec (0) text hlog (by omega)
  have hall : text.take (4094 - 0) = text := List.take_of_length_le (by omega)
  rw [hall, List.take_zero, List.nil_append] at hprint1 hlen1
  rw [if_pos (by omega), Nat.cast_zero] at hprint1
  obtain ⟨rest2, hprint2, hlen2⟩ := print_spec (text.length) msg hlen1 (by omega)
  rw [List.take_left] at hprint2 hlen2
  exact ⟨_, rest2, hprint1, hprint2, hlen2⟩

/-- the line, when the message is not too long for an `int` -/
theorem line_eq (hlog : log.length = SHUTTLESOCK_MAX_LOG_LINE_SIZE) (htext : text.length ≤ 46) (hmsg : msg.length < 2 ^ 31) :
    writeLine log text msg = some (
      if text.length + msg.length < 4094 then text ++ msg ++ ['\n']
      else if text.length + msg.length = 4094 then text ++ msg ++ ['\x00']
      else (text ++ msg).take 4090 ++ dots) := by
  obtain ⟨log1, rest, hprint1, hprint2, hlen⟩ := print_message text hlog htext msg
  have hlast : last = 4095 := rfl
  have hleft : (text ++ msg).length = text.length + msg.length := List.length_append
  rw [if_pos hmsg] at hprint2
  unfold writeLine
  simp only [hprint1, Option.bind_some, zero_add, hprint2]
  rcases Nat.lt_or_ge (text.length + msg.length) 4095 with hshort | hlong
  · -- the cursor is at the end of the message
    have hall : msg.take (4094 - text.length) = msg := List.take_of_length_le (by omega)
    rw [hall] at hlen ⊢
    rw [if_neg (by omega), ← Nat.cast_add]
    obtain ⟨rest3, hprint3, -⟩ := print_spec (text.length + msg.length) ['\n'] hlen (by omega)
    rw [List.take_left' hleft] at hprint3
    rw [hprint3, Option.map_some, if_pos (by decide), ← Nat.cast_add, List.length_singleton, size_t_eq (by omega)]
    simp only
    by_cases hfull : text.length + msg.length = 4094
    · -- the size is 1, there is only place for the null byte
      have hleft' : (text ++ msg ++ ['\x00']).length = text.length + msg.length + 1 := by
        rw [List.length_append, hleft, List.length_singleton]
      rw [if_neg (by omega), if_pos hfull, ← hfull, Nat.sub_self, List.take_zero, List.append_nil, ← List.singleton_append,
        ← List.append_assoc, List.take_left' hleft']
    · have hnewline : ['\n'].take (4094 - (text.length + msg.length)) = ['\n'] := by
        refine List.take_of_length_le ?_
        rw [List.length_singleton]
        omega
      have hleft' : (text ++ msg ++ ['\n']).length = text.length + msg.length + 1 := by
        rw [List.length_append, hleft, List.length_singleton]
      rw [if_pos (by omega), hnewline, List.take_left' hleft']
  · -- the cursor is behind the buffer
    rw [if_pos (by omega), if_neg (by omega), if_neg (by omega)]
    have hcur : last - 5 = (4090 : ℕ) := rfl
    obtain ⟨rest3, hprint3, -⟩ := print_spec (4090) dots hlen (by omega)
    have hcut : (text ++ msg.take (4094 - text.length) ++ '\x00' :: rest).take 4090 = (text ++ msg).take 4090 := by
      have htake : (msg.take (4094 - text.length)).length = 4094 - text.length := by
        rw [List.length_take]
        omega
      rw [List.take_append_of_le_length (by rw [List.length_append, htake]; omega), List.take_append, List.take_append,
        List.take_take, min_eq_left (by omega)]
    have hleft' : ((text ++ msg).take 4090 ++ dots).length = 4094 := by
      rw [List.length_append, List.length_take, hleft, min_eq_left (by omega)]
      rfl
    rw [hcut] at hprint3
    rw [hcur, hprint3, Option.map_some, if_pos (by decide), ← Nat.cast_add, size_t_eq (by decide)]
    exact congrArg some (List.take_left' hleft')

/-- a message that is too long for an `int`: the newline replaces the last character of the prefix -/
theorem line_overflow (hlog : log.length = SHUTTLESOCK_MAX_LOG_LINE_SIZE) {xs : Str} (hxs : xs.length ≤ 44)
    (hmsg : 2 ^ 31 ≤ msg.length) : writeLine log (xs ++ [':', ' ']) msg = some (xs ++ [':'] ++ ['\n']) := by
  have htext : (xs ++ [':', ' ']).length = xs.length + 2 := List.length_append
  have hlast : last = 4095 := rfl
  obtain ⟨log1, rest, hprint1, hprint2, hlen⟩ := print_message (xs ++ [':', ' ']) hlog (by omega) msg
  rw [if_neg (by omega)] at hprint2
  have hcur : ((xs ++ [':', ' ']).length : ℤ) + -1 = (xs.length + 1 : ℕ) := by omega
  have hleft : (xs ++ [':']).length = xs.length + 1 := List.length_append
  have hleft' : (xs ++ [':'] ++ ['\n']).length = xs.length + 2 := by rw [List.length_append, hleft, List.length_singleton]
  unfold writeLine
  simp only [hprint1, Option.bind_some, zero_add, hprint2, hcur]
  rw [if_neg (by omega)]
  obtain ⟨rest3, hprint3, -⟩ := print_spec (xs.length + 1) ['\n'] hlen (by omega)
  have hcolon : xs ++ [':', ' '] ++ msg.take (4094 - (xs ++ [':', ' ']).length) ++ '\x00' :: rest =
      xs ++ [':'] ++ (' ' :: (msg.take (4094 - (xs ++ [':', ' ']).length) ++ '\x00' :: rest)) := by simp
  have hnewline : ['\n'].take (4094 - (xs.length + 1)) = ['\n'] := by
    refine List.take_of_length_le ?_
    rw [List.length_singleton]
    omega
  rw [hcolon, List.take_left' hleft, hnewline] at hprint3
  rw [hcolon, hprint3, Option.map_some, if_pos (by decide), ← Nat.cast_add, List.length_singleton, size_t_eq (by omega)]
  exact congrArg some (List.take_left' hleft')

end Line

/-! ## When a line is framed -/

/-- **Framing.** A line is framed exactly when its prefix and message do not leave room for one character and nothing else, and the
message is not too long for an `int`. -/
theorem framed_iff (log : Str) (pid procnum : ℤ) (level : Level) (msg : Str) (hlog : log.length = SHUTTLESOCK_MAX_LOG_LINE_SIZE)
    (hpid : -2 ^ 31 ≤ pid ∧ pid < 2 ^ 31) (hprocnum : -2 ^ 31 ≤ procnum ∧ procnum < 2 ^ 31) :
    (∃ line, shuso_log_level_vararg log pid procnum level msg = some line ∧
        Framed (linePrefix pid procnum level) msg line) ↔
      (linePrefix pid procnum level).length + msg.length ≠ SHUTTLESOCK_MAX_LOG_LINE_SIZE - 2 ∧ msg.length < 2 ^ 31 := by
  obtain ⟨htext, xs, hxs⟩ := linePrefix_spec level hpid hprocnum
  unfold shuso_log_level_vararg
  generalize linePrefix pid procnum level = text at htext hxs
  have hmax : SHUTTLESOCK_MAX_LOG_LINE_SIZE = 4096 := rfl
  have hlen : (text ++ msg).length = text.length + msg.length := List.length_append
  have hlen' : (text ++ msg ++ ['\n']).length = text.length + msg.length + 1 := by
    rw [List.length_append, hlen, List.length_singleton]
  rcases Nat.lt_or_ge msg.length (2 ^ 31) with hmsg | hmsg
  · rw [line_eq hlog htext hmsg]
    constructor
    · rintro ⟨line, hline, hframed⟩
      refine ⟨fun hfull => ?_, hmsg⟩
      rw [if_neg (by omega), if_pos (by omega)] at hline
      cases hline
      have hwhole := hframed.whole (by omega)
      exact absurd (List.append_cancel_left hwhole) (by decide)
    · rintro ⟨hfull, -⟩
      refine ⟨_, rfl, ?_⟩
      split_ifs with hshort hexact
      · exact ⟨by omega, fun _ => rfl, fun hlong => by omega⟩
      · omega
      · refine ⟨?_, fun hfits => by omega, fun _ => ⟨4090, by omega, rfl⟩⟩
        have hdots : dots.length = 4 := rfl
        rw [List.length_append, List.length_take, hdots]
        omega
  · constructor
    · rintro ⟨line, hline, hframed⟩
      have hxs' : xs.length ≤ 44 := by
        rw [hxs, List.length_append, List.length_cons, List.length_singleton] at htext
        omega
      rw [hxs, line_overflow hlog hxs' hmsg] at hline
      cases hline
      obtain ⟨k, -, hcut⟩ := hframed.cut (by omega)
      -- the line ends with a colon and a newline, not with dots
      have hlast := congrArg (fun l : Str => l.reverse.take 2) hcut
      simp [dots] at hlast
    · rintro ⟨-, hshort⟩
      omega

/-- a line of a worker -/
theorem framed_worker : ∃ line, shuso_log_level_vararg (List.replicate 4096 '\x00') 12 3 .notice "ready".toList = some line ∧
    Framed (linePrefix 12 3 .notice) "ready".toList line := by
  have hlog : (List.replicate 4096 '\x00').length = SHUTTLESOCK_MAX_LOG_LINE_SIZE := List.length_replicate
  exact (framed_iff _ 12 3 .notice "ready".toList hlog (by decide) (by decide)).2 ⟨by decide, by decide⟩

/-- **The last character that fits.** The prefix has 25 characters and the message 4069: with the newline they fit, and the line ends with
a null byte. -/
theorem not_framed : ¬ ∃ line,
    shuso_log_level_vararg (List.replicate 4096 '\x00') 12 3 .notice (List.replicate 4069 'a') = some line ∧
      Framed (linePrefix 12 3 .notice) (List.replicate 4069 'a') line := by
  have hlog : (List.replicate 4096 '\x00').length = SHUTTLESOCK_MAX_LOG_LINE_SIZE := List.length_replicate
  have hlen : (linePrefix 12 3 .notice).length = 25 := rfl
  have hmsg : (List.replicate 4069 'a').length = 4069 := List.length_replicate
  rintro ⟨line, hline, hframed⟩
  unfold shuso_log_level_vararg at hline
  rw [line_eq hlog (by omega) (by omega), if_neg (by omega), if_pos (by omega)] at hline
  cases hline
  have hwhole := hframed.whole (by
    rw [List.length_append, List.length_append, hlen, hmsg]
    exact le_rfl)
  exact absurd (List.append_cancel_left hwhole) (by decide)

end Shuttlesock.Log
