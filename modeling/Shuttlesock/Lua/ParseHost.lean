/-
Hosts in the configuration: `Core.parse_host` and `deduplicated_getaddrinfo` (`modules/lua_bridge/api/core.lua`).

Model: strings are lists of characters, and the patterns are those of the source (`LuaPattern.str_match`). nil and false are none.
`getaddrinfo_noresolve` is a parameter: it returns the addresses, or nil and an error (`Noresolve` says what is relied on).
- `pairs` goes by the order in which keys were added, which nothing below depends on.
- `Ret`: a table, nil and an error, or one string.

Results:
- `parsed_iff`: a string is parsed to the host that it is the text of, and to nil and an error if it is of none, exactly if it is not
  bracketed, not that of a hostname that begins with four numbers, and not that of the hostname "unix" with a port.
- `bracketed_value`: with brackets, the result is a string.
- `not_parsed`: the text of an IPv6 address.
-/
import Mathlib.Tactic
import Shuttlesock.Core.LuaPattern

namespace Shuttlesock.ParseHost

open Shuttlesock.LuaPattern

/-! ## Model -/

structure Addr where
  family : Option String
  address : Option Str
  socktype : Option String
deriving DecidableEq

/-- the table that is returned -/
structure Host where
  name : Str
  port : Option ℕ
  addrinfo : Option (List Addr)
  hostname : Option Str
  path : Option Str
  family : Option String
deriving DecidableEq

inductive Ret where
  | table (host : Host)
  | fail (err : String)
  | value (s : String)
deriving DecidableEq

/-- `(addr.family or "?")..":"..(addr.address or "?")` -/
def key (addr : Addr) : Str := (addr.family.getD "?").toList ++ ':' :: addr.address.getD ['?']

/-- `addrs_unique[k] = addr` -/
def set (k : Str) (addr : Addr) : List (Str × Addr) → List (Str × Addr)
  | [] => [(k, addr)]
  | e :: addrs_unique => if e.1 = k then (k, addr) :: addrs_unique else e :: set k addr addrs_unique

def deduplicated_getaddrinfo (addrinfo : List Addr) : List Addr :=
  let addrs_unique := addrinfo.foldl (fun addrs_unique addr => set (key addr) { addr with socktype := none } addrs_unique) []
  addrs_unique.map Prod.snd

/-- of a numeral without sign, dot or exponent -/
def tonumber (s : Str) : Option ℕ :=
  if s ≠ [] ∧ s.all Char.isDigit then some (s.foldl (fun n c => 10 * n + (c.toNat - '0'.toNat)) 0) else none

/-- the i-th result of `str:match(pattern)` -/
def capture (str : Str) (pattern : String) (i : ℕ) : Option Str := (str_match str pattern.toList).bind fun caps => caps[i]?

def matches_pattern (str : Str) (pattern : String) : Bool := (str_match str pattern.toList).isSome

/-- the local variables; `addrinfo` and err are what `getaddrinfo_noresolve` returns -/
structure Locals where
  hostname : Option Str
  port : Option Str
  addrinfo : Option (List Addr)
  path : Option Str
  err : Option String
  family : Option String

/-- from `if err then` on. `addrinfo` is a list, which has no address of its own: the name is the string. -/
def result (str : Str) (l : Locals) : Ret :=
  match l.err with
  | some err => .fail err
  | none =>
    let addrinfo := l.addrinfo.map deduplicated_getaddrinfo
    match l.port with
    | none => .table ⟨str, none, addrinfo, l.hostname, l.path, l.family⟩
    | some port =>
      match tonumber port with
      | none => .fail "invalid port"
      | some port =>
        if 2 ^ 16 ≤ port then .fail "invalid port"
        else .table ⟨str, some port, addrinfo, l.hostname, l.path, l.family⟩

/-- with what `getaddrinfo_noresolve` returns -/
def result_of (str : Str) (family : String) (port : Option Str) : Except String (List Addr) → Ret
  | .ok addrinfo => result str ⟨none, port, some addrinfo, none, none, some family⟩
  | .error err => result str ⟨none, port, none, none, some err, some family⟩

def parse_host (getaddrinfo_noresolve : Str → ℕ → Except String (List Addr)) (str : Str) : Ret :=
  if matches_pattern str "^unix:.+" then
    let path := capture str "^unix:(.+)" 0
    result str ⟨none, none, none, path, none, some "Unix"⟩
  else if matches_pattern str "^%[.*%]" then
    let (ipv6, port) := (capture str "^[(.*)]$" 0, none)
    let (ipv6, port) :=
      if ipv6 = none then (capture str "^[(.*)]:(%d+)$" 0, capture str "^[(.*)]:(%d+)$" 1) else (ipv6, port)
    match ipv6 with
    | none => .value "invalid IPv6 format"
    | some ipv6 => result_of str "IPv6" port (getaddrinfo_noresolve ipv6 6)
  else if matches_pattern str "^%d+%.%d+%.%d+%.%d+" then
    let (ipv4, port) := (capture str "^([%d%.]+)$" 0, none)
    let (ipv4, port) :=
      if ipv4 = none then (capture str "^([%d%.]+):(%d+)$" 0, capture str "^([%d%.]+):(%d+)$" 1) else (ipv4, port)
    match ipv4 with
    | none => .fail "invalid IPv4 address"
    | some ipv4 => result_of str "IPv4" port (getaddrinfo_noresolve ipv4 4)
  else
    let (hostname, port) := (capture str "^([%l%u%d%.%-%_]+)$" 0, none)
    let (hostname, port) :=
      if hostname = none then
        (capture str "^([%l%u%d%.%-%_]+):(%d+)$" 0, capture str "^([%l%u%d%.%-%_]+):(%d+)$" 1)
      else (hostname, port)
    match hostname with
    | none => .fail "invalid hostname"
    | some hostname =>
      if matches_pattern hostname "%.%." ∨ matches_pattern hostname "%-$" then .fail "invalid hostname"
      else result str ⟨some hostname, port, none, none, none, none⟩

/-! ## The claim -/

/-- a number up to 255, without a 0 in front -/
def octet (s : Str) : Bool := (tonumber s).any fun n => n < 256 ∧ (s = ['0'] ∨ s.head? ≠ some '0')

/-- an IPv4 address -/
def literal (s : Str) : Bool := (s.splitOn '.').length = 4 ∧ (s.splitOn '.').all octet

/-- `getaddrinfo_noresolve` accepts the literal addresses, and no others, and returns them; literal6 are those of IPv6 -/
structure Noresolve (literal6 : Str → Prop) (getaddrinfo_noresolve : Str → ℕ → Except String (List Addr)) : Prop where
  accepts : ∀ s, literal s = true → ∃ l, getaddrinfo_noresolve s 4 = .ok l ∧ l ≠ [] ∧
    ∀ addr ∈ l, addr.family = some "IPv4" ∧ addr.address = some s
  refuses : ∀ s, literal s = false → ∃ err, getaddrinfo_noresolve s 4 = .error err
  accepts6 : ∀ s, literal6 s → ∃ l, getaddrinfo_noresolve s 6 = .ok l ∧ l ≠ [] ∧
    ∀ addr ∈ l, addr.family = some "IPv6" ∧ addr.address = some s
  refuses6 : ∀ s, ¬literal6 s → ∃ err, getaddrinfo_noresolve s 6 = .error err

/-- the description of a host -/
inductive Desc where
  | ipv4 (address : Str) (port : Option ℕ)
  | ipv6 (address : Str) (port : Option ℕ)
  | hostname (name : Str) (port : Option ℕ)
  | unix (path : Str)

def hostname_char (c : Char) : Bool := c.isLower || (c.isUpper || (c.isDigit || (c = '.' || (c = '-' || (c = '_' || false)))))

/-- no IPv4 address, and no name that is refused as it is -/
structure Hostname (name : Str) : Prop where
  nonempty : name ≠ []
  chars : ∀ c ∈ name, hostname_char c = true
  dots : ¬['.', '.'] <:+: name
  dash : ¬['-'] <:+ name
  no_literal : literal name = false

/-- s is the text t, with a port or without -/
inductive WithPort (t : Str) : Option ℕ → Str → Prop where
  | none : WithPort t none t
  | some {digits : Str} {port : ℕ} (value : tonumber digits = some port) (range : port < 2 ^ 16) :
      WithPort t (some port) (t ++ ':' :: digits)

/-- s is the text of a host -/
inductive Text (literal6 : Str → Prop) : Desc → Str → Prop where
  | ipv4 {address s : Str} {port : Option ℕ} (valid : literal address = true) (text : WithPort address port s) :
      Text literal6 (.ipv4 address port) s
  | ipv6 {address s : Str} {port : Option ℕ} (valid : literal6 address) (text : WithPort ('[' :: address ++ [']']) port s) :
      Text literal6 (.ipv6 address port) s
  | hostname {name s : Str} {port : Option ℕ} (valid : Hostname name) (text : WithPort name port s) :
      Text literal6 (.hostname name port) s
  | unix {path : Str} (nonempty : path ≠ []) : Text literal6 (.unix path) ("unix:".toList ++ path)

/-- the table for a host -/
def Desc.host (s : Str) : Desc → Host
  | ipv4 address port => ⟨s, port, some [⟨some "IPv4", some address, none⟩], none, none, some "IPv4"⟩
  | ipv6 address port => ⟨s, port, some [⟨some "IPv6", some address, none⟩], none, none, some "IPv6"⟩
  | hostname name port => ⟨s, port, none, some name, none, none⟩
  | unix path => ⟨s, none, none, none, some path, some "Unix"⟩

/-- **The claim** for a string. -/
structure Right (literal6 : Str → Prop) (getaddrinfo_noresolve : Str → ℕ → Except String (List Addr)) (s : Str) : Prop where
  host : ∀ d, Text literal6 d s → parse_host getaddrinfo_noresolve s = .table (d.host s)
  other : (∀ d, ¬Text literal6 d s) → ∃ err, parse_host getaddrinfo_noresolve s = .fail err

/-- `[`, and a `]` behind it -/
def Bracketed (s : Str) : Prop := ∃ a b, s = '[' :: (a ++ ']' :: b)

/-- four numbers with dots between them, from the first character on -/
def Numbers (s : Str) : Prop :=
  ∃ a b c d t, a ≠ [] ∧ b ≠ [] ∧ c ≠ [] ∧ d ≠ [] ∧ (∀ x ∈ a ++ b ++ c ++ d, x.isDigit = true) ∧
    s = a ++ '.' :: (b ++ '.' :: (c ++ '.' :: (d ++ t)))

/-- the text of a hostname that begins with four numbers -/
def NumbersName (s : Str) : Prop := ∃ name port, Hostname name ∧ WithPort name port s ∧ Numbers name

/-- the text of the hostname "unix" with a port -/
def UnixPort (s : Str) : Prop := ∃ port, WithPort "unix".toList (some port) s

/-! ## The patterns -/

section Patterns

variable {s : Str} {p : Char → Bool} {is : List Item} {pattern : Str}

def ipv4_char (c : Char) : Bool := c.isDigit || (c = '.' || false)

/-- `^([p]+)$` -/
def whole_items (p : Char → Bool) : List Item := [.opn, .plus p, .cls, .eos]

/-- `^([p]+):(%d+)$` -/
def port_items (p : Char → Bool) : List Item :=
  [.opn, .plus p, .cls, .one fun x => x = ':', .opn, .plus Char.isDigit, .cls, .eos]

theorem derives_whole {caps : List Str} {r : Str} :
    Derives (whole_items p) none s caps r ↔ s ≠ [] ∧ (∀ c ∈ s, p c = true) ∧ caps = [s] ∧ r = [] := by
  simp only [whole_items, derives_opn, derives_plus, derives_cls, derives_eos, derives_nil]
  constructor
  · rintro ⟨a, t, rfl, hne, ha, caps', rfl, rfl, rfl, rfl⟩
    simp [hne]
    simpa using ha
  · rintro ⟨hne, hs, rfl, rfl⟩
    exact ⟨s, [], by simp, hne, hs, [], by simp, rfl, rfl, rfl⟩

theorem derives_port {caps : List Str} {r : Str} :
    Derives (port_items p) none s caps r ↔
      ∃ a d, s = a ++ ':' :: d ∧ a ≠ [] ∧ (∀ c ∈ a, p c = true) ∧ d ≠ [] ∧ (∀ c ∈ d, c.isDigit = true) ∧ caps = [a, d] ∧ r = [] := by
  simp only [port_items, derives_opn, derives_plus, derives_cls, derives_one, derives_eos, derives_nil]
  constructor
  · rintro ⟨a, t, rfl, hne, ha, caps', rfl, c, t, rfl, hc, d, t', rfl, hd, hdig, caps'', rfl, rfl, rfl, rfl⟩
    obtain rfl : c = ':' := by simpa using hc
    exact ⟨a, d, by simp, hne, ha, hd, hdig, by simp, rfl⟩
  · rintro ⟨a, d, rfl, hne, ha, hd, hdig, rfl, rfl⟩
    exact ⟨a, ':' :: d, rfl, hne, ha, [d], by simp, ':', d, rfl, by simp, d, [], by simp, hd, hdig, [], by simp, rfl, rfl, rfl⟩

theorem run_whole (hne : s ≠ []) (hs : ∀ c ∈ s, p c = true) : run (whole_items p) none s = some ([s], []) := by
  refine run_eq_some (derives_whole.2 ⟨hne, hs, rfl, rfl⟩) fun caps r h => ?_
  obtain ⟨-, -, hcaps, hr⟩ := derives_whole.1 h
  exact ⟨hcaps, hr⟩

theorem run_whole_none (h : ¬(s ≠ [] ∧ ∀ c ∈ s, p c = true)) : run (whole_items p) none s = none := by
  refine run_eq_none.2 fun caps r hway => h ?_
  obtain ⟨hne, hs, -⟩ := derives_whole.1 hway
  exact ⟨hne, hs⟩

/-- a text with digits behind a colon -/
structure Colon (p : Char → Bool) (a d s : Str) : Prop where
  text : s = a ++ ':' :: d
  nonempty : a ≠ []
  chars : ∀ c ∈ a, p c = true
  some_digit : d ≠ []
  digits : ∀ c ∈ d, c.isDigit = true

/-- there is one way to split it -/
theorem Colon.unique {a d a' d' : Str} (hp : p ':' = false) (h : Colon p a d s) (h' : Colon p a' d' s) : a' = a ∧ d' = d := by
  have htake : ∀ {a d : Str}, (∀ c ∈ a, p c = true) → (a ++ ':' :: d).takeWhile p = a := by
    intro a d ha
    rw [List.takeWhile_append_of_pos ha]
    simp [hp]
  have ha : a' = a := by rw [← htake (d := d') h'.chars, ← h'.text, h.text, htake h.chars]
  have heq := h'.text.symm.trans h.text
  rw [ha, List.append_cancel_left_eq, List.cons.injEq] at heq
  exact ⟨ha, heq.2⟩

theorem run_port {a d : Str} (hp : p ':' = false) (h : Colon p a d s) : run (port_items p) none s = some ([a, d], []) := by
  refine run_eq_some (derives_port.2 ⟨a, d, h.text, h.nonempty, h.chars, h.some_digit, h.digits, rfl, rfl⟩) fun caps r hway => ?_
  obtain ⟨a', d', htext, hne, ha, hd, hdig, rfl, rfl⟩ := derives_port.1 hway
  obtain ⟨rfl, rfl⟩ := h.unique hp ⟨htext, hne, ha, hd, hdig⟩
  exact ⟨rfl, rfl⟩

theorem run_port_none (h : ∀ a d, ¬Colon p a d s) : run (port_items p) none s = none := by
  refine run_eq_none.2 fun caps r hway => ?_
  obtain ⟨a, d, htext, hne, ha, hd, hdig, -⟩ := derives_port.1 hway
  exact h a d ⟨htext, hne, ha, hd, hdig⟩

/-- a text with a colon does not match as a whole -/
theorem Colon.not_whole {a d : Str} (hp : p ':' = false) (h : Colon p a d s) : ¬(s ≠ [] ∧ ∀ c ∈ s, p c = true) := by
  rintro ⟨-, hall⟩
  have hcolon := hall ':' (by rw [h.text]; simp)
  rw [hp] at hcolon
  cases hcolon

/-- name and port, as the three branches take them apart -/
def two (s : Str) (whole port : String) : Option Str × Option Str :=
  if capture s whole 0 = none then (capture s port 0, capture s port 1) else (capture s whole 0, none)

/-- a is the name in s, and q the digits of a port -/
inductive Taken (p : Char → Bool) (s : Str) : Str → Option Str → Prop where
  | whole (hne : s ≠ []) (hs : ∀ c ∈ s, p c = true) : Taken p s s none
  | port {a d : Str} (h : Colon p a d s) : Taken p s a (some d)

theorem Taken.spec {a : Str} {q : Option Str} (h : Taken p s a q) : a ≠ [] ∧ (∀ c ∈ a, p c = true) ∧ ∃ t, s = a ++ t := by
  cases h with
  | whole hne hs => exact ⟨hne, hs, [], by simp⟩
  | port hc => exact ⟨hc.nonempty, hc.chars, _, hc.text⟩

section Two

variable {whole port : String}
  (hwhole : str_match s whole.toList = (run (whole_items p) none s).map (captures s))
  (hport : str_match s port.toList = (run (port_items p) none s).map (captures s))
include hwhole hport

theorem two_eq {a : Str} {q : Option Str} (hp : p ':' = false) (h : Taken p s a q) : two s whole port = (some a, q) := by
  unfold two capture
  rw [hwhole, hport]
  cases h with
  | whole hne hs =>
    rw [run_whole hne hs]
    rfl
  | port hc =>
    rw [run_whole_none (hc.not_whole hp), run_port hp hc]
    rfl

theorem two_none (h : ∀ a q, ¬Taken p s a q) : (two s whole port).1 = none := by
  have hw : ¬(s ≠ [] ∧ ∀ c ∈ s, p c = true) := fun hw => h s none (.whole hw.1 hw.2)
  unfold two capture
  rw [hwhole, hport, run_whole_none hw, run_port_none fun a d hc => h a (some d) (.port hc)]
  rfl

end Two

end Patterns

/-! ### The other patterns -/

variable {s : Str}

/-- the pattern of a prefix -/
theorem matches_start {pattern : String} (is : List Item) (h : str_match s pattern.toList = (run is none s).map (captures s)) :
    matches_pattern s pattern = true ↔ ∃ caps r, Derives is none s caps r := by
  rw [matches_pattern, h, Option.isSome_map, run_isSome]

/-- one character of a pattern -/
def only (x : Char) : Item := .one fun c => c = x

theorem derives_only {x : Char} {is : List Item} {start : Option Str} {s r : Str} {caps : List Str} :
    Derives (only x :: is) start s caps r ↔ ∃ t, s = x :: t ∧ Derives is start t caps r := by
  simp [only]

theorem matches_unix : matches_pattern s "^unix:.+" = true ↔ ∃ path, path ≠ [] ∧ s = "unix:".toList ++ path := by
  rw [matches_start [only 'u', only 'n', only 'i', only 'x', only ':', .plus fun _ => true] rfl]
  simp only [derives_only, derives_plus, derives_nil]
  constructor
  · rintro ⟨caps, r, t, rfl, t, rfl, t, rfl, t, rfl, t, rfl, a, t, rfl, hne, -, -⟩
    exact ⟨a ++ t, by simp [hne], rfl⟩
  · rintro ⟨path, hne, rfl⟩
    exact ⟨[], [], _, rfl, _, rfl, _, rfl, _, rfl, _, rfl, path, [], by simp, hne, fun _ _ => trivial, rfl, rfl⟩

theorem capture_unix {path : Str} (hne : path ≠ []) : capture ("unix:".toList ++ path) "^unix:(.+)" 0 = some path := by
  obtain ⟨c, t, rfl⟩ := List.exists_cons_of_ne_nil hne
  have hall : t.takeWhile (fun _ => true) = t := List.takeWhile_eq_self_iff.2 fun _ _ => rfl
  have hrun : run [.opn, .plus fun _ => true, .cls] none (c :: t) = some ([c :: t], []) := by
    rw [run, run_plus, if_pos rfl, hall]
    refine longest_eq ?_
    rw [List.drop_length]
    simp [run]
  have hmatch : str_match ("unix:".toList ++ c :: t) "^unix:(.+)".toList =
      (run [.opn, .plus fun _ => true, .cls] none (c :: t)).map (captures ("unix:".toList ++ c :: t)) := rfl
  rw [capture, hmatch, hrun]
  rfl

theorem matches_bracket : matches_pattern s "^%[.*%]" = true ↔ Bracketed s := by
  rw [matches_start [only '[', .star fun _ => true, only ']'] rfl]
  simp only [derives_only, derives_star, derives_nil]
  constructor
  · rintro ⟨caps, r, t, rfl, a, t, rfl, -, t, rfl, -⟩
    exact ⟨a, t, rfl⟩
  · rintro ⟨a, b, rfl⟩
    exact ⟨[], b, _, rfl, a, ']' :: b, rfl, fun _ _ => trivial, b, rfl, rfl, rfl⟩

theorem matches_numbers : matches_pattern s "^%d+%.%d+%.%d+%.%d+" = true ↔ Numbers s := by
  rw [matches_start [.plus Char.isDigit, only '.', .plus Char.isDigit, only '.', .plus Char.isDigit, only '.',
    .plus Char.isDigit] rfl]
  simp only [derives_only, derives_plus, derives_nil]
  constructor
  · rintro ⟨caps, r, a, t, rfl, ha, ha', t, rfl, b, t, rfl, hb, hb', t, rfl, c, t, rfl, hc, hc', t, rfl, d, t, rfl, hd, hd', -⟩
    refine ⟨a, b, c, d, t, ha, hb, hc, hd, fun x hx => ?_, rfl⟩
    simp only [List.mem_append] at hx
    rcases hx with ((hx | hx) | hx) | hx
    · exact ha' x hx
    · exact hb' x hx
    · exact hc' x hx
    · exact hd' x hx
  · rintro ⟨a, b, c, d, t, ha, hb, hc, hd, hdig, rfl⟩
    simp only [List.mem_append] at hdig
    exact ⟨[], t, a, _, rfl, ha, fun x hx => hdig x (by simp [hx]), _, rfl, b, _, rfl, hb, fun x hx => hdig x (by simp [hx]), _, rfl,
      c, _, rfl, hc, fun x hx => hdig x (by simp [hx]), _, rfl, d, t, rfl, hd, fun x hx => hdig x (by simp [hx]), rfl, rfl⟩

/-- a set of `(`, `.`, `*` and `)` does not contain `[` -/
theorem capture_bracket (t : Str) (i : ℕ) :
    capture ('[' :: t) "^[(.*)]$" i = none ∧ capture ('[' :: t) "^[(.*)]:(%d+)$" i = none :=
  ⟨rfl, rfl⟩

theorem matches_dots : matches_pattern s "%.%." = true ↔ ['.', '.'] <:+: s := by
  rw [matches_pattern, match_search [only '.', only '.'] (by simp) rfl]
  simp only [derives_only, derives_nil]
  constructor
  · rintro ⟨a, t, rfl, caps, r, t, rfl, t, rfl, -⟩
    exact ⟨a, t, by simp⟩
  · rintro ⟨a, t, rfl⟩
    exact ⟨a, '.' :: '.' :: t, by simp, [], t, _, rfl, _, rfl, rfl, rfl⟩

theorem matches_dash : matches_pattern s "%-$" = true ↔ ['-'] <:+ s := by
  rw [matches_pattern, match_search [only '-', .eos] (by simp) rfl]
  simp only [derives_only, derives_eos, derives_nil]
  constructor
  · rintro ⟨a, t, rfl, caps, r, t, rfl, rfl, -⟩
    exact ⟨a, rfl⟩
  · rintro ⟨a, rfl⟩
    exact ⟨a, ['-'], rfl, [], [], [], rfl, rfl, rfl, rfl⟩

/-! ## Ports -/

/-- what is made of the digits of a port; none is the error -/
def port_of : Option Str → Option (Option ℕ)
  | none => some none
  | some d =>
    match tonumber d with
    | none => none
    | some n => if 2 ^ 16 ≤ n then none else some (some n)

theorem port_of_some {d : Str} {n : Option ℕ} (h : port_of (some d) = some n) :
    ∃ k, tonumber d = some k ∧ k < 2 ^ 16 ∧ n = some k := by
  rw [port_of] at h
  cases hd : tonumber d with
  | none =>
    rw [hd] at h
    cases h
  | some k =>
    simp only [hd] at h
    split_ifs at h with hk
    cases h
    exact ⟨k, rfl, Nat.lt_of_not_le hk, rfl⟩

theorem result_port {l : Locals} {n : Option ℕ} (herr : l.err = none) (hn : port_of l.port = some n) :
    result s l = .table ⟨s, n, l.addrinfo.map deduplicated_getaddrinfo, l.hostname, l.path, l.family⟩ := by
  rw [result, herr]
  cases hport : l.port with
  | none =>
    rw [hport] at hn
    cases hn
    rfl
  | some d =>
    rw [hport] at hn
    obtain ⟨k, hk, hlt, rfl⟩ := port_of_some hn
    simpa [hk] using hlt

theorem result_no_port {l : Locals} (herr : l.err = none) (hn : port_of l.port = none) : result s l = .fail "invalid port" := by
  rw [result, herr]
  cases hport : l.port with
  | none =>
    rw [hport] at hn
    cases hn
  | some d =>
    rw [hport, port_of] at hn
    cases hd : tonumber d with
    | none => simp [hd]
    | some k =>
      simp only [hd] at hn ⊢
      split_ifs at hn with hk
      rw [if_pos hk]

theorem tonumber_digits {d : Str} {n : ℕ} (h : tonumber d = some n) : d ≠ [] ∧ ∀ c ∈ d, c.isDigit = true := by
  unfold tonumber at h
  split_ifs at h with hd
  exact ⟨hd.1, List.all_eq_true.1 hd.2⟩

/-- a text with a port is taken apart again -/
theorem taken_of_text {p : Char → Bool} {a : Str} {n : Option ℕ} (hne : a ≠ []) (ha : ∀ c ∈ a, p c = true) (h : WithPort a n s) :
    ∃ q, Taken p s a q ∧ port_of q = some n := by
  cases h with
  | none => exact ⟨none, .whole hne ha, rfl⟩
  | @some digits port value range =>
    obtain ⟨hd, hdig⟩ := tonumber_digits value
    refine ⟨some digits, .port ⟨rfl, hne, ha, hd, hdig⟩, ?_⟩
    simpa [port_of, value] using range

theorem text_of_taken {p : Char → Bool} {a : Str} {q : Option Str} {n : Option ℕ} (h : Taken p s a q) (hn : port_of q = some n) :
    WithPort a n s := by
  cases h with
  | whole hne hs =>
    cases hn
    exact .none
  | port hc =>
    obtain ⟨k, hk, hlt, rfl⟩ := port_of_some hn
    rw [hc.text]
    exact .some hk hlt

/-! ## The branches -/

theorem bracketed_not_unix (h : Bracketed s) : matches_pattern s "^unix:.+" = false := by
  obtain ⟨a, b, rfl⟩ := h
  rfl

variable {literal6 : Str → Prop} {g : Str → ℕ → Except String (List Addr)}

/-- **With brackets**, the result is a string: the pattern for what is in them is a set. -/
theorem bracketed_value (g : Str → ℕ → Except String (List Addr)) (h : Bracketed s) :
    parse_host g s = .value "invalid IPv6 format" := by
  unfold parse_host
  rw [bracketed_not_unix h, matches_bracket.2 h]
  obtain ⟨a, b, rfl⟩ := h
  simp [capture_bracket]

theorem parse_unix {path : Str} (hne : path ≠ []) :
    parse_host g ("unix:".toList ++ path) = .table ((Desc.unix path).host ("unix:".toList ++ path)) := by
  unfold parse_host
  rw [if_pos (matches_unix.2 ⟨path, hne, rfl⟩), capture_unix hne]
  rfl

/-- from the two patterns for IPv4 on -/
def ipv4_result (g : Str → ℕ → Except String (List Addr)) (s : Str) (r : Option Str × Option Str) : Ret :=
  match r.1 with
  | none => .fail "invalid IPv4 address"
  | some ipv4 => result_of s "IPv4" r.2 (g ipv4 4)

/-- from the two patterns for a hostname on -/
def hostname_result (s : Str) (r : Option Str × Option Str) : Ret :=
  match r.1 with
  | none => .fail "invalid hostname"
  | some hostname =>
    if matches_pattern hostname "%.%." ∨ matches_pattern hostname "%-$" then .fail "invalid hostname"
    else result s ⟨some hostname, r.2, none, none, none, none⟩

theorem parse_ipv4 (hunix : ¬∃ path, path ≠ [] ∧ s = "unix:".toList ++ path) (hb : ¬Bracketed s) (hn : Numbers s) :
    parse_host g s = ipv4_result g s (two s "^([%d%.]+)$" "^([%d%.]+):(%d+)$") := by
  unfold parse_host
  rw [if_neg (fun h => hunix (matches_unix.1 h)), if_neg (fun h => hb (matches_bracket.1 h)), if_pos (matches_numbers.2 hn)]
  rfl

theorem parse_hostname (hunix : ¬∃ path, path ≠ [] ∧ s = "unix:".toList ++ path) (hb : ¬Bracketed s) (hn : ¬Numbers s) :
    parse_host g s = hostname_result s (two s "^([%l%u%d%.%-%_]+)$" "^([%l%u%d%.%-%_]+):(%d+)$") := by
  unfold parse_host
  rw [if_neg (fun h => hunix (matches_unix.1 h)), if_neg (fun h => hb (matches_bracket.1 h)),
    if_neg (fun h => hn (matches_numbers.1 h))]
  rfl

/-! ## Names -/

/-- nothing but one address is left -/
theorem deduplicated_same {l : List Addr} {family : String} {address : Str} (hne : l ≠ [])
    (hl : ∀ addr ∈ l, addr.family = some family ∧ addr.address = some address) :
    deduplicated_getaddrinfo l = [⟨some family, some address, none⟩] := by
  have hset : ∀ addr ∈ l, ∀ addrs_unique,
      set (key addr) { addr with socktype := none } addrs_unique =
        set (key ⟨some family, some address, none⟩) ⟨some family, some address, none⟩ addrs_unique := by
    intro addr haddr addrs_unique
    obtain ⟨hfamily, haddress⟩ := hl addr haddr
    rw [key, key, hfamily, haddress]
  have hrest : ∀ l : List Addr, (∀ addr ∈ l, addr.family = some family ∧ addr.address = some address) →
      l.foldl (fun addrs_unique addr => set (key addr) { addr with socktype := none } addrs_unique)
          [(key ⟨some family, some address, none⟩, ⟨some family, some address, none⟩)] =
        [(key ⟨some family, some address, none⟩, ⟨some family, some address, none⟩)] := by
    intro l hl
    induction l with
    | nil => rfl
    | cons addr l ih =>
      obtain ⟨⟨hfamily, haddress⟩, hl⟩ := List.forall_mem_cons.1 hl
      have hkey : key addr = key ⟨some family, some address, none⟩ := by rw [key, key, hfamily, haddress]
      rw [List.foldl_cons, set, if_pos hkey.symm, hkey, hfamily, haddress]
      exact ih hl
  obtain ⟨addr, l, rfl⟩ := List.exists_cons_of_ne_nil hne
  rw [deduplicated_getaddrinfo, List.foldl_cons, hset addr List.mem_cons_self, set,
    hrest l fun addr haddr => hl addr (List.mem_cons_of_mem _ haddr)]
  rfl

theorem octet_digits {o : Str} (h : octet o = true) : o ≠ [] ∧ ∀ c ∈ o, c.isDigit = true := by
  unfold octet at h
  cases hn : tonumber o with
  | none =>
    rw [hn] at h
    cases h
  | some n => exact tonumber_digits hn

/-- the four numbers of an IPv4 address -/
theorem literal_numbers {a : Str} (h : literal a = true) : Numbers a ∧ ∀ c ∈ a, ipv4_char c = true := by
  obtain ⟨hlen, hall⟩ := of_decide_eq_true h
  have hjoin : ['.'].intercalate (a.splitOn '.') = a := List.intercalate_splitOn '.'
  obtain ⟨p, q, r, t, hsplit⟩ : ∃ p q r t, a.splitOn '.' = [p, q, r, t] := by
    match a.splitOn '.', hlen with
    | [p, q, r, t], _ => exact ⟨p, q, r, t, rfl⟩
  rw [hsplit] at hjoin hall
  simp only [List.all_cons, List.all_nil, Bool.and_true, Bool.and_eq_true] at hall
  obtain ⟨hp, hq, hr, ht⟩ := hall
  obtain ⟨hp, hp'⟩ := octet_digits hp
  obtain ⟨hq, hq'⟩ := octet_digits hq
  obtain ⟨hr, hr'⟩ := octet_digits hr
  obtain ⟨ht, ht'⟩ := octet_digits ht
  have ha : a = p ++ '.' :: (q ++ '.' :: (r ++ '.' :: t)) := by
    rw [← hjoin]
    simp [List.intercalate]
  constructor
  · refine ⟨p, q, r, t, [], hp, hq, hr, ht, fun x hx => ?_, by rw [ha, List.append_nil]⟩
    simp only [List.mem_append] at hx
    rcases hx with ((hx | hx) | hx) | hx
    · exact hp' x hx
    · exact hq' x hx
    · exact hr' x hx
    · exact ht' x hx
  · intro x hx
    rw [ha] at hx
    simp only [List.mem_append, List.mem_cons] at hx
    have hdigit : x.isDigit = true ∨ x = '.' := by
      rcases hx with hx | hx | hx | hx | hx | hx | hx
      · exact .inl (hp' x hx)
      · exact .inr hx
      · exact .inl (hq' x hx)
      · exact .inr hx
      · exact .inl (hr' x hx)
      · exact .inr hx
      · exact .inl (ht' x hx)
    simpa [ipv4_char] using hdigit

theorem Numbers.append (h : Numbers s) (t : Str) : Numbers (s ++ t) := by
  obtain ⟨a, b, c, d, u, ha, hb, hc, hd, hdig, rfl⟩ := h
  exact ⟨a, b, c, d, u ++ t, ha, hb, hc, hd, hdig, by simp⟩

theorem Numbers.withPort {name : Str} {port : Option ℕ} (h : Numbers name) (ht : WithPort name port s) : Numbers s := by
  cases ht with
  | none => exact h
  | some => exact h.append _

/-- a text that begins with four numbers has them before the port -/
theorem Numbers.of_withPort {name : Str} {port : Option ℕ} (h : Numbers s) (ht : WithPort name port s) : Numbers name := by
  cases ht with
  | none => exact h
  | @some digits port value range =>
    obtain ⟨a, b, c, d, u, ha, hb, hc, hd, hdig, heq⟩ := h
    have hcolon : ':' ∉ a ++ '.' :: (b ++ '.' :: (c ++ '.' :: d)) := by
      have hnot : ':' ∉ a ++ b ++ c ++ d := fun hmem => absurd (hdig ':' hmem) (by decide)
      simp only [List.mem_append, not_or] at hnot
      simp [hnot]
    have heq : name ++ ':' :: digits = (a ++ '.' :: (b ++ '.' :: (c ++ '.' :: d))) ++ u := by
      rw [heq]
      simp
    rcases List.append_eq_append_iff.1 heq with ⟨v, hv, hrest⟩ | ⟨v, hv, -⟩
    · cases v with
      | nil =>
        rw [List.append_nil] at hv
        exact ⟨a, b, c, d, [], ha, hb, hc, hd, hdig, by rw [← hv, List.append_nil]⟩
      | cons x v =>
        rw [List.cons_append, List.cons.injEq] at hrest
        rw [hv, ← hrest.1] at hcolon
        exact absurd (by simp) hcolon
    · exact ⟨a, b, c, d, v, ha, hb, hc, hd, hdig, by rw [hv]; simp⟩

theorem Numbers.head (h : Numbers s) : ∃ c t, s = c :: t ∧ c.isDigit = true := by
  obtain ⟨a, b, c, d, u, ha, -, -, -, hdig, rfl⟩ := h
  obtain ⟨x, a, rfl⟩ := List.exists_cons_of_ne_nil ha
  exact ⟨x, _, rfl, hdig x (by simp)⟩

/-! ## The claim for a branch -/

/-- **A branch** that takes the names with the property V, as the hosts D, is right. -/
theorem branch_right {p : Char → Bool} {V : Str → Prop} {D : Str → Option ℕ → Desc}
    (htable : ∀ a q n, Taken p s a q → V a → port_of q = some n → parse_host g s = .table ((D a n).host s))
    (hfail : ∀ a q, Taken p s a q → ¬V a ∨ port_of q = none → ∃ err, parse_host g s = .fail err)
    (hnone : (∀ a q, ¬Taken p s a q) → ∃ err, parse_host g s = .fail err)
    (hdesc : ∀ d, Text literal6 d s → ∃ a n, d = D a n ∧ V a ∧ a ≠ [] ∧ (∀ c ∈ a, p c = true) ∧ WithPort a n s)
    (htext : ∀ a n, V a → WithPort a n s → Text literal6 (D a n) s) : Right literal6 g s := by
  constructor
  · intro d hd
    obtain ⟨a, n, rfl, hV, hne, ha, hwith⟩ := hdesc d hd
    obtain ⟨q, htaken, hn⟩ := taken_of_text hne ha hwith
    exact htable a q n htaken hV hn
  · intro hno
    by_cases htaken : ∃ a q, Taken p s a q
    · obtain ⟨a, q, htaken⟩ := htaken
      refine hfail a q htaken ?_
      by_contra hboth
      rw [not_or, not_not] at hboth
      obtain ⟨n, hn⟩ := Option.ne_none_iff_exists'.1 hboth.2
      exact hno (D a n) (htext a n hboth.1 (text_of_taken htaken hn))
    · simp only [not_exists] at htaken
      exact hnone htaken

theorem ipv4_taken {a : Str} {q : Option Str} (h : Taken ipv4_char s a q) :
    two s "^([%d%.]+)$" "^([%d%.]+):(%d+)$" = (some a, q) :=
  two_eq rfl rfl rfl h

theorem hostname_taken {a : Str} {q : Option Str} (h : Taken hostname_char s a q) :
    two s "^([%l%u%d%.%-%_]+)$" "^([%l%u%d%.%-%_]+):(%d+)$" = (some a, q) :=
  two_eq rfl rfl rfl h

/-- a host with brackets is bracketed -/
theorem bracketed_of_text {t : Str} {n : Option ℕ} (h : WithPort ('[' :: t ++ [']']) n s) : Bracketed s := by
  cases h with
  | none => exact ⟨t, [], by simp⟩
  | @some digits port value range => exact ⟨t, ':' :: digits, by simp⟩

theorem not_unix_of_numbers (h : Numbers s) : ¬∃ path, path ≠ [] ∧ s = "unix:".toList ++ path := by
  rintro ⟨path, -, rfl⟩
  obtain ⟨c, t, heq, hc⟩ := h.head
  cases heq
  exact absurd hc (by decide)

theorem not_bracketed_of_numbers (h : Numbers s) : ¬Bracketed s := by
  rintro ⟨a, b, rfl⟩
  obtain ⟨c, t, heq, hc⟩ := h.head
  cases heq
  exact absurd hc (by decide)

/-- the branch for IPv4 -/
theorem numbers_right (hg : Noresolve literal6 g) (hn : Numbers s) (hname : ¬NumbersName s) : Right literal6 g s := by
  have hparse := parse_ipv4 (g := g) (not_unix_of_numbers hn) (not_bracketed_of_numbers hn) hn
  refine branch_right (p := ipv4_char) (V := fun a => literal a = true) (D := .ipv4) ?_ ?_ ?_ ?_ ?_
  · intro a q n htaken hV hport
    obtain ⟨l, hl, hne, hall⟩ := hg.accepts a hV
    rw [hparse, ipv4_taken htaken, ipv4_result]
    simp only [hl, result_of]
    rw [result_port rfl hport]
    simp [deduplicated_same hne hall, Desc.host]
  · intro a q htaken hor
    rw [hparse, ipv4_taken htaken, ipv4_result]
    dsimp only
    cases hV : literal a with
    | false =>
      obtain ⟨err, herr⟩ := hg.refuses a hV
      rw [herr]
      exact ⟨err, rfl⟩
    | true =>
      obtain ⟨l, hl, -⟩ := hg.accepts a hV
      rw [hl, result_of, result_no_port rfl (hor.resolve_left (not_not.2 hV))]
      exact ⟨_, rfl⟩
  · intro hnone
    rw [hparse, ipv4_result, two_none rfl rfl hnone]
    exact ⟨_, rfl⟩
  · intro d hd
    cases hd with
    | ipv4 valid text =>
      obtain ⟨hnum, hchars⟩ := literal_numbers valid
      obtain ⟨c, t, hct, -⟩ := hnum.head
      exact ⟨_, _, rfl, valid, by simp [hct], hchars, text⟩
    | ipv6 valid text => exact absurd (bracketed_of_text text) (not_bracketed_of_numbers hn)
    | hostname valid text => exact absurd ⟨_, _, valid, text, hn.of_withPort text⟩ hname
    | unix nonempty => exact absurd ⟨_, nonempty, rfl⟩ (not_unix_of_numbers hn)
  · exact fun a n hV hwith => .ipv4 hV hwith

/-- the branch for a hostname -/
theorem hostname_right (hunix : ¬∃ path, path ≠ [] ∧ s = "unix:".toList ++ path) (hb : ¬Bracketed s) (hn : ¬Numbers s) :
    Right literal6 g s := by
  have hparse := parse_hostname (g := g) hunix hb hn
  refine branch_right (p := hostname_char) (V := Hostname) (D := .hostname) ?_ ?_ ?_ ?_ ?_
  · intro a q n htaken hV hport
    have hok : ¬(matches_pattern a "%.%." = true ∨ matches_pattern a "%-$" = true) := by
      rw [matches_dots, matches_dash, not_or]
      exact ⟨hV.dots, hV.dash⟩
    rw [hparse, hostname_taken htaken, hostname_result]
    dsimp only
    rw [if_neg hok, result_port rfl hport]
    rfl
  · intro a q htaken hor
    rw [hparse, hostname_taken htaken, hostname_result]
    dsimp only
    by_cases hok : matches_pattern a "%.%." = true ∨ matches_pattern a "%-$" = true
    · rw [if_pos hok]
      exact ⟨_, rfl⟩
    · rw [if_neg hok]
      rw [matches_dots, matches_dash, not_or] at hok
      obtain ⟨hne, hchars, t, ht⟩ := htaken.spec
      have hliteral : literal a = false := by
        by_contra hlit
        rw [Bool.not_eq_false] at hlit
        exact hn (ht ▸ (literal_numbers hlit).1.append t)
      rw [result_no_port rfl (hor.resolve_left (not_not.2 ⟨hne, hchars, hok.1, hok.2, hliteral⟩))]
      exact ⟨_, rfl⟩
  · intro hnone
    rw [hparse, hostname_result, two_none rfl rfl hnone]
    exact ⟨_, rfl⟩
  · intro d hd
    cases hd with
    | ipv4 valid text => exact absurd ((literal_numbers valid).1.withPort text) hn
    | ipv6 valid text => exact absurd (bracketed_of_text text) hb
    | hostname valid text => exact ⟨_, _, rfl, valid, valid.nonempty, valid.chars, text⟩
    | unix nonempty => exact absurd ⟨_, nonempty, rfl⟩ hunix
  · exact fun a n hV hwith => .hostname hV hwith

/-- the branch for a path -/
theorem unix_right {path : Str} (hne : path ≠ []) (hport : ¬UnixPort ("unix:".toList ++ path)) :
    Right literal6 g ("unix:".toList ++ path) := by
  have hunix : ∃ path', path' ≠ [] ∧ "unix:".toList ++ path = "unix:".toList ++ path' := ⟨path, hne, rfl⟩
  refine ⟨fun d hd => ?_, fun hno => absurd (.unix hne) (hno (.unix path))⟩
  rw [parse_unix hne]
  generalize hs : "unix:".toList ++ path = s at hd hport hunix
  cases hd with
  | ipv4 valid text => exact absurd hunix (not_unix_of_numbers ((literal_numbers valid).1.withPort text))
  | ipv6 valid text =>
    obtain ⟨a, b, hab⟩ := bracketed_of_text text
    rw [hab] at hs
    cases hs
  | @hostname name _ port valid text =>
    cases text with
    | none => exact absurd (valid.chars ':' (by rw [← hs]; simp)) (by decide)
    | @some digits n value range =>
      have hcolon : (name ++ ':' :: digits).takeWhile hostname_char = "unix".toList := by rw [← hs]; rfl
      rw [List.takeWhile_append_of_pos valid.chars] at hcolon
      have hunix : name = "unix".toList := by simpa [hostname_char] using hcolon
      subst hunix
      exact absurd ⟨n, .some value range⟩ hport
  | @unix path' nonempty =>
    rw [List.append_cancel_left hs]

/-! ## All strings -/

theorem numbersName_numbers (h : NumbersName s) : Numbers s := by
  obtain ⟨name, port, -, hwith, hname⟩ := h
  exact hname.withPort hwith

theorem result_hostname {l : Locals} {host : Host} (h : result s l = .table host) : host.hostname = l.hostname := by
  cases herr : l.err with
  | some err =>
    rw [result, herr] at h
    cases h
  | none =>
    cases hport : port_of l.port with
    | none =>
      rw [result_no_port herr hport] at h
      cases h
    | some n =>
      rw [result_port herr hport] at h
      cases h
      rfl

/-- an address has no hostname -/
theorem ipv4_result_hostname {r : Option Str × Option Str} {host : Host} (h : ipv4_result g s r = .table host) :
    host.hostname = none := by
  unfold ipv4_result at h
  split at h
  · cases h
  · rename_i ipv4 _
    cases hres : g ipv4 4 with
    | error err =>
      rw [hres, result_of] at h
      exact result_hostname h
    | ok l =>
      rw [hres, result_of] at h
      exact result_hostname h

/-- a name that begins with four numbers is taken for an address -/
theorem not_right_of_numbersName (h : NumbersName s) : ¬Right literal6 g s := by
  intro hright
  have hn := numbersName_numbers h
  have hparse := parse_ipv4 (g := g) (not_unix_of_numbers hn) (not_bracketed_of_numbers hn) hn
  obtain ⟨name, port, hname, hwith, -⟩ := h
  have htable := hright.host _ (.hostname hname hwith)
  rw [hparse] at htable
  have hnone := ipv4_result_hostname htable
  cases hnone

theorem unixPort_unix (h : UnixPort s) : ∃ path, path ≠ [] ∧ s = "unix:".toList ++ path := by
  obtain ⟨port, hwith⟩ := h
  cases hwith with
  | @some digits port value range => exact ⟨digits, (tonumber_digits value).1, rfl⟩

/-- the name "unix" with a port is taken for a path -/
theorem not_right_of_unixPort (h : UnixPort s) : ¬Right literal6 g s := by
  intro hright
  obtain ⟨path, hne, rfl⟩ := unixPort_unix h
  obtain ⟨port, hwith⟩ := h
  have hname : Hostname "unix".toList := by
    refine ⟨by simp, by simp [hostname_char], fun hdots => ?_, fun hdash => ?_, rfl⟩
    · simpa using hdots.subset List.mem_cons_self
    · simpa using hdash.subset List.mem_cons_self
  have htable := hright.host _ (.hostname hname hwith)
  rw [parse_unix hne] at htable
  cases htable

/-- a bracketed string is neither parsed nor refused -/
theorem not_right_of_bracketed (h : Bracketed s) : ¬Right literal6 g s := by
  intro hright
  have hvalue := bracketed_value g h
  by_cases htext : ∃ d, Text literal6 d s
  · obtain ⟨d, hd⟩ := htext
    rw [hright.host d hd] at hvalue
    cases hvalue
  · obtain ⟨err, herr⟩ := hright.other (not_exists.1 htext)
    rw [herr] at hvalue
    cases hvalue

/-- **Exactly these strings** are parsed to their hosts, or refused. -/
theorem parsed_iff (literal6 : Str → Prop) (g : Str → ℕ → Except String (List Addr)) (hg : Noresolve literal6 g) (s : Str) :
    Right literal6 g s ↔ ¬Bracketed s ∧ ¬NumbersName s ∧ ¬UnixPort s := by
  constructor
  · intro hright
    exact ⟨fun h => not_right_of_bracketed h hright, fun h => not_right_of_numbersName h hright,
      fun h => not_right_of_unixPort h hright⟩
  · rintro ⟨hb, hname, hport⟩
    by_cases hunix : ∃ path, path ≠ [] ∧ s = "unix:".toList ++ path
    · obtain ⟨path, hne, rfl⟩ := hunix
      exact unix_right hne hport
    · by_cases hn : Numbers s
      · exact numbers_right hg hn hname
      · exact hostname_right hunix hb hn

/-- as the C library: each address once for each type of socket -/
def resolver (s : Str) (family : ℕ) : Except String (List Addr) :=
  if family = 4 ∧ literal s = true then
    .ok [⟨some "IPv4", some s, some "stream"⟩, ⟨some "IPv4", some s, some "dgram"⟩]
  else if family = 6 ∧ s = "::1".toList then
    .ok [⟨some "IPv6", some s, some "stream"⟩, ⟨some "IPv6", some s, some "dgram"⟩]
  else .error "Name or service not known"

theorem resolver_noresolve : Noresolve (fun s => s = "::1".toList) resolver where
  accepts s h := ⟨_, if_pos ⟨rfl, h⟩, by simp, by simp⟩
  refuses s h := by
    have h4 : ¬(4 = 4 ∧ literal s = true) := by simp [h]
    exact ⟨_, (if_neg h4).trans (if_neg (by simp))⟩
  accepts6 s h := ⟨_, (if_neg (by simp)).trans (if_pos ⟨rfl, h⟩), by simp, by simp⟩
  refuses6 s h := by
    have h6 : ¬(6 = 6 ∧ s = "::1".toList) := fun h6 => h h6.2
    exact ⟨_, (if_neg (by simp)).trans (if_neg h6)⟩

/-- a hostname with a port -/
theorem parsed_hostname : Right (fun s => s = "::1".toList) resolver "example.com:80".toList := by
  refine (parsed_iff _ resolver resolver_noresolve _).2 ⟨fun h => ?_, fun h => ?_, fun h => ?_⟩
  · obtain ⟨a, b, hab⟩ := h
    cases hab
  · obtain ⟨c, t, hct, hc⟩ := (numbersName_numbers h).head
    cases hct
    exact absurd hc (by decide)
  · obtain ⟨path, -, hpath⟩ := unixPort_unix h
    cases hpath

/-- **An IPv6 address** with a port: the result is a string. -/
theorem not_parsed :
    Text (fun s => s = "::1".toList) (.ipv6 "::1".toList (some 80)) "[::1]:80".toList ∧
      parse_host resolver "[::1]:80".toList = .value "invalid IPv6 format" ∧
      ¬Right (fun s => s = "::1".toList) resolver "[::1]:80".toList := by
  have hwith : WithPort "[::1]".toList (some 80) "[::1]:80".toList := @WithPort.some _ "80".toList 80 rfl (by decide)
  have htext : Text (fun s => s = "::1".toList) (.ipv6 "::1".toList (some 80)) "[::1]:80".toList := .ipv6 rfl hwith
  have hvalue : parse_host resolver "[::1]:80".toList = .value "invalid IPv6 format" := rfl
  refine ⟨htext, hvalue, fun h => ?_⟩
  rw [h.host _ htext] at hvalue
  cases hvalue

end Shuttlesock.ParseHost
