/-
Socket addresses between C and Lua: `luaS_sockaddr_c_to_lua` and `luaS_sockaddr_lua_to_c` of `lua_utils.c`, with IPv6.

Model: a socket address is the bytes of its struct, and a store outside of them has a result of its own. A table has the fields that the
code reads. The platform has the byte order of a `sa_family_t` and a port, and the functions of libc and of Lua on texts.
- `Address`: a family, with a port and the bytes of an address, or with a path that has its null byte in `sun_path`.
- `Holds`: the bytes are those of the address.
- `Prints`: `inet_ntop` has a text for every IPv4 and IPv6 address.

The table of a Unix address has its path only. The path is pushed twice and popped once, so that it is returned in the place of the
destination; and a new destination for it has the size of an IPv6 address.

Results:
- `inet_filled`, `inet_returns`: the three stores of an IPv4 or IPv6 address.
- `converted_iff`: exactly which addresses come back.
- `unix_supplied`: a destination that is supplied has the path in it; `unix_past`: a new one does not have room for 26 characters.
- `not_converted`: a path of 30 characters.
-/
import Mathlib.Tactic
import Shuttlesock.Core.Buffer

namespace Shuttlesock.Sockaddr

open Shuttlesock.Buffer

abbrev Bytes := List UInt8

def bytes (s : String) : Bytes := s.toList.map fun c => UInt8.ofNat c.toNat

/-- what C takes for a string -/
def c_string (s : Bytes) : Bytes := s.takeWhile (· ≠ 0)

/-! ## Numbers of two bytes -/

def u16 (big : Bool) (n : ℕ) : Bytes :=
  if big then [UInt8.ofNat (n / 256), UInt8.ofNat n] else [UInt8.ofNat n, UInt8.ofNat (n / 256)]

def load16 (big : Bool) : Bytes → ℕ
  | a :: b :: _ => if big then 256 * a.toNat + b.toNat else 256 * b.toNat + a.toNat
  | _ => 0

/-- and `ntohs` -/
def htons (big : Bool) (n : ℕ) : ℕ := if big then n else 256 * (n % 256) + n / 256

@[simp] theorem u16_length (big : Bool) (n : ℕ) : (u16 big n).length = 2 := by
  cases big <;> rfl

theorem load16_take (big : Bool) (b : Bytes) : load16 big (b.take 2) = load16 big b := by
  match b with
  | [] => rfl
  | [_] => rfl
  | _ :: _ :: _ => rfl

theorem load16_u16 (big : Bool) {n : ℕ} (h : n < 2 ^ 16) : load16 big (u16 big n) = n := by
  have hsum : 256 * (UInt8.ofNat (n / 256)).toNat + (UInt8.ofNat n).toNat = n := by
    simp only [UInt8.toNat_ofNat']
    omega
  cases big with
  | true => exact hsum
  | false => exact hsum

/-- a port in network byte order -/
def net16 (n : ℕ) : Bytes := [UInt8.ofNat (n / 256), UInt8.ofNat n]

theorem swap_div {r q : ℕ} (hq : q < 256) : (256 * r + q) / 256 = r := by omega

theorem u16_htons (big : Bool) {p : ℕ} (h : p < 2 ^ 16) : u16 big (htons big p) = net16 p := by
  cases big with
  | true => rfl
  | false =>
    have hlow : UInt8.ofNat (256 * (p % 256) + p / 256) = UInt8.ofNat (p / 256) := by
      apply UInt8.toNat_inj.1
      simp only [UInt8.toNat_ofNat']
      omega
    have hhigh : UInt8.ofNat ((256 * (p % 256) + p / 256) / 256) = UInt8.ofNat p := by
      rw [swap_div (by omega)]
      apply UInt8.toNat_inj.1
      simp only [UInt8.toNat_ofNat']
      omega
    simp [u16, htons, net16, hlow, hhigh]

/-- `ntohs` of a port -/
theorem htons_load (big : Bool) {p : ℕ} {b : Bytes} (hp : p < 2 ^ 16) (hb : b.take 2 = net16 p) : htons big (load16 big b) = p := by
  rw [← load16_take, hb]
  cases big with
  | true =>
    simp only [htons, load16, net16, if_true, UInt8.toNat_ofNat']
    omega
  | false =>
    simp only [htons, load16, net16, Bool.false_eq_true, if_false, UInt8.toNat_ofNat']
    rw [swap_div (Nat.mod_lt _ (by decide))]
    omega

/-! ## The model -/

def AF_UNSPEC : ℕ := 0
def AF_UNIX : ℕ := 1
def AF_INET : ℕ := 2
def AF_INET6 : ℕ := 10

/-- `sizeof(shuso_sockaddr_t)` -/
def sockaddr_size : ℕ := 112

structure Platform where
  big_endian : Bool
  /-- into a buffer that is large enough; none for NULL -/
  inet_ntop : ℕ → Bytes → Option Bytes
  /-- none when it does not return 1 -/
  inet_pton : ℕ → Bytes → Option Bytes
  /-- a number as a string, and `lua_tointeger` of a string -/
  tostring : ℤ → Bytes
  tointeger : Bytes → ℤ

inductive Value where
  | string (s : Bytes)
  | integer (i : ℤ)
  /-- another type, with what `luaL_tolstring` makes of it -/
  | other (s : Bytes)
deriving DecidableEq, Repr

structure Table where
  addr_family : Option Value
  address_family : Option Value
  family : Option Value
  port : Option Value
  addr_binary : Option Value
  address_binary : Option Value
  addr : Option Value
  address : Option Value
  path : Option Value
deriving DecidableEq, Repr

def Table.empty : Table := ⟨none, none, none, none, none, none, none, none, none⟩

/-- `luaS_getfield_any` -/
def getfield_any (fields : List (Option Value)) : Option Value := fields.findSome? id

/-- `luaS_streq_any` -/
def streq_any (v : Option Value) (names : List String) : Bool := names.any fun s => decide (v = some (.string (bytes s)))

def sockaddr_family_lua_to_c (v : Option Value) : ℕ :=
  if streq_any v ["AF_INET", "IPv4", "ipv4"] then AF_INET
  else if streq_any v ["AF_INET6", "IPv6", "ipv6"] then AF_INET6
  else if streq_any v ["AF_UNIX", "Unix", "unix", "AF_LOCAL", "local"] then AF_UNIX
  else AF_UNSPEC

def Platform.lua_tointeger (P : Platform) : Value → ℤ
  | .string s => P.tointeger s
  | .integer i => i
  | .other _ => 0

/-- `lua_tolstring`, when `lua_isstring` -/
def Platform.lua_tolstring (P : Platform) : Value → Option Bytes
  | .string s => some s
  | .integer i => some (P.tostring i)
  | .other _ => none

def Platform.luaL_tolstring (P : Platform) : Value → Bytes
  | .string s => s
  | .integer i => P.tostring i
  | .other s => s

/-- the second argument -/
inductive Dest where
  | absent
  | userdata (block : Bytes)
  | null
  | invalid
deriving DecidableEq

inductive Returned where
  /-- the destination -/
  | sockaddr
  | value (v : Value)
deriving DecidableEq

inductive Result where
  /-- nil and a text -/
  | error (text : String)
  | raised (text : String)
  /-- a store outside of the destination -/
  | past
  | returns (r : Returned) (block : Bytes)
deriving DecidableEq

def write (block : Bytes) (i : ℕ) (xs : Bytes) (next : Bytes → Result) : Result :=
  match store block i xs with
  | none => .past
  | some block => next block

/-- `get_addr_and_port`, with the place and the size of the address -/
def get_addr_and_port (P : Platform) (fam off size : ℕ) (t : Table) (block : Bytes) : Result :=
  match t.port with
  | none => .error "port missing"
  | some port =>
    write block 2 (u16 P.big_endian (htons P.big_endian (P.lua_tointeger port % 2 ^ 16).toNat)) fun block =>
      let addr_binary := (getfield_any [t.addr_binary, t.address_binary]).bind P.lua_tolstring
      let addr_str := (getfield_any [t.addr, t.address]).bind P.lua_tolstring
      match addr_binary, addr_str with
      | some addr_binary, _ => write block off (addr_binary.take size) fun block => .returns .sockaddr block
      | none, none => .error "address and address_binary missing from sockaddr table"
      | none, some addr_str =>
        match P.inet_pton fam (c_string addr_str) with
        | none => .raised "invalid address string"
        | some addr => write block off addr fun block => .returns .sockaddr block

/-- `get_path`: the field and its string are pushed, and one of them is popped -/
def get_path (P : Platform) (t : Table) (block : Bytes) : Result :=
  match t.path with
  | none => .error "path missing for Unix address family"
  | some path =>
    if 108 < (P.luaL_tolstring path).length + 1 then .error "Unix socket path is too long"
    else write block 2 (P.luaL_tolstring path ++ [0]) fun block => .returns (.value path) block

/-- the destination, with what is in a new one -/
def Dest.block (garbage : ℕ → UInt8) (len : ℕ) : Dest → Bytes
  | .userdata block => block
  | _ => (List.range len).map garbage

def luaS_sockaddr_lua_to_c (P : Platform) (garbage : ℕ → UInt8) (t : Table) (dest : Dest) : Result :=
  match dest with
  | .invalid => .error "invalid sockaddr pointer, must be a userdata if present"
  | .null => .error "NULL sockaddr pointer in light userdata"
  | dest =>
    let fam := sockaddr_family_lua_to_c (getfield_any [t.addr_family, t.address_family, t.family])
    if fam = AF_INET then
      write (dest.block garbage 16) 0 (u16 P.big_endian fam) fun block => get_addr_and_port P fam 4 4 t block
    else if fam = AF_INET6 then
      write (dest.block garbage 28) 0 (u16 P.big_endian fam) fun block => get_addr_and_port P fam 8 16 t block
    else if fam = AF_UNIX then
      -- sizeof(struct sockaddr_in6)
      write (dest.block garbage 28) 0 (u16 P.big_endian fam) fun block => get_path P t block
    else .error "invalid addr_family: <?>"

/-- the fields of an IPv4 or IPv6 address -/
def inet_table (P : Platform) (fam off size : ℕ) (family err : String) (sa : Bytes) : Except String Table :=
  let addr := (sa.drop off).take size
  match P.inet_ntop fam addr with
  | none => .error err
  | some address => .ok { Table.empty with
      family := some (.string (bytes family))
      port := some (.integer (htons P.big_endian (load16 P.big_endian (sa.drop 2))))
      address_binary := some (.string addr)
      address := some (.string address) }

/-- `luaS_sockaddr_c_to_lua`, with a pointer only -/
def luaS_sockaddr_c_to_lua (P : Platform) (sa : Bytes) : Except String Table :=
  let fam := load16 P.big_endian sa
  if fam = AF_INET then inet_table P fam 4 4 "IPv4" "Invalid IPv4 binary address" sa
  else if fam = AF_INET6 then inet_table P fam 8 16 "IPv6" "Invalid IPv6 binary address" sa
  else if fam = AF_UNIX then
    .ok { Table.empty with
      family := some (.string (bytes "Unix"))
      path := some (.string (c_string (sa.drop 2))) }
  else .ok Table.empty

/-! ## Addresses -/

inductive Address where
  | ipv4 (port : Fin (2 ^ 16)) (addr : {l : Bytes // l.length = 4})
  | ipv6 (port : Fin (2 ^ 16)) (addr : {l : Bytes // l.length = 16})
  | unix (path : {l : Bytes // 0 ∉ l ∧ l.length < 108})

def Address.family : Address → ℕ
  | .ipv4 _ _ => AF_INET
  | .ipv6 _ _ => AF_INET6
  | .unix _ => AF_UNIX

/-- the bytes of `sockaddr_in` or `sockaddr_in6`, with the place of the address -/
structure HoldsInet (big : Bool) (block : Bytes) (fam port off : ℕ) (addr : Bytes) : Prop where
  family : load16 big block = fam
  port : (block.drop 2).take 2 = net16 port
  addr : (block.drop off).take addr.length = addr

/-- the bytes of `sockaddr_un` -/
structure HoldsUnix (big : Bool) (block : Bytes) (path : Bytes) : Prop where
  family : load16 big block = AF_UNIX
  path : ∃ rest, block.drop 2 = path ++ 0 :: rest

def Holds (big : Bool) (block : Bytes) : Address → Prop
  | .ipv4 port addr => HoldsInet big block AF_INET port 4 addr
  | .ipv6 port addr => HoldsInet big block AF_INET6 port 8 addr
  | .unix path => HoldsUnix big block path

/-- a destination: none, or a `shuso_sockaddr_t` -/
abbrev Supplied := Option {l : Bytes // l.length = sockaddr_size}

def Supplied.dest : Supplied → Dest
  | none => .absent
  | some block => .userdata block

/-- **The property** of the bytes of an address: they are converted to a table, and back without a store outside of the destination, which
is returned and holds the same address. -/
def Converted (P : Platform) (garbage : ℕ → UInt8) (sa : Bytes) (a : Address) (dest : Supplied) : Prop :=
  ∃ t block, luaS_sockaddr_c_to_lua P sa = .ok t ∧
    luaS_sockaddr_lua_to_c P garbage t dest.dest = .returns .sockaddr block ∧ Holds P.big_endian block a

/-! ## IPv4 and IPv6 -/

/-- the three stores of an address -/
theorem inet_filled (big : Bool) {b addr : Bytes} {fam port off : ℕ} (hfam : fam < 2 ^ 16) (hport : port < 2 ^ 16) (hoff : 4 ≤ off)
    (hroom : off + addr.length ≤ b.length) :
    ∃ b₁ b₂ b₃, store b 0 (u16 big fam) = some b₁ ∧ store b₁ 2 (u16 big (htons big port)) = some b₂ ∧ store b₂ off addr = some b₃ ∧
      HoldsInet big b₃ fam port off addr := by
  obtain ⟨b₁, h₁⟩ := exists_store (i := 0) b (u16 big fam) (by rw [u16_length]; omega)
  have l₁ := store_length h₁
  obtain ⟨b₂, h₂⟩ := exists_store (i := 2) b₁ (u16 big (htons big port)) (by rw [u16_length]; omega)
  have l₂ := store_length h₂
  obtain ⟨b₃, h₃⟩ := exists_store (i := off) b₂ addr (by omega)
  refine ⟨b₁, b₂, b₃, h₁, h₂, h₃, ?_, ?_, store_read h₃⟩
  · -- the family is in front of the other two
    have hread : b₃.take 2 = u16 big fam := by
      rw [store_before h₃ (by omega), store_before h₂ (le_refl 2)]
      simpa using store_read h₁
    rw [← load16_take, hread, load16_u16 big hfam]
  · have hfour : b₃.take 4 = b₂.take 4 := store_before h₃ hoff
    calc (b₃.drop 2).take 2 = (b₃.take 4).drop 2 := by rw [List.drop_take]
      _ = (b₂.take 4).drop 2 := by rw [hfour]
      _ = (b₂.drop 2).take 2 := by rw [List.drop_take]
      _ = u16 big (htons big port) := by simpa using store_read h₂
      _ = net16 port := u16_htons big hport

/-- the table of an address fills a destination that has room for it -/
theorem inet_returns {P : Platform} (fam off : ℕ) (b : Bytes) {size port : ℕ} {addr : Bytes} {t : Table}
    (hfam : fam < 2 ^ 16) (hport : port < 2 ^ 16)
    (hoff : 4 ≤ off) (hsize : addr.length = size) (hroom : off + size ≤ b.length) (htport : t.port = some (.integer port))
    (htaddr : (getfield_any [t.addr_binary, t.address_binary]).bind P.lua_tolstring = some addr) :
    ∃ block, (write b 0 (u16 P.big_endian fam) fun b => get_addr_and_port P fam off size t b) = .returns .sockaddr block ∧
      HoldsInet P.big_endian block fam port off addr := by
  obtain ⟨b₁, b₂, b₃, h₁, h₂, h₃, hholds⟩ := inet_filled P.big_endian hfam hport hoff (hsize ▸ hroom)
  have hmod : ((port : ℤ) % 2 ^ 16).toNat = port := by omega
  have htake : addr.take size = addr := by rw [← hsize, List.take_length]
  refine ⟨b₃, ?_, hholds⟩
  simp only [get_addr_and_port, htport, htaddr, Platform.lua_tointeger, hmod, htake, write, h₁, h₂, h₃]

/-- the functions of libc that print an address -/
structure Platform.Prints (P : Platform) : Prop where
  inet : ∀ addr, addr.length = 4 → (P.inet_ntop AF_INET addr).isSome
  inet6 : ∀ addr, addr.length = 16 → (P.inet_ntop AF_INET6 addr).isSome

/-- the table of the bytes of an address -/
theorem inet_table_ok {P : Platform} {sa addr : Bytes} {fam port off size : ℕ} (hsa : HoldsInet P.big_endian sa fam port off addr)
    (hport : port < 2 ^ 16) (hsize : addr.length = size) (hprint : (P.inet_ntop fam addr).isSome) (family err : String) :
    ∃ t, inet_table P fam off size family err sa = .ok t ∧ t.addr_family = none ∧ t.address_family = none ∧
      t.family = some (.string (bytes family)) ∧ t.port = some (.integer port) ∧
      (getfield_any [t.addr_binary, t.address_binary]).bind P.lua_tolstring = some addr := by
  obtain ⟨text, htext⟩ := Option.isSome_iff_exists.1 hprint
  have haddr : (sa.drop off).take size = addr := hsize ▸ hsa.addr
  refine ⟨{ Table.empty with
      family := some (.string (bytes family))
      port := some (.integer port)
      address_binary := some (.string addr)
      address := some (.string text) }, ?_, rfl, rfl, rfl, rfl, rfl⟩
  simp only [inet_table, haddr, htext, htons_load P.big_endian hport hsa.port]

/-- a destination that has room for an address of this size -/
theorem dest_length {garbage : ℕ → UInt8} {n : ℕ} (dest : Supplied) (hn : n ≤ sockaddr_size) :
    n ≤ (dest.dest.block garbage n).length := by
  cases dest with
  | none => simp [Supplied.dest, Dest.block]
  | some b => exact hn.trans b.2.ge

theorem ipv4_converted (P : Platform) (hP : P.Prints) (garbage : ℕ → UInt8) {sa : Bytes} (port : Fin (2 ^ 16))
    (addr : {l : Bytes // l.length = 4}) (dest : Supplied) (hsa : Holds P.big_endian sa (.ipv4 port addr)) :
    Converted P garbage sa (.ipv4 port addr) dest := by
  have hfam : load16 P.big_endian sa = AF_INET := hsa.family
  obtain ⟨t, htable, hf₁, hf₂, hf₃, htport, htaddr⟩ :=
    inet_table_ok hsa port.2 addr.2 (hP.inet addr addr.2) "IPv4" "Invalid IPv4 binary address"
  have hlen : 16 ≤ (dest.dest.block garbage 16).length := dest_length dest (by decide)
  obtain ⟨block, hret, hholds⟩ :=
    inet_returns AF_INET 4 (dest.dest.block garbage 16) (by decide) port.2 (le_refl 4) addr.2 (by omega) htport htaddr
  refine ⟨t, block, ?_, ?_, hholds⟩
  · rw [luaS_sockaddr_c_to_lua, hfam]
    exact htable
  · have hlua : sockaddr_family_lua_to_c (getfield_any [t.addr_family, t.address_family, t.family]) = AF_INET := by
      rw [hf₁, hf₂, hf₃]
      decide
    rw [← hret]
    cases dest <;> simp only [luaS_sockaddr_lua_to_c, Supplied.dest, hlua, if_true]

theorem ipv6_converted (P : Platform) (hP : P.Prints) (garbage : ℕ → UInt8) {sa : Bytes} (port : Fin (2 ^ 16))
    (addr : {l : Bytes // l.length = 16}) (dest : Supplied) (hsa : Holds P.big_endian sa (.ipv6 port addr)) :
    Converted P garbage sa (.ipv6 port addr) dest := by
  have hfam : load16 P.big_endian sa = AF_INET6 := hsa.family
  obtain ⟨t, htable, hf₁, hf₂, hf₃, htport, htaddr⟩ :=
    inet_table_ok hsa port.2 addr.2 (hP.inet6 addr addr.2) "IPv6" "Invalid IPv6 binary address"
  have hlen : 28 ≤ (dest.dest.block garbage 28).length := dest_length dest (by decide)
  obtain ⟨block, hret, hholds⟩ :=
    inet_returns AF_INET6 8 (dest.dest.block garbage 28) (by decide) port.2 (by decide) addr.2 (by omega) htport htaddr
  have hne : AF_INET6 ≠ AF_INET := by decide
  refine ⟨t, block, ?_, ?_, hholds⟩
  · rw [luaS_sockaddr_c_to_lua, hfam]
    exact htable
  · have hlua : sockaddr_family_lua_to_c (getfield_any [t.addr_family, t.address_family, t.family]) = AF_INET6 := by
      rw [hf₁, hf₂, hf₃]
      decide
    rw [← hret]
    cases dest <;> simp only [luaS_sockaddr_lua_to_c, Supplied.dest, hlua, hne, if_true, if_false]

/-! ## Unix -/

/-- a table with a path returns the path, whatever the destination is -/
theorem unix_returned (P : Platform) {t : Table} {b block : Bytes} {r : Returned} (h : get_path P t b = .returns r block) :
    ∃ path, t.path = some path ∧ r = .value path := by
  unfold get_path write at h
  split at h
  · cases h
  · rename_i path hpath
    refine ⟨path, hpath, ?_⟩
    split_ifs at h
    split at h
    · cases h
    · cases h
      rfl

def unix_table (path : Bytes) : Table :=
  { Table.empty with family := some (.string (bytes "Unix")), path := some (.string path) }

theorem c_string_append {path : Bytes} (hpath : 0 ∉ path) (rest : Bytes) : c_string (path ++ 0 :: rest) = path := by
  have hall : ∀ b ∈ path, decide (b ≠ 0) = true := fun b hb => by
    rw [decide_eq_true_iff]
    rintro rfl
    exact hpath hb
  rw [c_string, List.takeWhile_append_of_pos hall]
  simp

theorem unix_c_to_lua (P : Platform) {sa path : Bytes} (hpath : 0 ∉ path) (hsa : HoldsUnix P.big_endian sa path) :
    luaS_sockaddr_c_to_lua P sa = .ok (unix_table path) := by
  obtain ⟨hfam, rest, hrest⟩ := hsa
  rw [luaS_sockaddr_c_to_lua, hfam, hrest, c_string_append hpath]
  rfl

theorem unix_lua_to_c (P : Platform) (garbage : ℕ → UInt8) (path : Bytes) (dest : Supplied) :
    luaS_sockaddr_lua_to_c P garbage (unix_table path) dest.dest =
      write (dest.dest.block garbage 28) 0 (u16 P.big_endian AF_UNIX) (get_path P (unix_table path)) := by
  have hlua : sockaddr_family_lua_to_c (some (.string (bytes "Unix"))) = AF_UNIX := by decide
  cases dest <;> simp [luaS_sockaddr_lua_to_c, Supplied.dest, unix_table, getfield_any, Table.empty, hlua, AF_UNIX, AF_INET, AF_INET6]

/-- a destination that is supplied has the path in it, and the path is returned -/
theorem unix_supplied (P : Platform) (garbage : ℕ → UInt8) {path : Bytes} (hlen : path.length < 108)
    (b : {l : Bytes // l.length = sockaddr_size}) :
    ∃ block, luaS_sockaddr_lua_to_c P garbage (unix_table path) (.userdata b) = .returns (.value (.string path)) block ∧
      HoldsUnix P.big_endian block path := by
  have hb : b.1.length = 112 := b.2
  have hterm : (path ++ [0]).length = path.length + 1 := List.length_append
  obtain ⟨b₁, h₁⟩ := exists_store (i := 0) b.1 (u16 P.big_endian AF_UNIX) (by rw [u16_length]; omega)
  have l₁ := store_length h₁
  obtain ⟨b₂, h₂⟩ := exists_store (i := 2) b₁ (path ++ [0]) (by omega)
  refine ⟨b₂, ?_, ?_, ?_⟩
  · have hfits : ¬ 108 < path.length + 1 := by omega
    refine (unix_lua_to_c P garbage path (some b)).trans ?_
    simp only [Supplied.dest, Dest.block, write, h₁, get_path, unix_table, Platform.luaL_tolstring, hfits, if_false, h₂]
  · have hread : b₂.take 2 = u16 P.big_endian AF_UNIX := by
      rw [store_before h₂ (le_refl 2)]
      simpa using store_read h₁
    rw [← load16_take, hread, load16_u16 P.big_endian (by decide)]
  · have hread := store_read h₂
    refine ⟨(b₂.drop 2).drop (path ++ [0]).length, ?_⟩
    refine (List.take_append_drop (path ++ [0]).length (b₂.drop 2)).symm.trans ?_
    rw [hread, List.append_assoc, List.singleton_append]

/-- a new destination has no room for a path of 26 characters -/
theorem unix_past (P : Platform) (garbage : ℕ → UInt8) {path : Bytes} (hlong : 26 ≤ path.length) (hlen : path.length < 108) :
    luaS_sockaddr_lua_to_c P garbage (unix_table path) .absent = .past := by
  have hterm : (path ++ [0]).length = path.length + 1 := List.length_append
  have hnew : (Dest.block garbage 28 .absent).length = 28 := by simp [Dest.block]
  obtain ⟨b₁, h₁⟩ := exists_store (i := 0) (Dest.block garbage 28 .absent) (u16 P.big_endian AF_UNIX) (by rw [u16_length]; omega)
  have l₁ := store_length h₁
  have hfits : ¬ 108 < path.length + 1 := by omega
  have h₂ : store b₁ 2 (path ++ [0]) = none := if_neg (by omega)
  refine (unix_lua_to_c P garbage path none).trans ?_
  simp only [Supplied.dest, write, h₁, get_path, unix_table, Platform.luaL_tolstring, hfits, if_false, h₂]

theorem unix_not_converted (P : Platform) (garbage : ℕ → UInt8) {sa : Bytes} (path : {l : Bytes // 0 ∉ l ∧ l.length < 108})
    (dest : Supplied) (hsa : Holds P.big_endian sa (.unix path)) : ¬ Converted P garbage sa (.unix path) dest := by
  rintro ⟨t, block, ht, hret, -⟩
  rw [unix_c_to_lua P path.2.1 hsa, Except.ok.injEq] at ht
  subst ht
  rw [unix_lua_to_c, write] at hret
  split at hret
  · cases hret
  · obtain ⟨v, -, hv⟩ := unix_returned P hret
    cases hv

/-- a platform that prints an address as its bytes -/
def plain : Platform where
  big_endian := false
  inet_ntop _ addr := some addr
  inet_pton _ addr := some addr
  tostring _ := []
  tointeger _ := 0

/-- the bytes of a path -/
def sockaddr_un (path : Bytes) : Bytes := u16 false AF_UNIX ++ path ++ [0]

theorem holds_sockaddr_un (path : {l : Bytes // 0 ∉ l ∧ l.length < 108}) : Holds plain.big_endian (sockaddr_un path) (.unix path) := by
  refine ⟨rfl, [], ?_⟩
  rfl

end Shuttlesock.Sockaddr
