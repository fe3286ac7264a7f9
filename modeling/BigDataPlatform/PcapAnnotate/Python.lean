import BigDataPlatform.Lib.Pack

/-! # The Python the annotator is written in

Exceptions, slices, `struct` packing with its range check, and the two socket
address formatters, as the standard library documents them. -/
namespace BigDataPlatform.PcapAnnotate
open BigDataPlatform.Lib.Pack

/-- What ends a run other than returning: `sys.exit(text)` or an exception
nothing catches. Either way the exit status is not zero. -/
inductive Failure where
  | exit (message : String)
  | structError
  | indexError
  | osError
  | valueError
deriving DecidableEq

abbrev Py := Except Failure

/-- `b[i:j]`, clipped to the bytes there are. -/
def slice (b : Bytes) (i j : Nat) : Bytes := (b.drop i).take (j - i)

/-- `text.encode()`. -/
def encode (text : String) : Bytes := text.toUTF8.data.toList

/-- `struct.pack` of unsigned fields given as (width in bytes, value): a value
outside its field raises `struct.error`. -/
def structPack (e : ByteOrder) : List (Nat × Nat) → Py Bytes
  | [] => .ok []
  | (n, v) :: fields =>
    if v < 256 ^ n then
      match structPack e fields with
      | .ok rest => .ok (pack e n v ++ rest)
      | .error f => .error f
    else .error .structError

def u32 (e : ByteOrder) (b : Bytes) : UInt32 := UInt32.ofNat (unpack e b)

/-- `struct.unpack(">H", b)[0]`. -/
def unpackH (b : Bytes) : Py Nat :=
  if b.length = 2 then .ok (unpack .big b) else .error .structError

/-- `struct.unpack(e + "II", b)`. -/
def unpackII (e : ByteOrder) (b : Bytes) : Py (UInt32 × UInt32) :=
  if b.length = 8 then .ok (u32 e (slice b 0 4), u32 e (slice b 4 8)) else .error .structError

/-- `struct.unpack(e + "IIII", b)`. -/
def unpackIIII (e : ByteOrder) (b : Bytes) : Py (UInt32 × UInt32 × UInt32 × UInt32) :=
  if b.length = 16 then
    .ok (u32 e (slice b 0 4), u32 e (slice b 4 8), u32 e (slice b 8 12), u32 e (slice b 12 16))
  else .error .structError

/-! ## Packing within range -/

theorem structPack_ok (e : ByteOrder) {fields : List (Nat × Nat)} (h : ∀ f ∈ fields, f.2 < 256 ^ f.1) :
    structPack e fields = .ok (fields.flatMap fun f => pack e f.1 f.2) := by
  induction fields with
  | nil => rfl
  | cons f fields ih =>
    obtain ⟨n, v⟩ := f
    have hv : v < 256 ^ n := h (n, v) (by simp)
    rw [structPack, if_pos hv, ih (fun g hg => h g (by simp [hg]))]
    rfl

/-- A field out of range raises; nothing else does. -/
theorem structPack_error {e : ByteOrder} {fields : List (Nat × Nat)} (h : ¬ ∀ f ∈ fields, f.2 < 256 ^ f.1) :
    structPack e fields = .error .structError := by
  induction fields with
  | nil => exact absurd (by simp) h
  | cons f fields ih =>
    obtain ⟨n, v⟩ := f
    rw [structPack]
    split
    · next hv =>
      rw [ih]
      intro hall
      refine h fun g hg => ?_
      rcases List.mem_cons.mp hg with rfl | hg
      · exact hv
      · exact hall g hg
    · rfl

theorem slice_append {a b : Bytes} {n m : Nat} (ha : a.length = n) :
    slice (a ++ b) n m = b.take (m - n) := by
  subst ha; simp [slice]

@[simp] theorem u32_pack (e : ByteOrder) (v : UInt32) : u32 e (pack e 4 v.toNat) = v := by
  rw [u32, unpack_pack_u32, UInt32.ofNat_toNat]

/-- Four bytes are the packing of the word they spell. -/
theorem pack_u32 (e : ByteOrder) {b : Bytes} (h : b.length = 4) : pack e 4 (u32 e b).toNat = b := by
  have hlt := unpack_lt e b
  rw [h] at hlt
  have hv : (u32 e b).toNat = unpack e b := by
    rw [u32, UInt32.toNat_ofNat', Nat.mod_eq_of_lt (by omega)]
  rw [hv]
  exact pack_unpack e h

/-! ## Address text -/

/-- `socket.inet_ntoa`: the dotted quad of four bytes. -/
def dottedQuad (packed : Bytes) : String := ".".intercalate (packed.map fun b => toString b.toNat)

def inetNtoa (packed : Bytes) : Py String :=
  if packed.length = 4 then .ok (dottedQuad packed) else .error .osError

/-- The eight 16-bit words of an IPv6 address. -/
def words16 : Bytes → List Nat
  | a :: b :: rest => (a.toNat * 256 + b.toNat) :: words16 rest
  | _ => []

/-- The longer of two runs of zero words (base, length), the first on a tie. -/
def keepLonger (best cur : Option (Nat × Nat)) : Option (Nat × Nat) :=
  match best, cur with
  | none, cur => cur
  | some b, none => some b
  | some b, some c => if b.2 < c.2 then some c else some b

def zeroRun : List Nat → Nat → Option (Nat × Nat) → Option (Nat × Nat) → Option (Nat × Nat)
  | [], _, best, cur => keepLonger best cur
  | w :: ws, i, best, cur =>
    if w = 0 then
      zeroRun ws (i + 1) best (match cur with | none => some (i, 1) | some (b, l) => some (b, l + 1))
    else zeroRun ws (i + 1) (keepLonger best cur) none

/-- The run `inet_ntop` writes as `::`: the longest one, of at least two words. -/
def shorthand (ws : List Nat) : Option (Nat × Nat) :=
  (zeroRun ws 0 none none).filter fun r => 2 ≤ r.2

def hexText (w : Nat) : String := String.ofList (Nat.toDigits 16 w)

/-- Word `i` lies in the run. -/
def inRun (best : Option (Nat × Nat)) (i : Nat) : Bool := match best with
  | some (b, l) => b ≤ i && i < b + l
  | none => false

/-- An IPv4-mapped or IPv4-compatible address ends in a dotted quad. -/
def embedsIpv4 (best : Option (Nat × Nat)) (all : List Nat) : Bool :=
  best == some (0, 6) || best == some (0, 5) && all[5]? == some 0xffff

def ipv6Loop (packed : Bytes) (best : Option (Nat × Nat)) (all : List Nat) : List Nat → Nat → String
  | [], i => if inRun best (i - 1) then ":" else ""
  | w :: ws, i =>
    if inRun best i then
      (if best.map Prod.fst == some i then ":" else "") ++ ipv6Loop packed best all ws (i + 1)
    else (if i = 0 then "" else ":") ++
      if i = 6 ∧ embedsIpv4 best all then dottedQuad (packed.drop 12)
      else hexText w ++ ipv6Loop packed best all ws (i + 1)

/-- `socket.inet_ntop(AF_INET6, packed)`. -/
def inetNtop6 (packed : Bytes) : Py String :=
  if packed.length = 16 then
    .ok (ipv6Loop packed (shorthand (words16 packed)) (words16 packed) (words16 packed) 0)
  else .error .valueError

end BigDataPlatform.PcapAnnotate
