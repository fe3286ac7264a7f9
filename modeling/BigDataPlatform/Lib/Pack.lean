import Mathlib.Tactic.Ring
import Mathlib.Tactic.NormNum
import Mathlib.Algebra.Order.Group.Nat

/-! # Fixed-width integers as bytes

An unsigned integer of `n` bytes in either byte order, as a struct packing
library writes it: the width laws, and the two round trips. Bytes are
`List UInt8`, which proofs can take apart. -/
namespace BigDataPlatform.Lib.Pack

abbrev Bytes := List UInt8

inductive ByteOrder where
  | little
  | big
deriving DecidableEq, Repr

/-- The `n` low bytes of `v`, least significant first. -/
def packLE : Nat → Nat → Bytes
  | 0, _ => []
  | n + 1, v => UInt8.ofNat v :: packLE n (v / 256)

/-- The number that bytes spell, least significant first. -/
def unpackLE : Bytes → Nat
  | [] => 0
  | b :: bs => b.toNat + 256 * unpackLE bs

def pack (e : ByteOrder) (n v : Nat) : Bytes := match e with
  | .little => packLE n v
  | .big => (packLE n v).reverse

def unpack (e : ByteOrder) (bs : Bytes) : Nat := match e with
  | .little => unpackLE bs
  | .big => unpackLE bs.reverse

@[simp] theorem packLE_length (n v : Nat) : (packLE n v).length = n := by
  induction n generalizing v with
  | zero => rfl
  | succ n ih => simp [packLE, ih]

@[simp] theorem pack_length (e : ByteOrder) (n v : Nat) : (pack e n v).length = n := by
  cases e <;> simp [pack]

theorem unpackLE_packLE (n v : Nat) : unpackLE (packLE n v) = v % 256 ^ n := by
  induction n generalizing v with
  | zero => simp [packLE, unpackLE, Nat.mod_one]
  | succ n ih =>
    have hb : (UInt8.ofNat v).toNat = v % 256 := by simp
    rw [packLE, unpackLE, ih, hb, pow_succ', Nat.mod_mul]

theorem unpackLE_lt (bs : Bytes) : unpackLE bs < 256 ^ bs.length := by
  induction bs with
  | nil => simp [unpackLE]
  | cons b bs ih =>
    have hb : b.toNat < 256 := b.toNat_lt
    rw [unpackLE, List.length_cons, pow_succ']
    omega

theorem packLE_unpackLE (bs : Bytes) : packLE bs.length (unpackLE bs) = bs := by
  induction bs with
  | nil => rfl
  | cons b bs ih =>
    have hb : b.toNat < 256 := b.toNat_lt
    have hlow : UInt8.ofNat (b.toNat + 256 * unpackLE bs) = b := by
      apply UInt8.toNat_inj.mp
      rw [UInt8.toNat_ofNat']
      omega
    have hhigh : (b.toNat + 256 * unpackLE bs) / 256 = unpackLE bs := by omega
    rw [List.length_cons, unpackLE, packLE, hlow, hhigh, ih]

/-- A packed value in range reads back. -/
theorem unpack_pack {n v : Nat} (e : ByteOrder) (h : v < 256 ^ n) :
    unpack e (pack e n v) = v := by
  cases e <;> simp [pack, unpack, unpackLE_packLE, Nat.mod_eq_of_lt h]

theorem unpack_lt (e : ByteOrder) (bs : Bytes) : unpack e bs < 256 ^ bs.length := by
  cases e
  · exact unpackLE_lt bs
  · simpa [unpack] using unpackLE_lt bs.reverse

/-- Bytes are the packing of what they spell. -/
theorem pack_unpack {n : Nat} (e : ByteOrder) {bs : Bytes} (h : bs.length = n) :
    pack e n (unpack e bs) = bs := by
  subst h
  cases e with
  | little => exact packLE_unpackLE bs
  | big =>
    have := packLE_unpackLE bs.reverse
    rw [List.length_reverse] at this
    simp [pack, unpack, this]

/-- A 32-bit word reads back from its four bytes. -/
@[simp] theorem unpack_pack_u32 (e : ByteOrder) (v : UInt32) : unpack e (pack e 4 v.toNat) = v.toNat :=
  unpack_pack e (by have := v.toNat_lt; norm_num; omega)

/-! ## Taking fields off the front -/

/-- The first `n` bytes and what follows them, when there are that many. -/
def cut (n : Nat) (bs : Bytes) : Option (Bytes × Bytes) :=
  if n ≤ bs.length then some (bs.take n, bs.drop n) else none

/-- A little-endian field of `n` bytes off the front. -/
def field (n : Nat) (bs : Bytes) : Option (Nat × Bytes) :=
  (cut n bs).map fun (f, rest) => (unpackLE f, rest)

/-- The width is a hypothesis, so that a caller never rewrites it. -/
theorem cut_append {n : Nat} {b rest : Bytes} (h : b.length = n) :
    cut n (b ++ rest) = some (b, rest) := by
  subst h; simp [cut]

theorem field_pack {n v : Nat} {rest : Bytes} (h : v < 256 ^ n) :
    field n (pack .little n v ++ rest) = some (v, rest) := by
  rw [field, cut_append (pack_length _ _ _)]
  exact congrArg (fun x => some (x, rest)) (unpack_pack .little h)

theorem cut_length {n : Nat} {bs front rest : Bytes} (h : cut n bs = some (front, rest)) :
    rest.length + n = bs.length := by
  unfold cut at h
  split at h
  · cases h; simp; omega
  · cases h

theorem field_length {n v : Nat} {bs rest : Bytes} (h : field n bs = some (v, rest)) :
    rest.length + n = bs.length := by
  unfold field at h
  obtain ⟨⟨f, r⟩, hc, he⟩ := Option.map_eq_some_iff.mp h
  cases he
  exact cut_length hc

end BigDataPlatform.Lib.Pack
