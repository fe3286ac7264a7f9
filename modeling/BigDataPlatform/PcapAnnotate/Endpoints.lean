import BigDataPlatform.PcapAnnotate.Python

/-! # The addresses on both ends of a packet

`l3_offset` finds the IP header under one of four link layouts and `endpoints`
reads its two addresses. Indexing and unpacking are partial in Python, so both
live in `Py`; `endpoints_total` shows that neither ever raises. -/
namespace BigDataPlatform.PcapAnnotate
open BigDataPlatform.Lib.Pack

def linktypeEthernet : Nat := 1
def linktypeRaw : Nat := 101
def linktypeLinuxSll : Nat := 113
def linktypeLinuxSll2 : Nat := 276

/-- The loop that strips VLAN tags. Each turn moves `off` four bytes on, inside
the data, so `data.length` turns are never exhausted. -/
def vlanTags (data : Bytes) : Nat → Nat → Nat → Py (Nat × Nat)
  | 0, et, off => .ok (et, off)
  | fuel + 1, et, off =>
    if (et = 0x8100 ∨ et = 0x88A8) ∧ off + 4 ≤ data.length then
      match unpackH (slice data (off + 2) (off + 4)) with
      | .ok et => vlanTags data fuel et (off + 4)
      | .error f => .error f
    else .ok (et, off)

/-- (ethertype, offset of the IP header), each possibly `None`. -/
def l3Offset (linktype : Nat) (data : Bytes) : Py (Option Nat × Option Nat) :=
  if linktype = linktypeLinuxSll2 ∧ 20 ≤ data.length then do
    return (some (← unpackH (slice data 0 2)), some 20)
  else if linktype = linktypeLinuxSll ∧ 16 ≤ data.length then do
    return (some (← unpackH (slice data 14 16)), some 16)
  else if linktype = linktypeEthernet ∧ 14 ≤ data.length then do
    let (et, off) ← vlanTags data data.length (← unpackH (slice data 12 14)) 14
    return (some et, some off)
  else if linktype = linktypeRaw ∧ data ≠ [] then
    match data[0]? with
    | none => .error .indexError
    | some b =>
      let v := b.toNat >>> 4
      .ok (if v = 4 then some 0x0800 else if v = 6 then some 0x86DD else none, some 0)
  else .ok (none, none)

/-- (source, destination) as text, or `None` for both. -/
def endpoints (linktype : Nat) (data : Bytes) : Py (Option (String × String)) := do
  match ← l3Offset linktype data with
  | (some et, some off) =>
    if et = 0x0800 ∧ off + 20 ≤ data.length then
      return some (← inetNtoa (slice data (off + 12) (off + 16)),
        ← inetNtoa (slice data (off + 16) (off + 20)))
    else if et = 0x86DD ∧ off + 40 ≤ data.length then
      return some (← inetNtop6 (slice data (off + 8) (off + 24)),
        ← inetNtop6 (slice data (off + 24) (off + 40)))
    else return none
  | _ => return none

theorem slice_length {b : Bytes} {i j : Nat} (h : j ≤ b.length) : (slice b i j).length = j - i := by
  simp only [slice, List.length_take, List.length_drop]; omega

theorem unpackH_slice {b : Bytes} {i : Nat} (h : i + 2 ≤ b.length) :
    unpackH (slice b i (i + 2)) = .ok (unpack .big (slice b i (i + 2))) := by
  have hl : (slice b i (i + 2)).length = 2 := by rw [slice_length h]; omega
  rw [unpackH, if_pos hl]

theorem vlanTags_total (data : Bytes) : ∀ fuel et off, ∃ r, vlanTags data fuel et off = .ok r
  | 0, et, off => ⟨(et, off), rfl⟩
  | fuel + 1, et, off => by
    rw [vlanTags]
    split
    · next h =>
      rw [show off + 4 = off + 2 + 2 from rfl, unpackH_slice (by omega)]
      exact vlanTags_total data fuel _ _
    · exact ⟨(et, off), rfl⟩

/-- With a turn for every four bytes that are left, the loop ends by its own
test and not for want of turns. -/
theorem vlanTags_ends {data : Bytes} {fuel et off et' off' : Nat}
    (hfuel : data.length < off + 4 * (fuel + 1)) (h : vlanTags data fuel et off = .ok (et', off')) :
    ¬ ((et' = 0x8100 ∨ et' = 0x88A8) ∧ off' + 4 ≤ data.length) := by
  induction fuel generalizing et off with
  | zero =>
    cases h
    omega
  | succ fuel ih =>
    rw [vlanTags] at h
    split at h
    · next htag =>
      rw [show off + 4 = off + 2 + 2 from rfl, unpackH_slice (by omega)] at h
      exact ih (by omega) h
    · next hdone =>
      cases h
      exact hdone

theorem l3Offset_total (linktype : Nat) (data : Bytes) : ∃ r, l3Offset linktype data = .ok r := by
  unfold l3Offset
  split
  · rw [show (2 : Nat) = 0 + 2 from rfl, unpackH_slice (by omega)]; exact ⟨_, rfl⟩
  split
  · rw [show (16 : Nat) = 14 + 2 from rfl, unpackH_slice (by omega)]; exact ⟨_, rfl⟩
  split
  · rw [show (14 : Nat) = 12 + 2 from rfl, unpackH_slice (by omega)]
    obtain ⟨r, hr⟩ := vlanTags_total data data.length (unpack .big (slice data 12 (12 + 2))) (12 + 2)
    exact ⟨_, by simp only [bind, Except.bind, hr]; rfl⟩
  split
  · cases data with
    | nil => simp_all
    | cons b bs => exact ⟨_, rfl⟩
  · exact ⟨_, rfl⟩

/-- **No input makes `endpoints` raise**, whatever the link type and wherever
the bytes were cut off. -/
theorem endpoints_total (linktype : Nat) (data : Bytes) : ∃ r, endpoints linktype data = .ok r := by
  obtain ⟨⟨et, off⟩, hr⟩ := l3Offset_total linktype data
  unfold endpoints
  rw [hr]
  cases et with
  | none => exact ⟨_, rfl⟩
  | some et =>
    cases off with
    | none => exact ⟨_, rfl⟩
    | some off =>
      simp only [bind, Except.bind]
      split
      · next h =>
        have h1 : (slice data (off + 12) (off + 16)).length = 4 := by rw [slice_length] <;> omega
        have h2 : (slice data (off + 16) (off + 20)).length = 4 := by rw [slice_length] <;> omega
        rw [inetNtoa, if_pos h1, inetNtoa, if_pos h2]
        exact ⟨_, rfl⟩
      split
      · next h =>
        have h1 : (slice data (off + 8) (off + 24)).length = 16 := by rw [slice_length] <;> omega
        have h2 : (slice data (off + 24) (off + 40)).length = 16 := by rw [slice_length] <;> omega
        rw [inetNtop6, if_pos h1, inetNtop6, if_pos h2]
        exact ⟨_, rfl⟩
      · exact ⟨_, rfl⟩

end BigDataPlatform.PcapAnnotate
