import BigDataPlatform.PcapAnnotate.Endpoints

/-! # Frames around an IP packet

What `endpoints` reads, said as a grammar of bytes: four link layouts, Ethernet
with any stack of VLAN tags, around an IP header that is there in full. Reading
is the inverse of encapsulating. -/
namespace BigDataPlatform.PcapAnnotate
open BigDataPlatform.Lib.Pack

/-! ## The grammar -/

def be16 (n : Nat) : Bytes := pack .big 2 n

inductive IpVersion where
  | v4
  | v6
deriving DecidableEq

namespace IpVersion

def number : IpVersion → Nat
  | v4 => 4
  | v6 => 6

def ethertype : IpVersion → Nat
  | v4 => 0x0800
  | v6 => 0x86DD

/-- Bytes of the fixed header before the two addresses that end it. -/
def addressAt : IpVersion → Nat
  | v4 => 12
  | v6 => 8

def addressLength : IpVersion → Nat
  | v4 => 4
  | v6 => 16

def headerLength (v : IpVersion) : Nat := v.addressAt + (v.addressLength + v.addressLength)

/-- An address as text. -/
def text : IpVersion → Bytes → String
  | v4, packed => dottedQuad packed
  | v6, packed =>
    ipv6Loop packed (shorthand (words16 packed)) (words16 packed) (words16 packed) 0

end IpVersion

/-- An IP packet with its fixed header in full; `rest` may be cut anywhere. -/
structure IpPacket where
  version : IpVersion
  head : Bytes
  src : Bytes
  dst : Bytes
  rest : Bytes
  head_length : head.length = version.addressAt
  src_length : src.length = version.addressLength
  dst_length : dst.length = version.addressLength

def IpPacket.write (p : IpPacket) : Bytes := p.head ++ (p.src ++ (p.dst ++ p.rest))

def IpPacket.addresses (p : IpPacket) : String × String :=
  (p.version.text p.src, p.version.text p.dst)

/-- A VLAN tag, 802.1ad if `service` and 802.1Q otherwise. -/
structure Tag where
  service : Bool
  tci : UInt16

def Tag.tpid (t : Tag) : Nat := if t.service then 0x88A8 else 0x8100

def Tag.write (t : Tag) : Bytes := be16 t.tpid ++ be16 t.tci.toNat

/-- `head` announces IP version `v` and `payload` follows it. A RAW capture has
no link header; the payload's own version field decides. -/
inductive LinkHeader (v : IpVersion) : Nat → Bytes → Bytes → Prop where
  | sll2 {between payload : Bytes} (h : between.length = 18) :
      LinkHeader v linktypeLinuxSll2 (be16 v.ethertype ++ between) payload
  | sll {before payload : Bytes} (h : before.length = 14) :
      LinkHeader v linktypeLinuxSll (before ++ be16 v.ethertype) payload
  | ethernet {macs payload : Bytes} (tags : List Tag) (h : macs.length = 12) :
      LinkHeader v linktypeEthernet (macs ++ (tags.flatMap Tag.write ++ be16 v.ethertype)) payload
  | raw {b : UInt8} {rest : Bytes} (h : b.toNat >>> 4 = v.number) :
      LinkHeader v linktypeRaw [] (b :: rest)

/-- The captured bytes are this packet behind a link header. -/
def Frame (linktype : Nat) (data : Bytes) (p : IpPacket) : Prop :=
  ∃ head, data = head ++ p.write ∧ LinkHeader p.version linktype head p.write

/-! ## Sixteen-bit words -/

@[simp] theorem be16_length (n : Nat) : (be16 n).length = 2 := pack_length _ _ _

theorem slice_of_drop {data a b c : Bytes} {off i j : Nat} (h : data.drop off = a ++ (b ++ c))
    (hi : off + a.length = i) (hj : i + b.length = j) : slice data i j = b := by
  rw [slice, ← hi, ← List.drop_drop, h, List.drop_left, ← hj, hi, Nat.add_sub_cancel_left,
    List.take_left]

theorem slice_middle {a b c : Bytes} {i j : Nat} (hi : a.length = i) (hj : i + b.length = j) :
    slice (a ++ (b ++ c)) i j = b :=
  slice_of_drop List.drop_zero ((Nat.zero_add _).trans hi) hj

theorem unpackH_be16 {n : Nat} (h : n < 2 ^ 16) : unpackH (be16 n) = .ok n := by
  rw [unpackH, if_pos (be16_length n), be16, unpack_pack _ (by norm_num; omega)]

/-- The word at `i`. -/
def wordAt (data : Bytes) (i : Nat) : Nat := unpack .big (slice data i (i + 2))

theorem unpackH_wordAt {data : Bytes} {i j : Nat} (h : j ≤ data.length) (hj : i + 2 = j) :
    unpackH (slice data i j) = .ok (wordAt data i) := by
  subst hj
  exact unpackH_slice h

/-- The word at `i` and what comes after it. -/
theorem split_word {data : Bytes} {i : Nat} (h : i + 2 ≤ data.length) :
    data.drop i = be16 (wordAt data i) ++ data.drop (i + 2) := by
  have hl : (slice data i (i + 2)).length = 2 := by rw [slice_length h]; omega
  rw [be16, wordAt, pack_unpack .big hl, slice, Nat.add_sub_cancel_left, ← List.drop_drop,
    List.take_append_drop]

theorem wordAt_lt (data : Bytes) (i : Nat) (h : i + 2 ≤ data.length) : wordAt data i < 2 ^ 16 := by
  have hlt := unpack_lt .big (slice data i (i + 2))
  rw [slice_length h, Nat.add_sub_cancel_left] at hlt
  exact hlt

theorem IpVersion.ethertype_lt (v : IpVersion) : v.ethertype < 2 ^ 16 := by cases v <;> decide

/-! ## The tag loop -/

/-- The word the loop starts from: the first TPID, or the final protocol. -/
def frontWord (et : Nat) : List Tag → Nat
  | [] => et
  | t :: _ => t.tpid

/-- The bytes after that word, up to and with the final protocol. -/
def afterFront (et : Nat) : List Tag → Bytes
  | [] => []
  | t :: tags => be16 t.tci.toNat ++ (be16 (frontWord et tags) ++ afterFront et tags)

theorem tags_write (et : Nat) (tags : List Tag) :
    tags.flatMap Tag.write ++ be16 et = be16 (frontWord et tags) ++ afterFront et tags := by
  induction tags with
  | nil => simp [frontWord, afterFront]
  | cons t tags ih =>
    rw [List.flatMap_cons, List.append_assoc, ih, Tag.write, List.append_assoc]
    rfl

theorem afterFront_length (et : Nat) (tags : List Tag) :
    (afterFront et tags).length = 4 * tags.length := by
  induction tags with
  | nil => rfl
  | cons t tags ih =>
    rw [afterFront, List.length_append, List.length_append, ih, be16_length, be16_length,
      List.length_cons]
    omega

theorem tpid_lt (t : Tag) : t.tpid < 2 ^ 16 := by
  rw [Tag.tpid]; split <;> decide

theorem frontWord_lt {et : Nat} (h : et < 2 ^ 16) (tags : List Tag) : frontWord et tags < 2 ^ 16 := by
  cases tags with
  | nil => exact h
  | cons t tags => exact tpid_lt t

theorem tpid_isTag (t : Tag) : t.tpid = 0x8100 ∨ t.tpid = 0x88A8 := by
  rw [Tag.tpid]
  split
  · exact Or.inr rfl
  · exact Or.inl rfl

/-- A TPID and the word after it are a tag. -/
theorem exists_tag {et tci : Nat} (het : et = 0x8100 ∨ et = 0x88A8) (htci : tci < 2 ^ 16) :
    ∃ t : Tag, t.tpid = et ∧ t.tci.toNat = tci := by
  have hw : (UInt16.ofNat tci).toNat = tci := by
    rw [UInt16.toNat_ofNat', Nat.mod_eq_of_lt htci]
  rcases het with rfl | rfl
  · exact ⟨⟨false, UInt16.ofNat tci⟩, rfl, hw⟩
  · exact ⟨⟨true, UInt16.ofNat tci⟩, rfl, hw⟩

theorem IpVersion.ethertype_not_tag (v : IpVersion) :
    ¬ (v.ethertype = 0x8100 ∨ v.ethertype = 0x88A8) := by
  cases v <;> decide

/-- Every tag of a stack is taken off, whatever its depth, and nothing else. -/
theorem vlanTags_complete {data payload : Bytes} (v : IpVersion) {tags : List Tag} :
    ∀ {fuel off : Nat}, tags.length ≤ fuel →
      data.drop off = afterFront v.ethertype tags ++ payload →
      vlanTags data fuel (frontWord v.ethertype tags) off =
        .ok (v.ethertype, off + 4 * tags.length) := by
  induction tags with
  | nil =>
    intro fuel off _ _
    cases fuel with
    | zero => rfl
    | succ fuel => rw [frontWord, vlanTags, if_neg fun h => v.ethertype_not_tag h.1]; rfl
  | cons t tags ih =>
    intro fuel off hfuel hdrop
    cases fuel with
    | zero => simp at hfuel
    | succ fuel =>
      rw [afterFront, List.append_assoc, List.append_assoc] at hdrop
      have hlen : off + 4 ≤ data.length := by
        have hl := congrArg List.length hdrop
        simp only [List.length_drop, List.length_append, be16_length] at hl
        omega
      have hword : slice data (off + 2) (off + 4) = be16 (frontWord v.ethertype tags) :=
        slice_of_drop hdrop (by simp) (by simp)
      have hrest : data.drop (off + 4) = afterFront v.ethertype tags ++ payload := by
        rw [← List.append_assoc] at hdrop
        rw [← List.drop_drop, hdrop, List.drop_left' (by simp)]
      rw [frontWord, vlanTags, if_pos ⟨tpid_isTag t, hlen⟩, hword,
        unpackH_be16 (frontWord_lt v.ethertype_lt tags)]
      rw [List.length_cons] at hfuel
      simp only
      rw [ih (by omega) hrest, List.length_cons]
      congr 2
      omega

/-- What the loop took off is a stack of tags. -/
theorem vlanTags_sound {data : Bytes} :
    ∀ {fuel et off et' off' : Nat}, vlanTags data fuel et off = .ok (et', off') →
      ∃ tags payload, frontWord et' tags = et ∧ data.drop off = afterFront et' tags ++ payload ∧
        off' = off + 4 * tags.length
  | 0, et, off, _, _, h => by
    cases h
    exact ⟨[], data.drop off, rfl, rfl, rfl⟩
  | fuel + 1, et, off, et', off', h => by
    rw [vlanTags] at h
    split at h
    · next htag =>
      obtain ⟨htag, hlen⟩ := htag
      rw [unpackH_wordAt hlen rfl] at h
      obtain ⟨tags, payload, hfront, hdrop, hoff⟩ := vlanTags_sound h
      obtain ⟨t, htpid, htci⟩ := exists_tag htag (wordAt_lt data off (by omega))
      refine ⟨t :: tags, payload, htpid, ?_, ?_⟩
      · rw [afterFront, hfront, htci, split_word (i := off) (by omega),
          split_word (i := off + 2) (by omega), hdrop, List.append_assoc, List.append_assoc]
      · rw [hoff, List.length_cons]
        omega
    · cases h
      exact ⟨[], data.drop off, rfl, rfl, rfl⟩

/-! ## The offset of the IP header -/

theorem l3Offset_tagged {v : IpVersion} {macs payload : Bytes} (tags : List Tag)
    (hm : macs.length = 12) :
    l3Offset linktypeEthernet (macs ++ (tags.flatMap Tag.write ++ be16 v.ethertype) ++ payload) =
      .ok (some v.ethertype, some (14 + 4 * tags.length)) := by
  rw [tags_write, List.append_assoc, List.append_assoc]
  generalize hdata : macs ++ (be16 (frontWord v.ethertype tags) ++
    (afterFront v.ethertype tags ++ payload)) = data
  have hlen : data.length = 14 + 4 * tags.length + payload.length := by
    simp [← hdata, hm, afterFront_length]
    omega
  have hword : slice data 12 14 = be16 (frontWord v.ethertype tags) :=
    hdata ▸ slice_middle hm (by simp)
  have hdrop : data.drop 14 = afterFront v.ethertype tags ++ payload := by
    rw [← hdata, ← List.append_assoc]
    exact List.drop_left' (by simp [hm])
  have hloop : vlanTags data data.length (frontWord v.ethertype tags) 14 =
      .ok (v.ethertype, 14 + 4 * tags.length) := vlanTags_complete v (by omega) hdrop
  rw [l3Offset, if_neg (by simp [linktypeEthernet, linktypeLinuxSll2]),
    if_neg (by simp [linktypeEthernet, linktypeLinuxSll]), if_pos ⟨rfl, by omega⟩, hword,
    unpackH_be16 (frontWord_lt v.ethertype_lt tags)]
  simp only [bind, Except.bind, hloop]
  rfl

theorem l3Offset_complete {v : IpVersion} {linktype : Nat} {head payload : Bytes}
    (h : LinkHeader v linktype head payload) :
    l3Offset linktype (head ++ payload) = .ok (some v.ethertype, some head.length) := by
  unfold l3Offset
  cases h with
  | @sll2 between _ hb =>
    have hlen : 20 ≤ (be16 v.ethertype ++ between ++ payload).length := by simp; omega
    have hword : slice (be16 v.ethertype ++ between ++ payload) 0 2 = be16 v.ethertype := by
      rw [List.append_assoc]
      exact slice_of_drop (a := []) rfl rfl (by simp)
    rw [if_pos ⟨rfl, hlen⟩, hword, unpackH_be16 v.ethertype_lt]
    simp [hb]
  | @sll before _ hb =>
    have hlen : 16 ≤ (before ++ be16 v.ethertype ++ payload).length := by simp; omega
    have hword : slice (before ++ be16 v.ethertype ++ payload) 14 16 = be16 v.ethertype := by
      rw [List.append_assoc]
      exact slice_middle hb (by simp)
    rw [if_neg (by simp [linktypeLinuxSll, linktypeLinuxSll2]), if_pos ⟨rfl, hlen⟩, hword,
      unpackH_be16 v.ethertype_lt]
    simp [hb]
  | @ethernet macs _ tags hm =>
    have hhead : (macs ++ (tags.flatMap Tag.write ++ be16 v.ethertype)).length =
        14 + 4 * tags.length := by
      rw [tags_write, List.length_append, List.length_append, hm, be16_length, afterFront_length]
      omega
    rw [hhead]
    exact l3Offset_tagged tags hm
  | @raw b rest hb =>
    rw [if_neg (by simp [linktypeRaw, linktypeLinuxSll2]),
      if_neg (by simp [linktypeRaw, linktypeLinuxSll]),
      if_neg (by simp [linktypeRaw, linktypeEthernet]), if_pos ⟨rfl, by simp⟩]
    cases v <;> simp [hb, IpVersion.number, IpVersion.ethertype]

/-- The four ways in which `l3Offset` finds an offset. -/
theorem l3Offset_cases {linktype et off : Nat} {data : Bytes}
    (h : l3Offset linktype data = .ok (some et, some off)) :
    (linktype = linktypeLinuxSll2 ∧ 20 ≤ data.length ∧ wordAt data 0 = et ∧ off = 20) ∨
      (linktype = linktypeLinuxSll ∧ 16 ≤ data.length ∧ wordAt data 14 = et ∧ off = 16) ∨
      (linktype = linktypeEthernet ∧ 14 ≤ data.length ∧
        vlanTags data data.length (wordAt data 12) 14 = .ok (et, off)) ∨
      (linktype = linktypeRaw ∧ off = 0 ∧ ∃ b rest, data = b :: rest ∧
        (b.toNat >>> 4 = 4 ∧ et = 0x0800 ∨ b.toNat >>> 4 = 6 ∧ et = 0x86DD)) := by
  unfold l3Offset at h
  split at h
  · next hl =>
    rw [unpackH_wordAt (by omega) rfl] at h
    cases h
    exact Or.inl ⟨hl.1, hl.2, rfl, rfl⟩
  split at h
  · next hl =>
    rw [unpackH_wordAt hl.2 rfl] at h
    cases h
    exact Or.inr (Or.inl ⟨hl.1, hl.2, rfl, rfl⟩)
  split at h
  · next hl =>
    obtain ⟨r, hloop⟩ := vlanTags_total data data.length (wordAt data 12) 14
    rw [unpackH_wordAt hl.2 rfl] at h
    simp only [bind, Except.bind, hloop] at h
    cases h
    exact Or.inr (Or.inr (Or.inl ⟨hl.1, hl.2, hloop⟩))
  split at h
  · next hl =>
    refine Or.inr (Or.inr (Or.inr ?_))
    cases data with
    | nil => exact absurd rfl hl.2
    | cons b rest =>
      simp only [List.getElem?_cons_zero, Except.ok.injEq, Prod.mk.injEq, Option.some.injEq] at h
      obtain ⟨hv, rfl⟩ := h
      refine ⟨hl.1, rfl, b, rest, rfl, ?_⟩
      split at hv
      · next h4 => exact Or.inl ⟨h4, (Option.some.inj hv).symm⟩
      split at hv
      · next h6 => exact Or.inr ⟨h6, (Option.some.inj hv).symm⟩
      · cases hv
  · cases h

/-- `head` takes up `off` bytes of `data` and announces version `v`. -/
def Announced (v : IpVersion) (linktype : Nat) (data : Bytes) (off : Nat) : Prop :=
  ∃ head payload, data = head ++ payload ∧ head.length = off ∧ LinkHeader v linktype head payload

theorem announced_sll2 {v : IpVersion} {data : Bytes} (hlen : 20 ≤ data.length)
    (hw : wordAt data 0 = v.ethertype) : Announced v linktypeLinuxSll2 data 20 := by
  have hbetween : ((data.drop 2).take 18).length = 18 := by
    rw [List.length_take, List.length_drop]; omega
  have hword : data.drop 0 = be16 (wordAt data 0) ++ data.drop (0 + 2) := split_word (by omega)
  refine ⟨be16 v.ethertype ++ (data.drop 2).take 18, (data.drop 2).drop 18, ?_, ?_, .sll2 hbetween⟩
  · rw [← hw, List.append_assoc, List.take_append_drop]
    exact hword
  · rw [List.length_append, hbetween, be16_length]

theorem announced_sll {v : IpVersion} {data : Bytes} (hlen : 16 ≤ data.length)
    (hw : wordAt data 14 = v.ethertype) : Announced v linktypeLinuxSll data 16 := by
  have hbefore : (data.take 14).length = 14 := by rw [List.length_take]; omega
  refine ⟨data.take 14 ++ be16 v.ethertype, data.drop 16, ?_, ?_, .sll hbefore⟩
  · rw [← hw, List.append_assoc, ← split_word (by omega), List.take_append_drop]
  · rw [List.length_append, hbefore, be16_length]

theorem announced_ethernet {v : IpVersion} {data : Bytes} {off : Nat} (hlen : 14 ≤ data.length)
    (hloop : vlanTags data data.length (wordAt data 12) 14 = .ok (v.ethertype, off)) :
    Announced v linktypeEthernet data off := by
  obtain ⟨tags, payload, hfront, hdrop, hoff⟩ := vlanTags_sound hloop
  have hmacs : (data.take 12).length = 12 := by rw [List.length_take]; omega
  refine ⟨data.take 12 ++ (tags.flatMap Tag.write ++ be16 v.ethertype), payload, ?_, ?_,
    .ethernet tags hmacs⟩
  · rw [tags_write, hfront, List.append_assoc, List.append_assoc, ← hdrop,
      ← split_word (by omega), List.take_append_drop]
  · rw [tags_write, List.length_append, List.length_append, hmacs, be16_length,
      afterFront_length, hoff]
    omega

theorem announced_raw {v : IpVersion} {b : UInt8} {rest : Bytes}
    (h : b.toNat >>> 4 = 4 ∧ v.ethertype = 0x0800 ∨ b.toNat >>> 4 = 6 ∧ v.ethertype = 0x86DD) :
    Announced v linktypeRaw (b :: rest) 0 := by
  refine ⟨[], b :: rest, rfl, rfl, .raw ?_⟩
  rcases h with ⟨h4, hv⟩ | ⟨h6, hv⟩
  · cases v with
    | v4 => exact h4
    | v6 => cases hv
  · cases v with
    | v4 => cases hv
    | v6 => exact h6

theorem l3Offset_sound {v : IpVersion} {linktype off : Nat} {data : Bytes}
    (h : l3Offset linktype data = .ok (some v.ethertype, some off)) :
    Announced v linktype data off := by
  rcases l3Offset_cases h with ⟨rfl, hlen, hw, rfl⟩ | ⟨rfl, hlen, hw, rfl⟩ | ⟨rfl, hlen, hloop⟩ |
    ⟨rfl, rfl, b, rest, rfl, hb⟩
  · exact announced_sll2 hlen hw
  · exact announced_sll hlen hw
  · exact announced_ethernet hlen hloop
  · exact announced_raw hb

/-! ## Reading is the inverse of encapsulating -/

theorem IpPacket.headerLength_le (p : IpPacket) : p.version.headerLength ≤ p.write.length := by
  rw [IpVersion.headerLength, IpPacket.write, List.length_append, List.length_append,
    List.length_append, p.head_length, p.src_length, p.dst_length]
  omega

/-- Bytes that hold the fixed header in full are a packet. -/
theorem exists_packet {v : IpVersion} {payload : Bytes} (h : v.headerLength ≤ payload.length) :
    ∃ p : IpPacket, p.version = v ∧ p.write = payload := by
  rw [IpVersion.headerLength] at h
  refine ⟨{
    version := v
    head := payload.take v.addressAt
    src := (payload.drop v.addressAt).take v.addressLength
    dst := ((payload.drop v.addressAt).drop v.addressLength).take v.addressLength
    rest := ((payload.drop v.addressAt).drop v.addressLength).drop v.addressLength
    head_length := by rw [List.length_take]; omega
    src_length := by rw [List.length_take, List.length_drop]; omega
    dst_length := by simp only [List.length_take, List.length_drop]; omega }, rfl, ?_⟩
  rw [IpPacket.write, List.take_append_drop, List.take_append_drop, List.take_append_drop]

/-- What `endpoints` slices out of a frame. -/
theorem slice_src (head : Bytes) (p : IpPacket) :
    slice (head ++ p.write) (head.length + p.version.addressAt)
      (head.length + p.version.addressAt + p.version.addressLength) = p.src := by
  have hdrop : (head ++ p.write).drop head.length = p.head ++ (p.src ++ (p.dst ++ p.rest)) := by
    rw [List.drop_left, IpPacket.write]
  refine slice_of_drop hdrop ?_ ?_
  · rw [p.head_length]
  · rw [p.src_length]

theorem slice_dst (head : Bytes) (p : IpPacket) :
    slice (head ++ p.write) (head.length + p.version.addressAt + p.version.addressLength)
      (head.length + p.version.headerLength) = p.dst := by
  have hdrop : (head ++ p.write).drop head.length = (p.head ++ p.src) ++ (p.dst ++ p.rest) := by
    rw [List.drop_left, IpPacket.write, List.append_assoc]
  refine slice_of_drop hdrop ?_ ?_
  · rw [List.length_append, p.head_length, p.src_length, Nat.add_assoc]
  · rw [p.dst_length, IpVersion.headerLength]
    omega

theorem endpoints_complete {linktype : Nat} {data : Bytes} {p : IpPacket}
    (h : Frame linktype data p) : endpoints linktype data = .ok (some p.addresses) := by
  obtain ⟨head, rfl, hl⟩ := h
  have hlen : head.length + p.version.headerLength ≤ (head ++ p.write).length := by
    rw [List.length_append]
    exact Nat.add_le_add_left p.headerLength_le _
  have hsrc := slice_src head p
  have hdst := slice_dst head p
  have hs := p.src_length
  have hd := p.dst_length
  rw [endpoints, l3Offset_complete hl, IpPacket.addresses]
  cases hv : p.version with
  | v4 =>
    rw [hv] at hlen hsrc hdst hs hd
    simp only [IpVersion.addressAt, IpVersion.addressLength, IpVersion.headerLength] at *
    simp only [bind, Except.bind]
    rw [if_pos ⟨rfl, hlen⟩, hsrc, hdst, inetNtoa, if_pos hs, inetNtoa, if_pos hd]
    rfl
  | v6 =>
    rw [hv] at hlen hsrc hdst hs hd
    simp only [IpVersion.addressAt, IpVersion.addressLength, IpVersion.headerLength] at *
    simp only [bind, Except.bind]
    rw [if_neg (by simp [IpVersion.ethertype]), if_pos ⟨rfl, hlen⟩, hsrc, hdst, inetNtop6,
      if_pos hs, inetNtop6, if_pos hd]
    rfl

theorem endpoints_sound {linktype : Nat} {data : Bytes} {ab : String × String}
    (h : endpoints linktype data = .ok (some ab)) : ∃ p, Frame linktype data p := by
  have hframe (v : IpVersion) (off : Nat)
      (hoff : l3Offset linktype data = .ok (some v.ethertype, some off))
      (hlen : off + v.headerLength ≤ data.length) : ∃ p, Frame linktype data p := by
    obtain ⟨head, payload, rfl, rfl, hl⟩ := l3Offset_sound hoff
    rw [List.length_append] at hlen
    have hpayload : v.headerLength ≤ payload.length := by omega
    obtain ⟨p, rfl, rfl⟩ := exists_packet hpayload
    exact ⟨p, head, rfl, hl⟩
  obtain ⟨⟨et, off⟩, hr⟩ := l3Offset_total linktype data
  rw [endpoints, hr] at h
  simp only [bind, Except.bind] at h
  split at h
  · next et off heq =>
    cases heq
    split at h
    · next h4 =>
      obtain ⟨rfl, hlen⟩ := h4
      exact hframe .v4 off hr hlen
    split at h
    · next h6 =>
      obtain ⟨rfl, hlen⟩ := h6
      exact hframe .v6 off hr hlen
    · cases h
  · cases h

theorem IpVersion.ethertype_injective {v w : IpVersion} (h : v.ethertype = w.ethertype) : v = w := by
  cases v <;> cases w
  · rfl
  · cases h
  · cases h
  · rfl

/-- The bytes of a packet determine it, given its version. -/
theorem IpPacket.write_injective {p q : IpPacket} (hv : p.version = q.version)
    (h : p.write = q.write) : p = q := by
  obtain ⟨v, head, src, dst, rest, hh, hs, hd⟩ := p
  obtain ⟨w, head', src', dst', rest', hh', hs', hd'⟩ := q
  simp only at hv
  subst hv
  obtain ⟨rfl, h⟩ := List.append_inj h (hh.trans hh'.symm)
  obtain ⟨rfl, h⟩ := List.append_inj h (hs.trans hs'.symm)
  obtain ⟨rfl, rfl⟩ := List.append_inj h (hd.trans hd'.symm)
  rfl

/-- No bytes are a frame in two ways. -/
theorem Frame.unique {linktype : Nat} {data : Bytes} {p q : IpPacket} (hp : Frame linktype data p)
    (hq : Frame linktype data q) : p = q := by
  obtain ⟨head, rfl, hl⟩ := hp
  obtain ⟨head', heq, hl'⟩ := hq
  have hoff := l3Offset_complete hl
  rw [heq, l3Offset_complete hl'] at hoff
  simp only [Except.ok.injEq, Prod.mk.injEq, Option.some.injEq] at hoff
  exact IpPacket.write_injective (IpVersion.ethertype_injective hoff.1.symm)
    (List.append_inj heq hoff.2.symm).2

/-- **`endpoints` is a correct and total parser.** On every link type and all
bytes it returns, its loop ending by its own test. It returns two addresses
exactly if the bytes are a frame around an IP packet, those of its header, and
on all else none: what was encapsulated is read back. -/
theorem endpoints_correct (linktype : Nat) (data : Bytes) :
    (∃ r, endpoints linktype data = .ok r) ∧
      (∀ et off et' off', vlanTags data data.length et off = .ok (et', off') →
        ¬ ((et' = 0x8100 ∨ et' = 0x88A8) ∧ off' + 4 ≤ data.length)) ∧
      (∀ a b, endpoints linktype data = .ok (some (a, b)) ↔
        ∃ p, Frame linktype data p ∧ p.addresses = (a, b)) ∧
      (endpoints linktype data = .ok none ↔ ¬ ∃ p, Frame linktype data p) ∧
      ∀ p, Frame linktype data p → endpoints linktype data = .ok (some p.addresses) := by
  obtain ⟨r, hr⟩ := endpoints_total linktype data
  refine ⟨⟨r, hr⟩, fun _ _ _ _ h => vlanTags_ends (by omega) h,
    fun a b => ⟨fun h => ?_, fun h => ?_⟩, ⟨fun h hp => ?_, fun h => ?_⟩,
    fun p hp => endpoints_complete hp⟩
  · obtain ⟨p, hp⟩ := endpoints_sound h
    rw [endpoints_complete hp] at h
    exact ⟨p, hp, Option.some.inj (Except.ok.inj h)⟩
  · obtain ⟨p, hp, hab⟩ := h
    rw [endpoints_complete hp, hab]
  · obtain ⟨p, hp⟩ := hp
    rw [endpoints_complete hp] at h
    cases h
  · cases r with
    | none => exact hr
    | some ab => exact absurd (endpoints_sound hr) h

/-- Tagged any number of times, a packet still has its addresses read. -/
theorem endpoints_tagged (p : IpPacket) (tags : List Tag) {macs : Bytes} (h : macs.length = 12) :
    endpoints linktypeEthernet
        (macs ++ (tags.flatMap Tag.write ++ be16 p.version.ethertype) ++ p.write) =
      .ok (some p.addresses) :=
  endpoints_complete ⟨_, rfl, .ethernet tags h⟩

end BigDataPlatform.PcapAnnotate
