import Mathlib.Data.List.Forall2
import Mathlib.Algebra.Order.Group.Nat
import Mathlib.Tactic.Ring
import BigDataPlatform.Lib.Regex

/-! # Names in /captures and keys in the bucket

`upload` takes the date partition of an object from the first timestamp in its
file's name. Every file that the shipper makes carries its own timestamp there,
so its key says when it was made, and no two files have one key. -/
namespace BigDataPlatform.PacketCapture.ObjectKeys
open BigDataPlatform.Lib.Regex

/-! ## Timestamps -/

/-- `n` in `k` decimal digits. -/
def fixed : Nat → Nat → List Char
  | 0, _ => []
  | k + 1, n => fixed k (n / 10) ++ [Nat.digitChar (n % 10)]

@[simp] theorem fixed_length (k n : Nat) : (fixed k n).length = k := by
  induction k generalizing n with
  | zero => rfl
  | succ k ih => rw [fixed, List.length_append, ih, List.length_singleton]

theorem isDigit_digitChar {d : Nat} (h : d < 10) : (Nat.digitChar d).isDigit = true := by
  have : ∀ d < 10, (Nat.digitChar d).isDigit = true := by decide
  exact this d h

theorem digitChar_injective {d e : Nat} (hd : d < 10) (he : e < 10)
    (h : Nat.digitChar d = Nat.digitChar e) : d = e := by
  have : ∀ d < 10, ∀ e < 10, Nat.digitChar d = Nat.digitChar e → d = e := by decide
  exact this d hd e he h

theorem fixed_digits (k n : Nat) :
    List.Forall₂ (fun p c => p c = true) (List.replicate k Char.isDigit) (fixed k n) := by
  induction k generalizing n with
  | zero => exact .nil
  | succ k ih =>
    rw [fixed, List.replicate_succ']
    refine List.rel_append (ih (n / 10)) (.cons ?_ .nil)
    exact isDigit_digitChar (Nat.mod_lt n (by decide))

theorem fixed_injective {k m n : Nat} (hm : m < 10 ^ k) (hn : n < 10 ^ k)
    (h : fixed k m = fixed k n) : m = n := by
  induction k generalizing m n with
  | zero => omega
  | succ k ih =>
    obtain ⟨hrest, hlast⟩ := List.append_inj' h rfl
    rw [Nat.pow_succ] at hm hn
    have hquot := ih (by omega) (by omega) hrest
    have hdigit := digitChar_injective (Nat.mod_lt m (by decide)) (Nat.mod_lt n (by decide))
      (List.singleton_inj.mp hlast)
    omega

/-- What `%Y%m%dT%H%M%SZ` prints. -/
structure Timestamp where
  year : Nat
  month : Nat
  day : Nat
  hour : Nat
  minute : Nat
  second : Nat
  year_lt : year < 10 ^ 4
  month_lt : month < 10 ^ 2
  day_lt : day < 10 ^ 2
  hour_lt : hour < 10 ^ 2
  minute_lt : minute < 10 ^ 2
  second_lt : second < 10 ^ 2

/-- The part that `upload` looks for. -/
def Timestamp.stamp (t : Timestamp) : List Char :=
  fixed 4 t.year ++ fixed 2 t.month ++ fixed 2 t.day ++ ['T'] ++ fixed 2 t.hour ++ fixed 2 t.minute

def Timestamp.format (t : Timestamp) : List Char := t.stamp ++ fixed 2 t.second ++ ['Z']

@[simp] theorem Timestamp.format_length (t : Timestamp) : t.format.length = 16 := by
  simp [Timestamp.format, Timestamp.stamp]

theorem Timestamp.format_injective {t u : Timestamp} (h : t.format = u.format) : t = u := by
  simp only [Timestamp.format, Timestamp.stamp] at h
  obtain ⟨h, -⟩ := List.append_inj h (by simp)
  obtain ⟨h, hsecond⟩ := List.append_inj h (by simp)
  obtain ⟨h, hminute⟩ := List.append_inj h (by simp)
  obtain ⟨h, hhour⟩ := List.append_inj h (by simp)
  obtain ⟨h, -⟩ := List.append_inj h (by simp)
  obtain ⟨h, hday⟩ := List.append_inj h (by simp)
  obtain ⟨hyear, hmonth⟩ := List.append_inj h (by simp)
  have h₁ := fixed_injective t.year_lt u.year_lt hyear
  have h₂ := fixed_injective t.month_lt u.month_lt hmonth
  have h₃ := fixed_injective t.day_lt u.day_lt hday
  have h₄ := fixed_injective t.hour_lt u.hour_lt hhour
  have h₅ := fixed_injective t.minute_lt u.minute_lt hminute
  have h₆ := fixed_injective t.second_lt u.second_lt hsecond
  cases t
  cases u
  simp_all

/-! ## The files -/

inductive Kind where
  | pcap
  | pcapng
  | netState
  | pods
deriving DecidableEq

/-- A visible file of one node. -/
structure CaptureFile where
  kind : Kind
  time : Timestamp

/-- `${1%suffix}`. -/
def removeSuffix (suffix name : List Char) : List Char :=
  if suffix.isSuffixOf name then name.take (name.length - suffix.length) else name

def dotPcap : List Char := ['.', 'p', 'c', 'a', 'p']
def dotPcapng : List Char := ['.', 'p', 'c', 'a', 'p', 'n', 'g']
def netStateLead : List Char := ['n', 'e', 't', '-', 's', 't', 'a', 't', 'e', '-']
def dotTxt : List Char := ['.', 't', 'x', 't']
def podsLead : List Char := ['p', 'o', 'd', 's', '-']
def dotJsonl : List Char := ['.', 'j', 's', 'o', 'n', 'l']

def pcapName (node : List Char) (t : Timestamp) : List Char :=
  t.format ++ '-' :: node ++ dotPcap

/-- The file's name: tcpdump's `-w`, `ship_capture`'s `ng`, capture.sh's `mv`. -/
def CaptureFile.basename (node : List Char) (f : CaptureFile) : List Char :=
  match f.kind with
  | .pcap => pcapName node f.time
  | .pcapng => removeSuffix dotPcap (pcapName node f.time) ++ dotPcapng
  | .netState => netStateLead ++ f.time.format ++ '-' :: node ++ dotTxt
  | .pods => podsLead ++ f.time.format ++ '-' :: node ++ dotJsonl

/-! ## upload -/

/-- `[0-9]{8}T[0-9]{4}`. -/
def stampExpression : Re :=
  .group (Re.each (List.replicate 8 Char.isDigit ++ [fun c => decide (c = 'T')] ++ List.replicate 4 Char.isDigit))

def dest (bucket node : List Char) : List Char :=
  "s3://".toList ++ bucket ++ "/network-logs/packet-capture/".toList ++ node

/-- `${DEST}/${ts:0:4}/${ts:4:2}/${ts:6:2}/${ts:9:2}/${b}`. -/
def keyAt (bucket node ts b : List Char) : List Char :=
  dest bucket node ++ '/' :: ts.take 4 ++ '/' :: (ts.drop 4).take 2 ++ '/' :: (ts.drop 6).take 2
    ++ '/' :: (ts.drop 9).take 2 ++ '/' :: b

/-- The key of a file of this name; `date` is `date -u +%Y%m%dT%H%M`. -/
def objectKey (bucket node date b : List Char) : List Char :=
  match stampExpression.find b with
  | some c => keyAt bucket node c.text b
  | none => keyAt bucket node date b

/-! ## What a name says -/

theorem removeSuffix_append (name suffix : List Char) :
    removeSuffix suffix (name ++ suffix) = name := by
  rw [removeSuffix, if_pos (List.isSuffixOf_iff_suffix.mpr (List.suffix_append _ _)),
    List.length_append, Nat.add_sub_cancel, List.take_left]

/-- What stands before the timestamp. -/
def Kind.lead : Kind → List Char
  | .pcap | .pcapng => []
  | .netState => netStateLead
  | .pods => podsLead

def Kind.extension : Kind → List Char
  | .pcap => dotPcap
  | .pcapng => dotPcapng
  | .netState => dotTxt
  | .pods => dotJsonl

theorem basename_eq (node : List Char) (f : CaptureFile) :
    f.basename node = f.kind.lead ++ (f.time.format ++ ('-' :: node ++ f.kind.extension)) := by
  obtain ⟨kind, time⟩ := f
  cases kind with
  | pcapng =>
    simp only [CaptureFile.basename, Kind.lead, Kind.extension, List.nil_append]
    rw [pcapName, removeSuffix_append, List.append_assoc]
  | pcap =>
    simp only [CaptureFile.basename, Kind.lead, Kind.extension, List.nil_append]
    rw [pcapName, List.append_assoc]
  | netState => simp only [CaptureFile.basename, Kind.lead, Kind.extension, List.append_assoc]
  | pods => simp only [CaptureFile.basename, Kind.lead, Kind.extension, List.append_assoc]

theorem lead_no_digit (k : Kind) : ∀ c ∈ k.lead, c.isDigit = false := by
  cases k with
  | pcap => simp [Kind.lead]
  | pcapng => simp [Kind.lead]
  | netState => simp [Kind.lead, netStateLead]
  | pods => simp [Kind.lead, podsLead]

theorem format_head (t : Timestamp) : ∃ c rest, t.format = c :: rest ∧ c.isDigit = true := by
  have hdigits := fixed_digits 4 t.year
  rw [Timestamp.format, Timestamp.stamp]
  cases hdigits with
  | cons hc _ => exact ⟨_, _, rfl, hc⟩

/-- A name begins with its lead and then a digit. -/
theorem lead_of_basename (f : CaptureFile) (node : List Char) :
    (f.basename node).takeWhile (!·.isDigit) = f.kind.lead := by
  obtain ⟨c, rest, hformat, hc⟩ := format_head f.time
  rw [basename_eq, hformat, List.takeWhile_append_of_pos fun d hd => by simp [lead_no_digit _ d hd]]
  simp [hc]

theorem stamp_matches (t : Timestamp) :
    List.Forall₂ (fun p c => p c = true)
      (List.replicate 8 Char.isDigit ++ [fun c => decide (c = 'T')] ++ List.replicate 4 Char.isDigit)
      t.stamp := by
  have height : List.replicate 8 Char.isDigit =
      List.replicate 4 Char.isDigit ++ List.replicate 2 Char.isDigit ++ List.replicate 2 Char.isDigit :=
    rfl
  have hfour : List.replicate 4 Char.isDigit =
      List.replicate 2 Char.isDigit ++ List.replicate 2 Char.isDigit := rfl
  rw [height, Timestamp.stamp, List.append_assoc _ (fixed 2 t.hour)]
  refine List.rel_append (List.rel_append (List.rel_append (List.rel_append ?_ ?_) ?_) ?_) ?_
  · exact fixed_digits 4 _
  · exact fixed_digits 2 _
  · exact fixed_digits 2 _
  · exact .cons (by simp) .nil
  · rw [hfour]
    exact List.rel_append (fixed_digits 2 _) (fixed_digits 2 _)

/-- **The first timestamp in a file's name is its own**, whatever the node is called. -/
theorem find_stamp (node : List Char) (f : CaptureFile) :
    ∃ after, stampExpression.find (f.basename node) = some ⟨f.kind.lead, f.time.stamp, after⟩ := by
  rw [basename_eq, Timestamp.format, List.append_assoc, List.append_assoc]
  exact ⟨_, find_group_each (lead_no_digit f.kind) (stamp_matches f.time) _⟩

/-- The four slices of a timestamp. -/
theorem keyAt_stamp (bucket node b : List Char) (t : Timestamp) :
    keyAt bucket node t.stamp b =
      dest bucket node ++ '/' :: fixed 4 t.year ++ '/' :: fixed 2 t.month ++ '/' :: fixed 2 t.day
        ++ '/' :: fixed 2 t.hour ++ '/' :: b := by
  have hslice : ∀ {before w after : List Char} {i k : Nat}, before.length = i → w.length = k →
      ((before ++ (w ++ after)).drop i).take k = w := by
    intro before w after i k hi hk
    rw [List.drop_left' hi, List.take_left' hk]
  have hyear : t.stamp.take 4 = fixed 4 t.year := by
    simp only [Timestamp.stamp, List.append_assoc]
    exact List.take_left' (fixed_length 4 _)
  have hmonth : (t.stamp.drop 4).take 2 = fixed 2 t.month := by
    simp only [Timestamp.stamp, List.append_assoc]
    exact hslice (fixed_length 4 _) (fixed_length 2 _)
  have hday : (t.stamp.drop 6).take 2 = fixed 2 t.day := by
    rw [Timestamp.stamp, List.append_assoc, List.append_assoc, List.append_assoc]
    exact hslice (by simp) (fixed_length 2 _)
  have hhour : (t.stamp.drop 9).take 2 = fixed 2 t.hour := by
    rw [Timestamp.stamp, List.append_assoc]
    exact hslice (by simp) (fixed_length 2 _)
  rw [keyAt, hyear, hmonth, hday, hhour]

theorem basename_injective {node : List Char} {f g : CaptureFile}
    (h : f.basename node = g.basename node) : f = g := by
  have hlead : f.kind.lead = g.kind.lead := by
    rw [← lead_of_basename f node, h, lead_of_basename g node]
  rw [basename_eq, basename_eq, hlead] at h
  obtain ⟨htime, hrest⟩ := List.append_inj (List.append_cancel_left h) (by simp)
  have hext : f.kind.extension = g.kind.extension := List.append_cancel_left hrest
  have hkind : f.kind = g.kind := by
    revert hlead hext
    cases f.kind <;> cases g.kind <;> decide
  obtain ⟨kind, time⟩ := f
  obtain ⟨kind', time'⟩ := g
  exact congr (congrArg CaptureFile.mk hkind) (Timestamp.format_injective htime)

/-- **Every object is in the partition of its own name, and is overwritten by no
other file's.** For every node name, whatever the clock says at the upload. -/
theorem objectKey_partitioned (bucket node date date' : List Char) (f g : CaptureFile) :
    objectKey bucket node date (f.basename node) =
        dest bucket node ++ '/' :: fixed 4 f.time.year ++ '/' :: fixed 2 f.time.month
          ++ '/' :: fixed 2 f.time.day ++ '/' :: fixed 2 f.time.hour ++ '/' :: f.basename node ∧
      (objectKey bucket node date (f.basename node) = objectKey bucket node date' (g.basename node) ↔
        f = g) := by
  have hkey : ∀ date f, objectKey bucket node date (CaptureFile.basename node f) =
      keyAt bucket node f.time.stamp (f.basename node) := by
    intro date f
    obtain ⟨after, hfind⟩ := find_stamp node f
    rw [objectKey, hfind]
  rw [hkey, hkey, keyAt_stamp, keyAt_stamp]
  refine ⟨rfl, fun h => ?_, fun h => by rw [h]⟩
  obtain ⟨-, hname⟩ := List.append_inj h (by simp)
  exact basename_injective (List.cons.inj hname).2

/-- The last second of 2025. -/
def newYearsEve : Timestamp :=
  ⟨2025, 12, 31, 23, 59, 59, by decide, by decide, by decide, by decide, by decide, by decide⟩

/-- A node may have a time in its own name. -/
example : objectKey "logs".toList "n-20240101T0000".toList "20260101T0000".toList
    (CaptureFile.basename "n-20240101T0000".toList ⟨.pcapng, newYearsEve⟩) =
    ("s3://logs/network-logs/packet-capture/n-20240101T0000/2025/12/31/23/" ++
      "20251231T235959Z-n-20240101T0000.pcapng").toList := by
  decide +kernel

end BigDataPlatform.PacketCapture.ObjectKeys
