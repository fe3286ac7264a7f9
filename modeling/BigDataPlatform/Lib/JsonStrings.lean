import BigDataPlatform.Lib.Framing
import Mathlib.Data.List.TakeWhile

/-! # JSON objects of strings

What a dump in ASCII writes for a list of pairs of strings, and what a load
reads. A character is written as its UTF-16 code units, each as itself, by a
short escape or as four hexadecimal digits. -/
namespace BigDataPlatform.Lib.JsonStrings
open Framing

/-! ## Code units -/

def isHigh (u : Nat) : Bool := 0xD800 ≤ u && u < 0xDC00
def isLow (u : Nat) : Bool := 0xDC00 ≤ u && u < 0xE000

def units (c : Char) : List Nat :=
  if c.toNat < 0x10000 then [c.toNat]
  else [0xD800 + (c.toNat - 0x10000) / 0x400, 0xDC00 + (c.toNat - 0x10000) % 0x400]

/-- No character is half of a surrogate pair. -/
def charOf (n : Nat) : Option Char := if n.isValidChar then some (Char.ofNat n) else none

/-- A surrogate pair is one character, any other unit its own. -/
def readChar : Reader Char Nat
  | u :: v :: us =>
    if isHigh u && isLow v then (charOf (0x10000 + (u - 0xD800) * 0x400 + (v - 0xDC00))).map (·, us)
    else (charOf u).map (·, v :: us)
  | [u] => (charOf u).map (·, [])
  | [] => none

theorem charOf_toNat (c : Char) : charOf c.toNat = some c := by
  have hvalid : c.toNat.isValidChar := c.valid
  rw [charOf, if_pos hvalid, Char.ofNat_toNat]

theorem not_isHigh (c : Char) : isHigh c.toNat = false := by
  have hvalid : c.toNat < 0xD800 ∨ 0xDFFF < c.toNat ∧ c.toNat < 0x110000 := c.valid
  have hhigh : ¬isHigh c.toNat = true := by
    rw [isHigh, Bool.and_eq_true, decide_eq_true_iff, decide_eq_true_iff]
    omega
  exact Bool.eq_false_iff.mpr hhigh

theorem units_lt {c : Char} {u : Nat} (hu : u ∈ units c) : u < 0x10000 := by
  have hvalid : c.toNat < 0xD800 ∨ 0xDFFF < c.toNat ∧ c.toNat < 0x110000 := c.valid
  rw [units] at hu
  split at hu
  · next h => rwa [List.mem_singleton.mp hu]
  · rw [List.mem_cons, List.mem_singleton] at hu
    omega

theorem readChar_units (c : Char) (us : List Nat) : readChar (units c ++ us) = some (c, us) := by
  have hvalid : c.toNat < 0xD800 ∨ 0xDFFF < c.toNat ∧ c.toNat < 0x110000 := c.valid
  rw [units]
  split
  · cases us with
    | nil => simp [readChar, charOf_toNat]
    | cons v us => simp [readChar, charOf_toNat, not_isHigh]
  · have hhigh : isHigh (0xD800 + (c.toNat - 0x10000) / 0x400) = true := by
      rw [isHigh, Bool.and_eq_true, decide_eq_true_iff, decide_eq_true_iff]
      omega
    have hlow : isLow (0xDC00 + (c.toNat - 0x10000) % 0x400) = true := by
      rw [isLow, Bool.and_eq_true, decide_eq_true_iff, decide_eq_true_iff]
      omega
    have hjoin : 0x10000 + (0xD800 + (c.toNat - 0x10000) / 0x400 - 0xD800) * 0x400 +
        (0xDC00 + (c.toNat - 0x10000) % 0x400 - 0xDC00) = c.toNat := by omega
    simp only [List.cons_append, List.nil_append, readChar, hhigh, hlow, Bool.and_self, if_true, hjoin,
      charOf_toNat, Option.map_some]

theorem consumes_readChar : Consumes readChar := by
  intro us c rest h
  match us, h with
  | u :: v :: us, h =>
    rw [readChar] at h
    split at h
    · obtain ⟨c', -, hc'⟩ := Option.map_eq_some_iff.mp h
      cases hc'
      exact Nat.lt_succ_of_lt (Nat.lt_succ_self _)
    · obtain ⟨c', -, hc'⟩ := Option.map_eq_some_iff.mp h
      cases hc'
      exact Nat.lt_succ_self _
  | [u], h =>
    obtain ⟨c', -, hc'⟩ := Option.map_eq_some_iff.mp h
    cases hc'
    exact Nat.lt_succ_self _

/-! ## Strings -/

/-- Code units with an escape of one letter. -/
def shortEscapes : List (Nat × Char) :=
  [(0x5C, '\\'), (0x22, '"'), (0x08, 'b'), (0x0C, 'f'), (0x0A, 'n'), (0x0D, 'r'), (0x09, 't')]

def hexDigits (u : Nat) : List Char :=
  [u / 4096 % 16, u / 256 % 16, u / 16 % 16, u % 16].map Nat.digitChar

def escapeUnit (u : Nat) : List Char :=
  match shortEscapes.lookup u with
  | some e => ['\\', e]
  | none => if 0x20 ≤ u ∧ u ≤ 0x7E then [Char.ofNat u] else '\\' :: 'u' :: hexDigits u

def quote (s : List Char) : List Char := '"' :: ((s.flatMap units).flatMap escapeUnit ++ ['"'])

def hexValue (c : Char) : Option Nat :=
  if '0' ≤ c ∧ c ≤ '9' then some (c.toNat - 48)
  else if 'a' ≤ c ∧ c ≤ 'f' then some (c.toNat - 87)
  else if 'A' ≤ c ∧ c ≤ 'F' then some (c.toNat - 55)
  else none

def readHex (a b c d : Char) : Option Nat := do
  return (((← hexValue a) * 16 + (← hexValue b)) * 16 + (← hexValue c)) * 16 + (← hexValue d)

/-- After a backslash. -/
def readEscape : Reader Nat Char
  | 'u' :: a :: b :: c :: d :: cs => (readHex a b c d).map (·, cs)
  | e :: cs => (((0x2F, '/') :: shortEscapes).find? (·.2 = e)).map fun w => (w.1, cs)
  | [] => none

/-- One unit of a string; its end and control characters are none. -/
def readUnit : Reader Nat Char
  | [] => none
  | c :: cs => if c = '\\' then readEscape cs else if c = '"' ∨ c.toNat < 0x20 then none else some (c.toNat, cs)

def readString : Reader (List Char) Char
  | '"' :: cs =>
    match (walk readUnit cs).2 with
    | '"' :: rest => (readAll readChar (walk readUnit cs).1).map (·, rest)
    | _ => none
  | _ => none

theorem hexValue_digitChar : ∀ n < 16, hexValue (Nat.digitChar n) = some n := by decide

theorem readHex_hexDigits {u : Nat} (hu : u < 0x10000) :
    readHex (Nat.digitChar (u / 4096 % 16)) (Nat.digitChar (u / 256 % 16)) (Nat.digitChar (u / 16 % 16))
      (Nat.digitChar (u % 16)) = some u := by
  have h : ∀ n, hexValue (Nat.digitChar (n % 16)) = some (n % 16) := fun n =>
    hexValue_digitChar _ (Nat.mod_lt _ (by decide))
  have hsum : (((u / 4096 % 16) * 16 + u / 256 % 16) * 16 + u / 16 % 16) * 16 + u % 16 = u := by omega
  simp only [readHex, h, Option.pure_def, Option.bind_eq_bind, Option.bind_some, hsum]

theorem short_cases {u : Nat} {e : Char} (h : shortEscapes.lookup u = some e) : (u, e) ∈ shortEscapes := by
  obtain ⟨before, after, hsplit, -⟩ := List.lookup_eq_some_iff.mp h
  rw [hsplit]
  exact List.mem_append_right _ List.mem_cons_self

theorem readEscape_short : ∀ w ∈ shortEscapes, ∀ cs, readEscape (w.2 :: cs) = some (w.1, cs) := by
  simp [shortEscapes, readEscape]

theorem toNat_ofNat_printed {u : Nat} (h : u ≤ 0x7E) : (Char.ofNat u).toNat = u := by
  have hvalid : u.isValidChar := Or.inl (by omega)
  rw [Char.ofNat, dif_pos hvalid]
  rfl

theorem readUnit_escapeUnit {u : Nat} (hu : u < 0x10000) (cs : List Char) :
    readUnit (escapeUnit u ++ cs) = some (u, cs) := by
  rw [escapeUnit]
  cases hshort : shortEscapes.lookup u with
  | some e => simpa [readUnit] using readEscape_short (u, e) (short_cases hshort) cs
  | none =>
    have hplain : u ≠ 0x5C ∧ u ≠ 0x22 := by
      constructor
      · rintro rfl
        simp [shortEscapes] at hshort
      · rintro rfl
        simp [shortEscapes, List.lookup_cons] at hshort
    by_cases h : 0x20 ≤ u ∧ u ≤ 0x7E
    · have hnat := toNat_ofNat_printed h.2
      have hback : Char.ofNat u ≠ '\\' := fun he => hplain.1 (by rw [← hnat, he]; rfl)
      have hend : ¬(Char.ofNat u = '"' ∨ (Char.ofNat u).toNat < 0x20) := by
        rintro (he | hlt)
        · exact hplain.2 (by rw [← hnat, he]; rfl)
        · rw [hnat] at hlt
          omega
      simp only [if_pos h, List.singleton_append, readUnit, if_neg hback, if_neg hend]
      rw [hnat]
    · simp only [if_neg h, hexDigits, List.map_cons, List.map_nil, List.cons_append, List.nil_append,
        readUnit, if_true, readEscape, readHex_hexDigits hu, Option.map_some]

theorem consumes_readEscape : Consumes readEscape := by
  intro cs u rest h
  unfold readEscape at h
  split at h
  · obtain ⟨n, -, hn⟩ := Option.map_eq_some_iff.mp h
    cases hn
    simp only [List.length_cons]
    omega
  · obtain ⟨w, -, hw⟩ := Option.map_eq_some_iff.mp h
    cases hw
    exact Nat.lt_succ_self _
  · cases h

theorem consumes_readUnit : Consumes readUnit := by
  intro cs u rest h
  cases cs with
  | nil => cases h
  | cons c cs =>
    rw [readUnit] at h
    split at h
    · exact Nat.lt_succ_of_lt (consumes_readEscape _ _ _ h)
    · split at h
      · cases h
      · cases h
        exact Nat.lt_succ_self _

theorem readString_quote (s rest : List Char) : readString (quote s ++ rest) = some (s, rest) := by
  have hunits : ∀ u ∈ s.flatMap units, ∀ cs, readUnit (escapeUnit u ++ cs) = some (u, cs) := by
    intro u hu
    obtain ⟨c, -, hc⟩ := List.mem_flatMap.mp hu
    exact readUnit_escapeUnit (units_lt hc)
  have hstop : readUnit ('"' :: rest) = none := by simp [readUnit]
  have hwalk := walk_flatMap consumes_readUnit escapeUnit hstop _ hunits
  have hchars : readAll readChar (s.flatMap units) = some s :=
    readAll_flatMap consumes_readChar units s fun c _ us => readChar_units c us
  rw [quote, List.cons_append, List.append_assoc, List.singleton_append, readString, hwalk, hchars]
  rfl

theorem consumes_readString : Consumes readString := by
  intro cs s rest h
  unfold readString at h
  split at h
  · next cs =>
    split at h
    · next r hr =>
      obtain ⟨w, -, hw⟩ := Option.map_eq_some_iff.mp h
      cases hw
      have hle := walk_length_le consumes_readUnit cs
      rw [hr, List.length_cons] at hle
      rw [List.length_cons]
      omega
    · cases h
  · cases h

/-! ## Objects -/

abbrev Item := List Char × List Char

def member (w : Item) : List Char := quote w.1 ++ ':' :: ' ' :: quote w.2

def dumps : List Item → List Char
  | [] => ['{', '}']
  | w :: ws => '{' :: (member w ++ (ws.flatMap (fun w => ',' :: ' ' :: member w) ++ ['}']))

def isSpace (c : Char) : Bool := c = ' ' || c = '\t' || c = '\n' || c = '\r'

def skip (cs : List Char) : List Char := cs.dropWhile isSpace

def readMember : Reader Item Char := fun cs => do
  let (k, cs) ← readString cs
  let ':' :: cs := skip cs | none
  let (v, cs) ← readString (skip cs)
  return ((k, v), cs)

def readNext : Reader Item Char := fun cs => do
  let ',' :: cs := skip cs | none
  readMember (skip cs)

/-- The end of an object, with nothing after it. -/
def readEnd (ws : List Item) (cs : List Char) : Option (List Item) := do
  let '}' :: cs := skip cs | none
  if (skip cs).isEmpty then some ws else none

/-- At least one item. -/
def readItems (cs : List Char) : Option (List Item) := do
  let (w, cs) ← readMember (skip cs)
  readEnd (w :: (walk readNext cs).1) (walk readNext cs).2

/-- An object of strings; any other text is none. -/
def loads (cs : List Char) : Option (List Item) :=
  match skip cs with
  | '{' :: cs => (readEnd [] cs).or (readItems cs)
  | _ => none

theorem skip_cons {c : Char} (h : isSpace c = false) (cs : List Char) : skip (c :: cs) = c :: cs := by
  rw [skip, List.dropWhile_cons, h]
  rfl

theorem skip_quote (s rest : List Char) : skip (quote s ++ rest) = quote s ++ rest := by
  rw [quote, List.cons_append]
  exact skip_cons rfl _

theorem skip_member (w : Item) (rest : List Char) : skip (member w ++ rest) = member w ++ rest := by
  rw [member, List.append_assoc]
  exact skip_quote w.1 _

theorem length_skip_le (cs : List Char) : (skip cs).length ≤ cs.length :=
  List.length_dropWhile_le isSpace cs

theorem readMember_member (w : Item) (rest : List Char) : readMember (member w ++ rest) = some (w, rest) := by
  have hspace : skip (' ' :: (quote w.2 ++ rest)) = quote w.2 ++ rest := by
    rw [← skip_quote]
    rfl
  rw [member, List.append_assoc, readMember, readString_quote, Option.bind_eq_bind, Option.bind_some]
  show (readString (skip (' ' :: (quote w.2 ++ rest)))).bind _ = _
  rw [hspace, readString_quote]
  rfl

theorem readNext_member (w : Item) (rest : List Char) :
    readNext (',' :: ' ' :: member w ++ rest) = some (w, rest) := by
  have hspace : skip (' ' :: (member w ++ rest)) = member w ++ rest := by
    rw [← skip_member]
    rfl
  show readMember (skip (' ' :: (member w ++ rest))) = _
  rw [hspace, readMember_member]

theorem consumes_readMember : Consumes readMember := by
  intro cs w rest h
  obtain ⟨⟨k, cs₁⟩, hk, h⟩ := Option.bind_eq_some_iff.mp h
  have hlen := consumes_readString _ _ _ hk
  have hskip := length_skip_le cs₁
  dsimp only at h
  split at h
  · next cs₂ hcs =>
    obtain ⟨⟨v, cs₃⟩, hv, h⟩ := Option.bind_eq_some_iff.mp h
    cases h
    have hlen' := consumes_readString _ _ _ hv
    have hskip' := length_skip_le cs₂
    rw [hcs, List.length_cons] at hskip
    show cs₃.length < cs.length
    omega
  · cases h

theorem consumes_readNext : Consumes readNext := by
  intro cs w rest h
  have hskip := length_skip_le cs
  unfold readNext at h
  split at h
  · next cs₁ hcs =>
    have hlen := consumes_readMember _ _ _ h
    have hskip' := length_skip_le cs₁
    rw [hcs, List.length_cons] at hskip
    omega
  · cases h

theorem readItems_member (w : Item) (ws : List Item) :
    readItems (member w ++ (ws.flatMap (fun w => ',' :: ' ' :: member w) ++ ['}'])) = some (w :: ws) := by
  have hend : readNext ['}'] = none := rfl
  have hrest := walk_flatMap consumes_readNext (fun w => ',' :: ' ' :: member w) hend ws
    fun w _ rest => readNext_member w rest
  rw [readItems, skip_member, readMember_member, Option.bind_eq_bind, Option.bind_some]
  show readEnd (w :: (walk readNext _).1) (walk readNext _).2 = _
  rw [hrest]
  rfl

theorem loads_brace (cs : List Char) : loads ('{' :: cs) = (readEnd [] cs).or (readItems cs) := by
  rw [loads, skip_cons rfl]
  rfl

/-- **What is dumped loads as it was.** -/
theorem loads_dumps (ws : List Item) : loads (dumps ws) = some ws := by
  cases ws with
  | nil => rfl
  | cons w ws =>
    have hfirst : readEnd [] (member w ++ (ws.flatMap (fun w => ',' :: ' ' :: member w) ++ ['}'])) = none := by
      rw [readEnd, skip_member]
      rfl
    rw [dumps, loads_brace, hfirst, readItems_member, Option.none_or]

/-! ## Bytes -/

def isAscii (c : Char) : Bool := c.toNat < 128

def encode (cs : List Char) : List UInt8 := cs.map fun c => UInt8.ofNat c.toNat

/-- A byte that is not ASCII ends it, in whatever encoding it would be. -/
def decode (bs : List UInt8) : Option (List Char) :=
  if bs.all (· < 128) then some (bs.map fun b => Char.ofNat b.toNat) else none

theorem decode_encode {cs : List Char} (h : cs.all isAscii = true) : decode (encode cs) = some cs := by
  have hbyte : ∀ c ∈ cs, (UInt8.ofNat c.toNat).toNat = c.toNat := by
    intro c hc
    have hlt : c.toNat < 128 := of_decide_eq_true (List.all_eq_true.mp h c hc)
    rw [UInt8.toNat_ofNat', Nat.mod_eq_of_lt (by omega)]
  have hall : (encode cs).all (· < 128) = true := by
    rw [encode, List.all_map, List.all_eq_true]
    intro c hc
    have hlt : c.toNat < 128 := of_decide_eq_true (List.all_eq_true.mp h c hc)
    exact decide_eq_true (UInt8.lt_iff_toNat_lt.mpr ((hbyte c hc).symm ▸ hlt))
  have hmap : (encode cs).map (fun b => Char.ofNat b.toNat) = cs := by
    rw [encode, List.map_map]
    refine (List.map_congr_left fun c hc => ?_).trans (List.map_id cs)
    rw [Function.comp, hbyte c hc, Char.ofNat_toNat]
    rfl
  rw [decode, if_pos hall, hmap]

theorem ascii_escapeUnit (u : Nat) : (escapeUnit u).all isAscii = true := by
  rw [escapeUnit]
  cases hshort : shortEscapes.lookup u with
  | some e =>
    have hall : ∀ w ∈ shortEscapes, isAscii w.2 = true := by decide
    simp only [List.all_cons, List.all_nil, hall _ (short_cases hshort), Bool.and_true]
    rfl
  | none =>
    by_cases h : 0x20 ≤ u ∧ u ≤ 0x7E
    · have hnat := toNat_ofNat_printed h.2
      simp only [if_pos h, List.all_cons, List.all_nil, Bool.and_true, isAscii, hnat]
      exact decide_eq_true (by omega)
    · have hdigit : ∀ n < 16, isAscii (Nat.digitChar n) = true := by decide
      have h16 : ∀ n, isAscii (Nat.digitChar (n % 16)) = true := fun n => hdigit _ (Nat.mod_lt n (by decide))
      simp only [if_neg h, hexDigits, List.map_cons, List.map_nil, List.all_cons, List.all_nil, h16,
        Bool.and_true]
      rfl

theorem ascii_quote (s : List Char) : (quote s).all isAscii = true := by
  have hbody : ((s.flatMap units).flatMap escapeUnit).all isAscii = true := by
    rw [List.all_flatMap, List.all_eq_true]
    exact fun u _ => ascii_escapeUnit u
  rw [quote, List.all_cons, List.all_append, hbody]
  rfl

theorem ascii_member (w : Item) : (member w).all isAscii = true := by
  rw [member, List.all_append, List.all_cons, List.all_cons, ascii_quote, ascii_quote]
  rfl

theorem ascii_dumps (ws : List Item) : (dumps ws).all isAscii = true := by
  cases ws with
  | nil => rfl
  | cons w ws =>
    have hrest : (ws.flatMap fun w => ',' :: ' ' :: member w).all isAscii = true := by
      rw [List.all_flatMap, List.all_eq_true]
      intro w _
      rw [List.all_cons, List.all_cons, ascii_member]
      rfl
    rw [dumps, List.all_cons, List.all_append, List.all_append, ascii_member, hrest]
    rfl

end BigDataPlatform.Lib.JsonStrings
