import BigDataPlatform.Lib.Dictionary
import BigDataPlatform.SchemaInit.Job
import BigDataPlatform.SchemaInit.ShortNumbers
import Mathlib.Data.List.TakeWhile
import Mathlib.Data.String.Basic
import Mathlib.Order.Bounds.Basic

/-! # Does the selection follow the version order?

`sort -V` compares numbers and the awk test compares the digits that awk prints,
so what is printed last is right only where the two agree on the names that
decide. -/
namespace BigDataPlatform.SchemaInit
open Awk Lib.SortedLast Lib.Dictionary

/-! ## The awk test, digit by digit -/

def trimmed (n : Nat) : List Char := dropZeros (digits n)

/-- The test against `a.b.c`, in dictionary order: awk drops the zeros that end
`b` and `c`, and writes the zero of `.c` behind what is left of `a.b`. -/
def DigitsPass (version field : Version) : Prop :=
  if version.minor = 0 then
    digits field.major < digits version.major ++ ['0'] ∨
      version.patch ≠ 0 ∧ digits field.major = digits version.major ++ ['0'] ∧
        digits field.minor < trimmed version.patch
  else
    digits field.major < digits version.major ∨
      digits field.major = digits version.major ∧
        (digits field.minor < trimmed version.minor ++ ['0'] ∨
          version.patch ≠ 0 ∧ digits field.minor = trimmed version.minor ++ ['0'] ∧
            digits field.patch ≤ trimmed version.patch)

/-- `VERSION` is within the digits that awk prints. -/
def Printed (version : Version) : Prop :=
  SixDigits version.major version.minor ∧ SixDigits 0 version.patch

instance (version : Version) : Decidable (Printed version) := inferInstanceAs (Decidable (_ ∧ _))

/-- A longer `VERSION` is rounded first, and the name compared with what is left. -/
def Passes (version field : Version) : Prop :=
  if Printed version then DigitsPass version field
  else field.text ≤ spliced version.major version.minor version.patch

variable {version field : Version}

theorem dot_lt_of_mem_digits {n : Nat} : ∀ c ∈ digits n, '.' < c := by
  intro c hc
  have hdigit := Nat.isDigit_of_mem_toDigits (by decide) (by decide) hc
  simp only [Char.isDigit, Bool.and_eq_true, decide_eq_true_eq] at hdigit
  exact lt_of_lt_of_le (by decide : '.' < '0') (show '0' ≤ c from hdigit.1)

theorem mem_of_mem_dropZeros {cs : List Char} {c : Char} (h : c ∈ dropZeros cs) : c ∈ cs :=
  List.mem_reverse.mp (List.dropWhile_subset _ (List.mem_reverse.mp h))

theorem dot_lt_of_mem_trimmed {n : Nat} : ∀ c ∈ trimmed n, '.' < c := fun c hc =>
  dot_lt_of_mem_digits c (mem_of_mem_dropZeros hc)

theorem dot_lt_of_mem_zero {cs : List Char} (h : ∀ c ∈ cs, '.' < c) : ∀ c ∈ cs ++ ['0'], '.' < c := by
  intro c hc
  rcases List.mem_append.mp hc with hc | hc
  · exact h c hc
  · rw [List.mem_singleton.mp hc]
    decide

theorem dropZeros_eq_nil_iff {cs : List Char} : dropZeros cs = [] ↔ ∀ c ∈ cs, c = '0' := by
  simp [dropZeros, List.dropWhile_eq_nil_iff]

theorem trimmed_eq_nil_iff {n : Nat} : trimmed n = [] ↔ n = 0 := by
  rw [trimmed, dropZeros_eq_nil_iff]
  constructor
  · intro h
    have hzeros : digits n = List.replicate (digits n).length '0' :=
      List.eq_replicate_iff.mpr ⟨rfl, h⟩
    have hvalue : Nat.ofDigitChars 10 (digits n) 0 = n := Nat.ofDigitChars_ten_toDigits
    rw [← hvalue, hzeros]
    generalize (digits n).length = k
    induction k with
    | zero => rfl
    | succ k ih => exact ih
  · rintro rfl c hc
    exact List.mem_singleton.mp hc

theorem fixed_digits (lead : List Char) (n : Nat) :
    fixed lead (digits n) = if n = 0 then lead else lead ++ '.' :: trimmed n := by
  split
  · next h =>
    rw [← trimmed_eq_nil_iff, trimmed] at h
    rw [fixed, h]
  · next h =>
    rw [← trimmed_eq_nil_iff] at h
    rw [fixed, ← trimmed]
    cases ht : trimmed n with
    | nil => exact absurd ht h
    | cons c cs => rfl

theorem toList_text (v : Version) :
    v.text.toList = digits v.major ++ '.' :: (digits v.minor ++ '.' :: digits v.patch) := by
  simp [Version.text, digits]

theorem text_le_spliced_iff (h : Printed version) :
    field.text ≤ spliced version.major version.minor version.patch ↔ DigitsPass version field := by
  have hx : ∀ c ∈ digits field.major, '.' < c := dot_lt_of_mem_digits
  have hy : ∀ c ∈ digits field.minor, '.' < c := dot_lt_of_mem_digits
  have ha : ∀ c ∈ digits version.major, '.' < c := dot_lt_of_mem_digits
  have hb : ∀ c ∈ trimmed version.minor, '.' < c := dot_lt_of_mem_trimmed
  have hc : ∀ c ∈ trimmed version.patch, '.' < c := dot_lt_of_mem_trimmed
  have ha0 := dot_lt_of_mem_zero ha
  have hb0 := dot_lt_of_mem_zero hb
  rw [String.le_iff_toList_le, toList_text, spliced, String.toList_ofList,
    numberString_sixDigits h.1, numberString_sixDigits h.2, fixed_digits, fixed_digits, DigitsPass,
    show digits 0 = ['0'] from rfl]
  by_cases hminor : version.minor = 0 <;> by_cases hpatch : version.patch = 0
  · rw [if_pos hminor, if_pos hpatch, if_pos hminor, joined_le hx ha0]
    simp [hpatch]
  · rw [if_pos hminor, if_neg hpatch, if_pos hminor, ← List.append_assoc, joined_le_joined hx ha0,
      joined_le hy hc]
    simp [hpatch]
  · rw [if_neg hminor, if_pos hpatch, if_neg hminor, List.append_assoc, List.cons_append,
      joined_le_joined hx ha, joined_le hy hb0]
    simp [hpatch]
  · rw [if_neg hminor, if_neg hpatch, if_neg hminor, List.append_assoc, List.cons_append,
      ← List.append_assoc (trimmed _), joined_le_joined hx ha, joined_le_joined hy hb0]
    simp [hpatch]

theorem awkLe_iff : awkLe version field ↔ Passes version field := by
  rw [awkLe, decide_eq_true_eq, Passes]
  split
  · next h => exact text_le_spliced_iff h
  · exact Iff.rfl

theorem digits_oneDigit {n : Nat} (h : n < 10) : digits n = [n.digitChar] := Nat.toDigits_of_lt_base h

theorem digitChar_lt_iff {n m : Nat} (hn : n < 10) (hm : m < 10) :
    n.digitChar < m.digitChar ↔ n < m :=
  (by decide : ∀ n < 10, ∀ m < 10, Nat.digitChar n < Nat.digitChar m ↔ n < m) n hn m hm

theorem digitChar_inj {n m : Nat} (hn : n < 10) (hm : m < 10) : n.digitChar = m.digitChar ↔ n = m :=
  (by decide : ∀ n < 10, ∀ m < 10, Nat.digitChar n = Nat.digitChar m ↔ n = m) n hn m hm

theorem trimmed_oneDigit {n : Nat} (h : n < 10) (hn : n ≠ 0) : trimmed n = [n.digitChar] := by
  have hnil : trimmed n ≠ [] := fun he => hn (trimmed_eq_nil_iff.mp he)
  rw [trimmed, digits_oneDigit h] at hnil ⊢
  unfold dropZeros at hnil ⊢
  by_cases hc : n.digitChar = '0' <;> simp_all

/-- **What the test sees of one-digit components**: the major and the minor
number, and the major alone against `a.0.c`. -/
theorem passes_oneDigit (hv : version.major < 10 ∧ version.minor < 10 ∧ version.patch < 10)
    (hf : field.major < 10 ∧ field.minor < 10) :
    Passes version field ↔ field.major < version.major ∨
      field.major = version.major ∧ (version.minor = 0 ∨ field.minor ≤ version.minor) := by
  obtain ⟨ha, hb, hc⟩ := hv
  obtain ⟨hx, hy⟩ := hf
  have hprinted : Printed version := by
    simp only [Printed, SixDigits, digits_oneDigit ha, digits_oneDigit hb, digits_oneDigit hc,
      List.length_singleton]
    split <;> decide
  rw [Passes, if_pos hprinted, DigitsPass, digits_oneDigit ha, digits_oneDigit hx, digits_oneDigit hy]
  by_cases hminor : version.minor = 0
  · simp [hminor, List.cons_lt_cons_iff, digitChar_lt_iff hx ha, digitChar_inj hx ha]
  · rw [if_neg hminor, trimmed_oneDigit hb hminor]
    simp [hminor, List.cons_lt_cons_iff, digitChar_lt_iff hx ha, digitChar_inj hx ha,
      digitChar_lt_iff hy hb, digitChar_inj hy hb, Nat.le_iff_lt_or_eq]

/-! ## The names that decide -/

section Names
variable (scripts : Scripts) (version : Version)

def schemasUpTo : Set Version := {v | v ∈ scripts.schemas ∧ v ≤ version}

/-- Where the upgrade scripts up to the server's version lead. -/
def targetsUpTo : Set Version := {q | q ≤ version ∧ ∃ u ∈ scripts.upgrades, u.target = q}

/-- The greatest schema up to the version is picked and the Job fails only for
lack of one; the script picked leads as far as any up to the version. -/
structure SelectsInOrder : Prop where
  schema : ∀ v, schemaFile scripts version = some v ↔ IsGreatest (schemasUpTo scripts version) v
  fails : ∀ store, (∃ text, applySchema scripts (some version) store = .error text) ↔
    schemasUpTo scripts version = ∅
  upgrade : ∀ u, upgradeFile scripts version = some u →
    u ∈ scripts.upgrades ∧ IsGreatest (targetsUpTo scripts version) u.target
  noUpgrade : upgradeFile scripts version = none → targetsUpTo scripts version = ∅

/-- What the digits of the names have to be. No schema above the version passes,
and the greatest up to it does. Where no script stops at the version or below,
none passes; otherwise the greatest target up to it does, and a script that
passes with another target sorts before one that leads there. -/
structure NamesInOrder : Prop where
  above : ∀ v ∈ scripts.schemas, version < v → ¬ Passes version v
  greatest : ∀ v, IsGreatest (schemasUpTo scripts version) v → Passes version v
  noTarget : targetsUpTo scripts version = ∅ → ∀ u ∈ scripts.upgrades, ¬ Passes version u.target
  target : ∀ q, IsGreatest (targetsUpTo scripts version) q → Passes version q ∧
    ∀ u ∈ scripts.upgrades, Passes version u.target → u.target ≠ q →
      ∃ w ∈ scripts.upgrades, w.target = q ∧ u < w

end Names

variable {scripts : Scripts}

theorem exists_greatest_schema {v : Version} (h : v ∈ schemasUpTo scripts version) :
    ∃ m, IsGreatest (schemasUpTo scripts version) m := by
  obtain ⟨m, hm⟩ := exists_isGreatest (fun x => decide (x ≤ version)) h.1 (decide_eq_true h.2)
  simp only [decide_eq_true_eq] at hm
  exact ⟨m, hm⟩

theorem schemaFile_isGreatest_iff :
    (∀ v, schemaFile scripts version = some v ↔ IsGreatest (schemasUpTo scripts version) v) ↔
      (∀ v ∈ scripts.schemas, version < v → ¬ Passes version v) ∧
        ∀ v, IsGreatest (schemasUpTo scripts version) v → Passes version v := by
  constructor
  · intro h
    constructor
    · intro v hv habove hk
      rw [← awkLe_iff] at hk
      cases hs : schemaFile scripts version with
      | none => exact sortedLast_eq_none_iff.mp hs v hv hk
      | some m =>
        exact habove.not_ge (((schemaFile_eq_some_iff.mp hs).2 v hv hk).trans ((h m).mp hs).1.2)
    · intro v hv
      exact awkLe_iff.mp (schemaFile_eq_some_iff.mp ((h v).mpr hv)).1.2
  · intro h v
    obtain ⟨habove, hgreatest⟩ := h
    have hup : ∀ x ∈ scripts.schemas, awkLe version x → x ≤ version := fun x hx hk =>
      not_lt.mp fun hlt => habove x hx hlt (awkLe_iff.mp hk)
    rw [schemaFile_eq_some_iff]
    constructor
    · intro hv
      obtain ⟨⟨hmem, hk⟩, hmax⟩ := hv
      have hv : v ∈ schemasUpTo scripts version := ⟨hmem, hup v hmem hk⟩
      obtain ⟨m, hm⟩ := exists_greatest_schema hv
      have hmv : m = v := le_antisymm (hmax m hm.1.1 (awkLe_iff.mpr (hgreatest m hm))) (hm.2 hv)
      exact hmv ▸ hm
    · intro hv
      exact ⟨⟨hv.1.1, awkLe_iff.mpr (hgreatest v hv)⟩, fun x hx hk => hv.2 ⟨hx, hup x hx hk⟩⟩

theorem schemaFile_eq_none_iff
    (h : ∀ v, schemaFile scripts version = some v ↔ IsGreatest (schemasUpTo scripts version) v) :
    schemaFile scripts version = none ↔ schemasUpTo scripts version = ∅ := by
  constructor
  · intro hn
    refine Set.eq_empty_of_forall_notMem fun v hv => ?_
    obtain ⟨m, hm⟩ := exists_greatest_schema hv
    rw [(h m).mpr hm] at hn
    cases hn
  · intro he
    cases hs : schemaFile scripts version with
    | none => rfl
    | some v =>
      have hv : v ∈ schemasUpTo scripts version := ((h v).mp hs).1
      rw [he] at hv
      exact hv.elim

theorem applySchema_error_iff (store : Store) :
    (∃ text, applySchema scripts (some version) store = .error text) ↔
      schemaFile scripts version = none := by
  simp only [applySchema]
  cases schemaFile scripts version <;> simp

theorem exists_greatest_target {q : Version} (h : q ∈ targetsUpTo scripts version) :
    ∃ m, IsGreatest (targetsUpTo scripts version) m := by
  obtain ⟨hle, u, hu, rfl⟩ := h
  obtain ⟨m, hm⟩ := exists_isGreatest (fun x => decide (x ≤ version))
    (List.mem_map_of_mem (f := Upgrade.target) hu) (decide_eq_true hle)
  simp only [List.mem_map, decide_eq_true_eq] at hm
  exact ⟨m, ⟨hm.1.2, hm.1.1⟩, fun x hx => hm.2 ⟨hx.2, hx.1⟩⟩

theorem upgradeFile_isGreatest_iff :
    ((∀ u, upgradeFile scripts version = some u →
          u ∈ scripts.upgrades ∧ IsGreatest (targetsUpTo scripts version) u.target) ∧
        (upgradeFile scripts version = none → targetsUpTo scripts version = ∅)) ↔
      (targetsUpTo scripts version = ∅ → ∀ u ∈ scripts.upgrades, ¬ Passes version u.target) ∧
        ∀ q, IsGreatest (targetsUpTo scripts version) q → Passes version q ∧
          ∀ u ∈ scripts.upgrades, Passes version u.target → u.target ≠ q →
            ∃ w ∈ scripts.upgrades, w.target = q ∧ u < w := by
  have hnone : upgradeFile scripts version = none ↔
      ∀ u ∈ scripts.upgrades, ¬ awkLe version u.target := sortedLast_eq_none_iff
  constructor
  · intro h
    obtain ⟨hpick, hlack⟩ := h
    constructor
    · intro hempty u hmem hk
      cases hu : upgradeFile scripts version with
      | none => exact hnone.mp hu u hmem (awkLe_iff.mpr hk)
      | some w =>
        have hw := (hpick w hu).2.1
        rw [hempty] at hw
        exact hw
    · intro q hq
      cases hu : upgradeFile scripts version with
      | none =>
        have hmem := hq.1
        rw [hlack hu] at hmem
        exact hmem.elim
      | some w =>
        obtain ⟨⟨hmem, hk⟩, hmax⟩ := upgradeFile_sorted_iff.mp hu
        have hwq : w.target = q := (hpick w hu).2.unique hq
        refine ⟨hwq ▸ awkLe_iff.mp hk, fun u hu hku hne => ⟨w, hmem, hwq, ?_⟩⟩
        refine lt_of_le_of_ne (hmax u hu (awkLe_iff.mpr hku)) fun he => hne ?_
        rw [he, hwq]
  · intro h
    obtain ⟨hnoTarget, htarget⟩ := h
    constructor
    · intro u hu
      obtain ⟨⟨hmem, hk⟩, hmax⟩ := upgradeFile_sorted_iff.mp hu
      have hne : (targetsUpTo scripts version).Nonempty := by
        by_contra hempty
        exact hnoTarget (Set.not_nonempty_iff_eq_empty.mp hempty) u hmem (awkLe_iff.mp hk)
      obtain ⟨q, hq⟩ := exists_greatest_target hne.some_mem
      obtain ⟨hqk, hsorts⟩ := htarget q hq
      have huq : u.target = q := by
        by_contra hneq
        obtain ⟨w, hw, rfl, hlt⟩ := hsorts u hmem (awkLe_iff.mp hk) hneq
        exact hlt.not_ge (hmax w hw (awkLe_iff.mpr hqk))
      exact ⟨hmem, huq ▸ hq⟩
    · intro hn
      refine Set.eq_empty_of_forall_notMem fun q hq => ?_
      obtain ⟨m, hm⟩ := exists_greatest_target hq
      obtain ⟨_, u, hu, rfl⟩ := hm.1
      exact hnone.mp hn u hu (awkLe_iff.mpr (htarget _ hm).1)

/-- **The selection follows the version order exactly where the digits of the
names do.** -/
theorem selectsInOrder_iff (scripts : Scripts) (version : Version) :
    SelectsInOrder scripts version ↔ NamesInOrder scripts version := by
  constructor
  · intro h
    obtain ⟨habove, hgreatest⟩ := schemaFile_isGreatest_iff.mp h.schema
    obtain ⟨hnoTarget, htarget⟩ := upgradeFile_isGreatest_iff.mp ⟨h.upgrade, h.noUpgrade⟩
    exact ⟨habove, hgreatest, hnoTarget, htarget⟩
  · intro h
    have hschema := schemaFile_isGreatest_iff.mpr ⟨h.above, h.greatest⟩
    obtain ⟨hpick, hlack⟩ := upgradeFile_isGreatest_iff.mpr ⟨h.noTarget, h.target⟩
    refine ⟨hschema, fun store => ?_, hpick, hlack⟩
    rw [applySchema_error_iff, schemaFile_eq_none_iff hschema]

/-- The first release with a two-digit minor number, and the one before it. -/
def tenthMinor : Scripts where
  schemas := [⟨1, 9, 0⟩, ⟨1, 10, 0⟩]
  upgrades := [⟨⟨1, 9, 0⟩, ⟨1, 10, 0⟩⟩]

/-- `1.10.0` reaches awk as the string `1.10`, and no shipped version compares
below it: the Job of that release fails. The one before it would apply the
schema of the release to come. -/
theorem tenthMinor_out_of_order :
    applySchema tenthMinor (some ⟨1, 10, 0⟩) none =
        .error ("ERROR: no schema file found for version " ++ Version.text ⟨1, 10, 0⟩) ∧
      schemaFile tenthMinor ⟨1, 9, 0⟩ = some ⟨1, 10, 0⟩ ∧
      ¬ SelectsInOrder tenthMinor ⟨1, 10, 0⟩ := by
  have hn : schemaFile tenthMinor ⟨1, 10, 0⟩ = none := by decide +kernel
  refine ⟨by rw [applySchema, hn], by decide +kernel, ?_⟩
  intro h
  have hg : IsGreatest (schemasUpTo tenthMinor ⟨1, 10, 0⟩) ⟨1, 10, 0⟩ :=
    ⟨⟨by decide, le_rfl⟩, fun v hv => hv.2⟩
  have hs := (h.schema ⟨1, 10, 0⟩).mpr hg
  rw [hn] at hs
  cases hs

/-- One digit each: `1.0.0` lets every `1.y.z` pass. -/
example : schemaFile ⟨[⟨1, 0, 0⟩, ⟨1, 1, 0⟩], []⟩ ⟨1, 0, 0⟩ = some ⟨1, 1, 0⟩ := by decide +kernel

end BigDataPlatform.SchemaInit
