import BigDataPlatform.Lib.SortedLast
import BigDataPlatform.SchemaInit.Awk
import Mathlib.Data.Prod.Lex

/-! # Which scripts the Job applies

`ls | sort -V | awk '$k <= VERSION' | tail -n 1`, once over the schema files
and once over the upgrade scripts. `sort -V` orders dotted versions by their
numbers; the awk test compares strings. -/
namespace BigDataPlatform.SchemaInit
open Awk Lib.SortedLast

/-! ## Versions and script names -/

/-- `a.b.c`, without leading zeros. -/
structure Version where
  major : Nat
  minor : Nat
  patch : Nat
  deriving DecidableEq, Repr

namespace Version

def key (v : Version) : Nat ×ₗ Nat ×ₗ Nat := toLex (v.major, toLex (v.minor, v.patch))

theorem key_injective : Function.Injective key := by
  intro v v' h
  obtain ⟨a, b, c⟩ := v
  obtain ⟨a', b', c'⟩ := v'
  simp only [key, EmbeddingLike.apply_eq_iff_eq, Prod.mk.injEq] at h
  obtain ⟨rfl, rfl, rfl⟩ := h
  rfl

/-- Component by component, as numbers: `sort -V`. -/
instance : LinearOrder Version := LinearOrder.lift' key key_injective

def text (v : Version) : String :=
  toString v.major ++ "." ++ toString v.minor ++ "." ++ toString v.patch

end Version

/-- `upgrade-SOURCE-to-TARGET-postgresql.sql`. -/
structure Upgrade where
  source : Version
  target : Version
  deriving DecidableEq, Repr

namespace Upgrade

def key (u : Upgrade) : Version ×ₗ Version := toLex (u.source, u.target)

theorem key_injective : Function.Injective key := by
  intro u u' h
  obtain ⟨p, q⟩ := u
  obtain ⟨p', q'⟩ := u'
  simp only [key, EmbeddingLike.apply_eq_iff_eq, Prod.mk.injEq] at h
  obtain ⟨rfl, rfl⟩ := h
  rfl

/-- `sort -V` reaches the target only between scripts of one source. -/
instance : LinearOrder Upgrade := LinearOrder.lift' key key_injective

end Upgrade

/-- The files staged under `/scripts/postgresql`. -/
structure Scripts where
  schemas : List Version
  upgrades : List Upgrade

/-- `$k <= VERSION`: the field against `VERSION` as spliced into the program.
The right side is a string, so the comparison is by characters. -/
def awkLe (version field : Version) : Bool :=
  field.text ≤ spliced version.major version.minor version.patch

/-- `schema_file`; nothing is printed when no name passes the test. -/
def schemaFile (scripts : Scripts) (version : Version) : Option Version :=
  sortedLast (awkLe version) scripts.schemas

/-- `upgrade_file`: the test reads the target, the sort the whole name. -/
def upgradeFile (scripts : Scripts) (version : Version) : Option Upgrade :=
  sortedLast (fun u => awkLe version u.target) scripts.upgrades

variable {scripts : Scripts} {version : Version}

theorem schemaFile_eq_some_iff {v : Version} :
    schemaFile scripts version = some v ↔
      (v ∈ scripts.schemas ∧ awkLe version v) ∧ ∀ x ∈ scripts.schemas, awkLe version x → x ≤ v :=
  sortedLast_eq_some_iff

/-- The schema of the server's own version is picked where it is shipped,
exactly if it passes the test and nothing above it does. -/
theorem schemaFile_self_iff (h : version ∈ scripts.schemas) :
    schemaFile scripts version = some version ↔
      awkLe version version ∧ ∀ v ∈ scripts.schemas, awkLe version v → v ≤ version := by
  rw [schemaFile_eq_some_iff]
  exact ⟨fun hv => ⟨hv.1.2, hv.2⟩, fun hv => ⟨⟨h, hv.1⟩, hv.2⟩⟩

theorem upgradeFile_sorted_iff {u : Upgrade} :
    upgradeFile scripts version = some u ↔
      (u ∈ scripts.upgrades ∧ awkLe version u.target) ∧
        ∀ u' ∈ scripts.upgrades, awkLe version u'.target → u' ≤ u :=
  sortedLast_eq_some_iff

end BigDataPlatform.SchemaInit
