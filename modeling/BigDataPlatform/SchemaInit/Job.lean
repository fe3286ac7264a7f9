import BigDataPlatform.SchemaInit.Selection
import Mathlib.Logic.Relation

/-! # The apply-schema Job on the entity store

A store is empty or at a version. The Job picks one upgrade script and one
schema file for the server's version, whatever the store holds, and runs again
on every sync. -/
namespace BigDataPlatform.SchemaInit

/-- The entity store: empty, or at a version. -/
abbrev Store := Option Version

/-- An upgrade script fails, with nothing changed, on a store not at its source. -/
def Upgrade.run (upgrade : Upgrade) (store : Store) : Option Store :=
  if store = some upgrade.source then some (some upgrade.target) else none

/-- `psql -f "$upgrade_file" || echo "WARNING: …"`, where there is such a file. -/
def applyUpgrade : Option Upgrade → Store → Store
  | none, store => store
  | some upgrade, store => (upgrade.run store).getD store

/-- A schema file creates the full schema in an empty store only. `psql -f`
exits with 0 after SQL errors, so the script's `set -e` never sees them. -/
def createSchema (schema : Version) (store : Store) : Store := store.or (some schema)

/-- The container's script: `VERSION` is what version.txt holds, if anything. -/
def applySchema (scripts : Scripts) (version : Option Version) (store : Store) :
    Except String Store :=
  match version with
  | none => .error "ERROR: version.txt empty"
  | some version =>
    match schemaFile scripts version with
    | none => .error ("ERROR: no schema file found for version " ++ version.text)
    | some schema => .ok (createSchema schema (applyUpgrade (upgradeFile scripts version) store))

/-- The Job on `n` syncs in a row. -/
def syncs (scripts : Scripts) (version : Option Version) : Nat → Store → Except String Store
  | 0, store => .ok store
  | n + 1, store => applySchema scripts version store >>= syncs scripts version n

/-! ## What is picked where the string test follows the numbers -/

/-- The upgrade script sorted last among those that stop at `version` or below. -/
def Latest (scripts : Scripts) (version : Version) (u : Upgrade) : Prop :=
  (u ∈ scripts.upgrades ∧ u.target ≤ version) ∧
    ∀ u' ∈ scripts.upgrades, u'.target ≤ version → u' ≤ u

/-- The files picked are those that a test by numbers would pick. -/
structure PicksInOrder (scripts : Scripts) (version : Version) : Prop where
  schema : schemaFile scripts version = some version
  upgrade : ∀ u, upgradeFile scripts version = some u ↔ Latest scripts version u

/-- The awk test agrees with the numbers on every shipped name. -/
def AwkInOrder (scripts : Scripts) (version : Version) : Prop :=
  ∀ v ∈ scripts.schemas ++ scripts.upgrades.map Upgrade.target,
    awkLe version v ↔ v ≤ version

instance (scripts : Scripts) (version : Version) : Decidable (AwkInOrder scripts version) :=
  inferInstanceAs (Decidable (∀ _ ∈ _, _ ↔ _))

instance (scripts : Scripts) (version : Version) (u : Upgrade) :
    Decidable (Latest scripts version u) :=
  inferInstanceAs (Decidable ((_ ∧ _) ∧ ∀ _ ∈ _, _ → _))

variable {scripts : Scripts} {version : Version} {store : Store}

theorem latest_unique {u u' : Upgrade} (h : Latest scripts version u)
    (h' : Latest scripts version u') : u = u' :=
  le_antisymm (h'.2 u h.1.1 h.1.2) (h.2 u' h'.1.1 h'.1.2)

theorem AwkInOrder.picks (hawk : AwkInOrder scripts version) (hs : version ∈ scripts.schemas) :
    PicksInOrder scripts version := by
  have hschema (v) (hv : v ∈ scripts.schemas) : awkLe version v ↔ v ≤ version :=
    hawk v (List.mem_append_left _ hv)
  have htarget (u) (hu : u ∈ scripts.upgrades) : awkLe version u.target ↔ u.target ≤ version :=
    hawk u.target (List.mem_append_right _ (List.mem_map_of_mem hu))
  constructor
  · exact (schemaFile_self_iff hs).mpr
      ⟨(hschema version hs).mpr le_rfl, fun v hv hk => (hschema v hv).mp hk⟩
  · intro u
    rw [upgradeFile_sorted_iff, Latest]
    constructor
    · intro h
      obtain ⟨⟨hu, hk⟩, hmax⟩ := h
      exact ⟨⟨hu, (htarget u hu).mp hk⟩, fun u' hu' ht => hmax u' hu' ((htarget u' hu').mpr ht)⟩
    · intro h
      obtain ⟨⟨hu, ht⟩, hmax⟩ := h
      exact ⟨⟨hu, (htarget u hu).mpr ht⟩, fun u' hu' hk => hmax u' hu' ((htarget u' hu').mp hk)⟩

/-! ## One run -/

theorem createSchema_eq_iff :
    createSchema version store = some version ↔ store = none ∨ store = some version := by
  cases store <;> simp [createSchema]

/-- What one upgrade script can do: nothing, or take its source to its target. -/
theorem applyUpgrade_eq_iff {pick : Option Upgrade} {v : Version} :
    applyUpgrade pick store = some v ↔
      store = some v ∧ (∀ q, pick = some ⟨v, q⟩ → q = v) ∨
        ∃ p, store = some p ∧ pick = some ⟨p, v⟩ := by
  cases pick with
  | none => simp [applyUpgrade]
  | some u =>
    obtain ⟨p, q⟩ := u
    simp only [applyUpgrade, Upgrade.run, Option.some.injEq, Upgrade.mk.injEq]
    by_cases hp : store = some p
    · subst hp
      simp only [if_true, Option.getD_some, Option.some.injEq]
      constructor
      · rintro rfl; exact .inr ⟨p, rfl, rfl, rfl⟩
      · rintro (⟨rfl, h⟩ | ⟨_, rfl, -, rfl⟩)
        · exact h q ⟨rfl, rfl⟩
        · rfl
    · simp only [if_neg hp, Option.getD_none]
      constructor
      · rintro rfl; exact .inl ⟨rfl, fun _ h => absurd (congrArg some h.1.symm) hp⟩
      · rintro (⟨h, -⟩ | ⟨_, rfl, rfl, -⟩)
        · exact h
        · exact absurd rfl hp

theorem applyUpgrade_eq_none_iff {pick : Option Upgrade} :
    applyUpgrade pick store = none ↔ store = none := by
  cases pick with
  | none => rfl
  | some u =>
    simp only [applyUpgrade, Upgrade.run]
    split
    · next h => simp [h]
    · rfl

/-- One run reaches `version` from the empty store, from `version` itself unless
the script picked leads away from it, and from the source of the script picked
if that leads to `version`. -/
theorem applySchema_eq_iff (h : PicksInOrder scripts version) :
    applySchema scripts (some version) store = .ok (some version) ↔
      store = none ∨
        store = some version ∧ (∀ q, Latest scripts version ⟨version, q⟩ → q = version) ∨
          ∃ p, store = some p ∧ Latest scripts version ⟨p, version⟩ := by
  simp only [applySchema, h.schema, Except.ok.injEq, createSchema_eq_iff,
    applyUpgrade_eq_none_iff, applyUpgrade_eq_iff, h.upgrade]

/-! ## Every run -/

/-- The upgrade is at most one script away and that is the script picked, and no
script that leads away from `version` is picked. -/
structure OneScriptAway (scripts : Scripts) (version : Version) (store : Store) : Prop where
  reach : store = none ∨ store = some version ∨
    ∃ p, store = some p ∧ Latest scripts version ⟨p, version⟩
  stay : ∀ q, Latest scripts version ⟨version, q⟩ → q = version

theorem syncs_eq_iff :
    (∀ n, syncs scripts (some version) (n + 1) store = .ok (some version)) ↔
      applySchema scripts (some version) store = .ok (some version) ∧
        applySchema scripts (some version) (some version) = .ok (some version) := by
  have hone (s : Store) : syncs scripts (some version) 1 s = applySchema scripts (some version) s := by
    simp only [syncs]; cases applySchema scripts (some version) s <;> rfl
  constructor
  · intro h
    have h1 : applySchema scripts (some version) store = .ok (some version) := hone _ ▸ h 0
    have h2 := h 1
    rw [syncs, h1] at h2
    exact ⟨h1, hone _ ▸ h2⟩
  · intro h n
    obtain ⟨h1, h2⟩ := h
    -- the store is at `version` after the first run; the rest is by induction on the others
    have hrest : ∀ n, syncs scripts (some version) n (some version) = .ok (some version) := by
      intro n
      induction n with
      | zero => rfl
      | succ n ih => rw [syncs, h2]; exact ih
    rw [syncs, h1]
    exact hrest n

/-- **The Job reaches the server's version, on its first run and on every run
after it, exactly from a store at most one script away.** The one script run is
the last below `version`, wherever the store stands, so a longer chain is never
walked. -/
theorem syncs_reach_version_iff (h : PicksInOrder scripts version) (store : Store) :
    (∀ n, syncs scripts (some version) (n + 1) store = .ok (some version)) ↔
      OneScriptAway scripts version store := by
  rw [syncs_eq_iff, applySchema_eq_iff h, applySchema_eq_iff h]
  constructor
  · intro h
    obtain ⟨h1, h2⟩ := h
    refine ⟨h1.imp_right (Or.imp_left And.left), ?_⟩
    rcases h2 with h2 | h2 | ⟨p, hp, h2⟩
    · cases h2
    · exact h2.2
    · -- the script picked leads from `version` to itself
      cases hp
      exact fun q hq => (Upgrade.mk.inj (latest_unique hq h2)).2
  · intro h
    obtain ⟨hreach, hstay⟩ := h
    exact ⟨hreach.imp_right (Or.imp_left fun h => ⟨h, hstay⟩), .inr (.inl ⟨rfl, hstay⟩)⟩

/-- Two upgrades in a row and the schemas they lead to. -/
def twoUpgrades : Scripts where
  schemas := [⟨1, 0, 0⟩, ⟨1, 1, 0⟩, ⟨1, 2, 0⟩]
  upgrades := [⟨⟨1, 0, 0⟩, ⟨1, 1, 0⟩⟩, ⟨⟨1, 1, 0⟩, ⟨1, 2, 0⟩⟩]

/-- The store one upgrade behind is upgraded, and stays so. -/
theorem last_upgrade_reaches :
    syncs twoUpgrades (some ⟨1, 2, 0⟩) 2 (some ⟨1, 1, 0⟩) = .ok (some ⟨1, 2, 0⟩) :=
  (syncs_reach_version_iff (AwkInOrder.picks (by decide +kernel) (by decide)) _).mpr
    { reach := .inr (.inr ⟨⟨1, 1, 0⟩, rfl, by decide +kernel⟩)
      stay := fun q h => by simpa [twoUpgrades] using h.1.1 } 1

/-- The store two upgrades behind is left where it was: the script picked is the
second one, which fails there, and the first is never run. -/
theorem first_upgrade_skipped :
    Relation.ReflTransGen (fun p q => ⟨p, q⟩ ∈ twoUpgrades.upgrades) ⟨1, 0, 0⟩ ⟨1, 2, 0⟩ ∧
      (⟨1, 2, 0⟩ : Version) ∈ twoUpgrades.schemas ∧ AwkInOrder twoUpgrades ⟨1, 2, 0⟩ ∧
      (⟨1, 0, 0⟩ : Version) ≤ ⟨1, 2, 0⟩ ∧
      applySchema twoUpgrades (some ⟨1, 2, 0⟩) (some ⟨1, 0, 0⟩) = .ok (some ⟨1, 0, 0⟩) := by
  refine ⟨?_, by decide, by decide +kernel, by decide +kernel, ?_⟩
  · exact .tail (.single (by decide)) (show (⟨⟨1, 1, 0⟩, ⟨1, 2, 0⟩⟩ : Upgrade) ∈ _ by decide)
  · have hs : schemaFile twoUpgrades ⟨1, 2, 0⟩ = some ⟨1, 2, 0⟩ := by decide +kernel
    have hu : upgradeFile twoUpgrades ⟨1, 2, 0⟩ = some ⟨⟨1, 1, 0⟩, ⟨1, 2, 0⟩⟩ := by
      decide +kernel
    simp only [applySchema, hs, hu]
    decide

end BigDataPlatform.SchemaInit
