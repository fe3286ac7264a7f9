import Mathlib.Data.List.Basic

/-! # Reading a stream of frames

A reader takes one frame off the front of a list, or refuses. `walk` repeats
it until it refuses and returns the frames with the tail it stopped at; `readAll`
accepts only when nothing is left. The laws are stated for any reader that
consumes something, against any writer it inverts. -/
namespace BigDataPlatform.Lib.Framing

variable {α β : Type}

abbrev Reader (α β : Type) := List β → Option (α × List β)

/-- Every frame read is non-empty. -/
def Consumes (p : Reader α β) : Prop :=
  ∀ bs a rest, p bs = some (a, rest) → rest.length < bs.length

/-- What the reader takes off is exactly what the writer put on. -/
def Exact (p : Reader α β) (write : α → List β) : Prop :=
  ∀ bs a rest, p bs = some (a, rest) → bs = write a ++ rest

def walkFuel (p : Reader α β) : Nat → List β → List α × List β
  | 0, bs => ([], bs)
  | n + 1, bs => match p bs with
    | none => ([], bs)
    | some (a, rest) => (a :: (walkFuel p n rest).1, (walkFuel p n rest).2)

/-- All frames from the front, and the tail at which the reader refused. -/
def walk (p : Reader α β) (bs : List β) : List α × List β := walkFuel p bs.length bs

/-- The frames of a list that splits into frames with nothing left. -/
def readAll (p : Reader α β) (bs : List β) : Option (List α) :=
  if (walk p bs).2.isEmpty then some (walk p bs).1 else none

/-- Fuel beyond the length changes nothing. -/
theorem walkFuel_eq {p : Reader α β} (hc : Consumes p) :
    ∀ (n : Nat) (bs : List β), bs.length ≤ n → walkFuel p n bs = walk p bs := by
  intro n
  induction n using Nat.strongRecOn with
  | _ n ih =>
    intro bs hn
    unfold walk
    cases n with
    | zero => rw [Nat.le_zero.mp hn]
    | succ n =>
      cases hl : bs.length with
      | zero =>
        have : bs = [] := List.length_eq_zero_iff.mp hl
        subst this
        cases hp : p [] with
        | none => simp [walkFuel, hp]
        | some r => exact absurd (hc _ _ _ hp) (by simp)
      | succ m =>
        cases hp : p bs with
        | none => simp [walkFuel, hp]
        | some r =>
          obtain ⟨a, rest⟩ := r
          have hr := hc _ _ _ hp
          simp only [walkFuel, hp]
          rw [ih n (by omega) rest (by omega), ih m (by omega) rest (by omega)]

theorem walk_none {p : Reader α β} {bs : List β} (h : p bs = none) : walk p bs = ([], bs) := by
  unfold walk
  cases bs with
  | nil => rfl
  | cons b bs => simp [walkFuel, h]

theorem walk_some {p : Reader α β} (hc : Consumes p) {bs rest : List β} {a : α}
    (h : p bs = some (a, rest)) : walk p bs = (a :: (walk p rest).1, (walk p rest).2) := by
  have hr := hc _ _ _ h
  unfold walk
  cases hl : bs.length with
  | zero => omega
  | succ n =>
    simp only [walkFuel, h]
    rw [walkFuel_eq hc n rest (by omega)]
    rfl

theorem walk_length_le {p : Reader α β} (hc : Consumes p) (bs : List β) :
    (walk p bs).2.length ≤ bs.length := by
  induction hn : bs.length using Nat.strongRecOn generalizing bs with
  | _ n ih =>
    cases hp : p bs with
    | none => rw [walk_none hp]; exact Nat.le_of_eq hn
    | some r =>
      obtain ⟨a, rest⟩ := r
      have hr := hc _ _ _ hp
      have hrest := ih rest.length (by omega) rest rfl
      rw [walk_some hc hp]
      show (walk p rest).2.length ≤ n
      omega

/-- **Reading what was written.** Frames written one after another, then a tail
the reader refuses, are read back in order with that tail left. -/
theorem walk_flatMap {p : Reader α β} (hc : Consumes p) (write : α → List β) {tail : List β}
    (ht : p tail = none) : ∀ as : List α,
      (∀ a ∈ as, ∀ rest, p (write a ++ rest) = some (a, rest)) →
      walk p (as.flatMap write ++ tail) = (as, tail)
  | [], _ => by simpa using walk_none ht
  | a :: as, h => by
    rw [List.flatMap_cons, List.append_assoc, walk_some hc (h a (by simp) _),
      walk_flatMap hc write ht as (fun b hb => h b (by simp [hb]))]

theorem readAll_flatMap {p : Reader α β} (hc : Consumes p) (write : α → List β) (as : List α)
    (h : ∀ a ∈ as, ∀ rest, p (write a ++ rest) = some (a, rest)) :
    readAll p (as.flatMap write) = some as := by
  have hnil : p [] = none := by
    cases hp : p [] with
    | none => rfl
    | some r => exact absurd (hc _ _ _ hp) (by simp)
  have := walk_flatMap hc write hnil as h
  rw [List.append_nil] at this
  simp [readAll, this]

/-- **Nothing is invented or dropped.** The list is the frames read, written
back, then the tail, and the reader refuses that tail. -/
theorem walk_exact {p : Reader α β} {write : α → List β} (hc : Consumes p) (he : Exact p write)
    (bs : List β) : bs = (walk p bs).1.flatMap write ++ (walk p bs).2 ∧ p (walk p bs).2 = none := by
  induction hn : bs.length using Nat.strongRecOn generalizing bs with
  | _ n ih =>
    cases hp : p bs with
    | none => rw [walk_none hp]; exact ⟨rfl, hp⟩
    | some r =>
      obtain ⟨a, rest⟩ := r
      have hr := hc _ _ _ hp
      obtain ⟨hsplit, hstop⟩ := ih rest.length (by omega) rest rfl
      rw [walk_some hc hp]
      refine ⟨?_, hstop⟩
      rw [List.flatMap_cons, List.append_assoc, ← hsplit]
      exact he _ _ _ hp

/-- What follows a frame does not change how it is read. -/
def Local (p : Reader α β) : Prop :=
  ∀ bs a rest more, p bs = some (a, rest) → p (bs ++ more) = some (a, rest ++ more)

/-- **Reading goes on where it stopped.** The frames of a list that grew are the
frames it had, then those of its old tail and what was added. -/
theorem walk_append {p : Reader α β} (hc : Consumes p) (hl : Local p) (bs more : List β) :
    walk p (bs ++ more) =
      ((walk p bs).1 ++ (walk p ((walk p bs).2 ++ more)).1, (walk p ((walk p bs).2 ++ more)).2) := by
  induction hn : bs.length using Nat.strongRecOn generalizing bs with
  | _ n ih =>
    cases hp : p bs with
    | none => rw [walk_none hp]; rfl
    | some r =>
      obtain ⟨a, rest⟩ := r
      have hr := hc _ _ _ hp
      rw [walk_some hc (hl _ _ _ more hp), walk_some hc hp, ih rest.length (by omega) rest rfl]
      rfl

end BigDataPlatform.Lib.Framing
