import Mathlib.Logic.Function.Basic

/-! # Dictionaries written pair by pair

A dictionary is a function to `Option`. After a list of writes every key holds
the value of the last write to it, or what it held before. -/
namespace BigDataPlatform.Lib.LastWrite

variable {K V : Type} [DecidableEq K] {d : K → Option V} {ws : List (K × V)} {k : K}

def write (d : K → Option V) (w : K × V) : K → Option V := Function.update d w.1 (some w.2)

def writes (d : K → Option V) (ws : List (K × V)) : K → Option V := ws.foldl write d

/-- The value of the last pair with key `k`. -/
def lastWrite (ws : List (K × V)) (k : K) : Option V :=
  (ws.reverse.find? fun w => w.1 = k).map Prod.snd

theorem lastWrite_append (ws ws' : List (K × V)) :
    lastWrite (ws ++ ws') k = (lastWrite ws' k).or (lastWrite ws k) := by
  simp only [lastWrite, List.reverse_append, List.find?_append]
  cases ws'.reverse.find? fun w => w.1 = k <;> rfl

theorem lastWrite_singleton (w : K × V) :
    lastWrite [w] k = if w.1 = k then some w.2 else none := by
  by_cases h : w.1 = k <;> simp [lastWrite, h]

theorem mem_of_lastWrite {ws : List (K × V)} {v : V} (h : lastWrite ws k = some v) :
    (k, v) ∈ ws := by
  obtain ⟨w, hw, rfl⟩ := Option.map_eq_some_iff.mp h
  have hk : w.1 = k := by simpa using List.find?_some hw
  rw [← hk]
  exact List.mem_reverse.mp (List.mem_of_find?_eq_some hw)

/-- **Last write wins.** -/
theorem writes_apply (d : K → Option V) (ws : List (K × V)) (k : K) :
    writes d ws k = (lastWrite ws k).or (d k) := by
  induction ws generalizing d with
  | nil => rfl
  | cons w ws ih =>
    have hw : write d w k = (lastWrite [w] k).or (d k) := by
      rw [lastWrite_singleton, write, Function.update_apply]
      by_cases h : w.1 = k
      · rw [if_pos h.symm, if_pos h]; rfl
      · rw [if_neg (Ne.symm h), if_neg h]; rfl
    calc writes d (w :: ws) k = (lastWrite ws k).or (write d w k) := ih _
      _ = ((lastWrite ws k).or (lastWrite [w] k)).or (d k) := by rw [hw, Option.or_assoc]
      _ = (lastWrite (w :: ws) k).or (d k) := by rw [← lastWrite_append]; rfl

theorem writes_append (ws ws' : List (K × V)) :
    writes d (ws ++ ws') = writes (writes d ws) ws' := List.foldl_append

end BigDataPlatform.Lib.LastWrite
