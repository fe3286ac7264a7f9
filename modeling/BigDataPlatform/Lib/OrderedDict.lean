import BigDataPlatform.Lib.LastWrite
import Mathlib.Data.List.Nodup

/-! # Dictionaries in insertion order

Items with no key twice. To set a key that is there keeps its place, and a new
one goes to the end, so a dictionary is what its own items build. -/
namespace BigDataPlatform.Lib.OrderedDict
open LastWrite

variable {K V : Type} [DecidableEq K] {ws : List (K × V)} {k : K} {v : V}

def assign (k : K) (v : V) : List (K × V) → List (K × V)
  | [] => [(k, v)]
  | w :: ws => if w.1 = k then (k, v) :: ws else w :: assign k v ws

theorem keys_assign (k : K) (v : V) (ws : List (K × V)) :
    (assign k v ws).map Prod.fst =
      if k ∈ ws.map Prod.fst then ws.map Prod.fst else ws.map Prod.fst ++ [k] := by
  induction ws with
  | nil => rfl
  | cons w ws ih =>
    rw [assign]
    by_cases hw : w.1 = k
    · simp [hw]
    · rw [if_neg hw, List.map_cons, ih, List.map_cons]
      by_cases hk : k ∈ ws.map Prod.fst
      · rw [if_pos hk, if_pos (List.mem_cons_of_mem w.1 hk)]
      · rw [if_neg hk, if_neg fun h => (List.mem_cons.mp h).elim (Ne.symm hw) hk]
        rfl

theorem assign_new (h : k ∉ ws.map Prod.fst) : assign k v ws = ws ++ [(k, v)] := by
  induction ws with
  | nil => rfl
  | cons w ws ih =>
    rw [List.map_cons, List.mem_cons, not_or] at h
    rw [assign, if_neg (Ne.symm h.1), ih h.2, List.cons_append]

@[ext] structure Dict (K V : Type) where
  items : List (K × V)
  nodup : (items.map Prod.fst).Nodup

namespace Dict

variable {d : Dict K V}

def empty : Dict K V := ⟨[], List.nodup_nil⟩

def get (d : Dict K V) (k : K) : Option V := (d.items.find? (·.1 = k)).map Prod.snd

/-- `d[k] = v`. -/
def set (d : Dict K V) (k : K) (v : V) : Dict K V where
  items := assign k v d.items
  nodup := by
    rw [keys_assign]
    split
    · exact d.nodup
    · next h => exact List.nodup_append.mpr ⟨d.nodup, List.nodup_singleton k, fun a ha b hb => by
        rw [List.mem_singleton.mp hb]
        exact fun he => h (he ▸ ha)⟩

/-- `d.update(ws)`. -/
def update (d : Dict K V) (ws : List (K × V)) : Dict K V := ws.foldl (fun d w => d.set w.1 w.2) d

theorem get_set (d : Dict K V) (k : K) (v : V) : (d.set k v).get = write d.get (k, v) := by
  funext k'
  have hitems : ∀ ws : List (K × V), ((assign k v ws).find? (·.1 = k')).map Prod.snd =
      if k' = k then some v else (ws.find? (·.1 = k')).map Prod.snd := by
    intro ws
    induction ws with
    | nil => by_cases h : k' = k <;> simp [assign, h, eq_comm]
    | cons w ws ih =>
      rw [assign]
      by_cases hw : w.1 = k
      · by_cases h : k' = k
        · simp [hw, h]
        · simp [hw, h, Ne.symm h]
      · rw [if_neg hw]
        by_cases hk : w.1 = k'
        · have hne : k' ≠ k := fun h => hw (hk.trans h)
          simp [hk, hne]
        · simpa [hk] using ih
  rw [write, Function.update_apply]
  exact hitems d.items

theorem get_update (d : Dict K V) (ws : List (K × V)) : (d.update ws).get = writes d.get ws := by
  induction ws generalizing d with
  | nil => rfl
  | cons w ws ih => exact (ih (d.set w.1 w.2)).trans (congrArg (writes · ws) (get_set d w.1 w.2))

theorem items_update (hnew : ∀ w ∈ ws, w.1 ∉ d.items.map Prod.fst) (hws : (ws.map Prod.fst).Nodup) :
    (d.update ws).items = d.items ++ ws := by
  induction ws generalizing d with
  | nil => exact (List.append_nil _).symm
  | cons w ws ih =>
    rw [List.map_cons, List.nodup_cons] at hws
    have hset : (d.set w.1 w.2).items = d.items ++ [w] := assign_new (hnew w List.mem_cons_self)
    have hrest : ∀ w' ∈ ws, w'.1 ∉ (d.set w.1 w.2).items.map Prod.fst := by
      intro w' hw'
      rw [hset, List.map_append, List.mem_append, not_or]
      refine ⟨hnew w' (List.mem_cons_of_mem w hw'), fun h => hws.1 ?_⟩
      rw [← (List.mem_singleton.mp h : w'.1 = w.1)]
      exact List.mem_map_of_mem hw'
    have hind : ((d.set w.1 w.2).update ws).items = (d.set w.1 w.2).items ++ ws := ih hrest hws.2
    rw [hset, List.append_assoc] at hind
    exact hind

/-- **A dictionary is what its items build.** -/
theorem update_items (d : Dict K V) : empty.update d.items = d :=
  Dict.ext (items_update (fun _ _ => List.not_mem_nil) d.nodup)

theorem lastWrite_items (d : Dict K V) (k : K) : lastWrite d.items k = d.get k := by
  have hget : d.get = writes (empty : Dict K V).get d.items := by
    rw [← get_update, update_items]
  rw [hget, writes_apply]
  exact (Option.or_none).symm

/-- The second dictionary's items win. -/
theorem get_update_items (d d' : Dict K V) (k : K) : (d.update d'.items).get k = (d'.get k).or (d.get k) := by
  rw [get_update, writes_apply, lastWrite_items]

end Dict
end BigDataPlatform.Lib.OrderedDict
