import Mathlib.Logic.Relation

/-! # Runs of a labelled system

A system is a step function: a label and a state give the next state, or the
label is not enabled there. `Reaches` ranges over every order of steps that
each meet a condition `ok` on the state before them; `exec` replays one list
of labels. -/
namespace BigDataPlatform.Lib.Transition

variable {S L : Type} {step : L → S → Option S} {ok ok' : S → L → Prop}

/-- One enabled step whose state and label meet `ok`. -/
def Next (step : L → S → Option S) (ok : S → L → Prop) (s t : S) : Prop :=
  ∃ l, ok s l ∧ step l s = some t

abbrev Reaches (step : L → S → Option S) (ok : S → L → Prop) : S → S → Prop :=
  Relation.ReflTransGen (Next step ok)

/-- Any label, in any state. -/
def anyStep : S → L → Prop := fun _ _ => True

/-- **The invariant rule.** What holds at the start and is kept by every
admitted step holds in every state reached. -/
theorem Reaches.invariant (Inv : S → Prop) {s t : S} (h : Reaches step ok s t) (h0 : Inv s)
    (hstep : ∀ {s l t}, Inv s → ok s l → step l s = some t → Inv t) : Inv t := by
  induction h with
  | refl => exact h0
  | tail _ hn ih =>
    obtain ⟨l, hok, hs⟩ := hn
    exact hstep ih hok hs

/-- An invariant that gives every step a further condition. -/
theorem Reaches.strengthen {Inv : S → Prop} (ok' : S → L → Prop) {s t : S}
    (h : Reaches step ok s t) (h0 : Inv s)
    (hstep : ∀ {s l t}, Inv s → ok s l → step l s = some t → Inv t ∧ ok' s l) :
    Reaches step ok' s t ∧ Inv t := by
  induction h with
  | refl => exact ⟨.refl, h0⟩
  | tail _ hn ih =>
    obtain ⟨l, hok, hs⟩ := hn
    obtain ⟨hr, hi⟩ := ih
    obtain ⟨hi', hok'⟩ := hstep hi hok hs
    exact ⟨hr.tail ⟨l, hok', hs⟩, hi'⟩

theorem Reaches.weaken {s t : S} (h : Reaches step ok s t) (hw : ∀ s l, ok s l → ok' s l) :
    Reaches step ok' s t :=
  Relation.ReflTransGen.mono (r := Next step ok)
    (fun _ _ ⟨l, hok, hs⟩ => ⟨l, hw _ _ hok, hs⟩) s t h

/-- Replay a list of labels. -/
def exec (step : L → S → Option S) : List L → S → Option S
  | [], s => some s
  | l :: ls, s => (step l s).bind (exec step ls)

/-- Every step of the replay meets the condition. -/
def Along (step : L → S → Option S) (ok : S → L → Prop) : List L → S → Prop
  | [], _ => True
  | l :: ls, s => ok s l ∧ ∀ t, step l s = some t → Along step ok ls t

theorem exec_reaches (step : L → S → Option S) (ok : S → L → Prop) : ∀ {ls : List L} {s t : S},
    Along step ok ls s → exec step ls s = some t → Reaches step ok s t
  | [], _, _, _, h => by cases h; exact .refl
  | l :: ls, s, t, ha, h => by
    obtain ⟨u, hu, ht⟩ := Option.bind_eq_some_iff.mp h
    exact .head ⟨l, ha.1, hu⟩ (exec_reaches step ok (ha.2 u hu) ht)

/-- **The history rule.** What holds of no labels at the start, and after every
step of the labels with that step's added, holds of a replay and all its labels. -/
theorem exec_history (P : List L → S → Prop) {s₀ t : S} {ls : List L}
    (h : exec step ls s₀ = some t) (h0 : P [] s₀)
    (hstep : ∀ {ls s l t}, P ls s → step l s = some t → P (ls ++ [l]) t) : P ls t := by
  have go : ∀ (ls done : List L) (s : S), P done s → exec step ls s = some t → P (done ++ ls) t := by
    intro ls
    induction ls with
    | nil =>
      intro done s hs h
      cases h
      rwa [List.append_nil]
    | cons l ls ih =>
      intro done s hs h
      obtain ⟨u, hu, ht⟩ := Option.bind_eq_some_iff.mp h
      rw [List.append_cons]
      exact ih _ u (hstep hs hu) ht
  exact go ls [] s₀ h0 h

/-- A condition that these labels meet in any state. -/
theorem along_of_forall {ls : List L} (s : S) (h : ∀ l ∈ ls, ∀ s, ok s l) : Along step ok ls s := by
  induction ls generalizing s with
  | nil => trivial
  | cons l ls ih =>
    obtain ⟨hl, hls⟩ := List.forall_mem_cons.mp h
    exact ⟨hl s, fun t _ => ih t hls⟩

theorem along_anyStep (ls : List L) (s : S) : Along step anyStep ls s :=
  along_of_forall s fun _ _ _ => trivial

instance [∀ s l, Decidable (ok s l)] : ∀ (ls : List L) (s : S), Decidable (Along step ok ls s)
  | [], _ => .isTrue trivial
  | l :: ls, s => match h : step l s with
    | none => decidable_of_iff (ok s l) (by simp [Along, h])
    | some t =>
      have : Decidable (Along step ok ls t) := instDecidableAlong ls t
      decidable_of_iff (ok s l ∧ Along step ok ls t) (by simp [Along, h])

end BigDataPlatform.Lib.Transition
