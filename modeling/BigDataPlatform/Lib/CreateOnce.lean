import BigDataPlatform.Lib.Transition

/-! # Creating what is not there yet

A store of named things in which a name, once taken, keeps the value that it
was first given. A system that changes its store only by creating gives every
observer the same value of a name for ever. -/
namespace BigDataPlatform.Lib.CreateOnce
open Transition

variable {K V : Type} {store later last : K → Option V} {k : K}

/-- What was there is there still, as it was. -/
def Keeps (store later : K → Option V) : Prop := ∀ k v, store k = some v → later k = some v

theorem Keeps.refl (store : K → Option V) : Keeps store store := fun _ _ h => h

theorem Keeps.trans (h : Keeps store later) (h' : Keeps later last) : Keeps store last :=
  fun k v hk => h' k v (h k v hk)

theorem Keeps.isSome (h : Keeps store later) (hk : (store k).isSome) : (later k).isSome := by
  obtain ⟨v, hv⟩ := Option.isSome_iff_exists.mp hk
  rw [h k v hv]
  rfl

/-! ## Systems that create -/

variable {S L : Type} {step : L → S → Option S} {ok : S → L → Prop} {view : S → K → Option V} {s t : S}

/-- **The first value stays**, in every run whose steps keep the store. -/
theorem reaches_keeps (hstep : ∀ {s l t}, ok s l → step l s = some t → Keeps (view s) (view t))
    (h : Reaches step ok s t) : Keeps (view s) (view t) :=
  h.invariant (fun t => Keeps (view s) (view t)) (.refl _) fun hk hok hs => hk.trans (hstep hok hs)

end BigDataPlatform.Lib.CreateOnce
