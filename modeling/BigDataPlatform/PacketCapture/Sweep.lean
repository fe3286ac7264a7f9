import BigDataPlatform.PacketCapture.Steady

/-! # What one sweep of the looping uploader ships

A capture that is due when the sweep starts stays on the sweep's list until the
bucket has it, as long as no upload fails and nobody interrupts the script. -/
namespace BigDataPlatform.PacketCapture
open BigDataPlatform.Lib.Pack BigDataPlatform.Lib.FileSystem BigDataPlatform.Lib.Transition
open BigDataPlatform.PcapAnnotate

variable {cfg : Config} {s t : Sys} {u u' : Uploader} {c : Choice} {e : Effect} {l : Label} {x : Nat}
  {E : Nat → Prop}

theorem mem_captureGlob {fs : Fs FileName} : x ∈ captureGlob fs ↔ ∃ i, fs.lookup (.pcap x) = some i := by
  rw [captureGlob, List.mem_insertionSort, List.mem_filterMap, ← Fs.mem_ls]
  constructor
  · intro h
    obtain ⟨n, hn, he⟩ := h
    split at he
    · cases he; exact hn
    · cases he
  · exact fun h => ⟨_, h, rfl⟩

/-- The rest of the sweep reaches capture `x`. -/
def Awaits (todo : List Nat) (x : Nat) : Pc → Prop
  | .glob => True
  | .captures | .removeNg _ | .removePcap _ | .keep _ => x ∈ todo
  | .age y | .annotate y | .convert y _ | .writing y .. | .shipNg y | .failed y | .shipPcap y =>
      x = y ∨ x ∈ todo
  | _ => False

/-- Capture `x` is on disk, old enough for the sweep, and still ahead of it. -/
def Due (s : Sys) (u : Uploader) (x : Nat) : Prop :=
  ∃ i, s.env.fs.lookup (.pcap x) = some i ∧
    (s.env.fs.node i).mtime / second + u.minAge ≤ u.now ∧ Awaits u.todo x u.pc

/-- The sweep owes the captures in `E`: each is in the bucket, or due. -/
structure Sweeping (cfg : Config) (s : Sys) (E : Nat → Prop) : Prop where
  owed : ∀ x, E x → Closed cfg s x ∧ (Shipped cfg s x ∨ Due s (s.up .loop) x)
  there : ∀ y, (s.up .loop).pc = .age y → ∃ i, s.env.fs.lookup (.pcap y) = some i

def Choice.failsUpload : Choice → Bool
  | .uploadFails _ => true
  | _ => false

/-- One command keeps a due capture ahead, unless it has just put it in the bucket. -/
theorem Moves.awaits {i : Nat} (h : Moves cfg s.env u c e u') (hc : c.failsUpload = false)
    (hl : s.env.fs.lookup (.pcap x) = some i)
    (hage : (s.env.fs.node i).mtime / second + u.minAge ≤ u.now) (haw : Awaits u.todo x u.pc)
    (hthere : ∀ y, u.pc = .age y → ∃ j, s.env.fs.lookup (.pcap y) = some j) :
    (Awaits u'.todo x u'.pc ∧ u'.minAge = u.minAge ∧ u'.now = u.now) ∨
      u'.pc = .removeNg x ∨ u'.pc = .removePcap x := by
  have hm : s.env.fs.mtime (.pcap x) = some (s.env.fs.node i).mtime := by simp [Fs.mtime, hl]
  cases h with
  | globs _ => exact Or.inl ⟨mem_captureGlob.mpr ⟨i, hl⟩, rfl, rfl⟩
  | capturesEnd hpc ht => rw [hpc, ht] at haw; exact absurd haw List.not_mem_nil
  | there hpc ht _ =>
    rw [hpc, ht] at haw
    exact Or.inl ⟨List.mem_cons.mp haw, rfl, rfl⟩
  | gone hpc ht hn =>
    rw [hpc, ht] at haw
    rcases List.mem_cons.mp haw with rfl | hmem
    · rw [hl] at hn; cases hn
    · exact Or.inl ⟨by rw [hpc]; exact hmem, rfl, rfl⟩
  | @lost y hpc hm' =>
    obtain ⟨j, hj⟩ := hthere y hpc
    simp [Fs.mtime, hj] at hm'
  | old hpc _ _ => rw [hpc] at haw; exact Or.inl ⟨haw, rfl, rfl⟩
  | kept hpc hm' hyoung _ =>
    rw [hpc] at haw
    rcases haw with rfl | hmem
    · rw [hm] at hm'; cases hm'; exact absurd hage hyoung
    · exact Or.inl ⟨hmem, rfl, rfl⟩
  | young hpc hm' hyoung _ =>
    rw [hpc] at haw
    rcases haw with rfl | hmem
    · rw [hm] at hm'; cases hm'; exact absurd hage hyoung
    · exact Or.inl ⟨hmem, rfl, rfl⟩
  | reads hpc _ => rw [hpc] at haw; exact Or.inl ⟨haw, rfl, rfl⟩
  | fails hpc =>
    generalize u.pc = pc at haw hpc
    cases hpc <;> exact Or.inl ⟨haw, rfl, rfl⟩
  | opens hpc _ => rw [hpc] at haw; exact Or.inl ⟨haw, rfl, rfl⟩
  | refuses hpc _ => rw [hpc] at haw; exact Or.inl ⟨haw, rfl, rfl⟩
  | writes hpc _ => rw [hpc] at haw; exact Or.inl ⟨haw, rfl, rfl⟩
  | renames hpc _ _ => rw [hpc] at haw; exact Or.inl ⟨haw, rfl, rfl⟩
  | renameFails hpc _ _ => rw [hpc] at haw; exact Or.inl ⟨haw, rfl, rfl⟩
  | copied hpc _ =>
    generalize u.pc = pc at haw hpc
    cases hpc with
    | ng y => exact haw.elim (fun hx => Or.inr (Or.inl (by rw [hx]; rfl))) fun h => Or.inl ⟨h, rfl, rfl⟩
    | pcap y => exact haw.elim (fun hx => Or.inr (Or.inr (by rw [hx]; rfl))) fun h => Or.inl ⟨h, rfl, rfl⟩
    | keep y => exact Or.inl ⟨haw, rfl, rfl⟩
    | snapshot f => exact haw.elim
  | copyFails _ => cases hc
  | removes hpc =>
    generalize u.pc = pc at haw hpc
    cases hpc with
    | snapshot f => exact haw.elim
    | _ => exact Or.inl ⟨haw, rfl, rfl⟩
  | _ hpc => rw [hpc] at haw; exact haw.elim

theorem Moves.there_of_age {y : Nat} (h : Moves cfg s.env u c e u') (hy : u'.pc = .age y) :
    (e = .none ∧ ∃ i, s.env.fs.lookup (.pcap y) = some i) := by
  cases h with
  | there hpc ht hl =>
    cases hy
    exact ⟨rfl, Option.isSome_iff_exists.mp hl⟩
  | gone hpc _ _ => rw [hpc] at hy; cases hy
  | snapshotGone hpc _ => rw [hpc] at hy; cases hy
  | copied hpc _ =>
    generalize u.pc = pc at hpc
    cases hpc <;> cases hy
  | copyFails hpc =>
    generalize u.pc = pc at hpc
    cases hpc <;> cases hy
  | removes hpc =>
    generalize u.pc = pc at hpc
    cases hpc <;> cases hy
  | below _ _ => unfold Uploader.finish at hy; split at hy <;> cases hy
  | caps _ _ _ => unfold Uploader.finish at hy; split at hy <;> cases hy
  | _ => cases hy

def Label.interrupts : Label → Bool
  | .run _ c => c.failsUpload
  | .kill => true
  | _ => false

/-- Steps of the others, and commands of the loop whose uploads succeed. -/
def Undisturbed (s : Sys) (l : Label) (t : Sys) : Prop :=
  (∀ w c, l ≠ .run w c) ∧ t.up .loop = s.up .loop ∨ ∃ c, l = .run .loop c ∧ c.failsUpload = false

/-- **What the sweep owes, it goes on owing until it is in the bucket.** -/
theorem sweeping_step (hi : Inv cfg s) (hok : Gentle s l) (h : step cfg l s = some t)
    (hs : Sweeping cfg s E) (hup : Undisturbed s l t) : Sweeping cfg t E := by
  obtain ⟨hi', hev⟩ := inv_step hi hok h
  constructor
  · intro x hx
    obtain ⟨hcl, hship | ⟨i, hl, hage, haw⟩⟩ := hs.owed x hx
    · exact ⟨(hev.closed x hcl).1, Or.inl (hev.shipped x hcl hship)⟩
    refine ⟨(hev.closed x hcl).1, ?_⟩
    cases hl' : t.env.fs.lookup (.pcap x) with
    | none =>
      left
      obtain ⟨w, c, ns, u, rfl, hm, hmem⟩ := step_unlinks hi h hl hl'
      rcases hup with ⟨hno, _⟩ | ⟨c', hc', _⟩
      · exact (hno w c rfl).elim
      cases hc'
      rcases hm.removed (hi.up .loop) hmem with hship | rfl
      · exact hev.shipped x hship.1 hship.2
      · -- the cap comes after the last capture
        cases hm with
        | caps hpc _ _ => rw [hpc] at haw; exact haw.elim
    | some j =>
      obtain ⟨rfl, hnode⟩ := step_pcap hi h hcl hl hl'
      rcases hup with ⟨_, hsame⟩ | ⟨c, rfl, hc⟩
      · rw [hsame]
        exact Or.inr ⟨j, hl', hnode ▸ hage, haw⟩
      cases step_acts h with
      | @moves _ _ e u' hm =>
        have hhere := (hi'.up .loop).here
        simp only [Function.update_self] at hhere ⊢
        rcases hm.awaits hc hl hage haw hs.there with ⟨haw', hmin, hnow⟩ | hpc | hpc
        · exact Or.inr ⟨j, hl', by rw [hnode, hmin, hnow]; exact hage, haw'⟩
        · rw [hpc] at hhere; exact Or.inl hhere.2
        · rw [hpc] at hhere; exact Or.inl hhere.2
  · intro y hy
    rcases hup with ⟨hno, hsame⟩ | ⟨c, rfl, _⟩
    · obtain ⟨i, hl⟩ := hs.there y (hsame ▸ hy)
      cases hl' : t.env.fs.lookup (.pcap y) with
      | some j => exact ⟨j, rfl⟩
      | none =>
        obtain ⟨w, c, _, _, rfl, _⟩ := step_unlinks hi h hl hl'
        exact (hno w c rfl).elim
    cases step_acts h with
    | moves hm =>
      simp only [Function.update_self] at hy
      obtain ⟨rfl, hl⟩ := hm.there_of_age hy
      exact hl

/-- A sweep starts by owing every capture on disk that is old enough for it. -/
theorem sweeping_start (hpc : (t.up .loop).pc = .glob)
    (hE : ∀ x, E x → Closed cfg t x ∧ (Shipped cfg t x ∨ ∃ i, t.env.fs.lookup (.pcap x) = some i ∧
      (t.env.fs.node i).mtime / second + (t.up .loop).minAge ≤ (t.up .loop).now)) :
    Sweeping cfg t E := by
  refine ⟨fun x hx => ⟨(hE x hx).1, (hE x hx).2.imp_right ?_⟩, fun y hy => ?_⟩
  · intro h
    obtain ⟨i, hl, hage⟩ := h
    exact ⟨i, hl, hage, by rw [hpc]; trivial⟩
  · rw [hpc] at hy; cases hy

theorem Sweeping.shipped (hs : Sweeping cfg s E) (hpc : ¬ InSweep (s.up .loop).pc) (hx : E x) :
    Shipped cfg s x := by
  refine (hs.owed x hx).2.resolve_right ?_
  intro h
  obtain ⟨_, _, _, haw⟩ := h
  generalize (s.up .loop).pc = pc at hpc haw
  cases pc <;> first | exact haw | exact hpc trivial

/-- upload.sh's commands from a file that is old enough to the next one. -/
def shipping : List Choice :=
  [.ok, .ok, .names fun _ => none, .ok, .chunk 240, .ok, .ok, .ok, .ok]

def finishing : List Choice := [.ok, .ok, .ok, .ok]

end BigDataPlatform.PacketCapture
