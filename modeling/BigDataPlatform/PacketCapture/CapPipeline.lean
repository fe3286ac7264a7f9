import BigDataPlatform.PacketCapture.DiskBound

/-! # The cap's pipeline

`ls -1tr "$OUT"/* | head -n $(( n - MAX_FILES )) | xargs -r rm -f`, which is one
step of `System`, taken apart: ls has read the times when rm removes one file
after the other, and a file that was listed may have been written in between. -/
namespace BigDataPlatform.PacketCapture
open BigDataPlatform.Lib.Pack BigDataPlatform.Lib.FileSystem BigDataPlatform.Lib.Transition
open BigDataPlatform.PcapAnnotate

/-- What the loop's `ls` and `head` have passed on. -/
structure Pipe where
  /-- /captures as ls has seen it. -/
  listed : Fs FileName
  victims : List FileName
  /-- Those that rm has still to remove. -/
  todo : List FileName

structure Piping where
  sys : Sys
  pipe : Option Pipe

inductive PipeLabel where
  | sys (l : Label)
  | lists (victims : List FileName)
  | removes
  | ends

/-- The shell of the loop waits for its pipeline, and so does its trap. -/
def Label.waits : Label → Bool
  | .run .loop _ | .trapUpload => true
  | _ => false

def Label.kills : Label → Bool
  | .kill => true
  | _ => false

def Label.capsLoop : Label → Bool
  | .run .loop (.cap _) => true
  | _ => false

/-- A container that is killed takes its pipeline with it. -/
def pipingStep (cfg : Config) : PipeLabel → Piping → Option Piping
  | .sys l, p =>
    if l.capsLoop || p.pipe.isSome && l.waits then none
    else (step cfg l p.sys).map fun sys => ⟨sys, if l.kills then none else p.pipe⟩
  | .lists victims, ⟨s, none⟩ => match (s.up .loop).pc with
    | .cap n =>
      if cfg.maxFiles < n ∧ IsOldest s.env.fs (n - cfg.maxFiles) victims then
        some ⟨s, some ⟨s.env.fs, victims, victims⟩⟩
      else none
    | _ => none
  | .removes, ⟨s, some ⟨listed, victims, v :: todo⟩⟩ =>
    some ⟨{ s with env := s.env.apply (.unlink [v]) }, some ⟨listed, victims, todo⟩⟩
  | .ends, ⟨s, some ⟨_, _, []⟩⟩ =>
    some ⟨{ s with up := Function.update s.up .loop (s.up .loop).finish }, none⟩
  | _, _ => none

def Piping.begin (cfg : Config) (clock : Nat) : Piping := ⟨init cfg clock, none⟩

variable {cfg : Config} {s t : Sys} {l : Label} {p q : Piping} {victims : List FileName} {n : Nat}

/-! ## The step of `System` -/

def pipeline (victims : List FileName) : List PipeLabel :=
  .lists victims :: (victims.map (fun _ => .removes) ++ [.ends])

theorem removes_all (s : Sys) (listed : Fs FileName) (victims todo : List FileName) (rest : List PipeLabel) :
    exec (pipingStep cfg) (todo.map (fun _ => .removes) ++ rest) ⟨s, some ⟨listed, victims, todo⟩⟩ =
      exec (pipingStep cfg) rest
        ⟨{ s with env := s.env.apply (.unlink todo) }, some ⟨listed, victims, []⟩⟩ := by
  induction todo generalizing s with
  | nil => rfl
  | cons v todo ih => exact ih { s with env := s.env.apply (.unlink [v]) }

/-- Where nothing comes in between. -/
theorem cap_pipes (h : step cfg (.run .loop (.cap victims)) s = some t) :
    exec (pipingStep cfg) (pipeline victims) ⟨s, none⟩ = some ⟨t, none⟩ := by
  cases step_acts h with
  | moves hm =>
    cases hm with
    | caps hpc hn hold =>
      have hlists : pipingStep cfg (.lists victims) ⟨s, none⟩ =
          some ⟨s, some ⟨s.env.fs, victims, victims⟩⟩ := by
        rw [pipingStep, hpc]
        exact if_pos ⟨hn, hold⟩
      rw [pipeline, exec, hlists, Option.bind_some, removes_all]
      rfl

/-- **Every run of the shipper is one with pipelines.** -/
theorem piping_reaches {clock : Nat} (h : Reaches (step cfg) anyStep (init cfg clock) s) :
    Reaches (pipingStep cfg) anyStep (.begin cfg clock) ⟨s, none⟩ := by
  induction h with
  | refl => exact .refl
  | tail _ hn ih =>
    obtain ⟨l, -, hs⟩ := hn
    refine ih.trans ?_
    by_cases hl : l.capsLoop = true
    · obtain ⟨victims, rfl⟩ : ∃ victims, l = .run .loop (.cap victims) := by
        unfold Label.capsLoop at hl
        split at hl
        · exact ⟨_, rfl⟩
        · cases hl
      exact exec_reaches _ _ (along_anyStep _ _) (cap_pipes hs)
    · refine .single ⟨.sys l, trivial, ?_⟩
      rw [pipingStep, if_neg (by simpa using hl), hs, Option.map_some]
      simp

/-! ## What the loop alone removes -/

/-- Only an uploader removes files. -/
theorem step_keeps (h : step cfg l s = some t) (hl : ∀ w c, l ≠ .run w c) :
    s.env.fs.ls ⊆ t.env.fs.ls := by
  have htruncate : ∀ (n : FileName), s.env.fs.ls ⊆ (s.env.fs.truncate n s.env.clock).ls := by
    intro n m hm
    obtain ⟨i, hi⟩ := Fs.mem_ls.mp hm
    rw [Fs.mem_ls, Fs.lookup_truncate]
    split
    · exact ⟨_, rfl⟩
    · exact ⟨i, hi⟩
  cases step_acts h with
  | moves _ => exact absurd rfl (hl _ _)
  | rotates r _ => exact htruncate (.pcap (s.td.current + 1))
  | publish f b => exact htruncate (.snapshot f)
  | appends r _ _ => exact fun _ hm => hm
  | _ => exact fun _ hm => hm

/-- What ls has seen is there but for its victims, and enough of it. -/
structure Pipe.Sound (cfg : Config) (fs : Fs FileName) (c : Pipe) : Prop where
  oldest : ∃ k, IsOldest c.listed k c.victims
  todo : c.todo ⊆ c.victims
  spared : ∀ m ∈ c.listed.ls, m ∉ c.victims → m ∈ fs.ls
  enough : cfg.maxFiles + c.todo.length ≤ fs.ls.length

/-- The victims are as many as there are too many of what was counted. -/
theorem Pipe.Sound.lists {fs : Fs FileName} (hold : IsOldest fs (n - cfg.maxFiles) victims)
    (hn : cfg.maxFiles < n) (hcounted : n ≤ fs.ls.length) :
    Pipe.Sound cfg fs ⟨fs, victims, victims⟩ where
  oldest := ⟨_, hold⟩
  todo := fun _ hm => hm
  spared m hm _ := hm
  enough := by
    obtain ⟨-, hlen, -⟩ := hold
    show cfg.maxFiles + victims.length ≤ fs.ls.length
    omega

theorem Pipe.Sound.keeps {c : Pipe} {fs fs' : Fs FileName} (hc : c.Sound cfg fs) (h : fs.ls ⊆ fs'.ls) :
    c.Sound cfg fs' where
  oldest := hc.oldest
  todo := hc.todo
  spared m hm hv := h (hc.spared m hm hv)
  enough := hc.enough.trans (List.subperm_of_subset (AList.keys_nodup fs.dir) h).length_le

theorem Pipe.Sound.removes {listed fs : Fs FileName} {v : FileName} {todo : List FileName}
    (hc : Pipe.Sound cfg fs ⟨listed, victims, v :: todo⟩) :
    Pipe.Sound cfg (fs.unlink v) ⟨listed, victims, todo⟩ where
  oldest := hc.oldest
  todo := fun m hm => hc.todo (List.mem_cons_of_mem v hm)
  spared m hm hv := by
    have hne : m ≠ v := fun he => hv (he ▸ hc.todo List.mem_cons_self)
    rw [Fs.ls_unlink, List.mem_erase_of_ne hne]
    exact hc.spared m hm hv
  enough := by
    have henough : cfg.maxFiles + (todo.length + 1) ≤ fs.ls.length := hc.enough
    have hlen := List.le_length_erase (a := v) (l := fs.ls)
    rw [Fs.ls_unlink]
    show cfg.maxFiles + todo.length ≤ _
    omega

/-- What the loop has counted is there still, until it lists. -/
structure Counted (cfg : Config) (p : Piping) : Prop where
  flush : (p.sys.up .flush).pc = .exited
  cap : p.pipe = none → ∀ n, (p.sys.up .loop).pc = .cap n → n ≤ p.sys.env.fs.ls.length
  pipe : ∀ c, p.pipe = some c → c.Sound cfg p.sys.env.fs

theorem counted_begin (clock : Nat) : Counted cfg (.begin cfg clock) where
  flush := rfl
  cap _ _ hpc := by cases hpc
  pipe _ hc := by cases hc

/-- The loop takes no step of its own while its pipeline runs. -/
theorem Counted.sys (hc : Counted cfg p) (hflush : l.flushes = false)
    (hwaits : p.pipe.isSome = true → l.waits = false) (h : step cfg l p.sys = some t) :
    Counted cfg ⟨t, if l.kills then none else p.pipe⟩ := by
  have hexited := exited_step hc.flush hflush h
  by_cases hrun : ∃ w c, l = .run w c
  · obtain ⟨w, c, rfl⟩ := hrun
    cases step_acts h with
    | @moves _ _ e u' hm =>
      cases w with
      | flush => exact (hm.not_exited hc.flush).elim
      | loop =>
        have hnone : p.pipe = none := by
          cases hp : p.pipe with
          | none => rfl
          | some c => cases hwaits (by rw [hp]; rfl)
        refine ⟨hexited, fun _ n hpc => ?_, fun c hc => ?_⟩
        · obtain ⟨-, rfl, rfl⟩ := moves_to_cap hm hpc
          exact le_rfl
        · rw [hnone] at hc
          cases hc
  · have hl : ∀ w c, l ≠ .run w c := fun w c he => hrun ⟨w, c, he⟩
    have hkeeps := step_keeps h hl
    refine ⟨hexited, fun hnone n hpc => ?_, fun c hpipe => ?_⟩
    · by_cases hkill : l.kills = true
      · cases l with
        | kill =>
          cases step_acts h
          cases hpc
        | _ => cases hkill
      · rw [if_neg hkill] at hnone
        have hlen := (List.subperm_of_subset (AList.keys_nodup p.sys.env.fs.dir) hkeeps).length_le
        exact (hc.cap hnone n (step_cap h hl hpc)).trans hlen
    · by_cases hkill : l.kills = true
      · rw [if_pos hkill] at hpipe
        cases hpipe
      · rw [if_neg hkill] at hpipe
        exact (hc.pipe c hpipe).keeps hkeeps

/-- The loop's uploader alone. -/
def LoopAlone (_ : Piping) : PipeLabel → Prop
  | .sys l => l.flushes = false
  | _ => True

theorem counted_step {pl : PipeLabel} (hc : Counted cfg p) (hok : LoopAlone p pl)
    (h : pipingStep cfg pl p = some q) : Counted cfg q := by
  obtain ⟨s, pipe⟩ := p
  cases pl with
  | sys l =>
    rw [pipingStep] at h
    split at h
    · cases h
    · next hfree =>
      obtain ⟨t, ht, rfl⟩ := Option.map_eq_some_iff.mp h
      refine hc.sys hok (fun hpipe => ?_) ht
      simp only [hpipe, Bool.true_and, Bool.or_eq_true, not_or, Bool.not_eq_true] at hfree
      exact hfree.2
  | lists victims =>
    cases pipe with
    | some c => cases h
    | none =>
      rw [pipingStep] at h
      split at h
      · next n hpc =>
        split at h
        · next hold =>
          cases h
          refine ⟨hc.flush, fun hnone => (by cases hnone), fun c hpipe => ?_⟩
          cases hpipe
          exact .lists hold.2 hold.1 (hc.cap rfl n hpc)
        · cases h
      · cases h
  | removes =>
    rcases pipe with _ | ⟨listed, victims, _ | ⟨v, todo⟩⟩
    · cases h
    · cases h
    · cases h
      refine ⟨hc.flush, fun hnone => (by cases hnone), fun c hpipe => ?_⟩
      cases hpipe
      exact (hc.pipe _ rfl).removes
  | ends =>
    rcases pipe with _ | ⟨listed, victims, _ | ⟨v, todo⟩⟩
    · cases h
    · cases h
      refine ⟨hc.flush, fun _ n hpc => ?_, fun c hpipe => (by cases hpipe)⟩
      simp only [Function.update_self, Uploader.finish, Uploader.goto] at hpc
      split at hpc
      · cases hpc
      · cases hpc
    · cases h

/-- **The cap takes the oldest that ls has seen, and no more than it must.** In
every run with the loop alone, a shutdown included, when rm is done there are no
fewer than MAX_FILES files; every listed file that was not a victim is there,
and was no older than any victim when it was listed. -/
theorem cap_spares {clock : Nat} {listed : Fs FileName}
    (h : Reaches (pipingStep cfg) LoopAlone (.begin cfg clock) p)
    (hdone : p.pipe = some ⟨listed, victims, []⟩) :
    cfg.maxFiles ≤ p.sys.env.fs.ls.length ∧ ∀ m ∈ listed.ls, m ∉ victims →
      m ∈ p.sys.env.fs.ls ∧ ∀ v ∈ victims, (listed.mtime v).getD 0 ≤ (listed.mtime m).getD 0 := by
  have hc : Counted cfg p := h.invariant (Counted cfg) (counted_begin clock)
    fun hc hok hs => counted_step hc hok hs
  obtain ⟨⟨k, -, -, -, hold⟩, -, hspared, henough⟩ := hc.pipe _ hdone
  exact ⟨henough, fun m hm hv => ⟨hspared m hm hv, fun v hmem => hold v hmem m hm hv⟩⟩

/-- The open capture is listed as the oldest file, and written before rm removes it. -/
def writtenWhileListed : List PipeLabel :=
  unreachable.map .sys ++ [.lists oldestTwo, .sys (.tick second), .sys (.packet synRecord), .removes, .removes]

theorem oldestTwo_removed : ∃ p,
    exec (pipingStep roomForOne) writtenWhileListed (.begin roomForOne 0) = some p ∧
    1 ≤ p.sys.env.fs.ls.length ∧ .snapshot (.pods 0) ∈ p.sys.env.fs.ls := by
  have hpipe : (exec (pipingStep roomForOne) writtenWhileListed (.begin roomForOne 0)).bind (fun p =>
      p.pipe.map fun c => (c.victims, c.todo, decide (.snapshot (.pods 0) ∈ c.listed.ls))) =
      some (oldestTwo, [], true) := by
    decide +kernel
  obtain ⟨p, hp, hpipe⟩ := Option.bind_eq_some_iff.mp hpipe
  obtain ⟨⟨listed, victims, todo⟩, hpipe, hc⟩ := Option.map_eq_some_iff.mp hpipe
  obtain ⟨rfl, hc⟩ := Prod.mk.inj hc
  obtain ⟨rfl, hmem⟩ := Prod.mk.inj hc
  have halone : ∀ pl ∈ writtenWhileListed, ∀ q, LoopAlone q pl := by
    simp [writtenWhileListed, unreachable, commands, LoopAlone, Label.flushes]
  obtain ⟨hleft, hspared⟩ := cap_spares (exec_reaches _ LoopAlone (along_of_forall _ halone) hp) hpipe
  exact ⟨p, hp, hleft, (hspared (.snapshot (.pods 0)) (of_decide_eq_true hmem) (by decide)).1⟩

/-- By the time it is removed, the open capture may be the newest. -/
example : (exec (pipingStep roomForOne) (writtenWhileListed.take 17) (.begin roomForOne 0)).map (fun p =>
    (p.sys.env.fs.mtime (.pcap 0), p.sys.env.fs.mtime (.snapshot (.pods 0)))) =
    some (some (2 * second), some second) := by
  decide +kernel

end BigDataPlatform.PacketCapture
