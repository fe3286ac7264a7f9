import BigDataPlatform.PacketCapture.Moves
import BigDataPlatform.PacketCapture.Steady

/-! # The cap on /captures

`drop the oldest rather than fill the disk`: how many files there can be when
uploads fail for ever. A sweep counts the files first and removes them later,
and others create and remove files in between. -/
namespace BigDataPlatform.PacketCapture
open BigDataPlatform.Lib.Pack BigDataPlatform.Lib.FileSystem BigDataPlatform.Lib.Transition
open BigDataPlatform.PcapAnnotate

variable {cfg : Config} {env : Env} {s t : Sys} {l : Label} {u u' : Uploader} {c : Choice} {e : Effect}
  {n f : Nat}

/-! ## What one step adds -/

/-- No more files have appeared than have been created. -/
structure Grows (fs fs' : Fs FileName) : Prop where
  created : fs.fresh ≤ fs'.fresh
  length : fs'.ls.length + fs.fresh ≤ fs.ls.length + fs'.fresh

theorem Grows.refl (fs : Fs FileName) : Grows fs fs := ⟨le_rfl, le_rfl⟩

theorem grows_truncate (fs : Fs FileName) (n : FileName) (now : Nat) : Grows fs (fs.truncate n now) :=
  ⟨Fs.fresh_truncate_le fs n now, le_of_eq (Fs.length_truncate fs n now)⟩

/-- Bytes are written: the names are the same. -/
theorem Grows.written {fs fs' fs'' : Fs FileName} (h : Grows fs fs') (hfresh : fs''.fresh = fs'.fresh)
    (hdir : fs''.dir = fs'.dir) : Grows fs fs'' := by
  have hls : fs''.ls = fs'.ls := congrArg AList.keys hdir
  exact ⟨hfresh ▸ h.created, by rw [hls, hfresh]; exact h.length⟩

theorem grows_apply (env : Env) (e : Effect) : Grows env.fs (env.apply e).fs := by
  cases e with
  | none => exact .refl _
  | truncate n => exact grows_truncate env.fs n env.clock
  | write fd pos bs => exact (Grows.refl _).written rfl rfl
  | rename a b =>
    have hlen := Fs.length_rename_le env.fs a b
    have hfresh := Fs.fresh_rename env.fs a b
    refine ⟨le_of_eq hfresh.symm, ?_⟩
    show (env.fs.rename a b).ls.length + env.fs.fresh ≤ env.fs.ls.length + (env.fs.rename a b).fresh
    omega
  | unlink ns =>
    have hlen := Fs.length_unlinkAll_le ns env.fs
    have hfresh := Fs.fresh_unlinkAll ns env.fs
    refine ⟨le_of_eq hfresh.symm, ?_⟩
    show (env.fs.unlinkAll ns).ls.length + env.fs.fresh ≤ env.fs.ls.length + (env.fs.unlinkAll ns).fresh
    omega
  | put n =>
    rw [Env.put_fs]
    exact .refl _

theorem step_grows (h : step cfg l s = some t) : Grows s.env.fs t.env.fs := by
  cases step_acts h with
  | rotates r _ => exact (grows_truncate s.env.fs (.pcap (s.td.current + 1)) s.env.clock).written rfl rfl
  | appends r _ _ => exact (Grows.refl _).written rfl rfl
  | publish f b => exact (grows_truncate s.env.fs (.snapshot f) s.env.clock).written rfl rfl
  | moves _ => exact grows_apply s.env _
  | _ => exact .refl _

theorem Copies.not_cap {pc done otherwise : Pc} {m : FileName} (h : Copies pc m done otherwise) (n : Nat) :
    done ≠ .cap n ∧ otherwise ≠ .cap n := by
  cases h <;> simp

theorem Removes.not_cap {pc after : Pc} {m : FileName} (h : Removes pc m after) (n : Nat) : after ≠ .cap n := by
  cases h <;> simp

/-- A command that ends in the cap has counted. -/
theorem moves_to_cap (h : Moves cfg env u c e u') (hpc : u'.pc = .cap n) :
    u.pc = .count ∧ e = .none ∧ n = env.fs.ls.length := by
  cases h with
  | counts hcount =>
    cases hpc
    exact ⟨hcount, rfl, rfl⟩
  | copied hc _ => exact absurd hpc (hc.not_cap n).1
  | copyFails hc => exact absurd hpc (hc.not_cap n).2
  | removes hr => exact absurd hpc (hr.not_cap n)
  | gone h _ _ => rw [h] at hpc; cases hpc
  | snapshotGone h _ => rw [h] at hpc; cases hpc
  | below _ _ =>
    rw [Uploader.finish] at hpc
    split at hpc <;> cases hpc
  | caps _ _ _ =>
    rw [Uploader.finish] at hpc
    split at hpc <;> cases hpc
  | _ => cases hpc

/-- The system, with the number of files created by some of its moments. -/
structure Metered where
  sys : Sys
  /-- When each uploader last counted. -/
  counted : Who → Nat
  /-- When the sweep counted whose cap was the last to be over. -/
  swept : Option Nat

def Metered.begin (cfg : Config) (clock : Nat) : Metered := ⟨init cfg clock, fun _ => 0, none⟩

/-- A command of `w` is `ls -1 "$OUT" | wc -l`. -/
def Metered.countedAfter (m : Metered) (w : Who) : Who → Nat :=
  if (m.sys.up w).pc = .count then Function.update m.counted w m.sys.env.fs.fresh else m.counted

/-- A command of `w` is the cap. -/
def Metered.sweptAfter (m : Metered) (w : Who) : Option Nat :=
  match (m.sys.up w).pc with
  | .cap _ => some (m.counted w)
  | _ => m.swept

def meteredStep (cfg : Config) (l : Label) (m : Metered) : Option Metered :=
  (step cfg l m.sys).map fun sys => match l with
    | .run w _ => ⟨sys, m.countedAfter w, m.sweptAfter w⟩
    | _ => { m with sys }

/-- Since `f` files had been created there have been no more than `n` and the new ones. -/
def AtMost (fs : Fs FileName) (n f : Nat) : Prop := f ≤ fs.fresh ∧ fs.ls.length + f ≤ n + fs.fresh

theorem AtMost.grows {fs fs' : Fs FileName} (h : AtMost fs n f) (hg : Grows fs fs') : AtMost fs' n f := by
  obtain ⟨hle, hlen⟩ := h
  obtain ⟨hcreated, hgrown⟩ := hg
  exact ⟨hle.trans hcreated, by omega⟩

structure Bounded (cfg : Config) (m : Metered) : Prop where
  counting : ∀ w n, (m.sys.up w).pc = .cap n → AtMost m.sys.env.fs n (m.counted w)
  swept : ∀ f, m.swept = some f → AtMost m.sys.env.fs cfg.maxFiles f

/-- Only its own commands bring an uploader to its cap. -/
theorem step_cap (h : step cfg l s = some t) (hl : ∀ w c, l ≠ .run w c) {w : Who}
    (hpc : (t.up w).pc = .cap n) : (s.up w).pc = .cap n := by
  have hset : ∀ v u, (Function.update s.up v u w).pc = .cap n → u.pc ≠ .cap n → (s.up w).pc = .cap n := by
    intro v u hu hne
    by_cases hw : w = v
    · rw [hw, Function.update_self] at hu
      exact absurd hu hne
    · rwa [Function.update_of_ne hw] at hu
  cases step_acts h with
  | moves _ => exact absurd rfl (hl _ _)
  | kill => exact hset _ _ hpc (by simp [Uploader.start])
  | flush _ => exact hset _ _ hpc (by simp [Uploader.start])
  | trapUpload _ _ => exact hset _ _ hpc (by simp [Uploader.goto])
  | rotates _ _ => exact hpc
  | _ => exact hpc

variable {m m' : Metered}

theorem Bounded.sys (hb : Bounded cfg m) (h : step cfg l m.sys = some t) (hl : ∀ w c, l ≠ .run w c) :
    Bounded cfg { m with sys := t } where
  counting w n hpc := (hb.counting w n (step_cap h hl hpc)).grows (step_grows h)
  swept f hf := (hb.swept f hf).grows (step_grows h)

/-- Room for one file. -/
def roomForOne : Config := { deployed with maxFiles := 1 }

/-- Two snapshots whose uploads fail, up to the count of three files. -/
def unreachable : List Label :=
  [.publish (.netState 0) [104], .tick second, .publish (.pods 0) [105]] ++
    commands .loop [.ok, .ok, .ok, .ok, .ok, .ok, .uploadFails false, .ok, .uploadFails false, .ok, .ok]

def oldestTwo : List FileName := [.pcap 0, .snapshot (.netState 0)]

/-- To count changes nothing: every run of the shipper is one of these. -/
theorem metered_reaches {clock : Nat} (h : Reaches (step cfg) anyStep (init cfg clock) s) :
    ∃ m, m.sys = s ∧ Reaches (meteredStep cfg) anyStep (.begin cfg clock) m := by
  induction h with
  | refl => exact ⟨.begin cfg clock, rfl, .refl⟩
  | tail _ hn ih =>
    obtain ⟨l, -, hs⟩ := hn
    obtain ⟨m, rfl, hm⟩ := ih
    have hmeter : (meteredStep cfg l m).isSome := by rw [meteredStep, hs]; rfl
    obtain ⟨m', hm'⟩ := Option.isSome_iff_exists.mp hmeter
    refine ⟨m', ?_, hm.tail ⟨l, trivial, hm'⟩⟩
    obtain ⟨t, ht, rfl⟩ := Option.map_eq_some_iff.mp hm'
    rw [hs] at ht
    cases ht
    cases l <;> rfl

end BigDataPlatform.PacketCapture
