import Mathlib.Data.List.AList
import Mathlib.Data.List.Infix
import Mathlib.Data.List.Sort
import Mathlib.Logic.Function.Basic
import BigDataPlatform.Lib.Pack
import BigDataPlatform.Lib.Transition

/-! # ship.sh: the Spark node log shipper

The JVMs append to their files while `ship` goes over them one command a step:
the signature is read before the copy and recorded after it. A copy may pick up
bytes appended after its start, so what is stored is a prefix of the file no
shorter than the signature says. -/
namespace BigDataPlatform.NodeLogs
open BigDataPlatform.Lib.Pack BigDataPlatform.Lib.Transition

structure File where
  content : Bytes
  mtime : Nat
deriving DecidableEq

/-- `stat -c '%s:%Y'`. -/
structure Sig where
  size : Nat
  mtime : Nat
deriving DecidableEq

def File.sig (file : File) : Sig := ⟨file.content.length, file.mtime⟩

/-- A stored object, under the day it was uploaded and the file's name. -/
structure Put where
  day : Nat
  name : String
  bytes : Bytes
deriving DecidableEq

/-- The command ship runs next. -/
inductive Pc where
  | idle
  | loop (todo : List String)                       -- top of the for loop
  | stat (f : String) (todo : List String)          -- the file is there
  | compare (f : String) (sig : Sig) (todo : List String)
  | copy (f : String) (sig : Sig) (todo : List String)
  | copying (f : String) (sig : Sig) (size : Nat) (todo : List String)  -- `size` at the start
  | record (f : String) (sig : Sig) (todo : List String)                -- `SEEN[$f]=$sig`
deriving DecidableEq

structure Sys where
  files : AList fun _ : String => File
  puts : List Put                  -- newest first
  seen : String → Option Sig
  pc : Pc

inductive Label where
  | create (f : String) (bs : Bytes) (mtime : Nat)
  | append (f : String) (bs : Bytes) (mtime : Nat)
  | start                          -- the main loop calls ship
  | next                           -- ship's next command
  | copied (day n : Nat)           -- `aws s3 cp` exits 0 and has stored the first n bytes
  | copyFails (stored : Option (Nat × Bytes))
  | restart                        -- a new container: SEEN is empty
  | sigterm                        -- the trap runs ship

def gcLog (f : String) : Bool :=
  "gc-".toList.isPrefixOf f.toList && decide (".log".toList <:+: f.toList.drop 3)

def diagLog (f : String) : Bool :=
  "diag".toList.isPrefixOf f.toList && decide (".log".toList <:+ f.toList.drop 4)

/-- `"$SRC"/gc-*.log* "$SRC"/diag*.log`. -/
def glob (files : AList fun _ : String => File) : List String :=
  (files.keys.filter gcLog).insertionSort (· ≤ ·) ++ (files.keys.filter diagLog).insertionSort (· ≤ ·)

def ship (s : Sys) : Option Sys :=
  match s.pc with
  | .loop [] => some { s with pc := .idle }
  | .loop (f :: todo) =>
    if (s.files.lookup f).isSome then some { s with pc := .stat f todo }
    else some { s with pc := .loop todo }
  | .stat f todo => match s.files.lookup f with
    | some file => some { s with pc := .compare f file.sig todo }
    | none => some { s with pc := .loop todo }
  | .compare f sig todo =>
    if s.seen f = some sig then some { s with pc := .loop todo }
    else some { s with pc := .copy f sig todo }
  | .copy f sig todo => match s.files.lookup f with
    | some file => some { s with pc := .copying f sig file.content.length todo }
    | none => some { s with pc := .loop todo }
  | .record f sig todo => some { s with seen := Function.update s.seen f (some sig), pc := .loop todo }
  | .idle | .copying .. => none

def step (l : Label) (s : Sys) : Option Sys :=
  match l with
  | .create f bs m =>
    if (s.files.lookup f).isNone then some { s with files := s.files.insert f ⟨bs, m⟩ } else none
  | .append f bs m => match s.files.lookup f with
    | some file =>
      if file.mtime ≤ m then some { s with files := s.files.insert f ⟨file.content ++ bs, m⟩ }
      else none
    | none => none
  | .start => match s.pc with
    | .idle => some { s with pc := .loop (glob s.files) }
    | _ => none
  | .next => ship s
  | .copied day n => match s.pc with
    | .copying f sig size todo => match s.files.lookup f with
      | some file =>
        if size ≤ n ∧ n ≤ file.content.length then
          some { s with puts := ⟨day, f, file.content.take n⟩ :: s.puts, pc := .record f sig todo }
        else none
      | none => none
    | _ => none
  | .copyFails stored => match s.pc with
    | .copying f _ _ todo =>
      let puts := match stored with
        | some (day, b) => ⟨day, f, b⟩ :: s.puts
        | none => s.puts
      some { s with puts, pc := .loop todo }
    | _ => none
  | .restart => some { s with seen := fun _ => none, pc := .idle }
  | .sigterm => match s.pc with
    | .copying .. => none          -- the trap waits for the foreground command
    | _ => some { s with pc := .loop (glob s.files) }

def init : Sys where
  files := ∅
  puts := []
  seen := fun _ => none
  pc := .idle

/-- The object most recently stored for a file's name. -/
def Sys.latest (s : Sys) (f : String) : Option Bytes :=
  (s.puts.find? (·.name = f)).map (·.bytes)

/-! ## What one step can do -/

inductive Acts (s : Sys) : Label → Sys → Prop
  | create {f bs m} : s.files.lookup f = none →
      Acts s (.create f bs m) { s with files := s.files.insert f ⟨bs, m⟩ }
  | append {f bs m file} : s.files.lookup f = some file → file.mtime ≤ m →
      Acts s (.append f bs m) { s with files := s.files.insert f ⟨file.content ++ bs, m⟩ }
  | start : s.pc = .idle → Acts s .start { s with pc := .loop (glob s.files) }
  | ends : s.pc = .loop [] → Acts s .next { s with pc := .idle }
  | there {f todo file} : s.pc = .loop (f :: todo) → s.files.lookup f = some file →
      Acts s .next { s with pc := .stat f todo }
  | gone {f todo} : s.pc = .loop (f :: todo) → s.files.lookup f = none →
      Acts s .next { s with pc := .loop todo }
  | reads {f todo file} : s.pc = .stat f todo → s.files.lookup f = some file →
      Acts s .next { s with pc := .compare f file.sig todo }
  | lost {f todo} : s.pc = .stat f todo → s.files.lookup f = none →
      Acts s .next { s with pc := .loop todo }
  | skips {f sig todo} : s.pc = .compare f sig todo → s.seen f = some sig →
      Acts s .next { s with pc := .loop todo }
  | differs {f sig todo} : s.pc = .compare f sig todo → s.seen f ≠ some sig →
      Acts s .next { s with pc := .copy f sig todo }
  | copies {f sig todo file} : s.pc = .copy f sig todo → s.files.lookup f = some file →
      Acts s .next { s with pc := .copying f sig file.content.length todo }
  | missing {f sig todo} : s.pc = .copy f sig todo → s.files.lookup f = none →
      Acts s .next { s with pc := .loop todo }
  | records {f sig todo} : s.pc = .record f sig todo →
      Acts s .next { s with seen := Function.update s.seen f (some sig), pc := .loop todo }
  | copied {f sig size todo day n file} : s.pc = .copying f sig size todo →
      s.files.lookup f = some file → size ≤ n → n ≤ file.content.length →
      Acts s (.copied day n)
        { s with puts := ⟨day, f, file.content.take n⟩ :: s.puts, pc := .record f sig todo }
  | fails {f sig size todo} : s.pc = .copying f sig size todo →
      Acts s (.copyFails none) { s with pc := .loop todo }
  | failsStored {f sig size todo day b} : s.pc = .copying f sig size todo →
      Acts s (.copyFails (some (day, b))) { s with puts := ⟨day, f, b⟩ :: s.puts, pc := .loop todo }
  | restart : Acts s .restart { s with seen := fun _ => none, pc := .idle }
  | sigterm : Acts s .sigterm { s with pc := .loop (glob s.files) }

theorem step_acts {l : Label} {s t : Sys} (h : step l s = some t) : Acts s l t := by
  cases l with
  | create f bs m =>
    simp only [step] at h
    split at h <;> cases h
    next hn => exact .create (Option.isNone_iff_eq_none.mp hn)
  | append f bs m =>
    simp only [step] at h
    split at h
    · next file hl =>
      split at h <;> cases h
      next hm => exact .append hl hm
    · cases h
  | start =>
    simp only [step] at h
    split at h <;> cases h
    next hpc => exact .start hpc
  | next =>
    simp only [step, ship] at h
    split at h
    case h_1 hpc => cases h; exact .ends hpc
    case h_2 f todo hpc =>
      split at h <;> cases h
      · next hl =>
        obtain ⟨file, hf⟩ := Option.isSome_iff_exists.mp hl
        exact .there hpc hf
      · next hl => exact .gone hpc (by simpa using hl)
    case h_3 f todo hpc =>
      split at h <;> cases h
      · next hl => exact .reads hpc hl
      · next hl => exact .lost hpc hl
    case h_4 f sig todo hpc =>
      split at h <;> cases h
      · next hs => exact .skips hpc hs
      · next hs => exact .differs hpc hs
    case h_5 f sig todo hpc =>
      split at h <;> cases h
      · next hl => exact .copies hpc hl
      · next hl => exact .missing hpc hl
    case h_6 f sig todo hpc => cases h; exact .records hpc
    all_goals cases h
  | copied day n =>
    simp only [step] at h
    split at h
    · next hpc =>
      split at h
      · next file hl =>
        split at h <;> cases h
        next hn => exact .copied hpc hl hn.1 hn.2
      · cases h
    · cases h
  | copyFails stored =>
    simp only [step] at h
    split at h
    · next hpc =>
      cases h
      cases stored with
      | none => exact .fails hpc
      | some d => exact .failsStored hpc
    · cases h
  | restart => cases h; exact .restart
  | sigterm =>
    simp only [step] at h
    split at h <;> cases h
    exact .sigterm

/-! ## Signatures, copies and files -/

/-- A file's signature only grows. -/
def Sig.le (a b : Sig) : Prop := a.size ≤ b.size ∧ a.mtime ≤ b.mtime

theorem Sig.le.antisymm {a b : Sig} (h : a.le b) (h' : b.le a) : a = b := by
  obtain ⟨_, _⟩ := a
  obtain ⟨_, _⟩ := b
  simp only [Sig.le, Sig.mk.injEq] at *
  omega

theorem Sig.le.trans {a b c : Sig} (h : a.le b) (h' : b.le c) : a.le c :=
  ⟨h.1.trans h'.1, h.2.trans h'.2⟩

theorem Sig.le.refl (a : Sig) : a.le a := ⟨le_rfl, le_rfl⟩

/-- The signature that ship has read of the file in hand. -/
def Pc.read : Pc → Option (String × Sig)
  | .compare f sig _ | .copy f sig _ | .copying f sig _ _ | .record f sig _ => some (f, sig)
  | _ => none

/-- The file that ship has decided to copy, until the copy is recorded. -/
def Pc.copies : Pc → Option (String × Sig)
  | .copy f sig _ | .copying f sig _ _ | .record f sig _ => some (f, sig)
  | _ => none

structure Inv (s : Sys) : Prop where
  /-- What SEEN says was once the signature, and while it is, the copy is the file. -/
  seen : ∀ f sig, s.seen f = some sig → ∃ file, s.files.lookup f = some file ∧ sig.le file.sig ∧
    (sig = file.sig → s.latest f = some file.content)
  read : ∀ f sig, s.pc.read = some (f, sig) → ∃ file, s.files.lookup f = some file ∧ sig.le file.sig ∧
    ∀ old, s.seen f = some old → old.le sig
  copies : ∀ f sig, s.pc.copies = some (f, sig) → s.seen f ≠ some sig
  started : ∀ f sig size todo, s.pc = .copying f sig size todo → sig.size ≤ size
  stored : ∀ f sig todo, s.pc = .record f sig todo → ∃ file n, s.files.lookup f = some file ∧
    s.latest f = some (file.content.take n) ∧ sig.size ≤ n ∧ n ≤ file.content.length
  skipped : ∀ f sig todo, s.pc = .compare f sig todo → s.seen f = some sig →
    ∃ file, s.files.lookup f = some file ∧ s.latest f = some (file.content.take sig.size) ∧
      sig.size ≤ file.content.length

variable {s t : Sys} {l : Label} {f : String} {file : File}

/-- What SEEN says of a file that is there. -/
theorem Inv.seen_file (hi : Inv s) {sig : Sig} (hs : s.seen f = some sig)
    (hl : s.files.lookup f = some file) :
    sig.le file.sig ∧ (sig = file.sig → s.latest f = some file.content) := by
  obtain ⟨file', hl', hfile⟩ := hi.seen f sig hs
  rw [hl] at hl'
  cases hl'
  exact hfile

/-- What ship has read of a file that is there. -/
theorem Inv.read_file (hi : Inv s) {sig : Sig} (hr : s.pc.read = some (f, sig))
    (hl : s.files.lookup f = some file) :
    sig.le file.sig ∧ ∀ old, s.seen f = some old → old.le sig := by
  obtain ⟨file', hl', hfile⟩ := hi.read f sig hr
  rw [hl] at hl'
  cases hl'
  exact hfile

theorem latest_put (s : Sys) (day : Nat) (f : String) (b : Bytes) (pc : Pc) (g : String) :
    Sys.latest { s with puts := ⟨day, f, b⟩ :: s.puts, pc } g = if f = g then some b else s.latest g := by
  unfold Sys.latest
  rw [List.find?_cons]
  by_cases h : f = g <;> simp [h]

/-- A write to one file: it grows, and its signature with it. -/
theorem inv_write (hi : Inv s) {new : File}
    (hgrow : ∀ old, s.files.lookup f = some old →
      ∃ bs, new.content = old.content ++ bs ∧ old.mtime ≤ new.mtime) :
    Inv { s with files := s.files.insert f new } := by
  have hlook : ∀ g file, s.files.lookup g = some file →
      ∃ file', (s.files.insert f new).lookup g = some file' ∧
        ∃ bs, file'.content = file.content ++ bs ∧ file.mtime ≤ file'.mtime := by
    intro g file hl
    by_cases hg : g = f
    · subst hg
      exact ⟨new, AList.lookup_insert _, hgrow file hl⟩
    · exact ⟨file, (AList.lookup_insert_ne hg).trans hl, [], by simp, le_rfl⟩
  have hsig : ∀ {old new' : File} {bs}, new'.content = old.content ++ bs → old.mtime ≤ new'.mtime →
      old.sig.le new'.sig := fun hc hm => ⟨by simp [File.sig, hc], hm⟩
  refine ⟨fun g sig hs => ?_, fun g sig hr => ?_, hi.copies, hi.started, fun g sig todo hpc => ?_,
    fun g sig todo hpc hs => ?_⟩
  · obtain ⟨old, hl, hle, hup⟩ := hi.seen g sig hs
    obtain ⟨file', hl', bs, hc, hm⟩ := hlook g old hl
    refine ⟨file', hl', hle.trans (hsig hc hm), fun heq => ?_⟩
    -- an unchanged signature leaves no room for an append
    have hsame : sig = old.sig := hle.antisymm (heq ▸ hsig hc hm)
    have hlen := congrArg Sig.size (hsame.symm.trans heq)
    simp only [File.sig, hc, List.length_append] at hlen
    have hnil : bs = [] := List.eq_nil_of_length_eq_zero (by omega)
    rw [hc, hnil, List.append_nil]
    exact hup hsame
  · obtain ⟨old, hl, hle, hseen⟩ := hi.read g sig hr
    obtain ⟨file', hl', bs, hc, hm⟩ := hlook g old hl
    exact ⟨file', hl', hle.trans (hsig hc hm), hseen⟩
  · obtain ⟨old, n, hl, hlat, hsz, hn⟩ := hi.stored g sig todo hpc
    obtain ⟨file', hl', bs, hc, _⟩ := hlook g old hl
    refine ⟨file', n, hl', ?_, hsz, ?_⟩
    · rw [hc, List.take_append_of_le_length hn]
      exact hlat
    · rw [hc, List.length_append]; omega
  · obtain ⟨old, hl, hlat, hn⟩ := hi.skipped g sig todo hpc hs
    obtain ⟨file', hl', bs, hc, _⟩ := hlook g old hl
    refine ⟨file', hl', ?_, ?_⟩
    · rw [hc, List.take_append_of_le_length hn]
      exact hlat
    · rw [hc, List.length_append]; omega

/-- A command that only moves ship on, to a place without a file in hand. -/
theorem inv_go (hi : Inv s) {pc : Pc} (hr : pc.read = none) (hc : pc.copies = none) :
    Inv { s with pc } := by
  refine ⟨hi.seen, fun g sig h => ?_, fun g sig h => ?_, ?_, ?_, ?_⟩
  · simp only [hr] at h; cases h
  · simp only [hc] at h; cases h
  · rintro g sig size todo rfl; cases hr
  · rintro g sig todo rfl; cases hr
  · rintro g sig todo rfl; cases hr

/-- A stored object leaves what SEEN says true: it is of a file whose signature
has moved on. -/
theorem seen_put (hi : Inv s) {sig : Sig} (hr : s.pc.read = some (f, sig))
    (hc : s.pc.copies = some (f, sig)) (day : Nat) (b : Bytes) (pc : Pc) (g : String) (old : Sig)
    (hs : s.seen g = some old) : ∃ file, s.files.lookup g = some file ∧ old.le file.sig ∧
      (old = file.sig →
        Sys.latest { s with puts := ⟨day, f, b⟩ :: s.puts, pc } g = some file.content) := by
  obtain ⟨file, hl, hle, hup⟩ := hi.seen g old hs
  refine ⟨file, hl, hle, fun heq => ?_⟩
  rw [latest_put]
  split
  · next hg =>
    subst hg
    obtain ⟨hle', hseen⟩ := hi.read_file hr hl
    have hsame : old = sig := (hseen old hs).antisymm (heq ▸ hle')
    exact absurd (hsame ▸ hs) (hi.copies f sig hc)
  · exact hup heq

theorem inv_step (hi : Inv s) (h : step l s = some t) : Inv t := by
  cases step_acts h with
  | create hn => exact inv_write hi fun old hl => by rw [hn] at hl; cases hl
  | @append f bs m file hl hm =>
    refine inv_write hi fun old hl' => ?_
    rw [hl] at hl'
    cases hl'
    exact ⟨bs, rfl, hm⟩
  | @reads f todo file hpc hl =>
    refine ⟨hi.seen, fun g sig hr => ?_, nofun, nofun, nofun, fun g sig todo' he hs => ?_⟩
    · cases hr
      exact ⟨file, hl, Sig.le.refl _, fun old hs => (hi.seen_file hs hl).1⟩
    · cases he
      refine ⟨file, hl, ?_, le_rfl⟩
      rw [File.sig, List.take_length]
      exact (hi.seen_file hs hl).2 rfl
  | @differs f sig todo hpc hne =>
    refine ⟨hi.seen, fun g sig' hr => ?_, fun g sig' hc => ?_, nofun, nofun, nofun⟩
    · cases hr
      exact hi.read f sig (by rw [hpc]; rfl)
    · cases hc
      exact hne
  | @copies f sig todo file hpc hl =>
    have hread : s.pc.read = some (f, sig) := by rw [hpc]; rfl
    refine ⟨hi.seen, fun g sig' hr => ?_, fun g sig' hc => ?_, ?_, nofun, nofun⟩
    · cases hr
      exact hi.read f sig hread
    · cases hc
      exact hi.copies f sig (by rw [hpc]; rfl)
    · intro g sig' size todo' he
      cases he
      exact (hi.read_file hread hl).1.1
  | @records f sig todo hpc =>
    obtain ⟨file, n, hl, hlat, hsz, hn⟩ := hi.stored f sig todo hpc
    have hle : sig.le file.sig := (hi.read_file (by rw [hpc]; rfl) hl).1
    refine ⟨fun g sig' hs => ?_, nofun, nofun, nofun, nofun, nofun⟩
    dsimp only at hs
    by_cases hg : g = f
    · subst hg
      rw [Function.update_self] at hs
      cases hs
      refine ⟨file, hl, hle, fun heq => ?_⟩
      have hlen : file.content.length ≤ n := by
        rw [heq] at hsz; exact hsz
      rw [List.take_of_length_le hlen] at hlat
      exact hlat
    · rw [Function.update_of_ne hg] at hs
      exact hi.seen g sig' hs
  | @copied f sig size todo day n file hpc hl hsz hn =>
    have hr : s.pc.read = some (f, sig) := by rw [hpc]; rfl
    have hc : s.pc.copies = some (f, sig) := by rw [hpc]; rfl
    refine ⟨seen_put hi hr hc day _ _, fun g sig' h => ?_, fun g sig' h => ?_, nofun,
      fun g sig' todo' h => ?_, nofun⟩
    · cases h; exact hi.read f sig hr
    · cases h; exact hi.copies f sig hc
    · cases h
      refine ⟨file, n, hl, ?_, (hi.started f sig size todo hpc).trans hsz, hn⟩
      rw [latest_put, if_pos rfl]
  | @failsStored f sig size todo day b hpc =>
    have hr : s.pc.read = some (f, sig) := by rw [hpc]; rfl
    have hc : s.pc.copies = some (f, sig) := by rw [hpc]; rfl
    exact ⟨seen_put hi hr hc day _ _, nofun, nofun, nofun, nofun, nofun⟩
  | restart => exact ⟨nofun, nofun, nofun, nofun, nofun, nofun⟩
  | _ => exact inv_go hi rfl rfl

theorem inv_init : Inv init := ⟨nofun, nofun, nofun, nofun, nofun, nofun⟩

/-! ## One cycle -/

/-- The cycle has yet to come to the copy of `f`. -/
def Pending (f : String) (file : File) : Pc → Prop
  | .loop todo | .record _ _ todo => f ∈ todo
  | .stat g todo | .copy g _ todo | .copying g _ _ todo => g = f ∨ f ∈ todo
  | .compare g sig todo => g = f ∧ sig = file.sig ∨ f ∈ todo
  | .idle => False

/-- `f` is stored as it is, or the cycle has yet to come to it. -/
structure Settling (f : String) (file : File) (s : Sys) : Prop where
  present : s.files.lookup f = some file
  stored : s.latest f = some file.content ∨ Pending f file s.pc
  whole : ∀ sig size todo, s.pc = .copying f sig size todo → size = file.content.length

/-- No write to `f`, no failed upload of it, no restart. -/
def Quiet (f : String) (s : Sys) : Label → Prop
  | .create g _ _ | .append g _ _ => g ≠ f
  | .copyFails _ => ∀ p ∈ s.pc.copies, p.1 ≠ f
  | .restart => False
  | _ => True

theorem mem_glob {files : AList fun _ : String => File} :
    f ∈ glob files ↔ f ∈ files ∧ (gcLog f = true ∨ diagLog f = true) := by
  simp only [glob, List.mem_append, List.mem_insertionSort, List.mem_filter, AList.mem_keys]
  tauto

theorem settling_start (hm : gcLog f = true ∨ diagLog f = true) (hf : s.files.lookup f = some file) :
    Settling f file { s with pc := .loop (glob s.files) } := by
  refine ⟨hf, Or.inr (mem_glob.mpr ⟨?_, hm⟩), nofun⟩
  exact AList.lookup_isSome.mp (by rw [hf]; rfl)

/-- A command that moves on past another file, or past `f` once it is stored. -/
theorem Settling.go (hs : Settling f file s) {pc : Pc} (hp : Pending f file s.pc → Pending f file pc)
    (hw : ∀ sig size todo, pc = .copying f sig size todo → size = file.content.length) :
    Settling f file { s with pc } :=
  ⟨hs.present, hs.stored.imp_right hp, hw⟩

theorem settling_step (hm : gcLog f = true ∨ diagLog f = true) (hi : Inv s) (hs : Settling f file s)
    (hq : Quiet f s l) (h : step l s = some t) : Settling f file t := by
  have hpres : s.files.lookup f ≠ none := by rw [hs.present]; nofun
  cases step_acts h with
  | create _ => exact ⟨(AList.lookup_insert_ne (Ne.symm hq)).trans hs.present, hs.stored, hs.whole⟩
  | append _ _ => exact ⟨(AList.lookup_insert_ne (Ne.symm hq)).trans hs.present, hs.stored, hs.whole⟩
  | start _ => exact settling_start hm hs.present
  | sigterm => exact settling_start hm hs.present
  | ends hpc => exact hs.go (fun h => by rw [hpc] at h; cases h) nofun
  | there hpc _ =>
    exact hs.go (fun h => by rw [hpc] at h; exact (List.mem_cons.mp h).imp_left Eq.symm) nofun
  | gone hpc hn =>
    refine hs.go (fun h => ?_) nofun
    rw [hpc] at h
    rcases List.mem_cons.mp h with rfl | h
    · exact absurd hn hpres
    · exact h
  | reads hpc hl =>
    refine hs.go (fun h => ?_) nofun
    rw [hpc] at h
    refine h.imp_left ?_
    intro he
    subst he
    rw [hs.present] at hl
    cases hl
    exact ⟨rfl, rfl⟩
  | lost hpc hn =>
    refine hs.go (fun h => ?_) nofun
    rw [hpc] at h
    exact h.resolve_left (by rintro rfl; exact hpres hn)
  | skips hpc hseen =>
    refine ⟨hs.present, ?_, nofun⟩
    rcases hs.stored with hst | hp
    · exact Or.inl hst
    · rw [hpc] at hp
      rcases hp with ⟨rfl, rfl⟩ | hmem
      · -- the recorded signature is the file's own, so the copy is the file
        exact Or.inl ((hi.seen_file hseen hs.present).2 rfl)
      · exact Or.inr hmem
  | differs hpc _ => exact hs.go (fun h => by rw [hpc] at h; exact h.imp_left And.left) nofun
  | copies hpc hl =>
    refine hs.go (fun h => by rw [hpc] at h; exact h) fun sig size todo he => ?_
    cases he
    rw [hs.present] at hl
    cases hl
    rfl
  | missing hpc hn =>
    refine hs.go (fun h => ?_) nofun
    rw [hpc] at h
    exact h.resolve_left (by rintro rfl; exact hpres hn)
  | records hpc => exact ⟨hs.present, hs.stored.imp_right fun h => by rw [hpc] at h; exact h, nofun⟩
  | @copied g sig size todo day n file' hpc hl hsz hn =>
    refine ⟨hs.present, ?_, nofun⟩
    rw [latest_put]
    by_cases hg : g = f
    · subst hg
      rw [hs.present] at hl
      cases hl
      have hall : file.content.length ≤ n := hs.whole sig size todo hpc ▸ hsz
      rw [if_pos rfl, List.take_of_length_le hall]
      exact Or.inl rfl
    · rw [if_neg hg]
      refine hs.stored.imp_right fun h => ?_
      rw [hpc] at h
      exact h.resolve_left hg
  | @fails g sig size todo hpc =>
    have hg : g ≠ f := hq (g, sig) (by rw [hpc]; rfl)
    refine hs.go (fun h => ?_) nofun
    rw [hpc] at h
    exact h.resolve_left hg
  | @failsStored g sig size todo day b hpc =>
    have hg : g ≠ f := hq (g, sig) (by rw [hpc]; rfl)
    refine ⟨hs.present, ?_, nofun⟩
    rw [latest_put, if_neg hg]
    refine hs.stored.imp_right fun h => ?_
    rw [hpc] at h
    exact h.resolve_left hg
  | restart => exact hq.elim

instance (f : String) (s : Sys) : (l : Label) → Decidable (Quiet f s l)
  | .create g _ _ | .append g _ _ => inferInstanceAs (Decidable (g ≠ f))
  | .copyFails _ => inferInstanceAs (Decidable (∀ p ∈ s.pc.copies, p.1 ≠ f))
  | .restart => .isFalse id
  | .start | .next | .copied .. | .sigterm => .isTrue trivial

/-- **The shipper converges and skips nothing that is out of date.** While SEEN
holds a file's current signature, the object last stored for its name is the
file; when a cycle skips a file, that object is the bytes its signature was read
for; and a cycle with no write to a matching file, no failed upload of it and no
restart ends with the file stored exactly. -/
theorem shipper_converges {s : Sys} (h : Reaches step anyStep init s) :
    (∀ f file, s.files.lookup f = some file → s.seen f = some file.sig →
      s.latest f = some file.content) ∧
    (∀ f sig todo file, s.pc = .compare f sig todo → s.seen f = some sig →
      s.files.lookup f = some file → s.latest f = some (file.content.take sig.size)) ∧
    ∀ t u f file, s.pc = .idle → step .start s = some t → Reaches step (Quiet f) t u →
      u.pc = .idle → (gcLog f = true ∨ diagLog f = true) → s.files.lookup f = some file →
      u.files.lookup f = some file ∧ u.latest f = some file.content := by
  have hi : Inv s := h.invariant Inv inv_init fun hi _ hs => inv_step hi hs
  refine ⟨fun f file hl hs => ?_, fun f sig todo file hpc hs hl => ?_,
    fun t u f file hpc hst hrun hidle hm hl => ?_⟩
  · exact (hi.seen_file hs hl).2 rfl
  · obtain ⟨file', hl', hlat, _⟩ := hi.skipped f sig todo hpc hs
    rw [hl] at hl'
    cases hl'
    exact hlat
  · have hstart : Settling f file t := by
      cases step_acts hst with
      | start _ => exact settling_start hm hl
    obtain ⟨_, hend⟩ := hrun.invariant (fun v => Inv v ∧ Settling f file v)
      ⟨inv_step hi hst, hstart⟩
      fun hv hq hs => ⟨inv_step hv.1 hs, settling_step hm hv.1 hv.2 hq hs⟩
    exact ⟨hend.present, hend.stored.resolve_right (by rw [hidle]; exact id)⟩

/-- The JVM appends during the first copy, which stores the older bytes. -/
def raced : List Label :=
  [.create "gc-driver.log" [1, 2] 5, .start, .next, .next, .next, .next,
    .append "gc-driver.log" [3] 6, .copied 0 2, .next, .next]

/-- The next cycle, once it has started. -/
def caughtUp : List Label := [.next, .next, .next, .next, .copied 1 3, .next, .next]

theorem caughtUp_stored : ∃ s t u, exec step raced init = some s ∧
    s.latest "gc-driver.log" = some [1, 2] ∧ step .start s = some t ∧
    exec step caughtUp t = some u ∧ u.latest "gc-driver.log" = some [1, 2, 3] := by
  obtain ⟨s, hs, hp⟩ := (Option.any_eq_true
    (fun s : Sys => s.latest "gc-driver.log" = some [1, 2] ∧ s.pc = .idle ∧
      s.files.lookup "gc-driver.log" = some ⟨[1, 2, 3], 6⟩ ∧
      (step .start s).any fun t => Along step (Quiet "gc-driver.log") caughtUp t ∧
        (exec step caughtUp t).any fun u => u.pc = .idle)
    (exec step raced init)).mp (by decide +kernel)
  obtain ⟨hold, hidle, hl, ht⟩ := of_decide_eq_true hp
  obtain ⟨t, ht, hu⟩ := (Option.any_eq_true _ _).mp ht
  obtain ⟨hal, hu⟩ := of_decide_eq_true hu
  obtain ⟨u, hu, hend⟩ := (Option.any_eq_true _ _).mp hu
  have hrun := exec_reaches _ _ (along_anyStep raced init) hs
  exact ⟨s, t, u, hs, hold, ht, hu, ((shipper_converges hrun).2.2 t u "gc-driver.log" _ hidle ht
    (exec_reaches _ _ hal hu) (of_decide_eq_true hend) (by decide +kernel) hl).2⟩

end BigDataPlatform.NodeLogs
