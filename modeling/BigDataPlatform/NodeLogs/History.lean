import BigDataPlatform.NodeLogs

/-! # What ship.sh stores over time

A file is stored again and again while it grows, under the key of the day. A
copy reads the file some time after it has started, and an upload that fails may
have stored its object all the same. The JVMs also rotate their GC logs
(`filecount=5,filesize=64M`): a file moves to another name and a new one takes
its place, also while it is copied. One `ship.sh` runs: of two side by side, the
loop and a `--once`, the slower could store what it read first. -/
namespace BigDataPlatform.NodeLogs
open BigDataPlatform.Lib.Pack BigDataPlatform.Lib.Transition

/-! ## Rotation -/

structure Node where
  sys : Sys
  rotated : List String      -- what a rotation has touched

inductive Event where
  | acts (l : Label)
  | rotate (f g : String)
  | mixed (day : Nat) (b : Bytes)    -- a copy that reads a file while it is rotated exits with 0

def turn (e : Event) (n : Node) : Option Node :=
  match e with
  | .acts l => (step l n.sys).map fun s => { n with sys := s }
  | .rotate f g => match n.sys.files.lookup f with
    | some file =>
      if f = g then none
      else some ⟨{ n.sys with files := (n.sys.files.insert g file).erase f }, f :: g :: n.rotated⟩
    | none => none
  | .mixed day b => match n.sys.pc with
    | .copying f sig _ todo =>
      if f ∈ n.rotated then
        some { n with sys := { n.sys with puts := ⟨day, f, b⟩ :: n.sys.puts, pc := .record f sig todo } }
      else none
    | _ => none

def Node.init : Node := ⟨NodeLogs.init, []⟩

variable {n n' : Node} {s t : Sys} {l : Label} {e : Event} {f : String} {file : File} {b : Bytes} {rotated : List String}

/-- An object is stored whole or not at all: a failed copy that has stored one
has stored what a copy that succeeds could have. -/
def storesWhole (n : Node) : Event → Bool
  | .acts (.copyFails (some (_, b))) => match n.sys.pc with
    | .copying f _ size _ => f ∈ n.rotated ||
      decide (size ≤ b.length) && (n.sys.files.lookup f).any fun file => b.isPrefixOf file.content
    | _ => true
  | _ => true

/-! ## The objects of one file -/

/-- Of the files that no rotation has touched. -/
structure Grown (rotated : List String) (s : Sys) : Prop where
  /-- Every object is the start of its file. -/
  stored : ∀ p ∈ s.puts, p.name ∉ rotated →
    ∃ file, s.files.lookup p.name = some file ∧ p.bytes <+: file.content
  /-- A copy reads no less than has been stored. -/
  copying : ∀ f sig size todo, s.pc = .copying f sig size todo → f ∉ rotated →
    ∀ p ∈ s.puts, p.name = f → p.bytes.length ≤ size
  pairs : s.puts.Pairwise fun later earlier =>
    later.name ∉ rotated → later.name = earlier.name → earlier.bytes <+: later.bytes

/-- A command that stores nothing and does not begin a copy. -/
theorem Grown.go (hg : Grown rotated s) {pc : Pc} (hpc : ∀ f sig size todo, pc ≠ .copying f sig size todo)
    (seen : String → Option Sig) : Grown rotated { s with pc, seen } :=
  ⟨hg.stored, fun f sig size todo h => absurd h (hpc f sig size todo), hg.pairs⟩

/-- A file that is new, or longer. -/
theorem Grown.write (hg : Grown rotated s) {new : File}
    (hold : ∀ old, s.files.lookup f = some old → old.content <+: new.content) :
    Grown rotated { s with files := s.files.insert f new } := by
  refine ⟨fun p hp hrot => ?_, hg.copying, hg.pairs⟩
  obtain ⟨file, hfile, hpre⟩ := hg.stored p hp hrot
  by_cases hname : p.name = f
  · rw [hname] at hfile ⊢
    exact ⟨new, AList.lookup_insert _, hpre.trans (hold file hfile)⟩
  · exact ⟨file, (AList.lookup_insert_ne hname).trans hfile, hpre⟩

theorem Grown.put (hg : Grown rotated s) {sig : Sig} {size : Nat} {todo : List String}
    (hcopy : s.pc = .copying f sig size todo)
    (hwhole : f ∈ rotated ∨ ∃ file, s.files.lookup f = some file ∧ b <+: file.content ∧ size ≤ b.length)
    (day : Nat) {pc : Pc} (hpc : ∀ f sig size todo, pc ≠ .copying f sig size todo) :
    Grown rotated { s with puts := ⟨day, f, b⟩ :: s.puts, pc } := by
  refine ⟨fun p hp hrot => ?_, fun g sig' size' todo' h => absurd h (hpc g sig' size' todo'), ?_⟩
  · rcases List.mem_cons.mp hp with rfl | hp
    · obtain ⟨file, hfile, hpre, -⟩ := hwhole.resolve_left hrot
      exact ⟨file, hfile, hpre⟩
    · exact hg.stored p hp hrot
  · refine List.pairwise_cons.mpr ⟨fun p hp hrot hname => ?_, hg.pairs⟩
    have hname : f = p.name := hname
    obtain ⟨file, hfile, hpre, hsize⟩ := hwhole.resolve_left hrot
    obtain ⟨file', hfile', hpre'⟩ := hg.stored p hp (hname ▸ hrot)
    rw [← hname, hfile] at hfile'
    cases hfile'
    -- both are starts of the same file
    have hlen := (hg.copying f sig size todo hcopy hrot p hp hname.symm).trans hsize
    exact List.prefix_of_prefix_length_le hpre' hpre hlen

/-- What another rotation touches is left out from then on. -/
theorem Grown.rotate (hg : Grown rotated s) (g : String) (file : File) :
    Grown (f :: g :: rotated) { s with files := (s.files.insert g file).erase f } := by
  have hsub : ∀ {name : String}, name ∉ f :: g :: rotated → name ≠ f ∧ name ≠ g ∧ name ∉ rotated := by
    intro name h
    simpa [not_or] using h
  refine ⟨fun p hp hrot => ?_, fun name sig size todo hpc hrot => ?_, hg.pairs.imp fun h hrot => h (hsub hrot).2.2⟩
  · obtain ⟨hf, hg', hkept⟩ := hsub hrot
    obtain ⟨file', hfile, hpre⟩ := hg.stored p hp hkept
    exact ⟨file', by rw [AList.lookup_erase_ne hf, AList.lookup_insert_ne hg', hfile], hpre⟩
  · exact hg.copying name sig size todo hpc (hsub hrot).2.2

theorem grown_step (hg : Grown rotated s) (hok : storesWhole ⟨s, rotated⟩ (.acts l) = true)
    (h : step l s = some t) : Grown rotated t := by
  cases step_acts h with
  | create hn => exact hg.write fun old hl => by rw [hn] at hl; cases hl
  | @append f bs m file hl hm =>
    refine hg.write fun old hl' => ?_
    rw [hl] at hl'
    cases hl'
    exact List.prefix_append _ _
  | @copies f sig todo file hpc hl =>
    refine ⟨hg.stored, fun g sig' size todo' he hrot p hp hname => ?_, hg.pairs⟩
    cases he
    obtain ⟨file', hfile', hpre⟩ := hg.stored p hp (hname ▸ hrot)
    rw [hname, hl] at hfile'
    cases hfile'
    exact hpre.length_le
  | @copied f sig size todo day n file hpc hl hsz hn =>
    refine hg.put hpc (Or.inr ⟨file, hl, List.take_prefix n _, ?_⟩) day (by simp)
    rwa [List.length_take, Nat.min_eq_left hn]
  | @failsStored f sig size todo day b hpc =>
    simp only [storesWhole, hpc, Bool.or_eq_true, Bool.and_eq_true, decide_eq_true_iff] at hok
    refine hg.put hpc (hok.imp_right ?_) day (by simp)
    rintro ⟨hsize, hany⟩
    obtain ⟨file, hfile, hpre⟩ := (Option.any_eq_true _ _).mp hany
    exact ⟨file, hfile, List.isPrefixOf_iff_prefix.mp hpre, hsize⟩
  | _ => exact hg.go (by simp) _

theorem grown_turn (hg : Grown n.rotated n.sys) (hok : storesWhole n e = true) (h : turn e n = some n') :
    Grown n'.rotated n'.sys := by
  cases e with
  | acts l =>
    obtain ⟨t, ht, rfl⟩ := Option.map_eq_some_iff.mp h
    exact grown_step hg hok ht
  | rotate f g =>
    simp only [turn] at h
    split at h
    · split at h <;> cases h
      exact hg.rotate g _
    · cases h
  | mixed day b =>
    simp only [turn] at h
    split at h
    · next hpc =>
      split at h <;> cases h
      next hrot => exact hg.put hpc (Or.inl hrot) day (by simp)
    · cases h

/-- **A file's objects never go back.** In every run of the loop alone, whatever fails,
restarts or is stopped in between and whatever other files are rotated: what has been stored
for a file that is not rotated is the start of what the file holds, and extends
everything that was stored for it before, on whichever day. -/
theorem objects_extend (h : Reaches turn (fun n e => storesWhole n e = true) Node.init n) (hrot : f ∉ n.rotated) :
    (∀ p ∈ n.sys.puts, p.name = f → ∃ file, n.sys.files.lookup f = some file ∧ p.bytes <+: file.content) ∧
    (n.sys.puts.filter (·.name = f)).Pairwise fun later earlier => earlier.bytes <+: later.bytes := by
  have hg : Grown n.rotated n.sys := h.invariant (fun n => Grown n.rotated n.sys)
    ⟨by simp [Node.init, init], by simp [Node.init, init], List.Pairwise.nil⟩
    fun hg hok hs => grown_turn hg hok hs
  constructor
  · rintro p hp rfl
    exact hg.stored p hp hrot
  · refine List.pairwise_filter.mpr (hg.pairs.imp fun h hl he => ?_)
    have hl := of_decide_eq_true hl
    have he := of_decide_eq_true he
    exact h (hl ▸ hrot) (hl.trans he.symm)

/-- A GC log that is rotated while it is copied, an upload of another file whose
answer is lost, an append to it, and its upload on the next day. -/
def answerLost : List Event :=
  [.acts (.create "diag.log" [1, 2] 5), .acts (.create "gc-1.log" [7] 5), .acts .start] ++
  List.replicate 4 (.acts .next) ++
  [.rotate "gc-1.log" "gc-1.log.0", .acts (.create "gc-1.log" [8, 9] 6), .mixed 0 [7, 9], .acts .next] ++
  List.replicate 4 (.acts .next) ++
  [.acts (.copyFails (some (0, [1, 2]))), .acts (.append "diag.log" [3] 6), .acts .next, .acts .start] ++
  List.replicate 4 (.acts .next) ++ .acts (.copyFails none) ::
  List.replicate 4 (.acts .next) ++ .acts (.copyFails none) ::
  List.replicate 4 (.acts .next) ++ [.acts (.copied 1 3)]

theorem answerLost_extended : ∃ n, exec turn answerLost Node.init = some n ∧
    n.sys.puts = [⟨1, "diag.log", [1, 2, 3]⟩, ⟨0, "diag.log", [1, 2]⟩, ⟨0, "gc-1.log", [7, 9]⟩] ∧
    (n.sys.puts.filter (·.name = "diag.log")).Pairwise fun later earlier => earlier.bytes <+: later.bytes := by
  have hends : (exec turn answerLost Node.init).map (fun n => (n.sys.puts, n.rotated)) =
      some ([⟨1, "diag.log", [1, 2, 3]⟩, ⟨0, "diag.log", [1, 2]⟩, ⟨0, "gc-1.log", [7, 9]⟩],
        ["gc-1.log", "gc-1.log.0"]) := by decide +kernel
  obtain ⟨n, hn, hends⟩ := Option.map_eq_some_iff.mp hends
  obtain ⟨hputs, hrotated⟩ := Prod.mk.inj hends
  have hrot : "diag.log" ∉ n.rotated := by
    rw [hrotated]
    decide
  exact ⟨n, hn, hputs, (objects_extend (exec_reaches turn _ (by decide +kernel) hn) hrot).2⟩

end BigDataPlatform.NodeLogs
