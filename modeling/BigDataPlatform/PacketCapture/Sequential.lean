import BigDataPlatform.PacketCapture.Moves
import BigDataPlatform.PacketCapture.ShipCapture

/-! # ship_capture as a segment of the system

Undisturbed, one uploader's commands from `ship_capture` on take the shared
files and the bucket exactly where the sequential `shipCapture` says: the two
models of the function are one. -/
namespace BigDataPlatform.PacketCapture
open BigDataPlatform.Lib.Pack BigDataPlatform.Lib.FileSystem BigDataPlatform.Lib.Transition
open BigDataPlatform.PcapAnnotate

variable {cfg : Config} {s : Sys} {w : Who} {x : Nat} {names : Names} {input : Bytes}

/-- Steps of `w` alone lead to these files, with `w` at `pc`. -/
def Goes (cfg : Config) (w : Who) (s : Sys) (env : Env) (pc : Pc) : Prop :=
  ∃ t, Reaches (step cfg) (fun _ l => ∃ c, l = .run w c) s t ∧ t.env = env ∧ (t.up w).pc = pc

theorem Goes.here {env : Env} {pc : Pc} (henv : s.env = env) (hpc : (s.up w).pc = pc) :
    Goes cfg w s env pc := ⟨s, .refl, henv, hpc⟩

theorem Goes.trans {env env' : Env} {pc pc' : Pc} (h : Goes cfg w s env pc)
    (h' : ∀ t : Sys, t.env = env → (t.up w).pc = pc → Goes cfg w t env' pc') :
    Goes cfg w s env' pc' := by
  obtain ⟨t, ht, henv, hpc⟩ := h
  obtain ⟨u, hu, henv', hpc'⟩ := h' t henv hpc
  exact ⟨u, ht.trans hu, henv', hpc'⟩

/-- One command. -/
theorem Goes.command {c : Choice} {e : Effect} {pc : Pc}
    (h : next cfg s.env (s.up w) c = some (e, (s.up w).goto pc)) :
    Goes cfg w s (s.env.apply e) pc := by
  refine ⟨{ s with
    env := s.env.apply e, up := Function.update s.up w ((s.up w).goto pc) },
    .single ⟨.run w c, ⟨c, rfl⟩, ?_⟩, rfl, by simp [Uploader.goto]⟩
  simp only [step, h]

theorem next_of_copies {env : Env} {u : Uploader} {n : FileName} {done otherwise : Pc}
    (h : Copies u.pc n done otherwise) (c : Choice) :
    next cfg env u c = copy env u n done otherwise c := by
  generalize hpc : u.pc = pc at h
  cases h <;> simp only [next, hpc]

theorem next_of_removes {env : Env} {u : Uploader} {n : FileName} {after : Pc}
    (h : Removes u.pc n after) : next cfg env u .ok = some (.unlink [n], u.goto after) := by
  generalize hpc : u.pc = pc at h
  cases h <;> simp only [next, hpc]

/-- `upload`: the copy and, when it succeeds, the removal. -/
theorem goes_upload {n : FileName} {done otherwise after : Pc} (ok : Bool)
    (hc : Copies (s.up w).pc n done otherwise) (hr : Removes done n after) :
    Goes cfg w s (s.env.upload ok n).1 (if (s.env.upload ok n).2 then after else otherwise) := by
  unfold Env.upload
  split
  · next h =>
    have hl : (s.env.fs.lookup n).isSome := by simpa [Fs.read] using h.2
    have hput : next cfg s.env (s.up w) .ok = some (.put n, (s.up w).goto done) := by
      rw [next_of_copies hc, copy, if_pos hl]
    refine (Goes.command hput).trans fun t henv hpc => ?_
    rw [← henv]
    exact Goes.command (next_of_removes (hpc ▸ hr))
  · have hfail : next cfg s.env (s.up w) (.uploadFails false) =
        some (.none, (s.up w).goto otherwise) := by
      rw [next_of_copies hc]; rfl
    exact Goes.command hfail

/-- The annotator's output, flushed in one write. -/
theorem goes_written {o : Outcome} {out : Bytes} (hpc : (s.up w).pc = .convert x o)
    (hout : o.tmp = some out) :
    Goes cfg w s ((s.env.apply (.truncate (.pcapngTmp x))).apply
        (.write (s.env.fs.openFd (.pcapngTmp x)) 0 out))
      (.writing x (s.env.fs.openFd (.pcapngTmp x)) out.length out (o.exitStatus = 0)) := by
  have hopen : next cfg s.env (s.up w) .ok = some (.truncate (.pcapngTmp x),
      (s.up w).goto (.writing x (s.env.fs.openFd (.pcapngTmp x)) 0 out (o.exitStatus = 0))) := by
    simp only [next, hpc, hout]
  refine (Goes.command hopen).trans fun t henv htpc => ?_
  have hwrite : next cfg t.env (t.up w) (.chunk out.length) =
      some (.write (s.env.fs.openFd (.pcapngTmp x)) 0 out, (t.up w).goto
        (.writing x (s.env.fs.openFd (.pcapngTmp x)) out.length out (o.exitStatus = 0))) := by
    simp [next, htpc]
  rw [← henv]
  exact Goes.command hwrite

theorem goes_annotator (names : Names) (hpc : (s.up w).pc = .annotate x) (hin : s.env.fs.read (.pcap x) = some input) :
    Goes cfg w s (s.env.annotator names x).1
      (if (s.env.annotator names x).2 then .shipNg x else .failed x) := by
  simp only [Env.annotator, hin]
  generalize ho : main (FileName.pcap x).path names input = o
  have hread : next cfg s.env (s.up w) (.names names) =
      some (.none, (s.up w).goto (.convert x o)) := by
    simp only [next, hpc, hin, ho]
  refine (Goes.command hread).trans fun t ht htpc => ?_
  replace ht : t.env = s.env := ht
  rw [← ht]
  cases hout : o.tmp with
  | none =>
    have hrefuse : next cfg t.env (t.up w) .ok = some (.none, (t.up w).goto (.failed x)) := by
      simp only [next, htpc, hout]
    exact Goes.command hrefuse
  | some out =>
    by_cases h0 : o.exitStatus = 0
    · simp only [h0, if_true]
      refine (goes_written htpc hout).trans fun u hu hupc => ?_
      have htmp : (u.env.fs.lookup (.pcapngTmp x)).isSome := by
        simp [hu, Env.apply, Fs.lookup_write, Fs.lookup_truncate]
      have hrename : next cfg u.env (u.up w) .ok =
          some (.rename (.pcapngTmp x) (.pcapng x), (u.up w).goto (.shipNg x)) := by
        simp [next, hupc, h0, htmp]
      rw [← hu]
      exact Goes.command hrename
    · simp only [h0, if_false, Bool.false_eq_true]
      refine (goes_written htpc hout).trans fun u hu hupc => ?_
      have hfail : next cfg u.env (u.up w) .fail = some (.none, (u.up w).goto (.failed x)) := by
        simp only [next, hupc]
      rw [← hu]
      exact Goes.command hfail

/-- After the annotator: the pcapng and then the capture, or the capture alone. -/
theorem goes_shipped (ok uploadOk : Bool)
    (hpc : (s.up w).pc = if ok then .shipNg x else .failed x) :
    Goes cfg w s
      (if ok then
        if (s.env.upload uploadOk (.pcapng x)).2 then
          (s.env.upload uploadOk (.pcapng x)).1.apply (.unlink [.pcap x])
        else (s.env.upload uploadOk (.pcapng x)).1
      else ((s.env.apply (.unlink [.pcapng x])).upload uploadOk (.pcap x)).1) .captures := by
  cases ok with
  | true =>
    simp only [if_true] at hpc ⊢
    have hc : Copies (s.up w).pc (.pcapng x) (.removeNg x) .captures := hpc ▸ .ng x
    refine (goes_upload uploadOk hc (.ng x)).trans fun t henv htpc => ?_
    split at htpc
    · next hdone =>
      rw [if_pos hdone, ← henv]
      exact Goes.command (next_of_removes (htpc ▸ .pcap x))
    · next hdone => exact .here (by rw [if_neg hdone, henv]) htpc
  | false =>
    simp only [Bool.false_eq_true, if_false] at hpc ⊢
    have hr : Removes (s.up w).pc (.pcapng x) (.shipPcap x) := hpc ▸ .failed x
    refine (Goes.command (next_of_removes hr)).trans fun t henv htpc => ?_
    have hc : Copies (t.up w).pc (.pcap x) (.removePcap x) .captures := htpc ▸ .pcap x
    rw [← henv]
    refine (goes_upload uploadOk hc (.pcap x)).trans fun u hu hupc => ?_
    exact .here hu (by rw [hupc, ite_self])

/-- **The sequential `ship_capture` is a segment of the system.** -/
theorem goes_shipCapture (hpc : (s.up w).pc = .annotate x)
    (hin : s.env.fs.read (.pcap x) = some input) (podsLatest uploadOk : Bool) :
    Goes cfg w s (s.env.shipCapture podsLatest names uploadOk x) .captures := by
  cases podsLatest with
  | true =>
    refine (goes_annotator names hpc hin).trans fun t henv htpc => ?_
    have hgo : Goes cfg w t _ .captures := goes_shipped _ uploadOk htpc
    rwa [henv] at hgo
  | false =>
    have hfail : next cfg s.env (s.up w) .fail = some (.none, (s.up w).goto (.failed x)) := by
      simp only [next, hpc]
    refine (Goes.command hfail).trans fun t henv htpc => ?_
    have hgo : Goes cfg w t _ .captures := goes_shipped false uploadOk htpc
    rwa [henv] at hgo

end BigDataPlatform.PacketCapture
