import BigDataPlatform.PacketCapture.Snapshots

/-! # Snapshots are written complete

One file operation of capture.sh's loop a step, the hidden files included: a
block writes `.net-state-TS.tmp` or `.pods-TS.tmp` in pieces, `cp` refreshes the
annotator's pod map, and `mv` makes the snapshot visible. To the other
processes, which see visible names only, the loop publishes whole snapshots. -/
namespace BigDataPlatform.PacketCapture.Publication
open BigDataPlatform.Lib.Pack BigDataPlatform.Lib.FileSystem BigDataPlatform.Lib.Transition

/-- The hidden files of the loop, and the snapshots it publishes. -/
inductive LoopFile where
  | tmp (f : Snapshot)
  | latest                     -- `.pods-latest.jsonl`
  | shown (f : Snapshot)
deriving DecidableEq

/-- What capture.sh's loop does next. -/
inductive LoopPc where
  | asleep                                      -- `sleep 60 & wait $!`
  | opens (f : Snapshot)                        -- the block's redirection
  | writing (f : Snapshot) (fd : Nat) (out : Bytes)
  | test (f : Snapshot)                         -- `[ -s tmp ]`
  | copy (f : Snapshot)                         -- `cp tmp .pods-latest.jsonl`
  | copying (f : Snapshot) (src dst pos : Nat)
  | move (f : Snapshot)                         -- `mv tmp shown`
  | discard (f : Snapshot)                      -- `rm -f tmp`
deriving DecidableEq

structure Loop where
  fs : Fs LoopFile
  clock : Nat
  pc : LoopPc
  /-- What each block wrote that ended with status 0. -/
  wrote : List (Snapshot × Bytes)

inductive LoopChoice where
  | ok
  | fail
  | output (bs : Bytes)      -- the block's commands write these bytes
  | copied (k : Nat)         -- `cp` copies `k` more bytes

inductive LoopLabel where
  | tick (d : Nat)
  | run (c : LoopChoice)
  | kill                     -- the container is killed and restarted
  | remove (f : Snapshot)    -- an uploader's `rm -f`, or the cap's

def Loop.goto (s : Loop) (pc : LoopPc) : Loop := { s with pc }

/-- Where the loop goes when a command fails: the network state is skipped
(`&&`), a pod map's temporary file is removed (`||`). -/
def onFailure : Snapshot → LoopPc
  | .netState k => .opens (.pods k)
  | .pods k => .discard (.pods k)

/-- After the block: `mv`, or the test of the pod map. -/
def afterBlock : Snapshot → LoopPc
  | .netState k => .move (.netState k)
  | .pods k => .test (.pods k)

/-- After `mv`: the pod map of the same turn, or the sleep. -/
def afterMove : Snapshot → LoopPc
  | .netState k => .opens (.pods k)
  | .pods _ => .asleep

def loopNext (s : Loop) (c : LoopChoice) : Option Loop :=
  match s.pc with
  | .asleep => match c with
    | .ok => some (s.goto (.opens (.netState (s.clock / second))))    -- `TS=$(date ...)`
    | _ => none
  | .opens f => match c with
    | .ok => some { s with
        fs := s.fs.truncate (.tmp f) s.clock
        pc := .writing f (s.fs.openFd (.tmp f)) [] }
    | .fail => some (s.goto (onFailure f))
    | _ => none
  | .writing f fd out => match c with
    | .output bs => some { s with
        fs := s.fs.write fd out.length bs s.clock
        pc := .writing f fd (out ++ bs) }
    | .ok => some { s with pc := afterBlock f, wrote := s.wrote ++ [(f, out)] }
    | .fail => some (s.goto (onFailure f))
    | _ => none
  | .test f => match c with
    | .ok => some (s.goto (if (s.fs.read (.tmp f)).getD [] = [] then onFailure f else .copy f))
    | _ => none
  | .copy f => match c with
    | .ok => match s.fs.lookup (.tmp f) with
      | some src => some { s with
          fs := s.fs.truncate .latest s.clock
          pc := .copying f src (s.fs.openFd .latest) 0 }
      | none => none
    | .fail => some (s.goto (onFailure f))
    | _ => none
  | .copying f src dst pos => match c with
    | .copied k => some { s with
        fs := s.fs.write dst pos (((s.fs.node src).bytes.drop pos).take k) s.clock
        pc := .copying f src dst (pos + (((s.fs.node src).bytes.drop pos).take k).length) }
    | .ok => if pos = (s.fs.node src).bytes.length then some (s.goto (.move f)) else none
    | .fail => some (s.goto (onFailure f))
    | _ => none
  | .move f => match c with
    | .ok =>
      if (s.fs.lookup (.tmp f)).isSome then
        some { s with fs := s.fs.rename (.tmp f) (.shown f), pc := afterMove f }
      else none
    | .fail => some (s.goto (onFailure f))
    | _ => none
  | .discard f => match c with
    | .ok => some { s with fs := s.fs.unlink (.tmp f), pc := .asleep }
    | .fail => some (s.goto .asleep)
    | _ => none

def loopStep : LoopLabel → Loop → Option Loop
  | .tick d, s => some { s with clock := s.clock + d }
  | .run c, s => loopNext s c
  | .kill, s => some (s.goto .asleep)
  | .remove f, s => some { s with fs := s.fs.unlink (.shown f) }

def Loop.start (clock : Nat) : Loop where
  fs := Fs.empty
  clock := clock
  pc := .asleep
  wrote := []

/-! ## What one command does -/

/-- A command that fails leaves the files as they are. -/
inductive Fails : LoopPc → LoopPc → Prop
  | opens (f : Snapshot) : Fails (.opens f) (onFailure f)
  | writing (f : Snapshot) (fd : Nat) (out : Bytes) : Fails (.writing f fd out) (onFailure f)
  | copy (f : Snapshot) : Fails (.copy f) (onFailure f)
  | copying (f : Snapshot) (src dst pos : Nat) : Fails (.copying f src dst pos) (onFailure f)
  | move (f : Snapshot) : Fails (.move f) (onFailure f)
  | discard (f : Snapshot) : Fails (.discard f) .asleep

/-- `loopNext` with one case per behaviour. -/
inductive Does (s : Loop) : Loop → Prop
  | wakes : s.pc = .asleep → Does s (s.goto (.opens (.netState (s.clock / second))))
  | opens {f} : s.pc = .opens f → Does s
      { s with fs := s.fs.truncate (.tmp f) s.clock, pc := .writing f (s.fs.openFd (.tmp f)) [] }
  | output {f fd out} (bs : Bytes) : s.pc = .writing f fd out → Does s
      { s with fs := s.fs.write fd out.length bs s.clock, pc := .writing f fd (out ++ bs) }
  | ends {f fd out} : s.pc = .writing f fd out → Does s
      { s with pc := afterBlock f, wrote := s.wrote ++ [(f, out)] }
  | empty {f} : s.pc = .test f → Does s (s.goto (onFailure f))
  | tested {f} : s.pc = .test f → (s.fs.read (.tmp f)).getD [] ≠ [] → Does s (s.goto (.copy f))
  | copies {f src} : s.pc = .copy f → s.fs.lookup (.tmp f) = some src → Does s
      { s with fs := s.fs.truncate .latest s.clock, pc := .copying f src (s.fs.openFd .latest) 0 }
  | copied {f src dst pos} (bs : Bytes) : s.pc = .copying f src dst pos → Does s
      { s with fs := s.fs.write dst pos bs s.clock, pc := .copying f src dst (pos + bs.length) }
  | copyEnds {f src dst pos} : s.pc = .copying f src dst pos → Does s (s.goto (.move f))
  | moves {f i} : s.pc = .move f → s.fs.lookup (.tmp f) = some i → Does s
      { s with fs := s.fs.rename (.tmp f) (.shown f), pc := afterMove f }
  | discards {f} : s.pc = .discard f → Does s { s with fs := s.fs.unlink (.tmp f), pc := .asleep }
  | fails {pc} : Fails s.pc pc → Does s (s.goto pc)

/-- **Inversion of one command.** -/
theorem loopNext_does {s t : Loop} {c : LoopChoice} (h : loopNext s c = some t) : Does s t := by
  unfold loopNext at h
  split at h
  case h_1 hpc => split at h <;> cases h; exact .wakes hpc
  case h_2 f hpc =>
    split at h <;> cases h
    · exact .opens hpc
    · exact .fails (hpc ▸ .opens f)
  case h_3 f fd out hpc =>
    split at h <;> cases h
    · exact .output _ hpc
    · exact .ends hpc
    · exact .fails (hpc ▸ .writing f fd out)
  case h_4 f hpc =>
    split at h <;> cases h
    split
    · exact .empty hpc
    · next hne => exact .tested hpc hne
  case h_5 f hpc =>
    split at h
    · split at h <;> cases h
      next src hl => exact .copies hpc hl
    · cases h; exact .fails (hpc ▸ .copy f)
    · cases h
  case h_6 f src dst pos hpc =>
    split at h
    · cases h; exact .copied _ hpc
    · split at h <;> cases h
      exact .copyEnds hpc
    · cases h; exact .fails (hpc ▸ .copying f src dst pos)
    · cases h
  case h_7 f hpc =>
    split at h
    · split at h
      · next hl =>
        obtain ⟨i, hi⟩ := Option.isSome_iff_exists.mp hl
        cases h
        exact .moves hpc hi
      · cases h
    · cases h; exact .fails (hpc ▸ .move f)
    · cases h
  case h_8 f hpc =>
    split at h <;> cases h
    · exact .discards hpc
    · exact .fails (hpc ▸ .discard f)

/-! ## The loop as the other processes see it -/

/-- The visible snapshots and their bytes. -/
abbrev Visible := Snapshot → Option Bytes

def Loop.visible (s : Loop) : Visible := fun f => s.fs.read (.shown f)

inductive Event where
  | publish (f : Snapshot) (b : Bytes)
  | remove (f : Snapshot)

def Event.apply (v : Visible) : Event → Visible
  | .publish f b => Function.update v f (some b)
  | .remove f => Function.update v f none

/-- What these events leave of an empty directory. -/
def after (es : List Event) : Visible := es.foldl Event.apply fun _ => none

/-- The event as an operation on the directory the uploaders share: the label
`publish` of the system, or a removal. -/
def Event.onEnv (env : Env) : Event → Env
  | .publish f b =>
    (env.apply (.truncate (.snapshot f))).apply (.write (env.fs.openFd (.snapshot f)) 0 b)
  | .remove f => env.apply (.unlink [.snapshot f])

theorem onEnv_visible (env : Env) (e : Event) :
    (fun f => (e.onEnv env).fs.read (.snapshot f)) = e.apply fun f => env.fs.read (.snapshot f) := by
  funext g
  cases e with
  | publish f b =>
    rw [Event.apply, Function.update_apply]
    split
    · next h => subst h; exact publish_read ..
    · next h =>
      have hne : FileName.snapshot g ≠ .snapshot f := fun he => h (FileName.snapshot.inj he)
      have hopened : (env.fs.truncate (.snapshot f) env.clock).lookup (.snapshot f)
          = some (env.fs.openFd (.snapshot f)) := (Fs.lookup_truncate ..).trans (if_pos rfl)
      exact (Fs.read_write_ne _ _ _ hopened hne).trans (Fs.read_truncate_ne _ hne)
  | remove f =>
    rw [Event.apply, Function.update_apply]
    refine (Fs.read_unlink ..).trans ?_
    simp only [FileName.snapshot.injEq]

theorem foldl_onEnv_visible (es : List Event) (env : Env) :
    (fun f => (es.foldl Event.onEnv env).fs.read (.snapshot f)) =
      es.foldl Event.apply fun f => env.fs.read (.snapshot f) := by
  induction es generalizing env with
  | nil => rfl
  | cons e es ih => rw [List.foldl_cons, List.foldl_cons, ih, onEnv_visible]

def published (es : List Event) : List (Snapshot × Bytes) :=
  es.filterMap fun e => match e with | .publish f b => some (f, b) | .remove _ => none

/-- The temporary file of `f` holds the whole output of the last block, which
has not been published. -/
def Ready (es : List Event) (fs : Fs LoopFile) (wrote : List (Snapshot × Bytes)) (f : Snapshot)
    (b : Bytes) : Prop :=
  ∃ earlier, wrote = earlier ++ [(f, b)] ∧ (published es).Sublist earlier ∧ fs.read (.tmp f) = some b

/-- A pod map's `mv` comes after `[ -s ]`. -/
def Tested (f : Snapshot) (b : Bytes) : Prop := ∀ k, f = .pods k → b ≠ []

def At (es : List Event) (fs : Fs LoopFile) (wrote : List (Snapshot × Bytes)) : LoopPc → Prop
  | .writing f fd out =>
    fs.lookup (.tmp f) = some fd ∧ (fs.node fd).bytes = out ∧ (published es).Sublist wrote
  | .test f => ∃ b, Ready es fs wrote f b
  | .copy f | .move f => ∃ b, Ready es fs wrote f b ∧ Tested f b
  | .copying f _ dst _ => fs.lookup .latest = some dst ∧ ∃ b, Ready es fs wrote f b ∧ Tested f b
  | _ => (published es).Sublist wrote

structure Refines (es : List Event) (s : Loop) : Prop where
  visible : s.visible = after es
  tested : ∀ f b, (f, b) ∈ published es → Tested f b
  here : At es s.fs s.wrote s.pc

variable {es : List Event} {s t : Loop} {f : Snapshot} {fs : Fs LoopFile} {b : Bytes}
  {wrote : List (Snapshot × Bytes)}

theorem Ready.sublist (h : Ready es fs wrote f b) : (published es).Sublist wrote := by
  obtain ⟨earlier, rfl, hsub, _⟩ := h
  exact hsub.trans (List.sublist_append_left _ _)

/-- Whatever the loop does, each publication so far is of a finished block. -/
theorem At.sublist {pc : LoopPc} (h : At es fs wrote pc) : (published es).Sublist wrote := by
  cases pc with
  | writing f fd out => exact h.2.2
  | test f => exact h.choose_spec.sublist
  | copy f => exact h.choose_spec.1.sublist
  | move f => exact h.choose_spec.1.sublist
  | copying f src dst pos => exact h.2.choose_spec.1.sublist
  | _ => exact h

theorem Ready.frame {fs' : Fs LoopFile} (h : Ready es fs wrote f b)
    (hr : fs'.read (.tmp f) = fs.read (.tmp f)) : Ready es fs' wrote f b := by
  obtain ⟨earlier, hw, hsub, hb⟩ := h
  exact ⟨earlier, hw, hsub, hr.trans hb⟩

theorem at_onFailure (h : (published es).Sublist wrote) (f : Snapshot) :
    At es fs wrote (onFailure f) := by
  cases f <;> exact h

theorem after_concat (es : List Event) (e : Event) : after (es ++ [e]) = e.apply (after es) := by
  simp [after]

/-- A step that no other process sees. -/
theorem Refines.hidden (h : Refines es s) (hv : t.visible = s.visible)
    (hat : At es t.fs t.wrote t.pc) : Refines es t :=
  ⟨hv.trans h.visible, h.tested, hat⟩

/-! ## One step -/

theorem tmp_ne_latest (f : Snapshot) : LoopFile.tmp f ≠ .latest := nofun

theorem shown_ne_latest (f : Snapshot) : LoopFile.shown f ≠ .latest := nofun

theorem shown_ne_tmp (f g : Snapshot) : LoopFile.shown f ≠ .tmp g := nofun

theorem visible_truncate {n : LoopFile} (hn : ∀ f, .shown f ≠ n) (now : Nat) (pc : LoopPc) :
    Loop.visible { s with fs := s.fs.truncate n now, pc } = s.visible :=
  funext fun f => Fs.read_truncate_ne now (hn f)

theorem visible_write {n : LoopFile} {i : Nat} (hl : s.fs.lookup n = some i) (hn : ∀ f, .shown f ≠ n)
    (pos now : Nat) (bs : Bytes) (pc : LoopPc) :
    Loop.visible { s with fs := s.fs.write i pos bs now, pc } = s.visible :=
  funext fun f => Fs.read_write_ne pos now bs hl (hn f)

/-- A block's output, in its temporary file and nowhere else. -/
theorem refines_output {fd : Nat} {out : Bytes} (h : Refines es s) (hpc : s.pc = .writing f fd out)
    (bs : Bytes) :
    Refines es { s with fs := s.fs.write fd out.length bs s.clock, pc := .writing f fd (out ++ bs) } := by
  obtain ⟨hl, hb, hsub⟩ : At es s.fs s.wrote (.writing f fd out) := hpc ▸ h.here
  refine h.hidden (visible_write hl (fun _ => shown_ne_tmp _ _) _ _ _ _) ⟨hl, ?_, hsub⟩
  rw [Fs.node_write, if_pos rfl, hb]
  exact Fs.writeAt_length out bs

/-- The block has ended: what it wrote is in its temporary file. -/
theorem refines_ends {fd : Nat} {out : Bytes} (h : Refines es s) (hpc : s.pc = .writing f fd out) :
    Refines es { s with pc := afterBlock f, wrote := s.wrote ++ [(f, out)] } := by
  obtain ⟨hl, hb, hsub⟩ : At es s.fs s.wrote (.writing f fd out) := hpc ▸ h.here
  have hready : Ready es s.fs (s.wrote ++ [(f, out)]) f out :=
    ⟨s.wrote, rfl, hsub, (Fs.read_of_lookup hl).trans (congrArg some hb)⟩
  refine h.hidden rfl ?_
  cases f with
  | netState k => exact ⟨out, hready, nofun⟩
  | pods k => exact ⟨out, hready⟩

/-- **`mv` publishes the block's whole output.** -/
theorem refines_moves {i : Nat} (h : Refines es s) (hpc : s.pc = .move f)
    (hl : s.fs.lookup (.tmp f) = some i) :
    ∃ b, Refines (es ++ [.publish f b])
      { s with fs := s.fs.rename (.tmp f) (.shown f), pc := afterMove f } := by
  obtain ⟨b, ⟨earlier, hw, hsub, hb⟩, htested⟩ : At es s.fs s.wrote (.move f) := hpc ▸ h.here
  have hbytes : (s.fs.node i).bytes = b := Option.some.inj ((Fs.read_of_lookup hl).symm.trans hb)
  have hpub : published (es ++ [.publish f b]) = published es ++ [(f, b)] := by simp [published]
  have hsub' : (published (es ++ [.publish f b])).Sublist s.wrote := by
    rw [hpub, hw]
    exact hsub.append (List.Sublist.refl _)
  refine ⟨b, ?_, ?_, ?_⟩
  · rw [after_concat, ← h.visible]
    funext g
    show (s.fs.rename (.tmp f) (.shown f)).read (.shown g) = Function.update s.visible f (some b) g
    rw [Fs.read_rename _ _ hl, hbytes, if_neg (shown_ne_tmp g f),
      Function.update_apply]
    simp only [LoopFile.shown.injEq]
    rfl
  · intro g c hg
    rw [hpub, List.mem_append, List.mem_singleton] at hg
    rcases hg with hg | hg
    · exact h.tested g c hg
    · cases hg
      exact htested
  · cases f <;> exact hsub'

theorem does_refines (h : Refines es s) (hd : Does s t) :
    Refines es t ∨ ∃ e, Refines (es ++ [e]) t := by
  have hsub := h.here.sublist
  have hat : ∀ {pc}, s.pc = pc → At es s.fs s.wrote pc := fun hpc => hpc ▸ h.here
  cases hd with
  | wakes _ => exact Or.inl (h.hidden rfl hsub)
  | opens hpc =>
    refine Or.inl (h.hidden (visible_truncate (fun _ => shown_ne_tmp _ _) _ _) ⟨?_, ?_, hsub⟩)
    · exact (Fs.lookup_truncate ..).trans (if_pos rfl)
    · rw [Fs.node_truncate, if_pos rfl]
  | output bs hpc => exact Or.inl (refines_output h hpc bs)
  | ends hpc => exact Or.inl (refines_ends h hpc)
  | empty hpc => exact Or.inl (h.hidden rfl (at_onFailure hsub _))
  | tested hpc hne =>
    obtain ⟨b, hready⟩ := hat hpc
    obtain ⟨_, _, _, hb⟩ := id hready
    rw [hb] at hne
    exact Or.inl (h.hidden rfl ⟨b, hready, fun _ _ => hne⟩)
  | copies hpc hl =>
    obtain ⟨b, hready, htested⟩ := hat hpc
    refine Or.inl (h.hidden (visible_truncate shown_ne_latest _ _) ⟨?_, b, hready.frame ?_, htested⟩)
    · exact (Fs.lookup_truncate ..).trans (if_pos rfl)
    · exact Fs.read_truncate_ne _ (tmp_ne_latest _)
  | copied bs hpc =>
    obtain ⟨hdst, b, hready, htested⟩ := hat hpc
    refine Or.inl (h.hidden (visible_write hdst shown_ne_latest _ _ _ _) ⟨hdst, b, hready.frame ?_, htested⟩)
    exact Fs.read_write_ne _ _ _ hdst (tmp_ne_latest _)
  | copyEnds hpc => exact Or.inl (h.hidden rfl (hat hpc).2)
  | moves hpc hl =>
    obtain ⟨b, hb⟩ := refines_moves h hpc hl
    exact Or.inr ⟨_, hb⟩
  | discards hpc =>
    refine Or.inl (h.hidden (funext fun f => ?_) hsub)
    exact (Fs.read_unlink ..).trans (if_neg (shown_ne_tmp _ _))
  | fails hf =>
    refine Or.inl (h.hidden rfl ?_)
    generalize s.pc = pc at hf
    cases hf <;> first | exact at_onFailure hsub _ | exact hsub

/-- An uploader or the cap takes a snapshot; the loop's own files stay. -/
theorem refines_remove (h : Refines es s) (f : Snapshot) :
    Refines (es ++ [.remove f]) { s with fs := s.fs.unlink (.shown f) } := by
  have hpub : published (es ++ [.remove f]) = published es := by simp [published]
  have hkeep : ∀ n, n ≠ .shown f → (s.fs.unlink (.shown f)).lookup n = s.fs.lookup n :=
    fun n hn => (Fs.lookup_unlink ..).trans (if_neg hn)
  have hsub : (published (es ++ [.remove f])).Sublist s.wrote := hpub ▸ h.here.sublist
  have hready : ∀ {g b}, Ready es s.fs s.wrote g b →
      Ready (es ++ [.remove f]) (s.fs.unlink (.shown f)) s.wrote g b := by
    rintro g b ⟨earlier, hw, hsub, hb⟩
    exact ⟨earlier, hw, hpub ▸ hsub, ((Fs.read_unlink ..).trans (if_neg nofun)).trans hb⟩
  refine ⟨?_, hpub ▸ h.tested, ?_⟩
  · rw [after_concat, ← h.visible]
    funext g
    show (s.fs.unlink (.shown f)).read (.shown g) = Function.update s.visible f none g
    rw [Fs.read_unlink, Function.update_apply]
    simp only [LoopFile.shown.injEq]
    rfl
  · have hhere := h.here
    dsimp only
    generalize s.pc = pc at hhere
    cases pc with
    | writing g fd out => exact ⟨(hkeep (.tmp g) nofun).trans hhere.1, hhere.2.1, hpub ▸ hhere.2.2⟩
    | test g =>
      obtain ⟨b, hb⟩ := hhere
      exact ⟨b, hready hb⟩
    | copy g =>
      obtain ⟨b, hb, ht⟩ := hhere
      exact ⟨b, hready hb, ht⟩
    | move g =>
      obtain ⟨b, hb, ht⟩ := hhere
      exact ⟨b, hready hb, ht⟩
    | copying g src dst pos =>
      obtain ⟨hdst, b, hb, ht⟩ := hhere
      exact ⟨(hkeep .latest nofun).trans hdst, b, hready hb, ht⟩
    | _ => exact hsub

theorem loopStep_refines {l : LoopLabel} (h : Refines es s) (hs : loopStep l s = some t) :
    Refines es t ∨ ∃ e, Refines (es ++ [e]) t := by
  cases l with
  | tick d =>
    cases hs
    exact Or.inl (h.hidden rfl h.here)
  | run c => exact does_refines h (loopNext_does hs)
  | kill =>
    cases hs
    exact Or.inl (h.hidden rfl h.here.sublist)
  | remove f =>
    cases hs
    exact Or.inr ⟨_, refines_remove h f⟩

/-- **capture.sh publishes whole snapshots.** Whatever fails, wherever the
container is killed and restarted and whenever a snapshot is taken away, the
other processes see what the system's atomic publications and removals leave;
the publications are, in order, outputs of blocks that ran to their end, and a
published pod map is not empty. -/
theorem captureLoop_refines {clock : Nat} (h : Reaches loopStep anyStep (Loop.start clock) s) :
    ∃ es, (∀ env : Env, (∀ f, env.fs.read (.snapshot f) = none) →
        ∀ f, s.fs.read (.shown f) = (es.foldl Event.onEnv env).fs.read (.snapshot f)) ∧
      (published es).Sublist s.wrote ∧ ∀ k b, (.pods k, b) ∈ published es → b ≠ [] := by
  obtain ⟨es, hr⟩ := h.invariant (fun s => ∃ es, Refines es s)
    ⟨[], rfl, nofun, List.Sublist.refl _⟩ fun ⟨es, hr⟩ _ hs => by
      rcases loopStep_refines hr hs with hr | ⟨e, hr⟩
      · exact ⟨es, hr⟩
      · exact ⟨es ++ [e], hr⟩
  refine ⟨es, fun env hnone f => ?_, hr.here.sublist, fun k b hb => hr.tested _ b hb k rfl⟩
  have hempty : (fun f => env.fs.read (.snapshot f)) = fun _ => none := funext hnone
  have hafter := congrFun (foldl_onEnv_visible es env) f
  rw [hempty] at hafter
  exact (congrFun hr.visible f).trans hafter.symm

/-- Both blocks of a turn, the container killed before the pod map's `mv`. -/
def killedTurn : List LoopLabel :=
  [.run .ok, .run .ok, .run (.output [1]), .run (.output [2]), .run .ok, .run .ok, .run .ok,
    .run (.output [3]), .run .ok, .run .ok, .run .ok, .run (.copied 1), .run .ok, .kill]

theorem killedTurn_refines : ∃ s, exec loopStep killedTurn (Loop.start 0) = some s ∧
    s.fs.read (.shown (.netState 0)) = some [1, 2] ∧ s.fs.read (.shown (.pods 0)) = none ∧
    ∃ es, (published es).Sublist [(.netState 0, [1, 2]), (.pods 0, [3])] ∧
      s.fs.read (.shown (.netState 0)) =
        (es.foldl Event.onEnv ⟨Fs.empty, fun _ => none, 0⟩).fs.read (.snapshot (.netState 0)) := by
  obtain ⟨s, hs, hp⟩ := (Option.any_eq_true
    (fun s : Loop => s.fs.read (.shown (.netState 0)) = some [1, 2] ∧
      s.fs.read (.shown (.pods 0)) = none ∧ s.wrote = [(.netState 0, [1, 2]), (.pods 0, [3])])
    (exec loopStep killedTurn (Loop.start 0))).mp (by decide +kernel)
  obtain ⟨hnet, hpods, hwrote⟩ := of_decide_eq_true hp
  obtain ⟨es, hvis, hsub, _⟩ :=
    captureLoop_refines (exec_reaches loopStep anyStep (along_anyStep _ _) hs)
  exact ⟨s, hs, hnet, hpods, es, hwrote ▸ hsub, hvis _ (fun _ => rfl) _⟩

end BigDataPlatform.PacketCapture.Publication
