import BigDataPlatform.InitJobs.CatalogBody
import BigDataPlatform.Lib.CreateOnce

/-! # gravitino-init

The Job's script against a server that is not part of this repository.
Attempts are killed, retried and may overlap; a request may be answered late,
with an error, or not at all; others use the server too. What the script relies
on of the server is `Server.Creates`. -/
namespace BigDataPlatform.GravitinoInit
open Lib.Transition Lib.CreateOnce

/-! ## The server -/

inductive Resource where
  | metalake
  | catalog
deriving DecidableEq

structure Request where
  resource : Resource
  body : Body
deriving DecidableEq

/-- What there is under the names that the script uses, as it was created. -/
abbrev Store := Resource → Option Body

structure Server where
  State : Type
  holds : State → Store
  carriedOut : Request → State → State
  answer : Request → State → Nat

/-- `[ "$HTTP" != "200" ] && [ "$HTTP" != "409" ]`. -/
def unexpected (http : Nat) : Bool := http ≠ 200 && http ≠ 409

/-- What the two answers that the script expects say, and what a request to
create does. -/
structure Server.Creates (server : Server) : Prop where
  ok : ∀ r σ, server.answer r σ = 200 → (server.holds (server.carriedOut r σ) r.resource).isSome
  /-- 409 = already exists. -/
  conflict : ∀ r σ, server.answer r σ = 409 → (server.holds σ r.resource).isSome
  /-- A catalog is in a metalake. -/
  within : ∀ σ, (server.holds σ .catalog).isSome → (server.holds σ .metalake).isSome
  keeps : ∀ r σ, Keeps (server.holds σ) (server.holds (server.carriedOut r σ))
  makes : ∀ r σ k b, server.holds (server.carriedOut r σ) k = some b →
    server.holds σ k = some b ∨ k = r.resource ∧ b = r.body

/-! ## The script -/

/-- The curl that runs, or the exit status. -/
inductive Pc where
  | posts (resource : Resource)
  | exited (status : Nat)
deriving DecidableEq

/-- A run of the script, with what `sed` leaves in its `/tmp/catalog.json`. -/
structure Attempt where
  body : Body
  pc : Pc

def metalakeRequest : Request :=
  ⟨.metalake, ["\x7b\"name\":\"enterprise_metalake\",\"comment\":\"Primary data lake\"\x7d".toList]⟩

def Attempt.catalogRequest (a : Attempt) : Request := ⟨.catalog, a.body⟩

/-- After a `curl` that is answered as expected. -/
def Attempt.created (a : Attempt) : Resource → Attempt × List Request
  | .metalake => ({ a with pc := .posts .catalog }, [a.catalogRequest])
  | .catalog => ({ a with pc := .exited 0 }, [])

/-- From one `curl` to the next, or to the end. -/
def Attempt.next (a : Attempt) (resource : Resource) (http : Nat) : Attempt × List Request :=
  if unexpected http then ({ a with pc := .exited 1 }, []) else a.created resource

/-! ## The system -/

structure Sys (server : Server) where
  state : server.State
  attempts : Nat → Option Attempt
  /-- Requests on their way, each with the attempt that waits for its answer. -/
  sent : List (Nat × Request)

variable {server : Server}

def Sys.begin (σ : server.State) : Sys server := ⟨σ, fun _ => none, []⟩

def Sys.store (s : Sys server) : Store := server.holds s.state

/-- An answer reaches an attempt that waits for it, and no other. -/
def Sys.deliver (s : Sys server) (i : Nat) (r : Request) (http : Nat) : Sys server :=
  match s.attempts i with
  | some a =>
    if a.pc = .posts r.resource then
      { s with
        attempts := Function.update s.attempts i (some (a.next r.resource http).1)
        sent := s.sent ++ (a.next r.resource http).2.map (i, ·) }
    else s
  | none => s

inductive Label (server : Server) where
  /-- The Job's pod, or one that replaces it, starts its container. -/
  | start (i : Nat) (body : Body)
  | answers (i : Nat) (r : Request)
  /-- Another status, whether or not the request was carried out. -/
  | errs (i : Nat) (r : Request) (http : Nat) (applied : Bool)
  /-- The request, or the answer to it, is lost. -/
  | loses (i : Nat) (r : Request) (applied : Bool)
  /-- curl or sed fails, which ends a script under `set -e`, or the container is killed. -/
  | stops (i : Nat) (status : Nat)
  /-- Whatever else there is changes what the server holds. -/
  | others (σ : server.State)

def Sys.take (s : Sys server) (i : Nat) (r : Request) (applied : Bool) : Sys server :=
  { s with
    state := if applied then server.carriedOut r s.state else s.state
    sent := s.sent.erase (i, r) }

def step : Label server → Sys server → Option (Sys server)
  | .start i body, s =>
    if (s.attempts i).isNone then
      some { s with
        attempts := Function.update s.attempts i (some ⟨body, .posts .metalake⟩)
        sent := s.sent ++ [(i, metalakeRequest)] }
    else none
  | .answers i r, s =>
    if (i, r) ∈ s.sent then some ((s.take i r true).deliver i r (server.answer r s.state)) else none
  | .errs i r http applied, s =>
    if (i, r) ∈ s.sent ∧ unexpected http then some ((s.take i r applied).deliver i r http) else none
  | .loses i r applied, s => if (i, r) ∈ s.sent then some (s.take i r applied) else none
  | .stops i status, s =>
    match s.attempts i with
    | some ⟨body, .posts _⟩ =>
      if status ≠ 0 then
        some { s with attempts := Function.update s.attempts i (some ⟨body, .exited status⟩) }
      else none
    | _ => none
  | .others σ, s => some { s with state := σ }

/-- Others neither create, change nor remove what the script names. -/
def Apart (s : Sys server) : Label server → Prop
  | .others σ => server.holds σ = s.store
  | _ => True

/-! ## What one step can do -/

inductive Acts (s : Sys server) : Label server → Sys server → Prop
  | start {i body} : s.attempts i = none → Acts s (.start i body) { s with
      attempts := Function.update s.attempts i (some ⟨body, .posts .metalake⟩)
      sent := s.sent ++ [(i, metalakeRequest)] }
  | answers {i r} : (i, r) ∈ s.sent →
      Acts s (.answers i r) ((s.take i r true).deliver i r (server.answer r s.state))
  | errs {i r http applied} : (i, r) ∈ s.sent → unexpected http = true →
      Acts s (.errs i r http applied) ((s.take i r applied).deliver i r http)
  | loses {i r applied} : (i, r) ∈ s.sent → Acts s (.loses i r applied) (s.take i r applied)
  | stops {i a resource status} : s.attempts i = some a → a.pc = .posts resource → status ≠ 0 →
      Acts s (.stops i status) { s with
        attempts := Function.update s.attempts i (some ⟨a.body, .exited status⟩) }
  | others (σ : server.State) : Acts s (.others σ) { s with state := σ }

variable {σ : server.State} {s t : Sys server} {i : Nat} {r : Request} {a : Attempt} {l : Label server}

theorem step_acts (h : step l s = some t) : Acts s l t := by
  cases l with
  | start i body =>
    rw [step] at h
    split at h
    · next hnone =>
      cases h
      exact .start (Option.isNone_iff_eq_none.mp hnone)
    · cases h
  | answers i r =>
    rw [step] at h
    split at h
    · next hr =>
      cases h
      exact .answers hr
    · cases h
  | errs i r http applied =>
    rw [step] at h
    split at h
    · next hr =>
      cases h
      exact .errs hr.1 hr.2
    · cases h
  | loses i r applied =>
    rw [step] at h
    split at h
    · next hr =>
      cases h
      exact .loses hr
    · cases h
  | stops i status =>
    rw [step] at h
    split at h
    · next body resource ha =>
      split at h
      · next hstatus =>
        cases h
        exact .stops ha rfl hstatus
      · cases h
    · cases h
  | others σ =>
    cases h
    exact .others σ

/-! ## What one request does -/

/-- **Either answer that the script expects says that it is there.** -/
theorem Server.Creates.there (hs : server.Creates) (h : unexpected (server.answer r σ) = false) :
    (server.holds (server.carriedOut r σ) r.resource).isSome := by
  have hanswer : server.answer r σ = 200 ∨ server.answer r σ = 409 := by
    simpa [unexpected, Decidable.or_iff_not_imp_left] using h
  rcases hanswer with hok | hconflict
  · exact hs.ok r σ hok
  · exact (hs.keeps r σ).isSome (hs.conflict r σ hconflict)

theorem deliver_store (s : Sys server) (i : Nat) (r : Request) (http : Nat) :
    (s.deliver i r http).store = s.store := by
  rw [Sys.deliver]
  split
  · split
    · rfl
    · rfl
  · rfl

theorem keeps_take (hs : server.Creates) (s : Sys server) (i : Nat) (r : Request) (applied : Bool) :
    Keeps s.store (s.take i r applied).store := by
  cases applied with
  | false => exact .refl _
  | true => exact hs.keeps r s.state

theorem keeps_step (hs : server.Creates) (hok : Apart s l) (h : step l s = some t) :
    Keeps s.store t.store := by
  cases step_acts h with
  | start _ => exact .refl _
  | answers _ =>
    rw [deliver_store]
    exact keeps_take hs s _ _ true
  | errs _ _ =>
    rw [deliver_store]
    exact keeps_take hs s _ _ _
  | loses _ => exact keeps_take hs s _ _ _
  | stops _ _ _ => exact .refl _
  | others σ =>
    show Keeps s.store (server.holds σ)
    rw [show server.holds σ = s.store from hok]
    exact .refl _

/-! ## What holds in every run -/

/-- What an attempt that is here has been told of. -/
def Told (store : Store) : Pc → Prop
  | .posts .catalog => (store .metalake).isSome
  | .exited 0 => (store .catalog).isSome
  | _ => True

theorem Told.keeps {store later : Store} (hk : Keeps store later) : ∀ {pc : Pc}, Told store pc → Told later pc
  | .posts .metalake, _ => trivial
  | .posts .catalog, h => hk.isSome h
  | .exited 0, h => hk.isSome h
  | .exited (_ + 1), _ => trivial

/-- How far a script has come says what is there; every request, and a catalog
that was not there before, is from an attempt that there has been. -/
structure Inv (σ : server.State) (s : Sys server) : Prop where
  told : ∀ i a, s.attempts i = some a → Told s.store a.pc
  sent : ∀ i r, (i, r) ∈ s.sent → r = metalakeRequest ∨ ∃ a, s.attempts i = some a ∧ r = a.catalogRequest
  origin : ∀ b, s.store .catalog = some b →
    server.holds σ .catalog = some b ∨ ∃ i a, s.attempts i = some a ∧ a.body = b

theorem inv_begin (σ : server.State) : Inv σ (Sys.begin σ) :=
  ⟨fun _ _ h => (by cases h), fun _ _ h => absurd h List.not_mem_nil, fun _ h => Or.inl h⟩

theorem Inv.take (h : Inv σ s) (hs : server.Creates) (hr : (i, r) ∈ s.sent) (applied : Bool) :
    Inv σ (s.take i r applied) := by
  refine ⟨fun j a ha => (h.told j a ha).keeps (keeps_take hs s i r applied),
    fun j r' hr' => h.sent j r' (List.mem_of_mem_erase hr'), fun b hb => ?_⟩
  cases applied with
  | false => exact h.origin b hb
  | true =>
    rcases hs.makes r s.state .catalog b hb with hb | ⟨hk, rfl⟩
    · exact h.origin b hb
    · rcases h.sent i r hr with rfl | ⟨a, ha, rfl⟩
      · cases hk
      · exact Or.inr ⟨i, a, ha, rfl⟩

/-- An attempt begins or goes on, and sends what it sends. -/
theorem Inv.attempt (h : Inv σ s) (hbody : ∀ a', s.attempts i = some a' → a.body = a'.body)
    (htold : Told s.store a.pc) {m : List Request} (hm : ∀ r ∈ m, r = metalakeRequest ∨ r = a.catalogRequest) :
    Inv σ { s with
      attempts := Function.update s.attempts i (some a), sent := s.sent ++ m.map (i, ·) } := by
  have hstays : ∀ j a', s.attempts j = some a' →
      ∃ a'', Function.update s.attempts i (some a) j = some a'' ∧ a''.body = a'.body := by
    intro j a' ha'
    by_cases hj : j = i
    · subst hj
      exact ⟨a, Function.update_self .., hbody a' ha'⟩
    · exact ⟨a', (Function.update_of_ne hj ..).trans ha', rfl⟩
  refine ⟨fun j a' ha' => ?_, fun j r hr => ?_, fun b hb => ?_⟩
  · by_cases hj : j = i
    · subst hj
      cases (Function.update_self j (some a) s.attempts).symm.trans ha'
      exact htold
    · exact h.told j a' ((Function.update_of_ne hj ..).symm.trans ha')
  · rcases List.mem_append.mp hr with hr | hr
    · refine (h.sent j r hr).imp_right fun ⟨a', ha', hr⟩ => ?_
      obtain ⟨a'', ha'', he⟩ := hstays j a' ha'
      exact ⟨a'', ha'', by rw [hr, Attempt.catalogRequest, Attempt.catalogRequest, he]⟩
    · obtain ⟨r', hr', he⟩ := List.mem_map.mp hr
      cases he
      exact (hm _ hr').imp_right fun hr => ⟨a, Function.update_self .., hr⟩
  · refine (h.origin b hb).imp_right fun ⟨j, a', ha', hbody⟩ => ?_
    obtain ⟨a'', ha'', he⟩ := hstays j a' ha'
    exact ⟨j, a'', ha'', he.trans hbody⟩

theorem Inv.stop (h : Inv σ s) (ha : s.attempts i = some a) {status : Nat} (hstatus : status ≠ 0) :
    Inv σ { s with attempts := Function.update s.attempts i (some ⟨a.body, .exited status⟩) } := by
  have htold : Told s.store (.exited status) := by
    cases status with
    | zero => exact absurd rfl hstatus
    | succ status => trivial
  have hstop := h.attempt (i := i) (a := ⟨a.body, .exited status⟩)
    (fun a' ha' => by rw [ha] at ha'; cases ha'; rfl) htold (List.forall_mem_nil _)
  rwa [List.map_nil, List.append_nil] at hstop

theorem Inv.deliver (h : Inv σ s) (i : Nat) {http : Nat}
    (hthere : unexpected http = false → (s.store r.resource).isSome) : Inv σ (s.deliver i r http) := by
  rw [Sys.deliver]
  cases ha : s.attempts i with
  | none => exact h
  | some a =>
    have hsame : ∀ a', s.attempts i = some a' → a.body = a'.body := fun a' ha' => by
      rw [ha] at ha'
      cases ha'
      rfl
    dsimp only
    split
    · cases hun : unexpected http with
      | true =>
        rw [Attempt.next, if_pos hun]
        exact h.attempt (a := ⟨a.body, .exited 1⟩) hsame trivial (List.forall_mem_nil _)
      | false =>
        have hthere := hthere hun
        rw [Attempt.next, if_neg (by simp [hun])]
        cases hk : r.resource with
        | metalake =>
          rw [hk] at hthere
          exact h.attempt (a := ⟨a.body, .posts .catalog⟩) hsame hthere
            fun r' hr' => Or.inr (List.mem_singleton.mp hr')
        | catalog =>
          rw [hk] at hthere
          exact h.attempt (a := ⟨a.body, .exited 0⟩) hsame hthere (List.forall_mem_nil _)
    · exact h

theorem Inv.others (h : Inv σ s) {σ' : server.State} (hsame : server.holds σ' = s.store) :
    Inv σ { s with state := σ' } := by
  have hstore : ({ s with state := σ' } : Sys server).store = s.store := hsame
  exact ⟨fun j a ha => hstore ▸ h.told j a ha, h.sent, fun b hb => h.origin b (hstore ▸ hb)⟩

theorem inv_step (hs : server.Creates) (h : Inv σ s) (hok : Apart s l) (ht : step l s = some t) :
    Inv σ t := by
  cases step_acts ht with
  | @start i body hnone =>
    refine h.attempt (a := ⟨body, .posts .metalake⟩) (m := [metalakeRequest]) (fun a' ha' => ?_) trivial
      fun r hr => Or.inl (List.mem_singleton.mp hr)
    rw [hnone] at ha'
    cases ha'
  | answers hr => exact (h.take hs hr true).deliver _ hs.there
  | errs hr hun =>
    refine (h.take hs hr _).deliver _ fun hexpected => ?_
    rw [hun] at hexpected
    cases hexpected
  | loses hr => exact h.take hs hr _
  | stops ha _ hstatus => exact h.stop ha hstatus
  | others σ' => exact h.others hok

theorem Reaches.inv (hs : server.Creates) (h : Reaches step Apart (Sys.begin σ) s) : Inv σ s :=
  h.invariant (Inv σ) (inv_begin σ) fun hi hok ht => inv_step hs hi hok ht

/-! ## An attempt that is left alone -/

/-- The server does what an attempt with this catalog asks for, or has it. -/
structure Server.Accepts (server : Server) (body : Body) : Prop where
  metalake : ∀ σ, unexpected (server.answer metalakeRequest σ) = false
  catalog : ∀ σ, (server.holds σ .metalake).isSome → unexpected (server.answer ⟨.catalog, body⟩ σ) = false

theorem deliver_waiting (ha : s.attempts i = some a) (hpc : a.pc = .posts r.resource) (http : Nat) :
    s.deliver i r http = { s with
      attempts := Function.update s.attempts i (some (a.next r.resource http).1)
      sent := s.sent ++ (a.next r.resource http).2.map (i, ·) } := by
  rw [Sys.deliver, ha]
  exact if_pos hpc

theorem answered (ha : s.attempts i = some a) (hpc : a.pc = .posts r.resource) (hr : (i, r) ∈ s.sent)
    (hexpected : unexpected (server.answer r s.state) = false) : ∃ t, step (.answers i r) s = some t ∧
      t.state = server.carriedOut r s.state ∧ t.attempts i = some (a.created r.resource).1 ∧
      ∀ r' ∈ (a.created r.resource).2, (i, r') ∈ t.sent := by
  have hnot : ¬unexpected (server.answer r s.state) = true := by simp [hexpected]
  rw [step, if_pos hr, deliver_waiting (s := s.take i r true) ha hpc, Attempt.next, if_neg hnot]
  exact ⟨_, rfl, rfl, Function.update_self ..,
    fun r' hr' => List.mem_append_right _ (List.mem_map_of_mem hr')⟩

/-- What a new attempt does where every request is answered. -/
def undisturbed (server : Server) (i : Nat) (body : Body) : List (Label server) :=
  [.start i body, .answers i metalakeRequest, .answers i ⟨.catalog, body⟩]

theorem undisturbed_succeeds (hs : server.Creates) {body : Body} (haccepts : server.Accepts body)
    (hi : s.attempts i = none) :
    ∃ t, exec step (undisturbed server i body) s = some t ∧ t.attempts i = some ⟨body, .exited 0⟩ := by
  obtain ⟨s₁, hs₁, ha₁, hsent₁⟩ : ∃ t, step (.start i body) s = some t ∧
      t.attempts i = some ⟨body, .posts .metalake⟩ ∧ (i, metalakeRequest) ∈ t.sent := by
    rw [step, hi]
    exact ⟨_, rfl, Function.update_self .., List.mem_append_right _ (List.mem_singleton_self _)⟩
  have hmetalake := haccepts.metalake s₁.state
  obtain ⟨s₂, hs₂, hstate₂, ha₂, hsent₂⟩ := answered (r := metalakeRequest) ha₁ rfl hsent₁ hmetalake
  have hthere : (server.holds s₂.state .metalake).isSome := by
    rw [hstate₂]
    exact hs.there hmetalake
  obtain ⟨s₃, hs₃, -, ha₃, -⟩ := answered (r := ⟨.catalog, body⟩) ha₂ rfl
    (hsent₂ _ (List.mem_singleton_self _)) (haccepts.catalog s₂.state hthere)
  refine ⟨s₃, ?_, ha₃⟩
  rw [undisturbed, exec, hs₁, Option.bind_some, exec, hs₂, Option.bind_some, exec, hs₃]
  rfl

/-- **An exit status of 0 is true, and a retry gets there.** In every run,
whatever is lost, late, killed or at the same time, on a server that creates
and with others that leave the two names alone: after an attempt has succeeded
the metalake and the catalog are there and stay, the catalog as it was before
the Job or as an attempt has posted it; and from every state a new attempt
that is left alone succeeds, if the server accepts what it posts. -/
theorem gravitino_init (hs : server.Creates) (h : Reaches step Apart (Sys.begin σ) s) :
    (∀ i a, s.attempts i = some a → a.pc = .exited 0 → ∃ b, s.store .catalog = some b ∧
      (server.holds σ .catalog = some b ∨ ∃ j a', s.attempts j = some a' ∧ a'.body = b) ∧
      ∀ t, Reaches step Apart s t → (t.store .metalake).isSome ∧ t.store .catalog = some b) ∧
    ∀ i body, server.Accepts body → s.attempts i = none →
      ∃ t, exec step (undisturbed server i body) s = some t ∧ t.attempts i = some ⟨body, .exited 0⟩ := by
  have hi := Reaches.inv hs h
  refine ⟨fun i a ha hpc => ?_, fun i body haccepts hnone => undisturbed_succeeds hs haccepts hnone⟩
  have htold := hi.told i a ha
  rw [hpc] at htold
  obtain ⟨b, hb⟩ := Option.isSome_iff_exists.mp htold
  refine ⟨b, hb, hi.origin b hb, fun t ht => ?_⟩
  have hkeeps : Keeps s.store t.store := reaches_keeps (keeps_step hs) ht
  have hcatalog : t.store .catalog = some b := hkeeps _ _ hb
  exact ⟨hs.within t.state (Option.isSome_iff_exists.mpr ⟨b, hcatalog⟩), hcatalog⟩

/-- A metalake, with perhaps a catalog in it, and nothing else. -/
def oneMetalake : Server where
  State := Option (Body × Option Body)
  holds
    | σ, .metalake => σ.map Prod.fst
    | σ, .catalog => σ.bind Prod.snd
  carriedOut
    | ⟨.metalake, body⟩, none => some (body, none)
    | ⟨.catalog, body⟩, some (metalake, none) => some (metalake, some body)
    | _, σ => σ
  answer
    | ⟨.metalake, _⟩, none => 200
    | ⟨.catalog, _⟩, none => 404
    | ⟨.catalog, _⟩, some (_, none) => 200
    | _, some _ => 409

theorem oneMetalake_creates : oneMetalake.Creates where
  ok r σ h := by
    obtain ⟨resource, body⟩ := r
    cases resource <;> rcases σ with _ | ⟨metalake, _ | catalog⟩
    case metalake.none => rfl
    case catalog.some.none => rfl
    all_goals simp [oneMetalake] at h
  conflict r σ h := by
    obtain ⟨resource, body⟩ := r
    cases resource <;> rcases σ with _ | ⟨metalake, _ | catalog⟩
    case metalake.some.none => rfl
    case metalake.some.some => rfl
    case catalog.some.some => rfl
    all_goals simp [oneMetalake] at h
  within σ h := by
    cases σ with
    | none => cases h
    | some σ => rfl
  keeps r σ k b h := by
    obtain ⟨resource, body⟩ := r
    cases resource <;> rcases σ with _ | ⟨metalake, _ | catalog⟩ <;> cases k <;>
      first | exact h | cases h
  makes r σ k b h := by
    obtain ⟨resource, body⟩ := r
    cases resource <;> rcases σ with _ | ⟨metalake, _ | catalog⟩ <;> cases k <;>
      first | exact Or.inl h | exact Or.inr ⟨rfl, (Option.some.inj h).symm⟩

theorem oneMetalake_accepts (body : Body) : oneMetalake.Accepts body where
  metalake σ := by cases σ <;> rfl
  catalog σ h := by
    rcases σ with _ | ⟨metalake, _ | catalog⟩
    · cases h
    · rfl
    · rfl

/-- The answer to the first request is lost, and the attempt that waits for it killed. -/
def lostAnswer (body : Body) : List (Label oneMetalake) :=
  [.start 0 body, .loses 0 metalakeRequest true, .stops 0 137]

theorem retried_gravitino_init : ∃ body, deployedEnv.catalogBody = some body ∧
    ∃ t : Sys oneMetalake, Reaches step Apart (Sys.begin none) t ∧
      ∃ b, t.store .catalog = some b ∧ ∀ u, Reaches step Apart t u →
        (u.store .metalake).isSome ∧ u.store .catalog = some b := by
  obtain ⟨body, hbody⟩ : ∃ body, deployedEnv.catalogBody = some body :=
    Option.isSome_iff_exists.mp (by decide +kernel)
  obtain ⟨s, hs, hnone⟩ : ∃ s, exec step (lostAnswer body) (Sys.begin none) = some s ∧
      s.attempts 1 = none := by
    refine ⟨_, by simp [lostAnswer, exec, step, Sys.begin, Sys.take]; rfl, ?_⟩
    simp
  obtain ⟨t, ht, ha⟩ := undisturbed_succeeds oneMetalake_creates (oneMetalake_accepts body) hnone
  have hreach : Reaches step Apart (Sys.begin none) t :=
    (exec_reaches step Apart (along_of_forall _ (by simp [lostAnswer, Apart])) hs).trans
      (exec_reaches step Apart (along_of_forall _ (by simp [undisturbed, Apart])) ht)
  obtain ⟨b, hb, -, hstays⟩ := (gravitino_init oneMetalake_creates hreach).1 1 _ ha rfl
  exact ⟨body, hbody, t, hreach, b, hb, hstays⟩

end BigDataPlatform.GravitinoInit
