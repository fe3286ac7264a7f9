import Mathlib.Data.List.Basic

/-! # Regular expressions with one capture group

A backtracking matcher in the leftmost-first order: the first alternative that
lets the rest match wins, and a repetition takes as much as it can. Repetition
is of single characters, which is all that the expressions here repeat. -/
namespace BigDataPlatform.Lib.Regex

inductive Re where
  | empty
  | one (p : Char → Bool)
  | many (p : Char → Bool)
  | seq (a b : Re)
  | alt (a b : Re)
  | group (a : Re)
  | start
  | stop
  | boundary

/-- A capture and what stands on either side of it. -/
structure Capture where
  before : List Char
  text : List Char
  after : List Char
  deriving DecidableEq

/-- A position in the text, with what is before it reversed. -/
structure Pos where
  before : List Char
  rest : List Char
  captured : Option Capture
  deriving DecidableEq

def isWord (c : Char) : Bool := c.isAlphanum || c = '_'

/-- After as many characters as meet `p`, then after one less, and so on. -/
def runMany (p : Char → Bool) (captured : Option Capture) (before : List Char) :
    List Char → List Pos
  | [] => [⟨before, [], captured⟩]
  | c :: rest =>
    (if p c then runMany p captured (c :: before) rest else []) ++ [⟨before, c :: rest, captured⟩]

/-- The capture of what was consumed between two positions. -/
def captureBetween (s t : Pos) : Capture where
  before := s.before.reverse
  text := (t.before.take (t.before.length - s.before.length)).reverse
  after := t.rest

/-- Where a match from a position can end, the preferred end first. -/
def Re.run : Re → Pos → List Pos
  | empty, s => [s]
  | one p, s => match s.rest with
    | c :: rest => if p c then [⟨c :: s.before, rest, s.captured⟩] else []
    | [] => []
  | many p, s => runMany p s.captured s.before s.rest
  | seq a b, s => (a.run s).flatMap b.run
  | alt a b, s => a.run s ++ b.run s
  | group a, s => (a.run s).map fun t => { t with captured := some (captureBetween s t) }
  | start, s => if s.before = [] then [s] else []
  | stop, s => if s.rest = [] then [s] else []
  | boundary, s =>
    if s.before.head?.any isWord = s.rest.head?.any isWord then [] else [s]

/-- The preferred match at the leftmost position that has one. -/
def Re.findFrom (r : Re) (before : List Char) : List Char → Option Pos
  | [] => (r.run ⟨before, [], none⟩).head?
  | c :: rest =>
    ((r.run ⟨before, c :: rest, none⟩).head?).or (r.findFrom (c :: before) rest)

/-- The capture of the first match in a text. -/
def Re.find (r : Re) (text : List Char) : Option Capture :=
  (r.findFrom [] text).bind Pos.captured

/-! ## Building expressions -/

def Re.seqs (rs : List Re) : Re := rs.foldr Re.seq .empty

/-- One or more. -/
def Re.plus (p : Char → Bool) : Re := .seq (.one p) (.many p)

/-- The word, up to `fold` on each character of the text. -/
def Re.word (fold : Char → Char) (w : List Char) : Re := Re.seqs (w.map fun d => .one (fold · = d))

/-- One of the words. -/
def Re.words (fold : Char → Char) (ws : List (List Char)) : Re :=
  ws.foldr (fun w r => .alt (.word fold w) r) (.one fun _ => false)

/-! ## What a match consumes -/

/-- `t` is further in the same text, past `w`. -/
structure Pos.Past (s t : Pos) (w : List Char) : Prop where
  rest : s.rest = w ++ t.rest
  before : t.before = w.reverse ++ s.before

theorem Pos.Past.refl (s : Pos) : s.Past s [] := ⟨rfl, rfl⟩

theorem Pos.Past.trans {s t u : Pos} {v w : List Char} (h : s.Past t v) (h' : t.Past u w) :
    s.Past u (v ++ w) where
  rest := by rw [h.rest, h'.rest, List.append_assoc]
  before := by rw [h'.before, h.before, List.reverse_append, List.append_assoc]

theorem captureBetween_text {s t : Pos} {w : List Char} (h : s.Past t w) :
    (captureBetween s t).text = w := by
  rw [captureBetween, h.before, List.length_append, Nat.add_sub_cancel, List.take_left,
    List.reverse_reverse]

theorem captureBetween_eq {s t : Pos} {w : List Char} (h : s.Past t w) :
    captureBetween s t = ⟨s.before.reverse, w, t.rest⟩ :=
  congrArg (fun x => (⟨s.before.reverse, x, t.rest⟩ : Capture)) (captureBetween_text h)

theorem past_of_mem_runMany {p : Char → Bool} {captured : Option Capture} {t : Pos} :
    ∀ {before rest : List Char}, t ∈ runMany p captured before rest →
      t.captured = captured ∧ ∃ w, Pos.Past ⟨before, rest, captured⟩ t w
  | before, [], h => by
    rw [List.mem_singleton.mp h]
    exact ⟨rfl, [], Pos.Past.refl _⟩
  | before, c :: rest, h => by
    rcases List.mem_append.mp h with h | h
    · split at h
      · obtain ⟨ht, w, hw⟩ := past_of_mem_runMany h
        refine ⟨ht, c :: w, congrArg (c :: ·) hw.rest, ?_⟩
        rw [hw.before, List.reverse_cons, List.append_assoc]
        rfl
      · cases h
    · rw [List.mem_singleton.mp h]
      exact ⟨rfl, [], Pos.Past.refl _⟩

/-- An expression with no other one inside it. -/
def Re.isAtom : Re → Bool
  | empty | one _ | many _ | start | stop | boundary => true
  | seq _ _ | alt _ _ | group _ => false

/-- Such a one captures nothing, whatever it consumes. -/
theorem Re.past_of_mem_run_atom {r : Re} (hr : r.isAtom) {s t : Pos} (h : t ∈ r.run s) :
    t.captured = s.captured ∧ ∃ w, s.Past t w := by
  have hself (h : t ∈ [s]) : t.captured = s.captured ∧ ∃ w, s.Past t w := by
    rw [List.mem_singleton.mp h]
    exact ⟨rfl, [], .refl s⟩
  cases r with
  | empty => exact hself h
  | one p =>
    rw [Re.run] at h
    split at h
    · next c rest hrest =>
      split at h
      · rw [List.mem_singleton.mp h]
        exact ⟨rfl, [c], hrest, rfl⟩
      · cases h
    · cases h
  | many p =>
    obtain ⟨hc, w, hw⟩ := past_of_mem_runMany h
    exact ⟨hc, w, hw.rest, hw.before⟩
  | start | stop =>
    rw [Re.run] at h
    split at h
    · exact hself h
    · cases h
  | boundary =>
    rw [Re.run] at h
    split at h
    · cases h
    · exact hself h
  | seq a b | alt a b => cases hr
  | group a => cases hr

theorem Re.past_of_mem_run {r : Re} {s t : Pos} (h : t ∈ r.run s) : ∃ w, s.Past t w := by
  induction r generalizing s t with
  | empty | one p | many p | start | stop | boundary => exact (Re.past_of_mem_run_atom rfl h).2
  | seq a b iha ihb =>
    obtain ⟨u, hu, ht⟩ := List.mem_flatMap.mp h
    obtain ⟨v, hv⟩ := iha hu
    obtain ⟨w, hw⟩ := ihb ht
    exact ⟨v ++ w, hv.trans hw⟩
  | alt a b iha ihb =>
    rcases List.mem_append.mp h with h | h
    · exact iha h
    · exact ihb h
  | group a ih =>
    obtain ⟨u, hu, rfl⟩ := List.mem_map.mp h
    obtain ⟨w, hw⟩ := ih hu
    exact ⟨w, hw.rest, hw.before⟩

/-! ## What a match captures -/

/-- Whatever the group consumes meets `P`. -/
def Re.GroupIn (P : List Char → Prop) : Re → Prop
  | group a => ∀ s t w, t ∈ a.run s → s.Past t w → P w
  | seq a b | alt a b => a.GroupIn P ∧ b.GroupIn P
  | empty | one _ | many _ | start | stop | boundary => True

theorem Re.groupIn_seqs {P : List Char → Prop} {rs : List Re} :
    (Re.seqs rs).GroupIn P ↔ ∀ r ∈ rs, r.GroupIn P := by
  induction rs with
  | nil => exact iff_of_true trivial (List.forall_mem_nil _)
  | cons r rs ih =>
    rw [List.forall_mem_cons, ← ih]
    rfl

/-- A word has no group. -/
theorem Re.groupIn_word {P : List Char → Prop} (fold : Char → Char) (w : List Char) :
    (Re.word fold w).GroupIn P := by
  refine Re.groupIn_seqs.mpr fun r hr => ?_
  obtain ⟨d, -, rfl⟩ := List.mem_map.mp hr
  exact trivial

theorem Re.captured_of_mem_run {P : List Char → Prop} {r : Re} (hr : r.GroupIn P) {s t : Pos}
    (h : t ∈ r.run s) : t.captured = s.captured ∨ ∃ c, t.captured = some c ∧ P c.text := by
  induction r generalizing s t with
  | empty | one p | many p | start | stop | boundary =>
    exact Or.inl (Re.past_of_mem_run_atom rfl h).1
  | seq a b iha ihb =>
    obtain ⟨u, hu, ht⟩ := List.mem_flatMap.mp h
    rcases ihb hr.2 ht with hb | hb
    · rw [hb]
      exact iha hr.1 hu
    · exact Or.inr hb
  | alt a b iha ihb =>
    rcases List.mem_append.mp h with h | h
    · exact iha hr.1 h
    · exact ihb hr.2 h
  | group a ih =>
    obtain ⟨u, hu, rfl⟩ := List.mem_map.mp h
    obtain ⟨w, hw⟩ := Re.past_of_mem_run hu
    refine Or.inr ⟨_, rfl, ?_⟩
    rw [captureBetween_text hw]
    exact hr s u w hu hw

theorem Re.mem_run_of_findFrom {r : Re} {t : Pos} : ∀ {before rest : List Char},
    r.findFrom before rest = some t → ∃ before rest, t ∈ r.run ⟨before, rest, none⟩
  | before, [], h => ⟨before, [], List.mem_of_head? h⟩
  | before, c :: rest, h => by
    rcases Option.or_eq_some_iff.mp h with h | ⟨-, h⟩
    · exact ⟨before, c :: rest, List.mem_of_head? h⟩
    · exact Re.mem_run_of_findFrom h

/-- **What is captured meets what the group's own expression guarantees.** -/
theorem Re.find_groupIn {P : List Char → Prop} {r : Re} (hr : r.GroupIn P) {text : List Char}
    {c : Capture} (h : r.find text = some c) : P c.text := by
  obtain ⟨t, ht, hc⟩ := Option.bind_eq_some_iff.mp h
  obtain ⟨before, rest, hmem⟩ := Re.mem_run_of_findFrom ht
  rcases Re.captured_of_mem_run hr hmem with h | ⟨c', hc', hp⟩
  · rw [hc] at h
    cases h
  · rw [hc] at hc'
    cases hc'
    exact hp

/-! ## Words -/

theorem Pos.Past.eq_of_nil {s t : Pos} (h : s.Past t []) (hc : t.captured = s.captured) : t = s := by
  obtain ⟨before, rest, captured⟩ := t
  obtain ⟨hrest, hbefore⟩ := h
  cases hc
  cases hbefore
  cases hrest
  rfl

/-- A position on the way. -/
theorem Pos.Past.split {s t : Pos} {v w : List Char} (h : s.Past t (v ++ w)) :
    ∃ u, s.Past u v ∧ u.Past t w ∧ u.captured = s.captured := by
  refine ⟨⟨v.reverse ++ s.before, w ++ t.rest, s.captured⟩, ⟨?_, rfl⟩, ⟨rfl, ?_⟩, rfl⟩
  · rw [h.rest, List.append_assoc]
  · rw [h.before, List.reverse_append, List.append_assoc]

theorem mem_run_one {p : Char → Bool} {s t : Pos} :
    t ∈ (Re.one p).run s ↔ ∃ c, p c ∧ s.Past t [c] ∧ t.captured = s.captured := by
  obtain ⟨before, rest, captured⟩ := s
  cases rest with
  | nil =>
    constructor
    · intro h
      cases h
    · intro h
      obtain ⟨c, -, hp, -⟩ := h
      cases hp.rest
  | cons d rest =>
    constructor
    · intro h
      rw [Re.run] at h
      by_cases hd : p d
      · simp only [if_pos hd, List.mem_singleton] at h
        subst h
        exact ⟨d, hd, ⟨rfl, rfl⟩, rfl⟩
      · simp [hd] at h
    · intro h
      obtain ⟨c, hc, hp, hcap⟩ := h
      have hcap : t.captured = captured := hcap
      have hbefore : t.before = c :: before := hp.before
      have ht : t = ⟨c :: before, t.rest, captured⟩ := by rw [← hbefore, ← hcap]
      obtain ⟨rfl, hrest⟩ : d = c ∧ rest = t.rest := List.cons.inj hp.rest
      rw [ht, hrest]
      simp [Re.run, hc]

theorem mem_run_word {fold : Char → Char} {d : List Char} {s t : Pos} :
    t ∈ (Re.word fold d).run s ↔ ∃ w, w.map fold = d ∧ s.Past t w ∧ t.captured = s.captured := by
  induction d generalizing s with
  | nil =>
    constructor
    · intro h
      rw [List.mem_singleton.mp h]
      exact ⟨[], rfl, .refl s, rfl⟩
    · intro h
      obtain ⟨w, hw, hp, hc⟩ := h
      rw [List.map_eq_nil_iff.mp hw] at hp
      exact List.mem_singleton.mpr (hp.eq_of_nil hc)
  | cons d ds ih =>
    show t ∈ ((Re.one (fold · = d)).run s).flatMap (Re.word fold ds).run ↔ _
    rw [List.mem_flatMap]
    constructor
    · intro h
      obtain ⟨u, hu, ht⟩ := h
      obtain ⟨c, hc, hpu, hcu⟩ := mem_run_one.mp hu
      obtain ⟨w, hw, hpt, hct⟩ := ih.mp ht
      refine ⟨c :: w, ?_, hpu.trans hpt, hct.trans hcu⟩
      rw [List.map_cons, hw, of_decide_eq_true hc]
    · intro h
      obtain ⟨w, hw, hp, hc⟩ := h
      obtain ⟨c, v, rfl, hfold, hv⟩ := List.map_eq_cons_iff.mp hw
      obtain ⟨u, hpu, hpt, hcu⟩ := Pos.Past.split (v := [c]) hp
      exact ⟨u, mem_run_one.mpr ⟨c, decide_eq_true hfold, hpu, hcu⟩,
        ih.mpr ⟨v, hv, hpt, hc.trans hcu.symm⟩⟩

theorem mem_run_words {fold : Char → Char} {ws : List (List Char)} {s t : Pos} :
    t ∈ (Re.words fold ws).run s ↔
      ∃ w, w.map fold ∈ ws ∧ s.Past t w ∧ t.captured = s.captured := by
  induction ws with
  | nil =>
    constructor
    · intro h
      obtain ⟨c, hc, -⟩ := mem_run_one.mp h
      cases hc
    · intro h
      obtain ⟨w, hw, -⟩ := h
      cases hw
  | cons d ds ih =>
    show t ∈ (Re.word fold d).run s ++ (Re.words fold ds).run s ↔ _
    rw [List.mem_append, mem_run_word, ih]
    simp only [List.mem_cons, or_and_right, exists_or]

/-- A group of words captures one of them. -/
theorem groupIn_words (fold : Char → Char) (ws : List (List Char)) :
    (Re.group (Re.words fold ws)).GroupIn fun w => w.map fold ∈ ws := by
  intro s t w ht hp
  obtain ⟨v, hv, hpv, -⟩ := mem_run_words.mp ht
  have hvw : v = w := List.append_cancel_right (hpv.rest.symm.trans hp.rest)
  exact hvw ▸ hv

/-! ## A whole text that is one of some words -/

def Re.whole (fold : Char → Char) (ws : List (List Char)) : Re :=
  Re.seqs [.start, .group (.words fold ws), .stop]

theorem findFrom_start {r : Re} {before : List Char} (h : before ≠ []) :
    ∀ rest, (Re.seq .start r).findFrom before rest = none
  | [] => by simp [Re.findFrom, Re.run, h]
  | c :: rest => by
    rw [Re.findFrom, findFrom_start (List.cons_ne_nil c before) rest]
    simp [Re.run, h]

theorem mem_run_whole {fold : Char → Char} {ws : List (List Char)} {text : List Char} {t : Pos} :
    t ∈ (Re.whole fold ws).run ⟨[], text, none⟩ ↔
      text.map fold ∈ ws ∧ t = ⟨text.reverse, [], some ⟨[], text, []⟩⟩ := by
  have hrun : (Re.whole fold ws).run ⟨[], text, none⟩ =
      ((Re.group (.words fold ws)).run ⟨[], text, none⟩).flatMap
        fun u => if u.rest = [] then [u] else [] := by
    simp only [Re.whole, Re.seqs, List.foldr_cons, List.foldr_nil, Re.run, if_true,
      List.flatMap_cons, List.flatMap_nil, List.append_nil, List.flatMap_singleton']
  rw [hrun, List.mem_flatMap]
  constructor
  · intro h
    obtain ⟨u, hu, ht⟩ := h
    split at ht
    · next hrest =>
      cases List.mem_singleton.mp ht
      obtain ⟨v, hv, rfl⟩ := List.mem_map.mp hu
      obtain ⟨w, hw, hp, -⟩ := mem_run_words.mp hv
      have hrest : v.rest = [] := hrest
      have hwt : text = w := by rw [show text = w ++ v.rest from hp.rest, hrest, List.append_nil]
      subst hwt
      refine ⟨hw, ?_⟩
      rw [captureBetween_eq hp, hrest, show v.before = text.reverse ++ [] from hp.before,
        List.append_nil]
      rfl
    · cases ht
  · intro h
    obtain ⟨hw, rfl⟩ := h
    have hp : Pos.Past ⟨[], text, none⟩ ⟨text.reverse, [], none⟩ text :=
      ⟨(List.append_nil text).symm, (List.append_nil _).symm⟩
    refine ⟨⟨text.reverse, [], some ⟨[], text, []⟩⟩, ?_, by simp⟩
    refine List.mem_map.mpr ⟨_, mem_run_words.mpr ⟨text, hw, hp, rfl⟩, ?_⟩
    rw [captureBetween_eq hp]
    rfl

/-- **An anchored list of words matches the texts that are one of them**, and
captures all of the text. -/
theorem find_whole (fold : Char → Char) (ws : List (List Char)) (text : List Char) :
    (Re.whole fold ws).find text = if text.map fold ∈ ws then some ⟨[], text, []⟩ else none := by
  have hfrom : (Re.whole fold ws).findFrom [] text =
      ((Re.whole fold ws).run ⟨[], text, none⟩).head? := by
    cases text with
    | nil => rfl
    | cons c text =>
      rw [Re.findFrom, show Re.whole fold ws = .seq .start _ from rfl,
        findFrom_start (List.cons_ne_nil c []), Option.or_none]
  rw [Re.find, hfrom]
  cases hrun : (Re.whole fold ws).run ⟨[], text, none⟩ with
  | nil =>
    have hw : text.map fold ∉ ws := by
      intro hw
      have hmem := mem_run_whole.mpr ⟨hw, rfl⟩
      rw [hrun] at hmem
      cases hmem
    rw [if_neg hw]
    rfl
  | cons t ts =>
    obtain ⟨hw, rfl⟩ := mem_run_whole.mp (hrun ▸ List.mem_cons_self)
    rw [if_pos hw]
    rfl

/-! ## A run of single characters -/

/-- One character for each of the conditions. -/
def Re.each (ps : List (Char → Bool)) : Re := Re.seqs (ps.map Re.one)

theorem run_each {ps : List (Char → Bool)} {w : List Char} (h : List.Forall₂ (fun p c => p c = true) ps w)
    (before rest : List Char) (captured : Option Capture) :
    (Re.each ps).run ⟨before, w ++ rest, captured⟩ = [⟨w.reverse ++ before, rest, captured⟩] := by
  induction h generalizing before with
  | nil => rfl
  | @cons p c ps w hc _ ih =>
    show ((Re.one p).run ⟨before, c :: (w ++ rest), captured⟩).flatMap (Re.each ps).run = _
    rw [Re.run]
    simp only [hc, if_true, List.flatMap_singleton]
    rw [ih, List.reverse_cons, List.append_assoc]
    rfl

/-- The search goes past text at which no match can start. -/
theorem findFrom_skip {r : Re} {w : List Char}
    (h : ∀ c ∈ w, ∀ before rest, r.run ⟨before, c :: rest, none⟩ = []) (before rest : List Char) :
    r.findFrom before (w ++ rest) = r.findFrom (w.reverse ++ before) rest := by
  induction w generalizing before with
  | nil => rfl
  | cons c w ih =>
    rw [List.cons_append, Re.findFrom, h c List.mem_cons_self, List.head?_nil, Option.none_or,
      ih fun d hd => h d (List.mem_cons_of_mem c hd)]
    rw [List.reverse_cons, List.append_assoc]
    rfl

theorem findFrom_of_run {r : Re} {before rest : List Char} {t : Pos}
    (h : (r.run ⟨before, rest, none⟩).head? = some t) : r.findFrom before rest = some t := by
  cases rest with
  | nil => exact h
  | cons c rest => rw [Re.findFrom, h, Option.some_or]

/-- **The first run of such characters**, where none can start before it. -/
theorem find_group_each {p : Char → Bool} {ps : List (Char → Bool)} {w v : List Char}
    (hskip : ∀ c ∈ w, p c = false) (h : List.Forall₂ (fun p c => p c = true) (p :: ps) v)
    (rest : List Char) : (Re.group (Re.each (p :: ps))).find (w ++ (v ++ rest)) = some ⟨w, v, rest⟩ := by
  have hstart : ∀ c ∈ w, ∀ before rest,
      (Re.group (Re.each (p :: ps))).run ⟨before, c :: rest, none⟩ = [] := by
    intro c hc before rest
    show (((Re.one p).run ⟨before, c :: rest, none⟩).flatMap (Re.each ps).run).map _ = []
    simp [Re.run, hskip c hc]
  have hrun : ((Re.group (Re.each (p :: ps))).run ⟨w.reverse, v ++ rest, none⟩).head? =
      some ⟨v.reverse ++ w.reverse, rest, some ⟨w, v, rest⟩⟩ := by
    rw [Re.run, run_each h, List.map_singleton, List.head?_singleton]
    rw [captureBetween_eq (w := v) ⟨rfl, rfl⟩, List.reverse_reverse]
  rw [Re.find, findFrom_skip hstart, List.append_nil, findFrom_of_run hrun]
  rfl

end BigDataPlatform.Lib.Regex
