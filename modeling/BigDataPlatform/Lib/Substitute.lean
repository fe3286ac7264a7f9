import Mathlib.Data.List.Infix

/-! # Substitution in text

Every occurrence of a pattern replaced, from the left, and several such
replacements in turn, each on what the one before has made. -/
namespace BigDataPlatform.Lib.Substitute

/-- `skip` characters are part of an occurrence already replaced. -/
def replaceFrom (pat repl : List Char) : Nat → List Char → List Char
  | _, [] => []
  | skip + 1, _ :: text => replaceFrom pat repl skip text
  | 0, c :: text =>
    if pat.isPrefixOf (c :: text) then repl ++ replaceFrom pat repl (pat.length - 1) text
    else c :: replaceFrom pat repl 0 text

def replaceAll (pat repl text : List Char) : List Char := replaceFrom pat repl 0 text

/-- A pattern and what it is replaced with, in turn. -/
def substitute (subs : List (List Char × List Char)) (text : List Char) : List Char :=
  subs.foldl (fun text sub => replaceAll sub.1 sub.2 text) text

variable {pat repl text a b v : List Char} {c : Char} {subs : List (List Char × List Char)}

theorem replaceFrom_skip (pat repl a b : List Char) :
    replaceFrom pat repl a.length (a ++ b) = replaceFrom pat repl 0 b := by
  induction a with
  | nil => rfl
  | cons c a ih => exact ih

theorem replaceAll_absent (h : ¬pat <:+: text) : replaceAll pat repl text = text := by
  rw [replaceAll]
  induction text with
  | nil => rfl
  | cons c text ih =>
    have hprefix : ¬pat.isPrefixOf (c :: text) = true := fun hp =>
      h (List.isPrefixOf_iff_prefix.mp hp).isInfix
    rw [replaceFrom, if_neg hprefix, ih fun hi => h (hi.trans (List.suffix_cons c text).isInfix)]

/-- A pattern does not reach over a character that it does not have. -/
theorem infix_apart (hc : c ∉ pat) (h : pat <:+: a ++ c :: b) : pat <:+: a ∨ pat <:+: b := by
  obtain ⟨s, t, hst⟩ := h
  rcases List.append_eq_append_iff.mp hst with ⟨w, ha, -⟩ | ⟨w, hs, hw⟩
  · exact Or.inl ⟨s, w, ha.symm⟩
  · cases w with
    | nil => exact Or.inl ⟨s, [], by rw [hs, List.append_nil, List.append_nil]⟩
    | cons d w =>
      obtain ⟨rfl, rfl⟩ := List.cons.inj hw
      rcases List.append_eq_append_iff.mp hs with ⟨x, -, hpat⟩ | ⟨x, -, hpat⟩
      · exact absurd (hpat ▸ List.mem_append_right x List.mem_cons_self) hc
      · cases x with
        | nil =>
          have hpat : c :: w = pat := hpat
          exact absurd (hpat ▸ List.mem_cons_self) hc
        | cons e x =>
          obtain ⟨-, rfl⟩ := List.cons.inj hpat
          exact Or.inr ⟨x, t, rfl⟩

/-- An occurrence after a character that the pattern does not have is the first
one, if there is none before that character. -/
theorem replaceAll_once (hne : pat ≠ []) (hc : c ∉ pat) (ha : ¬pat <:+: a) (hb : ¬pat <:+: b) :
    replaceAll pat repl (a ++ c :: (pat ++ b)) = a ++ c :: (repl ++ b) := by
  induction a with
  | nil =>
    have hfirst : ¬pat.isPrefixOf (c :: (pat ++ b)) = true := by
      intro hp
      obtain ⟨t, ht⟩ := List.isPrefixOf_iff_prefix.mp hp
      obtain ⟨d, p, rfl⟩ := List.exists_cons_of_ne_nil hne
      exact hc ((List.cons.inj ht).1 ▸ List.mem_cons_self)
    have hsecond : replaceFrom pat repl 0 (pat ++ b) = repl ++ replaceAll pat repl b := by
      obtain ⟨d, p, rfl⟩ := List.exists_cons_of_ne_nil hne
      have hp : (d :: p).isPrefixOf (d :: (p ++ b)) = true :=
        List.isPrefixOf_iff_prefix.mpr (List.prefix_append (d :: p) b)
      rw [List.cons_append, replaceFrom, if_pos hp]
      exact congrArg (repl ++ ·) (replaceFrom_skip _ _ p b)
    rw [List.nil_append, replaceAll, replaceFrom, if_neg hfirst, hsecond, replaceAll_absent hb]
    rfl
  | cons d a ih =>
    have hfirst : ¬pat.isPrefixOf (d :: (a ++ c :: (pat ++ b))) = true := by
      intro hp
      obtain ⟨t, ht⟩ := List.isPrefixOf_iff_prefix.mp hp
      have hshort : pat <+: d :: a := by
        rcases List.prefix_or_prefix_of_prefix (⟨t, ht⟩ : pat <+: (d :: a) ++ c :: (pat ++ b))
          (List.prefix_append _ _) with h | ⟨w, hw⟩
        · exact h
        · cases w with
          | nil => exact ⟨[], by rw [← hw, List.append_nil, List.append_nil]⟩
          | cons e w =>
            rw [← hw, List.append_assoc] at ht
            obtain ⟨rfl, -⟩ := List.cons.inj (List.append_cancel_left ht)
            exact absurd (hw ▸ List.mem_append_right _ List.mem_cons_self) hc
      exact ha hshort.isInfix
    rw [List.cons_append, replaceAll, replaceFrom, if_neg hfirst]
    exact congrArg (d :: ·) (ih fun hi => ha (hi.trans (List.suffix_cons d a).isInfix))

theorem substitute_absent (h : ∀ sub ∈ subs, ¬sub.1 <:+: text) : substitute subs text = text := by
  induction subs with
  | nil => rfl
  | cons sub subs ih =>
    have hfirst : replaceAll sub.1 sub.2 text = text := replaceAll_absent (h sub List.mem_cons_self)
    show substitute subs (replaceAll sub.1 sub.2 text) = text
    rw [hfirst]
    exact ih fun sub' hsub' => h sub' (List.mem_cons_of_mem sub hsub')

/-- **A value goes in where its pattern stands**, as it is, if it holds none of
the patterns: between two characters that no pattern has, and nothing else of
the text matches. -/
theorem substitute_hole {before after : List (List Char × List Char)} {d : Char}
    (hsubs : ∀ sub ∈ before ++ (pat, v) :: after, sub.1 ≠ [] ∧ c ∉ sub.1 ∧ d ∉ sub.1 ∧ ¬sub.1 <:+: a ∧
      ¬sub.1 <:+: b ∧ ¬sub.1 <:+: v)
    (hdistinct : ∀ sub ∈ before, ¬sub.1 <:+: pat) :
    substitute (before ++ (pat, v) :: after) (a ++ c :: (pat ++ d :: b)) = a ++ c :: (v ++ d :: b) := by
  have hapart : ∀ {p w : List Char}, c ∉ p → d ∉ p → ¬p <:+: a → ¬p <:+: b → ¬p <:+: w →
      ¬p <:+: a ++ c :: (w ++ d :: b) := by
    intro p w hc hd ha hb hw h
    rcases infix_apart hc h with h | h
    · exact ha h
    · rcases infix_apart hd h with h | h
      · exact hw h
      · exact hb h
  rw [substitute, List.foldl_append]
  have hbefore : substitute before (a ++ c :: (pat ++ d :: b)) = a ++ c :: (pat ++ d :: b) := by
    refine substitute_absent fun sub hsub => ?_
    obtain ⟨-, hc, hd, ha, hb, -⟩ := hsubs sub (List.mem_append_left _ hsub)
    exact hapart hc hd ha hb (hdistinct sub hsub)
  obtain ⟨hne, hc, hd, ha, hb, -⟩ := hsubs (pat, v) (List.mem_append_right _ List.mem_cons_self)
  have hb' : ¬pat <:+: d :: b := fun h => (infix_apart (a := []) hd h).elim
    (fun h => hne (List.infix_nil.mp h)) hb
  have hsubst : replaceAll pat v (a ++ c :: (pat ++ d :: b)) = a ++ c :: (v ++ d :: b) :=
    replaceAll_once hne hc ha hb'
  have hafter : substitute after (a ++ c :: (v ++ d :: b)) = a ++ c :: (v ++ d :: b) := by
    refine substitute_absent fun sub hsub => ?_
    obtain ⟨-, hc, hd, ha, hb, hv⟩ :=
      hsubs sub (List.mem_append_right _ (List.mem_cons_of_mem _ hsub))
    exact hapart hc hd ha hb hv
  show substitute after (replaceAll pat v (substitute before _)) = _
  rw [hbefore, hsubst, hafter]

end BigDataPlatform.Lib.Substitute
