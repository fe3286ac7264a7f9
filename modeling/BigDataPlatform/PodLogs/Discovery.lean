import BigDataPlatform.Lib.Relabel
import BigDataPlatform.PodLogs.Pipeline

/-! # config.alloy: discovery.relabel "pods"

What the labels of a container's logs are. The values of labels are in runes. -/
namespace BigDataPlatform.PodLogs
open Lib.Regex Lib.Relabel

/-! ## The rules -/

/-- `[0-9a-z-.]`. -/
def nameChar (c : Char) : Bool := c.isDigit || c.isLower || c = '-' || c = '.'

/-- `[0-9a-f]`. -/
def hexDigit (c : Char) : Bool := c.isDigit || ('a' ≤ c && c ≤ 'f')

/-- `[0-9a-f]{8,10}`. -/
def hash : Re :=
  .alt (Re.each (List.replicate 10 hexDigit))
    (.alt (Re.each (List.replicate 9 hexDigit)) (Re.each (List.replicate 8 hexDigit)))

/-- `(-[0-9a-f]{8,10})?`. -/
def hashTail : Re := .alt (.seq (.one (· = '-')) hash) .empty

/-- `([0-9a-z-.]+?)(-[0-9a-f]{8,10})?`. -/
def controllerName : Matcher := andThen (grouped (lazyPlus nameChar)) hashTail.run

/-- `true/(.*)`. -/
def afterTrue : Re := .seq (.word id ['t', 'r', 'u', 'e', '/']) (.group (.many anyChar))

def podLogDir : List Char := "/var/log/pods/".toList

/-- `/var/log/pods/*$1/*.log`. -/
def logGlob : List Piece := [.text (podLogDir ++ ['*']), .group, .text ['/', '*', '.', 'l', 'o', 'g']]

/-- A static pod's directory is named after its configuration's hash. -/
def staticPath : Rule where
  sourceLabels := ["__meta_kubernetes_pod_annotationpresent_kubernetes_io_config_hash",
    "__meta_kubernetes_pod_annotation_kubernetes_io_config_hash",
    "__meta_kubernetes_pod_container_name"]
  separator := ['/']
  regex := afterTrue.run
  targetLabel := "__path__"
  replacement := logGlob

def uidPath : Rule where
  sourceLabels := ["__meta_kubernetes_pod_uid", "__meta_kubernetes_pod_container_name"]
  separator := ['/']
  targetLabel := "__path__"
  replacement := logGlob

def controllerRule : Rule where
  sourceLabels := ["__meta_kubernetes_pod_controller_name"]
  regex := controllerName
  targetLabel := "__tmp_controller_name"

def appRule : Rule :=
  .firstOf ["__meta_kubernetes_pod_label_app_kubernetes_io_name", "__meta_kubernetes_pod_label_app",
    "__tmp_controller_name", "__meta_kubernetes_pod_name"] "app"

def instanceRule : Rule :=
  .firstOf ["__meta_kubernetes_pod_label_app_kubernetes_io_instance",
    "__meta_kubernetes_pod_label_instance"] "instance"

def componentRule : Rule :=
  .firstOf ["__meta_kubernetes_pod_label_app_kubernetes_io_component",
    "__meta_kubernetes_pod_label_component"] "component"

def jobRule : Rule where
  sourceLabels := ["namespace", "app"]
  separator := ['/']
  targetLabel := "job"

def podRules : List Rule := [
  controllerRule, appRule, instanceRule, componentRule,
  .copy "__meta_kubernetes_pod_node_name" "node_name",
  .copy "__meta_kubernetes_namespace" "namespace",
  jobRule,
  .copy "__meta_kubernetes_pod_name" "pod",
  .copy "__meta_kubernetes_pod_container_name" "container",
  uidPath, staticPath,
  .copy "__meta_kubernetes_pod_label_spark_role" "spark_role",
  .copy "__meta_kubernetes_pod_label_spark_app_selector" "spark_app_selector",
  .copy "__meta_kubernetes_pod_label_tier" "tier",
  .copy "__meta_kubernetes_pod_ip" "pod_ip",
  .copy "__meta_kubernetes_pod_host_ip" "host_ip"]

/-! ## What discovery.kubernetes gives -/

/-- `[0-9a-f-]`, of a UUID's length, with its last group of twelve. -/
structure IsUid (id : List Char) : Prop where
  chars : ∀ c ∈ id, hexDigit c = true ∨ c = '-'
  length : id.length = 36
  dash : id[23]? = some '-'

/-- What a pod's author may write as they like: an owner's name, an annotation. -/
def unchecked : List String := [
  "__meta_kubernetes_pod_controller_name",
  "__meta_kubernetes_pod_annotation_kubernetes_io_config_hash"]

/-- The labels that a rule reads, less those that a rule has set and those that
nobody checks. -/
def podSources : List String :=
  (podRules.flatMap (·.sourceLabels)).filter fun n => !targetLabels.contains n && !unchecked.contains n

/-- A container of a pod, with what the API server admits as a name, a label's
value or an id. -/
structure PodTarget where
  labels : Labels
  unset : ∀ n ∈ targetLabels, labels n = []
  value : ∀ n ∈ podSources, '\n' ∉ labels n ∧ ';' ∉ labels n
  container : ∀ c ∈ labels "__meta_kubernetes_pod_container_name", nameChar c = true
  uid : IsUid (labels "__meta_kubernetes_pod_uid")
  present : labels "__meta_kubernetes_pod_annotationpresent_kubernetes_io_config_hash" = [] ∨
    labels "__meta_kubernetes_pod_annotationpresent_kubernetes_io_config_hash" = ['t', 'r', 'u', 'e']

/-! ## The controller's name -/

def isHash (h : List Char) : Bool := 8 ≤ h.length && h.length ≤ 10 && h.all hexDigit

/-- A ReplicaSet's name without the hash after its last dash. -/
def stripHash (name : List Char) : List Char :=
  let h := name.reverse.takeWhile (· ≠ '-')
  let d := (name.reverse.dropWhile (· ≠ '-')).tail
  if isHash h && d ≠ [] then d.reverse else name

/-- A name of other characters leaves the label empty. -/
def controllerLabel (name : List Char) : List Char :=
  if name.all nameChar then stripHash name else []

theorem nameChar_of_hex {c : Char} (h : hexDigit c = true) : nameChar c = true := by
  simp only [hexDigit, Bool.or_eq_true, Bool.and_eq_true, decide_eq_true_eq] at h
  rcases h with h | ⟨hlow, hhigh⟩
  · simp [nameChar, h]
  · have hz : c.isLower = true :=
      Bool.and_eq_true_iff.mpr ⟨decide_eq_true hlow, decide_eq_true (Char.le_trans hhigh (by decide))⟩
    simp [nameChar, hz]

theorem dash_not_hex {h : List Char} (hh : isHash h = true) : '-' ∉ h := by
  intro hmem
  rw [isHash, Bool.and_eq_true, List.all_eq_true] at hh
  exact absurd (hh.2 _ hmem) (by decide)

theorem isHash_reverse (h : List Char) : isHash h.reverse = isHash h := by
  rw [isHash, isHash, List.length_reverse, List.all_reverse]

theorem stripHash_hashed {d h : List Char} (hd : d ≠ []) (hh : isHash h = true) :
    stripHash (d ++ '-' :: h) = d := by
  have hreverse : (d ++ '-' :: h).reverse = h.reverse ++ '-' :: d.reverse := by simp
  have hdash : ∀ c ∈ h.reverse, decide (c ≠ '-') = true := fun c hc =>
    decide_eq_true fun he => dash_not_hex hh (he ▸ List.mem_reverse.mp hc)
  have htake : (h.reverse ++ '-' :: d.reverse).takeWhile (· ≠ '-') = h.reverse := by
    rw [List.takeWhile_append_of_pos hdash]
    simp
  have hdrop : (h.reverse ++ '-' :: d.reverse).dropWhile (· ≠ '-') = '-' :: d.reverse := by
    rw [List.dropWhile_append_of_pos hdash]
    simp
  simp only [stripHash, hreverse, htake, hdrop, List.tail_cons]
  rw [isHash_reverse, hh, if_pos (by simpa using hd), List.reverse_reverse]

theorem stripHash_plain {name : List Char} (h : ∀ d h, d ≠ [] → isHash h = true → name ≠ d ++ '-' :: h) :
    stripHash name = name := by
  simp only [stripHash]
  split
  · next hif =>
    rw [Bool.and_eq_true, decide_eq_true_iff] at hif
    obtain ⟨hhash, hne⟩ := hif
    exfalso
    generalize hrest : name.reverse.dropWhile (· ≠ '-') = rest at hne
    cases rest with
    | nil => exact hne rfl
    | cons c d =>
      have hc : c = '-' := by
        have hhead := List.head?_dropWhile_not (fun x => decide (x ≠ '-')) name.reverse
        rw [hrest] at hhead
        simpa using hhead
      have hsplit := List.takeWhile_append_dropWhile (p := fun x => decide (x ≠ '-')) (l := name.reverse)
      rw [hrest, hc] at hsplit
      have hname : name = (name.reverse.takeWhile (fun x => decide (x ≠ '-')) ++ '-' :: d).reverse := by
        rw [hsplit, List.reverse_reverse]
      refine h d.reverse _ (by simpa using hne) ((isHash_reverse _).trans hhash) (hname.trans ?_)
      rw [List.reverse_append, List.reverse_cons, List.append_assoc]
      rfl
  · rfl

theorem hashTail_keeps (s t : Pos) (h : t ∈ hashTail.run s) : t.captured = s.captured := by
  have hnone : hashTail.GroupIn fun _ => False := by
    refine ⟨⟨trivial, ?_, ?_, ?_⟩, trivial⟩
    all_goals
      refine Re.groupIn_seqs.mpr fun r hr => ?_
      obtain ⟨p, -, rfl⟩ := List.mem_map.mp hr
      trivial
  rcases Re.captured_of_mem_run hnone h with h | ⟨_, _, h⟩
  · exact h
  · exact h.elim

theorem mem_run_hash {s t : Pos} :
    t ∈ hash.run s ↔ ∃ h, isHash h = true ∧ s.Past t h ∧ t.captured = s.captured := by
  have hruns : t ∈ hash.run s ↔ ∃ k, (k = 10 ∨ k = 9 ∨ k = 8) ∧
      t ∈ (Re.each (List.replicate k hexDigit)).run s := by
    show t ∈ (Re.each _).run s ++ ((Re.each _).run s ++ (Re.each _).run s) ↔ _
    simp [List.mem_append]
  rw [hruns]
  constructor
  · intro h
    obtain ⟨k, hk, h⟩ := h
    obtain ⟨w, ⟨hlen, hall⟩, hp, hc⟩ := mem_run_times.mp h
    refine ⟨w, ?_, hp, hc⟩
    have hbounds : 8 ≤ w.length ∧ w.length ≤ 10 := by omega
    simp [isHash, hbounds, List.all_eq_true.mpr hall]
  · intro h
    obtain ⟨w, hw, hp, hc⟩ := h
    simp only [isHash, Bool.and_eq_true, decide_eq_true_iff, List.all_eq_true] at hw
    exact ⟨w.length, by omega, mem_run_times.mpr ⟨w, ⟨rfl, hw.2⟩, hp, hc⟩⟩

/-- The tail ends the text where nothing is left, or a dash and a hash. -/
theorem hashTail_ends {s : Pos} :
    (∃ t ∈ hashTail.run s, t.rest = []) ↔ s.rest = [] ∨ ∃ h, s.rest = '-' :: h ∧ isHash h = true := by
  constructor
  · intro h
    obtain ⟨t, ht, hend⟩ := h
    rcases List.mem_append.mp ht with ht | ht
    · obtain ⟨u, hu, ht⟩ := List.mem_flatMap.mp ht
      obtain ⟨c, hc, hpu, -⟩ := mem_run_one.mp hu
      obtain ⟨w, hw, hpt, -⟩ := mem_run_hash.mp ht
      refine Or.inr ⟨w, ?_, hw⟩
      rw [(hpu.trans hpt).rest, hend, of_decide_eq_true hc, List.append_nil]
      rfl
    · rw [List.mem_singleton.mp ht] at hend
      exact Or.inl hend
  · intro h
    obtain ⟨before, rest, captured⟩ := s
    rcases h with rfl | ⟨w, rfl, hw⟩
    · exact ⟨_, List.mem_append_right _ (List.mem_singleton_self _), rfl⟩
    · have hpu : Pos.Past ⟨before, '-' :: w, captured⟩ ⟨'-' :: before, w, captured⟩ ['-'] := ⟨rfl, rfl⟩
      have hpt : Pos.Past ⟨'-' :: before, w, captured⟩ ⟨w.reverse ++ '-' :: before, [], captured⟩ w :=
        ⟨(List.append_nil w).symm, rfl⟩
      refine ⟨_, List.mem_append_left _ (List.mem_flatMap.mpr ⟨_, ?_, mem_run_hash.mpr ⟨w, hw, hpt, rfl⟩⟩), rfl⟩
      exact mem_run_one.mpr ⟨'-', rfl, hpu, rfl⟩

theorem find_controllerName {name : List Char} (hne : name ≠ []) (hname : ∀ c ∈ name, nameChar c = true) :
    (fullMatch controllerName name).map matched = some (stripHash name) := by
  by_cases hhash : ∃ d h, d ≠ [] ∧ isHash h = true ∧ name = d ++ '-' :: h
  · obtain ⟨d, h, hd, hh, rfl⟩ := hhash
    rw [stripHash_hashed hd hh]
    refine find_lazy hashTail_keeps hd (fun c hc => hname c (List.mem_append_left _ hc))
      (hashTail_ends.mpr (Or.inr ⟨h, rfl, hh⟩)) fun v x hv _ hx s hs t ht hend => ?_
    -- a shorter start would leave a dash inside the hash
    rcases hashTail_ends.mp ⟨t, ht, hend⟩ with hrest | ⟨h', hrest, hh'⟩
    · rw [hs] at hrest
      exact hx (List.append_eq_nil_iff.mp hrest).1
    · rw [hs] at hrest
      cases x with
      | nil => exact hx rfl
      | cons c x =>
        obtain ⟨-, htail⟩ := List.cons.inj hrest
        exact dash_not_hex hh' (htail ▸ List.mem_append_right x List.mem_cons_self)
  · have hplain : ∀ d h, d ≠ [] → isHash h = true → name ≠ d ++ '-' :: h := fun d h hd hh he =>
      hhash ⟨d, h, hd, hh, he⟩
    rw [stripHash_plain hplain]
    have hfind : (fullMatch controllerName (name ++ [])).map matched = some name :=
      find_lazy hashTail_keeps hne hname
        (hashTail_ends.mpr (Or.inl rfl)) fun v x hv hv' hx s hs t ht hend => by
          rw [List.append_nil] at hs
          rcases hashTail_ends.mp ⟨t, ht, hend⟩ with hrest | ⟨h', hrest, hh'⟩
          · exact hx (hs ▸ hrest)
          · exact hplain v h' hv' hh' (by rw [hv, ← hs, hrest])
    rwa [List.append_nil] at hfind

/-- The expression takes no other name. -/
theorem find_controllerName_none {name : List Char} (h : name.all nameChar = false) :
    fullMatch controllerName name = none := by
  rw [← Option.not_isSome_iff_eq_none, fullMatch_isSome]
  rintro ⟨t, ht, hend⟩
  obtain ⟨u, hu, ht⟩ := List.mem_flatMap.mp ht
  obtain ⟨v, hv, rfl⟩ := List.mem_map.mp hu
  obtain ⟨w, hw, hall⟩ := all_of_mem_lazyPlus hv
  have hw : name = w ++ v.rest := hw
  have hname : ∀ c ∈ name, nameChar c = true := by
    rw [hw]
    refine List.forall_mem_append.mpr ⟨hall, ?_⟩
    rcases hashTail_ends.mp ⟨t, ht, hend⟩ with hrest | ⟨hash, hrest, hhash⟩
    · have hrest : v.rest = [] := hrest
      simp [hrest]
    · have hrest : v.rest = '-' :: hash := hrest
      rw [isHash, Bool.and_eq_true, List.all_eq_true] at hhash
      rw [hrest]
      exact List.forall_mem_cons.mpr ⟨by decide, fun c hc => nameChar_of_hex (hhash.2 c hc)⟩
  rw [List.all_eq_true.mpr hname] at h
  cases h

theorem result_controller (t : PodTarget) : controllerRule.result t.labels =
    controllerLabel (t.labels "__meta_kubernetes_pod_controller_name") := by
  have hvalue : controllerRule.value t.labels = t.labels "__meta_kubernetes_pod_controller_name" :=
    List.intercalate_singleton
  have hunset := t.unset "__tmp_controller_name" (by decide)
  rw [Rule.result, hvalue, controllerLabel]
  generalize t.labels "__meta_kubernetes_pod_controller_name" = name
  by_cases hname : name.all nameChar = true
  · rw [if_pos hname]
    cases name with
    | nil => exact hunset
    | cons c name =>
      have hfind := find_controllerName (List.cons_ne_nil c name) (List.all_eq_true.mp hname)
      obtain ⟨p, hp, hmatched⟩ := Option.map_eq_some_iff.mp hfind
      have hregex : fullMatch controllerRule.regex (c :: name) = some p := hp
      rw [hregex]
      exact (expand_group _).trans hmatched
  · have hregex : fullMatch controllerRule.regex name = none :=
      find_controllerName_none (Bool.eq_false_iff.mpr hname)
    rw [if_neg hname, hregex]
    exact hunset

/-! ## The path -/

/-- What the path rules take for the pod's log directory: the annotation, where
there is one on a single line. -/
def PodTarget.pathId (t : PodTarget) : List Char :=
  if t.labels "__meta_kubernetes_pod_annotationpresent_kubernetes_io_config_hash" = [] ∨
      '\n' ∈ t.labels "__meta_kubernetes_pod_annotation_kubernetes_io_config_hash" then
    t.labels "__meta_kubernetes_pod_uid"
  else t.labels "__meta_kubernetes_pod_annotation_kubernetes_io_config_hash"

def logPattern (id container : List Char) : List Char :=
  podLogDir ++ '*' :: (id ++ '/' :: container ++ ['/', '*', '.', 'l', 'o', 'g'])

theorem expand_logGlob (id container : List Char) :
    expand logGlob (id ++ '/' :: container) = logPattern id container := by
  simp [expand, logGlob, logPattern]

theorem find_afterTrue {w : List Char} (hw : '\n' ∉ w) :
    (fullMatch afterTrue.run (['t', 'r', 'u', 'e', '/'] ++ w)).map matched = some w := by
  have hall : ∀ c ∈ w, anyChar c = true := fun c hc => decide_eq_true fun he => hw (he ▸ hc)
  have hword : ((Re.word id ['t', 'r', 'u', 'e', '/']).run
      ⟨[], ['t', 'r', 'u', 'e', '/'] ++ w, none⟩).head? = some ⟨['/', 'e', 'u', 'r', 't'], w, none⟩ := by
    simp [Re.word, Re.seqs, Re.run]
  have hmany := head_many_all hall ['/', 'e', 'u', 'r', 't'] none
  have hpath : (afterTrue.run ⟨[], ['t', 'r', 'u', 'e', '/'] ++ w, none⟩).head? = some _ :=
    head_seq hword (head_group hmany)
  rw [fullMatch_of_head hpath rfl, Option.map_some, matched,
    captureBetween_eq (w := w) ⟨(List.append_nil _).symm, rfl⟩]
  rfl

theorem afterTrue_slash (w : List Char) : fullMatch afterTrue.run ('/' :: w) = none := by
  have hrun : afterTrue.run ⟨[], '/' :: w, none⟩ = [] := by simp [afterTrue, Re.word, Re.seqs, Re.run]
  rw [fullMatch, hrun]
  rfl

theorem afterTrue_line {text : List Char} (hline : '\n' ∈ text) :
    fullMatch afterTrue.run text = none := by
  rw [← Option.not_isSome_iff_eq_none, fullMatch_isSome]
  rintro ⟨t, ht, hend⟩
  obtain ⟨s, hs, ht⟩ := List.mem_flatMap.mp ht
  obtain ⟨u, hu, rfl⟩ := List.mem_map.mp ht
  obtain ⟨w, hw, hps, -⟩ := mem_run_word.mp hs
  obtain ⟨v, hv, hall⟩ := all_of_mem_runMany hu
  rw [show u.rest = [] from hend, List.append_nil] at hv
  have htext : text = ['t', 'r', 'u', 'e', '/'] ++ v := by
    rw [List.map_id] at hw
    exact hps.rest.trans (by rw [hw, hv])
  rw [htext, List.mem_append] at hline
  rcases hline with hline | hline
  · exact absurd hline (by decide)
  · exact absurd (hall _ hline) (by decide)

theorem value_uidPath (ls : Labels) : uidPath.value ls =
    ls "__meta_kubernetes_pod_uid" ++ '/' :: ls "__meta_kubernetes_pod_container_name" := by
  simp [Rule.value, uidPath, List.intercalate_cons_cons]

theorem value_staticPath (ls : Labels) : staticPath.value ls =
    ls "__meta_kubernetes_pod_annotationpresent_kubernetes_io_config_hash" ++
      '/' :: (ls "__meta_kubernetes_pod_annotation_kubernetes_io_config_hash" ++
        '/' :: ls "__meta_kubernetes_pod_container_name") := by
  simp [Rule.value, staticPath, List.intercalate_cons_cons]

/-- On a target that has the path for its uid. -/
theorem result_staticPath (t : PodTarget) {ls : Labels}
    (hsources : ∀ s ∈ staticPath.sourceLabels, ls s = t.labels s)
    (hpath : ls "__path__" = logPattern (t.labels "__meta_kubernetes_pod_uid")
      (t.labels "__meta_kubernetes_pod_container_name")) :
    staticPath.result ls = logPattern t.pathId (t.labels "__meta_kubernetes_pod_container_name") := by
  have hpresent := hsources "__meta_kubernetes_pod_annotationpresent_kubernetes_io_config_hash" (by decide)
  have hhash := hsources "__meta_kubernetes_pod_annotation_kubernetes_io_config_hash" (by decide)
  have hcontainer := hsources "__meta_kubernetes_pod_container_name" (by decide)
  have hline' := (t.value "__meta_kubernetes_pod_container_name" (by decide)).1
  rw [Rule.result, value_staticPath, hpresent, hhash, hcontainer, PodTarget.pathId,
    show staticPath.regex = afterTrue.run from rfl]
  generalize t.labels "__meta_kubernetes_pod_annotation_kubernetes_io_config_hash" = hash
  generalize t.labels "__meta_kubernetes_pod_container_name" = container at *
  rcases t.present with habsent | hthere
  · rw [habsent, if_pos (.inl rfl), List.nil_append, afterTrue_slash]
    exact hpath
  rw [hthere]
  by_cases hline : '\n' ∈ hash
  · rw [if_pos (.inr hline), afterTrue_line (by simp [hline])]
    exact hpath
  · rw [if_neg (by simp [hline])]
    obtain ⟨p, hp, hmatched⟩ := Option.map_eq_some_iff.mp (find_afterTrue
      (w := hash ++ '/' :: container) (by simp [hline, hline']))
    have hp : fullMatch afterTrue.run (['t', 'r', 'u', 'e'] ++ '/' :: (hash ++ '/' :: container)) =
      some p := hp
    rw [hp]
    exact (congrArg (expand logGlob) hmatched).trans (expand_logGlob _ _)

/-! ## The labels -/

variable {t : PodTarget} {out : Labels}

/-- The labels that are copied. -/
def podCopies : List (String × String) := [
  ("__meta_kubernetes_pod_node_name", "node_name"),
  ("__meta_kubernetes_namespace", "namespace"),
  ("__meta_kubernetes_pod_name", "pod"),
  ("__meta_kubernetes_pod_container_name", "container"),
  ("__meta_kubernetes_pod_label_spark_role", "spark_role"),
  ("__meta_kubernetes_pod_label_spark_app_selector", "spark_app_selector"),
  ("__meta_kubernetes_pod_label_tier", "tier"),
  ("__meta_kubernetes_pod_ip", "pod_ip"),
  ("__meta_kubernetes_pod_host_ip", "host_ip")]

theorem podCopies_sources : ∀ c ∈ podCopies, c.1 ∈ podSources ∧ (∀ r ∈ podRules, c.1 ≠ r.targetLabel) ∧
    (podRules.map (·.targetLabel)).count c.2 = 1 := by
  decide

theorem relabelled_copy (h : relabel podRules t.labels = some out) {c : String × String}
    (hc : c ∈ podCopies) : out c.2 = t.labels c.1 := by
  obtain ⟨hsource, hunset, hcount⟩ := podCopies_sources c hc
  have hrule : .copy c.1 c.2 ∈ podRules := by
    revert c
    simp [podCopies, podRules]
  rw [relabel_only h (filter_once c.2 hrule rfl hcount) rfl fun s hs => List.mem_singleton.mp hs ▸ hunset]
  exact result_copy (t.value c.1 hsource).1 c.2

theorem mem_stripHash {name : List Char} {c : Char} (h : c ∈ stripHash name) : c ∈ name := by
  by_cases hhash : ∃ d h, d ≠ [] ∧ isHash h = true ∧ name = d ++ '-' :: h
  · obtain ⟨d, h', hd, hh, rfl⟩ := hhash
    rw [stripHash_hashed hd hh] at h
    exact List.mem_append_left _ h
  · rwa [stripHash_plain fun d h hd hh he => hhash ⟨d, h, hd, hh, he⟩] at h

/-- What `app` is taken from, the preferred first. -/
def PodTarget.appCandidates (t : PodTarget) : List (List Char) := [
  t.labels "__meta_kubernetes_pod_label_app_kubernetes_io_name",
  t.labels "__meta_kubernetes_pod_label_app",
  controllerLabel (t.labels "__meta_kubernetes_pod_controller_name"),
  t.labels "__meta_kubernetes_pod_name"]

theorem controllerLabel_value (name : List Char) :
    '\n' ∉ controllerLabel name ∧ ';' ∉ controllerLabel name := by
  rw [controllerLabel]
  split
  · next hname =>
    have hchar : ∀ c ∈ stripHash name, nameChar c = true := fun c hc =>
      List.all_eq_true.mp hname c (mem_stripHash hc)
    exact ⟨fun h => absurd (hchar _ h) (by decide), fun h => absurd (hchar _ h) (by decide)⟩
  · simp

theorem appCandidates_value (t : PodTarget) : ∀ v ∈ t.appCandidates, '\n' ∉ v ∧ ';' ∉ v := by
  simp only [PodTarget.appCandidates, List.forall_mem_cons]
  exact ⟨t.value _ (by decide), t.value _ (by decide), controllerLabel_value _, t.value _ (by decide),
    List.forall_mem_nil _⟩

theorem relabelled_app (h : relabel podRules t.labels = some out) :
    out "app" = firstValue t.appCandidates := by
  rw [podRules, relabel_cons, apply_replace rfl, result_controller, Option.bind_some] at h
  generalize hls : Function.update t.labels controllerRule.targetLabel _ = ls at h
  have hmap : appRule.sourceLabels.map ls = t.appCandidates := by
    rw [← hls]
    simp [appRule, Rule.firstOf, controllerRule, PodTarget.appCandidates]
  have hvalue : ∀ s ∈ appRule.sourceLabels, '\n' ∉ ls s ∧ ';' ∉ ls s := fun s hs =>
    appCandidates_value t _ (hmap ▸ List.mem_map_of_mem hs)
  have hunset : ls "app" = [] := by
    rw [← hls, Function.update_of_ne (by decide)]
    exact t.unset "app" (by decide)
  rw [relabel_only h (filter_once "app" (r := appRule) (by simp) rfl (by decide)) rfl (by decide)]
  exact (result_firstOf hvalue hunset).trans (congrArg firstValue hmap)

theorem relabelled_firstOf (h : relabel podRules t.labels = some out) {sources : List String} {n : String}
    (honly : podRules.filter (·.targetLabel = n) = [.firstOf sources n])
    (hsources : ∀ s ∈ sources, s ∈ podSources ∧ ∀ r ∈ podRules, s ≠ r.targetLabel) (hn : n ∈ targetLabels) :
    out n = firstValue (sources.map t.labels) := by
  rw [relabel_only h honly rfl fun s hs => (hsources s hs).2]
  exact result_firstOf (fun s hs => t.value s (hsources s hs).1) (t.unset n hn)

theorem relabelled_job (h : relabel podRules t.labels = some out) :
    out "job" = t.labels "__meta_kubernetes_namespace" ++ '/' :: out "app" := by
  have happ := relabelled_app h
  have hnamespace : out "namespace" = t.labels "__meta_kubernetes_namespace" :=
    relabelled_copy h (c := ("__meta_kubernetes_namespace", "namespace")) (by simp [podCopies])
  rw [← List.take_append_drop 6 podRules, relabel_append] at h
  obtain ⟨mid, -, hrest⟩ := Option.bind_eq_some_iff.mp h
  have hvalue : jobRule.value mid = t.labels "__meta_kubernetes_namespace" ++ '/' :: out "app" := by
    rw [← hnamespace, relabel_other hrest (n := "namespace") (by decide),
      relabel_other hrest (n := "app") (by decide)]
    simp [Rule.value, jobRule, List.intercalate_cons_cons]
  have hline : '\n' ∉ jobRule.value mid := by
    rw [hvalue, happ, List.mem_append, List.mem_cons, not_or, not_or]
    refine ⟨(t.value _ (by decide)).1, by decide, ?_⟩
    rcases firstValue_mem t.appCandidates with hmem | hnil
    · exact (appCandidates_value t _ hmem).1
    · rw [hnil]
      exact List.not_mem_nil
  rw [relabel_only hrest (filter_once "job" (r := jobRule) (by simp [podRules]) rfl (by decide)) rfl (by decide),
    result_anything rfl hline, hvalue]
  exact expand_group _

theorem relabelled_path (h : relabel podRules t.labels = some out) :
    out "__path__" = logPattern t.pathId (t.labels "__meta_kubernetes_pod_container_name") := by
  rw [← List.take_append_drop 10 podRules, relabel_append] at h
  obtain ⟨mid, hmid, hrest⟩ := Option.bind_eq_some_iff.mp h
  have hline : '\n' ∉ uidPath.value t.labels := by
    rw [value_uidPath, List.mem_append, List.mem_cons, not_or, not_or]
    exact ⟨(t.value _ (by decide)).1, by decide, (t.value _ (by decide)).1⟩
  have huid : mid "__path__" = uidPath.result t.labels :=
    relabel_only hmid (filter_once "__path__" (r := uidPath) (by simp [podRules]) rfl (by decide)) rfl (by decide)
  rw [result_anything rfl hline, value_uidPath] at huid
  rw [relabel_only hrest (filter_once "__path__" (r := staticPath) (by simp [podRules]) rfl (by decide)) rfl (by decide)]
  refine result_staticPath t (fun s hs => relabel_other hmid ?_) (huid.trans (expand_logGlob _ _))
  exact (show ∀ s ∈ staticPath.sourceLabels, ∀ r ∈ podRules.take 10, s ≠ r.targetLabel by decide) s hs

/-- **The labels of a container's logs.** For every container of every pod, whatever
its owner is called and its annotation says: the job is its namespace and the first
of its names that is there, the path is that of the directory that the rules take
for its own, and what is copied is copied. -/
theorem pods_labels (t : PodTarget) : ∃ out, relabel podRules t.labels = some out ∧
    out "app" = firstValue t.appCandidates ∧
    out "instance" = firstValue [t.labels "__meta_kubernetes_pod_label_app_kubernetes_io_instance",
      t.labels "__meta_kubernetes_pod_label_instance"] ∧
    out "component" = firstValue [t.labels "__meta_kubernetes_pod_label_app_kubernetes_io_component",
      t.labels "__meta_kubernetes_pod_label_component"] ∧
    out "job" = t.labels "__meta_kubernetes_namespace" ++ '/' :: firstValue t.appCandidates ∧
    out "__path__" = logPattern t.pathId (t.labels "__meta_kubernetes_pod_container_name") ∧
    (∀ c ∈ podCopies, out c.2 = t.labels c.1) ∧ ∀ n ∉ targetLabels, out n = t.labels n := by
  obtain ⟨out, h⟩ := relabel_isSome (by decide : ∀ r ∈ podRules, r.action = .replace) t.labels
  have hinstance : podRules.filter (·.targetLabel = "instance") = [instanceRule] :=
    filter_once "instance" (r := instanceRule) (by simp [podRules]) rfl (by decide)
  have hcomponent : podRules.filter (·.targetLabel = "component") = [componentRule] :=
    filter_once "component" (r := componentRule) (by simp [podRules]) rfl (by decide)
  refine ⟨out, h, relabelled_app h, relabelled_firstOf h hinstance (by decide) (by decide),
    relabelled_firstOf h hcomponent (by decide) (by decide), ?_, relabelled_path h,
    fun c => relabelled_copy h, ?_⟩
  · rw [relabelled_job h, relabelled_app h]
  · intro n hn
    have htargets : ∀ r ∈ podRules, r.targetLabel ∈ targetLabels := by decide
    exact relabel_other h fun r hr he => hn (he ▸ htargets r hr)

/-- A pod of a Deployment that has no label for its name. -/
def supersetLabels : Labels := fun n => ([
  ("__meta_kubernetes_namespace", "default"),
  ("__meta_kubernetes_pod_name", "superset-5b4d8f9c6f-x2x7q"),
  ("__meta_kubernetes_pod_controller_name", "superset-5b4d8f9c6f"),
  ("__meta_kubernetes_pod_container_name", "web"),
  ("__meta_kubernetes_pod_uid", "0d4f7a3e-52b1-4c8e-9a60-1b7c2d9e8f35")].lookup n |>.getD "").toList

theorem supersetUid_chars : ∀ c ∈ supersetLabels "__meta_kubernetes_pod_uid", hexDigit c = true ∨ c = '-' := by
  have hall : (supersetLabels "__meta_kubernetes_pod_uid").all (fun c => hexDigit c || c = '-') = true := by
    decide +kernel
  simpa using hall

def supersetTarget : PodTarget where
  labels := supersetLabels
  unset := by decide +kernel
  value := by decide +kernel
  container := List.all_eq_true.mp (by decide +kernel)
  uid := ⟨supersetUid_chars, by decide +kernel, by decide +kernel⟩
  present := Or.inl (by decide +kernel)

example : (relabel podRules supersetTarget.labels).map (· "job") = some "default/superset".toList := by
  decide +kernel

end BigDataPlatform.PodLogs
