import BigDataPlatform.Lib.Glob
import BigDataPlatform.PodLogs.Discovery

/-! # Which files are read under a target's labels

Kubelet names the log directory of a pod after the UID that it knows the pod by.
That is the API's, but for a static pod: kubelet makes up the UID of one, and
writes it into the annotation of the mirror pod that stands for it in the API. -/
namespace BigDataPlatform.PodLogs
open Lib.Regex Lib.Relabel Lib.Glob

/-- An MD5 sum. -/
structure IsConfigHash (id : List Char) : Prop where
  chars : ∀ c ∈ id, hexDigit c = true
  length : id.length = 32

/-- A container and what kubelet knows its pod by. -/
structure NodeTarget where
  target : PodTarget
  mirror : Bool
  kubeletUid : List Char
  shape : IsUid kubeletUid ∨ IsConfigHash kubeletUid
  ordinary : mirror = false → target.labels "__meta_kubernetes_pod_uid" = kubeletUid
  static : mirror = true →
    target.labels "__meta_kubernetes_pod_annotationpresent_kubernetes_io_config_hash" =
        ['t', 'r', 'u', 'e'] ∧
      target.labels "__meta_kubernetes_pod_annotation_kubernetes_io_config_hash" = kubeletUid

/-- Nobody but kubelet has given the pod the annotation of a mirror pod. -/
def NodeTarget.KubeletAnnotates (t : NodeTarget) : Prop := t.mirror = false →
  t.target.labels "__meta_kubernetes_pod_annotationpresent_kubernetes_io_config_hash" = []

/-- A log file of a container, where kubelet puts it. -/
structure LogFile where
  podNamespace : List Char
  pod : List Char
  id : List Char
  container : List Char
  base : List Char
  parts : ∀ part ∈ [podNamespace, pod, id, container, base], '/' ∉ part
  shape : IsUid id ∨ IsConfigHash id

def LogFile.dir (f : LogFile) : List Char := f.podNamespace ++ '_' :: (f.pod ++ '_' :: f.id)

def LogFile.path (f : LogFile) : List Char :=
  podLogDir ++ (f.dir ++ '/' :: (f.container ++ '/' :: f.base))

def dotLog : List Char := ['.', 'l', 'o', 'g']

theorem glob_logPattern {id container : List Char} (hid : '*' ∉ id ∧ '/' ∉ id)
    (hcontainer : '*' ∉ container ∧ '/' ∉ container) (f : LogFile) :
    glob (logPattern id container) f.path ↔
      id <:+ f.dir ∧ f.container = container ∧ dotLog <:+ f.base := by
  have hparts := f.parts
  simp only [List.forall_mem_cons] at hparts
  obtain ⟨hns, hpod, hfid, hfc, hbase, -⟩ := hparts
  have hdir : '/' ∉ f.dir := by simp [LogFile.dir, hns, hpod, hfid]
  have hmiddle : '*' ∉ id ++ '/' :: container ++ ['/'] := by simp [hid.1, hcontainer.1]
  have hpattern : logPattern id container =
      podLogDir ++ '*' :: ((id ++ '/' :: container ++ ['/']) ++ '*' :: dotLog) := by
    simp [logPattern, dotLog]
  rw [hpattern, LogFile.path, glob_text (by decide)]
  constructor
  · intro h
    obtain ⟨inside, hinside, h₁⟩ := h
    obtain rfl := List.append_cancel_left hinside
    obtain ⟨w, tail, htail, hw, h₂⟩ := glob_star.mp h₁
    obtain ⟨base, rfl, h₃⟩ := (glob_text hmiddle).mp h₂
    obtain ⟨v, last, rfl, -, h₄⟩ := glob_star.mp h₃
    obtain rfl := (glob_exact (by decide)).mp h₄
    have hsplit : f.dir ++ '/' :: (f.container ++ '/' :: f.base) =
        (w ++ id) ++ '/' :: (container ++ '/' :: (v ++ dotLog)) := by
      rw [htail]
      simp
    obtain ⟨hd, hrest⟩ := component_unique hdir (by simp [hw, hid.2]) hsplit
    obtain ⟨hc, hb⟩ := component_unique hfc hcontainer.2 hrest
    exact ⟨⟨w, hd.symm⟩, hc, v, hb.symm⟩
  · intro h
    obtain ⟨⟨w, hd⟩, hc, v, hb⟩ := h
    refine ⟨_, rfl, glob_star.mpr ⟨w, _, ?_, ?_, (glob_text hmiddle).mpr ⟨f.base, rfl, ?_⟩⟩⟩
    · rw [← hd, ← hc]
      simp
    · exact fun hmem => hdir (hd ▸ List.mem_append_left _ hmem)
    · refine glob_star.mpr ⟨v, dotLog, hb.symm, ?_, (glob_exact (by decide)).mpr rfl⟩
      exact fun hmem => hbase (hb ▸ List.mem_append_left _ hmem)

/-- The end of a UUID is no hash: there is a dash in it. -/
theorem hash_not_suffix {a b : List Char} (ha : IsConfigHash a) (hb : IsUid b) : ¬a <:+ b := by
  intro h
  obtain ⟨w, rfl⟩ := h
  have hlen := hb.length
  rw [List.length_append, ha.length] at hlen
  have hdash := hb.dash
  rw [List.getElem?_append_right (by omega)] at hdash
  exact absurd (ha.chars '-' (List.mem_of_getElem? hdash)) (by decide)

theorem suffix_iff {a b dir : List Char} (ha : IsUid a ∨ IsConfigHash a) (hb : IsUid b ∨ IsConfigHash b)
    (hdir : b <:+ dir) : a <:+ dir ↔ b = a := by
  have hsame (h : a <:+ dir) (hlen : b.length = a.length) : b = a :=
    (List.suffix_of_suffix_length_le hdir h (Nat.le_of_eq hlen)).eq_of_length hlen
  constructor
  · intro h
    rcases ha with ha | ha
    · rcases hb with hb | hb
      · exact hsame h (hb.length.trans ha.length.symm)
      · have hlen : b.length ≤ a.length := by rw [hb.length, ha.length]; omega
        exact absurd (List.suffix_of_suffix_length_le hdir h hlen) (hash_not_suffix hb ha)
    · rcases hb with hb | hb
      · have hlen : a.length ≤ b.length := by rw [hb.length, ha.length]; omega
        exact absurd (List.suffix_of_suffix_length_le h hdir hlen) (hash_not_suffix ha hb)
      · exact hsame h (hb.length.trans ha.length.symm)
  · intro h
    exact h ▸ hdir

theorem idChars {id : List Char} (h : IsUid id ∨ IsConfigHash id) : ∀ c ∈ id, hexDigit c = true ∨ c = '-' :=
  fun c hc => h.elim (fun h => h.chars c hc) fun h => Or.inl (h.chars c hc)

/-- The rules find kubelet's UID, where only kubelet annotates. -/
theorem pathId_eq {t : NodeTarget} (h : t.KubeletAnnotates) : t.target.pathId = t.kubeletUid := by
  rw [PodTarget.pathId]
  cases hm : t.mirror with
  | false =>
    rw [if_pos (.inl (h hm))]
    exact t.ordinary hm
  | true =>
    obtain ⟨hpresent, hstatic⟩ := t.static hm
    have hline : '\n' ∉ t.kubeletUid := fun hc => absurd (idChars t.shape _ hc) (by decide)
    rw [hstatic, hpresent, if_neg (by simp [hline])]

/-- **A container's logs are read under its own labels.** As long as only kubelet
annotates a pod as it does its mirror pods, the path of a target picks, of all the
log files of all the pods on a node, those of its own container and no other. -/
theorem logFile_own (t : NodeTarget) (h : t.KubeletAnnotates) :
    ∃ out, relabel podRules t.target.labels = some out ∧
      ∀ f : LogFile, glob (out "__path__") f.path ↔ f.id = t.kubeletUid ∧
        f.container = t.target.labels "__meta_kubernetes_pod_container_name" ∧ dotLog <:+ f.base := by
  obtain ⟨out, hout⟩ := relabel_isSome (by decide : ∀ r ∈ podRules, r.action = .replace) t.target.labels
  refine ⟨out, hout, fun f => ?_⟩
  have hcontainer := t.target.container
  have huid := idChars t.shape
  have hid : f.id <:+ f.dir :=
    (List.suffix_cons _ _).trans ((List.suffix_append _ _).trans
      ((List.suffix_cons _ _).trans (List.suffix_append _ _)))
  rw [relabelled_path hout, pathId_eq h,
    glob_logPattern ⟨fun hc => absurd (huid _ hc) (by decide), fun hc => absurd (huid _ hc) (by decide)⟩
      ⟨fun hc => absurd (hcontainer _ hc) (by decide), fun hc => absurd (hcontainer _ hc) (by decide)⟩,
    suffix_iff t.shape f.shape hid]

def supersetNode : NodeTarget where
  target := supersetTarget
  mirror := false
  kubeletUid := supersetLabels "__meta_kubernetes_pod_uid"
  shape := Or.inl supersetTarget.uid
  ordinary _ := rfl
  static h := nomatch h

/-- The log of a container of the same pod. -/
def supersetLog (container : List Char) (h : '/' ∉ container) : LogFile where
  podNamespace := "default".toList
  pod := "superset-5b4d8f9c6f-x2x7q".toList
  id := supersetLabels "__meta_kubernetes_pod_uid"
  container := container
  base := "0.log".toList
  parts := by
    simp only [List.forall_mem_cons]
    exact ⟨by decide, by decide, by decide +kernel, h, by decide, List.forall_mem_nil _⟩
  shape := Or.inl supersetTarget.uid

/-- Of two containers' logs a target's path picks its own. -/
theorem superset_logFile_own : ∃ out, relabel podRules supersetTarget.labels = some out ∧
    glob (out "__path__") (supersetLog "web".toList (by decide)).path ∧
    ¬ glob (out "__path__") (supersetLog "statsd".toList (by decide)).path := by
  obtain ⟨out, hout, hown⟩ := logFile_own supersetNode fun _ => by decide +kernel
  refine ⟨out, hout, (hown _).mpr ⟨rfl, by decide +kernel, by decide⟩, fun h => ?_⟩
  exact absurd ((hown _).mp h).2.1 (by decide +kernel)

/-- The same pod with a static pod's hash for an annotation of its own. -/
def annotatedLabels : Labels := fun n => ([
  ("__meta_kubernetes_pod_annotationpresent_kubernetes_io_config_hash", "true"),
  ("__meta_kubernetes_pod_annotation_kubernetes_io_config_hash", "0f1e2d3c4b5a69788796a5b4c3d2e1f0")].lookup n
    |>.map String.toList).getD (supersetLabels n)

/-- It gets the static pod's lines. -/
example : (relabel podRules annotatedLabels).map (fun out => glob (out "__path__")
    "/var/log/pods/kube-system_etcd_0f1e2d3c4b5a69788796a5b4c3d2e1f0/web/0.log".toList) = some true := by
  decide +kernel

end BigDataPlatform.PodLogs
