import Mathlib.Data.List.AList
import Mathlib.Order.Basic
import Mathlib.Logic.Function.Basic
import BigDataPlatform.Lib.Pack

/-! # One directory of names over inodes

The part of a POSIX directory that processes sharing it can observe: a name
links an inode, an open descriptor keeps its inode whatever happens to the
name, `open` with truncation empties the inode the name links, and `rename`
moves a link. No inode has two names and every linked inode is allocated; the
record carries both facts, so each operation proves them once. -/
namespace BigDataPlatform.Lib.FileSystem
open BigDataPlatform.Lib.Pack

structure Inode where
  bytes : Bytes
  mtime : Nat
deriving DecidableEq

variable {N : Type} [DecidableEq N]

structure Fs (N : Type) [DecidableEq N] where
  dir : AList fun _ : N => Nat
  node : Nat → Inode
  fresh : Nat
  linked_lt : ∀ n i, dir.lookup n = some i → i < fresh
  one_name : ∀ a b i, dir.lookup a = some i → dir.lookup b = some i → a = b

namespace Fs

def lookup (fs : Fs N) (n : N) : Option Nat := fs.dir.lookup n

/-- The bytes under a name, as a process that opens it now reads them. -/
def read (fs : Fs N) (n : N) : Option Bytes := (fs.lookup n).map fun i => (fs.node i).bytes

def mtime (fs : Fs N) (n : N) : Option Nat := (fs.lookup n).map fun i => (fs.node i).mtime

def ls (fs : Fs N) : List N := fs.dir.keys

def empty : Fs N where
  dir := ∅
  node := fun _ => ⟨[], 0⟩
  fresh := 0
  linked_lt := by simp
  one_name := by simp

/-- The inode that creating or truncating `n` opens. -/
def openFd (fs : Fs N) (n : N) : Nat := (fs.lookup n).getD fs.fresh

theorem openFd_lt (fs : Fs N) (n : N) : fs.openFd n < max fs.fresh (fs.openFd n + 1) := by
  omega

theorem lookup_eq_openFd {fs : Fs N} {m n : N} (h : fs.lookup m = some (fs.openFd n)) : m = n := by
  unfold openFd at h
  cases hn : fs.lookup n with
  | some i =>
    rw [hn] at h
    exact fs.one_name m n i h hn
  | none =>
    rw [hn] at h
    exact absurd (fs.linked_lt m _ h) (by simp)

/-- `open(n, "wb")`: the inode under `n`, or a new one, emptied. -/
def truncate (fs : Fs N) (n : N) (now : Nat) : Fs N where
  dir := fs.dir.insert n (fs.openFd n)
  node := Function.update fs.node (fs.openFd n) ⟨[], now⟩
  fresh := max fs.fresh (fs.openFd n + 1)
  linked_lt := by
    intro m i h
    by_cases hm : m = n
    · subst hm
      rw [AList.lookup_insert] at h
      cases h
      omega
    · rw [AList.lookup_insert_ne hm] at h
      have := fs.linked_lt m i h
      omega
  one_name := by
    intro a b i ha hb
    by_cases han : a = n <;> by_cases hbn : b = n
    · rw [han, hbn]
    · subst han
      rw [AList.lookup_insert] at ha
      rw [AList.lookup_insert_ne hbn] at hb
      cases ha
      exact (lookup_eq_openFd hb).symm
    · subst hbn
      rw [AList.lookup_insert] at hb
      rw [AList.lookup_insert_ne han] at ha
      cases hb
      exact lookup_eq_openFd ha
    · rw [AList.lookup_insert_ne han] at ha
      rw [AList.lookup_insert_ne hbn] at hb
      exact fs.one_name a b i ha hb

/-- Bytes laid over a file from a position; a hole before it reads as zeros. -/
def writeAt (old : Bytes) (pos : Nat) (bs : Bytes) : Bytes :=
  old.take pos ++ List.replicate (pos - old.length) 0 ++ bs ++ old.drop (pos + bs.length)

/-- A write through an open descriptor, at the descriptor's own position. -/
def write (fs : Fs N) (fd pos : Nat) (bs : Bytes) (now : Nat) : Fs N :=
  { fs with node := Function.update fs.node fd ⟨writeAt (fs.node fd).bytes pos bs, now⟩ }

/-- A write at the end of the file. -/
def append (fs : Fs N) (fd : Nat) (bs : Bytes) (now : Nat) : Fs N :=
  { fs with node := Function.update fs.node fd ⟨(fs.node fd).bytes ++ bs, now⟩ }

/-- `rename(a, b)`, replacing what `b` linked; nothing happens when `a` is missing. -/
def rename (fs : Fs N) (a b : N) : Fs N :=
  match h : fs.lookup a with
  | none => fs
  | some i =>
    { fs with
      dir := (fs.dir.erase a).insert b i
      linked_lt := by
        intro m j hj
        by_cases hm : m = b
        · subst hm
          rw [AList.lookup_insert] at hj
          cases hj
          exact fs.linked_lt a i h
        · rw [AList.lookup_insert_ne hm] at hj
          by_cases hma : m = a
          · subst hma; rw [AList.lookup_erase] at hj; cases hj
          · rw [AList.lookup_erase_ne hma] at hj; exact fs.linked_lt m j hj
      one_name := by
        have hold : ∀ m j, (fs.dir.erase a).lookup m = some j → fs.lookup m = some j ∧ j ≠ i := by
          intro m j hj
          by_cases hma : m = a
          · subst hma; rw [AList.lookup_erase] at hj; cases hj
          · rw [AList.lookup_erase_ne hma] at hj
            refine ⟨hj, fun he => hma ?_⟩
            subst he
            exact fs.one_name m a j hj h
        intro m k j hm hk
        by_cases hmb : m = b <;> by_cases hkb : k = b
        · rw [hmb, hkb]
        · subst hmb
          rw [AList.lookup_insert] at hm
          rw [AList.lookup_insert_ne hkb] at hk
          cases hm
          exact absurd rfl (hold k i hk).2
        · subst hkb
          rw [AList.lookup_insert] at hk
          rw [AList.lookup_insert_ne hmb] at hm
          cases hk
          exact absurd rfl (hold m i hm).2
        · rw [AList.lookup_insert_ne hmb] at hm
          rw [AList.lookup_insert_ne hkb] at hk
          exact fs.one_name m k j (hold m j hm).1 (hold k j hk).1 }

/-- `rm -f n`. -/
def unlink (fs : Fs N) (n : N) : Fs N :=
  { fs with
    dir := fs.dir.erase n
    linked_lt := by
      intro m i h
      by_cases hm : m = n
      · subst hm; rw [AList.lookup_erase] at h; cases h
      · rw [AList.lookup_erase_ne hm] at h; exact fs.linked_lt m i h
    one_name := by
      intro a b i ha hb
      by_cases han : a = n
      · subst han; rw [AList.lookup_erase] at ha; cases ha
      by_cases hbn : b = n
      · subst hbn; rw [AList.lookup_erase] at hb; cases hb
      rw [AList.lookup_erase_ne han] at ha
      rw [AList.lookup_erase_ne hbn] at hb
      exact fs.one_name a b i ha hb }

/-- `rm -f` of several names. -/
def unlinkAll (fs : Fs N) (ns : List N) : Fs N := ns.foldl unlink fs

/-! ## What each operation leaves -/

@[simp] theorem lookup_empty (n : N) : (empty : Fs N).lookup n = none := rfl

@[simp] theorem fresh_empty : (empty : Fs N).fresh = 0 := rfl

theorem mem_ls {fs : Fs N} {n : N} : n ∈ fs.ls ↔ ∃ i, fs.lookup n = some i := by
  rw [ls, ← AList.mem_keys, ← AList.lookup_isSome, Option.isSome_iff_exists]
  rfl

theorem lookup_truncate (fs : Fs N) (n m : N) (now : Nat) :
    (fs.truncate n now).lookup m = if m = n then some (fs.openFd n) else fs.lookup m := by
  split
  · next h => subst h; exact AList.lookup_insert _
  · next h => exact AList.lookup_insert_ne h

theorem lookup_unlink (fs : Fs N) (n m : N) :
    (fs.unlink n).lookup m = if m = n then none else fs.lookup m := by
  split
  · next h => subst h; exact AList.lookup_erase _ _
  · next h => exact AList.lookup_erase_ne h

theorem lookup_rename {fs : Fs N} {a i} (b m : N) (h : fs.lookup a = some i) :
    (fs.rename a b).lookup m =
      if m = b then some i else if m = a then none else fs.lookup m := by
  have hd : (fs.rename a b).lookup m = ((fs.dir.erase a).insert b i).lookup m := by
    unfold rename
    split
    · next hn => rw [h] at hn; cases hn
    · next j hj => rw [h] at hj; cases hj; rfl
  rw [hd]
  split
  · next hm => subst hm; exact AList.lookup_insert _
  · next hm =>
    rw [AList.lookup_insert_ne hm]
    split
    · next ha => subst ha; exact AList.lookup_erase _ _
    · next ha => exact AList.lookup_erase_ne ha

theorem rename_missing {fs : Fs N} {a b : N} (h : fs.lookup a = none) : fs.rename a b = fs := by
  unfold rename
  split
  · rfl
  · next j hj => rw [h] at hj; cases hj

@[simp] theorem lookup_write (fs : Fs N) (fd pos now : Nat) (bs : Bytes) (n : N) :
    (fs.write fd pos bs now).lookup n = fs.lookup n := rfl

@[simp] theorem lookup_append (fs : Fs N) (fd now : Nat) (bs : Bytes) (n : N) :
    (fs.append fd bs now).lookup n = fs.lookup n := rfl

theorem lookup_unlinkAll (ns : List N) (fs : Fs N) (m : N) :
    (fs.unlinkAll ns).lookup m = if m ∈ ns then none else fs.lookup m := by
  induction ns generalizing fs with
  | nil => simp [unlinkAll]
  | cons n ns ih =>
    have := ih (fs.unlink n)
    simp only [unlinkAll, List.foldl_cons] at this ⊢
    rw [this, lookup_unlink]
    by_cases hm : m = n <;> simp [hm]

/-- A name that is still there was spared and links what it linked. -/
theorem of_lookup_unlinkAll {ns : List N} {fs : Fs N} {m : N} {i : Nat}
    (h : (fs.unlinkAll ns).lookup m = some i) : m ∉ ns ∧ fs.lookup m = some i := by
  rw [lookup_unlinkAll] at h
  split at h
  · cases h
  · next hm => exact ⟨hm, h⟩

@[simp] theorem node_unlinkAll (ns : List N) (fs : Fs N) : (fs.unlinkAll ns).node = fs.node := by
  induction ns generalizing fs with
  | nil => rfl
  | cons n ns ih => exact ih (fs.unlink n)

@[simp] theorem fresh_unlinkAll (ns : List N) (fs : Fs N) : (fs.unlinkAll ns).fresh = fs.fresh := by
  induction ns generalizing fs with
  | nil => rfl
  | cons n ns ih => exact ih (fs.unlink n)

@[simp] theorem node_rename (fs : Fs N) (a b : N) : (fs.rename a b).node = fs.node := by
  unfold rename; split <;> rfl

@[simp] theorem fresh_rename (fs : Fs N) (a b : N) : (fs.rename a b).fresh = fs.fresh := by
  unfold rename; split <;> rfl

theorem fresh_truncate_le (fs : Fs N) (n : N) (now : Nat) : fs.fresh ≤ (fs.truncate n now).fresh :=
  le_max_left _ _

theorem openFd_lt_fresh (fs : Fs N) (n : N) (now : Nat) :
    fs.openFd n < (fs.truncate n now).fresh := openFd_lt fs n

theorem node_truncate (fs : Fs N) (n : N) (now j : Nat) :
    (fs.truncate n now).node j = if j = fs.openFd n then ⟨[], now⟩ else fs.node j := by
  simp [truncate, Function.update_apply]

theorem node_write (fs : Fs N) (fd pos now : Nat) (bs : Bytes) (j : Nat) :
    (fs.write fd pos bs now).node j =
      if j = fd then ⟨writeAt (fs.node fd).bytes pos bs, now⟩ else fs.node j := by
  simp [write, Function.update_apply]

theorem node_append (fs : Fs N) (fd now : Nat) (bs : Bytes) (j : Nat) :
    (fs.append fd bs now).node j =
      if j = fd then ⟨(fs.node fd).bytes ++ bs, now⟩ else fs.node j := by
  simp [append, Function.update_apply]

/-- A truncated name opens an inode no other name links. -/
theorem openFd_ne {fs : Fs N} {m n : N} {i : Nat} (h : fs.lookup m = some i) (hne : m ≠ n) :
    i ≠ fs.openFd n := fun he => hne (lookup_eq_openFd (he ▸ h))

/-- A sequential writer extends what it has written so far. -/
theorem writeAt_take {out : Bytes} {pos k : Nat} (hp : pos ≤ out.length) :
    writeAt (out.take pos) pos ((out.drop pos).take k) = out.take (pos + k) := by
  have hl : (out.take pos).length = pos := by simp [hp]
  have hd : (out.take pos).drop (pos + ((out.drop pos).take k).length) = [] :=
    List.drop_eq_nil_of_le (by omega)
  rw [writeAt, hd, hl, Nat.sub_self, List.take_of_length_le (le_of_eq hl), List.take_add]
  simp

theorem writeAt_length (old bs : Bytes) : writeAt old old.length bs = old ++ bs := by
  simp [writeAt]

/-! ## What a reader of one name sees of operations on others -/

variable {fs : Fs N} {a m n : N} {i : Nat}

theorem read_of_lookup (h : fs.lookup n = some i) : fs.read n = some (fs.node i).bytes := by
  simp [read, h]

theorem read_congr {fs' : Fs N} (hl : fs'.lookup n = fs.lookup n)
    (hn : ∀ i, fs.lookup n = some i → fs'.node i = fs.node i) : fs'.read n = fs.read n := by
  cases h : fs.lookup n with
  | none => rw [read, read, hl, h]; rfl
  | some i => rw [read_of_lookup (hl.trans h), read_of_lookup h, hn i h]

theorem read_truncate_ne (now : Nat) (hne : n ≠ m) : (fs.truncate m now).read n = fs.read n := by
  refine read_congr ?_ fun i hi => ?_
  · rw [lookup_truncate, if_neg hne]
  · rw [node_truncate, if_neg (openFd_ne hi hne)]

/-- A write through a descriptor of another name. -/
theorem read_write_ne (pos now : Nat) (bs : Bytes) (h : fs.lookup m = some i) (hne : n ≠ m) :
    (fs.write i pos bs now).read n = fs.read n := by
  refine read_congr rfl fun j hj => ?_
  have hji : j ≠ i := by
    rintro rfl
    exact hne (fs.one_name n m j hj h)
  rw [node_write, if_neg hji]

theorem read_unlink (n m : N) : (fs.unlink m).read n = if n = m then none else fs.read n := by
  rw [read, lookup_unlink]
  split
  · rfl
  · rfl

theorem read_rename (b n : N) (h : fs.lookup a = some i) :
    (fs.rename a b).read n =
      if n = b then some (fs.node i).bytes else if n = a then none else fs.read n := by
  rw [read, lookup_rename b n h, node_rename]
  split
  · rfl
  · split
    · rfl
    · rfl

/-! ## How many names there are

`fresh` counts the names that were created: one that is there keeps its inode. -/

theorem length_truncate (fs : Fs N) (n : N) (now : Nat) :
    (fs.truncate n now).ls.length + fs.fresh = fs.ls.length + (fs.truncate n now).fresh := by
  have hls : (fs.truncate n now).ls = n :: fs.ls.erase n := AList.keys_insert _
  have hfresh : (fs.truncate n now).fresh = max fs.fresh (fs.openFd n + 1) := rfl
  rw [hls, hfresh, List.length_cons]
  cases h : fs.lookup n with
  | some i =>
    have hmem : n ∈ fs.ls := mem_ls.mpr ⟨i, h⟩
    have hlt := fs.linked_lt n i h
    have hpos := List.length_pos_of_mem hmem
    rw [List.length_erase_of_mem hmem, openFd, h, Option.getD_some]
    omega
  | none =>
    have hmem : n ∉ fs.ls := fun hn => by
      obtain ⟨i, hi⟩ := mem_ls.mp hn
      rw [h] at hi
      cases hi
    rw [List.erase_of_not_mem hmem, openFd, h, Option.getD_none]
    omega

theorem length_rename_le (fs : Fs N) (a b : N) : (fs.rename a b).ls.length ≤ fs.ls.length := by
  cases h : fs.lookup a with
  | none => rw [rename_missing h]
  | some i =>
    have hls : (fs.rename a b).ls = b :: (fs.ls.erase a).erase b := by
      unfold rename
      split
      · next hn => rw [h] at hn; cases hn
      · exact (AList.keys_insert _).trans (congrArg (fun l => b :: l.erase b) (AList.keys_erase a fs.dir))
    have hmem : a ∈ fs.ls := mem_ls.mpr ⟨i, h⟩
    have hpos := List.length_pos_of_mem hmem
    have hle := List.length_erase_le (a := b) (l := fs.ls.erase a)
    rw [List.length_erase_of_mem hmem] at hle
    rw [hls, List.length_cons]
    omega

theorem ls_unlink (fs : Fs N) (n : N) : (fs.unlink n).ls = fs.ls.erase n := AList.keys_erase n fs.dir

theorem length_unlinkAll_le (ns : List N) (fs : Fs N) : (fs.unlinkAll ns).ls.length ≤ fs.ls.length := by
  induction ns generalizing fs with
  | nil => exact le_rfl
  | cons n ns ih =>
    have hone : (fs.unlink n).ls.length ≤ fs.ls.length := by
      rw [ls_unlink]
      exact List.length_erase_le
    exact (ih (fs.unlink n)).trans hone

end Fs
end BigDataPlatform.Lib.FileSystem
