import OpenSync.Keyed
import OpenSync.PsfsAppend

/-!
# The PSFS store

The store of `psfs.c`: an in-memory tree of records, kept as the sorted sequence it stands for, over
one directory of regular files. Every outcome the operating system decides (which calls fail, how
many bytes each `writev()` takes) is an argument of the operation, in `SyncEnv`. The preserve flag
only selects the directory and is left out.
-/

namespace OpenSync.Psfs

/-- One directory and the files behind it. A name always refers to an allocated file. -/
structure Fs where
  inodes : ℕ → Bytes
  dir : Bytes → Option ℕ
  next : ℕ
  linked : ∀ name i, dir name = some i → i < next

namespace Fs

def setContent (fs : Fs) (i : ℕ) (f : Bytes) : Fs :=
  { fs with inodes := Function.update fs.inodes i f }

def unlink (fs : Fs) (name : Bytes) : Fs where
  inodes := fs.inodes
  dir := Function.update fs.dir name none
  next := fs.next
  linked n i h := by
    by_cases hn : n = name
    · simp [hn] at h
    · exact fs.linked n i (by simpa [hn] using h)

def create (fs : Fs) (name : Bytes) : Fs where
  inodes := Function.update fs.inodes fs.next []
  dir := Function.update fs.dir name (some fs.next)
  next := fs.next + 1
  linked n i h := by
    by_cases hn : n = name
    · simp [hn] at h
      omega
    · have := fs.linked n i (by simpa [hn] using h)
      omega

/-- `renameat()`: the file under `old` replaces the one under `new`. -/
def rename (fs : Fs) (old new : Bytes) : Fs where
  inodes := fs.inodes
  dir := Function.update (Function.update fs.dir old none) new (fs.dir old)
  next := fs.next
  linked n i h := by
    by_cases hn : n = new
    · exact fs.linked old i (by simpa [hn] using h)
    · by_cases ho : n = old
      · rw [Function.update_of_ne hn, ho, Function.update_self] at h
        cases h
      · exact fs.linked n i (by simpa [hn, ho] using h)

end Fs

structure Fd where
  ino : ℕ
  off : ℕ
  readable : Bool

structure Store where
  name : Bytes
  fd : Fd
  read : Bool
  write : Bool
  root : List Record
  next : Option Key
  used : ℤ

structure World where
  fs : Fs
  ps : Store

/-- `psfs_name[64]`, filled by `strscpy()`. -/
def Store.psfsName (ps : Store) : Bytes := ps.name.take 63

/-- `.<name>.tmp` -/
def Store.tmpName (ps : Store) : Bytes :=
  0x2E :: ps.psfsName ++ [0x2E, 0x74, 0x6D, 0x70]

/-- `strcmp() < 0` -/
def strLt : Bytes → Bytes → Bool
  | _, [] => false
  | [], _ :: _ => true
  | a :: s, b :: t => if a < b then true else if b < a then false else strLt s t

def Store.find (ps : Store) (key : Key) : Option Record := Keyed.find Record.key key ps.root

def Store.keyAfter (ps : Store) (key : Key) : Option Key :=
  ((ps.root.dropWhile (·.key ≠ key)).tail.head?).map Record.key

def dropRecord (ps : Store) (pr : Record) : Store :=
  { ps with
    next := if ps.next = some pr.key then ps.keyAfter pr.key else ps.next
    root := Keyed.drop Record.key pr.key ps.root
    used := ps.used - pr.used }

/-- `ds_tree_insert()` with `ds_str_cmp`, and the accounting its callers do. -/
def addRecord (ps : Store) (pr : Record) : Store :=
  { ps with
    root := Keyed.insert Record.key (fun a b => strLt a.1 b.1) pr ps.root
    used := ps.used + pr.used }

def Store.replace (ps : Store) (pr : Record) : Store :=
  { ps with root := Keyed.replace Record.key pr ps.root }

def rewind (ps : Store) : Store := { ps with next := ps.root.head?.map Record.key }

/-- `value = none` is a `NULL` pointer. -/
def set (ps : Store) (key : Key) (value : Option Bytes) : Store × ℤ :=
  if !ps.write then (ps, -1)
  else
    let data := value.getD []
    let pr : Record := { recordInit key data with dirty := true }
    match ps.find key with
    | some old =>
      if old.data = data then (ps, data.length)
      else (addRecord (dropRecord ps old) pr, data.length)
    | none => if data = [] then (ps, 0) else (addRecord ps pr, data.length)

/-- The return value and the bytes copied into the caller's buffer of size `valueSz`. -/
def get (ps : Store) (key : Key) (valueSz : ℕ) : ℤ × Bytes :=
  if !ps.read then (-1, [])
  else
    match ps.find key with
    | none => (0, [])
    | some pr => (pr.data.length, pr.data.take valueSz)

def World.file (w : World) : Bytes := w.fs.inodes w.ps.fd.ino

def loadRecord (ps : Store) (pr : Record) : Store :=
  let ps := match ps.find pr.key with
    | some opr => dropRecord ps opr
    | none => ps
  if pr.data = [] then ps else addRecord ps pr

def loadLoop (f : Bytes) : ℕ → Store → Option Store
  | 0, _ => none
  | fuel + 1, ps =>
    let (rc, off) := recordRead ps.fd.readable f ps.fd.off
    let ps := { ps with fd := { ps.fd with off } }
    match rc with
    | .eof => some ps
    | .fail => loadLoop f fuel ps
    | .record pr => loadLoop f fuel (loadRecord ps pr)

/-- `none` when `fuel` rounds of the loop are not enough. -/
def load (fuel : ℕ) (w : World) : Option World :=
  (loadLoop w.file fuel w.ps).map fun ps => { w with ps := rewind ps }

/-- The store object of a successful `psfs_open()`, with an empty cache. -/
def freshStore (name : Bytes) (read write : Bool) (i : ℕ) : Store where
  name := name
  fd := { ino := i, off := 0, readable := true }
  read := read
  write := write
  root := []
  next := none
  used := 0

def openStore (fs : Fs) (name : Bytes) (read write : Bool) : Option World :=
  if !(read || write) then none
  else
    match fs.dir name with
    | some i => some ⟨fs, freshStore name read write i⟩
    | none => if write then some ⟨fs.create name, freshStore name read write fs.next⟩ else none

/-- Build-time thresholds and the comparison of the waste ratio, which the code makes in doubles. -/
structure Config where
  syncMin : ℕ
  wastedMax : ℕ
  ratioExceeded : ℤ → ℤ → Bool

/-- What the operating system does during one `psfs_sync()`. Each record is written at most once,
so the writes are told apart by their keys. -/
structure SyncEnv where
  statOk : Bool
  junk : ℤ
  writes : Key → ℕ
  openOk : Bool
  lockOk : Bool
  fsyncOk : Bool
  renameOk : Bool
  dirFsyncOk : Bool

def appendStep (env : SyncEnv) (st : Bool × Store × Bytes) (pr : Record) : Bool × Store × Bytes :=
  if !st.1 || !pr.dirty then st
  else
    let (f, rc, pr) := recordWrite st.2.2 pr (env.writes pr.key)
    if rc ≤ 0 then (false, st.2.1, f) else (true, st.2.1.replace pr, f)

/-- Writes with `O_APPEND` leave the file position at the end of the file. -/
def syncAppend (env : SyncEnv) (w : World) : World × Bool :=
  if !w.ps.write then (w, false)
  else
    let (ok, ps, f) := w.ps.root.foldl (appendStep env) (true, w.ps, w.file)
    let off := if f = w.file then ps.fd.off else f.length
    (⟨w.fs.setContent w.ps.fd.ino f, { ps with fd := { ps.fd with off } }⟩, ok)

def pruneStep (env : SyncEnv) (st : Store × Bytes) (pr : Record) : Store × Bytes :=
  if pr.data = [] then (dropRecord st.1 pr, st.2)
  else
    let (f, rc, pr) := recordWrite st.2 pr (env.writes pr.key)
    if rc ≤ 0 then (st.1, f) else (st.1.replace { pr with dirty := false }, f)

/-- The copy loop of a prune, into an empty file. -/
def pruneCopy (env : SyncEnv) (ps : Store) : Store × Bytes := ps.root.foldl (pruneStep env) (ps, [])

def syncPrune (env : SyncEnv) (w : World) : World × Bool :=
  if !w.ps.write then (w, false)
  else
    let tname := w.ps.tmpName
    let fs := w.fs.unlink tname
    if !env.openOk then (⟨fs, w.ps⟩, false)
    else
      let tino := fs.next
      let fs := fs.create tname
      if !env.lockOk then (⟨fs, w.ps⟩, false)
      else
        let (ps, f) := pruneCopy env w.ps
        let fs := fs.setContent tino f
        if !env.fsyncOk then (⟨fs, ps⟩, false)
        else if !env.renameOk then (⟨fs, ps⟩, false)
        else
          let fs := fs.rename tname w.ps.psfsName
          if !env.dirFsyncOk then (⟨fs, ps⟩, false)
          else (⟨fs, { ps with fd := { ino := tino, off := f.length, readable := false } }⟩, true)

/-- The heuristic of `psfs_sync()`. A failed `fstat()` leaves the size uninitialised. -/
def pruneWanted (cfg : Config) (env : SyncEnv) (w : World) : Bool :=
  let size : ℤ := if env.statOk then w.file.length else env.junk
  let wasted := if size > w.ps.used then size - w.ps.used else 0
  size > cfg.syncMin * 1024 && (wasted > cfg.wastedMax * 1024 || cfg.ratioExceeded wasted size)

def sync (cfg : Config) (env : SyncEnv) (forcePrune : Bool) (w : World) : World × Bool :=
  if !w.ps.write then (w, true)
  else if pruneWanted cfg env w || forcePrune then syncPrune env w
  else syncAppend env w

/-- The file system after `psfs_close()`, and its return value. -/
def close (cfg : Config) (env : SyncEnv) (w : World) : Fs × Bool :=
  let (w, ok) := sync cfg env false w
  (w.fs, ok && w.ps.root.all fun pr => !pr.dirty)

def erase (ftruncateOk : Bool) (w : World) : World × Bool :=
  if !w.ps.write then (w, false)
  else if !ftruncateOk then (w, false)
  else
    let ps := w.ps.root.foldl dropRecord w.ps
    (⟨w.fs.setContent w.ps.fd.ino [], { ps with fd := { ps.fd with off := 0 } }⟩, true)

end OpenSync.Psfs
