import OpenSync.PsfsSync

/-!
# Durability of a PSFS store

`Saved` says that the file found under the store's name replays to the map in memory. It is what a
successful sync has to establish. It does so in every run whose steps meet `StepSafe`; the conditions
there are the ones the source does not enforce.
-/

namespace OpenSync.Psfs
open List Option Function Keyed
open Journal (scan)

inductive Op where
  | set (key : Key) (value : Option Bytes)
  | erase (ftruncateOk : Bool)
  | sync (env : SyncEnv) (forcePrune : Bool)

def step (cfg : Config) (w : World) : Op → World
  | .set key value => { w with ps := (set w.ps key value).1 }
  | .erase ok => (erase ok w).1
  | .sync env forcePrune => (sync cfg env forcePrune w).1

def run (cfg : Config) (w : World) (ops : List Op) : World := ops.foldl (step cfg) w

/-- The map of the file under the store's name. -/
def World.saved (w : World) : Option (Key → Option Bytes) :=
  (w.fs.dir w.ps.name).map fun i => replay (scan head (w.fs.inodes i))

def Saved (w : World) : Prop := w.saved = some w.ps.contents

/-- The open descriptor refers to the file under the store's name. -/
def Attached (w : World) : Prop := w.fs.dir w.ps.name = some w.ps.fd.ino

/-- An append goes to the file under the store's name, unless there is nothing to append, and no
write of it forges a record. -/
def SyncAppendSafe (env : SyncEnv) (w : World) : Prop :=
  (Attached w ∨ w.ps.Clean) ∧ AppendSafe env w.ps.root w.file

/-- The name was not truncated. A prune that gets as far as copying either replaces the file with a
complete copy, or has nothing pending. -/
def SyncPruneSafe (env : SyncEnv) (w : World) : Prop :=
  w.ps.name.length < 64 ∧ (env.openOk = true → env.lockOk = true →
      if env.fsyncOk = true ∧ env.renameOk = true then PruneComplete env w.ps.root
      else Saved w)

def SyncSafe (cfg : Config) (env : SyncEnv) (forcePrune : Bool) (w : World) : Prop :=
  if pruneWanted cfg env w || forcePrune then SyncPruneSafe env w else SyncAppendSafe env w

def StepSafe (cfg : Config) (w : World) : Op → Prop
  | .set _ _ => True
  | .erase _ => Attached w
  | .sync env forcePrune => SyncSafe cfg env forcePrune w

def RunSafe (cfg : Config) : World → List Op → Prop
  | _, [] => True
  | w, op :: ops => StepSafe cfg w op ∧ RunSafe cfg (step cfg w op) ops

structure Durable (w : World) : Prop where
  write : w.ps.write = true
  unique : w.ps.Unique
  ino : w.ps.fd.ino < w.fs.next
  synced : ∃ i, w.fs.dir w.ps.name = some i ∧ Synced (w.fs.inodes i) w.ps

variable {w : World}

theorem Durable.saved (h : Durable w) (hc : w.ps.Clean) : Saved w := by
  obtain ⟨i, hi, hs⟩ := h.synced
  rw [Saved, World.saved, hi, map_some, hs.replay_eq hc]

theorem Saved.synced (h : Saved w) :
    ∃ i, w.fs.dir w.ps.name = some i ∧ replay (scan head (w.fs.inodes i)) = w.ps.contents :=
  map_eq_some_iff.mp h

/-! ## `psfs_set()` and `psfs_erase()` -/

theorem set_cases (ps : Store) (key : Key) (value : Option Bytes) (hw : ps.write = true) : (set ps key value).1 = ps ∨
    ∃ ps' pr, (set ps key value).1 = addRecord ps' pr ∧ pr.key = key ∧ pr.dirty = true ∧
      ps'.find key = none ∧ (∀ k, k ≠ key → ps'.find k = ps.find k) ∧ SameHandle ps ps' ∧
      (ps.Unique → ps'.Unique) := by
  unfold set
  rw [hw, Bool.not_true, if_neg Bool.false_ne_true]
  cases hf : ps.find key with
  | none =>
    dsimp only
    split_ifs
    · exact .inl rfl
    · exact .inr ⟨ps, _, rfl, rfl, rfl, hf, fun _ _ => rfl, ⟨rfl, rfl, rfl, rfl, rfl⟩, id⟩
  | some old =>
    have hk : old.key = key := key_of_find hf
    dsimp only
    split_ifs
    · exact .inl rfl
    · refine .inr ⟨dropRecord ps old, _, rfl, rfl, rfl, ?_, fun k hne => ?_,
        sameHandle_dropRecord .., fun hu => hu.drop _⟩
      · rw [find_dropRecord, if_pos hk.symm]
      · rw [find_dropRecord, if_neg (hk ▸ hne)]

theorem durable_set (h : Durable w) (key : Key) (value : Option Bytes) :
    Durable { w with ps := (set w.ps key value).1 } ∧ (set w.ps key value).1.name = w.ps.name := by
  rcases set_cases w.ps key value h.write with heq | ⟨ps', pr, heq, hk, hd, hn, hf, hh, hu⟩
  · rw [heq]
    exact ⟨h, rfl⟩
  obtain ⟨i, hi, hs⟩ := h.synced
  rw [heq]
  refine ⟨⟨hh.write.trans h.write, (hu h.unique).insert _ (by rw [hk]; exact hn), ?_, i, ?_, ?_⟩, hh.name⟩
  · exact hh.ino ▸ h.ino
  · exact hh.name ▸ hi
  · intro k
    rw [Store.contents, find_addRecord, hk]
    split_ifs with hke
    · exact .inl ⟨pr, rfl, hd⟩
    · rw [hf k hke]
      exact hs k

theorem find_foldl_dropRecord (rs : List Record) (ps : Store) (k : Key) :
    (rs.foldl dropRecord ps).find k = if ∃ pr ∈ rs, pr.key = k then none else ps.find k := by
  induction rs generalizing ps with
  | nil => simp
  | cons pr rs ih =>
    rw [foldl_cons, ih, find_dropRecord]
    by_cases hrs : ∃ r ∈ rs, r.key = k
    · rw [if_pos hrs, if_pos (by obtain ⟨r, hr, hk⟩ := hrs; exact ⟨r, mem_cons_of_mem _ hr, hk⟩)]
    · rw [if_neg hrs]
      refine if_congr ?_ rfl rfl
      rw [exists_mem_cons_iff, or_iff_left hrs]
      exact eq_comm

theorem foldl_dropRecord_frame (rs : List Record) (ps : Store) :
    SameHandle ps (rs.foldl dropRecord ps) ∧ (ps.Unique → (rs.foldl dropRecord ps).Unique) := by
  induction rs generalizing ps with
  | nil => exact ⟨⟨rfl, rfl, rfl, rfl, rfl⟩, id⟩
  | cons pr rs ih =>
    obtain ⟨hh, hu⟩ := ih (dropRecord ps pr)
    exact ⟨(sameHandle_dropRecord ps pr).trans hh, fun h => hu (h.drop _)⟩

theorem durable_erase (h : Durable w) (ok : Bool) (ha : Attached w) :
    Durable (erase ok w).1 ∧ (erase ok w).1.ps.name = w.ps.name := by
  rw [erase, h.write, Bool.not_true, if_neg Bool.false_ne_true]
  cases ok with
  | false => exact ⟨h, rfl⟩
  | true =>
    obtain ⟨hh, hu⟩ := foldl_dropRecord_frame w.ps.root w.ps
    refine ⟨⟨hh.write.trans h.write, hu h.unique, hh.ino ▸ h.ino, w.ps.fd.ino, hh.name ▸ ha, fun k => .inr ?_⟩, hh.name⟩
    have hn : (w.ps.root.foldl dropRecord w.ps).find k = none := by
      rw [find_foldl_dropRecord]
      split_ifs with hk
      · rfl
      · exact find_eq_none.mpr fun pr hpr he => hk ⟨pr, hpr, he⟩
    change replay (scan head (update w.fs.inodes w.ps.fd.ino [] w.ps.fd.ino)) k =
      ((w.ps.root.foldl dropRecord w.ps).find k).bind Record.value
    rw [update_self, hn]
    rfl

/-! ## `psfs_sync()` -/

theorem foldl_appendStep_clean (env : SyncEnv) (rs : List Record) (st : Bool × Store × Bytes)
    (h : ∀ pr ∈ rs, pr.dirty = false) : rs.foldl (appendStep env) st = st := by
  induction rs with
  | nil => rfl
  | cons pr rs ih =>
    have hs : appendStep env st pr = st := by simp [appendStep, h pr mem_cons_self]
    rw [foldl_cons, hs]
    exact ih (forall_mem_cons.mp h).2

structure SyncSpec (w : World) (res : World × Bool) : Prop where
  durable : Durable res.1
  contents : res.1.ps.contents = w.ps.contents
  name : res.1.ps.name = w.ps.name
  read : res.1.ps.read = w.ps.read
  clean : res.2 = true ∨ w.ps.Clean → res.1.ps.Clean

variable {env : SyncEnv}

theorem syncAppend_spec (h : Durable w) (hsa : SyncAppendSafe env w) : SyncSpec w (syncAppend env w) := by
  have hl := listed_root h.unique
  have hap := appended_foldl env w.ps.root w.ps w.file hl
  obtain ⟨i, hi, hs⟩ := h.synced
  have hst (hc : w.ps.Clean) := foldl_appendStep_clean env w.ps.root (true, w.ps, w.file)
    fun pr hpr => hc pr.key pr (find_of_mem h.unique hpr)
  rw [syncAppend, h.write, Bool.not_true, if_neg Bool.false_ne_true]
  refine ⟨⟨hap.handle.write.trans h.write, hap.unique h.unique, hap.handle.ino ▸ h.ino,
    i, hap.handle.name ▸ hi, ?_⟩, hap.contents, hap.handle.name, hap.handle.read, ?_⟩
  · rcases hsa.1 with ha | hc
    · have hin : w.ps.fd.ino = i := some.inj (ha.symm.trans hi)
      have hsy := synced_foldl env w.ps.root w.ps w.file hl (by rw [World.file, hin]; exact hs) hsa.2
      rw [← hin]
      intro k
      change _ ∨ replay (scan head (update w.fs.inodes w.ps.fd.ino _ w.ps.fd.ino)) k = _
      rw [update_self]
      exact hsy k
    · rw [hst hc]
      intro k
      change _ ∨ replay (scan head (update w.fs.inodes w.ps.fd.ino w.file i)) k = _
      rw [World.file, update_eq_self]
      exact hs k
  · rintro (hok | hc)
    · intro k pr hf
      cases hd : pr.dirty with
      | false => rfl
      | true =>
        obtain ⟨hf', hm⟩ := hap.clean hok k pr hf hd
        exact (hm (mem_of_find hf')).elim
    · rw [hst hc]
      exact hc

/-- What a prune leaves alone until it renames: the file under `name` and every old file. -/
structure Fs.Extends (name : Bytes) (fs fs' : Fs) : Prop where
  dir : fs'.dir name = fs.dir name
  inodes : ∀ i < fs.next, fs'.inodes i = fs.inodes i
  next : fs.next ≤ fs'.next

theorem tmpName_ne {ps : Store} (h : ps.name.length < 64) : ps.tmpName ≠ ps.name := by
  intro he
  have hl := congrArg length he
  simp only [Store.tmpName, Store.psfsName, length_append, length_cons, length_nil, length_take] at hl
  omega

theorem syncPrune_cases (hw : w.ps.write = true) (hn : w.ps.name.length < 64) :
    (∃ fs, syncPrune env w = (⟨fs, w.ps⟩, false) ∧ w.fs.Extends w.ps.name fs) ∨
    (∃ fs, syncPrune env w = (⟨fs, (pruneCopy env w.ps).1⟩, false) ∧ w.fs.Extends w.ps.name fs ∧
      env.openOk = true ∧ env.lockOk = true ∧ ¬ (env.fsyncOk = true ∧ env.renameOk = true)) ∨
    (∃ fs fd, syncPrune env w = (⟨fs, { (pruneCopy env w.ps).1 with fd }⟩, env.dirFsyncOk) ∧
      fs.dir w.ps.name = some w.fs.next ∧ fs.inodes w.fs.next = (pruneCopy env w.ps).2 ∧
      fs.next = w.fs.next + 1 ∧ (fd = (pruneCopy env w.ps).1.fd ∨ fd.ino = w.fs.next) ∧
      env.openOk = true ∧ env.lockOk = true ∧ env.fsyncOk = true ∧ env.renameOk = true) := by
  have hne := tmpName_ne hn
  have hp : w.ps.psfsName = w.ps.name := take_of_length_le (by omega)
  have hd (v : Option ℕ) (fs : Bytes → Option ℕ) : update fs w.ps.tmpName v w.ps.name = fs w.ps.name :=
    update_of_ne (fun h => hne h.symm) ..
  have ho (f : Bytes) (inodes : ℕ → Bytes) (i : ℕ) (hi : i < w.fs.next) :
      update inodes w.fs.next f i = inodes i := update_of_ne (by omega) ..
  rw [syncPrune, hw, Bool.not_true, if_neg Bool.false_ne_true]
  cases h1 : env.openOk with
  | false => exact .inl ⟨_, rfl, hd .., fun _ _ => rfl, le_rfl⟩
  | true =>
  cases h2 : env.lockOk with
  | false =>
    exact .inl ⟨_, rfl, (hd ..).trans (hd ..), fun i hi => ho _ _ i hi, Nat.le_succ _⟩
  | true =>
  have hc : w.fs.Extends w.ps.name (((w.fs.unlink w.ps.tmpName).create w.ps.tmpName).setContent w.fs.next
        (pruneCopy env w.ps).2) :=
    ⟨(hd ..).trans (hd ..), fun i hi => (ho _ _ i hi).trans (ho _ _ i hi), Nat.le_succ _⟩
  cases h3 : env.fsyncOk with
  | false => exact .inr (.inl ⟨_, rfl, hc, rfl, rfl, fun h => nomatch h.1⟩)
  | true =>
  cases h4 : env.renameOk with
  | false => exact .inr (.inl ⟨_, rfl, hc, rfl, rfl, fun h => nomatch h.2⟩)
  | true =>
  have hr (fs : Fs) : (fs.rename w.ps.tmpName w.ps.psfsName).dir w.ps.name = fs.dir w.ps.tmpName := by
    rw [hp]
    exact update_self ..
  have hcr : (((w.fs.unlink w.ps.tmpName).create w.ps.tmpName).setContent w.fs.next
      (pruneCopy env w.ps).2).dir w.ps.tmpName = some w.fs.next := update_self ..
  cases h5 : env.dirFsyncOk with
  | false =>
    exact .inr (.inr ⟨_, _, rfl, (hr _).trans hcr, update_self .., rfl, .inl rfl, rfl, rfl, rfl, rfl⟩)
  | true =>
    exact .inr (.inr ⟨_, _, rfl, (hr _).trans hcr, update_self .., rfl, .inr rfl, rfl, rfl, rfl, rfl⟩)

theorem Durable.extends (h : Durable w) {fs : Fs} (he : w.fs.Extends w.ps.name fs)
    {ps : Store} (hu : ps.Unique) (hh : SameHandle w.ps ps)
    (hs : ∀ f, Synced f w.ps → Synced f ps) : Durable ⟨fs, ps⟩ := by
  obtain ⟨i, hi, hsy⟩ := h.synced
  refine ⟨hh.write.trans h.write, hu, hh.ino ▸ lt_of_lt_of_le h.ino he.next, i, ?_, ?_⟩
  · exact hh.name ▸ (he.dir.trans hi)
  · rw [he.inodes i (w.fs.linked _ _ hi)]
    exact hs _ hsy

theorem syncPrune_spec (h : Durable w) (hs : SyncPruneSafe env w) : SyncSpec w (syncPrune env w) := by
  obtain ⟨hco, hu, hcl, hh⟩ := pruneCopy_cache env h.unique
  rcases syncPrune_cases h.write hs.1 with ⟨fs, heq, hex⟩ | ⟨fs, heq, hex, ho, hl, hfa⟩ |
    ⟨fs, fd, heq, hd, hfi, hn, hfd, ho, hl, hf, hr⟩
  · rw [heq]
    refine ⟨?_, rfl, rfl, rfl, fun hc => hc.resolve_left Bool.false_ne_true⟩
    exact h.extends hex h.unique ⟨rfl, rfl, rfl, rfl, rfl⟩ fun _ => id
  · rw [heq]
    have hsa := hs.2 ho hl
    rw [if_neg hfa] at hsa
    obtain ⟨i, hi, hre⟩ := hsa.synced
    refine ⟨⟨hh.write.trans h.write, hu, hh.ino ▸ lt_of_lt_of_le h.ino hex.next, i,
      hh.name ▸ (hex.dir.trans hi), fun k => .inr ?_⟩, hco, hh.name, hh.read,
      fun hc => hcl (hc.resolve_left Bool.false_ne_true)⟩
    rw [hex.inodes i (w.fs.linked _ _ hi), hco, hre]
  · rw [heq]
    have hcom := hs.2 ho hl
    rw [if_pos ⟨hf, hr⟩] at hcom
    obtain ⟨hre, hcle⟩ := pruneCopy_complete h.unique hcom
    refine ⟨⟨hh.write.trans h.write, hu, ?_, w.fs.next, hh.name ▸ hd, fun k => .inr ?_⟩, hco,
      hh.name, hh.read, fun _ => hcle⟩
    · have hin := h.ino
      rcases hfd with rfl | hfd
      · rw [← hh.ino] at hin
        dsimp only
        omega
      · dsimp only
        omega
    · dsimp only
      rw [hfi, hre]
      rfl

variable {cfg : Config}

theorem sync_spec {forcePrune : Bool} (h : Durable w)
    (hs : SyncSafe cfg env forcePrune w) : SyncSpec w (sync cfg env forcePrune w) := by
  rw [sync, h.write, Bool.not_true, if_neg Bool.false_ne_true]
  rw [SyncSafe] at hs
  split_ifs at hs ⊢
  · exact syncPrune_spec h hs
  · exact syncAppend_spec h hs

theorem durable_step (h : Durable w) {op : Op} (hsa : StepSafe cfg w op) :
    Durable (step cfg w op) ∧ (step cfg w op).ps.name = w.ps.name := by
  cases op with
  | set key value => exact durable_set h key value
  | erase ok => exact durable_erase h ok hsa
  | sync env forcePrune =>
    have hs := sync_spec h hsa
    exact ⟨hs.durable, hs.name⟩

theorem durable_run (h : Durable w) {ops : List Op} (hs : RunSafe cfg w ops) :
    Durable (run cfg w ops) ∧ (run cfg w ops).ps.name = w.ps.name := by
  induction ops generalizing w with
  | nil => exact ⟨h, rfl⟩
  | cons op ops ih =>
    obtain ⟨hd, hn⟩ := durable_step h hs.1
    obtain ⟨hd', hn'⟩ := ih hd hs.2
    exact ⟨hd', hn'.trans hn⟩

end OpenSync.Psfs
