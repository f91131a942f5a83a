import OpenSync.PsfsStore

/-!
# Loading a store replays its journal

`contents` is the map a store stands for. Loading computes the replay of the records that the scan of
the file finds, whatever bytes the file holds.
-/

namespace OpenSync.Psfs
open List Function Keyed Journal
open Journal (scan align)

def Record.value (pr : Record) : Option Bytes := if pr.data = [] then none else some pr.data

def replayFrom (m : Key → Option Bytes) (rs : List Record) : Key → Option Bytes :=
  rs.foldl (fun m pr => Function.update m pr.key pr.value) m

/-- The map a journal stands for: the last record of each key wins. -/
def replay (rs : List Record) : Key → Option Bytes := replayFrom (fun _ => none) rs

theorem replay_append (rs rs' : List Record) : replay (rs ++ rs') = replayFrom (replay rs) rs' := foldl_append ..

theorem replay_concat (rs : List Record) (pr : Record) :
    replay (rs ++ [pr]) = Function.update (replay rs) pr.key pr.value :=
  replay_append rs [pr]

def Store.contents (ps : Store) (key : Key) : Option Bytes := (ps.find key).bind Record.value

abbrev Store.Unique (ps : Store) : Prop := Keyed.Unique Record.key ps.root

theorem strLt_irrefl (s : Bytes) : strLt s s = false := by
  induction s with
  | nil => rfl
  | cons a s ih => simp [strLt, ih]

section Cache

variable (ps : Store) (pr : Record) (k : Key)

theorem find_dropRecord : (dropRecord ps pr).find k = if k = pr.key then none else ps.find k := find_drop pr.key

theorem find_addRecord : (addRecord ps pr).find k = if k = pr.key then some pr else ps.find k :=
  find_insert fun k => strLt_irrefl k.1

theorem find_replace : (ps.replace pr).find k = if k = pr.key then (ps.find k).map fun _ => pr else ps.find k :=
  Keyed.find_replace

theorem contents_dropRecord : (dropRecord ps pr).contents = Function.update ps.contents pr.key none := by
  funext k
  by_cases hk : k = pr.key <;> simp [Store.contents, find_dropRecord, hk]

theorem contents_addRecord : (addRecord ps pr).contents = Function.update ps.contents pr.key pr.value := by
  funext k
  by_cases hk : k = pr.key <;> simp [Store.contents, find_addRecord, hk]

end Cache

theorem align_add {c : ℕ} (hc : c % 4 = 0) (n : ℕ) : align (c + n) = c + align n := by
  unfold align
  omega

/-- What a read leaves of the records that the scan still finds in the rest of the file. -/
def ReadSpec (f : Bytes) (off : ℕ) (res : ReadResult × ℕ) : Prop :=
  match res with
  | (.eof, _) => scan head (f.drop (align off)) = []
  | (.fail, off') => off < f.length ∧ off < off' ∧ scan head (f.drop (align off)) = scan head (f.drop (align off'))
  | (.record pr, off') => off < f.length ∧ off < off' ∧ pr.dirty = false ∧
      scan head (f.drop (align off)) = pr :: scan head (f.drop (align off'))

variable {f : Bytes}

theorem scan_past {off : ℕ} (h : f.length ≤ off) : scan head (f.drop (align off)) = [] := by
  have hle := le_align off
  exact scan_drop_short (by omega)

theorem recordReadAt_spec {coff : ℕ} (hc : coff % 4 = 0) : ReadSpec f coff (recordReadAt f coff) := by
  have hal : align coff = coff := align_of_mod hc
  rcases Nat.lt_or_ge coff f.length with hlt | hge
  · cases hh : head (f.drop coff) with
    | none =>
      obtain ⟨off, hr, ho, hs⟩ := recordReadAt_fail hc hlt hh
      rw [hr, ReadSpec]
      refine ⟨hlt, ho, ?_⟩
      rw [hs, hal, scan_none head_local hh, drop_drop]
    | some p =>
      obtain ⟨pr, n⟩ := p
      rw [recordReadAt_record hh, ReadSpec]
      have hp := head_local.pos hh
      obtain ⟨_, _, _, _, ha, -⟩ := head_eq_some hh
      refine ⟨hlt, by omega, ha.dirty, ?_⟩
      rw [hal, scan_some head_local hh, drop_drop, align_add hc]
  · rw [recordReadAt_eof hge, ReadSpec]
    exact scan_past hge

theorem recordRead_spec (f : Bytes) (off : ℕ) : ReadSpec f off (recordRead true f off) := by
  have hal := padLen_add off
  have hm : align off % 4 = 0 := by simp [align]
  have hp : padLen off ≤ 3 := by unfold padLen; split <;> omega
  have hma : min (padLen off) maxRw = padLen off := Nat.min_eq_left (hp.trans (by decide))
  have hl := readAt_length f off (padLen off)
  rw [recordRead, Bool.not_true, if_neg Bool.false_ne_true]
  dsimp only
  split_ifs with heo hsh
  · exact scan_past (by omega)
  · refine ⟨by omega, by omega, ?_⟩
    have hn : scan head (f.drop (align off)) = [] := scan_drop_short (by omega)
    rw [hn, scan_past (by omega)]
  · have hs : ReadSpec f (align off) (recordReadAt f (align off)) := recordReadAt_spec hm
    rw [hal]
    rcases hr : recordReadAt f (align off) with ⟨_ | _ | pr, off'⟩ <;>
      rw [hr] at hs <;> simp only [ReadSpec, align_of_mod hm] at hs ⊢
    · exact hs
    · exact ⟨by omega, by omega, hs.2.2⟩
    · exact ⟨by omega, by omega, hs.2.2⟩

/-- Same file, same access. -/
structure SameHandle (ps ps' : Store) : Prop where
  name : ps'.name = ps.name
  ino : ps'.fd.ino = ps.fd.ino
  readable : ps'.fd.readable = ps.fd.readable
  read : ps'.read = ps.read
  write : ps'.write = ps.write

theorem SameHandle.trans {ps ps' ps'' : Store} (h : SameHandle ps ps') (h' : SameHandle ps' ps'') :
    SameHandle ps ps'' :=
  ⟨h'.name.trans h.name, h'.ino.trans h.ino, h'.readable.trans h.readable, h'.read.trans h.read, h'.write.trans h.write⟩

def Store.Clean (ps : Store) : Prop := ∀ k pr, ps.find k = some pr → pr.dirty = false

structure Loaded (ps ps' : Store) (rs : List Record) : Prop where
  contents : ps'.contents = replayFrom ps.contents rs
  unique : ps.Unique → ps'.Unique
  clean : ps.Clean → ps'.Clean
  handle : SameHandle ps ps'

theorem Loaded.trans {ps ps' ps'' : Store} {rs rs' : List Record} (h : Loaded ps ps' rs)
    (h' : Loaded ps' ps'' rs') : Loaded ps ps'' (rs ++ rs') where
  contents := by
    rw [h'.contents, h.contents]
    exact (foldl_append ..).symm
  unique := h'.unique ∘ h.unique
  clean := h'.clean ∘ h.clean
  handle := h.handle.trans h'.handle

theorem loaded_drop (ps : Store) {opr : Record} (pr : Record) (h : opr.key = pr.key)
    (hv : pr.value = none) : Loaded ps (dropRecord ps opr) [pr] where
  contents := by
    rw [contents_dropRecord, h, ← hv]
    rfl
  unique hu := hu.drop opr.key
  clean hc k r hr := by
    rw [find_dropRecord] at hr
    split_ifs at hr
    exact hc k r hr
  handle := ⟨rfl, rfl, rfl, rfl, rfl⟩

theorem loaded_add (ps : Store) {pr : Record} (hd : pr.dirty = false)
    (h : ps.find pr.key = none) : Loaded ps (addRecord ps pr) [pr] where
  contents := contents_addRecord ps pr
  unique hu := hu.insert _ h
  clean hc k r hr := by
    rw [find_addRecord] at hr
    split_ifs at hr
    · cases hr
      exact hd
    · exact hc k r hr
  handle := ⟨rfl, rfl, rfl, rfl, rfl⟩

theorem loaded_loadRecord (ps : Store) {pr : Record} (hd : pr.dirty = false) : Loaded ps (loadRecord ps pr) [pr] := by
  have hv (h : pr.data = []) : pr.value = none := if_pos h
  unfold loadRecord
  cases hf : ps.find pr.key with
  | none =>
    split_ifs with h0
    · refine ⟨?_, id, id, rfl, rfl, rfl, rfl, rfl⟩
      have hn : ps.contents pr.key = none := by rw [Store.contents, hf]; rfl
      change ps.contents = update ps.contents pr.key pr.value
      rw [hv h0, ← hn, update_eq_self]
    · exact loaded_add ps hd hf
  | some opr =>
    have hk : opr.key = pr.key := key_of_find hf
    split_ifs with h0
    · exact loaded_drop ps pr hk (hv h0)
    · have h1 := loaded_drop ps { pr with data := [] } hk rfl
      have h2 := loaded_add (dropRecord ps opr) hd (by rw [find_dropRecord, if_pos hk.symm])
      refine ⟨?_, (h1.trans h2).unique, (h1.trans h2).clean, (h1.trans h2).handle⟩
      rw [(h1.trans h2).contents]
      exact update_idem ..

theorem loadRecord_fd (ps : Store) (pr : Record) : (loadRecord ps pr).fd = ps.fd := by
  unfold loadRecord
  cases ps.find pr.key <;> dsimp only <;> split_ifs <;> rfl

theorem loadLoop_spec (f : Bytes) (fuel : ℕ) (ps : Store) (hr : ps.fd.readable = true)
    (hf : f.length - ps.fd.off < fuel) :
    ∃ ps', loadLoop f fuel ps = some ps' ∧ Loaded ps ps' (scan head (f.drop (align ps.fd.off))) := by
  induction fuel generalizing ps with
  | zero => omega
  | succ fuel ih =>
    have hs := recordRead_spec f ps.fd.off
    -- moving the file position touches nothing that `Loaded` looks at
    have hm (off : ℕ) : Loaded ps { ps with fd := { ps.fd with off } } [] := ⟨rfl, id, id, rfl, rfl, rfl, rfl, rfl⟩
    rw [loadLoop, hr]
    rcases hre : recordRead true f ps.fd.off with ⟨_ | _ | pr, off⟩ <;>
      rw [hre, ReadSpec] at hs <;> dsimp only
    · rw [hs]
      exact ⟨_, rfl, hm off⟩
    · obtain ⟨hlt, ho, hsc⟩ := hs
      obtain ⟨ps', hlo, hl⟩ := ih { ps with fd := { ps.fd with off } } hr (by dsimp only; omega)
      rw [hsc]
      exact ⟨ps', hlo, (hm off).trans hl⟩
    · obtain ⟨hlt, ho, hd, hsc⟩ := hs
      set ps₁ : Store := { ps with fd := { ps.fd with off } } with hps₁
      have hfd : (loadRecord ps₁ pr).fd = { ps.fd with off } := loadRecord_fd ps₁ pr
      obtain ⟨ps', hlo, hl⟩ := ih (loadRecord ps₁ pr) (by rw [hfd]; exact hr) (by rw [hfd]; dsimp only; omega)
      rw [hfd] at hl
      rw [hsc]
      exact ⟨ps', hlo, (hm off).trans ((loaded_loadRecord ps₁ hd).trans hl)⟩

theorem loadLoop_mono {fuel fuel' : ℕ} {ps ps' : Store}
    (h : loadLoop f fuel ps = some ps') (hle : fuel ≤ fuel') : loadLoop f fuel' ps = some ps' := by
  induction fuel generalizing fuel' ps with
  | zero => cases h
  | succ fuel ih =>
    obtain ⟨m, rfl⟩ : ∃ m, fuel' = m + 1 := ⟨fuel' - 1, by omega⟩
    rw [loadLoop] at h ⊢
    rcases hr : recordRead ps.fd.readable f ps.fd.off with ⟨_ | _ | pr, off⟩ <;>
      rw [hr] at h <;> dsimp only at h ⊢
    · exact h
    · exact ih h (by omega)
    · exact ih h (by omega)

theorem load_mono {fuel fuel' : ℕ} {w w' : World} (h : load fuel w = some w')
    (hle : fuel ≤ fuel') : load fuel' w = some w' := by
  obtain ⟨ps, hps, rfl⟩ := Option.map_eq_some_iff.mp h
  rw [load, loadLoop_mono hps hle, Option.map_some]

theorem load_spec (w : World) (fuel : ℕ) (hr : w.ps.fd.readable = true) (h0 : w.ps.fd.off = 0)
    (he : w.ps.root = []) (hf : w.file.length < fuel) :
    ∃ w', load fuel w = some w' ∧ w'.fs = w.fs ∧ w'.ps.contents = replay (scan head w.file) ∧
      w'.ps.Unique ∧ w'.ps.Clean ∧ SameHandle w.ps w'.ps := by
  obtain ⟨ps', hlo, hl⟩ := loadLoop_spec w.file fuel w.ps hr (by omega)
  have hem : w.ps.contents = fun _ => none := by
    funext k
    simp [Store.contents, Store.find, he]
  refine ⟨{ w with ps := rewind ps' }, by rw [load, hlo]; rfl, rfl, ?_, ?_, ?_, ?_⟩
  · have hc := hl.contents
    rw [h0, hem] at hc
    exact hc
  · exact hl.unique (by simp [Store.Unique, Keyed.Unique, he])
  · exact hl.clean (by simp [Store.Clean, Store.find, he])
  · exact hl.handle.trans ⟨rfl, rfl, rfl, rfl, rfl⟩

end OpenSync.Psfs
