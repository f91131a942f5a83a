import OpenSync.PsfsDurable

/-!
# Restarting a PSFS store

A store that is opened again by name and loaded holds the map that was saved under that name. The
two results about runs follow: what a successful sync promises, and what a failed prune leaves
possible. Each is followed by the run in which the source breaks it.
-/

namespace OpenSync.Psfs
open Journal (scan)

def reopen (fs : Fs) (name : Bytes) (read write : Bool) (fuel : ℕ) : Option World :=
  (openStore fs name read write).bind (load fuel)

theorem reopen_spec {fs : Fs} {name : Bytes} {i : ℕ} (hi : fs.dir name = some i)
    {read write : Bool} (hrw : (read || write) = true) {fuel : ℕ} (hf : (fs.inodes i).length < fuel) :
    ∃ w, reopen fs name read write fuel = some w ∧ w.ps.read = read ∧
      w.ps.contents = replay (scan head (fs.inodes i)) := by
  have ho : openStore fs name read write = some ⟨fs, freshStore name read write i⟩ := by
    rw [openStore, hrw, Bool.not_true, if_neg Bool.false_ne_true, hi]
  obtain ⟨w, hl, -, hc, -, -, hh⟩ := load_spec ⟨fs, freshStore name read write i⟩ fuel rfl rfl rfl hf
  exact ⟨w, by rw [reopen, ho]; exact hl, hh.read, hc⟩

theorem get_eq (ps : Store) (key : Key) (valueSz : ℕ) : get ps key valueSz = if ps.read then
        ((((ps.contents key).getD []).length : ℤ), ((ps.contents key).getD []).take valueSz)
      else (-1, []) := by
  rw [get, Store.contents]
  cases ps.read with
  | false => rfl
  | true =>
    cases hf : ps.find key with
    | none => simp
    | some pr =>
      by_cases h0 : pr.data = [] <;> simp [Record.value, h0]

theorem durable_of_load {fs : Fs} {name : Bytes} {read : Bool} {fuel : ℕ} {w₀ w₁ : World}
    (ho : openStore fs name read true = some w₀) (hl : load fuel w₀ = some w₁) : Durable w₁ ∧ w₁.ps.name = name := by
  have hw₀ : w₀.ps.fd.readable = true ∧ w₀.ps.fd.off = 0 ∧ w₀.ps.root = [] ∧ w₀.ps.name = name ∧
      w₀.ps.write = true ∧ w₀.fs.dir name = some w₀.ps.fd.ino := by
    rw [openStore, Bool.or_true, Bool.not_true, if_neg Bool.false_ne_true] at ho
    cases hi : fs.dir name with
    | none =>
      rw [hi] at ho
      cases ho
      exact ⟨rfl, rfl, rfl, rfl, rfl, Function.update_self ..⟩
    | some i =>
      rw [hi] at ho
      cases ho
      exact ⟨rfl, rfl, rfl, rfl, rfl, hi⟩
  obtain ⟨hr, h0, he, hn, hwr, hd⟩ := hw₀
  obtain ⟨w, hw, hfs, hc, hu, -, hh⟩ := load_spec w₀ (max fuel (w₀.file.length + 1)) hr h0 he (by omega)
  have hs : w = w₁ := Option.some.inj (hw.symm.trans (load_mono hl (by omega)))
  subst hs
  refine ⟨⟨hh.write.trans hwr, hu, ?_, w₀.ps.fd.ino, ?_, fun k => .inr ?_⟩, hh.name.trans hn⟩
  · rw [hfs, hh.ino]
    exact w₀.fs.linked _ _ hd
  · rw [hfs, hh.name, hn]
    exact hd
  · rw [hfs, hc]
    rfl

theorem reopen_saved {w : World} (h : Saved w) {read write : Bool} (hrw : (read || write) = true) :
    ∃ rounds, ∀ fuel ≥ rounds, ∃ w', reopen w.fs w.ps.name read write fuel = some w' ∧
      w'.ps.read = read ∧ w'.ps.contents = w.ps.contents := by
  obtain ⟨i, hi, hre⟩ := h.synced
  refine ⟨(w.fs.inodes i).length + 1, fun fuel hf => ?_⟩
  obtain ⟨w', ho, hr, hc⟩ := reopen_spec hi hrw (by omega : _ < fuel)
  exact ⟨w', ho, hr, hc.trans hre⟩

def defaultConfig : Config where
  syncMin := 8
  wastedMax := 32
  ratioExceeded wasted size := wasted * 100 > 50 * size

def emptyFs : Fs := ⟨fun _ => [], fun _ => none, 0, nofun⟩

def SyncEnv.ok : SyncEnv where
  statOk := true
  junk := 0
  writes _ := maxRw
  openOk := true
  lockOk := true
  fsyncOk := true
  renameOk := true
  dirFsyncOk := true

def sampleWorld : World := ⟨emptyFs.create [0x73], rewind (freshStore [0x73] true true 0)⟩

def sampleKey : Key := ⟨[0x6B], by decide⟩

def samplePending : World := run defaultConfig sampleWorld [.set sampleKey (some [7])]

/-- After a successful sync, closing the store and loading it again gives the map that was in
memory, in every run whose steps meet their conditions. -/
theorem sync_true_reload (cfg : Config) (fs : Fs) (name : Bytes) (read : Bool) (fuel : ℕ)
    (w₀ w₁ w : World) (ops : List Op) (env envClose : SyncEnv) (forcePrune read' write' : Bool)
    (hopen : openStore fs name read true = some w₀) (hload : load fuel w₀ = some w₁)
    (hops : RunSafe cfg w₁ ops) (hsafe : SyncSafe cfg env forcePrune (run cfg w₁ ops))
    (hsync : sync cfg env forcePrune (run cfg w₁ ops) = (w, true))
    (hclose : SyncSafe cfg envClose false w) (hrw : (read' || write') = true) :
    ∃ rounds, ∀ fuel' ≥ rounds, ∃ w', reopen (close cfg envClose w).1 name read' write' fuel' = some w' ∧
      w'.ps.contents = w.ps.contents ∧
      (read' = w.ps.read → ∀ key valueSz, get w'.ps key valueSz = get w.ps key valueSz) := by
  obtain ⟨hd₁, hn₁⟩ := durable_of_load hopen hload
  obtain ⟨hd, hn⟩ := durable_run hd₁ hops
  have hs := sync_spec hd hsafe
  rw [hsync] at hs
  have hc := sync_spec hs.durable hclose
  have hsa := hc.durable.saved (hc.clean (.inr (hs.clean (.inl rfl))))
  obtain ⟨rounds, hre⟩ := reopen_saved hsa hrw
  refine ⟨rounds, fun fuel' hf => ?_⟩
  obtain ⟨w', hw', hrea, hco⟩ := hre fuel' hf
  rw [hc.name, hs.name, hn, hn₁] at hw'
  refine ⟨w', hw', hco.trans hc.contents, fun hr key valueSz => ?_⟩
  rw [get_eq, get_eq, hco.trans hc.contents, hrea, hr]

theorem sync_true_reload_sample : ∃ rounds, ∀ fuel' ≥ rounds, ∃ w',
      reopen (close defaultConfig .ok (sync defaultConfig .ok false samplePending).1).1 [0x73] true
        false fuel' = some w' ∧
      w'.ps.contents = (sync defaultConfig .ok false samplePending).1.ps.contents ∧
      (true = (sync defaultConfig .ok false samplePending).1.ps.read → ∀ key valueSz, get w'.ps key valueSz =
          get (sync defaultConfig .ok false samplePending).1.ps key valueSz) :=
  sync_true_reload defaultConfig emptyFs [0x73] true 1 ⟨emptyFs.create [0x73], _⟩ sampleWorld _
    [.set sampleKey (some [7])] .ok .ok false true false rfl rfl ⟨trivial, trivial⟩
    ⟨.inl rfl, by decide +kernel⟩ (Prod.ext rfl (by decide +kernel))
    ⟨.inl rfl, by decide +kernel⟩ rfl

/-- A record that is already in the file is lost by a prune that fails to copy it and still returns
true. -/
theorem prune_loses_record : reopen emptyFs [0x73] true true 1 = some sampleWorld ∧
    ∃ w, sync defaultConfig { SyncEnv.ok with writes := fun _ => 0 } true
        (sync defaultConfig .ok false samplePending).1 = (w, true) ∧
      get w.ps sampleKey 1 = (1, [7]) ∧
      (reopen (close defaultConfig .ok w).1 [0x73] true true 100).map
        (fun w' => get w'.ps sampleKey 1) = some (0, []) :=
  ⟨rfl, _, Prod.ext rfl (by decide +kernel), by decide +kernel, by decide +kernel⟩

/-- After a failed prune, a later successful append sync still makes the map in memory the one that
a reload finds, in every run whose steps meet their conditions. -/
theorem failed_prune_reload (cfg : Config) (fs : Fs) (name : Bytes) (read : Bool) (fuel : ℕ)
    (w₀ w₁ w w' : World) (ops later : List Op) (env envAppend : SyncEnv) (forcePrune read' write' : Bool)
    (hopen : openStore fs name read true = some w₀) (hload : load fuel w₀ = some w₁) (hops : RunSafe cfg w₁ ops)
    (hmode : (pruneWanted cfg env (run cfg w₁ ops) || forcePrune) = true) (hsafe : SyncPruneSafe env (run cfg w₁ ops))
    (hprune : sync cfg env forcePrune (run cfg w₁ ops) = (w, false)) (hlater : RunSafe cfg w later)
    (happend : pruneWanted cfg envAppend (run cfg w later) = false)
    (hsafe' : SyncAppendSafe envAppend (run cfg w later))
    (hsync : sync cfg envAppend false (run cfg w later) = (w', true)) (hrw : (read' || write') = true) :
    ∃ rounds, ∀ fuel' ≥ rounds, ∃ w'',
      reopen w'.fs name read' write' fuel' = some w'' ∧ w''.ps.contents = w'.ps.contents ∧
      w'.ps.contents = (run cfg w later).ps.contents := by
  obtain ⟨hd₁, hn₁⟩ := durable_of_load hopen hload
  obtain ⟨hd, hn⟩ := durable_run hd₁ hops
  have hp : SyncSafe cfg env forcePrune (run cfg w₁ ops) := by
    rw [SyncSafe, if_pos hmode]
    exact hsafe
  have hs := sync_spec hd hp
  rw [hprune] at hs
  obtain ⟨hd₂, hn₂⟩ := durable_run hs.durable hlater
  have ha : SyncSafe cfg envAppend false (run cfg w later) := by
    rw [SyncSafe, happend, Bool.or_false, if_neg Bool.false_ne_true]
    exact hsafe'
  have hs' := sync_spec hd₂ ha
  rw [hsync] at hs'
  obtain ⟨rounds, hre⟩ := reopen_saved (hs'.durable.saved (hs'.clean (.inl rfl))) hrw
  refine ⟨rounds, fun fuel' hf => ?_⟩
  obtain ⟨w'', hw'', -, hc⟩ := hre fuel' hf
  rw [hs'.name, hn₂, hs.name, hn, hn₁] at hw''
  exact ⟨w'', hw'', hc, hs'.contents⟩

def sampleFailed : World :=
  (sync defaultConfig { SyncEnv.ok with openOk := false } true samplePending).1

theorem failed_prune_reload_sample : ∃ rounds, ∀ fuel' ≥ rounds, ∃ w'',
      reopen (sync defaultConfig .ok false sampleFailed).1.fs [0x73] true false fuel' = some w'' ∧
      w''.ps.contents = (sync defaultConfig .ok false sampleFailed).1.ps.contents ∧
      (sync defaultConfig .ok false sampleFailed).1.ps.contents = sampleFailed.ps.contents :=
  failed_prune_reload defaultConfig emptyFs [0x73] true 1 ⟨emptyFs.create [0x73], _⟩ sampleWorld
    sampleFailed _ [.set sampleKey (some [7])] [] { SyncEnv.ok with openOk := false } .ok true true
    false rfl rfl ⟨trivial, trivial⟩ (by decide +kernel) ⟨by decide, nofun⟩ rfl trivial
    (by decide +kernel) ⟨.inl rfl, by decide +kernel⟩ (Prod.ext rfl (by decide +kernel)) rfl

/-- A set that is pending when a prune fails at `fsync()` is lost: the record was already marked
clean, so the next sync has nothing to write. -/
theorem failed_prune_loses_set : reopen emptyFs [0x73] true true 1 = some sampleWorld ∧
    ∃ w w', sync defaultConfig { SyncEnv.ok with fsyncOk := false } true samplePending = (w, false) ∧
      pruneWanted defaultConfig .ok w = false ∧ sync defaultConfig .ok false w = (w', true) ∧
      get w'.ps sampleKey 1 = (1, [7]) ∧
      (reopen w'.fs [0x73] true true 100).map (fun w'' => get w''.ps sampleKey 1) = some (0, []) :=
  ⟨rfl, _, _, Prod.ext rfl (by decide +kernel), by decide +kernel, Prod.ext rfl (by decide +kernel),
    by decide +kernel, by decide +kernel⟩

end OpenSync.Psfs
