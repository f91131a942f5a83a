import OpenSync.PsfsLoad

/-!
# What the two sync strategies write

An append sync keeps the file in step with the cache record by record: a key whose cached record is
clean, or that has none, has the cached value in the file. A prune whose writes all succeed leaves a
file that replays to the whole cache. Neither changes the key/value map of the cache.
-/

namespace OpenSync.Psfs
open List Function Journal
open Journal (scan rejects)

/-- A key is pending in the cache, or the file already holds its cached value. -/
def Synced (f : Bytes) (ps : Store) : Prop :=
  ∀ k, (∃ pr, ps.find k = some pr ∧ pr.dirty = true) ∨ replay (scan head f) k = ps.contents k

variable {ps : Store} {f : Bytes}

theorem Synced.replay_eq (h : Synced f ps) (hc : ps.Clean) : replay (scan head f) = ps.contents := by
  funext k
  rcases h k with ⟨pr, hf, hd⟩ | hk
  · rw [hc k pr hf] at hd
    cases hd
  · exact hk

variable {pr : Record} {n : ℕ}

theorem replay_recordWrite (h : WriteSafe f pr n) : replay (scan head (recordWrite f pr n).1) =
      if Reached f pr n then Function.update (replay (scan head f)) pr.key pr.value
      else replay (scan head f) := by
  rw [scan_recordWrite h]
  split_ifs
  · exact replay_concat _ pr.stored
  · rw [append_nil]

open Store

theorem contents_replace_clean (h : ps.find pr.key = some pr) :
    (ps.replace { pr with dirty := false }).contents = ps.contents := by
  funext k
  rw [contents, find_replace, contents]
  split_ifs with hk
  · rw [hk, h]
    rfl
  · rfl

theorem Store.Clean.drop (h : ps.Clean) (pr : Record) : (dropRecord ps pr).Clean := by
  intro k r hr
  rw [find_dropRecord] at hr
  split_ifs at hr
  exact h k r hr

theorem Store.Clean.replace (h : ps.Clean) (hd : pr.dirty = false) : (ps.replace pr).Clean := by
  intro k r hr
  rw [find_replace] at hr
  split_ifs at hr
  · obtain ⟨-, -, rfl⟩ := Option.map_eq_some_iff.mp hr
    exact hd
  · exact h k r hr

/-! ## Append -/

/-- Every write of the loop is safe, as far as the loop gets. -/
def AppendSafe (env : SyncEnv) : List Record → Bytes → Prop
  | [], _ => True
  | pr :: rs, f =>
    if pr.dirty then
      WriteSafe f pr (env.writes pr.key) ∧ (0 < (recordWrite f pr (env.writes pr.key)).2.1 →
          AppendSafe env rs (recordWrite f pr (env.writes pr.key)).1)
    else AppendSafe env rs f

instance AppendSafe.decidable (env : SyncEnv) :
    (rs : List Record) → (f : Bytes) → Decidable (AppendSafe env rs f)
  | [], _ => .isTrue trivial
  | pr :: rs, f =>
    have := AppendSafe.decidable env rs f
    have := AppendSafe.decidable env rs (recordWrite f pr (env.writes pr.key)).1
    inferInstanceAs (Decidable (if pr.dirty then _ else _))

variable (env : SyncEnv)

theorem foldl_appendStep_false (rs : List Record) (ps : Store) (f : Bytes) :
    rs.foldl (appendStep env) (false, ps, f) = (false, ps, f) := by
  induction rs with
  | nil => rfl
  | cons pr rs ih => exact ih

theorem appendStep_dirty (ps : Store) (f : Bytes) (hd : pr.dirty = true) : (appendStep env (true, ps, f) pr =
        (true, ps.replace { pr with dirty := false }, (recordWrite f pr (env.writes pr.key)).1) ∧
      0 < (recordWrite f pr (env.writes pr.key)).2.1 ∧ Reached f pr (env.writes pr.key)) ∨
    appendStep env (true, ps, f) pr = (false, ps, (recordWrite f pr (env.writes pr.key)).1) := by
  unfold appendStep
  rcases recordWrite_cases f pr (env.writes pr.key) with ⟨hp, hpr, hw⟩ | ⟨hn, -⟩
  · left
    refine ⟨?_, hp, reached_of_written_eq hw⟩
    simp [hd, hpr, not_le.mpr hp]
  · right
    simp [hd, hn]

def Listed (ps : Store) (rs : List Record) : Prop :=
  (rs.map Record.key).Nodup ∧ ∀ pr ∈ rs, ps.find pr.key = some pr

theorem listed_root (hu : ps.Unique) : Listed ps ps.root := ⟨hu, fun _ h => Keyed.find_of_mem hu h⟩

variable {rs : List Record}

theorem Listed.tail (h : Listed ps (pr :: rs)) : Listed ps rs := ⟨(nodup_cons.mp h.1).2, (forall_mem_cons.mp h.2).2⟩

theorem Listed.key_ne {pr r : Record} (h : Listed ps (pr :: rs)) (hr : r ∈ rs) : r.key ≠ pr.key :=
  fun he => (nodup_cons.mp h.1).1 (he ▸ mem_map_of_mem hr)

theorem Listed.congr {ps ps' : Store} (h : Listed ps (pr :: rs))
    (hf : ∀ k, k ≠ pr.key → ps'.find k = ps.find k) : Listed ps' rs :=
  ⟨h.tail.1, fun r hr => by rw [hf r.key (h.key_ne hr), h.tail.2 r hr]⟩

theorem Listed.replace (h : Listed ps (pr :: rs)) (pr' : Record) (hk : pr'.key = pr.key) : Listed (ps.replace pr') rs :=
  h.congr fun k hne => by rw [find_replace, if_neg (hk ▸ hne)]

theorem Listed.drop (h : Listed ps (pr :: rs)) : Listed (dropRecord ps pr) rs :=
  h.congr fun k hne => by rw [find_dropRecord, if_neg hne]

/-- What holds of the cache at the end of an append loop, whatever the writes did. -/
structure Appended (ps ps' : Store) (rs : List Record) (ok : Bool) : Prop where
  contents : ps'.contents = ps.contents
  unique : ps.Unique → ps'.Unique
  handle : SameHandle ps ps'
  clean : ok = true → ∀ k pr, ps'.find k = some pr → pr.dirty = true → ps.find k = some pr ∧ pr ∉ rs

theorem sameHandle_replace (ps : Store) (pr : Record) : SameHandle ps (ps.replace pr) := ⟨rfl, rfl, rfl, rfl, rfl⟩

theorem sameHandle_dropRecord (ps : Store) (pr : Record) : SameHandle ps (dropRecord ps pr) := ⟨rfl, rfl, rfl, rfl, rfl⟩

theorem appended_foldl (rs : List Record) (ps : Store) (f : Bytes) (hl : Listed ps rs) :
    Appended ps (rs.foldl (appendStep env) (true, ps, f)).2.1 rs
      (rs.foldl (appendStep env) (true, ps, f)).1 := by
  induction rs generalizing ps f with
  | nil => exact ⟨rfl, id, ⟨rfl, rfl, rfl, rfl, rfl⟩, fun _ k pr hf _ => ⟨hf, not_mem_nil⟩⟩
  | cons pr rs ih =>
    rw [foldl_cons]
    cases hd : pr.dirty with
    | false =>
      have hs : appendStep env (true, ps, f) pr = (true, ps, f) := by simp [appendStep, hd]
      rw [hs]
      have h := ih ps f hl.tail
      refine ⟨h.contents, h.unique, h.handle, fun hok k r hf hr => ?_⟩
      obtain ⟨hfi, hm⟩ := h.clean hok k r hf hr
      refine ⟨hfi, not_mem_cons_of_ne_of_not_mem ?_ hm⟩
      rintro rfl
      rw [hd] at hr
      cases hr
    | true =>
      rcases appendStep_dirty env ps f hd with ⟨hs, -, -⟩ | hs
      · rw [hs]
        have h := ih (ps.replace { pr with dirty := false }) (recordWrite f pr (env.writes pr.key)).1
          (hl.replace { pr with dirty := false } rfl)
        have hfi := hl.2 pr mem_cons_self
        refine ⟨?_, fun hu => h.unique (hu.replace _), (sameHandle_replace ..).trans h.handle, ?_⟩
        · rw [h.contents, contents_replace_clean hfi]
        · intro hok k r hf hr
          obtain ⟨hfr, hm⟩ := h.clean hok k r hf hr
          rw [find_replace] at hfr
          split_ifs at hfr with hk
          · obtain ⟨-, -, rfl⟩ := Option.map_eq_some_iff.mp hfr
            cases hr
          · refine ⟨hfr, not_mem_cons_of_ne_of_not_mem ?_ hm⟩
            rintro rfl
            exact hk (Keyed.key_of_find hfr).symm
      · rw [hs, foldl_appendStep_false]
        exact ⟨rfl, id, ⟨rfl, rfl, rfl, rfl, rfl⟩, fun h => nomatch h⟩

theorem synced_recordWrite (hs : Synced f ps)
    (hf : ps.find pr.key = some pr) (hd : pr.dirty = true) (hsa : WriteSafe f pr n) :
    Synced (recordWrite f pr n).1 ps := by
  intro k
  by_cases hk : k = pr.key
  · exact .inl ⟨pr, hk ▸ hf, hd⟩
  rcases hs k with hp | hr
  · exact .inl hp
  · right
    rw [replay_recordWrite hsa, ← hr]
    split_ifs
    · exact update_of_ne hk ..
    · rfl

theorem synced_written (hs : Synced f ps)
    (hf : ps.find pr.key = some pr) (hsa : WriteSafe f pr n) (hr : Reached f pr n) :
    Synced (recordWrite f pr n).1 (ps.replace { pr with dirty := false }) := by
  intro k
  rw [replay_recordWrite hsa, if_pos hr, contents_replace_clean hf, find_replace]
  by_cases hk : k = pr.key
  · right
    rw [hk, update_self, contents, hf]
    rfl
  · rw [if_neg hk, update_of_ne hk]
    exact hs k

theorem synced_foldl (rs : List Record) (ps : Store) (f : Bytes)
    (hl : Listed ps rs) (hs : Synced f ps) (hsa : AppendSafe env rs f) :
    Synced (rs.foldl (appendStep env) (true, ps, f)).2.2
      (rs.foldl (appendStep env) (true, ps, f)).2.1 := by
  induction rs generalizing ps f with
  | nil => exact hs
  | cons pr rs ih =>
    rw [foldl_cons]
    have hf := hl.2 pr mem_cons_self
    rw [AppendSafe] at hsa
    cases hd : pr.dirty with
    | false =>
      have hst : appendStep env (true, ps, f) pr = (true, ps, f) := by simp [appendStep, hd]
      rw [hd, if_neg Bool.false_ne_true] at hsa
      rw [hst]
      exact ih ps f hl.tail hs hsa
    | true =>
      rw [hd, if_pos rfl] at hsa
      rcases appendStep_dirty env ps f hd with ⟨hst, hp, hr⟩ | hst
      · rw [hst]
        exact ih _ _ (hl.replace _ rfl) (synced_written hs hf hsa.1 hr) (hsa.2 hp)
      · rw [hst, foldl_appendStep_false]
        exact synced_recordWrite hs hf hd hsa.1

/-! ## Prune -/

/-- The operating system takes all bytes of every record that is copied. -/
def PruneComplete (env : SyncEnv) (rs : List Record) : Prop :=
  ∀ pr ∈ rs, pr.data ≠ [] → Journal.align (recordBody pr).length ≤ min (env.writes pr.key) maxRw

theorem pruneStep_write (ps : Store) (f : Bytes) (h : pr.data ≠ []) :
    (pruneStep env (ps, f) pr = (ps.replace { pr with dirty := false }, (recordWrite f pr (env.writes pr.key)).1) ∧
      written f pr (env.writes pr.key) = recordIov f.length pr) ∨
    (pruneStep env (ps, f) pr = (ps, (recordWrite f pr (env.writes pr.key)).1) ∧
      (recordWrite f pr (env.writes pr.key)).2.1 = -1) := by
  unfold pruneStep
  rcases recordWrite_cases f pr (env.writes pr.key) with ⟨hp, hpr, hw⟩ | ⟨hn, -⟩
  · left
    simp [h, hpr, not_le.mpr hp, hw]
  · right
    simp [h, hn]

theorem pruneStep_drop (ps : Store) (f : Bytes) (h : pr.data = []) :
    pruneStep env (ps, f) pr = (dropRecord ps pr, f) := by
  rw [pruneStep, if_pos h]

theorem contents_drop_deleted (hf : ps.find pr.key = some pr)
    (h : pr.data = []) : (dropRecord ps pr).contents = ps.contents := by
  have hn : ps.contents pr.key = none := by
    rw [contents, hf]
    exact if_pos h
  rw [contents_dropRecord, ← hn, update_eq_self]

theorem foldl_pruneStep_cache (rs : List Record) (ps : Store) (f : Bytes) (hl : Listed ps rs) :
    (rs.foldl (pruneStep env) (ps, f)).1.contents = ps.contents ∧
      (ps.Unique → (rs.foldl (pruneStep env) (ps, f)).1.Unique) ∧
      (ps.Clean → (rs.foldl (pruneStep env) (ps, f)).1.Clean) ∧
      SameHandle ps (rs.foldl (pruneStep env) (ps, f)).1 := by
  induction rs generalizing ps f with
  | nil => exact ⟨rfl, id, id, ⟨rfl, rfl, rfl, rfl, rfl⟩⟩
  | cons pr rs ih =>
    rw [foldl_cons]
    have hf := hl.2 pr mem_cons_self
    by_cases h0 : pr.data = []
    · rw [pruneStep_drop env ps f h0]
      obtain ⟨hc, hu, hcl, hh⟩ := ih (dropRecord ps pr) f hl.drop
      exact ⟨by rw [hc, contents_drop_deleted hf h0], fun h => hu (h.drop _),
        fun h => hcl (h.drop pr), (sameHandle_dropRecord ..).trans hh⟩
    · rcases pruneStep_write env ps f h0 with ⟨hs, -⟩ | ⟨hs, -⟩
      · rw [hs]
        obtain ⟨hc, hu, hcl, hh⟩ := ih (ps.replace { pr with dirty := false })
          (recordWrite f pr (env.writes pr.key)).1 (hl.replace _ rfl)
        exact ⟨by rw [hc, contents_replace_clean hf], fun h => hu (h.replace _),
          fun h => hcl (h.replace rfl), (sameHandle_replace ..).trans hh⟩
      · rw [hs]
        exact ih ps _ hl.tail

theorem writeSafe_of_rejects (h : rejects head f = []) (hr : Reached f pr n) : WriteSafe f pr n :=
  ⟨fun _ hs => (not_mem_nil (h ▸ hs)).elim, fun hn => absurd hr hn⟩

theorem rejects_recordWrite (hf : rejects head f = [])
    (hr : Reached f pr n) : rejects head (recordWrite f pr n).1 = [] := by
  have hal := padLen_add f.length
  have hb := padLen_add (recordBody pr).length
  obtain ⟨p, hp, hl⟩ := written_drop f pr n hr
  rw [recordWrite_file, rejects_append head_local _ _ hf, show align f.length - f.length = padLen f.length by omega, hp]
  exact rejects_record head_local (head_recordBody hr.payload_le p) (by rw [length_append]; omega)

theorem recordIov_length_of_mod {size : ℕ} (h : size % 4 = 0) (pr : Record) :
    (recordIov size pr).length = Journal.align (recordBody pr).length := by
  have hp := padLen_add size
  rw [align_of_mod h] at hp
  rw [recordIov_length, ← padLen_add]
  omega

/-- The invariant of the copy loop when every write succeeds: the new file holds the visited part of
the cache, which is clean, and nothing else. -/
structure Copying (ps : Store) (f : Bytes) (rs : List Record) : Prop where
  listed : Listed ps rs
  aligned : f.length % 4 = 0
  rejects_eq : rejects head f = []
  todo : ∀ pr ∈ rs, replay (scan head f) pr.key = none
  visited : ∀ k, (∀ pr ∈ rs, pr.key ≠ k) →
    replay (scan head f) k = ps.contents k ∧ ∀ pr, ps.find k = some pr → pr.dirty = false

theorem Copying.drop (h : Copying ps f (pr :: rs)) : Copying (dropRecord ps pr) f rs where
  listed := h.listed.drop
  aligned := h.aligned
  rejects_eq := h.rejects_eq
  todo r hr := h.todo r (mem_cons_of_mem _ hr)
  visited k hk := by
    rw [contents_dropRecord, find_dropRecord]
    by_cases hke : k = pr.key
    · rw [hke, update_self, if_pos rfl]
      exact ⟨h.todo pr mem_cons_self, fun _ hn => nomatch hn⟩
    · rw [update_of_ne hke, if_neg hke]
      exact h.visited k (forall_mem_cons.mpr ⟨fun he => hke he.symm, hk⟩)

theorem Copying.write (h : Copying ps f (pr :: rs)) (hr : Reached f pr n)
    (hw : written f pr n = recordIov f.length pr) :
    Copying (ps.replace { pr with dirty := false }) (recordWrite f pr n).1 rs where
  listed := h.listed.replace _ rfl
  aligned := by
    have hal := h.aligned
    rw [recordWrite_file, hw, length_append, recordIov_length_of_mod hal, align]
    omega
  rejects_eq := rejects_recordWrite h.rejects_eq hr
  todo r hm := by
    rw [replay_recordWrite (writeSafe_of_rejects h.rejects_eq hr), if_pos hr, update_of_ne (h.listed.key_ne hm)]
    exact h.todo r (mem_cons_of_mem _ hm)
  visited k hk := by
    have hf := h.listed.2 pr mem_cons_self
    rw [replay_recordWrite (writeSafe_of_rejects h.rejects_eq hr), if_pos hr, contents_replace_clean hf, find_replace]
    by_cases hke : k = pr.key
    · rw [hke, update_self, contents, hf, if_pos rfl]
      refine ⟨rfl, fun r hr => ?_⟩
      cases hr
      rfl
    · rw [update_of_ne hke, if_neg hke]
      exact h.visited k (forall_mem_cons.mpr ⟨fun he => hke he.symm, hk⟩)

theorem copying_foldl (rs : List Record) (ps : Store) (f : Bytes) (h : Copying ps f rs) (hc : PruneComplete env rs) :
    Copying (rs.foldl (pruneStep env) (ps, f)).1 (rs.foldl (pruneStep env) (ps, f)).2 [] := by
  induction rs generalizing ps f with
  | nil => exact h
  | cons pr rs ih =>
    rw [foldl_cons]
    have hcs : PruneComplete env rs := (forall_mem_cons.mp hc).2
    by_cases h0 : pr.data = []
    · rw [pruneStep_drop env ps f h0]
      exact ih _ _ h.drop hcs
    have hr := hc pr mem_cons_self h0
    have hw : written f pr (env.writes pr.key) = recordIov f.length pr := by
      have hl := recordIov_length_of_mod h.aligned pr
      rw [written, take_of_length_le (by omega)]
    rcases pruneStep_write env ps f h0 with ⟨hs, -⟩ | ⟨-, hn⟩
    · rw [hs]
      exact ih _ _ (h.write (reached_of_written_eq hw) hw) hcs
    · have hp := recordWrite_pos hw
      omega

theorem pruneCopy_complete {env : SyncEnv} (hu : ps.Unique) (hc : PruneComplete env ps.root) :
    replay (scan head (pruneCopy env ps).2) = (pruneCopy env ps).1.contents ∧ (pruneCopy env ps).1.Clean := by
  have hin : Copying ps [] ps.root := by
    refine ⟨listed_root hu, rfl, rfl, fun _ _ => rfl, fun k hk => ?_⟩
    have hn : ps.find k = none := Keyed.find_eq_none.mpr hk
    rw [contents, hn]
    exact ⟨rfl, fun _ h => by cases h⟩
  have hen := copying_foldl env ps.root ps [] hin hc
  exact ⟨funext fun k => (hen.visited k (by simp)).1, fun k => (hen.visited k (by simp)).2⟩

theorem pruneCopy_cache (hu : ps.Unique) : (pruneCopy env ps).1.contents = ps.contents ∧ (pruneCopy env ps).1.Unique ∧
      (ps.Clean → (pruneCopy env ps).1.Clean) ∧ SameHandle ps (pruneCopy env ps).1 := by
  obtain ⟨hc, hn, hcl, hh⟩ := foldl_pruneStep_cache env ps.root ps [] (listed_root hu)
  exact ⟨hc, hn hu, hcl, hh⟩

end OpenSync.Psfs
