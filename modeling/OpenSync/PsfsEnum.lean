import OpenSync.PsfsCursor

/-!
# Enumerating a PSFS store

An enumeration is a rewind and then calls of `psfs_next()`, with other calls between them. A key that has a value all the
time is returned once, and one that never has a value is not returned, as long as the cursor never gets to a deleted
record and the record at the cursor is not overwritten. Rewinding goes to the first record, deleted or not, and dropping
the record at the cursor goes to the next one, deleted or not.
-/

namespace OpenSync.Psfs
open List Function Keyed Record

/-- A step of an enumeration. -/
inductive Turn
  | next
  | call (op : Op)

def turn (cfg : Config) (w : World) : Turn → World
  | .next => { w with ps := (psfsNext w.ps).1 }
  | .call op => step cfg w op

def answer (w : World) : Turn → List (Option Key)
  | .next => [(psfsNext w.ps).2]
  | .call _ => []

@[grind =] def answers (cfg : Config) : World → List Turn → List (Option Key)
  | _, [] => []
  | w, t :: ts => answer w t ++ answers cfg (turn cfg w t) ts

/-- In all states from the first to the last one. -/
def Throughout (cfg : Config) (P : World → Prop) : World → List Turn → Prop
  | w, [] => P w
  | w, t :: ts => P w ∧ Throughout cfg P (turn cfg w t) ts

def rewound (w : World) : World := { w with ps := rewind w.ps }

inductive Reachable (cfg : Config) : World → Prop
  | loaded {fs : Fs} {name : Bytes} {read write : Bool} {fuel : ℕ} {w : World}
      (h : reopen fs name read write fuel = some w) : Reachable cfg w
  | again {fuel : ℕ} {w w' : World} (h : Reachable cfg w) (hload : load fuel w = some w') : Reachable cfg w'
  | turned {w : World} (h : Reachable cfg w) (t : Turn) : Reachable cfg (turn cfg w t)
  | rewound {w : World} (h : Reachable cfg w) : Reachable cfg (rewound w)

/-- The first record has data. -/
def FirstPresent (ps : Store) : Prop := ∀ pr ∈ ps.root.head?, pr.data ≠ []

/-- The record at the cursor is only changed to delete it, and then no deleted record follows. -/
def SetSafe (ps : Store) (key : Key) (value : Option Bytes) : Prop :=
  ps.write = true → ps.next = some key → ∀ old ∈ ps.find key, old.data ≠ value.getD [] →
    value.getD [] = [] ∧ ∀ c ∈ ps.keyAfter key, (ps.contents c).isSome = true

def TurnSafe (w : World) : Turn → Prop
  | .call (.set key value) => SetSafe w.ps key value
  | _ => True

def TurnsSafe (cfg : Config) : World → List Turn → Prop
  | _, [] => True
  | w, t :: ts => TurnSafe w t ∧ TurnsSafe cfg (turn cfg w t) ts

instance (ps : Store) : Decidable (FirstPresent ps) := inferInstanceAs (Decidable (∀ pr ∈ ps.root.head?, _))

instance (ps : Store) (key : Key) (value : Option Bytes) : Decidable (SetSafe ps key value) :=
  inferInstanceAs (Decidable (_ → _ → _))

instance (w : World) (t : Turn) : Decidable (TurnSafe w t) :=
  match t with
  | .call (.set key value) => inferInstanceAs (Decidable (SetSafe w.ps key value))
  | .call (.erase _) | .call (.sync ..) | .next => inferInstanceAs (Decidable True)

instance decidableTurnsSafe (cfg : Config) : (w : World) → (ts : List Turn) → Decidable (TurnsSafe cfg w ts)
  | _, [] => inferInstanceAs (Decidable True)
  | w, t :: ts =>
    have := decidableTurnsSafe cfg (turn cfg w t) ts
    inferInstanceAs (Decidable (_ ∧ _))

instance decidableThroughout (cfg : Config) (P : World → Prop) [DecidablePred P] :
    (w : World) → (ts : List Turn) → Decidable (Throughout cfg P w ts)
  | w, [] => inferInstanceAs (Decidable (P w))
  | w, t :: ts =>
    have := decidableThroughout cfg P (turn cfg w t) ts
    inferInstanceAs (Decidable (_ ∧ _))

variable {cfg : Config} {ps : Store} {w : World} {k c : Key}

/-- The states of a store that was opened, with calls in any order. -/
inductive Live (cfg : Config) : World → Prop
  | opened {fs : Fs} {name : Bytes} {read write : Bool} {w : World} (h : openStore fs name read write = some w) : Live cfg w
  | loaded {fuel : ℕ} {w w' : World} (h : Live cfg w) (hl : load fuel w = some w') : Live cfg w'
  | turned {w : World} (h : Live cfg w) (t : Turn) : Live cfg (turn cfg w t)
  | rewound {w : World} (h : Live cfg w) : Live cfg (rewound w)

theorem Reachable.live (h : Reachable cfg w) : Live cfg w := by
  induction h with
  | loaded h =>
    obtain ⟨w₀, ho, hl⟩ := Option.bind_eq_some_iff.mp h
    exact .loaded (.opened ho) hl
  | again _ hl ih => exact .loaded ih hl
  | turned _ t ih => exact .turned ih t
  | rewound _ ih => exact .rewound ih

theorem Live.keeps {P : Store → Prop} (hp : Preserved P) (h0 : ∀ ps : Store, ps.root = [] → ps.used = 0 → P ps)
    (h : Live cfg w) : P w.ps := by
  induction h with
  | @opened fs name read write w h =>
    rw [openStore] at h
    split at h
    · cases h
    split at h
    · cases h
      exact h0 _ rfl rfl
    split at h
    · cases h
      exact h0 _ rfl rfl
    · cases h
  | loaded _ hl ih =>
    obtain ⟨ps, hlo, rfl⟩ := Option.map_eq_some_iff.mp hl
    exact hp.moved (hp.loadLoop ih hlo) _ _
  | @turned w _ t ih =>
    cases t with
    | next =>
      rw [turn, psfsNext]
      split
      · exact ih
      · exact hp.moved ih _ _
    | call op =>
      cases op with
      | set key value => exact hp.set ih key value
      | erase ok =>
        rw [turn, step, erase]
        split
        · exact ih
        split
        · exact ih
        · exact hp.moved (hp.dropped _ ih (listed_root (hp.unique ih))) _ _
      | sync env forcePrune => exact hp.sync ih cfg env forcePrune
  | rewound _ ih => exact hp.moved ih _ _

theorem Reachable.sorted (h : Reachable cfg w) : w.ps.Sorted :=
  h.live.keeps sorted_preserved fun ps hr _ => by
    rw [Store.Sorted, hr]
    exact List.Pairwise.nil

/-! ## The map -/

/-- What a call means for the values of the keys, whatever becomes of the file. -/
def Op.meaning (m : Key → Option Bytes) : Op → Key → Option Bytes
  | .set key value => update m key (if value.getD [] = [] then none else value)
  | .erase ok => if ok then fun _ => none else m
  | .sync .. => m

def Means (ps : Store) (m : Key → Option Bytes) : Prop := ps.contents = m ∧ ps.write = true

theorem set_means (hw : ps.write = true) (key : Key) (value : Option Bytes) :
    Means (set ps key value).1 ((Op.set key value).meaning ps.contents) := by
  have hv : (if value.getD [] = [] then none else value) = (recordInit key (value.getD [])).value := by
    cases value <;> rfl
  rw [set, hw, Op.meaning, hv, Bool.not_true, if_neg Bool.false_ne_true]
  cases hf : ps.find key with
  | none =>
    dsimp only
    split_ifs with hd
    · refine ⟨(update_eq_self_iff.mpr ?_).symm, hw⟩
      rw [hd, Store.contents, hf]
      rfl
    · exact ⟨contents_addRecord .., hw⟩
  | some old =>
    dsimp only
    split_ifs with hd
    · refine ⟨(update_eq_self_iff.mpr ?_).symm, hw⟩
      rw [← hd, Store.contents, hf]
      rfl
    · refine ⟨?_, hw⟩
      rw [contents_addRecord, contents_dropRecord, key_of_find hf]
      exact update_idem ..

theorem erase_means (hw : w.ps.write = true) (ok : Bool) : Means (erase ok w).1.ps ((Op.erase ok).meaning w.ps.contents) := by
  rw [erase, hw, Bool.not_true, if_neg Bool.false_ne_true]
  cases ok with
  | false => exact ⟨rfl, hw⟩
  | true =>
    refine ⟨funext fun k => ?_, (foldl_dropRecord_frame w.ps.root w.ps).1.write.trans hw⟩
    change ((w.ps.root.foldl dropRecord w.ps).find k).bind Record.value = none
    rw [find_foldl_dropRecord]
    split_ifs with hk
    · rfl
    · exact congrArg (·.bind value) (find_eq_none.mpr fun pr hpr heq => hk ⟨pr, hpr, heq⟩)

theorem sync_means (hu : w.ps.Unique) (hw : w.ps.write = true) (env : SyncEnv) (forcePrune : Bool) :
    Means (sync cfg env forcePrune w).1.ps w.ps.contents := by
  have ha := appended_foldl env w.ps.root w.ps w.file (listed_root hu)
  obtain ⟨hc, -, -, hh⟩ := pruneCopy_cache env hu
  obtain ⟨ps', fd, heq, rfl | rfl | rfl⟩ := sync_effect cfg env forcePrune w <;> rw [heq]
  · exact ⟨rfl, hw⟩
  · exact ⟨ha.contents, ha.handle.write.trans hw⟩
  · exact ⟨hc, hh.write.trans hw⟩

/-- After any calls the keys have the values of a map that each call changes in turn. -/
theorem calls_refine_map (h : Reachable cfg w) (hw : w.ps.write = true) (ops : List Op) :
    (run cfg w ops).ps.contents = ops.foldl Op.meaning w.ps.contents := by
  induction ops generalizing w with
  | nil => rfl
  | cons op ops ih =>
    have hs : Means (step cfg w op).ps (op.meaning w.ps.contents) := by
      cases op with
      | set key value => exact set_means hw key value
      | erase ok => exact erase_means hw ok
      | sync env forcePrune => exact sync_means h.sorted.unique hw env forcePrune
    rw [foldl_cons, ← hs.1]
    exact ih (h.turned (.call op)) hs.2

/-! ## Where the cursor goes -/

theorem present_iff (hs : ps.Sorted) : ps.contents k ≠ none ↔ ∃ pr ∈ ps.root, pr.key = k ∧ pr.data ≠ [] := by
  rw [Store.contents]
  constructor
  · intro h
    cases hf : ps.find k with
    | none =>
      rw [hf] at h
      exact absurd rfl h
    | some pr =>
      rw [hf] at h
      refine ⟨pr, mem_of_find hf, key_of_find hf, fun hd => h ?_⟩
      simp [Record.value, hd]
  · rintro ⟨pr, hm, rfl, hd⟩
    rw [Store.find, find_of_mem hs.unique hm]
    simp [Record.value, hd]

theorem skipDeleted_eq (rs : List Record) : skipDeleted rs = (rs.find? fun pr => decide (pr.data ≠ [])).map Record.key := by
  induction rs with
  | nil => rfl
  | cons pr rs ih =>
    rw [skipDeleted, find?_cons]
    by_cases hd : pr.data = []
    · simp [hd, ih]
    · simp [hd]

variable {pr : Record} {p : Record → Bool}

theorem first_le (hs : ps.Sorted) (hpr : pr ∈ ps.root) (hp : p pr = true) :
    ∃ c ∈ (ps.root.find? p).map Record.key, c ≤ pr.key := by
  obtain ⟨first, hf⟩ := Option.isSome_iff_exists.mp (find?_isSome.mpr ⟨pr, hpr, hp⟩)
  exact ⟨first.key, by rw [hf]; rfl, hs.find?_le hf hpr hp⟩

theorem first_mem (h : c ∈ (ps.root.find? p).map Record.key) : ∃ pr ∈ ps.root, pr.key = c ∧ p pr = true := by
  obtain ⟨pr, hf, hk⟩ := Option.map_eq_some_iff.mp h
  exact ⟨pr, mem_of_find?_eq_some hf, hk, find?_some hf⟩

theorem exists_find (h : ps.contents c ≠ none) : ∃ pr, ps.find c = some pr := by
  cases hf : ps.find c with
  | none =>
    rw [Store.contents, hf] at h
    exact absurd rfl h
  | some pr => exact ⟨pr, rfl⟩

theorem strLt_key {a b : Key} : strLt a.1 b.1 = true ↔ a < b := strLt_iff a.1 b.1

theorem behind_eq (hs : ps.Sorted) (hf : ps.find c = some pr) :
    behind Record.key c ps.root = ps.root.filter fun r => strLt c.1 r.key.1 :=
  behind_eq_filter (fun _ _ => strLt_key) hs hf

theorem keyAfter_eq (hs : ps.Sorted) (hf : ps.find c = some pr) :
    ps.keyAfter c = (ps.root.find? fun r => strLt c.1 r.key.1).map Record.key := by
  rw [← head?_filter, ← behind_eq hs hf]
  rfl

theorem psfsNext_next (hs : ps.Sorted) (hn : ps.next = some c) (hc : ps.contents c ≠ none) :
    (psfsNext ps).1.next = (ps.root.find? fun r => decide (strLt c.1 r.key.1 = true ∧ r.data ≠ [])).map Record.key := by
  obtain ⟨pr, hf⟩ := exists_find hc
  rw [psfsNext, hn]
  dsimp only
  rw [skipDeleted_eq, behind_eq hs hf, find?_filter]
  simp

/-- The tree is sorted, and the cursor is at a record with data. -/
structure Cursor (ps : Store) : Prop where
  sorted : ps.Sorted
  present : ∀ c, ps.next = some c → ps.contents c ≠ none

/-- The cursor has not passed the key. -/
def Pending (ps : Store) (k : Key) : Prop := ∃ c, ps.next = some c ∧ c ≤ k

theorem Cursor.psfsNext (h : Cursor ps) : Cursor (Psfs.psfsNext ps).1 := by
  cases hn : ps.next with
  | none =>
    rw [Psfs.psfsNext, hn]
    exact h
  | some c =>
    have hf := psfsNext_next h.sorted hn (h.present c hn)
    have hs : (Psfs.psfsNext ps).1.contents = ps.contents ∧ (Psfs.psfsNext ps).1.root = ps.root := by
      rw [Psfs.psfsNext, hn]
      exact ⟨rfl, rfl⟩
    refine ⟨?_, fun c' hc' => ?_⟩
    · rw [Store.Sorted, hs.2]
      exact h.sorted
    · rw [hf] at hc'
      obtain ⟨pr, hpr, hk, hp⟩ := first_mem hc'
      rw [hs.1, present_iff h.sorted]
      exact ⟨pr, hpr, hk, (of_decide_eq_true hp).2⟩

theorem pending_psfsNext (h : Cursor ps) (hn : ps.next = some c) (hk : ps.contents k ≠ none) :
    Pending (psfsNext ps).1 k ↔ c < k := by
  have hf := psfsNext_next h.sorted hn (h.present c hn)
  rw [Pending, hf]
  constructor
  · rintro ⟨c', hc', hle⟩
    obtain ⟨pr, -, rfl, hp⟩ := first_mem hc'
    exact (strLt_key.mp (of_decide_eq_true hp).1).trans_le hle
  · intro hlt
    obtain ⟨pr, hpr, rfl, hd⟩ := (present_iff h.sorted).mp hk
    exact first_le h.sorted hpr (decide_eq_true ⟨strLt_key.mpr hlt, hd⟩)

/-! ## Calls between -/

/-- What a safe call does: no key with a value gets behind the cursor or in front of it. -/
structure Moved (ps ps' : Store) : Prop where
  cursor : Cursor ps'
  pending : ∀ k, ps.contents k ≠ none → ps'.contents k ≠ none → (Pending ps' k ↔ Pending ps k)

theorem Moved.of_next {ps' : Store} (h : Cursor ps) (hs : ps'.Sorted) (hn : ps'.next = ps.next)
    (hp : ∀ c, ps.next = some c → ps'.contents c = ps.contents c) : Moved ps ps' where
  cursor := ⟨hs, fun c hc => hp c (hn ▸ hc) ▸ h.present c (hn ▸ hc)⟩
  pending k _ _ := by rw [Pending, hn, Pending]

theorem Moved.refl (h : Cursor ps) : Moved ps ps := .of_next h h.sorted rfl fun _ _ => rfl

theorem moved_deleted {ps' : Store} (h : Cursor ps) (hs : ps'.Sorted) (hn : ps.next = some c)
    (hn' : ps'.next = ps.keyAfter c) (hco : ps'.contents = Function.update ps.contents c none)
    (hp : ∀ c' ∈ ps.keyAfter c, (ps.contents c').isSome = true) : Moved ps ps' := by
  obtain ⟨pr, hf⟩ := exists_find (h.present c hn)
  have ha := keyAfter_eq h.sorted hf
  have hlt : ∀ c' ∈ ps.keyAfter c, c < c' := fun c' hc' => by
    rw [ha] at hc'
    obtain ⟨r, -, rfl, hr⟩ := first_mem hc'
    exact strLt_key.mp hr
  constructor
  · refine ⟨hs, fun c' hc' => ?_⟩
    rw [hn'] at hc'
    rw [hco, update_of_ne (hlt c' hc').ne']
    exact Option.isSome_iff_ne_none.mp (hp c' hc')
  · intro k hk hk'
    have hne : k ≠ c := by
      rintro rfl
      rw [hco, update_self] at hk'
      exact hk' rfl
    rw [Pending, Pending, hn', hn]
    constructor
    · rintro ⟨c', hc', hle⟩
      exact ⟨c, rfl, (hlt c' hc').le.trans hle⟩
    · rintro ⟨_, hc, hle⟩
      cases hc
      obtain ⟨r, hr, rfl, -⟩ := (present_iff h.sorted).mp hk
      rw [ha]
      exact first_le h.sorted hr (strLt_key.mpr (lt_of_le_of_ne hle hne.symm))

theorem moved_set (h : Cursor ps) {key : Key} {value : Option Bytes} (hsa : SetSafe ps key value) :
    Moved ps (set ps key value).1 := by
  have hs := sorted_preserved.set h.sorted key value
  rcases set_effect ps key value with heq | ⟨hw, pr, hk, hd, ⟨hn, -, heq⟩ | ⟨old, hf, hne, heq⟩⟩
  · rw [heq]
    exact .refl h
  · rw [heq] at hs ⊢
    apply Moved.of_next h hs rfl
    intro c hc
    have hcn : c ≠ pr.key := by
      rintro rfl
      apply h.present _ hc
      rw [Store.contents, hk, hn]
      rfl
    rw [contents_addRecord, update_of_ne hcn]
  · have ho : old.key = key := key_of_find hf
    rw [heq] at hs ⊢
    by_cases hcu : ps.next = some key
    · obtain ⟨hem, hp⟩ := hsa hw hcu old hf (hd ▸ hne)
      apply moved_deleted h hs hcu _ _ hp
      · exact (if_pos (hcu.trans (congrArg some ho.symm))).trans (congrArg ps.keyAfter ho)
      · have hv : pr.value = none := if_pos (hd.trans hem)
        rw [contents_addRecord, contents_dropRecord, ho, hk, hv, update_idem]
    · apply Moved.of_next h hs
      · exact if_neg fun hnex => hcu (hnex.trans (congrArg some ho))
      · intro c hc
        have hcn : c ≠ key := fun heq => hcu (heq ▸ hc)
        rw [contents_addRecord, contents_dropRecord, ho, hk, update_of_ne hcn, update_of_ne hcn]

theorem next_dropRecord (hs : ps.Sorted) (hf : ps.find pr.key = some pr)
    (h : ∀ c, ps.next = some c → (ps.find c).isSome = true) :
    ∀ c, (dropRecord ps pr).next = some c → ((dropRecord ps pr).find c).isSome = true := by
  intro c hc
  rw [find_dropRecord]
  rw [dropRecord] at hc
  split at hc
  · rw [keyAfter_eq hs hf] at hc
    obtain ⟨r, hr, rfl, hlt⟩ := first_mem hc
    rw [if_neg (strLt_key.mp hlt).ne', Store.find, find_of_mem hs.unique hr]
    rfl
  · rename_i hne
    rw [if_neg fun heq : c = pr.key => hne (heq ▸ hc)]
    exact h c hc

theorem next_foldl_dropRecord (rs : List Record) (hs : ps.Sorted) (hl : Listed ps rs)
    (h : ∀ c, ps.next = some c → (ps.find c).isSome = true) :
    ∀ c, (rs.foldl dropRecord ps).next = some c → ((rs.foldl dropRecord ps).find c).isSome = true := by
  induction rs generalizing ps with
  | nil => exact h
  | cons pr rs ih =>
    have hf := hl.2 pr mem_cons_self
    exact ih (sorted_preserved.drop hs hf) hl.drop (next_dropRecord hs hf h)

theorem moved_erase (h : Cursor w.ps) (ok : Bool) : Moved w.ps (erase ok w).1.ps := by
  rw [erase]
  split
  · exact .refl h
  split
  · exact .refl h
  have hn : ∀ k, (w.ps.root.foldl dropRecord w.ps).find k = none := fun k => by
    rw [find_foldl_dropRecord]
    split_ifs with hk
    · rfl
    · exact find_eq_none.mpr fun pr hpr heq => hk ⟨pr, hpr, heq⟩
  have hl := listed_root h.sorted.unique
  have hne := next_foldl_dropRecord w.ps.root h.sorted hl fun c hc => by
    obtain ⟨pr, hf⟩ := exists_find (h.present c hc)
    rw [hf]
    rfl
  refine ⟨⟨sorted_preserved.dropped _ h.sorted hl, fun c hc => ?_⟩, fun k _ hk => absurd ?_ hk⟩
  · have hs := hne c hc
    rw [hn] at hs
    cases hs
  · change ((w.ps.root.foldl dropRecord w.ps).find k).bind Record.value = none
    rw [hn]
    rfl

theorem moved_sync (h : Cursor w.ps) (env : SyncEnv) (forcePrune : Bool) :
    Moved w.ps (sync cfg env forcePrune w).1.ps := by
  have hs := sorted_preserved.sync h.sorted cfg env forcePrune
  have hsa : (sync cfg env forcePrune w).1.ps.next = w.ps.next ∧
      (sync cfg env forcePrune w).1.ps.contents = w.ps.contents := by
    obtain ⟨ps', fd, heq, rfl | rfl | rfl⟩ := sync_effect cfg env forcePrune w
    · rw [heq]
      exact ⟨rfl, rfl⟩
    · rw [heq]
      exact ⟨foldl_appendStep_next env w.ps.root (true, w.ps, w.file),
        (appended_foldl env w.ps.root w.ps w.file (listed_root h.sorted.unique)).contents⟩
    · rw [heq]
      refine ⟨foldl_pruneStep_next env w.ps.root (w.ps, []) fun pr hpr hd hn => ?_,
        (pruneCopy_cache env h.sorted.unique).1⟩
      apply h.present _ hn
      rw [Store.contents, Store.find, find_of_mem h.sorted.unique hpr]
      exact if_pos hd
  exact .of_next h hs hsa.1 fun c _ => congrFun hsa.2 c

theorem moved_step (h : Cursor w.ps) {op : Op} (hs : TurnSafe w (.call op)) : Moved w.ps (step cfg w op).ps := by
  cases op with
  | set key value => exact moved_set h hs
  | erase ok => exact moved_erase h ok
  | sync env forcePrune => exact moved_sync h env forcePrune

/-! ## Runs -/

variable {ts : List Turn}

theorem Cursor.turn (cfg : Config) (h : Cursor w.ps) {t : Turn} (hs : TurnSafe w t) : Cursor (Psfs.turn cfg w t).ps := by
  cases t with
  | next => exact h.psfsNext
  | call op => exact (moved_step h hs).cursor

theorem turn_none (hn : w.ps.next = none) : turn cfg w .next = w := by
  rw [turn, psfsNext, hn]

theorem answer_none (hn : w.ps.next = none) : answer w .next = [none] := by
  rw [answer, psfsNext, hn]

theorem answer_some (hn : w.ps.next = some c) : answer w .next = [some c] := by
  rw [answer, psfsNext, hn]

theorem Throughout.first {P : World → Prop} (h : Throughout cfg P w ts) : P w := by
  cases ts with
  | nil => exact h
  | cons t ts => exact h.1

theorem absent_not_returned (h : Cursor w.ps) (hs : TurnsSafe cfg w ts)
    (ha : Throughout cfg (fun w => w.ps.contents k = none) w ts) : some k ∉ answers cfg w ts := by
  induction ts generalizing w with
  | nil => exact not_mem_nil
  | cons t ts ih =>
    have hr := ih (h.turn cfg hs.1) hs.2 ha.2
    rw [answers, mem_append, not_or]
    refine ⟨?_, hr⟩
    cases t with
    | call op => exact not_mem_nil
    | next =>
      cases hn : w.ps.next with
      | none => simp [answer_none hn]
      | some c =>
        rw [answer_some hn, mem_singleton]
        intro heq
        cases heq
        exact h.present k hn ha.1

theorem passed_not_returned (h : Cursor w.ps) (hs : TurnsSafe cfg w ts)
    (hpr : Throughout cfg (fun w => w.ps.contents k ≠ none) w ts) (hpe : ¬ Pending w.ps k) :
    some k ∉ answers cfg w ts := by
  induction ts generalizing w with
  | nil => exact not_mem_nil
  | cons t ts ih =>
    have hr := ih (h.turn cfg hs.1) hs.2 hpr.2
    rw [answers, mem_append, not_or]
    cases t with
    | call op =>
      refine ⟨not_mem_nil, hr fun hp => hpe ?_⟩
      exact ((moved_step h hs.1).pending k hpr.1 hpr.2.first).mp hp
    | next =>
      cases hn : w.ps.next with
      | none =>
        rw [turn_none hn] at hr ⊢
        rw [answer_none hn]
        exact ⟨by simp, hr hpe⟩
      | some c =>
        have hlt : k < c := not_le.mp fun hle => hpe ⟨c, hn, hle⟩
        rw [answer_some hn, mem_singleton]
        refine ⟨fun heq => hlt.ne (Option.some.inj heq), hr fun hp => ?_⟩
        exact ((pending_psfsNext h hn hpr.1).mp hp).not_gt hlt

theorem pending_returned_once (h : Cursor w.ps) (hs : TurnsSafe cfg w ts)
    (hpr : Throughout cfg (fun w => w.ps.contents k ≠ none) w ts) (hpe : Pending w.ps k)
    (hen : none ∈ answers cfg w ts) : (answers cfg w ts).count (some k) = 1 := by
  induction ts generalizing w with
  | nil => cases hen
  | cons t ts ih =>
    have hc := h.turn cfg hs.1
    rw [answers, count_append]
    rw [answers, mem_append] at hen
    cases t with
    | call op =>
      have hm := (moved_step h hs.1).pending k hpr.1 hpr.2.first
      rw [show answer w (.call op) = [] from rfl, count_nil, Nat.zero_add]
      exact ih hc hs.2 hpr.2 (hm.mpr hpe) (hen.resolve_left not_mem_nil)
    | next =>
      obtain ⟨c, hn, hle⟩ := hpe
      have hm := pending_psfsNext h hn hpr.1
      rw [answer_some hn] at hen ⊢
      by_cases heq : c = k
      · have hr := passed_not_returned hc hs.2 hpr.2 fun hp => (hm.mp hp).ne heq
        rw [heq, count_singleton_self, count_eq_zero.mpr hr]
      · have ho : count (some k) [some c] = 0 := by simp [heq]
        rw [ho, Nat.zero_add]
        exact ih hc hs.2 hpr.2 (hm.mpr (lt_of_le_of_ne hle heq)) (hen.resolve_left (by simp))

/-! ## Only `psfs_next()` -/

def presentRecords (ps : Store) : List Record := ps.root.filter fun pr => decide (pr.data ≠ [])

theorem sorted_presentRecords (hs : ps.Sorted) : Sorted Record.key (presentRecords ps) := Sorted.filter hs _

theorem mem_presentRecords (hs : ps.Sorted) : k ∈ (presentRecords ps).map Record.key ↔ ps.contents k ≠ none := by
  rw [present_iff hs, mem_map]
  constructor
  · rintro ⟨pr, hpr, hk⟩
    obtain ⟨hm, hd⟩ := mem_filter.mp hpr
    exact ⟨pr, hm, hk, of_decide_eq_true hd⟩
  · rintro ⟨pr, hm, hk, hd⟩
    exact ⟨pr, mem_filter.mpr ⟨hm, decide_eq_true hd⟩, hk⟩

theorem find?_behind {l l' : List Record} (h : Sorted Record.key (l' ++ pr :: l)) :
    (l' ++ pr :: l).find? (fun r => strLt pr.key.1 r.key.1) = l.head? := by
  obtain ⟨-, hl, hb⟩ := pairwise_append.mp h
  have hs : l'.find? (fun r => strLt pr.key.1 r.key.1) = none := by
    rw [find?_eq_none]
    intro r hr hlt
    exact (strLt_key.mp hlt).not_gt (hb r hr pr mem_cons_self)
  have hse : strLt pr.key.1 pr.key.1 = false := strLt_irrefl _
  rw [find?_append, hs, Option.none_or, find?_cons, hse]
  cases l with
  | nil => rfl
  | cons r l =>
    have hr : strLt pr.key.1 r.key.1 = true := strLt_key.mpr ((pairwise_cons.mp hl).1 r mem_cons_self)
    dsimp only
    rw [find?_cons, hr]
    rfl

theorem answers_replicate {l : List Record} (l' : List Record) (h : Cursor w.ps) (hl : presentRecords w.ps = l' ++ l)
    (hn : w.ps.next = l.head?.map Record.key) (n : ℕ) :
    answers cfg w (List.replicate (l.length + n) .next) = l.map (fun pr => some pr.key) ++ List.replicate n none := by
  induction l generalizing w l' with
  | nil =>
    rw [length_nil, Nat.zero_add, map_nil, nil_append]
    induction n with
    | zero => rfl
    | succ n ih =>
      rw [replicate_succ, answers, turn_none hn, answer_none hn, ih, replicate_succ]
      rfl
  | cons pr l ih =>
    have hc : w.ps.next = some pr.key := hn
    have hm : (psfsNext w.ps).1.next = l.head?.map key := by
      have hf : (w.ps.root.find? fun r => decide (strLt pr.key.1 r.key.1 = true ∧ r.data ≠ [])) =
          (presentRecords w.ps).find? fun r => strLt pr.key.1 r.key.1 := by
        rw [presentRecords, find?_filter]
        simp [and_comm, decide_eq_true_iff]
      rw [psfsNext_next h.sorted hc (h.present _ hc), hf, hl, find?_behind (hl ▸ sorted_presentRecords h.sorted)]
    have hr : presentRecords (psfsNext w.ps).1 = l' ++ [pr] ++ l := by
      rw [append_assoc, singleton_append, ← hl, psfsNext, hc]
      rfl
    rw [length_cons, Nat.add_right_comm, replicate_succ, answers, answer_some hc,
      show turn cfg w .next = { w with ps := (psfsNext w.ps).1 } from rfl, ih (l' ++ [pr]) h.psfsNext hr hm]
    rfl

/-! ## Enumerations -/

theorem cursor_rewind (hs : ps.Sorted) (hf : FirstPresent ps) :
    Cursor (rewind ps) ∧ (rewind ps).next = (presentRecords (rewind ps)).head?.map Record.key := by
  have hh : (presentRecords ps).head? = ps.root.head? := by
    rw [presentRecords]
    cases hr : ps.root with
    | nil => rfl
    | cons pr prs =>
      have hd : pr.data ≠ [] := hf pr (by rw [hr]; rfl)
      rw [filter_cons_of_pos (by simpa using hd)]
      rfl
  have hs' : (rewind ps).Sorted := hs
  refine ⟨⟨hs', fun c hc => ?_⟩, congrArg (Option.map key) hh.symm⟩
  obtain ⟨pr, hpr, hk⟩ := Option.map_eq_some_iff.mp hc
  exact (present_iff hs').mpr ⟨pr, mem_of_mem_head? hpr, hk, hf pr hpr⟩

theorem answers_deleted (hs : ps.Sorted) (hf : ¬ FirstPresent ps) :
    ∃ k, ps.contents k = none ∧ (rewind ps).next = some k := by
  rw [FirstPresent] at hf
  push Not at hf
  obtain ⟨pr, hpr, hd⟩ := hf
  refine ⟨pr.key, ?_, congrArg (Option.map key) hpr⟩
  rw [Store.contents, Store.find, find_of_mem hs.unique (mem_of_mem_head? hpr)]
  exact if_pos hd

/-- After a rewind, `psfs_next()` returns the keys with values in order and then nothing, if and only if the first record
has data. With safe calls between, what has a value all the time is returned once before the end, and what never has one
is not returned. -/
theorem enumeration_returns_present (h : Reachable cfg w) :
    ((∃ keys : List Key, keys.Pairwise (fun a b => strLt a.1 b.1 = true) ∧ (∀ k, k ∈ keys ↔ w.ps.contents k ≠ none) ∧
        ∀ n, answers cfg (rewound w) (List.replicate (keys.length + n) .next) =
          keys.map some ++ List.replicate n none) ↔ FirstPresent w.ps) ∧
      (w.ps.read = true → ∀ k size, 0 < (get w.ps k size).1 ↔ w.ps.contents k ≠ none) ∧
      (FirstPresent w.ps → ∀ ts, TurnsSafe cfg (rewound w) ts → ∀ k,
        (Throughout cfg (fun w => w.ps.contents k ≠ none) (rewound w) ts → none ∈ answers cfg (rewound w) ts →
          (answers cfg (rewound w) ts).count (some k) = 1) ∧
        (Throughout cfg (fun w => w.ps.contents k = none) (rewound w) ts → some k ∉ answers cfg (rewound w) ts)) := by
  have hs := h.sorted
  refine ⟨⟨fun hke => ?_, fun hf => ?_⟩, fun hr k size => ?_, fun hf ts hsa k => ?_⟩
  · by_contra hf
    obtain ⟨keys, -, hm, ha⟩ := hke
    obtain ⟨k, hab, hn⟩ := answers_deleted hs hf
    have ho := ha 1
    have hn' : (rewound w).ps.next = some k := hn
    rw [replicate_succ, answers, answer_some hn'] at ho
    -- the first answer is the first key, which has a value
    cases keys with
    | nil => cases ho
    | cons k' keys =>
      have heq : some k = some k' := (cons.inj ho).1
      cases heq
      exact (hm k).mp mem_cons_self hab
  · obtain ⟨hcu, hn⟩ := cursor_rewind hs hf
    refine ⟨(presentRecords w.ps).map key, ?_, fun k => mem_presentRecords hs, fun n => ?_⟩
    · exact pairwise_map.mpr ((sorted_presentRecords hs).imp strLt_key.mpr)
    · rw [length_map, map_map]
      exact answers_replicate [] hcu rfl hn n
  · rw [get_eq, if_pos hr]
    cases hk : w.ps.contents k with
    | none => simp
    | some data =>
      have hd : data ≠ [] := by
        obtain ⟨pr, -, hv⟩ := Option.bind_eq_some_iff.mp hk
        rw [Record.value] at hv
        split at hv
        · cases hv
        · rename_i hne
          exact Option.some.inj hv ▸ hne
      simp [length_pos_iff, hd]
  · obtain ⟨hcu, hn⟩ := cursor_rewind hs hf
    refine ⟨fun hp hen => ?_, absent_not_returned hcu hsa⟩
    apply pending_returned_once hcu hsa hp _ hen
    obtain ⟨pr, hpr, rfl, hd⟩ := (present_iff hs).mp hp.first
    obtain ⟨c, hc, hle⟩ := first_le (p := fun _ => true) hs hpr rfl
    have hh : w.ps.root.find? (fun _ => true) = w.ps.root.head? := by cases w.ps.root <;> rfl
    rw [hh] at hc
    exact ⟨c, hc, hle⟩

def firstKey : Key := ⟨[0x61], by decide⟩

def secondKey : Key := ⟨[0x62], by decide⟩

def twoKeys : World := run defaultConfig sampleWorld [.set firstKey (some [1]), .set secondKey (some [1])]

theorem twoKeys_reachable : Reachable defaultConfig twoKeys :=
  have hl : reopen emptyFs [0x73] true true 1 = some sampleWorld := rfl
  .turned (.turned (.loaded hl) (.call (.set firstKey (some [1])))) (.call (.set secondKey (some [1])))

theorem twoKeys_deleted : (run defaultConfig twoKeys [.set firstKey none, .sync .ok true]).ps.contents =
    update twoKeys.ps.contents firstKey none :=
  calls_refine_map twoKeys_reachable rfl _

theorem twoKeys_enumerated :
    (answers defaultConfig (rewound twoKeys) [.next, .call (.set firstKey none), .next, .next]).count (some secondKey) =
      1 := by
  have hr := (enumeration_returns_present twoKeys_reachable).2.2 (by decide +kernel)
  exact (hr _ (by decide +kernel) secondKey).1 (by decide +kernel) (by decide +kernel)

def firstDeleted : World := step defaultConfig twoKeys (.set firstKey none)

/-- A deleted key is returned, and one that is overwritten at the cursor is not. -/
theorem deleted_key_returned : (Reachable defaultConfig firstDeleted ∧ firstDeleted.ps.contents firstKey = none ∧
      answers defaultConfig (rewound firstDeleted) [.next, .next, .next] = [some firstKey, some secondKey, none]) ∧
    Reachable defaultConfig twoKeys ∧
      Throughout defaultConfig (fun w => w.ps.contents firstKey ≠ none) (rewound twoKeys)
        [.call (.set firstKey (some [2])), .next, .next] ∧
      answers defaultConfig (rewound twoKeys) [.call (.set firstKey (some [2])), .next, .next] =
        [some secondKey, none] :=
  ⟨⟨.turned twoKeys_reachable (.call (.set firstKey none)), by decide +kernel, by decide +kernel⟩, twoKeys_reachable,
    by decide +kernel, by decide +kernel⟩

end OpenSync.Psfs
