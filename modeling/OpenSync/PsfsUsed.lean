import OpenSync.PsfsEnum

/-!
# The space a PSFS store uses

The counter that the prune decision compares with the size of the file is the sum of the sizes of the cached records,
deleted ones among them: a record counts from its insertion until it is dropped, and writing it does not change its size.
-/

namespace OpenSync.Psfs
open List Keyed Record

structure Accounted (ps : Store) : Prop where
  unique : ps.Unique
  used : ps.used = (ps.root.map Record.used).sum

variable {ps : Store} {pr : Record}

theorem Accounted.sum_cons_drop (h : Accounted ps) (hf : ps.find pr.key = some pr) :
    ps.used = pr.used + ((Keyed.drop key pr.key ps.root).map Record.used).sum := by
  rw [h.used, ((perm_cons_drop h.unique hf).map Record.used).sum_eq]
  rfl

theorem accounted_preserved : Preserved Accounted where
  unique h := h.unique
  moved h _ _ := ⟨h.unique, h.used⟩
  add {ps pr} h hn := by
    refine ⟨h.unique.insert _ hn, ?_⟩
    have hp : (addRecord ps pr).root.Perm (pr :: ps.root) := insert_perm _ pr ps.root
    rw [(hp.map Record.used).sum_eq, map_cons, sum_cons, ← h.used]
    exact add_comm ..
  drop {ps pr} h hf := by
    refine ⟨h.unique.drop _, ?_⟩
    rw [dropRecord, h.sum_cons_drop hf]
    exact add_sub_cancel_left ..
  replace {ps pr pr'} h hf hs := by
    refine ⟨h.unique.replace _, ?_⟩
    rw [← hs.1] at hf
    have hp := ((replace_perm h.unique hf).map Record.used).sum_eq
    rw [Store.replace, hp, map_cons, sum_cons, hs.1, hs.2]
    exact h.sum_cons_drop (hs.1 ▸ hf)

/-- After any calls the counter is the sum of the sizes of the cached records. -/
theorem used_eq_sum {cfg : Config} {w : World} (h : Live cfg w) : w.ps.used = (w.ps.root.map Record.used).sum := by
  have ha : Accounted w.ps := h.keeps accounted_preserved fun ps hr hu => by
    refine ⟨?_, by rw [hu, hr]; rfl⟩
    rw [Store.Unique, hr]
    exact nodup_nil
  exact ha.used

theorem used_firstDeleted : firstDeleted.ps.used = (firstDeleted.ps.root.map Record.used).sum :=
  used_eq_sum (.turned twoKeys_reachable.live (.call (.set firstKey none)))

end OpenSync.Psfs
