import OpenSync.BmTable

/-!
# Filling and compacting an interface table

Filling a table sets one entry after another, and each of them is wanted in the end. What was set before is never spoilt,
because the wanted entries have different names, and the table never gets too long. Compaction keeps the entries with the
name it is asked to remove, and drops the others.
-/

namespace OpenSync.BmTable
open List Keyed

open Keyed (Unique)

/-! ## Wanted entries -/

def Group.entries (g : Group) : List Ifcfg := g.ifcfg.map (·.entry g.uuid)

def entries (groups : List Group) : List Ifcfg := groups.flatMap Group.entries

theorem Group.entries_subset {groups : List Group} {g : Group} (hg : g ∈ groups) : g.entries ⊆ BmTable.entries groups :=
  fun _ he => mem_flatMap.mpr ⟨g, hg, he⟩

/-! ## Setting an entry -/

variable {t : List Ifcfg} {e : Ifcfg}

theorem setFirst_eq_none (h : ∀ c ∈ t, c.ifname ≠ e.ifname) : setFirst e t = none := by
  induction t with
  | nil => rfl
  | cons c t ih =>
    rw [setFirst, if_neg (h c mem_cons_self), ih (forall_mem_cons.mp h).2]
    rfl

theorem setFirst_eq_some {e c : Ifcfg} (hu : Unique Ifcfg.ifname t) (hc : c ∈ t)
    (hn : c.ifname = e.ifname) : setFirst e t = some (Keyed.replace Ifcfg.ifname e t) := by
  induction t with
  | nil => exact absurd hc not_mem_nil
  | cons c' t ih =>
    obtain ⟨hc', hu⟩ := nodup_cons.mp hu
    by_cases he : c'.ifname = e.ifname
    · have hr : t.map (fun b => if b.ifname = e.ifname then e else b) = t := by
        refine (map_congr_left fun b hb => if_neg fun hbe => ?_).trans (map_id t)
        exact hc' (mem_map.mpr ⟨b, hb, hbe.trans he.symm⟩)
      rw [setFirst, if_pos he, Keyed.replace, map_cons, if_pos he, hr]
    · have hct : c ∈ t := (mem_cons.mp hc).resolve_left fun h => he (h ▸ hn)
      rw [setFirst, if_neg he, ih hu hct]
      simp [Keyed.replace, he]

/-- The names of a table are different, and they are names of wanted entries. -/
structure Fits (E t : List Ifcfg) : Prop where
  unique : Unique Ifcfg.ifname t
  names : t.map Ifcfg.ifname ⊆ E.map Ifcfg.ifname

/-- From `c` to `c'` the entries of `done` were set and `g` is the group; nothing that is wanted got lost. -/
structure Moves (E done : List Ifcfg) (g : Option Text) (c c' : Client) : Prop where
  fits : Fits E c'.ifcfg
  mac : c'.mac = c.mac
  group : c'.group = g
  kept : ∀ e ∈ c.ifcfg, e ∈ E → e ∈ c'.ifcfg
  added : done ⊆ c'.ifcfg
  known : ∀ x ∈ c'.ifcfg, x ∈ E ∨ x ∈ c.ifcfg ∧ ∀ e ∈ done, e.ifname ≠ x.ifname

variable {E : List Ifcfg} {c : Client}

theorem Moves.refl (h : Fits E c.ifcfg) : Moves E [] c.group c c where
  fits := h
  mac := rfl
  group := rfl
  kept _ he _ := he
  added := nil_subset _
  known _ hx := .inr ⟨hx, fun _ he => absurd he not_mem_nil⟩

theorem Moves.trans {done done' : List Ifcfg} {g g' : Option Text} {c c' c'' : Client} (h : Moves E done g c c')
    (h' : Moves E done' g' c' c'') (hd : done ⊆ E) : Moves E (done ++ done') g' c c'' where
  fits := h'.fits
  mac := h'.mac.trans h.mac
  group := h'.group
  kept e he hE := h'.kept e (h.kept e he hE) hE
  added := append_subset.mpr ⟨fun e he => h'.kept e (h.added he) (hd he), h'.added⟩
  known x hx := by
    rcases h'.known x hx with hE | ⟨hx', hne'⟩
    · exact .inl hE
    · rcases h.known x hx' with hE | ⟨hx'', hne⟩
      · exact .inl hE
      · exact .inr ⟨hx'', fun e he => (mem_append.mp he).elim (hne e) (hne' e)⟩

theorem Moves.forget {done : List Ifcfg} {g : Option Text} {c c' : Client} (h : Moves E done g c c') :
    Moves E [] g c c' where
  fits := h.fits
  mac := h.mac
  group := h.group
  kept := h.kept
  added := nil_subset _
  known x hx := (h.known x hx).imp_right fun hc => ⟨hc.1, fun _ he => absurd he not_mem_nil⟩

theorem Moves.perm {done : List Ifcfg} {g : Option Text} {c c' : Client} (h : Moves E done g c c')
    (hE : Unique Ifcfg.ifname E) (ha : ∀ e ∈ E, e ∈ done ∨ e ∈ c.ifcfg)
    (ho : ∀ x ∈ c.ifcfg, x ∈ E ∨ ∃ e ∈ done, e.ifname = x.ifname) : c'.ifcfg.Perm E := by
  refine (perm_ext_iff_of_nodup (Nodup.of_map _ h.fits.unique) (Nodup.of_map _ hE)).mpr fun x => ?_
  constructor
  · intro hx
    rcases h.known x hx with hE | ⟨hc, hne⟩
    · exact hE
    · rcases ho x hc with hE | ⟨e, he, hn⟩
      · exact hE
      · exact absurd hn (hne e he)
  · intro hx
    exact (ha x hx).elim (fun hd => h.added hd) (fun hc => h.kept x hc hx)

theorem Fits.length_lt (h : Fits E t) (he : e ∈ E) (hn : ∀ c ∈ t, c.ifname ≠ e.ifname) : t.length < E.length := by
  have hno : (e.ifname :: t.map Ifcfg.ifname).Nodup := by
    refine nodup_cons.mpr ⟨fun hm => ?_, h.unique⟩
    obtain ⟨c, hc, hce⟩ := mem_map.mp hm
    exact hn c hc hce
  have hs : e.ifname :: t.map Ifcfg.ifname ⊆ E.map Ifcfg.ifname := cons_subset.mpr ⟨mem_map_of_mem he, h.names⟩
  simpa using (subperm_of_subset hno hs).length_le

theorem mem_replace_of_ne {e x : Ifcfg} (hx : x ∈ t) (hn : x.ifname ≠ e.ifname) : x ∈ replace Ifcfg.ifname e t :=
  mem_map.mpr ⟨x, hx, if_neg hn⟩

theorem mem_replace_self {e c : Ifcfg} (hc : c ∈ t) (hn : c.ifname = e.ifname) : e ∈ replace Ifcfg.ifname e t :=
  mem_map.mpr ⟨c, hc, if_pos hn⟩

theorem set_moves (hE : Unique Ifcfg.ifname E) (hmax : E.length ≤ bmClientIfcfgMax) (hf : Fits E c.ifcfg)
    (he : e ∈ E) : ∃ c', bmClientIfcfgSet c e = (true, c') ∧ Moves E [e] c.group c c' := by
  by_cases hex : ∃ b ∈ c.ifcfg, b.ifname = e.ifname
  · obtain ⟨b, hb, hbe⟩ := hex
    refine ⟨{ c with ifcfg := replace Ifcfg.ifname e c.ifcfg }, ?_, ?_⟩
    · rw [bmClientIfcfgSet, setFirst_eq_some hf.unique hb hbe]
    · refine ⟨⟨hf.unique.replace e, ?_⟩, rfl, rfl, ?_, ?_, ?_⟩
      · rw [map_key_replace]
        exact hf.names
      · intro x hx hxE
        by_cases hn : x.ifname = e.ifname
        · rw [inj_on_of_nodup_map hE hxE he hn]
          exact mem_replace_self hb hbe
        · exact mem_replace_of_ne hx hn
      · exact cons_subset.mpr ⟨mem_replace_self hb hbe, nil_subset _⟩
      · intro x hx
        rcases mem_replace hx with rfl | ⟨hx, hn⟩
        · exact .inl he
        · exact .inr ⟨hx, fun e' he' => mem_singleton.mp he' ▸ hn.symm⟩
  · have hne : ∀ b ∈ c.ifcfg, b.ifname ≠ e.ifname := fun b hb hbe => hex ⟨b, hb, hbe⟩
    have hlt : ¬ bmClientIfcfgMax ≤ c.ifcfg.length := Nat.not_le.mpr (Nat.lt_of_lt_of_le (hf.length_lt he hne) hmax)
    have ha : ¬ c.ifcfg.any (·.ifname == e.ifname) = true := by simpa using hne
    refine ⟨{ c with ifcfg := c.ifcfg ++ [e] }, ?_, ?_⟩
    · rw [bmClientIfcfgSet, setFirst_eq_none hne]
      simp only [bmClientIfcfgAdd]
      rw [if_neg hlt, if_neg ha]
    · refine ⟨⟨?_, ?_⟩, rfl, rfl, ?_, ?_, ?_⟩
      · refine (perm_append_singleton e c.ifcfg |>.map Ifcfg.ifname).nodup_iff.mpr (nodup_cons.mpr ⟨?_, hf.unique⟩)
        intro hm
        obtain ⟨b, hb, hbe⟩ := mem_map.mp hm
        exact hne b hb hbe
      · rw [map_append]
        exact append_subset.mpr ⟨hf.names, cons_subset.mpr ⟨mem_map_of_mem he, nil_subset _⟩⟩
      · exact fun x hx _ => mem_append_left _ hx
      · exact fun x hx => mem_append_right _ hx
      · intro x hx
        rcases mem_append.mp hx with hx | hx
        · exact .inr ⟨hx, fun e' he' => mem_singleton.mp he' ▸ (hne x hx).symm⟩
        · exact .inl (mem_singleton.mp hx ▸ he)

/-! ## Filling a table -/

theorem forIfaces_moves (body : Ifconfig → Client → Bool × Client) (next : Ifconfig → Option Text → Option Text)
    {uuid : Text} {mac : Mac} {l : List Ifconfig} (hl : ∀ i ∈ l, i.entry uuid ∈ E)
    (hb : ∀ i ∈ l, ∀ c : Client, Fits E c.ifcfg → c.mac = mac →
      ∃ c', body i c = (true, c') ∧ Moves E [i.entry uuid] (next i c.group) c c')
    (hf : Fits E c.ifcfg) (hm : c.mac = mac) :
    ∃ c', forIfaces body l c = (true, c') ∧
      Moves E (l.map (·.entry uuid)) (l.foldl (fun g i => next i g) c.group) c c' := by
  induction l generalizing c with
  | nil => exact ⟨c, rfl, Moves.refl hf⟩
  | cons i l ih =>
    obtain ⟨c₁, h₁, hmove₁⟩ := hb i mem_cons_self c hf hm
    obtain ⟨c₂, h₂, hmove₂⟩ := ih (forall_mem_cons.mp hl).2 (forall_mem_cons.mp hb).2 hmove₁.fits (hmove₁.mac.trans hm)
    refine ⟨c₂, ?_, ?_⟩
    · rw [forIfaces, h₁]
      exact h₂
    · rw [foldl_cons, ← hmove₁.group]
      exact hmove₁.trans hmove₂ (cons_subset.mpr ⟨hl i mem_cons_self, nil_subset _⟩)

section
variable {d : Driver} (hd : d.failing = []) (hE : Unique Ifcfg.ifname E) (hmax : E.length ≤ bmClientIfcfgMax)
include hd hE hmax

variable {c : Client}

theorem updateGroup_moves (hf : Fits E c.ifcfg) {g : Group} (hg : g.entries ⊆ E) :
    Moves E g.entries c.group c (bmClientUpdateGroup d c g).2 := by
  have hs : ∀ i ∈ g.ifcfg, ∀ b : Client, Fits E b.ifcfg → b.mac = c.mac →
      ∃ b', updateIface d g i b = (true, b') ∧ Moves E [i.entry g.uuid] b.group b b' := by
    intro i hi b hf _
    rw [updateIface, if_pos (by simp [Driver.ok, hd])]
    exact set_moves hE hmax hf (hg (mem_map_of_mem hi))
  obtain ⟨c', he, hm⟩ := forIfaces_moves (updateIface d g) (fun _ g => g) (fun i hi => hg (mem_map_of_mem hi)) hs hf rfl
  rw [foldl_fixed] at hm
  rw [bmClientUpdateGroup, he]
  exact hm

variable {groups : List Group}

theorem updateAllGroups_moves (hg : entries groups ⊆ E) (hf : Fits E c.ifcfg) :
    Moves E (entries groups) c.group c (bmClientUpdateAllGroups d groups c) := by
  induction groups generalizing c with
  | nil => exact Moves.refl hf
  | cons g groups ih =>
    obtain ⟨hgE, hr⟩ := append_subset.mp hg
    have hm := updateGroup_moves hd hE hmax hf hgE
    have hmo := ih hr hm.fits
    rw [hm.group] at hmo
    exact hm.trans hmo hgE

theorem checkConnected_moves (hg : entries groups ⊆ E) (hf : Fits E c.ifcfg) (uuid ifname : Text) :
    Moves E [] (if d.connected.contains (ifname, c.mac) then some uuid else c.group) c
      (bmClientCheckConnected d groups c uuid ifname) := by
  unfold bmClientCheckConnected
  split
  · have hm : Moves E [] (some uuid) c { c with group := some uuid } := { Moves.refl hf with group := rfl }
    dsimp only
    split
    · exact hm.trans (updateAllGroups_moves hd hE hmax hg (c := { c with group := some uuid }) hf).forget (nil_subset _)
    · exact hm
  · exact Moves.refl hf

theorem addToGroup_moves (hgs : entries groups ⊆ E) (hf : Fits E c.ifcfg) {g : Group} (hg : g.entries ⊆ E) :
    Moves E g.entries
      (g.ifcfg.foldl (fun h i => if d.connected.contains (i.ifname, c.mac) then some g.uuid else h) c.group) c
      (bmClientAddToGroup d groups c g).2 := by
  have ha : ∀ i ∈ g.ifcfg, ∀ b : Client, Fits E b.ifcfg → b.mac = c.mac →
      ∃ b', addIface d groups g i b = (true, b') ∧ Moves E [i.entry g.uuid]
        (if d.connected.contains (i.ifname, c.mac) then some g.uuid else b.group) b b' := by
    intro i hi b hfb hm
    have hiE : i.entry g.uuid ∈ E := hg (mem_map_of_mem hi)
    obtain ⟨b₁, hb₁, hmove₁⟩ := set_moves hE hmax hfb hiE
    have hmove₂ := checkConnected_moves hd hE hmax hgs hmove₁.fits g.uuid i.ifname
    rw [hmove₁.mac, hm, hmove₁.group] at hmove₂
    refine ⟨bmClientCheckConnected d groups b₁ g.uuid i.ifname, ?_, ?_⟩
    · rw [addIface, if_pos (by simp [Driver.ok, hd]), hb₁]
    · exact hmove₁.trans hmove₂ (cons_subset.mpr ⟨hiE, nil_subset _⟩)
  obtain ⟨c', he, hmo⟩ := forIfaces_moves (addIface d groups g)
    (fun i h => if d.connected.contains (i.ifname, c.mac) then some g.uuid else h)
    (fun i hi => hg (mem_map_of_mem hi)) ha hf rfl
  rw [bmClientAddToGroup, he]
  exact hmo

end

/-- The last of the groups through which the driver finds the client connected. -/
def foundIn (d : Driver) (mac : Mac) : List Group → Option Text → Option Text
  | [], found => found
  | g :: groups, found =>
    foundIn d mac groups (if g.ifcfg.any fun i => d.connected.contains (i.ifname, mac) then some g.uuid else found)

theorem foldl_connected (p : Ifconfig → Bool) (uuid : Text) (l : List Ifconfig) (found : Option Text) :
    l.foldl (fun h i => if p i then some uuid else h) found = if l.any p then some uuid else found := by
  induction l generalizing found with
  | nil => rfl
  | cons i l ih =>
    rw [foldl_cons, ih, any_cons]
    cases p i <;> simp

theorem addAllGroups_moves {d : Driver} (hd : d.failing = []) (hE : Unique Ifcfg.ifname E)
    (hmax : E.length ≤ bmClientIfcfgMax) {groups all : List Group} (ha : entries all ⊆ E) (hg : entries groups ⊆ E)
    (hf : Fits E c.ifcfg) :
    Moves E (entries groups) (foundIn d c.mac groups c.group) c
      (groups.foldl (fun c g => (bmClientAddToGroup d all c g).2) c) := by
  induction groups generalizing c with
  | nil => exact Moves.refl hf
  | cons g groups ih =>
    obtain ⟨hgE, hr⟩ := append_subset.mp hg
    have hm := addToGroup_moves hd hE hmax ha hf hgE
    have hmo := ih hr hm.fits
    rw [hm.group, foldl_connected, hm.mac] at hmo
    exact hm.trans hmo hgE

/-! ## Compacting a table -/

theorem ifcfgRemoveLoop_eq (ifname : Text) {n i j : Nat} (hn : i + n = t.length) (hj : j ≤ i) :
    ifcfgRemoveLoop ifname n i j t = t.take j ++ (t.drop i).filter (·.ifname == ifname) := by
  induction n generalizing i j t with
  | zero =>
    rw [drop_eq_nil_of_le (by omega), filter_nil, append_nil]
    rfl
  | succ n ih =>
    have hi : i < t.length := by omega
    have hc : (if i ≠ j then (t[i]?).elim t (t.set j) else t) = t.set j t[i] := by
      by_cases hij : i = j
      · subst hij
        simp
      · simp [hij, hi]
    have hg : (t.set j t[i])[i]? = some t[i] := by
      by_cases hij : j = i
      · subst hij
        simp [hi]
      · rw [getElem?_set_ne hij, getElem?_eq_getElem hi]
    have hd : (t.set j t[i]).drop (i + 1) = t.drop (i + 1) := drop_set_of_lt (by omega)
    have hh : t.drop i = t[i] :: t.drop (i + 1) := drop_eq_getElem_cons hi
    rw [ifcfgRemoveLoop]
    simp only [hc, hg, Option.any_some]
    have hl : i + 1 + n = (t.set j t[i]).length := by
      rw [length_set]
      omega
    by_cases hna : (t[i].ifname == ifname) = true
    · have hk : (t.set j t[i]).take (j + 1) = t.take j ++ [t[i]] := by
        rw [take_succ_eq_append_getElem (by rw [length_set]; omega), take_set_of_le (Nat.le_refl j), getElem_set_self]
      rw [if_pos hna, ih hl (by omega), hd, hk, hh, filter_cons, if_pos hna, append_assoc, singleton_append]
    · rw [if_neg hna, ih hl (by omega), hd, hh, filter_cons, if_neg hna, take_set_of_le (Nat.le_refl j)]

theorem ifcfg_bmClientIfcfgRemove (c : Client) (ifname : Text) :
    bmClientIfcfgRemove c ifname = { c with ifcfg := c.ifcfg.filter (·.ifname == ifname) } := by
  rw [bmClientIfcfgRemove, ifcfgRemoveLoop_eq ifname (Nat.zero_add _) (Nat.le_refl 0)]
  simp

theorem bmClientRemoveFromGroup_eq {d : Driver} (hd : d.failing = []) (c : Client) (g : Group) :
    bmClientRemoveFromGroup d c g =
      { c with ifcfg := c.ifcfg.filter (fun e => g.ifcfg.all (e.ifname == ·.ifname)), group := none } := by
  have hl : ∀ (l : List Ifconfig) (c : Client), l.foldl (fun client i =>
      if d.ok (.clientRemove i.ifname client.mac) then bmClientIfcfgRemove client i.ifname else client) c =
      { c with ifcfg := c.ifcfg.filter (fun e => l.all (e.ifname == ·.ifname)) } := by
    intro l
    induction l with
    | nil => simp
    | cons i l ih =>
      intro c
      rw [foldl_cons, if_pos (by simp [Driver.ok, hd]), ifcfg_bmClientIfcfgRemove, ih]
      simp [filter_filter, Bool.and_comm]
  rw [bmClientRemoveFromGroup, hl]

end OpenSync.BmTable
