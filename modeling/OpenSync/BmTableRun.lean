import OpenSync.BmTableSet

/-!
# Interface tables follow the groups

Inserting rows and adding clients keeps the tables right. Deleting a row does not: compaction keeps what it should drop, so
a table is right afterwards only if nothing was to be left in it. Nor does a changed row that drops an interface, and a
client is detached by the deletion of any group.
-/

namespace OpenSync.BmTable
open List Ifcfg Keyed

open Keyed (Unique)

/-- The tables are right, and a client belongs to the group that is `left` for it. -/
structure Inv (s : State) (left : Mac → Option Text) : Prop where
  uuids : Unique Group.uuid s.groups
  names : Unique Ifcfg.ifname (entries s.groups)
  room : (entries s.groups).length ≤ bmClientIfcfgMax
  tables : ∀ c ∈ s.clients, c.ifcfg.Perm (entries s.groups)
  group : ∀ c ∈ s.clients, c.group = left c.mac
  live : ∀ c ∈ s.clients, ∀ u, c.group = some u → ∃ g ∈ s.groups, g.uuid = u

/-- The group that an event leaves a client in. -/
def leftAfter (s : State) (mac : Mac) (left : Option Text) : Event → Option Text
  | .insertRow uuid row d =>
    let r := bmGroupFromOvsdb s.mapTable row ⟨uuid, []⟩
    if r.1 then foundIn d mac [r.2] left else left
  | .modifyRow _ _ _ => left
  | .deleteRow uuid _ => if left = some uuid then none else left
  | .addClient mac' d =>
    if mac' = mac ∧ bmClientFindByMacaddr s mac = none then foundIn d mac s.groups none else left
  | .steerClient _ mac' => if mac' = mac ∧ bmClientFindByMacaddr s mac = none then none else left
  | .connect ifname mac' d =>
    if mac' = mac ∧ d.connected.contains (ifname, mac) then
      ((bmGroupFindByIfname s ifname).map Group.uuid).or left
    else left
  | .removeClient mac' => if mac' = mac then none else left

def leftIn (s : State) : List Event → (Mac → Option Text) → Mac → Option Text
  | [], left => left
  | e :: evs, left => leftIn (step s e) evs fun mac => leftAfter s mac (left mac) e

/-! ## Conditions -/

def Event.driver : Event → Driver
  | .insertRow _ _ d | .modifyRow _ _ d | .deleteRow _ d | .addClient _ d | .connect _ _ d => d
  | .steerClient _ _ | .removeClient _ => ⟨[], [], []⟩

def NewRow (s : State) : Event → Prop
  | .insertRow uuid _ _ => bmGroupFindByUuid s uuid = none
  | _ => True

instance (s : State) : (e : Event) → Decidable (NewRow s e)
  | .insertRow uuid _ _ => inferInstanceAs (Decidable (bmGroupFindByUuid s uuid = none))
  | .modifyRow _ _ _ | .deleteRow _ _ | .addClient _ _ | .steerClient _ _ | .connect _ _ _ | .removeClient _ => .isTrue trivial

/-- The driver does not fail, interfaces have different names, and there are not too many of them. -/
structure EventWithin (s : State) (e : Event) : Prop where
  new : NewRow s e
  driver : e.driver.failing = []
  names : ((entries (step s e).groups).map Ifcfg.ifname).Nodup
  room : (entries (step s e).groups).length ≤ bmClientIfcfgMax

instance (s : State) (e : Event) : Decidable (EventWithin s e) :=
  decidable_of_iff (NewRow s e ∧ e.driver.failing = [] ∧ ((entries (step s e).groups).map Ifcfg.ifname).Nodup ∧
      (entries (step s e).groups).length ≤ bmClientIfcfgMax)
    ⟨fun h => ⟨h.1, h.2.1, h.2.2.1, h.2.2.2⟩, fun h => ⟨h.new, h.driver, h.names, h.room⟩⟩

/-- There are no clients, or the row can be converted and still names the interfaces of the group. -/
def ModifySafe (s : State) (row : Row) (g : Group) : Prop :=
  s.clients = [] ∨ (bmGroupFromOvsdb s.mapTable row g).1 = true ∧
    ∀ i ∈ g.ifcfg, i.ifname ∈ (bmGroupFromOvsdb s.mapTable row g).2.ifcfg.map Ifconfig.ifname

/-- There are no clients, or no client belongs to another group, and the group has no interfaces, or it has at least two
and the other groups have none. -/
def DeleteSafe (s : State) (g : Group) : Prop :=
  s.clients = [] ∨ (∀ c ∈ s.clients, c.group = none ∨ c.group = some g.uuid) ∧
    (g.ifcfg = [] ∨ 2 ≤ g.ifcfg.length ∧ ∀ g' ∈ s.groups, g'.uuid ≠ g.uuid → g'.ifcfg = [])

def EventSafe (s : State) : Event → Prop
  | .modifyRow uuid row _ => ∀ g ∈ bmGroupFindByUuid s uuid, ModifySafe s row g
  | .deleteRow uuid _ => ∀ g ∈ bmGroupFindByUuid s uuid, DeleteSafe s g
  | .steerClient ifname mac => bmGroupFindByIfname s ifname = none ∨ bmClientFindByMacaddr s mac ≠ none
  | .insertRow _ _ _ | .addClient _ _ | .connect _ _ _ | .removeClient _ => True

instance (s : State) (row : Row) (g : Group) : Decidable (ModifySafe s row g) := inferInstanceAs (Decidable (_ ∨ _))

instance (s : State) (g : Group) : Decidable (DeleteSafe s g) := inferInstanceAs (Decidable (_ ∨ _))

instance (s : State) : (e : Event) → Decidable (EventSafe s e)
  | .modifyRow uuid row _ => inferInstanceAs (Decidable (∀ g ∈ bmGroupFindByUuid s uuid, ModifySafe s row g))
  | .deleteRow uuid _ => inferInstanceAs (Decidable (∀ g ∈ bmGroupFindByUuid s uuid, DeleteSafe s g))
  | .steerClient ifname mac =>
    inferInstanceAs (Decidable (bmGroupFindByIfname s ifname = none ∨ bmClientFindByMacaddr s mac ≠ none))
  | .insertRow _ _ _ | .addClient _ _ | .connect _ _ _ | .removeClient _ => .isTrue trivial

def RunMeets (cond : State → Event → Prop) (s : State) : List Event → Prop
  | [] => True
  | e :: evs => cond s e ∧ RunMeets cond (step s e) evs

def RunMeets.decide {cond : State → Event → Prop} (dec : ∀ s e, Decidable (cond s e)) (s : State) :
    (evs : List Event) → Decidable (RunMeets cond s evs)
  | [] => .isTrue trivial
  | e :: evs => @instDecidableAnd _ _ (dec s e) (RunMeets.decide dec (step s e) evs)

instance {cond : State → Event → Prop} [dec : ∀ s e, Decidable (cond s e)] (s : State) (evs : List Event) :
    Decidable (RunMeets cond s evs) := RunMeets.decide dec s evs

/-! ## Lemmas about groups -/

variable {groups : List Group} {d : Driver} {mac : Mac}

theorem foundIn_eq_some {found : Option Text} {u : Text}
    (h : foundIn d mac groups found = some u) : found = some u ∨ ∃ g ∈ groups, g.uuid = u := by
  induction groups generalizing found with
  | nil => exact .inl h
  | cons g groups ih =>
    rcases ih h with h | ⟨g', hg', hu⟩
    · split at h
      · exact .inr ⟨g, mem_cons_self, Option.some.inj h⟩
      · exact .inl h
    · exact .inr ⟨g', mem_cons_of_mem _ hg', hu⟩

theorem Fits.of_perm {E L t : List Ifcfg} (hp : t.Perm L) (hu : Unique Ifcfg.ifname L)
    (hn : L.map Ifcfg.ifname ⊆ E.map Ifcfg.ifname) : Fits E t where
  unique := (hp.map ifname).nodup_iff.mpr hu
  names := fun _ hx => hn ((hp.map ifname).mem_iff.mp hx)

variable {s : State}

theorem mem_insert_iff {g g' : Group} :
    g' ∈ insert Group.uuid Tags.strLt g s.groups ↔ g' = g ∨ g' ∈ s.groups := by
  rw [(insert_perm Tags.strLt g s.groups).mem_iff, mem_cons]

theorem Inv.of_clients {left : Mac → Option Text} (hu : Unique Group.uuid s.groups)
    (hn : Unique Ifcfg.ifname (entries s.groups)) (hr : (entries s.groups).length ≤ bmClientIfcfgMax)
    (hc : ∀ c ∈ s.clients, c.ifcfg.Perm (entries s.groups) ∧ c.group = left c.mac ∧
      ∀ u, c.group = some u → ∃ g ∈ s.groups, g.uuid = u) : Inv s left :=
  ⟨hu, hn, hr, fun c h => (hc c h).1, fun c h => (hc c h).2.1, fun c h => (hc c h).2.2⟩

theorem Inv.relabel {left left' : Mac → Option Text} (h : Inv s left)
    (hl : ∀ c ∈ s.clients, left' c.mac = left c.mac) : Inv s left' :=
  ⟨h.uuids, h.names, h.room, h.tables, fun c hc => (h.group c hc).trans (hl c hc).symm, h.live⟩

/-! ## Rows -/

variable {left : Mac → Option Text} {uuid : Text}

open Inv

theorem Inv.inserted (h : Inv s left) {row : Row} (hw : EventWithin s (.insertRow uuid row d)) :
    Inv (step s (.insertRow uuid row d)) fun mac => leftAfter s mac (left mac) (.insertRow uuid row d) := by
  obtain ⟨hne, hd, hn, hr⟩ := hw
  have huu : (bmGroupFromOvsdb s.mapTable row ⟨uuid, []⟩).2.uuid = uuid := rfl
  have hd : d.failing = [] := hd
  simp only [step, bmGroupNew, leftAfter] at hn hr ⊢
  generalize bmGroupFromOvsdb s.mapTable row ⟨uuid, []⟩ = r at hn hr huu ⊢
  obtain ⟨ok, g⟩ := r
  cases ok with
  | false => exact ⟨h.uuids, h.names, h.room, h.tables, h.group, h.live⟩
  | true =>
    have hok : (g.ifcfg.all fun i => d.ok (.ifaceAdd i.ifname)) = true := by simp [Driver.ok, hd]
    simp only [hok, if_true] at hn hr ⊢
    generalize hE : insert Group.uuid Tags.strLt g s.groups = groups at hn hr ⊢
    have hme : ∀ g', g' ∈ groups ↔ g' = g ∨ g' ∈ s.groups := fun g' => hE ▸ mem_insert_iff
    have hg : g.entries ⊆ entries groups := Group.entries_subset ((hme g).mpr (.inl rfl))
    have ho : entries s.groups ⊆ entries groups := fun e he => by
      obtain ⟨g', hg', he⟩ := mem_flatMap.mp he
      exact Group.entries_subset ((hme g').mpr (.inr hg')) he
    have hon : entries [g] ⊆ entries groups := by simpa [entries] using hg
    have hm : ∀ c ∈ s.clients, Moves (entries groups) (entries [g]) (foundIn d c.mac [g] c.group) c
        (bmClientAddToGroup d groups c g).2 := fun c hc =>
      addAllGroups_moves hd hn hr (List.Subset.refl _) hon (Fits.of_perm (h.tables c hc) h.names (map_subset _ ho))
    have huui : Unique Group.uuid groups := hE ▸ h.uuids.insert _ (huu ▸ hne)
    refine of_clients huui hn hr fun c' hc' => ?_
    obtain ⟨c, hc, rfl⟩ := mem_map.mp hc'
    refine ⟨?_, ?_, fun u hu => ?_⟩
    · refine (hm c hc).perm hn (fun e he => ?_) fun x hx => .inl (ho ((h.tables c hc).mem_iff.mp hx))
      obtain ⟨g', hg', he⟩ := mem_flatMap.mp he
      rcases (hme g').mp hg' with rfl | hg'
      · exact .inl (by simpa [entries] using he)
      · exact .inr ((h.tables c hc).mem_iff.mpr (Group.entries_subset hg' he))
    · rw [(hm c hc).group, (hm c hc).mac, h.group c hc]
    · rw [(hm c hc).group] at hu
      rcases foundIn_eq_some hu with hu | ⟨g', hg', hu⟩
      · obtain ⟨g', hg', hu⟩ := h.live c hc u hu
        exact ⟨g', (hme g').mpr (.inr hg'), hu⟩
      · exact ⟨g, (hme g).mpr (.inl rfl), mem_singleton.mp hg' ▸ hu⟩

theorem uuid_bmGroupFromOvsdb (mapTable : List (Text × Text)) (row : Row) (g : Group) :
    (bmGroupFromOvsdb mapTable row g).2.uuid = g.uuid := rfl

theorem live_replaced {g' g₁ : Group} (h : g₁ ∈ groups) :
    ∃ g₂ ∈ replace Group.uuid g' groups, g₂.uuid = g₁.uuid := by
  refine ⟨_, mem_map_of_mem h, ?_⟩
  split
  · next hu => exact hu.symm
  · rfl

theorem Inv.updated (h : Inv s left) {g g' : Group} (hg : g ∈ s.groups)
    (hu : g'.uuid = g.uuid) (hd : d.failing = []) (hna : Unique Ifcfg.ifname (entries (replace Group.uuid g' s.groups)))
    (hr : (entries (replace Group.uuid g' s.groups)).length ≤ bmClientIfcfgMax)
    (hk : ∀ i ∈ g.ifcfg, i.ifname ∈ g'.ifcfg.map Ifconfig.ifname) :
    Inv { s with
      groups := replace Group.uuid g' s.groups
      clients := s.clients.map fun c => (bmClientUpdateGroup d c g').2 } left := by
  have hin : g' ∈ replace Group.uuid g' s.groups := mem_map.mpr ⟨g, hg, if_pos hu.symm⟩
  -- An old entry is wanted as it is, or there is a new one with its name.
  have ho : ∀ x ∈ entries s.groups,
      x ∈ entries (replace Group.uuid g' s.groups) ∨ ∃ e ∈ g'.entries, e.ifname = x.ifname := by
    intro x hx
    obtain ⟨g₁, hg₁, hx⟩ := mem_flatMap.mp hx
    by_cases hu₁ : g₁.uuid = g.uuid
    · rw [inj_on_of_nodup_map h.uuids hg₁ hg hu₁] at hx
      obtain ⟨i, hi, rfl⟩ := mem_map.mp hx
      obtain ⟨i', hi', hn⟩ := mem_map.mp (hk i hi)
      exact .inr ⟨i'.entry g'.uuid, mem_map_of_mem hi', hn⟩
    · have hg₁' : g₁ ∈ replace Group.uuid g' s.groups := mem_map.mpr ⟨g₁, hg₁, if_neg (hu ▸ hu₁)⟩
      exact .inl (Group.entries_subset hg₁' hx)
  have hs : (entries s.groups).map ifname ⊆ (entries (replace Group.uuid g' s.groups)).map ifname := by
    intro n hn
    obtain ⟨x, hx, rfl⟩ := mem_map.mp hn
    rcases ho x hx with hx | ⟨e, he, hn⟩
    · exact mem_map_of_mem hx
    · exact hn ▸ mem_map_of_mem (Group.entries_subset hin he)
  have hm : ∀ c ∈ s.clients, Moves (entries (replace Group.uuid g' s.groups)) g'.entries c.group c
      (bmClientUpdateGroup d c g').2 := fun c hc =>
    updateGroup_moves hd hna hr (Fits.of_perm (h.tables c hc) h.names hs) (Group.entries_subset hin)
  refine of_clients (h.uuids.replace g') hna hr fun c' hc' => ?_
  obtain ⟨c, hc, rfl⟩ := mem_map.mp hc'
  refine ⟨?_, ?_, fun u hcu => ?_⟩
  · refine (hm c hc).perm hna (fun e he => ?_) fun x hx => ho x ((h.tables c hc).mem_iff.mp hx)
    obtain ⟨g₁, hg₁, heg⟩ := mem_flatMap.mp he
    rcases mem_replace hg₁ with rfl | ⟨hg₁, _⟩
    · exact .inl heg
    · exact .inr ((h.tables c hc).mem_iff.mpr (Group.entries_subset hg₁ heg))
  · rw [(hm c hc).group, (hm c hc).mac, h.group c hc]
  · rw [(hm c hc).group] at hcu
    obtain ⟨g₁, hg₁, rfl⟩ := h.live c hc u hcu
    exact live_replaced hg₁

theorem Inv.of_clients_nil (hc : s.clients = []) (hu : Unique Group.uuid s.groups)
    (hn : Unique Ifcfg.ifname (entries s.groups)) (hr : (entries s.groups).length ≤ bmClientIfcfgMax)
    (left : Mac → Option Text) : Inv s left := by
  refine ⟨hu, hn, hr, ?_, ?_, ?_⟩ <;> simp [hc]

theorem Inv.modified (h : Inv s left) {row : Row}
    (hw : EventWithin s (.modifyRow uuid row d)) (hs : EventSafe s (.modifyRow uuid row d)) :
    Inv (step s (.modifyRow uuid row d)) left := by
  obtain ⟨-, hd, hn, hr⟩ := hw
  have hd : d.failing = [] := hd
  cases hf : bmGroupFindByUuid s uuid with
  | none =>
    simp only [step, bmGroupModify, hf]
    exact h
  | some g =>
    have hg : (step s (.modifyRow uuid row d)).groups =
        replace Group.uuid (bmGroupFromOvsdb s.mapTable row g).2 s.groups := by
      simp only [step, bmGroupModify, hf]
      split <;> rfl
    rcases hs g hf with hc | ⟨hco, hk⟩
    · refine of_clients_nil ?_ (hg ▸ h.uuids.replace _) hn hr left
      simp only [step, bmGroupModify, hf]
      split <;> simp [hc]
    · have hok : (bmGroupFromOvsdb s.mapTable row g).2.ifcfg.all (fun i => d.ok (.ifaceUpdate i.ifname)) = true := by
        simp [Driver.ok, hd]
      rw [hg] at hn hr
      simp only [step, bmGroupModify, hf, hco, hok, Bool.and_self, if_true]
      exact h.updated (mem_of_find hf) (uuid_bmGroupFromOvsdb _ _ _) hd hn hr hk

theorem filter_all_names_eq_nil {l : List Ifconfig} (hl : 2 ≤ l.length) (hn : (l.map Ifconfig.ifname).Nodup)
    (t : List Ifcfg) : t.filter (fun e => l.all (e.ifname == ·.ifname)) = [] := by
  match l with
  | i :: i' :: l =>
    have hne : i.ifname ≠ i'.ifname := by
      intro he
      exact (nodup_cons.mp hn).1 (by simp [he])
    refine filter_eq_nil_iff.mpr fun e _ ha => hne ?_
    simp only [all_cons, Bool.and_eq_true, beq_iff_eq] at ha
    exact ha.1.symm.trans ha.2.1

theorem Inv.deleted (h : Inv s left) (hw : EventWithin s (.deleteRow uuid d)) (hs : EventSafe s (.deleteRow uuid d)) :
    Inv (step s (.deleteRow uuid d)) fun mac => leftAfter s mac (left mac) (.deleteRow uuid d) := by
  obtain ⟨-, hd, hna, hr⟩ := hw
  have hd : d.failing = [] := hd
  cases hf : bmGroupFindByUuid s uuid with
  | none =>
    -- No client belongs to a group that is not there.
    simp only [step, bmGroupDelete, hf, leftAfter]
    refine h.relabel fun c hc => if_neg fun hl => ?_
    obtain ⟨g, hg, hu⟩ := h.live c hc uuid ((h.group c hc).trans hl)
    exact find_eq_none.mp hf g hg hu
  | some g =>
    have hu : g.uuid = uuid := key_of_find hf
    simp only [step, bmGroupDelete, hf] at hna hr ⊢
    rcases hs g hf with hc | ⟨hgr, ht⟩
    · refine of_clients_nil ?_ ?_ ?_ ?_ _
      · simp [hc]
      · exact h.uuids.drop uuid
      · exact hna
      · exact hr
    · refine of_clients (h.uuids.drop uuid) hna hr fun c' hc' => ?_
      obtain ⟨c, hc, rfl⟩ := mem_map.mp hc'
      rw [bmClientRemoveFromGroup_eq hd]
      refine ⟨?_, ?_, fun u hcu => absurd hcu (by simp)⟩
      · have hp : (entries s.groups).Perm (g.entries ++ entries (drop Group.uuid uuid s.groups)) :=
          (perm_cons_drop h.uuids hf).flatMap_right _
        rcases ht with hni | ⟨htw, ho⟩
        · simp only [Group.entries, hni, map_nil, nil_append] at hp
          simpa [hni] using (h.tables c hc).trans hp
        have hem : entries (drop Group.uuid uuid s.groups) = [] := by
          refine flatMap_eq_nil_iff.mpr fun g' hg' => ?_
          have hne : g'.uuid ≠ g.uuid := by
            rw [hu]
            simpa using (mem_filter.mp hg').2
          rw [Group.entries, ho g' (mem_of_mem_filter hg') hne, map_nil]
        have hgn : (g.ifcfg.map Ifconfig.ifname).Nodup := by
          have hm : g.entries.map ifname = g.ifcfg.map Ifconfig.ifname := by
            rw [Group.entries, map_map]
            rfl
          have ha := (hp.map ifname).nodup_iff.mp h.names
          rw [map_append, hm] at ha
          exact ha.of_append_left
        rw [hem, filter_all_names_eq_nil htw hgn]
      · have hl := h.group c hc
        simp only [leftAfter]
        rcases hgr c hc with hn | hn
        · rw [← hl, hn, if_neg (by simp)]
        · rw [← hl, hn, hu, if_pos rfl]

/-! ## Clients -/

theorem mem_insertClient {c c' : Client} (h : c' ∈ (insertClient s c).clients) : c' = c ∨ c' ∈ s.clients :=
  mem_cons.mp ((insert_perm macLt c s.clients).mem_iff.mp h)

theorem Inv.addedClient (h : Inv s left) (hd : d.failing = []) :
    Inv (step s (.addClient mac d)) fun mac' => leftAfter s mac' (left mac') (.addClient mac d) := by
  simp only [step, bmClientNew, leftAfter]
  cases hf : bmClientFindByMacaddr s mac with
  | some c =>
    refine h.relabel fun c' hc' => if_neg ?_
    rintro ⟨rfl, hn⟩
    rw [hf] at hn
    cases hn
  | none =>
    have hfi : Fits (entries s.groups) [] := ⟨nodup_nil, nil_subset _⟩
    have hm : Moves (entries s.groups) (entries s.groups) (foundIn d mac s.groups none) ⟨mac, [], none⟩
        (bmClientAddToAllGroups d s.groups ⟨mac, [], none⟩) :=
      addAllGroups_moves (c := ⟨mac, [], none⟩) hd h.names h.room (List.Subset.refl _) (List.Subset.refl _) hfi
    refine of_clients h.uuids h.names h.room fun c' hc' => ?_
    rcases mem_insertClient hc' with rfl | ho
    · refine ⟨hm.perm h.names (fun e he => .inl he) fun x hx => absurd hx not_mem_nil, ?_, fun u hu => ?_⟩
      · rw [hm.group, hm.mac, if_pos ⟨rfl, hf⟩]
      · rw [hm.group] at hu
        exact (foundIn_eq_some hu).resolve_left (by simp)
    · refine ⟨h.tables c' ho, (h.group c' ho).trans (if_neg ?_).symm, h.live c' ho⟩
      rintro ⟨rfl, -⟩
      exact find_eq_none.mp hf c' ho rfl

theorem Inv.connected (h : Inv s left) {ifname : Text} (hd : d.failing = []) :
    Inv (step s (.connect ifname mac d)) fun mac' => leftAfter s mac' (left mac') (.connect ifname mac d) := by
  simp only [step, leftAfter]
  cases hg : bmGroupFindByIfname s ifname with
  | none =>
    exact h.relabel fun c hc => by simp
  | some g =>
    simp only [bmEventsConnect, Option.map_some, Option.some_or]
    cases hf : bmClientFindByMacaddr s mac with
    | none =>
      refine h.relabel fun c hc => if_neg ?_
      rintro ⟨rfl, -⟩
      exact find_eq_none.mp hf c hc rfl
    | some c =>
      have hc : c ∈ s.clients := mem_of_find hf
      have hm : c.mac = mac := key_of_find hf
      have hmo := checkConnected_moves hd h.names h.room (List.Subset.refl _)
        (Fits.of_perm (h.tables c hc) h.names (List.Subset.refl _)) g.uuid ifname
      refine of_clients h.uuids h.names h.room fun c' hc' => ?_
      rcases mem_replace hc' with rfl | ⟨hc', hne⟩
      · refine ⟨hmo.perm h.names (fun e he => .inr ((h.tables c hc).mem_iff.mpr he))
          fun x hx => .inl ((h.tables c hc).mem_iff.mp hx), ?_, fun u hu => ?_⟩
        · rw [hmo.group, hmo.mac, h.group c hc, hm]
          simp
        · rw [hmo.group] at hu
          split at hu
          · exact ⟨g, mem_of_find?_eq_some hg, Option.some.inj hu⟩
          · exact h.live c hc u hu
      · refine ⟨h.tables c' hc', (h.group c' hc').trans (if_neg ?_).symm, h.live c' hc'⟩
        rintro ⟨rfl, -⟩
        exact hne (hm ▸ hmo.mac.symm)

theorem Inv.removedClient (h : Inv s left) (mac : Mac) :
    Inv (step s (.removeClient mac)) fun mac' => leftAfter s mac' (left mac') (.removeClient mac) := by
  refine ⟨h.uuids, h.names, h.room, fun c hc => h.tables c (mem_of_mem_filter hc), fun c hc => ?_,
    fun c hc => h.live c (mem_of_mem_filter hc)⟩
  have hne : c.mac ≠ mac := by simpa using (mem_filter.mp hc).2
  rw [h.group c (mem_of_mem_filter hc)]
  simp [leftAfter, hne.symm]

theorem Inv.steered (h : Inv s left) {ifname : Text} (hs : EventSafe s (.steerClient ifname mac)) :
    Inv (step s (.steerClient ifname mac)) fun mac' => leftAfter s mac' (left mac') (.steerClient ifname mac) := by
  have hsa : step s (.steerClient ifname mac) = s := by
    simp only [step, bmClientFindOrAddByMacaddr]
    rcases hs with hg | hc
    · rw [hg]
    · obtain ⟨c, hc⟩ := Option.ne_none_iff_exists'.mp hc
      rw [hc]
      split <;> rfl
  rw [hsa]
  refine h.relabel fun c hc => if_neg ?_
  rintro ⟨rfl, hn⟩
  exact find_eq_none.mp hn c hc rfl

/-! ## Runs -/

theorem Inv.stepped (h : Inv s left) {e : Event} (hw : EventWithin s e)
    (hs : EventSafe s e) : Inv (step s e) fun mac => leftAfter s mac (left mac) e := by
  cases e with
  | insertRow uuid row d => exact h.inserted hw
  | modifyRow uuid row d => exact h.modified hw hs
  | deleteRow uuid d => exact h.deleted hw hs
  | addClient mac d => exact h.addedClient hw.driver
  | steerClient ifname mac => exact h.steered hs
  | connect ifname mac d => exact h.connected hw.driver
  | removeClient mac => exact h.removedClient mac

theorem Inv.ran (h : Inv s left) {evs : List Event}
    (hw : RunMeets EventWithin s evs) (hs : RunMeets EventSafe s evs) : Inv (run s evs) (leftIn s evs left) := by
  induction evs generalizing s left with
  | nil => exact h
  | cons e evs ih => exact ih (h.stepped hw.1 hs.1) hw.2 hs.2

theorem RunMeets.of_append {cond : State → Event → Prop} {evs more : List Event}
    (h : RunMeets cond s (evs ++ more)) : RunMeets cond s evs := by
  induction evs generalizing s with
  | nil => trivial
  | cons e evs ih => exact ⟨h.1, ih h.2⟩

theorem Inv.start (mapTable : List (Text × Text)) : Inv (start mapTable) fun _ => none := by
  refine ⟨nodup_nil, nodup_nil, Nat.zero_le _, ?_, ?_, ?_⟩ <;> simp [BmTable.start]

/-- The table of a client lists the interfaces of the groups, each once, and the client belongs to the group that the events
left it in, which is live. -/
structure Right (s : State) (left : Mac → Option Text) (c : Client) : Prop where
  table : c.ifcfg.Perm (entries s.groups)
  once : (c.ifcfg.map Ifcfg.ifname).Nodup
  group : c.group = left c.mac
  live : ∀ u, c.group = some u → ∃ g ∈ s.groups, g.uuid = u

/-- In every run in which changed rows keep their interfaces and groups are deleted only when the tables are to be empty
afterwards, the tables of all clients are right after every event. -/
theorem tables_follow_groups (mapTable : List (Text × Text)) (evs : List Event)
    (hw : RunMeets EventWithin (start mapTable) evs) (hs : RunMeets EventSafe (start mapTable) evs) (before : List Event)
    (hb : before <+: evs) :
    ∀ c ∈ (run (start mapTable) before).clients,
      Right (run (start mapTable) before) (leftIn (start mapTable) before fun _ => none) c := by
  obtain ⟨more, rfl⟩ := hb
  have h := (Inv.start mapTable).ran hw.of_append hs.of_append
  intro c hc
  have hp := h.tables c hc
  exact ⟨hp, (hp.map ifname).nodup_iff.mpr h.names, h.group c hc, h.live c hc⟩

/-! A home network on two bands, and a guest network. -/

def quiet : Driver := ⟨[], [], []⟩

def homeRow : Row :=
  ⟨[("home-24".toList, "2.4G".toList), ("home-50".toList, "5GL bs_allow".toList)], [], [], none⟩

/-- The upper radio has taken over, and there is one more interface. -/
def homeRow' : Row :=
  ⟨[("home-24".toList, "2.4G".toList), ("home-50".toList, "5GU bs_allow".toList), ("home-60".toList, "6G".toList)],
    [], [], none⟩

def guestRow : Row := ⟨[], "guest-24".toList, "guest-50".toList, some "5G".toList⟩

def atHome : Driver := ⟨[], [("home-50".toList, 1)], [("home-50".toList, 1)]⟩

def moveHouse : List Event :=
  [.insertRow "a".toList homeRow quiet, .addClient 1 atHome, .modifyRow "a".toList homeRow' quiet,
    .deleteRow "a".toList quiet, .insertRow "b".toList guestRow quiet, .connect "guest-24".toList 1 quiet]

theorem moveHouse_right : (RunMeets EventWithin (start []) moveHouse ∧ RunMeets EventSafe (start []) moveHouse) ∧
    (∀ c ∈ (run (start []) moveHouse).clients,
      Right (run (start []) moveHouse) (leftIn (start []) moveHouse fun _ => none) c) ∧
    (run (start []) moveHouse).clients = [⟨1, [⟨"guest-24".toList, .twoG, false, "b".toList⟩,
      ⟨"guest-50".toList, .fiveG, true, "b".toList⟩], none⟩] :=
  have hw : RunMeets EventWithin (start []) moveHouse := by decide +kernel
  have hs : RunMeets EventSafe (start []) moveHouse := by decide +kernel
  ⟨⟨hw, hs⟩, tables_follow_groups [] moveHouse hw hs moveHouse (prefix_refl _), by decide +kernel⟩

/-- Two groups; the one the client is not connected through is deleted. -/
def guestDeleted : List Event :=
  [.insertRow "a".toList homeRow quiet, .insertRow "b".toList guestRow quiet, .addClient 1 atHome,
    .deleteRow "b".toList quiet]

def shrunk : List Event :=
  [.insertRow "a".toList homeRow' quiet, .addClient 1 quiet, .modifyRow "a".toList homeRow quiet]

def lastDeleted : List Event :=
  [.insertRow "a".toList ⟨[("home-24".toList, "2.4G".toList)], [], [], none⟩ quiet, .addClient 1 quiet,
    .deleteRow "a".toList quiet]

/-- The first run empties the table of a client that has two interfaces left, and takes it off its group; the second leaves
an interface in the table that no group has, and so does the third. -/
theorem tables_stay_behind :
    (RunMeets EventWithin (start []) guestDeleted ∧ (run (start []) guestDeleted).clients = [⟨1, [], none⟩] ∧
      (entries (run (start []) guestDeleted).groups).length = 2 ∧
      leftIn (start []) guestDeleted (fun _ => none) 1 = some "a".toList) ∧
    (RunMeets EventWithin (start []) shrunk ∧ (run (start []) shrunk).clients.map (fun c => c.ifcfg.length) = [3] ∧
      (entries (run (start []) shrunk).groups).length = 2) ∧
    (RunMeets EventWithin (start []) lastDeleted ∧
      (run (start []) lastDeleted).clients.map (fun c => c.ifcfg.length) = [1] ∧
      (run (start []) lastDeleted).groups = []) := by
  decide +kernel

end OpenSync.BmTable
