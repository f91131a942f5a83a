import OpenSync.Nfm

/-!
# The registries after the rows

What the registries are for: each row is held by its name, in the one for templates just if its rule is a template.
A modification is handled by the registry of the row as it was, under the name of the row as it is, and an entry that
cannot be unset stays; as long as rows keep their name and kind, fit the buffers and the walk, and the layer grants
what it is asked to take back, the registries hold the rows.
-/

namespace OpenSync.Nfm
open List Function

open Keyed
open Osfw (Family Table NfRule strscpy)
open Tags Product Template

/-! ## References of an entry -/

def keysOf (conf : Conf) (flags : Flags) : List ChainKey := (putOrder.filter flags).map (refKey conf)

theorem mem_putOrder (r : Ref) : r ∈ putOrder := by
  cases r <;> decide

theorem putOrder_nodup : putOrder.Nodup := by decide

theorem keysOf_noFlags (conf : Conf) : keysOf conf noFlags = [] := rfl

variable {flags : Flags}

theorem keysOf_put (conf : Conf) {r : Ref} (h : flags r = true) :
    (keysOf conf flags).Perm (refKey conf r :: keysOf conf (Function.update flags r false)) := by
  have hm : r ∈ putOrder.filter flags := mem_filter.mpr ⟨mem_putOrder r, h⟩
  have her : (putOrder.filter flags).erase r = putOrder.filter (update flags r false) := by
    rw [(putOrder_nodup.filter flags).erase_eq_filter, filter_filter]
    apply filter_congr
    intro x _
    by_cases hx : x = r <;> simp [hx]
  have hp := (perm_cons_erase hm).map (refKey conf)
  rwa [her] at hp

theorem keysOf_get (conf : Conf) {r : Ref} (h : flags r = false) :
    (keysOf conf (Function.update flags r true)).Perm (refKey conf r :: keysOf conf flags) := by
  have hs : update (update flags r true) r false = flags := by
    rw [update_idem, ← h, update_eq_self]
  have hp := keysOf_put conf (update_self r true flags)
  rwa [hs] at hp

theorem wanted_nodup (conf : Conf) : (wanted conf).Nodup := by
  unfold wanted
  split_ifs <;> decide

variable {σ : Type}

def ShortNames (conf : Conf) : Prop := ∀ r, (refKey conf r).Short

def Taken (conf : Conf) (refs : List ChainKey) (x : Chains σ × Flags) : Prop :=
  Counted x.1.chains (keysOf conf x.2 ++ refs)

/-- What is still to be taken has no flag yet. -/
def Taking (conf : Conf) (refs : List ChainKey) (x : Chains σ × Flags) (rs : List Ref) : Prop :=
  Taken conf refs x ∧ rs.Nodup ∧ ∀ r ∈ rs, x.2 r = false

/-- What is still to be given back has a flag. -/
def Giving (conf : Conf) (refs : List ChainKey) (x : Chains σ × Flags) (rs : List Ref) : Prop :=
  Taken conf refs x ∧ rs.Nodup ∧ ∀ r, x.2 r = true → r ∈ rs

variable {refs : List ChainKey}

theorem getRefChain_counted (fw : Firewall σ) {conf : Conf} (hs : ShortNames conf) {s : Chains σ}
    (h : Counted s.chains refs) :
    Counted (getRefChain fw conf s).2.1.chains (keysOf conf (getRefChain fw conf s).2.2 ++ refs) := by
  have hst : ∀ x r rs, Taking conf refs x (r :: rs) →
      ((getRef fw conf x r).1 = true → Taking conf refs (getRef fw conf x r).2 rs) ∧
        ((getRef fw conf x r).1 = false → Taken conf refs (getRef fw conf x r).2) := by
    rintro ⟨s, flags⟩ r rs ⟨hc, hnd, hf⟩
    have hg := nfmChainGetRef_counted fw hc (hs r)
    obtain ⟨hr, hnd⟩ := nodup_cons.mp hnd
    constructor
    · intro hok
      have hok' : (nfmChainGetRef fw s (refKey conf r)).1 = true := hok
      simp only [hok', if_true] at hg
      refine ⟨?_, hnd, ?_⟩
      · simp only [getRef, hok', if_true]
        exact hg.perm ((keysOf_get conf (hf r mem_cons_self)).symm.append_right refs)
      · intro r' hr'
        have hne : r' ≠ r := ne_of_mem_of_not_mem hr' hr
        simp only [getRef, hok', if_true]
        rw [update_of_ne hne]
        exact hf r' (mem_cons_of_mem _ hr')
    · intro hb
      have hb' : (nfmChainGetRef fw s (refKey conf r)).1 = false := hb
      simp only [hb', Bool.false_eq_true, if_false] at hg
      simp only [getRef, hb', Bool.false_eq_true, if_false]
      exact hg
  have hsp := tryAll_spec hst (s := (s, noFlags))
    ⟨by rw [Taken, keysOf_noFlags]; exact h, wanted_nodup conf, fun _ _ => rfl⟩
  cases hok : (tryAll (getRef fw conf) (wanted conf) (s, noFlags)).1 with
  | true => exact (hsp.1 hok).1
  | false => exact hsp.2 hok

variable {fw : Firewall σ} {P : σ → Prop}

theorem putRefs_counted (hn : fw.Notes P) (conf : Conf) {s : Chains σ}
    (h : Counted s.chains (keysOf conf flags ++ refs)) :
    ((putRefs fw conf (s, flags)).1 = true → Counted (putRefs fw conf (s, flags)).2.1.chains refs) ∧
      ((putRefs fw conf (s, flags)).1 = false → P (putRefs fw conf (s, flags)).2.1.fw) := by
  have hs : ∀ x r rs, Giving conf refs x (r :: rs) →
      ((putRef fw conf x r).1 = true → Giving conf refs (putRef fw conf x r).2 rs) ∧
        ((putRef fw conf x r).1 = false → P (putRef fw conf x r).2.1.fw) := by
    rintro ⟨s, flags⟩ r rs ⟨hc, hnd, ha⟩
    obtain ⟨hr, hnd⟩ := nodup_cons.mp hnd
    cases hf : flags r with
    | false =>
      simp only [putRef, hf, Bool.false_eq_true, if_false]
      refine ⟨fun _ => ⟨hc, hnd, ?_⟩, nofun⟩
      intro r' hr'
      rcases mem_cons.mp (ha r' hr') with rfl | hr'
      · exact absurd hr' (by simp [hf])
      · exact hr'
    | true =>
      have hp := (keysOf_put conf hf).append_right refs
      obtain ⟨hpu, hre⟩ := nfmChainPutRef_counted hn (hc.perm hp)
      simp only [putRef, hf, if_true]
      refine ⟨fun hok => ?_, hre⟩
      simp only [hok, if_true]
      refine ⟨hpu hok, hnd, ?_⟩
      intro r' hr'
      by_cases hne : r' = r
      · subst hne
        simp at hr'
      · simp only [update_of_ne hne] at hr'
        exact (mem_cons.mp (ha r' hr')).resolve_left hne
  obtain ⟨hg, hb⟩ := tryAll_spec (R := Giving conf refs) (Q := fun x => P x.1.fw) hs (s := (s, flags))
    ⟨h, putOrder_nodup, fun r _ => mem_putOrder r⟩
  refine ⟨fun hok => ?_, hb⟩
  obtain ⟨hc, -, ha⟩ := hg hok
  have hno : (tryAll (putRef fw conf) putOrder (s, flags)).2.2 = noFlags := by
    funext r
    cases hr : (tryAll (putRef fw conf) putOrder (s, flags)).2.2 r with
    | false => rfl
    | true => exact absurd (ha r hr) not_mem_nil
  rw [Taken, hno, keysOf_noFlags] at hc
  exact hc

theorem getRefChain_keeps
    (h : ∀ family table chain, Keeps P (fw.chainAdd · family table chain)) (conf : Conf) (s : Chains σ) (hs : P s.fw) : P (getRefChain fw conf s).2.1.fw :=
  tryAll_kept (P := fun x : Chains σ × Flags => P x.1.fw)
    (fun r _ x hx => nfmChainGetRef_keeps h (refKey conf r) x.1 hx) (s, noFlags) hs

theorem putRefs_keeps
    (h : ∀ family table chain, Keeps P (fw.chainDel · family table chain)) (conf : Conf) (x : Chains σ × Flags)
    (hx : P x.1.fw) : P (putRefs fw conf x).2.1.fw := by
  refine tryAll_kept (P := fun x : Chains σ × Flags => P x.1.fw) (fun r _ x hx => ?_) x hx
  change P (putRef fw conf x r).2.1.fw
  unfold putRef
  split_ifs
  · exact nfmChainPutRef_keeps h (refKey conf r) x.1 hx
  · exact hx

/-! ## Walks that delete -/

theorem applyTag_keeps (w : Walk σ) (hf : ∀ tv, Keeps P (w.finish · tv)) {rest : List Entry}
    (hr : ∀ r ∈ rest, r ∈ w.refs) (tv : List Binding) : Keeps P (applyTag w rest tv) := by
  induction rest generalizing tv with
  | nil => exact hf tv
  | cons r rest ih =>
    intro s hs
    rw [applyTag_cons w (hr r mem_cons_self)]
    split_ifs
    · exact hs
    · exact tryAll_kept (fun _ _ _ hs => hs) s hs
    · exact tryAll_kept (fun b _ => ih (forall_mem_cons.mp hr).2 _) s hs

theorem applyTag_noted (w : Walk σ) (hm : w.missing = true) {rest : List Entry}
    {tv : List Binding} (hr : ∀ r ∈ rest, r ∈ w.refs) (hl : tv.length + rest.length ≤ maxTagsPerRule)
    (hf : ∀ tv', tv'.map Binding.key = tv.map Binding.key ++ rest.map Template.refKey →
      Noted P (w.finish · tv')) : Noted P (applyTag w rest tv) := by
  induction rest generalizing tv with
  | nil => exact hf tv (by simp)
  | cons r rest ih =>
    have hru : Noted P (tryAll (fun s b => if rest ≠ [] ∧ maxTagsPerRule ≤ tv.length + 1 then (false, s)
        else applyTag w rest (tv ++ [b]) s) (w.items r)) := by
      apply tryAll_noted
      intro b hb
      rw [length_cons] at hl
      have hro : ¬ (rest ≠ [] ∧ maxTagsPerRule ≤ tv.length + 1) := by
        rintro ⟨hne, hle⟩
        have := length_pos_of_ne_nil hne
        omega
      simp only [if_neg hro]
      apply ih (forall_mem_cons.mp hr).2
      · rw [length_append, length_singleton]
        omega
      · intro tv' hk
        apply hf
        rw [hk, map_append, map_singleton, key_of_mem_items w hb, map_cons, append_assoc, singleton_append]
    have hc := fun s => applyTag_cons w (hr r mem_cons_self) rest tv s
    by_cases hn : (w.source r).isNone
    · simp only [hn, hm, if_true] at hc
      rw [funext hc]
      exact noted_true
    · simp only [hn, Bool.false_eq_true, if_false] at hc
      rw [funext hc]
      exact hru

def nfmTruleCall (fw : Firewall σ) : Action → σ → Conf → Bool × σ
  | .add => nfmOsfwAddRule fw
  | .delete => nfmOsfwDelRule fw

/-- The references of a template are few and each of them has an end. -/
def Walkable (rule : Text) (refs : List Entry) : Prop := refs.length ≤ maxTagsPerRule ∧ expandable rule refs = true

theorem nfmTruleUpdateTags_keeps (type : Action)
    (h : ∀ conf, Keeps P (nfmTruleCall fw type · conf)) (tags : List Tag) (self : NfmTrule) :
    Keeps P (nfmTruleUpdateTags fw tags self type) := by
  intro s hs
  unfold nfmTruleUpdateTags
  split_ifs
  · exact hs
  refine applyTag_keeps (nfmTruleWalk fw tags self type false none) (fun tv s hs => ?_) (fun _ hr => hr) [] s hs
  simp only [Walk.finish, nfmTruleWalk, nfmTruleApply]
  cases expand tv self.conf.rule with
  | none => exact hs
  | some rule =>
    cases type with
    | add | delete => exact h _ s hs

theorem nfmTruleUpdateTags_noted (hn : fw.Notes P) (tags : List Tag)
    {self : NfmTrule} (h : self.tags ≠ [] → Walkable self.conf.rule self.tags) :
    Noted P (nfmTruleUpdateTags fw tags self .delete) := by
  unfold nfmTruleUpdateTags
  by_cases hni : self.tags = []
  · simp only [hni, if_true]
    exact noted_true
  simp only [hni, if_false]
  obtain ⟨hl, hex⟩ := h hni
  refine applyTag_noted (nfmTruleWalk fw tags self .delete false none) rfl (fun _ hr => hr) (by simpa using hl) ?_
  intro tv hk
  have hs : (expand tv self.conf.rule).isSome = true := (expandable_eq (by simpa using hk)).trans hex
  obtain ⟨rule, hru⟩ := Option.isSome_iff_exists.mp hs
  simp only [Walk.finish, nfmTruleWalk, nfmTruleApply, hru, Bool.or_false]
  exact nfmOsfwDelRule_noted hn _

/-! ## Registries -/

/-- What the registries have in common: an entry is set for a row, and unset. -/
structure Registry (σ E : Type) where
  conf : E → Conf
  flags : E → Flags
  set : Chains σ → Conf → E × Chains σ
  unset : Chains σ → E → Bool × E × Chains σ

namespace Registry

variable {E : Type} (R : Registry σ E)

def name (self : E) : Text := (R.conf self).name

def keys (self : E) : List ChainKey := keysOf (R.conf self) (R.flags self)

def new (s : Chains σ) (l : List E) (conf : Conf) : Bool × Chains σ × List E :=
  if (find R.name conf.name l).isSome then (false, s, l)
  else (true, (R.set s conf).2, insert R.name strLt (R.set s conf).1 l)

def del (s : Chains σ) (l : List E) (conf : Conf) : Bool × Chains σ × List E :=
  match find R.name conf.name l with
  | none => (false, s, l)
  | some self =>
    if (R.unset s self).1 then (true, (R.unset s self).2.2, drop R.name conf.name l)
    else (false, (R.unset s self).2.2, replace R.name (R.unset s self).2.1 l)

def modify (s : Chains σ) (l : List E) (changed : Bool) (conf : Conf) : Bool × Chains σ × List E :=
  if !changed then (true, s, l)
  else if (R.del s l conf).1 then R.new (R.del s l conf).2.1 (R.del s l conf).2.2 conf else R.del s l conf

def row (l : List E) (name : Text) : Option Conf := (find R.name name l).map R.conf

/-- Entries that can be taken back are set for some rows; a refused deletion is noted. -/
structure Lawful (P : σ → Prop) (fits : Conf → Prop) (sound : E → Prop) : Prop where
  conf : ∀ s conf, R.conf (R.set s conf).1 = conf
  set : ∀ {s conf refs}, fits conf → Counted s.chains refs →
    sound (R.set s conf).1 ∧ Counted (R.set s conf).2.chains (keysOf conf (R.flags (R.set s conf).1) ++ refs)
  unset : ∀ {s self refs}, sound self → Counted s.chains (R.keys self ++ refs) →
    ((R.unset s self).1 = true → Counted (R.unset s self).2.2.chains refs) ∧
      ((R.unset s self).1 = false → P (R.unset s self).2.2.fw)
  set_keeps : ∀ s conf, P s.fw → P (R.set s conf).2.fw
  unset_keeps : ∀ s self, P s.fw → P (R.unset s self).2.2.fw

/-- The chains count the references of the entries along with others. -/
structure Inv (sound : E → Prop) (others : List ChainKey) (s : Chains σ) (l : List E) : Prop where
  counted : Counted s.chains (l.flatMap R.keys ++ others)
  unique : Keyed.Unique R.name l
  sound : ∀ self ∈ l, sound self

variable {R} {P : σ → Prop} {fits : Conf → Prop} {sound : E → Prop} {others : List ChainKey} {s : Chains σ} {l : List E}
  {conf : Conf}

variable (hR : R.Lawful P fits sound)
include hR

theorem Lawful.new (h : R.Inv sound others s l) (hf : fits conf) (hfr : R.row l conf.name = none) :
    R.Inv sound others (R.new s l conf).2.1 (R.new s l conf).2.2 ∧
      ∀ name, R.row (R.new s l conf).2.2 name = if name = conf.name then some conf else R.row l name := by
  obtain ⟨hs, hco⟩ := hR.set hf h.counted
  have hc := hR.conf s conf
  have hn : find R.name conf.name l = none := Option.map_eq_none_iff.mp hfr
  have hna : R.name (R.set s conf).1 = conf.name := congrArg Conf.name hc
  have hp : (insert R.name strLt (R.set s conf).1 l).Perm _ := insert_perm strLt _ _
  simp only [Registry.new, hn, Option.isSome_none, Bool.false_eq_true, if_false]
  refine ⟨⟨?_, h.unique.insert strLt (by rw [hna]; exact hn), forall_mem_perm_cons hp hs h.sound⟩, fun name => ?_⟩
  · apply hco.perm
    have hfl := (hp.flatMap_right R.keys).symm
    rw [flatMap_cons, Registry.keys, hc] at hfl
    rw [← append_assoc]
    exact hfl.append_right _
  · unfold Registry.row
    rw [find_insert strLt_irrefl, hna]
    split_ifs
    · rw [Option.map_some, hc]
    · rfl

theorem Lawful.del (h : R.Inv sound others s l) (hh : R.row l conf.name ≠ none) (hp : ¬ P (R.del s l conf).2.1.fw) :
    (R.del s l conf).1 = true ∧ R.Inv sound others (R.del s l conf).2.1 (R.del s l conf).2.2 ∧
      ∀ name, R.row (R.del s l conf).2.2 name = if name = conf.name then none else R.row l name := by
  obtain ⟨self, hs⟩ := Option.ne_none_iff_exists'.mp fun hn => hh (Option.map_eq_none_iff.mpr hn)
  have hpe := (perm_cons_drop h.unique hs).flatMap_right R.keys
  have hc : Counted s.chains (R.keys self ++ ((drop R.name conf.name l).flatMap R.keys ++ others)) := by
    rw [← append_assoc]
    exact h.counted.perm (hpe.append_right _)
  obtain ⟨ha, hr⟩ := hR.unset (h.sound self (mem_of_find hs)) hc
  have hok : (R.unset s self).1 = true := by
    by_contra hb
    rw [Bool.not_eq_true] at hb
    apply hp
    simp only [Registry.del, hs, hb]
    exact hr hb
  simp only [Registry.del, hs, hok, if_true, true_and]
  refine ⟨⟨ha hok, h.unique.drop _, fun self hm => h.sound self (mem_of_mem_filter hm)⟩, fun name => ?_⟩
  unfold Registry.row
  rw [find_drop]
  split_ifs <;> rfl

theorem Lawful.new_keeps (conf : Conf) (hp : P s.fw) : P (R.new s l conf).2.1.fw := by
  unfold Registry.new
  split_ifs
  · exact hp
  · exact hR.set_keeps s conf hp

theorem Lawful.del_keeps (conf : Conf) (hp : P s.fw) : P (R.del s l conf).2.1.fw := by
  unfold Registry.del
  cases find R.name conf.name l with
  | none => exact hp
  | some self =>
    have hu := hR.unset_keeps s self hp
    simp only
    split_ifs <;> exact hu

theorem Lawful.modify_keeps (changed : Bool) (conf : Conf) (hp : P s.fw) :
    P (R.modify s l changed conf).2.1.fw := by
  have hd := hR.del_keeps (l := l) conf hp
  unfold Registry.modify
  split_ifs
  · exact hp
  · exact hR.new_keeps conf hd
  · exact hd

theorem Lawful.modify (h : R.Inv sound others s l) (hf : fits conf)
    (hh : R.row l conf.name ≠ none) (hp : ¬ P (R.modify s l true conf).2.1.fw) :
    R.Inv sound others (R.modify s l true conf).2.1 (R.modify s l true conf).2.2 ∧
      ∀ name, R.row (R.modify s l true conf).2.2 name = if name = conf.name then some conf else R.row l name := by
  have hd : ¬ P (R.del s l conf).2.1.fw := by
    intro hn
    apply hp
    simp only [Registry.modify, Bool.not_true, Bool.false_eq_true, if_false]
    split_ifs
    · exact hR.new_keeps conf hn
    · exact hn
  obtain ⟨hok, hin, hr⟩ := hR.del h hh hd
  obtain ⟨hi', hr'⟩ := hR.new hin hf (by rw [hr, if_pos rfl])
  simp only [Registry.modify, Bool.not_true, Bool.false_eq_true, if_false, hok, if_true]
  refine ⟨hi', fun name => ?_⟩
  rw [hr', hr]
  split_ifs <;> rfl

end Registry

/-! ## Plain rules and templates -/

def plain (fw : Firewall σ) : Registry σ NfmRule := ⟨NfmRule.conf, NfmRule.flags, nfmRuleSet fw, nfmRuleUnset fw⟩

def template (fw : Firewall σ) (tags : List Tag) : Registry σ NfmTrule :=
  ⟨NfmTrule.conf, NfmTrule.flags, nfmTruleSet fw tags, nfmTruleUnset fw tags⟩

structure Fits (conf : Conf) : Prop where
  short : conf.enable = true → ShortNames conf
  walkable : conf.enable = true → isTemplate conf.rule = true → Walkable conf.rule (detectRefs conf.rule)

def NfmTrule.Sound (self : NfmTrule) : Prop := self.tags ≠ [] → Walkable self.conf.rule self.tags

theorem plain_lawful (hn : fw.Notes P) : (plain fw).Lawful P Fits fun _ => True where
  conf s conf := by
    simp only [plain, nfmRuleSet]
    split_ifs <;> rfl
  set {s conf refs} hf h := by
    refine ⟨trivial, ?_⟩
    simp only [plain, nfmRuleSet]
    by_cases hen : conf.enable = true
    · have hg := getRefChain_counted fw (hf.short hen) h
      split_ifs <;> exact hg
    · rw [if_neg hen]
      exact h
  unset {s self refs} _ h := by
    have hd : Noted P (fun s => if self.applied then nfmOsfwDelRule fw s self.conf else (true, s)) := by
      split_ifs
      · exact nfmOsfwDelRule_noted hn self.conf
      · exact noted_true
    simp only [plain, nfmRuleUnset]
    cases hok : (if self.applied then nfmOsfwDelRule fw s.fw self.conf else (true, s.fw)).1 with
    | false => exact ⟨nofun, fun _ => hd.failed s.fw hok⟩
    | true => exact putRefs_counted hn self.conf h
  set_keeps s conf hs := by
    have hr := getRefChain_keeps hn.chainAdd conf s hs
    simp only [plain, nfmRuleSet]
    split_ifs
    · exact nfmOsfwRule_keeps hn.ruleAdd conf _ hr
    · exact hr
    · exact hs
  unset_keeps s self hs := by
    have hd : P (if self.applied then nfmOsfwDelRule fw s.fw self.conf else (true, s.fw)).2 := by
      split_ifs
      · exact (nfmOsfwDelRule_noted hn self.conf).keeps s.fw hs
      · exact hs
    simp only [plain, nfmRuleUnset]
    generalize (if self.applied then nfmOsfwDelRule fw s.fw self.conf else (true, s.fw)) = deleted at hd ⊢
    split_ifs
    · exact hd
    · exact putRefs_keeps (fun _ _ _ => (hn.chainDel _ _ _).keeps) self.conf _ hd

theorem template_lawful (hn : fw.Notes P) (tags : List Tag) :
    (template fw tags).Lawful P (fun conf => Fits conf ∧ isTemplate conf.rule = true) NfmTrule.Sound where
  conf s conf := by
    simp only [template, nfmTruleSet]
    split_ifs <;> rfl
  set {s conf refs} hf h := by
    simp only [template, nfmTruleSet]
    by_cases hen : conf.enable = true
    · have hg := getRefChain_counted fw (hf.1.short hen) h
      split_ifs
      · exact ⟨fun _ => hf.1.walkable hen hf.2, hg⟩
      · exact ⟨fun hne => absurd rfl hne, hg⟩
    · rw [if_neg hen]
      exact ⟨fun hne => absurd rfl hne, h⟩
  unset {s self refs} hso h := by
    simp only [template, nfmTruleUnset]
    cases hok : (nfmTruleUpdateTags fw tags self .delete s.fw).1 with
    | false =>
      exact ⟨nofun, fun _ => (nfmTruleUpdateTags_noted hn tags hso).failed s.fw hok⟩
    | true => exact putRefs_counted hn self.conf h
  set_keeps s conf hs := by
    have hr := getRefChain_keeps hn.chainAdd conf s hs
    simp only [template, nfmTruleSet]
    split_ifs
    · exact nfmTruleUpdateTags_keeps .add (nfmOsfwRule_keeps hn.ruleAdd) tags _ _ hr
    · exact hr
    · exact hs
  unset_keeps s self hs := by
    have hd := nfmTruleUpdateTags_keeps .delete (fun conf => (nfmOsfwDelRule_noted hn conf).keeps) tags self s.fw hs
    simp only [template, nfmTruleUnset]
    split_ifs
    · exact hd
    · exact putRefs_keeps (fun _ _ _ => (hn.chainDel _ _ _).keeps) self.conf _ hd

/-! ## The manager by its registries -/

def plainRow (n : Nfm σ) (name : Text) : Option Conf := (find NfmRule.name name n.rules).map NfmRule.conf

def templateRow (n : Nfm σ) (name : Text) : Option Conf := (find NfmTrule.name name n.trules).map NfmTrule.conf

def rowOf (n : Nfm σ) (kind : Bool) : Text → Option Conf := if kind then templateRow n else plainRow n

def newOf (fw : Firewall σ) (tags : List Tag) (n : Nfm σ) (kind : Bool) (conf : Conf) : Nfm σ :=
  if kind then (nfmTruleNew fw tags n conf).2 else (nfmRuleNew fw n conf).2

def delOf (fw : Firewall σ) (tags : List Tag) (n : Nfm σ) (kind : Bool) (conf : Conf) : Nfm σ :=
  if kind then (nfmTruleDel fw tags n conf).2 else (nfmRuleDel fw n conf).2

def modifyOf (fw : Firewall σ) (tags : List Tag) (n : Nfm σ) (kind changed : Bool) (conf : Conf) : Nfm σ :=
  if kind then (nfmTruleModify fw tags n changed conf).2 else (nfmRuleModify fw n changed conf).2

def withRules (n : Nfm σ) (r : Bool × Chains σ × List NfmRule) : Bool × Nfm σ :=
  (r.1, { n with chains := r.2.1, rules := r.2.2 })

def withTrules (n : Nfm σ) (r : Bool × Chains σ × List NfmTrule) : Bool × Nfm σ :=
  (r.1, { n with chains := r.2.1, trules := r.2.2 })

section Equations

variable (fw : Firewall σ) (tags : List Tag) (n : Nfm σ) (changed : Bool) (conf : Conf)

theorem nfmRuleNew_eq : nfmRuleNew fw n conf = withRules n ((plain fw).new n.chains n.rules conf) := by
  have hn : (plain fw).name = NfmRule.name := rfl
  simp only [nfmRuleNew, Registry.new, hn]
  split_ifs <;> rfl

theorem nfmRuleDel_eq : nfmRuleDel fw n conf = withRules n ((plain fw).del n.chains n.rules conf) := by
  have hn : (plain fw).name = NfmRule.name := rfl
  simp only [nfmRuleDel, Registry.del, hn]
  cases find NfmRule.name conf.name n.rules with
  | none => rfl
  | some self => cases hok : (nfmRuleUnset fw n.chains self).1 <;> simp [plain, withRules, hok]

theorem nfmRuleModify_eq :
    nfmRuleModify fw n changed conf = withRules n ((plain fw).modify n.chains n.rules changed conf) := by
  simp only [nfmRuleModify, Registry.modify, nfmRuleDel_eq, nfmRuleNew_eq, withRules]
  split_ifs <;> rfl

theorem nfmTruleNew_eq : nfmTruleNew fw tags n conf = withTrules n ((template fw tags).new n.chains n.trules conf) := by
  have hn : (template fw tags).name = NfmTrule.name := rfl
  simp only [nfmTruleNew, Registry.new, hn]
  split_ifs <;> rfl

theorem nfmTruleDel_eq : nfmTruleDel fw tags n conf = withTrules n ((template fw tags).del n.chains n.trules conf) := by
  have hn : (template fw tags).name = NfmTrule.name := rfl
  simp only [nfmTruleDel, Registry.del, hn]
  cases find NfmTrule.name conf.name n.trules with
  | none => rfl
  | some self => cases hok : (nfmTruleUnset fw tags n.chains self).1 <;> simp [template, withTrules, hok]

theorem nfmTruleModify_eq : nfmTruleModify fw tags n changed conf =
    withTrules n ((template fw tags).modify n.chains n.trules changed conf) := by
  simp only [nfmTruleModify, Registry.modify, nfmTruleDel_eq, nfmTruleNew_eq, withTrules]
  split_ifs <;> rfl

end Equations

def ruleKeys (n : Nfm σ) : List ChainKey := n.rules.flatMap fun self => keysOf self.conf self.flags

def truleKeys (n : Nfm σ) : List ChainKey := n.trules.flatMap fun self => keysOf self.conf self.flags

/-- The registries are in order, whichever rows they hold. -/
structure Inv (n : Nfm σ) : Prop where
  counted : Counted n.chains.chains (ruleKeys n ++ truleKeys n)
  rules : Keyed.Unique NfmRule.name n.rules
  trules : Keyed.Unique NfmTrule.name n.trules
  walkable : ∀ self ∈ n.trules, self.Sound

variable {n : Nfm σ} {tags : List Tag} {conf : Conf}

theorem Inv.plain (h : Inv n) : (Nfm.plain fw).Inv (fun _ => True) (truleKeys n) n.chains n.rules :=
  ⟨h.counted, h.rules, fun _ _ => trivial⟩

theorem Inv.template (h : Inv n) : (Nfm.template fw tags).Inv NfmTrule.Sound (ruleKeys n) n.chains n.trules :=
  ⟨h.counted.perm perm_append_comm, h.trules, h.walkable⟩

theorem Inv.ofPlain (h : Inv n) {r : Bool × Chains σ × List NfmRule}
    (hr : (Nfm.plain fw).Inv (fun _ => True) (truleKeys n) r.2.1 r.2.2) : Inv (withRules n r).2 :=
  ⟨hr.counted, hr.unique, h.trules, h.walkable⟩

theorem Inv.ofTemplate (h : Inv n) {r : Bool × Chains σ × List NfmTrule}
    (hr : (Nfm.template fw tags).Inv NfmTrule.Sound (ruleKeys n) r.2.1 r.2.2) : Inv (withTrules n r).2 :=
  ⟨hr.counted.perm perm_append_comm, h.rules, hr.unique, hr.sound⟩

/-- A row that goes with a registry. -/
def FitsKind (kind : Bool) (conf : Conf) : Prop := Fits conf ∧ isTemplate conf.rule = kind

variable {kind : Bool}

theorem rowOf_eq {n' : Nfm σ} {name : Text} {row : Option Conf}
    (hs : ∀ name', rowOf n' kind name' = if name' = name then row else rowOf n kind name')
    (ho : ∀ name', rowOf n' (!kind) name' = rowOf n (!kind) name') (kind' : Bool) (name' : Text) :
    rowOf n' kind' name' = if kind' = kind ∧ name' = name then row else rowOf n kind' name' := by
  by_cases hk : kind' = kind
  · subst hk
    simp [hs]
  · obtain rfl : kind' = !kind := by cases kind' <;> cases kind <;> simp_all
    simp [ho]

variable (hn : fw.Notes P)
include hn

theorem Inv.new (tags : List Tag) (h : Inv n) (hf : FitsKind kind conf) (hfr : rowOf n kind conf.name = none) :
    Inv (newOf fw tags n kind conf) ∧ ∀ kind' name, rowOf (newOf fw tags n kind conf) kind' name =
      if kind' = kind ∧ name = conf.name then some conf else rowOf n kind' name := by
  cases kind with
  | true =>
    obtain ⟨hin, hr⟩ := (template_lawful hn tags).new h.template hf hfr
    simp only [newOf, if_true, nfmTruleNew_eq]
    exact ⟨h.ofTemplate hin, rowOf_eq hr fun _ => rfl⟩
  | false =>
    obtain ⟨hin, hr⟩ := (plain_lawful hn).new h.plain hf.1 hfr
    simp only [newOf, Bool.false_eq_true, if_false, nfmRuleNew_eq]
    exact ⟨h.ofPlain hin, rowOf_eq hr fun _ => rfl⟩

theorem Inv.del (h : Inv n) (hh : rowOf n kind conf.name ≠ none) (hp : ¬ P (delOf fw tags n kind conf).chains.fw) :
    Inv (delOf fw tags n kind conf) ∧ ∀ kind' name, rowOf (delOf fw tags n kind conf) kind' name =
      if kind' = kind ∧ name = conf.name then none else rowOf n kind' name := by
  cases kind with
  | true =>
    simp only [delOf, if_true, nfmTruleDel_eq] at hp ⊢
    obtain ⟨-, hin, hr⟩ := (template_lawful hn tags).del h.template hh hp
    exact ⟨h.ofTemplate hin, rowOf_eq hr fun _ => rfl⟩
  | false =>
    simp only [delOf, Bool.false_eq_true, if_false, nfmRuleDel_eq] at hp ⊢
    obtain ⟨-, hin, hr⟩ := (plain_lawful hn).del h.plain hh hp
    exact ⟨h.ofPlain hin, rowOf_eq hr fun _ => rfl⟩

theorem Inv.modify (h : Inv n) (hf : FitsKind kind conf)
    (hh : rowOf n kind conf.name ≠ none) (hp : ¬ P (modifyOf fw tags n kind true conf).chains.fw) :
    Inv (modifyOf fw tags n kind true conf) ∧ ∀ kind' name, rowOf (modifyOf fw tags n kind true conf) kind' name =
      if kind' = kind ∧ name = conf.name then some conf else rowOf n kind' name := by
  cases kind with
  | true =>
    simp only [modifyOf, if_true, nfmTruleModify_eq] at hp ⊢
    obtain ⟨hin, hr⟩ := (template_lawful hn tags).modify h.template hf hh hp
    exact ⟨h.ofTemplate hin, rowOf_eq hr fun _ => rfl⟩
  | false =>
    simp only [modifyOf, Bool.false_eq_true, if_false, nfmRuleModify_eq] at hp ⊢
    obtain ⟨hin, hr⟩ := (plain_lawful hn).modify h.plain hf.1 hh hp
    exact ⟨h.ofPlain hin, rowOf_eq hr fun _ => rfl⟩

theorem callbackNetfilter_keeps (tags : List Tag) (n : Nfm σ) (e : Event) (hp : P n.chains.fw) :
    P (callbackNetfilter fw tags n e).chains.fw := by
  have hpl := plain_lawful hn
  have ht := template_lawful hn tags
  cases e <;> rw [callbackNetfilter] <;> split_ifs <;>
    simp [nfmRuleNew_eq, nfmRuleDel_eq, nfmRuleModify_eq, nfmTruleNew_eq, nfmTruleDel_eq, nfmTruleModify_eq]
  · exact ht.new_keeps _ hp
  · exact hpl.new_keeps _ hp
  · exact ht.modify_keeps _ _ hp
  · exact hpl.modify_keeps _ _ hp
  · exact ht.del_keeps _ hp
  · exact hpl.del_keeps _ hp

end OpenSync.Nfm
