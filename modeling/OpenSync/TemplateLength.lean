import OpenSync.TemplateLanguage

/-!
# The size of an expanded rule

The buffer for an expanded rule is measured by taking each tag off the rule once and putting its value there. What is
copied depends on how often a tag is referred to. The difference is counted here: each reference beyond the first one
adds the growth of its tag, a tag that is never reached takes it away, and signs are room to spare.
-/

namespace OpenSync.Template
open List Option Piece

open Tags

variable {tv : List Binding} {ps : List Piece}

/-- The references to a tag go, its value comes. -/
def lenStep (len : Int) (b : Binding) : Int := len - (b.name.length + 3) + b.value.length

/-- `om_template_rule_len` and `nfm_trule_calculate_len`. A negative length is more than can be allocated. -/
def ruleLen (rule : Text) (tv : List Binding) : Int :=
  tv.foldl lenStep rule.length + 1

/-- The bytes of the buffer that the expansion writes, the last one for the end of the text. -/
def bytesWritten (rule : Text) (tv : List Binding) : Nat := (ruleExpand tv rule).copied.length + 1

/-- By how much a value is longer than the reference it replaces. -/
def growth (b : Binding) : Int := b.value.length - b.name.length - 3

variable (rule : Text)

theorem ruleLen_eq (tv : List Binding) : ruleLen rule tv = rule.length + (tv.map growth).sum + 1 := by
  have hf : ∀ len : Int, tv.foldl lenStep len = len + (tv.map growth).sum := by
    induction tv with
    | nil => simp
    | cons b tv ih =>
      intro len
      rw [foldl_cons, ih, map_cons, sum_cons, growth, lenStep]
      ring
  rw [ruleLen, hf]

/-! ## Sums over references -/

def growthOf (tv : List Binding) (key : Text × Bool) : Int :=
  ((tv.find? fun b => b.key = key).map growth).getD 0

section

variable (hn : (tv.map Binding.key).Nodup)
include hn

theorem sum_single {b : Binding} (hb : b ∈ tv) :
    (tv.map fun b' => if b'.key = b.key then growth b' else 0).sum = growth b := by
  induction tv with
  | nil => exact absurd hb not_mem_nil
  | cons b' tv ih =>
    rw [map_cons, nodup_cons] at hn
    rw [map_cons, sum_cons]
    rcases mem_cons.mp hb with rfl | hb
    · have hr : (tv.map fun b' => if b'.key = b.key then growth b' else 0) = tv.map fun _ => (0 : Int) := by
        refine map_congr_left fun b' hb' => if_neg fun heq => hn.1 ?_
        exact heq ▸ mem_map_of_mem hb'
      rw [if_pos rfl, hr]
      simp
    · have hne : b'.key ≠ b.key := fun heq => hn.1 (heq ▸ mem_map_of_mem hb)
      rw [if_neg hne, ih hn.2 hb, zero_add]

theorem growthOf_eq {b : Binding} (hb : b ∈ tv) : growthOf tv b.key = growth b := by
  have hf : tv.find? (fun b' => b'.key = b.key) = some b := Keyed.find_of_mem hn hb
  rw [growthOf, hf]
  rfl

theorem sum_growthOf {keys : List (Text × Bool)} (hk : ∀ key ∈ keys, key ∈ tv.map Binding.key) :
    (keys.map (growthOf tv)).sum = (tv.map fun b => (keys.count b.key : Int) * growth b).sum := by
  induction keys with
  | nil => simp
  | cons key keys ih =>
    obtain ⟨b, hb, rfl⟩ := mem_map.mp (hk key mem_cons_self)
    have hs : (fun b' : Binding => (((b.key :: keys).count b'.key : Nat) : Int) * growth b') =
        fun b' => (if b'.key = b.key then growth b' else 0) + (keys.count b'.key : Int) * growth b' := by
      funext b'
      rw [count_cons]
      by_cases heq : b'.key = b.key
      · simp [heq]
        ring
      · have hne : (b.key == b'.key) = false := beq_eq_false_iff_ne.mpr (Ne.symm heq)
        simp [heq, hne]
    rw [map_cons, sum_cons, hs, sum_map_add, sum_single hn hb, growthOf_eq hn hb, ih (forall_mem_cons.mp hk).2]

end

/-! ## What is copied -/

/-- The expansion gets past the piece. -/
def Piece.passed (tv : List Binding) : Piece → Bool
  | .char _ => true
  | .ref _ group _ name => (tdataGetValue tv name group).isSome
  | .unclosed _ => false

def reached (tv : List Binding) (rule : Text) : List Piece := (pieces rule).takeWhile (Piece.passed tv)

def unreached (tv : List Binding) (rule : Text) : List Piece := (pieces rule).dropWhile (Piece.passed tv)

def textLength (ps : List Piece) : Nat := (ps.flatMap Piece.text).length

def Piece.signLength : Piece → Nat
  | .ref _ _ sign _ => sign.length
  | _ => 0

def signs (ps : List Piece) : Nat := (ps.map Piece.signLength).sum

theorem copied_eq (tv : List Binding) (ps : List Piece) :
    (expandPieces tv ps).copied = substitute tv (ps.takeWhile (Piece.passed tv)) := by
  induction ps with
  | nil => rfl
  | cons p ps ih =>
    cases p with
    | char c =>
      rw [takeWhile_cons_of_pos rfl, expandPieces, Expansion.after, ih]
      rfl
    | unclosed rest =>
      rfl
    | ref place group sign name =>
      cases hv : tdataGetValue tv name group with
      | none =>
        rw [takeWhile_cons_of_neg (by simp [passed, hv]), expandPieces, hv]
        rfl
      | some v =>
        rw [takeWhile_cons_of_pos (by simp [passed, hv]), expandPieces, hv]
        simp [Expansion.after, Expansion.asking, substitute, value, hv, ih]

theorem length_value_of_passed {p : Piece} (hn : (tv.map Binding.key).Nodup) (h : p.passed tv = true) :
    ((p.value tv).length : Int) = p.text.length - p.signLength + (p.key?.map (growthOf tv)).getD 0 := by
  cases p with
  | char c => simp [value, text, signLength, key?]
  | unclosed rest => simp [passed] at h
  | ref place group sign name =>
    obtain ⟨b, hb, hk⟩ := mem_map.mp (tdataGetValue_isSome_iff.mp h)
    have hf : tv.find? (fun b' => b'.name = name && b'.group = group) = some b := by
      have hf' : tv.find? (fun b' => b'.key = b.key) = some b := Keyed.find_of_mem hn hb
      rw [← hf', hk]
      congr 1
      funext b'
      simp [Binding.key, Prod.ext_iff]
    have hg : growthOf tv (name, group) = growth b := hk ▸ growthOf_eq hn hb
    obtain ⟨rfl, rfl⟩ := Prod.mk.inj hk
    simp only [value, tdataGetValue, hf, map_some, getD_some, text, signLength,
      key?, hg, growth, length_cons, length_append, length_nil]
    push_cast
    ring

theorem length_substitute (hn : (tv.map Binding.key).Nodup) (h : ∀ p ∈ ps, p.passed tv = true) :
    ((substitute tv ps).length : Int) = textLength ps - signs ps + ((keysOf ps).map (growthOf tv)).sum := by
  induction ps with
  | nil => rfl
  | cons p ps ih =>
    have hp := length_value_of_passed hn (h p mem_cons_self)
    have hps := ih (forall_mem_cons.mp h).2
    have hk : ((keysOf (p :: ps)).map (growthOf tv)).sum =
        (p.key?.map (growthOf tv)).getD 0 + ((keysOf ps).map (growthOf tv)).sum := by
      rw [keysOf, filterMap_cons]
      cases p.key? <;> simp [keysOf]
    rw [hk, substitute, textLength, signs, flatMap_cons, flatMap_cons, map_cons, sum_cons, length_append, length_append]
    rw [substitute, textLength, signs] at hps
    simp only [Nat.cast_add]
    linarith

theorem textLength_reached (tv : List Binding) (rule : Text) :
    textLength (reached tv rule) + textLength (unreached tv rule) = rule.length := by
  have hs := congrArg (length ∘ flatMap text) (takeWhile_append_dropWhile (p := passed tv) (l := pieces rule))
  simp only [Function.comp, flatMap_append, length_append, pieces_text] at hs
  exact hs

theorem keysOf_reached {key : Text × Bool} (h : key ∈ keysOf (reached tv rule)) :
    key ∈ tv.map Binding.key := by
  obtain ⟨p, hp, hk⟩ := mem_filterMap.mp h
  have hpa := mem_takeWhile_imp hp
  cases p with
  | ref place group sign name =>
    obtain rfl := some.inj hk
    exact tdataGetValue_isSome_iff.mp hpa
  | char | unclosed => exact nomatch hk

/-! ## Room -/

def uses (rule : Text) (tv : List Binding) (b : Binding) : Nat := (keysOf (reached tv rule)).count b.key

/-- What the references beyond the first one of each tag add is made up for by signs and by text that is not reached. -/
def HasRoom (rule : Text) (tv : List Binding) : Prop :=
  (tv.map fun b => ((uses rule tv b : Int) - 1) * growth b).sum ≤
    signs (reached tv rule) + textLength (unreached tv rule)

theorem bytesWritten_eq (hn : (tv.map Binding.key).Nodup) :
    (bytesWritten rule tv : Int) + signs (reached tv rule) + textLength (unreached tv rule) =
      ruleLen rule tv + (tv.map fun b => ((uses rule tv b : Int) - 1) * growth b).sum := by
  have hs := length_substitute hn fun p hp => mem_takeWhile_imp (l := pieces rule) hp
  have hsu := sum_growthOf hn fun key hk => keysOf_reached rule hk
  have hl := textLength_reached tv rule
  have hd : (tv.map fun b => ((uses rule tv b : Int) - 1) * growth b).sum + (tv.map growth).sum =
      (tv.map fun b => (uses rule tv b : Int) * growth b).sum := by
    rw [← sum_map_add]
    congr 2
    funext b
    ring
  have hb : (bytesWritten rule tv : Int) = (substitute tv (reached tv rule)).length + 1 := by
    rw [bytesWritten, ruleExpand_eq, copied_eq]
    rfl
  have hs' : ((substitute tv (reached tv rule)).length : Int) = textLength (reached tv rule) - signs (reached tv rule) +
      ((keysOf (reached tv rule)).map (growthOf tv)).sum := hs
  have hsu' : ((keysOf (reached tv rule)).map (growthOf tv)).sum = (tv.map fun b => (uses rule tv b : Int) * growth b).sum :=
    hsu
  rw [hb, hs', hsu', ruleLen_eq]
  linarith

/-- With values for the references that were detected, the expansion stays within the buffer on exactly these rules; a
negative length is refused before anything is written. -/
theorem no_overrun_iff {rule : Text} {tv : List Binding} (hkeys : tv.map Binding.key = (detectRefs rule).map refKey) :
    (0 ≤ ruleLen rule tv → (bytesWritten rule tv : Int) ≤ ruleLen rule tv) ↔
      HasRoom rule tv ∨ rule.length + (tv.map growth).sum + 1 < 0 := by
  have hn : (tv.map Binding.key).Nodup := hkeys ▸ detectRefs_oneRefEach rule
  have hb := bytesWritten_eq rule hn
  rw [← ruleLen_eq, HasRoom]
  constructor
  · intro h
    by_cases hne : ruleLen rule tv < 0
    · exact .inr hne
    · have hle := h (not_lt.mp hne)
      exact .inl (by linarith)
  · rintro (hr | hne) hp
    · linarith
    · exact absurd hp (not_le.mpr hne)

def onceRule : Text := "ip,nw_src=$\x7b@a\x7d,nw_dst=$[b]".toList

def onceValues : List Binding := [⟨['a'], false, "192.168.1.1".toList⟩, ⟨['b'], true, "10.0.0.1".toList⟩]

theorem onceRule_fits : HasRoom onceRule onceValues ∧ (0 ≤ ruleLen onceRule onceValues →
    (bytesWritten onceRule onceValues : Int) ≤ ruleLen onceRule onceValues) := by
  have hr : HasRoom onceRule onceValues := by
    unfold HasRoom
    decide +kernel
  exact ⟨hr, (no_overrun_iff (by decide +kernel)).mpr (.inl hr)⟩

/-- The same tag twice, and a tag inside a group. -/
def twiceRule : Text := "$\x7ba\x7d$\x7ba\x7d".toList

theorem twice_nested_overrun :
    (([⟨['a'], false, "192.168.1.1".toList⟩] : List Binding).map Binding.key = (detectRefs twiceRule).map refKey ∧
      ruleLen twiceRule [⟨['a'], false, "192.168.1.1".toList⟩] = 16 ∧
      bytesWritten twiceRule [⟨['a'], false, "192.168.1.1".toList⟩] = 23) ∧
    ([⟨"a$\x7bb\x7d".toList, true, ['v', 'v', 'v']⟩, ⟨['b'], false, ['v']⟩] : List Binding).map Binding.key =
        (detectRefs nestedRule).map refKey ∧
      ruleLen nestedRule [⟨"a$\x7bb\x7d".toList, true, ['v', 'v', 'v']⟩, ⟨['b'], false, ['v']⟩] = 1 ∧
      bytesWritten nestedRule [⟨"a$\x7bb\x7d".toList, true, ['v', 'v', 'v']⟩, ⟨['b'], false, ['v']⟩] = 4 := by
  decide +kernel

end OpenSync.Template
