import OpenSync.OmRangeLoop

/-!
# Rules for all choices of values

Apart from two cases, the rules that `om_range_generate_range_rules` generates from a rule with ranges are those for all
choices of a value for each range: where a range of the fourth version ends with the last address nothing is ever
returned, and a range of the sixth version that ends before it starts still has one value.
-/

namespace OpenSync.OmRange
open List Piece Product

open Search
open Tags (Text)

variable (lib : Libc)

def Piece.range? : Piece → Option Range
  | .text _ => none
  | .range f start stop => some ⟨f, start, stop⟩

def rangesOf (ps : List Piece) (f : Field) : List Range :=
  (ps.filterMap Piece.range?).filter fun r => decide (r.field = f)

def ranges (ps : List Piece) : List Range := Field.order.flatMap (rangesOf ps)

def ruleWith (t : Text) : List Range → List Text → Text
  | r :: rs, v :: vs => ruleWith (t ++ ',' :: r.field.name ++ v) rs vs
  | _, _ => t

def expansions (ps : List Piece) : List Text :=
  (Product.choose (values lib) (ranges ps)).map (ruleWith (base ps) (ranges ps))

/-- What comes of a rule when ranges give way to values. -/
inductive Expands : List Piece → List Piece → Prop
  | refl (ps : List Piece) : Expands ps ps
  | step {qs rs ps : List Piece} {f : Field} {start stop v : Text}
      (htype : getRangeType (render (qs ++ .range f start stop :: rs)) = some f)
      (hv : v ∈ produced lib ⟨f, start, stop⟩) (h : Expands (qs ++ rs ++ [.text (',' :: f.name ++ v)]) ps) :
      Expands (qs ++ .range f start stop :: rs) ps

def Fits (ps : List Piece) : Prop := ∀ ps', Expands lib ps ps' → (render ps').length < ruleSize

def Field.isPort : Field → Bool
  | .portSrc | .portDst => true
  | _ => false

/-- A port has sixteen bits. -/
def Range.ValidPorts (r : Range) : Prop :=
  r.field.isPort = true → (0 ≤ r.low lib ∧ r.low lib ≤ 65535) ∧ 0 ≤ r.high lib ∧ r.high lib ≤ 65535

/-- Each field has at most one range, ports are ports, and texts fit the buffer. -/
structure Valid (ps : List Piece) : Prop where
  wellFormed : WellFormed ps
  ports : ∀ r ∈ ranges ps, r.ValidPorts lib
  fits : Fits lib ps

/-- A range of ports or of addresses of the fourth version that ends before it starts. -/
def Range.Void (r : Range) : Prop := r.field.isIpv6 = false ∧ r.Reversed lib

/-- A range that ends with the last address of the fourth version comes behind one without values, and where a range of
the sixth version ends before it starts, so does another one. -/
structure Regular (rs : List Range) : Prop where
  ending : ∀ rs₁ r rs₂, rs = rs₁ ++ r :: rs₂ → r.Unending lib → ∃ r' ∈ rs₁, r'.Void lib
  ordered : ∀ r ∈ rs, r.field.isIpv6 = true → r.Reversed lib → ∃ r' ∈ rs, r'.Void lib

variable {lib} {f : Field} {ps qs rs : List Piece} {start stop t v : Text}

/-! ## Texts of values -/

theorem decimal_plain (n : Nat) : '$' ∉ decimal n := by
  intro h
  rw [decimal, Nat.toList_repr] at h
  exact absurd (Nat.isDigit_of_mem_toDigits (by decide) (by decide) h) (by decide)

theorem longToDotIp_plain (ip : BitVec 32) : '$' ∉ longToDotIp ip := by
  simp [longToDotIp, decimal_plain]

theorem toString_plain (i : Int) : '$' ∉ (toString i).toList := by
  cases i with
  | ofNat n => exact decimal_plain n
  | negSucc n =>
    rw [show toString (Int.negSucc n) = "-" ++ Nat.repr (n + 1) from rfl, String.toList_append]
    have hp := decimal_plain (n + 1)
    rw [mem_append, not_or]
    exact ⟨by decide, hp⟩

theorem print_plain (f : Field) (i : Int) : '$' ∉ f.print lib i := by
  cases f with
  | ipv4Src | ipv4Dst => exact longToDotIp_plain _
  | ipv6Src | ipv6Dst => exact lib.plain_inetNtop _
  | portSrc | portDst => exact toString_plain i

theorem produced_plain {r : Range} (h : v ∈ produced lib r) : '$' ∉ v := by
  rw [produced] at h
  split at h
  · rw [mem_singleton.mp h]
    exact print_plain _ _
  · obtain ⟨i, -, rfl⟩ := mem_map.mp h
    exact print_plain _ _

/-! ## The next rule -/

theorem WellFormed.next (h : WellFormed (qs ++ .range f start stop :: rs)) (hv : '$' ∉ v) :
    WellFormed (qs ++ rs ++ [.text (',' :: f.name ++ v)]) where
  nodup := by
    have hn := h.nodup
    rw [fields_append, fields_range] at hn
    rw [fields_append, fields_append, show fields [text (',' :: f.name ++ v)] = [] from rfl, append_nil]
    exact hn.sublist (Sublist.append_left (sublist_cons_self f _) _)
  ends := by
    intro p hp
    rw [append_assoc, mem_append, mem_append] at hp
    rcases hp with hp | hp | hp
    · exact h.ends p (mem_append_left _ hp)
    · exact h.ends p (mem_append_right _ (mem_cons_of_mem _ hp))
    · rw [mem_singleton.mp hp]
      exact trivial
  unmarked := by
    have hb : Unmarked '$' '<' (base (qs ++ rs)) := by
      have hb := h.unmarked
      rw [base_append] at hb ⊢
      exact hb
    rw [base_append]
    exact hb.append_cons (by decide) (unmarked_of_notMem (by simp [(name_plain f).1, hv]))

theorem base_next (t : Text) : base (qs ++ rs ++ [.text t]) = base (qs ++ .range f start stop :: rs) ++ t := by
  simp [base, plain]

theorem mem_fields_iff : f ∈ fields ps ↔ ∃ r ∈ ps.filterMap Piece.range?, r.field = f := by
  simp only [fields, mem_filterMap]
  constructor
  · rintro ⟨p, hp, hf⟩
    cases p with
    | text => cases hf
    | range g start stop =>
      cases hf
      exact ⟨_, ⟨_, hp, rfl⟩, rfl⟩
  · rintro ⟨r, ⟨p, hp, hr⟩, rfl⟩
    cases p with
    | text => cases hr
    | range g start stop =>
      cases hr
      exact ⟨_, hp, rfl⟩

theorem rangesOf_append (ps qs : List Piece) (f : Field) : rangesOf (ps ++ qs) f = rangesOf ps f ++ rangesOf qs f := by
  rw [rangesOf, filterMap_append, filter_append]
  rfl

theorem rangesOf_text (t : Text) (f : Field) : rangesOf [.text t] f = [] := rfl

theorem rangesOf_range_self (f : Field) (start stop : Text) (ps : List Piece) :
    rangesOf (.range f start stop :: ps) f = ⟨f, start, stop⟩ :: rangesOf ps f := by
  simp [rangesOf, range?]

theorem rangesOf_range_ne {f g : Field} (h : f ≠ g) (start stop : Text) (ps : List Piece) :
    rangesOf (.range f start stop :: ps) g = rangesOf ps g := by
  simp [rangesOf, range?, h]

theorem rangesOf_eq_nil (h : f ∉ fields ps) : rangesOf ps f = [] := by
  apply filter_eq_nil_iff.mpr
  intro r hr hf
  exact h (mem_fields_iff.mpr ⟨r, hr, of_decide_eq_true hf⟩)

theorem WellFormed.notMem (h : WellFormed (qs ++ .range f start stop :: rs)) : f ∉ fields qs ∧ f ∉ fields rs := by
  have hn := h.nodup
  rw [fields_append, fields_range] at hn
  obtain ⟨-, hrs, hd⟩ := nodup_append.mp hn
  exact ⟨fun hm => hd f hm f mem_cons_self rfl, (nodup_cons.mp hrs).1⟩

theorem ranges_next (h : WellFormed (qs ++ .range f start stop :: rs))
    (hf : Field.order.find? (fun g => decide (g ∈ fields (qs ++ .range f start stop :: rs))) = some f) (t : Text) :
    ranges (qs ++ .range f start stop :: rs) = ⟨f, start, stop⟩ :: ranges (qs ++ rs ++ [.text t]) := by
  obtain ⟨-, before, after, ho, hb⟩ := find?_eq_some_iff_append.mp hf
  obtain ⟨hqs, hrs⟩ := h.notMem
  have ha : f ∉ after := by
    have hno : Field.order.Nodup := by decide
    rw [ho] at hno
    exact (nodup_cons.mp (nodup_append.mp hno).2.1).1
  have hot {g : Field} (hne : f ≠ g) :
      rangesOf (qs ++ .range f start stop :: rs) g = rangesOf (qs ++ rs ++ [.text t]) g := by
    rw [rangesOf_append, rangesOf_range_ne hne, rangesOf_append, rangesOf_append, rangesOf_text, append_nil]
  have hn : ∀ g ∈ before, rangesOf (qs ++ .range f start stop :: rs) g = [] := fun g hg =>
    rangesOf_eq_nil (by simpa using hb g hg)
  have hn' : ∀ g ∈ before, rangesOf (qs ++ rs ++ [.text t]) g = [] := fun g hg => by
    have hne : f ≠ g := fun heq => by
      have hnot := hb g hg
      rw [← heq] at hnot
      simp [fields_append, fields_range] at hnot
    rw [← hot hne, hn g hg]
  have hs : rangesOf (qs ++ .range f start stop :: rs) f = [⟨f, start, stop⟩] := by
    rw [rangesOf_append, rangesOf_range_self, rangesOf_eq_nil hqs, rangesOf_eq_nil hrs, nil_append]
  have hs' : rangesOf (qs ++ rs ++ [.text t]) f = [] := by
    rw [rangesOf_append, rangesOf_append, rangesOf_eq_nil hqs, rangesOf_eq_nil hrs, rangesOf_text]
    rfl
  rw [ranges, ranges, ho, flatMap_append, flatMap_append, flatMap_eq_nil_iff.mpr hn,
    flatMap_eq_nil_iff.mpr hn', flatMap_cons, flatMap_cons, hs, hs',
    flatMap_congr fun g hg => hot fun heq => ha (heq ▸ hg)]
  rfl

theorem first_range (h : WellFormed ps) : (fields ps = [] ∧ ranges ps = []) ∨
    ∃ qs f start stop rs, ps = qs ++ .range f start stop :: rs ∧ getRangeType (render ps) = some f ∧ f ∉ fields qs ∧
      ∀ t, ranges ps = ⟨f, start, stop⟩ :: ranges (qs ++ rs ++ [.text t]) := by
  cases hfi : Field.order.find? (fun g => decide (g ∈ fields ps)) with
  | none =>
    have hn : ∀ g, g ∉ fields ps := fun g => by
      have ho : g ∈ Field.order := by cases g <;> decide
      simpa using find?_eq_none.mp hfi g ho
    exact .inl ⟨eq_nil_iff_forall_not_mem.mpr hn, flatMap_eq_nil_iff.mpr fun g _ => rangesOf_eq_nil (hn g)⟩
  | some f =>
    have hf : f ∈ fields ps := by simpa using find?_some hfi
    obtain ⟨qs, start, stop, rs, rfl, hqs⟩ := exists_range hf
    exact .inr ⟨qs, f, start, stop, rs, rfl, (getRangeType_eq h).trans hfi, hqs, ranges_next h hfi⟩

/-! ## Recursion -/

def Diverges (lib : Libc) : List Range → Prop
  | [] => False
  | r :: rs => r.Unending lib ∨ produced lib r ≠ [] ∧ Diverges lib rs

def generated (lib : Libc) (rs : List Range) (t : Text) : List Text :=
  (Product.choose (produced lib) rs).map (ruleWith t rs)

theorem generated_cons (r : Range) (rs : List Range) (t : Text) : generated lib (r :: rs) t =
    (produced lib r).flatMap fun v => generated lib rs (t ++ ',' :: r.field.name ++ v) := by
  rw [generated, Product.choose, map_flatMap]
  simp only [map_map]
  rfl

theorem Fits.length (h : Fits lib ps) : (render ps).length < ruleSize := h ps (.refl ps)

theorem Fits.next (h : Fits lib (qs ++ .range f start stop :: rs))
    (ht : getRangeType (render (qs ++ .range f start stop :: rs)) = some f)
    (hv : v ∈ produced lib ⟨f, start, stop⟩) : Fits lib (qs ++ rs ++ [.text (',' :: f.name ++ v)]) :=
  fun ps' hps' => h ps' (.step ht hv hps')

theorem withValue_eq (h : Fits lib (qs ++ rs ++ [.text (',' :: f.name ++ v)])) :
    withValue (render (qs ++ rs)) f v = render (qs ++ rs ++ [.text (',' :: f.name ++ v)]) := by
  have hr : render (qs ++ rs ++ [.text (',' :: f.name ++ v)]) = render (qs ++ rs) ++ ',' :: f.name ++ v := by
    simp [render, Piece.render]
  rw [withValue, ← hr, strscpy_eq h.length]

theorem recurse_plain (h : WellFormed ps) (hf : fields ps = []) (fuel : Nat) :
    Parses (omRangeRecurseParse lib (fuel + 1)) (render ps) [base ps] := by
  intro rules
  rw [omRangeRecurseParse, isRangeSpecified_eq h, hf, render_eq_base hf]
  rfl

theorem recurse_range (h : WellFormed (qs ++ .range f start stop :: rs))
    (hl : (render (qs ++ .range f start stop :: rs)).length < ruleSize)
    (ht : getRangeType (render (qs ++ .range f start stop :: rs)) = some f) (fuel : Nat) (rules : List Text) :
    omRangeRecurseParse lib (fuel + 1) (render (qs ++ .range f start stop :: rs)) rules =
      generate lib (omRangeRecurseParse lib fuel) fuel f start stop (render (qs ++ rs)) rules := by
  have hs : isRangeSpecified (render (qs ++ .range f start stop :: rs)) = true := by
    rw [isRangeSpecified_eq h, fields_append, fields_range]
    simp
  rw [omRangeRecurseParse, hs, if_neg (by decide), ht]
  simp [extract_eq h h.notMem.1 hl]

variable {R : List Range}

theorem recurse_stuck (hR : ranges ps = R) (h : WellFormed ps) (hf : Fits lib ps)
    (hd : Diverges lib R) (fuel : Nat) : Stuck (omRangeRecurseParse lib fuel) (render ps) := by
  induction R generalizing ps fuel with
  | nil => exact hd.elim
  | cons r R ih =>
    intro rules
    rcases first_range h with ⟨-, hni⟩ | ⟨qs, f, start, stop, rs, rfl, ht, -, hn⟩
    · rw [hni] at hR
      cases hR
    cases fuel with
    | zero => rfl
    | succ fuel =>
      rw [hn []] at hR
      obtain ⟨rfl, -⟩ := cons.inj hR
      rw [recurse_range h hf.length ht]
      rcases hd with hu | ⟨hne, hr⟩
      · exact generate_unending fuel rules hu
      · apply generate_stuck fuel rules hne
        intro v hv
        rw [withValue_eq (hf.next ht hv)]
        refine ih ?_ (h.next (produced_plain hv)) (hf.next ht hv) hr fuel
        exact (cons.inj ((hn _).symm.trans ((hn []).trans hR))).2

theorem exists_fuel {P : Nat → Text → Prop} {vs : List Text} (h : ∀ v ∈ vs, ∃ n, ∀ fuel, n ≤ fuel → P fuel v) :
    ∃ n, ∀ fuel, n ≤ fuel → ∀ v ∈ vs, P fuel v := by
  induction vs with
  | nil => exact ⟨0, fun _ _ v hv => absurd hv not_mem_nil⟩
  | cons v vs ih =>
    obtain ⟨n, hn⟩ := h v mem_cons_self
    obtain ⟨m, hm⟩ := ih (forall_mem_cons.mp h).2
    refine ⟨max n m, fun fuel hf w hw => ?_⟩
    rcases mem_cons.mp hw with rfl | hw
    · exact hn fuel (le_trans (le_max_left _ _) hf)
    · exact hm fuel (le_trans (le_max_right _ _) hf) w hw

theorem recurse_parses (hR : ranges ps = R) (h : WellFormed ps) (hfi : Fits lib ps) (hd : ¬ Diverges lib R) :
    ∃ n, ∀ fuel, n ≤ fuel → Parses (omRangeRecurseParse lib fuel) (render ps) (generated lib R (base ps)) := by
  induction R generalizing ps with
  | nil =>
    rcases first_range h with ⟨hfie, -⟩ | ⟨qs, f, start, stop, rs, rfl, -, -, hne⟩
    · refine ⟨1, fun fuel hf => ?_⟩
      obtain ⟨fuel, rfl⟩ := Nat.exists_eq_succ_of_ne_zero (Nat.ne_zero_of_lt hf)
      exact recurse_plain h hfie fuel
    · rw [hne []] at hR
      cases hR
  | cons r R ih =>
    rcases first_range h with ⟨-, hni⟩ | ⟨qs, f, start, stop, rs, rfl, ht, -, hne⟩
    · rw [hni] at hR
      cases hR
    obtain ⟨rfl, -⟩ := cons.inj ((hne []).symm.trans hR)
    rw [Diverges, not_or, not_and] at hd
    -- what each value comes to, with one fuel for all of them
    have hva : ∀ v ∈ produced lib ⟨f, start, stop⟩, ∃ n, ∀ fuel, n ≤ fuel →
        Parses (omRangeRecurseParse lib fuel) (withValue (render (qs ++ rs)) f v)
          (generated lib R (base (qs ++ .range f start stop :: rs) ++ ',' :: f.name ++ v)) := by
      intro v hv
      have hR' := (cons.inj ((hne (',' :: f.name ++ v)).symm.trans hR)).2
      have hb : base (qs ++ .range f start stop :: rs) ++ ',' :: f.name ++ v =
          base (qs ++ rs ++ [.text (',' :: f.name ++ v)]) := (append_assoc _ _ _).trans (base_next _).symm
      rw [withValue_eq (hfi.next ht hv), hb]
      exact ih hR' (h.next (produced_plain hv)) (hfi.next ht hv) (hd.2 (ne_nil_of_mem hv))
    obtain ⟨n, hn⟩ := exists_fuel hva
    refine ⟨max n (((⟨f, start, stop⟩ : Range).high lib + 1 - (⟨f, start, stop⟩ : Range).low lib).toNat + 1) + 1,
      fun fuel hf rules => ?_⟩
    obtain ⟨fuel, rfl⟩ := Nat.exists_eq_succ_of_ne_zero (Nat.ne_zero_of_lt hf)
    rw [recurse_range h hfi.length ht, generated_cons]
    have hle := Nat.le_of_succ_le_succ hf
    exact generate_eq hd.1 (lt_of_lt_of_le (Nat.lt_succ_self _) (le_trans (le_max_right _ _) hle))
      (hn fuel (le_trans (le_max_left _ _) hle))

/-! ## All rules -/

/-- The function returns with these rules, started with none. -/
def Generates (lib : Libc) (rule : Text) (rules : List Text) : Prop :=
  ∃ n, ∀ fuel, n ≤ fuel → omRangeGenerateRangeRules lib fuel rule [] = some (true, rules)

theorem generates_generated (h : Valid lib ps) (hd : ¬ Diverges lib (ranges ps)) :
    Generates lib (render ps) (generated lib (ranges ps) (base ps)).reverse := by
  obtain ⟨n, hn⟩ := recurse_parses rfl h.wellFormed h.fits hd
  refine ⟨n, fun fuel hf => ?_⟩
  have hp := hn fuel hf []
  rw [append_nil] at hp
  rw [omRangeGenerateRangeRules]
  split
  · exact hp
  · rename_i hsp
    have hs := hn (fuel + 1) (Nat.le_succ_of_le hf) []
    rw [omRangeRecurseParse, if_pos (by simpa using hsp), append_nil] at hs
    exact hs

theorem not_generates (h : Valid lib ps) (hd : Diverges lib (ranges ps)) (rules : List Text) :
    ¬ Generates lib (render ps) rules := by
  rintro ⟨n, hn⟩
  have hs := recurse_stuck rfl h.wellFormed h.fits hd n []
  have hr := hn n le_rfl
  rw [omRangeGenerateRangeRules] at hr
  split at hr
  · rw [hs] at hr
    cases hr
  -- a rule that has no ranges has none that goes round
  rename_i hsp
  rcases first_range h.wellFormed with ⟨-, hni⟩ | ⟨qs, f, start, stop, rs, rfl, -⟩
  · rw [hni] at hd
    exact hd
  · apply hsp
    rw [isRangeSpecified_eq h.wellFormed, fields_append, fields_range]
    simp

theorem Generates.unique {rule : Text} {rules rules' : List Text} (h : Generates lib rule rules)
    (h' : Generates lib rule rules') : rules = rules' := by
  obtain ⟨n, hn⟩ := h
  obtain ⟨m, hm⟩ := h'
  have heq := (hn (max n m) (le_max_left _ _)).symm.trans (hm (max n m) (le_max_right _ _))
  injection heq with heq
  injection heq

theorem void_iff {r : Range} : r.Void lib ↔ produced lib r = [] := produced_eq_nil_iff.symm

theorem diverges_iff :
    Diverges lib R ↔ ∃ rs₁ r rs₂, R = rs₁ ++ r :: rs₂ ∧ r.Unending lib ∧ ∀ r' ∈ rs₁, ¬ r'.Void lib := by
  induction R with
  | nil => simp [Diverges]
  | cons r R ih =>
    rw [Diverges, ih]
    constructor
    · rintro (hr | ⟨hne, rs₁, r', rs₂, rfl, hr', hrs₁⟩)
      · exact ⟨[], r, R, rfl, hr, fun _ h => absurd h not_mem_nil⟩
      · exact ⟨r :: rs₁, r', rs₂, rfl, hr', forall_mem_cons.mpr ⟨fun hv => hne (void_iff.mp hv), hrs₁⟩⟩
    · rintro ⟨rs₁, r', rs₂, heq, hr', hrs₁⟩
      cases rs₁ with
      | nil =>
        obtain ⟨rfl, -⟩ := cons.inj heq
        exact .inl hr'
      | cons q rs₁ =>
        obtain ⟨rfl, rfl⟩ := cons.inj heq
        obtain ⟨hq, hrs₁⟩ := forall_mem_cons.mp hrs₁
        exact .inr ⟨fun hn => hq (void_iff.mpr hn), rs₁, r', rs₂, rfl, hr', hrs₁⟩

theorem Regular.of_ending
    (h : ∀ r ∈ R, ¬ r.Unending lib ∧ ¬ (r.field.isIpv6 = true ∧ r.Reversed lib)) : Regular lib R where
  ending _ r _ heq hr := absurd hr (h r (heq ▸ mem_append_right _ mem_cons_self)).1
  ordered r hr hi6 hre := absurd ⟨hi6, hre⟩ (h r hr).2

/-- Rules are generated for exactly the choices of values if and only if the ranges are regular. -/
theorem range_rules_iff (h : Valid lib ps) :
    (∃ rules, Generates lib (render ps) rules ∧ rules.Perm (expansions lib ps)) ↔ Regular lib (ranges ps) := by
  constructor
  · rintro ⟨rules, hru, hp⟩
    have hdi : ¬ Diverges lib (ranges ps) := fun hd => not_generates h hd rules hru
    refine ⟨fun rs₁ r rs₂ heq hr => ?_, fun r hr hi6 hre => ?_⟩
    · by_contra hn
      push Not at hn
      exact hdi (diverges_iff.mpr ⟨rs₁, r, rs₂, heq, hr, hn⟩)
    · have hem : expansions lib ps = [] := by
        rw [expansions, choose_eq_nil hr (values_eq_nil_iff.mpr hre)]
        rfl
      rw [hem, perm_nil] at hp
      subst hp
      have hni : Product.choose (produced lib) (ranges ps) = [] :=
        map_eq_nil_iff.mp (reverse_eq_nil_iff.mp ((generates_generated h hdi).unique hru))
      obtain ⟨r', hr', hni⟩ := exists_eq_nil hni
      exact ⟨r', hr', void_iff.mpr hni⟩
  · intro hreg
    have hdi : ¬ Diverges lib (ranges ps) := fun hd => by
      obtain ⟨rs₁, r, rs₂, heq, hr, hn⟩ := diverges_iff.mp hd
      obtain ⟨r', hr', hv⟩ := hreg.ending rs₁ r rs₂ heq hr
      exact hn r' hr' hv
    refine ⟨_, generates_generated h hdi, (reverse_perm _).trans ?_⟩
    apply Perm.of_eq
    rw [generated, expansions]
    congr 1
    by_cases hc : ∃ r ∈ ranges ps, r.field.isIpv6 = true ∧ r.Reversed lib
    · obtain ⟨r, hr, hi6, hre⟩ := hc
      obtain ⟨r', hr', hv⟩ := hreg.ordered r hr hi6 hre
      rw [choose_eq_nil hr' (void_iff.mp hv), choose_eq_nil hr (values_eq_nil_iff.mpr hre)]
    · push Not at hc
      apply choose_congr
      intro r hr
      rw [produced, if_neg fun hb => hc r hr hb.1 hb.2]

/-! ## Texts that fit -/

theorem fits_of_short (hl : (render ps).length < ruleSize)
    (hs : ∀ r ∈ ps.filterMap Piece.range?, ∀ v ∈ produced lib r, v.length ≤ r.start.length + r.stop.length + 4) :
    Fits lib ps := by
  intro ps' hps'
  induction hps' with
  | refl => exact hl
  | @step qs rs ps f start stop v ht hv _ ih =>
    apply ih
    · have hva := hs ⟨f, start, stop⟩ (mem_filterMap.mpr ⟨.range f start stop, by simp, rfl⟩) v hv
      simp only at hva
      simp only [render_append, render_cons, length_append, Piece.render, spec, Field.pattern, templateRange,
        length_cons, length_nil, show render [] = [] from rfl] at hl ⊢
      omega
    · intro r hr
      apply hs r
      rw [filterMap_append, filterMap_append] at hr
      rw [filterMap_append]
      simp only [mem_append, filterMap_cons_none (show range? (.text _) = none from rfl)] at hr ⊢
      rcases hr with (hr | hr) | hr
      · exact .inl hr
      · exact .inr (mem_cons_of_mem _ hr)
      · exact absurd hr not_mem_nil

instance (t : Text) : Decidable (PlainEnd t) := inferInstanceAs (Decidable (_ ∧ _))

instance (p : Piece) : Decidable p.PlainEnds :=
  match p with
  | .text _ => inferInstanceAs (Decidable True)
  | .range .. => inferInstanceAs (Decidable (_ ∧ _))

instance (r : Range) : Decidable (r.ValidPorts lib) := inferInstanceAs (Decidable (_ → _))

theorem valid_of (hn : (fields ps).Nodup) (hen : ∀ p ∈ ps, p.PlainEnds) (hb : '$' ∉ base ps)
    (hp : ∀ r ∈ ranges ps, r.ValidPorts lib) (hl : (render ps).length < ruleSize)
    (hs : ∀ r ∈ ps.filterMap Piece.range?, ∀ v ∈ produced lib r, v.length ≤ r.start.length + r.stop.length + 4) :
    Valid lib ps :=
  ⟨⟨hn, hen, unmarked_of_notMem hb⟩, hp, fits_of_short hl hs⟩

/-! ## A library -/

def digitValue (c : Char) : Nat := if c.isDigit then c.toNat - 48 else c.toNat - 87

def hexChar (n : Nat) : Char := "0123456789abcdef".toList.getD n '0'

def readNumber (radix : Nat) (t : Text) : Nat := t.foldl (fun n c => n * radix + digitValue c) 0

def octetText (a : BitVec 8) : Text := [hexChar (a.toNat / 16), hexChar (a.toNat % 16)]

def groupsText : Octets → Text
  | a :: b :: c :: as => octetText a ++ octetText b ++ ':' :: groupsText (c :: as)
  | as => as.flatMap octetText

theorem hexChar_ne (n : Nat) : '$' ≠ hexChar n := by
  intro h
  have hm : hexChar n ∈ '0' :: "0123456789abcdef".toList := by
    rw [hexChar, getD_eq_getElem?_getD]
    cases hg : "0123456789abcdef".toList[n]? with
    | none => exact mem_cons_self
    | some c => exact mem_cons_of_mem _ (mem_of_getElem? hg)
  rw [← h] at hm
  exact absurd hm (by decide)

theorem groupsText_plain (as : Octets) : '$' ∉ groupsText as := by
  fun_induction groupsText as with
  | case1 a b c as ih => simp [octetText, hexChar_ne, ih]
  | case2 as _ =>
    simp [octetText, hexChar_ne]

/-- Addresses with all their digits. -/
def plainLibc : Libc where
  inetAddr t :=
    match (t.splitOn '.').map (readNumber 10) with
    | [a, b, c, d] => BitVec.ofNat 32 (((a * 256 + b) * 256 + c) * 256 + d)
    | _ => BitVec.allOnes 32
  inetPton t := octetsOf 16 (((t.splitOn ':').map (readNumber 16)).foldl (fun n g => n * 65536 + g) 0)
  inetNtop := groupsText
  atoi t := readNumber 10 t
  length_inetPton _ := rfl
  plain_inetNtop := groupsText_plain

def hostRule : List Piece :=
  [.text "tcp".toList, .range .ipv4Src "10.0.0.1".toList "10.0.0.2".toList, .text ",dl_vlan=3".toList,
    .range .portDst "80".toList "81".toList]

theorem hostRule_valid : Valid plainLibc hostRule := by
  apply valid_of <;> decide +kernel

theorem hostRule_expanded : ∃ rules,
    Generates plainLibc "tcp,nw_src=$<10.0.0.1-10.0.0.2>,dl_vlan=3,tp_dst=$<80-81>".toList rules ∧
      rules.Perm ["tcp,dl_vlan=3,nw_src=10.0.0.1,tp_dst=80".toList, "tcp,dl_vlan=3,nw_src=10.0.0.1,tp_dst=81".toList,
        "tcp,dl_vlan=3,nw_src=10.0.0.2,tp_dst=80".toList, "tcp,dl_vlan=3,nw_src=10.0.0.2,tp_dst=81".toList] := by
  have hr : Regular plainLibc (ranges hostRule) := Regular.of_ending (by decide +kernel)
  have hru := (range_rules_iff hostRule_valid).mpr hr
  have ht : render hostRule = "tcp,nw_src=$<10.0.0.1-10.0.0.2>,dl_vlan=3,tp_dst=$<80-81>".toList := by decide +kernel
  have hex : expansions plainLibc hostRule =
      ["tcp,dl_vlan=3,nw_src=10.0.0.1,tp_dst=80".toList, "tcp,dl_vlan=3,nw_src=10.0.0.1,tp_dst=81".toList,
        "tcp,dl_vlan=3,nw_src=10.0.0.2,tp_dst=80".toList, "tcp,dl_vlan=3,nw_src=10.0.0.2,tp_dst=81".toList] := by
    decide +kernel
  rwa [ht, hex] at hru

def broadcastRule : List Piece :=
  [.text "ip".toList, .range .ipv4Dst "255.255.255.254".toList "255.255.255.255".toList]

def backwardRule : List Piece :=
  [.text "ipv6".toList, .range .ipv6Src "fe80:0000:0000:0000:0000:0000:0000:0002".toList
    "fe80:0000:0000:0000:0000:0000:0000:0001".toList]

/-- The loop over the last two addresses never ends, and a range without addresses comes to a rule. -/
theorem last_address_goes_round : (Valid plainLibc broadcastRule ∧
      ∀ rules, ¬ Generates plainLibc "ip,nw_dst=$<255.255.255.254-255.255.255.255>".toList rules) ∧
    Valid plainLibc backwardRule ∧ expansions plainLibc backwardRule = [] ∧
      Generates plainLibc (render backwardRule) ["ipv6,ipv6_src=fe80:0000:0000:0000:0000:0000:0000:0002".toList] := by
  have hb : Valid plainLibc broadcastRule := by
    apply valid_of <;> decide +kernel
  have hba : Valid plainLibc backwardRule := by
    apply valid_of <;> decide +kernel
  have ht : render broadcastRule = "ip,nw_dst=$<255.255.255.254-255.255.255.255>".toList := by decide +kernel
  have hra : ranges broadcastRule = [⟨.ipv4Dst, "255.255.255.254".toList, "255.255.255.255".toList⟩] := rfl
  have hru : (generated plainLibc (ranges backwardRule) (base backwardRule)).reverse =
      ["ipv6,ipv6_src=fe80:0000:0000:0000:0000:0000:0000:0002".toList] := by decide +kernel
  refine ⟨⟨hb, fun rules => ?_⟩, hba, by decide +kernel, ?_⟩
  · apply not_generates hb
    exact .inl (by decide +kernel)
  · apply generates_generated hba
    rw [diverges_iff]
    rintro ⟨rs₁, r, rs₂, heq, hr, -⟩
    have hn : ∀ r ∈ ranges backwardRule, ¬ r.Unending plainLibc := by decide +kernel
    exact hn r (heq ▸ mem_append_right _ mem_cons_self) hr

end OpenSync.OmRange
