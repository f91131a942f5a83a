import OpenSync.OmRange

/-!
# Taking ranges out of rules

A rule is a sequence of plain texts and ranges. Wherever a range stands, the code finds it and takes exactly it out.
-/

namespace OpenSync.OmRange
open List Option

open Search Template
open Tags (Text)

/-- A part of a rule. -/
inductive Piece
  | text (t : Text)
  | range (f : Field) (start stop : Text)

/-- How a range is written. -/
def spec (f : Field) (start stop : Text) : Text := ',' :: f.pattern ++ start ++ '-' :: stop ++ ['>']

def Piece.render : Piece → Text
  | .text t => t
  | .range f start stop => spec f start stop

def render (ps : List Piece) : Text := ps.flatMap Piece.render

def Piece.plain : Piece → Text
  | .text t => t
  | .range .. => []

def base (ps : List Piece) : Text := ps.flatMap Piece.plain

def Piece.field : Piece → Option Field
  | .text _ => none
  | .range f _ _ => some f

def fields (ps : List Piece) : List Field := ps.filterMap Piece.field

/-- Endpoints are made of what addresses and numbers are made of. -/
def PlainEnd (t : Text) : Prop := '$' ∉ t ∧ '-' ∉ t ∧ '>' ∉ t

def Piece.PlainEnds : Piece → Prop
  | .text _ => True
  | .range _ start stop => PlainEnd start ∧ PlainEnd stop

/-- Each field has at most one range, and the text around has none. -/
structure WellFormed (ps : List Piece) : Prop where
  nodup : (fields ps).Nodup
  ends : ∀ p ∈ ps, p.PlainEnds
  unmarked : Unmarked '$' '<' (base ps)

variable {f : Field} {ps : List Piece} {t : Text}

/-! ## Patterns -/

theorem name_ne_nil (f : Field) : f.name ≠ [] := by cases f <;> decide

theorem name_plain (f : Field) : '$' ∉ f.name ∧ '<' ∉ f.name ∧ ',' ∉ f.name := by cases f <;> decide

theorem eq_of_name_suffix {f g : Field} (h : f.name <:+ g.name) : f = g := by
  revert h
  cases f <;> cases g <;> decide

theorem eq_of_suffix_append {f g : Field} (h : f.name <:+ t ++ ',' :: g.name) : f = g := by
  rcases suffix_or_suffix_of_suffix h (suffix_append t (',' :: g.name)) with h | h
  · rcases suffix_cons_iff.mp h with h | h
    · have hc : ',' ∈ f.name := h ▸ mem_cons_self
      exact absurd hc (name_plain f).2.2
    · exact eq_of_name_suffix h
  · exact absurd (h.subset mem_cons_self) (name_plain f).2.2

theorem unmarked_comma_name (h : Unmarked '$' '<' t) : Unmarked '$' '<' (t ++ ',' :: f.name) :=
  h.append_cons (by decide) (unmarked_of_notMem (by simpa using (name_plain f).1))

/-! ## Search -/

theorem render_cons (p : Piece) (ps : List Piece) : render (p :: ps) = p.render ++ render ps := rfl

theorem render_append (ps qs : List Piece) : render (ps ++ qs) = render ps ++ render qs := flatMap_append

theorem base_append (ps qs : List Piece) : base (ps ++ qs) = base ps ++ base qs := flatMap_append

theorem fields_append (ps qs : List Piece) : fields (ps ++ qs) = fields ps ++ fields qs := filterMap_append

theorem fields_range (f : Field) (start stop : Text) (ps : List Piece) :
    fields (.range f start stop :: ps) = f :: fields ps := rfl

/-- What follows the mark of a range. -/
def behind (start stop : Text) : Text := start ++ '-' :: stop ++ ['>']

variable {start stop : Text}

theorem behind_plain (hs : PlainEnd start) (hst : PlainEnd stop) : '$' ∉ behind start stop := by
  simp [behind, hs.1, hst.1]

theorem strstr_pieces (qs : List Piece) (hun : Unmarked '$' '<' (t ++ base (ps ++ qs)))
    (hen : ∀ p ∈ ps, p.PlainEnds) (hf : f ∉ fields ps) :
    ∃ u t', u ++ t' = t ++ render ps ∧ Unmarked '$' '<' (t' ++ base qs) ∧ strstr f.pattern (t ++ render (ps ++ qs)) =
        (strstr f.pattern (t' ++ render qs)).map fun x => (u ++ x.1, x.2) := by
  induction ps generalizing t with
  | nil => exact ⟨[], t, by simp [render], hun, by simp⟩
  | cons p ps ih =>
    have he' : ∀ p ∈ ps, p.PlainEnds := (forall_mem_cons.mp hen).2
    cases p with
    | text t₁ =>
      obtain ⟨u, t', hu, hc, hfo⟩ := ih (t := t ++ t₁) (by simpa [base, Piece.plain] using hun) he' hf
      refine ⟨u, t', by simpa [render, Piece.render] using hu, hc, ?_⟩
      rw [← hfo]
      simp [render, Piece.render]
    | range g start stop =>
      obtain ⟨hs, hst⟩ := hen _ mem_cons_self
      have hne : f ≠ g := fun heq => hf (heq ▸ mem_cons_self)
      have hr : Unmarked '$' '<' (behind start stop ++ base (ps ++ qs)) :=
        hun.of_append_right.append_left (behind_plain hs hst)
      obtain ⟨u, t', hu, hc, hfo⟩ := ih hr he' fun hm => hf (mem_cons_of_mem _ hm)
      have hsk := strstr_skip (unmarked_comma_name (f := g) hun.of_append_left) (by decide) (name_ne_nil f)
        (name_plain f).1 (name_plain f).2.1 (fun hsu => hne (eq_of_suffix_append hsu))
        (behind start stop ++ render (ps ++ qs))
      refine ⟨t ++ ',' :: g.name ++ templateRange ++ u, t', ?_, hc, ?_⟩
      · rw [append_assoc, hu]
        simp [render, Piece.render, spec, behind, Field.pattern]
      · have ht : t ++ render (.range g start stop :: ps ++ qs) =
            t ++ ',' :: g.name ++ ['$', '<'] ++ (behind start stop ++ render (ps ++ qs)) := by
          simp [render, Piece.render, spec, behind, Field.pattern, templateRange]
        rw [ht, Field.pattern, templateRange, hsk, ← templateRange, ← Field.pattern, hfo, Option.map_map]
        simp [Function.comp_def, templateRange]

theorem strstr_none (h : Unmarked '$' '<' (base ps)) (hen : ∀ p ∈ ps, p.PlainEnds) (hf : f ∉ fields ps) :
    strstr f.pattern (render ps) = none := by
  obtain ⟨u, t', -, hc, hfo⟩ := strstr_pieces (t := []) [] (by simpa using h) hen hf
  rw [append_nil, nil_append] at hfo
  rw [hfo, Field.pattern, templateRange, show render [] = [] from rfl, strstr_unmarked (by simpa [base] using hc)]
  rfl

theorem strstr_range {qs : List Piece}
    (h : Unmarked '$' '<' (base (ps ++ .range f start stop :: qs))) (hen : ∀ p ∈ ps, p.PlainEnds) (hf : f ∉ fields ps) :
    strstr f.pattern (render (ps ++ .range f start stop :: qs)) =
      some (render ps ++ [','], behind start stop ++ render qs) := by
  obtain ⟨u, t', hu, hc, hfo⟩ := strstr_pieces (t := []) (.range f start stop :: qs) (by simpa using h) hen hf
  have hm := strstr_mark (x := '$') (y := '<') (b := t' ++ [',']) (p := f.name)
    (by simpa using unmarked_comma_name (f := f) hc.of_append_left) (by decide) (behind start stop ++ render qs)
  have ht : t' ++ render (.range f start stop :: qs) =
      t' ++ [','] ++ (f.name ++ ['$', '<'] ++ (behind start stop ++ render qs)) := by
    simp [render, Piece.render, spec, behind, Field.pattern, templateRange]
  rw [nil_append, ht] at hfo
  rw [hfo, Field.pattern, templateRange, hm]
  simp [← append_assoc, hu]

/-! ## Extraction -/

theorem exists_range (h : f ∈ fields ps) :
    ∃ qs start stop rs, ps = qs ++ .range f start stop :: rs ∧ f ∉ fields qs := by
  induction ps with
  | nil => exact absurd h not_mem_nil
  | cons p ps ih =>
    by_cases hp : p.field = some f
    · cases p with
      | text => cases hp
      | range g start stop =>
        cases hp
        exact ⟨[], start, stop, ps, rfl, not_mem_nil⟩
    · have hm : f ∈ fields ps := by
        rw [fields, mem_filterMap] at h ⊢
        obtain ⟨q, hq, hfi⟩ := h
        rcases mem_cons.mp hq with rfl | hq
        · exact absurd hfi hp
        · exact ⟨q, hq, hfi⟩
      obtain ⟨qs, start, stop, rs, rfl, hf⟩ := ih hm
      refine ⟨p :: qs, start, stop, rs, rfl, ?_⟩
      rw [fields, mem_filterMap] at hf ⊢
      rintro ⟨q, hq, hfi⟩
      rcases mem_cons.mp hq with rfl | hq
      · exact hp hfi
      · exact hf ⟨q, hq, hfi⟩

theorem strstr_isSome_iff (h : WellFormed ps) : (strstr f.pattern (render ps)).isSome = true ↔ f ∈ fields ps := by
  constructor
  · intro hs
    by_contra hf
    rw [strstr_none h.unmarked h.ends hf] at hs
    cases hs
  · intro hf
    obtain ⟨qs, start, stop, rs, rfl, hne⟩ := exists_range hf
    rw [strstr_range h.unmarked (fun p hp => h.ends p (mem_append_left _ hp)) hne]
    rfl

theorem getRangeType_eq (h : WellFormed ps) :
    getRangeType (render ps) = Field.order.find? fun f => decide (f ∈ fields ps) := by
  unfold getRangeType
  congr 1
  funext f
  exact Bool.eq_iff_iff.mpr ((strstr_isSome_iff h).trans decide_eq_true_iff.symm)

theorem render_eq_base (h : fields ps = []) : render ps = base ps := by
  induction ps with
  | nil => rfl
  | cons p ps ih =>
    cases p with
    | text t => exact congrArg (t ++ ·) (ih h)
    | range f start stop => cases h

theorem isRangeSpecified_eq (h : WellFormed ps) : isRangeSpecified (render ps) = !(fields ps).isEmpty := by
  cases hfi : fields ps with
  | nil =>
    rw [isRangeSpecified, render_eq_base hfi, templateRange]
    have hn := strstr_unmarked (p := []) h.unmarked
    rw [nil_append] at hn
    rw [hn]
    rfl
  | cons f fs =>
    have hf : f ∈ fields ps := hfi ▸ mem_cons_self
    have hs := (strstr_isSome_iff h).mpr hf
    obtain ⟨⟨b, a⟩, hfo⟩ := isSome_iff_exists.mp hs
    have ho : OccursAt (f.name ++ ['$', '<']) (render ps) b.length := by
      rw [OccursAt, (strstr_eq_some hfo).1, drop_left]
      exact prefix_append _ _
    rw [isRangeSpecified, templateRange, strstr_isSome_of (by simp) (occursAt_pair.mpr ho.mark)]
    rfl

theorem cutAt_append {c : Char} {a : Text} (h : c ∉ a) (b : Text) : cutAt c (a ++ c :: b) = some (a, b) := by
  induction a with
  | nil => simp [cutAt]
  | cons d a ih =>
    rw [mem_cons, not_or] at h
    rw [cons_append, cutAt, if_neg (Ne.symm h.1), ih h.2]
    rfl

theorem strstr_eq_sign (f : Field) (a : Text) :
    strstr ['='] (f.pattern ++ a) = some (f.name.dropLast, templateRange ++ a) := by
  have hn : f.pattern ++ a = f.name.dropLast ++ (['='] ++ (templateRange ++ a)) := by cases f <;> rfl
  have hs : '=' ∉ f.name.dropLast := by cases f <;> decide
  rw [hn]
  apply strstr_eq_some_of
  intro k hk ho
  have hg := occursAt_iff.mp ho 0 (by simp)
  rw [Nat.add_zero, getElem?_append_left hk] at hg
  exact hs (mem_of_getElem? hg)

theorem spec_eq (f : Field) (start stop : Text) : spec f start stop = ',' :: (f.pattern ++ behind start stop) := by
  simp [spec, behind]

theorem occursAt_pattern {start stop s : Text} {k : Nat} (h : OccursAt (spec f start stop) s k) :
    OccursAt f.pattern s (k + 1) := by
  obtain ⟨r, hr⟩ := h
  rw [spec_eq, cons_append, append_assoc] at hr
  rw [OccursAt, ← drop_drop, ← hr]
  exact ⟨_, rfl⟩

theorem remove_range {qs rs : List Piece} (h : WellFormed (qs ++ .range f start stop :: rs)) (hf : f ∉ fields qs) :
    remove (spec f start stop) (render (qs ++ .range f start stop :: rs)) = render (qs ++ rs) := by
  have hfo := strstr_range h.unmarked (fun p hp => h.ends p (mem_append_left _ hp)) hf
  have hr : f ∉ fields rs := by
    have hn := h.nodup
    rw [fields_append, fields_range] at hn
    exact (nodup_cons.mp (nodup_append.mp hn).2.1).1
  have hc : Unmarked '$' '<' (base rs) := by
    have hb := h.unmarked
    rw [base_append] at hb
    exact hb.of_append_right
  rw [render_append, render_append, render_cons]
  apply remove_eq_of (by simp [spec])
  · intro k hk ho
    have hfi := (strstr_eq_some hfo).2
    rw [render_append, render_cons] at hfi
    exact hfi (k + 1) (by simpa using hk) (occursAt_pattern ho)
  · intro k ho
    have hno := strstr_none hc (fun p hp => h.ends p (mem_append_right _ (mem_cons_of_mem _ hp))) hr
    have hs := strstr_isSome_of (by simp [Field.pattern, name_ne_nil]) (occursAt_pattern ho)
    rw [hno] at hs
    cases hs

theorem strscpy_eq (h : t.length < ruleSize) : strscpy t = t := take_of_length_le (Nat.le_sub_one_of_lt h)

theorem length_ends (f : Field) (qs rs : List Piece) (start stop : Text) :
    start.length ≤ (render (qs ++ .range f start stop :: rs)).length ∧
      stop.length ≤ (render (qs ++ .range f start stop :: rs)).length := by
  rw [render_append, render_cons]
  simp only [Piece.render, spec, length_append, length_cons]
  omega

theorem extract_eq {qs rs : List Piece} (h : WellFormed (qs ++ .range f start stop :: rs))
    (hf : f ∉ fields qs) (hfi : (render (qs ++ .range f start stop :: rs)).length < ruleSize) :
    extract f (render (qs ++ .range f start stop :: rs)) = some (start, stop, render (qs ++ rs)) := by
  have hfo := strstr_range h.unmarked (fun p hp => h.ends p (mem_append_left _ hp)) hf
  have hl := length_ends f qs rs start stop
  obtain ⟨hs, hst⟩ := h.ends (.range f start stop) (by simp)
  have hse : strsep '-' (behind start stop ++ render rs) = (start, some (stop ++ '>' :: render rs)) := by
    rw [strsep, show behind start stop ++ render rs = start ++ '-' :: (stop ++ '>' :: render rs) by simp [behind],
      cutAt_append hs.2.1]
  have hs' : strsep '>' (stop ++ '>' :: render rs) = (stop, some (render rs)) := by
    rw [strsep, cutAt_append hst.2.2]
  have ho : OccursAt (spec f start stop) (render (qs ++ .range f start stop :: rs)) (render qs).length := by
    rw [OccursAt, render_append, drop_left, render_cons]
    exact prefix_append _ _
  have hit : ('=' :: (templateRange ++ (behind start stop ++ render rs))).drop 3 = behind start stop ++ render rs := rfl
  simp only [extract, hfo, bind_eq_bind, bind_some, strstr_eq_sign, hit, hse, hs',
    strscpy_eq (lt_of_le_of_lt hl.1 hfi), strscpy_eq (lt_of_le_of_lt hl.2 hfi), strscpy_eq hfi]
  rw [← spec, if_pos (strstr_isSome_of (by simp [spec]) ho), remove_range h hf]

end OpenSync.OmRange
