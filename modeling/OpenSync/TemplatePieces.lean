import OpenSync.TemplateWalk

/-!
# Rules as pieces

A rule read from left to right is a list of characters and references; a reference without an end takes the rest of the
text. The expansion replaces these references. The detection reads the rule twice, each time for the references of one
kind, and so finds references inside those of the other kind.
-/

namespace OpenSync.Template
open List Option

open Tags

variable {k : Kind} {s t : Text} {tv : List Binding}

/-- A part of a rule; the place of a reference is the length of the text from there to the end of the rule. -/
inductive Piece
  | char (c : Char)
  | ref (place : Nat) (group : Bool) (sign name : Text)
  | unclosed (rest : Text)
  deriving DecidableEq

def signOf : Text → Text
  | '@' :: _ => ['@']
  | '#' :: _ => ['#']
  | '*' :: _ => ['*']
  | _ => []

theorem signOf_append (t : Text) : signOf t ++ (filterSign t).2 = t := by
  unfold signOf filterSign
  split <;> simp_all

theorem cut_rest {p name rest : Text} (hc : cutAt k.closing (filterSign p).2 = some (name, rest)) :
    '$' :: k.opening :: p = ('$' :: k.opening :: signOf p ++ name ++ [k.closing]) ++ rest := by
  have hp : signOf p ++ (name ++ k.closing :: rest) = p := by rw [← (cutAt_eq_some hc).1, signOf_append]
  calc '$' :: k.opening :: p = '$' :: k.opening :: (signOf p ++ (name ++ k.closing :: rest)) := by rw [hp]
    _ = ('$' :: k.opening :: signOf p ++ name ++ [k.closing]) ++ rest := by simp

def kindFor (group : Bool) : Kind := if group then groupKind else tagKind

variable {c : Char}

theorem kindOf_eq_some (h : kindOf c = some k) : c = k.opening ∧ k = kindFor k.group := by
  unfold kindOf at h
  split_ifs at h with ht hg
  · obtain rfl := some.inj h
    exact ⟨ht, rfl⟩
  · obtain rfl := some.inj h
    exact ⟨hg, rfl⟩

theorem kindOf_opening (group : Bool) : kindOf (kindFor group).opening = some (kindFor group) := by
  cases group <;> rfl

/-- The kind of the reference that a text starts with, and what is behind the opening bracket. -/
def opens : Text → Option (Kind × Text)
  | '$' :: c :: t => (kindOf c).map (·, t)
  | _ => none

theorem opens_eq_some {p : Text} (h : opens s = some (k, p)) : s = '$' :: k.opening :: p ∧ k = kindFor k.group := by
  unfold opens at h
  split at h
  · obtain ⟨k', hk, heq⟩ := map_eq_some_iff.mp h
    obtain ⟨rfl, rfl⟩ := Prod.mk.inj heq
    obtain ⟨rfl, hki⟩ := kindOf_eq_some hk
    exact ⟨rfl, hki⟩
  · exact nomatch h

@[grind =] def pieces (s : Text) : List Piece :=
  match s with
  | [] => []
  | c :: s =>
    match hopen : opens (c :: s) with
    | none => .char c :: pieces s
    | some (k, t) =>
      match hcut : cutAt k.closing (filterSign t).2 with
      | none => [.unclosed (c :: s)]
      | some (name, rest) => .ref (c :: s).length k.group (signOf t) name :: pieces rest
termination_by s.length
decreasing_by
  · simp
  · have h := cutAt_length hcut
    have h' := filterSign_length t
    rw [(opens_eq_some hopen).1, List.length_cons, List.length_cons]
    omega

theorem pieces_cons_char (h : opens (c :: s) = none) : pieces (c :: s) = .char c :: pieces s := by
  rw [pieces]
  split
  · rfl
  · rename_i ho
    simp [h] at ho

theorem pieces_opens {p : Text} (h : opens s = some (k, p)) : pieces s = match cutAt k.closing (filterSign p).2 with
    | none => [.unclosed s]
    | some (name, rest) => .ref s.length k.group (signOf p) name :: pieces rest := by
  obtain ⟨rfl, -⟩ := opens_eq_some h
  rw [pieces]
  split
  · rename_i ho
    simp [h] at ho
  rename_i k' t' ho
  obtain ⟨rfl, rfl⟩ := Prod.mk.inj (some.inj (h.symm.trans ho))
  split
  · rename_i hc
    rw [hc]
  · rename_i hc
    rw [hc]

theorem pieces_induction {P : Text → Prop} (nil : P []) (char : ∀ c s, opens (c :: s) = none → P s → P (c :: s))
    (unclosed : ∀ s k p, opens s = some (k, p) → cutAt k.closing (filterSign p).2 = none → P s)
    (ref : ∀ s k p name rest, opens s = some (k, p) → cutAt k.closing (filterSign p).2 = some (name, rest) → P rest → P s)
    (s : Text) : P s := by
  fun_induction pieces s with
  | case1 => exact nil
  | case2 c s ho ih => exact char c s ho ih
  | case3 c s k p ho hc => exact unclosed (c :: s) k p ho hc
  | case4 c s k p ho name rest hc ih => exact ref (c :: s) k p name rest ho hc ih

def Piece.text : Piece → Text
  | .char c => [c]
  | .ref _ group sign name => '$' :: (kindFor group).opening :: sign ++ name ++ [(kindFor group).closing]
  | .unclosed rest => rest

theorem pieces_text (s : Text) : (pieces s).flatMap Piece.text = s := by
  induction s using pieces_induction with
  | nil => rw [pieces]; rfl
  | char c s ho ih => rw [pieces_cons_char ho, flatMap_cons, ih]; rfl
  | unclosed s k p ho hc => rw [pieces_opens ho, hc]; simp [Piece.text]
  | ref s k p name rest ho hc ih =>
    obtain ⟨hs, hk⟩ := opens_eq_some ho
    rw [pieces_opens ho, hc]
    simp only [flatMap_cons, ih, Piece.text, ← hk]
    rw [hs, cut_rest hc]

/-! ## Expansion -/

/-- How far an expansion came: what it has copied, the references it has looked up, and whether it reached the end. -/
structure Expansion where
  copied : Text
  asked : List (Text × Bool)
  done : Bool
  deriving DecidableEq

def Expansion.after (text : Text) (e : Expansion) : Expansion := { e with copied := text ++ e.copied }

def Expansion.asking (key : Text × Bool) (e : Expansion) : Expansion := { e with asked := key :: e.asked }

def Expansion.result (e : Expansion) : Option Text := if e.done then some e.copied else none

theorem result_after (text : Text) (e : Expansion) : (e.after text).result = e.result.map (text ++ ·) := by
  obtain ⟨copied, asked, done⟩ := e
  cases done <;> rfl

theorem result_asking (key : Text × Bool) (e : Expansion) : (e.asking key).result = e.result := rfl

/-- `om_template_rule_expand` with all that it does on the way. -/
def ruleExpand (tv : List Binding) (s : Text) : Expansion :=
  match hs : cutAt '$' s with
  | none => ⟨s, [], true⟩
  | some (pre, []) => ⟨pre ++ ['$'], [], true⟩
  | some (pre, c :: t) =>
    match kindOf c with
    | none => (ruleExpand tv (c :: t)).after (pre ++ ['$'])
    | some k =>
      match ht : cutAt k.closing (filterSign t).2 with
      | none => ⟨pre, [], false⟩
      | some (name, rest) =>
        match tdataGetValue tv name k.group with
        | none => ⟨pre, [(name, k.group)], false⟩
        | some v => ((ruleExpand tv rest).after (pre ++ v)).asking (name, k.group)
termination_by s.length
decreasing_by
  all_goals
    have h := cutAt_length hs
    have h' := filterSign_length t
    simp only [List.length_cons] at h ⊢
  · omega
  · have h'' := cutAt_length ht
    omega

theorem expand_eq_ruleExpand (tv : List Binding) (s : Text) : expand tv s = (ruleExpand tv s).result := by
  fun_induction ruleExpand tv s with
  | case1 s hs => rw [expand, hs]; rfl
  | case2 s pre hs => rw [expand, hs]; rfl
  | case3 s pre c t hs hk ih =>
    rw [expand, hs]
    simp only [hk, ih, result_after, append_assoc, singleton_append]
  | case4 s pre c t hs k hk hc =>
    rw [expand, hs]
    simp only [hk]
    rw [hc]
    rfl
  | case5 s pre c t hs k hk name rest hc hv =>
    have hv' : tdataGetValue tv name (k.base ≠ 0) = none := hv
    rw [expand, hs]
    simp only [hk]
    rw [hc]
    simp only [hv']
    rfl
  | case6 s pre c t hs k hk name rest hc v hv ih =>
    have hv' : tdataGetValue tv name (k.base ≠ 0) = some v := hv
    rw [expand, hs]
    simp only [hk]
    rw [hc]
    simp only [hv', ih, result_asking, result_after]

def expandPieces (tv : List Binding) : List Piece → Expansion
  | [] => ⟨[], [], true⟩
  | .char c :: ps => (expandPieces tv ps).after [c]
  | .unclosed _ :: _ => ⟨[], [], false⟩
  | .ref _ group _ name :: ps =>
    match tdataGetValue tv name group with
    | none => ⟨[], [(name, group)], false⟩
    | some v => ((expandPieces tv ps).after v).asking (name, group)

theorem opens_of_ne (h : c ≠ '$') (s : Text) : opens (c :: s) = none := by
  unfold opens
  split
  · rename_i heq
    exact absurd (cons.inj heq).1 h
  · rfl

theorem pieces_append {pre : Text} (h : '$' ∉ pre) (s : Text) : pieces (pre ++ s) = pre.map Piece.char ++ pieces s := by
  induction pre with
  | nil => rfl
  | cons c pre ih =>
    have hc : c ≠ '$' := fun heq => h (heq ▸ mem_cons_self)
    rw [cons_append, pieces_cons_char (opens_of_ne hc _), ih fun hm => h (mem_cons_of_mem _ hm)]
    rfl

theorem expandPieces_chars (tv : List Binding) (pre : Text) (ps : List Piece) :
    expandPieces tv (pre.map Piece.char ++ ps) = (expandPieces tv ps).after pre := by
  induction pre with
  | nil => rfl
  | cons c pre ih =>
    rw [map_cons, cons_append, expandPieces, ih]
    rfl

theorem cutAt_eq_none (h : cutAt c s = none) : c ∉ s := by
  intro hm
  obtain ⟨p, hp⟩ := cutAt_isSome hm
  rw [h] at hp
  exact nomatch hp

theorem expandPieces_cut {pre t : Text} (tv : List Binding) (h : cutAt '$' s = some (pre, t)) :
    expandPieces tv (pieces s) = (expandPieces tv (pieces ('$' :: t))).after pre := by
  obtain ⟨rfl, hpr⟩ := cutAt_eq_some h
  rw [pieces_append hpr, expandPieces_chars]

theorem ruleExpand_eq (tv : List Binding) (s : Text) : ruleExpand tv s = expandPieces tv (pieces s) := by
  fun_induction ruleExpand tv s with
  | case1 s hs =>
    have hp := pieces_append (cutAt_eq_none hs) []
    rw [append_nil] at hp
    rw [hp, expandPieces_chars, pieces, expandPieces, Expansion.after, append_nil]
  | case2 s pre hs =>
    rw [expandPieces_cut tv hs, pieces_cons_char rfl, pieces, expandPieces, expandPieces]
    rfl
  | case3 s pre c t hs hk ih =>
    rw [expandPieces_cut tv hs, pieces_cons_char (by simp [opens, hk]), expandPieces, ih]
    simp [Expansion.after]
  | case4 s pre c t hs k hk hc =>
    rw [expandPieces_cut tv hs, pieces_opens (k := k) (p := t) (by simp [opens, hk]), hc]
    simp [expandPieces, Expansion.after]
  | case5 s pre c t hs k hk name rest hc hv =>
    rw [expandPieces_cut tv hs, pieces_opens (k := k) (p := t) (by simp [opens, hk]), hc]
    simp [expandPieces, hv, Expansion.after]
  | case6 s pre c t hs k hk name rest hc v hv ih =>
    rw [expandPieces_cut tv hs, pieces_opens (k := k) (p := t) (by simp [opens, hk]), hc]
    simp [expandPieces, hv, Expansion.after, Expansion.asking, ih]

end OpenSync.Template
