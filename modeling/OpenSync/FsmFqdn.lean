import Mathlib.Data.List.Forall2
import Mathlib.Data.List.Perm.Basic

/-!
# FQDN rules of a policy

`fsm_fqdn_check` of `fsm_policy.c`: the request's name against the FQDN set of a policy. One loop serves the
exact, the start-from-right, the start-from-left and the wildcard lookup. A wildcard pattern is compared label
by label, the labels taken by `strtok_r` and compared by `fnmatch`.
-/

namespace OpenSync.Fsm
open List hiding set

abbrev Name := List Char

/-- The C library as the wildcard match uses it. -/
structure Libc where
  /-- `fnmatch` of a label of the pattern and a label of the name returns 0. -/
  fnmatch : Name → Name → Bool
  /-- What `strtok_r` reads at a place of a copy that was freed. -/
  freed : Name → Name

def strtok (s : Name) : Option (Name × Name) :=
  match s.dropWhile (· == '.') with
  | [] => none
  | t => some (t.takeWhile (· != '.'), (t.dropWhile (· != '.')).tail)

theorem strtok_nil : strtok [] = none := rfl

variable (s : Name)

theorem strtok_cons {c : Char} (hc : c ≠ '.') (s : Name) :
    strtok (c :: s) = some (c :: s.takeWhile (· != '.'), (s.dropWhile (· != '.')).tail) := by
  have hd : (c :: s).dropWhile (· == '.') = c :: s := by simp [hc]
  simp [strtok, hd, hc]

theorem strtok_length {s t r : Name} (h : strtok s = some (t, r)) : r.length < s.length := by
  induction s with
  | nil => simp [strtok_nil] at h
  | cons c s ih =>
    rw [length_cons]
    by_cases hc : c = '.'
    · subst hc
      have := ih h
      omega
    · rw [strtok_cons hc] at h
      obtain ⟨-, rfl⟩ : _ ∧ (s.dropWhile (· != '.')).tail = r := by simpa using h
      have hd : (s.dropWhile (· != '.')).length ≤ s.length := (dropWhile_suffix _).length_le
      rw [length_tail]
      omega

/-! ## The match -/

def labelLoop (c : Libc) (pattern domain : Name) : Bool :=
  match _h : strtok pattern, strtok domain with
  | none, none => true
  | some (sub1, rest1), some (sub2, rest2) => c.fnmatch sub1 sub2 && labelLoop c rest1 rest2
  | _, _ => false
termination_by pattern.length
decreasing_by exact strtok_length _h

/-- Both copies are released at the end of the first round, and the later rounds read on in them. -/
def fsmPolicyWildmatch (c : Libc) (pattern domain : Name) : Bool :=
  match strtok pattern, strtok domain with
  | none, none => true
  | some (sub1, rest1), some (sub2, rest2) =>
    c.fnmatch sub1 sub2 && labelLoop c (c.freed rest1) (c.freed rest2)
  | _, _ => false

/-- The lookups of `fsm_fqdn_in_set`. -/
inductive Lookup
  | xm | sfr | sfl | wild
  deriving DecidableEq, Repr

@[grind =] def fsmFqdnInSet (c : Libc) (op : Lookup) (url : Name) : List Name → Bool
  | [] => false
  | entry :: set =>
    if url.length < entry.length then fsmFqdnInSet c op url set
    else if op = .wild then fsmPolicyWildmatch c entry url
    else
      let at_ := if op = .sfr then url.drop (url.length - entry.length) else url
      if at_.take entry.length = entry then true else fsmFqdnInSet c op url set

/-- `fqdn_op` of a rule. -/
inductive FqdnOp
  | isIn | sfrIn | sflIn | wildIn | out | sfrOut | sflOut | wildOut | isTrue
  deriving DecidableEq, Repr

def FqdnOp.inPolicy (op : FqdnOp) : Bool :=
  op = .isIn || op = .sfrIn || op = .sflIn || op = .wildIn

def FqdnOp.lookup (op : FqdnOp) : Lookup :=
  if op = .wildIn ∨ op = .wildOut then .wild
  else if op = .sflIn ∨ op = .sflOut then .sfl
  else if op = .sfrIn ∨ op = .sfrOut then .sfr
  else .xm

/-- The FQDN columns of a policy's rules; an absent set is a null pointer in the source. -/
structure FqdnRules where
  fqdnRulePresent : Bool
  fqdnOp : FqdnOp
  fqdns : Option (List Name)

def fsmFqdnCheck (c : Libc) (rules : FqdnRules) (url : Name) : Bool :=
  if !rules.fqdnRulePresent then true
  else
    let rc := match rules.fqdns with
      | none => false
      | some set => fsmFqdnInSet c rules.fqdnOp.lookup url set
    if rc && !rules.fqdnOp.inPolicy then false
    else if !rc && rules.fqdnOp.inPolicy then false
    else true

theorem fsmFqdnCheck_present (c : Libc) (op : FqdnOp) (set : List Name) (url : Name) :
    fsmFqdnCheck c ⟨true, op, some set⟩ url = (fsmFqdnInSet c op.lookup url set == op.inPolicy) := by
  cases hrc : fsmFqdnInSet c op.lookup url set <;> cases hin : op.inPolicy <;> simp [fsmFqdnCheck, hrc, hin]

/-! ## What the lookups are for -/

/-- The labels of a name: empty ones do not count. -/
def labels (s : Name) : List Name := (s.splitOn '.').filter (· ≠ [])

theorem splitOn_run : s.splitOn '.' = s.takeWhile (· != '.') :: (match s.dropWhile (· != '.') with
        | [] => []
        | _ :: r => r.splitOn '.') := by
  induction s with
  | nil => rfl
  | cons c s ih =>
    by_cases hc : c = '.'
    · subst hc
      simp [splitOn, splitOnP_cons_eq_if_modifyHead]
    · rw [splitOn] at ih ⊢
      rw [splitOnP_cons_eq_if_modifyHead, if_neg (by simpa using hc), ih]
      simp [hc]

theorem labels_cons {c : Char} (hc : c ≠ '.') (s : Name) :
    labels (c :: s) = (c :: s.takeWhile (· != '.')) :: labels (s.dropWhile (· != '.')).tail := by
  have hr := splitOn_run (c :: s)
  rw [takeWhile_cons_of_pos (by simpa using hc), dropWhile_cons_of_pos (by simpa using hc)] at hr
  unfold labels
  rw [hr, filter_cons_of_pos (by simp)]
  congr 1
  cases s.dropWhile (· != '.') <;> rfl

theorem labels_eq_strtok : labels s = match strtok s with
      | none => []
      | some (t, r) => t :: labels r := by
  induction s with
  | nil => rfl
  | cons c s ih =>
    by_cases hc : c = '.'
    · subst hc
      exact ih
    · rw [strtok_cons hc]
      exact labels_cons hc s

def GlobMatch (c : Libc) (pattern url : Name) : Prop :=
  List.Forall₂ (fun p l => c.fnmatch p l = true) (labels pattern) (labels url)

theorem labelLoop_iff (c : Libc) (pattern domain : Name) :
    labelLoop c pattern domain = true ↔ GlobMatch c pattern domain := by
  unfold GlobMatch
  fun_induction labelLoop c pattern domain with
  | case1 pattern domain hp hd =>
    rw [labels_eq_strtok pattern, labels_eq_strtok domain, hp, hd]
    simp
  | case2 pattern domain sub1 rest1 sub2 rest2 hd hp ih =>
    rw [labels_eq_strtok pattern, labels_eq_strtok domain, hp, hd]
    simp [ih]
  | case3 pattern domain hn hs =>
    rw [labels_eq_strtok pattern, labels_eq_strtok domain]
    cases hp : strtok pattern with
    | none =>
      cases hd : strtok domain with
      | none => exact absurd hd (hn hp)
      | some d => simp
    | some p =>
      cases hd : strtok domain with
      | none => simp
      | some d => exact absurd hd (hs p.1 p.2 d.1 d.2 hp)

/-- What a lookup is for. -/
def Advertised (c : Libc) (op : Lookup) (set : List Name) (url : Name) : Prop :=
  match op with
  | .xm => url ∈ set
  | .sfr => ∃ p ∈ set, p <:+ url
  | .sfl => ∃ p ∈ set, p <+: url
  | .wild => ∃ p ∈ set, GlobMatch c p url

def Lookup.inOp : Lookup → FqdnOp
  | .xm => .isIn
  | .sfr => .sfrIn
  | .sfl => .sflIn
  | .wild => .wildIn

def Lookup.outOp : Lookup → FqdnOp
  | .xm => .out
  | .sfr => .sfrOut
  | .sfl => .sflOut
  | .wild => .wildOut

variable (op : Lookup)

@[simp] theorem Lookup.lookup_inOp : op.inOp.lookup = op := by cases op <;> rfl

@[simp] theorem Lookup.lookup_outOp : op.outOp.lookup = op := by cases op <;> rfl

@[simp] theorem Lookup.inPolicy_inOp : op.inOp.inPolicy = true := by cases op <;> rfl

@[simp] theorem Lookup.inPolicy_outOp : op.outOp.inPolicy = false := by cases op <;> rfl

/-- The FQDN rule of a policy is what it says: each operator decides its relation, an operator and its
complement disagree, and the order of the patterns does not count. -/
structure Correct (c : Libc) (set : List Name) (url : Name) : Prop where
  advertised : ∀ op : Lookup, fsmFqdnCheck c ⟨true, op.inOp, some set⟩ url = true ↔ Advertised c op set url
  complement : ∀ op : Lookup,
    fsmFqdnCheck c ⟨true, op.outOp, some set⟩ url = !fsmFqdnCheck c ⟨true, op.inOp, some set⟩ url
  order : ∀ (op : FqdnOp) (set' : List Name), set'.Perm set →
    fsmFqdnCheck c ⟨true, op, some set'⟩ url = fsmFqdnCheck c ⟨true, op, some set⟩ url

/-! ## What the loop computes -/

section Loop

variable (c : Libc) (url : Name)

theorem fsmFqdnInSet_wild (set : List Name) : fsmFqdnInSet c .wild url set =
      ((set.find? fun p => decide (p.length ≤ url.length)).any fun p => fsmPolicyWildmatch c p url) := by
  induction set with
  | nil => rfl
  | cons p set ih =>
    rw [fsmFqdnInSet]
    by_cases hl : url.length < p.length
    · rw [if_pos hl, find?_cons_of_neg (by simpa using hl), ih]
    · rw [if_neg hl, find?_cons_of_pos (by simpa using hl)]
      simp

variable {c}

theorem fsmPolicyWildmatch_iff (hf : ∀ s, c.freed s = s) (pattern : Name) :
    fsmPolicyWildmatch c pattern url = true ↔ GlobMatch c pattern url := by
  rw [← labelLoop_iff, fsmPolicyWildmatch, labelLoop.eq_def]
  cases strtok pattern <;> cases strtok url <;> simp [hf]

end Loop

/-! ## The rule -/

/-- The sets and names that the loop decides as advertised. A pattern that is a proper prefix of the name
passes for the name itself, and of the wildcard patterns not longer than the name only the first counts. -/
structure Unambiguous (c : Libc) (set : List Name) (url : Name) : Prop where
  exact : url ∈ set ∨ ∀ p ∈ set, ¬ p <+: url
  wild : (∀ p ∈ set, ¬ GlobMatch c p url) ∨
    (∃ p ∈ set, p.length ≤ url.length) ∧ ∀ p ∈ set, p.length ≤ url.length → GlobMatch c p url

section Rule

variable {c : Libc} {set : List Name} {url : Name}

theorem fsmFqdnCheck_inOp : fsmFqdnCheck c ⟨true, op.inOp, some set⟩ url = fsmFqdnInSet c op url set := by
  simp [fsmFqdnCheck_present]

section

variable (hf : ∀ s, c.freed s = s)
include hf

theorem wild_iff : fsmFqdnInSet c .wild url set = true ↔
      ∃ p, set.find? (fun p => decide (p.length ≤ url.length)) = some p ∧ GlobMatch c p url := by
  rw [fsmFqdnInSet_wild, Option.any_eq_true]
  apply exists_congr
  intro p
  rw [fsmPolicyWildmatch_iff url hf]

theorem wild_front {p : Name} (hfi : p.length ≤ url.length) (rest : List Name) :
    fsmFqdnInSet c .wild url (p :: rest) = true ↔ GlobMatch c p url := by
  rw [wild_iff hf, find?_cons_of_pos (by simpa using hfi)]
  simp

theorem Correct.wild (h : Correct c set url) : (∀ p ∈ set, ¬ GlobMatch c p url) ∨
      (∃ p ∈ set, p.length ≤ url.length) ∧ ∀ p ∈ set, p.length ≤ url.length → GlobMatch c p url := by
  have ha := h.advertised .wild
  rw [fsmFqdnCheck_inOp] at ha
  by_cases hma : ∃ p ∈ set, GlobMatch c p url
  · apply Or.inr
    have ht := ha.mpr hma
    constructor
    · obtain ⟨p, hp, -⟩ := (wild_iff hf).mp ht
      exact ⟨p, mem_of_find?_eq_some hp, by simpa using find?_some hp⟩
    · intro p hp hfi
      -- in the order with this pattern first, the verdict is the pattern's own
      have ho := h.order Lookup.wild.inOp (p :: set.erase p) (perm_cons_erase hp).symm
      rw [fsmFqdnCheck_inOp, fsmFqdnCheck_inOp, ht] at ho
      exact (wild_front hf hfi _).mp ho
  · exact Or.inl fun p hp hm => hma ⟨p, hp, hm⟩

omit hf in
theorem Unambiguous.perm {set' : List Name} (h : Unambiguous c set url) (hp : set'.Perm set) :
    Unambiguous c set' url := by
  constructor
  · simpa only [hp.mem_iff] using h.exact
  · simpa only [hp.mem_iff] using h.wild

end

theorem Advertised.perm {op : Lookup} {set' : List Name} (hp : set'.Perm set) :
    Advertised c op set' url ↔ Advertised c op set url := by
  cases op <;> simp only [Advertised, hp.mem_iff]

end Rule

/-- Labels compared as plain texts, released memory left as it was. -/
def plainLibc : Libc where
  fnmatch p l := p == l
  freed s := s

end OpenSync.Fsm
