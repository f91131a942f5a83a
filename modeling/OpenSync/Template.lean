import OpenSync.Product
import OpenSync.Tags

/-!
# Template rules

A template rule refers to tags by `$` and braces, to tag groups by `$` and brackets; a sign after the
opening bracket restricts a reference to device, cloud or local values. `om_tflows.c`, `om_template.c` and
`nfm_trule.c` hold the same functions twice: here is the text of both. The references of a rule are
detected when the template is registered, and the rule is expanded for each choice of values.
-/

namespace OpenSync.Template

open Tags Product

/-- Split a text at the first occurrence of a character, as `strchr` finds it. -/
def cutAt (c : Char) : Text → Option (Text × Text)
  | [] => none
  | d :: s => if d = c then some ([], s) else (cutAt c s).map fun p => (d :: p.1, p.2)

theorem cutAt_eq_some {c : Char} {s a b : Text} (h : cutAt c s = some (a, b)) : s = a ++ c :: b ∧ c ∉ a := by
  induction s generalizing a with
  | nil => simp [cutAt] at h
  | cons d s ih =>
    rw [cutAt] at h
    split_ifs at h with hd
    · obtain ⟨rfl, rfl⟩ : [] = a ∧ s = b := by simpa using h
      exact ⟨by rw [hd]; rfl, by simp⟩
    obtain ⟨⟨a', b'⟩, hcu, heq⟩ := Option.map_eq_some_iff.mp h
    obtain ⟨rfl, rfl⟩ : d :: a' = a ∧ b' = b := by simpa using heq
    obtain ⟨rfl, hm⟩ := ih hcu
    refine ⟨rfl, ?_⟩
    intro hc
    rcases List.mem_cons.mp hc with rfl | hc
    · exact hd rfl
    · exact hm hc

theorem cutAt_length {c : Char} {s a b : Text} (h : cutAt c s = some (a, b)) : b.length < s.length := by
  rw [(cutAt_eq_some h).1, List.length_append, List.length_cons]
  omega

/-- The sign of a reference as flags, and the text after it. -/
def filterSign : Text → Flags × Text
  | '@' :: s => (flagDevice, s)
  | '#' :: s => (flagCloud, s)
  | '*' :: s => (flagLocal, s)
  | s => (0, s)

theorem filterSign_length (s : Text) : (filterSign s).2.length ≤ s.length := by
  unfold filterSign
  split <;> simp

/-! ## References -/

/-- One of the two kinds of references: its brackets and the flags of its entries. -/
structure Kind where
  opening : Char
  closing : Char
  base : Flags

def tagKind : Kind := ⟨'{', '}', 0⟩

def groupKind : Kind := ⟨'[', ']', flagGroup⟩

/-- Only the first reference to a tag is recorded. -/
def addRef (k : Kind) (refs : List Entry) (name : Text) (flags : Flags) : List Entry :=
  if (entryFindByValFlags refs name k.base).isNone then entryAdd refs ⟨name, k.base ||| flags⟩ else refs

def detectVars (k : Kind) (s : Text) (refs : List Entry) : List Entry :=
  match hs : cutAt '$' s with
  | none => refs
  | some (_, []) => refs
  | some (_, c :: t) =>
    if c ≠ k.opening then detectVars k (c :: t) refs
    else
      match ht : cutAt k.closing (filterSign t).2 with
      -- a reference without an end is skipped
      | none => detectVars k (filterSign t).2 refs
      | some (name, rest) => detectVars k rest (addRef k refs name (filterSign t).1)
termination_by s.length
decreasing_by
  all_goals
    have h := cutAt_length hs
    have h' := filterSign_length t
    simp only [List.length_cons] at h ⊢
  · omega
  · omega
  · have h'' := cutAt_length ht
    omega

/-- The references of a rule: first the tags, then the groups. -/
def detectRefs (rule : Text) : List Entry := detectVars groupKind rule (detectVars tagKind rule [])

def isTemplate (s : Text) : Bool :=
  match hs : cutAt '$' s with
  | none => false
  | some (_, []) => false
  | some (_, c :: t) =>
    if c = tagKind.opening && t.contains tagKind.closing then true
    else if c = groupKind.opening && t.contains groupKind.closing then true
    else isTemplate (c :: t)
termination_by s.length
decreasing_by exact cutAt_length hs

/-! ## Expansion -/

structure Binding where
  name : Text
  group : Bool
  value : Text
  deriving DecidableEq

def Binding.key (b : Binding) : Text × Bool := (b.name, b.group)

def tdataGetValue (tv : List Binding) (name : Text) (group : Bool) : Option Text :=
  (tv.find? fun b => b.name = name && b.group = group).map Binding.value

/-- The kind of reference that starts with a character. -/
def kindOf (c : Char) : Option Kind :=
  if c = tagKind.opening then some tagKind
  else if c = groupKind.opening then some groupKind
  else none

/-- The rule with each reference replaced by its value; no result if a reference has no end or no
value. -/
def expand (tv : List Binding) (s : Text) : Option Text :=
  match hs : cutAt '$' s with
  | none => some s
  | some (pre, []) => some (pre ++ ['$'])
  | some (pre, c :: t) =>
    match kindOf c with
    | none => (expand tv (c :: t)).map fun r => pre ++ '$' :: r
    | some k =>
      match ht : cutAt k.closing (filterSign t).2 with
      | none => none
      | some (name, rest) =>
        match tdataGetValue tv name (k.base ≠ 0) with
        | none => none
        | some v => (expand tv rest).map fun r => pre ++ v ++ r
termination_by s.length
decreasing_by
  all_goals
    have h := cutAt_length hs
    have h' := filterSign_length t
    simp only [List.length_cons] at h ⊢
  · omega
  · have h'' := cutAt_length ht
    omega

/-! ## The walk over all choices of values -/

inductive Action where
  | add
  | delete
  deriving DecidableEq

inductive Filter where
  | normal
  | matching
  | mismatch
  deriving DecidableEq

/-- The value is not skipped under the filter flags of the reference. -/
def Filter.keeps (flt : Filter) (filterFlags flags : Flags) : Bool :=
  match flt with
  | .normal => !(filterFlags ≠ 0 && flags &&& filterFlags = 0)
  | .matching => !(filterFlags = 0 || flags &&& filterFlags = 0)
  | .mismatch => !(filterFlags = 0 || flags &&& filterFlags ≠ 0)

/-- Values that stand for those of a tag. -/
structure Override where
  name : Text
  values : List Entry
  filter : Filter

def maxTagsPerRule : ℕ := 5

def isGroup (r : Entry) : Bool := r.flags &&& flagGroup ≠ 0

/-- What a walk depends on: the tags, the references of the template, the overridden tag, the result for
a missing tag, whether failures of the last step are ignored, and the last step. -/
structure Walk (σ : Type*) where
  tags : List Tag
  refs : List Entry
  override : Option Override
  missing : Bool
  ignoreErr : Bool
  apply : σ → List Binding → Bool × σ

variable {σ : Type*}

def Walk.source (w : Walk σ) (r : Entry) : Option (List Entry × Filter) :=
  match w.override.filter fun o => r.value = o.name with
  | some o => some (o.values, o.filter)
  | none => (tagFindByName w.tags r.value (isGroup r)).map fun t => (t.values, Filter.normal)

def Walk.finish (w : Walk σ) (s : σ) (tv : List Binding) : Bool × σ :=
  ((w.apply s tv).1 || w.ignoreErr, (w.apply s tv).2)

def applyTag (w : Walk σ) : List Entry → List Binding → σ → Bool × σ
  | [], tv, s => w.finish s tv
  | r :: rest, tv, s =>
    match w.source r with
    | none => (w.missing, s)
    | some (values, flt) =>
      match entryFindByValFlags w.refs r.value r.flags with
      | none => (false, s)
      | some f =>
        tryAll (fun s e =>
            if rest ≠ [] ∧ maxTagsPerRule ≤ tv.length + 1 then (false, s)
            else applyTag w rest (tv ++ [⟨r.value, isGroup r, e.value⟩]) s)
          (values.filter fun e => flt.keeps (varFlags f.flags) e.flags) s

/-- A walk with values of the reported tag, if there are any. -/
def tagPass (walk : Action → Bool → Override → σ → σ) (n : Note) (type : Action) (ignoreErr : Bool)
    (values : List Entry) (filter : Filter) (s : σ) : σ :=
  if values = [] then s else walk type ignoreErr ⟨n.tag.name, values, filter⟩ s

/-- The four walks of a template for a changed tag: removals, additions, and for the updated values first
those that do not match, whose flows may not exist, and then those that match. -/
def tagPasses (walk : Action → Bool → Override → σ → σ) (n : Note) (s : σ) : σ :=
  let s := tagPass walk n .delete false n.removed .normal s
  let s := tagPass walk n .add false n.added .normal s
  let s := tagPass walk n .delete true n.updated .mismatch s
  tagPass walk n .add false n.updated .matching s

end OpenSync.Template
