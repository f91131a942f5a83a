import OpenSync.Ovsdb

/-!
# Where an object ends

The grammar of JSON, as far as it matters here: texts with nested braces, with strings, and with everything else that has
neither. The splitter finds the end of an object whatever follows. On a part of an object it asks for more, unless the part
ends within an escape sequence; then it takes the text for wrong.
-/

namespace OpenSync.Ovsdb
open List

/-! ## The grammar -/

/-- A character of a string: one that stands for itself, an escape, or a code in four digits. -/
inductive StrItem
  | plain (c : Char) (h : c ≠ '"' ∧ c ≠ '\\' ∧ c ≠ '\x00')
  | escape (c : Char) (h : isEscape c = true ∧ c ≠ 'u')
  | code (x₁ x₂ x₃ x₄ : Char) (h : isxdigit x₁ && isxdigit x₂ && isxdigit x₃ && isxdigit x₄)

def StrItem.text : StrItem → Text
  | .plain c _ => [c]
  | .escape c _ => ['\\', c]
  | .code x₁ x₂ x₃ x₄ _ => ['\\', 'u', x₁, x₂, x₃, x₄]

def itemsText (items : List StrItem) : Text := items.flatMap StrItem.text

def stringText (items : List StrItem) : Text := '"' :: (itemsText items ++ ['"'])

def isSpace (c : Char) : Bool := [' ', '\t', '\n', '\r'].contains c

def isScalar (c : Char) : Bool := c.isAlphanum || ['+', '-', '.'].contains c

inductive Part
  | value
  | members
  | elements

/-- Texts of values, and what stands between the braces of an object or the brackets of an array. -/
inductive Json : Part → Text → Prop
  | scalar (t : Text) : (∀ c ∈ t, isScalar c = true) → Json .value t
  | string (items : List StrItem) : Json .value (stringText items)
  | object {t : Text} : Json .members t → Json .value ('\x7b' :: (t ++ ['\x7d']))
  | array {t : Text} : Json .elements t → Json .value ('[' :: (t ++ [']']))
  | noMembers {w : Text} : (∀ c ∈ w, isSpace c = true) → Json .members w
  | member {w₁ w₂ w₃ w₄ v : Text} (key : List StrItem) : (∀ c ∈ w₁ ++ w₂ ++ w₃ ++ w₄, isSpace c = true) → Json .value v →
      Json .members (w₁ ++ stringText key ++ w₂ ++ [':'] ++ w₃ ++ v ++ w₄)
  | moreMembers {t t' : Text} : Json .members t → Json .members t' → Json .members (t ++ [','] ++ t')
  | noElements {w : Text} : (∀ c ∈ w, isSpace c = true) → Json .elements w
  | element {w₁ w₂ v : Text} : (∀ c ∈ w₁ ++ w₂, isSpace c = true) → Json .value v → Json .elements (w₁ ++ v ++ w₂)
  | moreElements {t t' : Text} : Json .elements t → Json .elements t' → Json .elements (t ++ [','] ++ t')

def IsObject (t : Text) : Prop := ∃ m, Json .members m ∧ t = '\x7b' :: (m ++ ['\x7d'])

/-! ## Texts by their braces -/

def isOther (c : Char) : Bool := c != '\x7b' && c != '\x7d' && c != '"' && c != '\x00'

inductive Balanced : Text → Prop
  | nil : Balanced []
  | other {c : Char} {t : Text} : isOther c = true → Balanced t → Balanced (c :: t)
  | string {t : Text} (items : List StrItem) : Balanced t → Balanced (stringText items ++ t)
  | object {b t : Text} : Balanced b → Balanced t → Balanced ('\x7b' :: (b ++ '\x7d' :: t))

theorem Balanced.append {t t' : Text} (h : Balanced t) (h' : Balanced t') : Balanced (t ++ t') := by
  induction h with
  | nil => exact h'
  | other hc _ ih => exact .other hc ih
  | string items _ ih =>
    rw [append_assoc]
    exact .string items ih
  | object hb _ _ ih =>
    rw [cons_append, append_assoc, cons_append]
    exact .object hb ih

variable {t : Text}

theorem Balanced.of_other (h : ∀ c ∈ t, isOther c = true) : Balanced t := by
  induction t with
  | nil => exact .nil
  | cons c t ih => exact .other (h c mem_cons_self) (ih (forall_mem_cons.mp h).2)

variable {c : Char}

theorem isOther_of_isSpace (h : isSpace c = true) : isOther c = true := by
  simp only [isSpace, contains_eq_mem, mem_cons, not_mem_nil, or_false, decide_eq_true_eq] at h
  rcases h with rfl | rfl | rfl | rfl <;> decide

theorem isOther_of_isScalar (h : isScalar c = true) : isOther c = true := by
  have hne : c ≠ '\x7b' ∧ c ≠ '\x7d' ∧ c ≠ '"' ∧ c ≠ '\x00' := by
    refine ⟨?_, ?_, ?_, ?_⟩ <;> rintro rfl <;> exact absurd h (by decide)
  simp [isOther, hne]

theorem Balanced.single (h : isOther c = true) : Balanced [c] := .other h .nil

theorem Json.balanced {p : Part} (h : Json p t) : Balanced t := by
  have hs : ∀ {w : Text}, (∀ c ∈ w, isSpace c = true) → Balanced w := fun hw =>
    Balanced.of_other fun c hc => isOther_of_isSpace (hw c hc)
  have hst : ∀ items, Balanced (stringText items) := fun items => by
    simpa using Balanced.string items .nil
  induction h with
  | scalar t h => exact Balanced.of_other fun c hc => isOther_of_isScalar (h c hc)
  | string items => exact hst items
  | object _ ih => exact .object ih .nil
  | array _ ih => exact .other (by decide) (ih.append (.single (by decide)))
  | noMembers h | noElements h => exact hs h
  | @member w₁ w₂ w₃ w₄ v key h _ ih =>
    simp only [forall_mem_append] at h
    obtain ⟨⟨⟨h₁, h₂⟩, h₃⟩, h₄⟩ := h
    exact ((((((hs h₁).append (hst key)).append (hs h₂)).append (.single (by decide))).append
      (hs h₃)).append ih).append (hs h₄)
  | moreMembers _ _ ih ih' | moreElements _ _ ih ih' => exact (ih.append (.single (by decide))).append ih'
  | element h _ ih =>
    obtain ⟨h₁, h₂⟩ := forall_mem_append.mp h
    exact ((hs h₁).append ih).append (hs h₂)

/-! ## Escape sequences -/

/-- Where a text stands: outside of strings, in a string, behind a backslash, or before so many digits of a code. -/
inductive Lex
  | outside
  | string
  | escape
  | code (left : Nat)
  deriving DecidableEq

def Lex.next : Lex → Char → Lex
  | .outside, c => if c = '"' then .string else .outside
  | .string, c => if c = '"' then .outside else if c = '\\' then .escape else .string
  | .escape, c => if c = 'u' then .code 4 else .string
  | .code left, _ => if left ≤ 1 then .string else .code (left - 1)

def Lex.run (l : Lex) (t : Text) : Lex := t.foldl Lex.next l

def Lex.isInside : Lex → Bool
  | .escape | .code _ => true
  | .outside | .string => false

def midEscape (t : Text) : Bool := (Lex.run .outside t).isInside

/-- What the splitter makes of a text that is cut short. -/
def cutShort (l : Lex) : Split := if l.isInside then .error else .incomplete

@[simp] theorem Lex.run_nil (l : Lex) : Lex.run l [] = l := rfl

@[simp] theorem Lex.run_cons (l : Lex) (c : Char) (t : Text) : Lex.run l (c :: t) = Lex.run (l.next c) t := rfl

theorem Lex.run_append (l : Lex) (t t' : Text) : Lex.run l (t ++ t') = Lex.run (Lex.run l t) t' := foldl_append

theorem prefix_append_cases {p a b : Text} (h : p <+: a ++ b) : p <+: a ∨ ∃ p', p = a ++ p' ∧ p' <+: b := by
  rcases prefix_or_prefix_of_prefix h (prefix_append a b) with hp | ⟨p', rfl⟩
  · exact .inl hp
  · exact .inr ⟨p', rfl, (prefix_append_right_inj a).mp h⟩

/-! ## Strings -/

theorem scan_plain (h : c ≠ '"' ∧ c ≠ '\\') (level : Int) (t : Text) :
    scan .quotes level (c :: t) = scan .quotes level t := by
  simp [scan_quotes, h]

theorem scan_escape (h : isEscape c = true ∧ c ≠ 'u') (level : Int) (t : Text) :
    scan .quotes level ('\\' :: c :: t) = scan .quotes level t := by
  simp [scan_quotes, h]

theorem scan_quote (level : Int) (t : Text) : scan .quotes level ('"' :: t) = scan .braces level t := by
  simp [scan_quotes]

open StrItem

variable (item : StrItem)

theorem scan_item (level : Int) (t : Text) :
    scan .quotes level (item.text ++ t) = scan .quotes level t := by
  cases item with
  | plain c h => exact scan_plain ⟨h.1, h.2.1⟩ level t
  | escape c h => exact scan_escape h level t
  | code x₁ x₂ x₃ x₄ h =>
    have hu : isEscape 'u' = true := by decide
    simp only [text, cons_append, nil_append, scan_quotes]
    simp [hu, h]

open Lex

theorem lex_item : Lex.run .string item.text = .string := by
  cases item with
  | plain c h => simp [text, Lex.next, h.1, h.2.1]
  | escape c h => simp [text, Lex.next, h.2]
  | code x₁ x₂ x₃ x₄ h => simp [text, Lex.next]

variable (items : List StrItem)

theorem scan_items (level : Int) (t : Text) : scan .quotes level (itemsText items ++ t) = scan .quotes level t := by
  induction items with
  | nil => rfl
  | cons item items ih =>
    rw [itemsText, flatMap_cons, append_assoc, scan_item]
    exact ih

theorem lex_items : Lex.run .string (itemsText items) = .string := by
  induction items with
  | nil => rfl
  | cons item items ih =>
    rw [itemsText, flatMap_cons, run_append, lex_item]
    exact ih

theorem scan_item_part {item : StrItem} {p : Text} (hp : p <+: item.text) (hne : p ≠ item.text) (level : Int) :
    scan .quotes level p = cutShort (Lex.run .string p) := by
  have hu : isEscape 'u' = true := by decide
  cases item with
  | plain c h =>
    rcases p with _ | ⟨a, p⟩
    · rfl
    · simp only [text, cons_prefix_cons, prefix_nil] at hp
      exact absurd (by simp [text, hp]) hne
  | escape c h =>
    rcases p with _ | ⟨a, _ | ⟨b, p⟩⟩
    · rfl
    · simp only [text, cons_prefix_cons] at hp
      simp [hp.1, scan_quotes, cutShort, Lex.next, isInside]
    · simp only [text, cons_prefix_cons, prefix_nil] at hp
      exact absurd (by simp [text, hp]) hne
  | code x₁ x₂ x₃ x₄ h =>
    rcases p with _ | ⟨a, _ | ⟨b, p⟩⟩
    · rfl
    · simp only [text, cons_prefix_cons] at hp
      simp [hp.1, scan_quotes, cutShort, Lex.next, isInside]
    · simp only [text, cons_prefix_cons] at hp hne
      obtain ⟨rfl, rfl, hp⟩ := hp
      -- The backslash and the letter are there, and some of the digits are missing.
      rcases p with _ | ⟨y₁, _ | ⟨y₂, _ | ⟨y₃, _ | ⟨y₄, p⟩⟩⟩⟩
      rotate_right
      · simp only [cons_prefix_cons, prefix_nil] at hp
        exact absurd (by simp [hp]) hne
      all_goals simp [scan_quotes, hu, cutShort, Lex.next, isInside]

theorem scan_items_part {items : List StrItem} {p : Text} (hp : p <+: itemsText items ++ ['"']) (level : Int) :
    scan .quotes level p = cutShort (Lex.run .string p) := by
  induction items generalizing p with
  | nil =>
    rcases p with _ | ⟨a, p⟩
    · rfl
    · simp only [itemsText, flatMap_nil, nil_append, cons_prefix_cons, prefix_nil] at hp
      simp [hp, scan_quotes, cutShort, Lex.next, isInside]
  | cons item items ih =>
    rw [itemsText, flatMap_cons, append_assoc] at hp
    by_cases hit : ∃ p', p = item.text ++ p'
    · obtain ⟨p', rfl⟩ := hit
      rw [scan_item, run_append, lex_item]
      exact ih ((prefix_append_right_inj _).mp hp)
    · have hpa : p <+: item.text := (prefix_append_cases hp).resolve_right fun ⟨p', he, _⟩ => hit ⟨p', he⟩
      exact scan_item_part hpa (fun he => hit ⟨[], by simp [he]⟩) level

theorem scan_string (level : Int) (t : Text) : scan .braces level (stringText items ++ t) = scan .braces level t := by
  have hq : scan .braces level (stringText items ++ t) = scan .quotes level (itemsText items ++ ('"' :: t)) := by
    simp [stringText, scan_braces]
  rw [hq, scan_items, scan_quote]

theorem lex_string : Lex.run .outside (stringText items) = .outside := by
  rw [stringText, Lex.run_cons]
  simp [Lex.next, run_append, lex_items]

/-! ## Objects -/

theorem scan_other (h : isOther c = true) (level : Int) (t : Text) :
    scan .braces level (c :: t) = scan .braces level t := by
  simp only [isOther, Bool.and_eq_true, bne_iff_ne] at h
  simp [scan_braces, h]

theorem lex_other (h : isOther c = true) : Lex.outside.next c = .outside := by
  simp only [isOther, Bool.and_eq_true, bne_iff_ne] at h
  simp [Lex.next, h]

theorem lex_outside_open : Lex.outside.next '\x7b' = .outside := rfl

theorem lex_outside_close : Lex.outside.next '\x7d' = .outside := rfl

variable {level : Int} {b : Text}

theorem Balanced.scan (h : Balanced b) (hl : 1 ≤ level) (t : Text) :
    scan .braces level (b ++ t) = Ovsdb.scan .braces level t := by
  induction h generalizing level t with
  | nil => rfl
  | other hc _ ih => rw [cons_append, scan_other hc, ih hl]
  | string items _ ih => rw [append_assoc, scan_string, ih hl]
  | @object b t' _ _ ihb iht =>
    have ho : Ovsdb.scan .braces level ('\x7b' :: (b ++ '\x7d' :: t') ++ t) =
        Ovsdb.scan .braces (level + 1) (b ++ ('\x7d' :: (t' ++ t))) := by
      simp [scan_braces]
    have hcl : Ovsdb.scan .braces (level + 1) ('\x7d' :: (t' ++ t)) = Ovsdb.scan .braces level (t' ++ t) := by
      have hne : level ≠ 0 := by omega
      simp [scan_braces, hne]
    rw [ho, ihb (by omega), hcl, iht hl]

theorem Balanced.lex (h : Balanced b) : Lex.run .outside b = .outside := by
  induction h with
  | nil => rfl
  | other hc _ ih => rw [Lex.run_cons, lex_other hc, ih]
  | string items _ ih => rw [run_append, lex_string, ih]
  | object _ _ ihb iht =>
    rw [Lex.run_cons, lex_outside_open, run_append, ihb, Lex.run_cons, lex_outside_close, iht]

theorem scan_open (level : Int) (t : Text) : scan .braces level ('\x7b' :: t) = scan .braces (level + 1) t := by
  simp [scan_braces]

theorem scan_close (hl : 1 ≤ level) (t : Text) : scan .braces (level + 1) ('\x7d' :: t) = scan .braces level t := by
  have hne : level ≠ 0 := by omega
  simp [scan_braces, hne]

theorem Balanced.scan_part {b p : Text} (h : Balanced b) (hp : p <+: b) (hl : 1 ≤ level) :
    Ovsdb.scan .braces level p = cutShort (Lex.run .outside p) := by
  induction h generalizing level p with
  | nil =>
    rw [prefix_nil.mp hp]
    rfl
  | @other c t hc _ ih =>
    rcases p with _ | ⟨a, p⟩
    · rfl
    · obtain ⟨rfl, hr⟩ := cons_prefix_cons.mp hp
      rw [scan_other hc, Lex.run_cons, lex_other hc, ih hr hl]
  | string items _ ih =>
    rcases prefix_append_cases hp with hp | ⟨p', rfl, hp'⟩
    · rcases p with _ | ⟨a, p⟩
      · rfl
      · obtain ⟨rfl, hr⟩ := cons_prefix_cons.mp hp
        have hq : Ovsdb.scan .braces level ('"' :: p) = Ovsdb.scan .quotes level p := by simp [scan_braces]
        rw [hq, scan_items_part hr, Lex.run_cons]
        rfl
    · rw [scan_string, run_append, lex_string, ih hp' hl]
  | @object b t hb _ ihb iht =>
    rcases p with _ | ⟨a, p⟩
    · rfl
    obtain ⟨rfl, hr⟩ := cons_prefix_cons.mp hp
    rw [scan_open, Lex.run_cons, lex_outside_open]
    rcases prefix_append_cases hr with hr | ⟨p', rfl, hp'⟩
    · exact ihb hr (by omega)
    · rw [hb.scan (by omega), run_append, hb.lex]
      rcases p' with _ | ⟨a, p'⟩
      · rfl
      · obtain ⟨rfl, ha⟩ := cons_prefix_cons.mp hp'
        rw [scan_close hl, Lex.run_cons, lex_outside_close, iht ha hl]

theorem zero_notMem_item : '\x00' ∉ item.text := by
  have hes : isEscape '\x00' = false := by decide
  have hd : isxdigit '\x00' = false := by decide
  cases item with
  | plain c h => simpa [text] using h.2.2.symm
  | escape c h =>
    have hne : c ≠ '\x00' := fun hc => by simp [hc, hes] at h
    simpa [text] using hne.symm
  | code x₁ x₂ x₃ x₄ h =>
    simp only [Bool.and_eq_true] at h
    obtain ⟨⟨⟨h₁, h₂⟩, h₃⟩, h₄⟩ := h
    simp only [text, mem_cons, not_mem_nil, or_false, not_or]
    refine ⟨by decide, by decide, ?_, ?_, ?_, ?_⟩ <;> rintro rfl <;> simp_all

theorem Balanced.zero_notMem (h : Balanced b) : '\x00' ∉ b := by
  induction h with
  | nil => exact not_mem_nil
  | other hc _ ih =>
    simp only [isOther, Bool.and_eq_true, bne_iff_ne] at hc
    simp [ih, hc.2.symm]
  | string items _ ih =>
    have hit : '\x00' ∉ itemsText items := fun hm => by
      obtain ⟨item, _, hc⟩ := mem_flatMap.mp hm
      exact zero_notMem_item item hc
    simp [stringText, ih, hit]
  | object _ _ ihb iht => simp [ihb, iht]

/-! ## Messages -/

structure IsPiece (t : Text) : Prop where
  parts : ∃ blanks o, (∀ c ∈ blanks, isBlank c = true) ∧ IsObject o ∧ t = blanks ++ o

theorem IsObject.cases {o : Text} (h : IsObject o) : ∃ b, Balanced b ∧ o = '\x7b' :: (b ++ ['\x7d']) := by
  obtain ⟨m, hm, rfl⟩ := h
  exact ⟨m, hm.balanced, rfl⟩

theorem IsObject.lex {o : Text} (h : IsObject o) : Lex.run .outside o = .outside := by
  obtain ⟨b, hb, rfl⟩ := h.cases
  rw [Lex.run_cons, lex_outside_open, run_append, hb.lex]
  rfl

theorem isOther_of_isBlank (h : isBlank c = true) : isOther c = true := by
  simp only [isBlank, Bool.or_eq_true, beq_iff_eq] at h
  rcases h with rfl | rfl <;> decide

theorem lex_blanks {blanks : Text} (h : ∀ c ∈ blanks, isBlank c = true) : Lex.run .outside blanks = .outside :=
  (Balanced.of_other fun c hc => isOther_of_isBlank (h c hc)).lex

theorem jsonSplit_blanks {blanks : Text} (h : ∀ c ∈ blanks, isBlank c = true) (t : Text) :
    jsonSplit (blanks ++ t) = jsonSplit t := by
  rw [jsonSplit, jsonSplit, dropWhile_append_of_pos h]

theorem jsonSplit_open (t : Text) : jsonSplit ('\x7b' :: t) = scan .braces 1 t := by
  have hb : isBlank '\x7b' = false := by decide
  simp [jsonSplit, hb, scan_braces]

theorem jsonSplit_piece (h : IsPiece t) (more : Text) : jsonSplit (t ++ more) = .found more := by
  obtain ⟨blanks, o, hbl, ho, rfl⟩ := h.parts
  obtain ⟨b, hb, rfl⟩ := ho.cases
  rw [append_assoc, jsonSplit_blanks hbl, cons_append, jsonSplit_open, append_assoc, hb.scan (Int.le_refl 1)]
  simp [scan_braces]

theorem jsonSplit_part {t p : Text} (h : IsPiece t) (hp : p <+: t) (hlt : p.length < t.length) :
    jsonSplit p = cutShort (Lex.run .outside p) := by
  obtain ⟨blanks, o, hbl, ho, rfl⟩ := h.parts
  obtain ⟨b, hb, rfl⟩ := ho.cases
  rcases prefix_append_cases hp with hp | ⟨p', rfl, hp'⟩
  · have hpb : ∀ c ∈ p, isBlank c = true := fun c hc => hbl c (hp.subset hc)
    have hn : jsonSplit p = jsonSplit [] := by simpa using jsonSplit_blanks hpb []
    rw [hn, lex_blanks hpb]
    rfl
  · rw [jsonSplit_blanks hbl, run_append, lex_blanks hbl]
    rcases p' with _ | ⟨a, p⟩
    · rfl
    obtain ⟨rfl, hr⟩ := cons_prefix_cons.mp hp'
    rw [jsonSplit_open, Lex.run_cons, lex_outside_open]
    -- Only the last brace is missing, or more.
    have hpa : p <+: b := by
      rcases prefix_append_cases hr with hr | ⟨q, rfl, hq⟩
      · exact hr
      · rcases q with _ | ⟨a, q⟩
        · simp
        · obtain ⟨rfl, hn⟩ := cons_prefix_cons.mp hq
          exact absurd hlt (by simp)
    exact hb.scan_part hpa (Int.le_refl 1)

theorem IsPiece.zero_notMem (h : IsPiece t) : '\x00' ∉ t := by
  obtain ⟨blanks, o, hbl, ho, rfl⟩ := h.parts
  obtain ⟨b, hb, rfl⟩ := ho.cases
  have hb' := (Balanced.of_other fun c hc => isOther_of_isBlank (hbl c hc)).zero_notMem
  simp [hb', hb.zero_notMem]

theorem IsPiece.ne_nil (h : IsPiece t) : t ≠ [] := by
  obtain ⟨blanks, o, -, ho, rfl⟩ := h.parts
  obtain ⟨b, -, rfl⟩ := ho.cases
  simp

end OpenSync.Ovsdb
