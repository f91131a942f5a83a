import OpenSync.Ovsdb

/-!
# Transactions with comments

`ovsdb_tran_multi` puts a comment in front of some operations, and the server answers it with an empty object, as it
answers a wait. `ovsdb_rpc_callback` takes one such object off the front of the answers.
-/

namespace OpenSync.Ovsdb
open List

inductive Tro
  | insert | select | update | mutate | delete | wait
  deriving DecidableEq

/-- The conditions of an operation, as far as they are arrays and strings. -/
abbrev Where := Option (List (Option (List (Option Text))))

/-- An operation, and what the server answers if it is not a wait. -/
structure Call (α : Type*) where
  oper : Tro
  cond : Where
  result : α

inductive Request (α : Type*)
  | comment (text : Text)
  | operation (call : Call α)

inductive Answer (α : Type*)
  | empty
  | result (a : α)

def strscat (dest src : Text) : Text := (dest ++ src).take 127

def commentOp : Tro → Option Text
  | .insert => some "insert".toList
  | .update => some "update".toList
  | .mutate => some "mutate".toList
  | .delete => some "delete".toList
  | _ => none

def commentText (ovsdbComment op : Text) (cond : Where) : Text :=
  (cond.getD []).foldl (fun comment js =>
    let comment := strscat comment ", ".toList
    match js with
    | none => strscat comment "\x7buknown\x7d".toList
    | some strs => strs.foldl (fun comment str => strscat comment (str.getD "<null>".toList)) comment)
    (strscat (strscat (ovsdbComment.take 127) " - ".toList) op)

/-- The name of the client, and which texts `json_string` takes. -/
structure Commenter where
  ovsdbComment : Text
  jsonString : Text → Bool

section Transaction

variable {α : Type*} (m : Commenter)

/-- The text may have been cut within a character; `json_string` then has no result, and there is no comment. -/
def ovsdbTranComment (call : Call α) : List (Request α) :=
  match commentOp call.oper with
  | none => []
  | some op =>
    let text := commentText m.ovsdbComment op call.cond
    if m.jsonString text then [.comment text] else []

def ovsdbTranMulti (jarray : List (Request α)) (call : Call α) : List (Request α) :=
  jarray ++ ovsdbTranComment m call ++ [.operation call]

def answer : Request α → Answer α
  | .comment _ => .empty
  | .operation call => if call.oper = .wait then .empty else .result call.result

/-- What is passed to the callback. -/
def ovsdbRpcCallback : List (Answer α) → List (Answer α)
  | .empty :: jsmsg => jsmsg
  | jsmsg => jsmsg

def LinesUp (calls : List (Call α)) : Prop :=
  ovsdbRpcCallback ((calls.foldl (ovsdbTranMulti m) []).map answer) = calls.map fun call => answer (.operation call)

def Plain (call : Call α) : Prop := ovsdbTranComment m call = []

/-- Waits, then an operation with a comment, then operations without. -/
def CommentAfterWaits : List (Call α) → Prop
  | [] => False
  | call :: calls => ¬ Plain m call ∧ (∀ c ∈ calls, Plain m c) ∨ call.oper = .wait ∧ CommentAfterWaits calls

def answers (calls : List (Call α)) : List (Answer α) :=
  calls.flatMap fun call => (ovsdbTranComment m call).map answer ++ [answer (.operation call)]

variable {m} {call : Call α}

theorem plain_of_wait (h : call.oper = .wait) : Plain m call := by
  rw [Plain, ovsdbTranComment, h]
  rfl

theorem answer_eq_empty : answer (.operation call) = .empty ↔ call.oper = .wait := by
  rw [answer]
  split_ifs with h <;> simp [h]

theorem answers_cons (calls : List (Call α)) : answers m (call :: calls) = (ovsdbTranComment m call).map answer ++
      answer (.operation call) :: answers m calls := by
  rw [answers, flatMap_cons, append_assoc]
  rfl

theorem map_comment (h : ¬ Plain m call) : (ovsdbTranComment m call).map answer = [.empty] := by
  unfold Plain at h
  unfold ovsdbTranComment at h ⊢
  split at h
  · exact absurd rfl h
  · simp only at h ⊢
    split_ifs at h ⊢
    · rfl
    · exact absurd rfl h

theorem foldl_ovsdbTranMulti (calls : List (Call α)) (jarray : List (Request α)) :
    (calls.foldl (ovsdbTranMulti m) jarray).map answer = jarray.map answer ++ answers m calls := by
  induction calls generalizing jarray with
  | nil => simp [answers]
  | cons call calls ih =>
    rw [foldl_cons, ih, answers_cons, ovsdbTranMulti]
    simp

theorem length_le_answers (m : Commenter) (calls : List (Call α)) : calls.length ≤ (answers m calls).length := by
  induction calls with
  | nil => exact Nat.zero_le _
  | cons call calls ih =>
    rw [answers_cons, length_append, length_cons, length_cons]
    omega

theorem answers_eq_map {calls : List (Call α)} : answers m calls =
    (calls.map fun call => answer (.operation call)) ↔ ∀ c ∈ calls, Plain m c := by
  induction calls with
  | nil => simp [answers]
  | cons call calls ih =>
    rw [answers_cons, map_cons, forall_mem_cons]
    by_cases h : Plain m call
    · rw [show ovsdbTranComment m call = [] from h, map_nil, nil_append, cons.injEq, ih]
      simp [h]
    -- a comment makes the answers longer than the operations
    have hle := length_le_answers m calls
    rw [map_comment h]
    refine iff_of_false (fun heq => ?_) fun ha => h ha.1
    have hl := congrArg length heq
    simp only [singleton_append, length_cons, length_map] at hl
    omega

theorem answers_eq_empty_cons {calls : List (Call α)} : answers m calls =
    .empty :: (calls.map fun call => answer (.operation call)) ↔ CommentAfterWaits m calls := by
  induction calls with
  | nil => simp [answers, CommentAfterWaits]
  | cons call calls ih =>
    rw [answers_cons, CommentAfterWaits, map_cons]
    by_cases h : Plain m call
    · rw [show ovsdbTranComment m call = [] from h, map_nil, nil_append, cons.injEq, answer_eq_empty, ← ih]
      constructor
      · rintro ⟨hw, heq⟩
        exact .inr ⟨hw, by rw [heq, answer_eq_empty.mpr hw]⟩
      · rintro (⟨hc, -⟩ | ⟨hw, heq⟩)
        · exact absurd h hc
        · exact ⟨hw, by rw [heq, answer_eq_empty.mpr hw]⟩
    · have hw : call.oper ≠ .wait := fun hw => h (plain_of_wait hw)
      rw [map_comment h, singleton_append, cons.injEq, cons.injEq, answers_eq_map]
      simp [h, hw]

end Transaction

/-- The answers line up if there are no comments and the first operation is no wait, or if there is one comment and only
waits are before it. -/
theorem linesUp_iff {α : Type*} (m : Commenter) (calls : List (Call α)) :
    LinesUp m calls ↔ (∀ c ∈ calls, Plain m c) ∧ (∀ c ∈ calls.head?, c.oper ≠ .wait) ∨ CommentAfterWaits m calls := by
  rw [LinesUp, foldl_ovsdbTranMulti, map_nil, nil_append]
  cases calls with
  | nil => simp [answers, ovsdbRpcCallback]
  | cons call calls =>
    by_cases h : Plain m call
    · rw [answers_cons, show ovsdbTranComment m call = [] from h, map_nil, nil_append]
      by_cases hw : call.oper = .wait
      · rw [answer_eq_empty.mpr hw, ovsdbRpcCallback, map_cons, answer_eq_empty.mpr hw, answers_eq_empty_cons]
        simp [CommentAfterWaits, h, hw]
      · have ha : answer (.operation call) = .result call.result := if_neg hw
        rw [ha, ovsdbRpcCallback, map_cons, ha, cons.injEq, answers_eq_map]
        · simp [CommentAfterWaits, h, hw]
        · exact fun _ heq => nomatch heq
    · rw [answers_cons, map_comment h, singleton_append, ovsdbRpcCallback, map_cons, cons.injEq, answers_eq_map]
      have hw : call.oper ≠ .wait := fun hw => h (plain_of_wait hw)
      simp [CommentAfterWaits, h, hw]

/-- Two insertions: the second comment's answer takes the place of the second result. -/
theorem second_comment_stays : ¬ LinesUp ⟨"DM".toList, fun _ => true⟩ [⟨.insert, none, 1⟩, ⟨.insert, none, 2⟩] := by
  intro h
  have hl := congrArg length h
  revert hl
  decide

end OpenSync.Ovsdb
