import OpenSync.Nfm
import OpenSync.OsfwCount

/-!
# The rules an entry asks for

A plain rule asks the firewall layer for one rule for each family of its protocol, and a template for those of each
expansion. Adding and deleting walk through the same requests in the same order and end with the first one that fails.
-/

namespace OpenSync.Nfm
open Option

open Osfw (Family Table NfRule Slot strscpy)
open Tags Product Template

variable {σ : Type}

def requests (conf : Conf) : List Slot :=
  (families conf.protocol).map fun family => (family, nfmOsfwConvertTable conf.table, confRule conf)

def expansionRequests (conf : Conf) (tv : List Binding) : List Slot :=
  match expand tv conf.rule with
  | none => []
  | some rule => requests { conf with rule := strscpy sizeRule rule }

/-- The requests for all expansions, of which there are none if there are too many references. -/
def walkRequests (tags : List Tag) (conf : Conf) (refs : List Entry) : List Slot :=
  if refs.length ≤ maxTagsPerRule then (choose (current tags refs) refs).flatMap (expansionRequests conf) else []

def callOf (fw : Firewall σ) : Action → σ → Slot → Bool × σ
  | .add => fun s x => fw.ruleAdd s x.1 x.2.1 x.2.2
  | .delete => fun s x => fw.ruleDel s x.1 x.2.1 x.2.2

variable (fw : Firewall σ)

theorem nfmOsfwAddRule_eq (s : σ) (conf : Conf) :
    nfmOsfwAddRule fw s conf = tryAll (callOf fw .add) (requests conf) s := by
  rw [nfmOsfwAddRule, nfmOsfwRule_eq, requests, tryAll_map]
  rfl

theorem nfmOsfwDelRule_eq (s : σ) (conf : Conf) :
    nfmOsfwDelRule fw s conf = tryAll (callOf fw .delete) (requests conf) s := by
  rw [nfmOsfwDelRule, nfmOsfwRule_eq, requests, tryAll_map]
  rfl

variable (tags : List Tag)

variable (self : NfmTrule)

variable (type : Action)

theorem nfmTruleWalk_finish
    (override : Option Override) (s : σ) {tv : List Binding} (h : (expand tv self.conf.rule).isSome = true) :
    (nfmTruleWalk fw tags self type false override).finish s tv =
      tryAll (callOf fw type) (expansionRequests self.conf tv) s := by
  obtain ⟨rule, hr⟩ := isSome_iff_exists.mp h
  cases type with
  | add => simp [Walk.finish, nfmTruleWalk, nfmTruleApply, hr, expansionRequests, nfmOsfwAddRule_eq]
  | delete => simp [Walk.finish, nfmTruleWalk, nfmTruleApply, hr, expansionRequests, nfmOsfwDelRule_eq]

theorem nfmTruleWalk_items : (nfmTruleWalk fw tags self type false none).items = current tags self.tags :=
  funext fun _ => items_table _ (fun _ h => nomatch h)

theorem nfmTruleUpdateTags_eq (s : σ) (ht : self.tags ≠ []) :
    nfmTruleUpdateTags fw tags self type s = tryAll (callOf fw type) (walkRequests tags self.conf self.tags) s ∨
      walkRequests tags self.conf self.tags = [] ∧ (nfmTruleUpdateTags fw tags self type s).2 = s := by
  have hit := nfmTruleWalk_items fw tags self type
  have hs : ∀ tv ∈ choose (current tags self.tags) self.tags,
      (expand tv self.conf.rule).isSome = expandable self.conf.rule self.tags :=
    fun tv htv => expandable_eq (keys_of_mem_choose (fun _ _ hb => key_of_mem_chosen hb) htv)
  rw [nfmTruleUpdateTags, if_neg ht]
  by_cases hl : self.tags.length ≤ maxTagsPerRule
  · rw [walkRequests, if_pos hl]
    by_cases hsr : ∀ r ∈ self.tags, (nfmTruleWalk fw tags self type false none).source r ≠ none
    · have hru : applyTag (nfmTruleWalk fw tags self type false none) self.tags [] s = _ :=
        applyTag_resolved _ s (fun _ h => h) hsr (by simpa using hl)
      rw [hru, hit]
      cases hex : expandable self.conf.rule self.tags with
      | true =>
        rw [tryAll_flatMap]
        exact .inl (tryAll_congr
          (fun s tv htv => nfmTruleWalk_finish fw tags self type none s ((hs tv htv).trans hex)) s)
      | false =>
        have hn : ∀ tv ∈ choose (current tags self.tags) self.tags, expand tv self.conf.rule = none :=
          fun tv htv => isSome_eq_false_iff.mp ((hs tv htv).trans hex) |> isNone_iff_eq_none.mp
        refine .inr ⟨List.flatMap_eq_nil_iff.mpr fun tv htv => ?_, tryAll_same fun tv htv => ?_⟩
        · rw [expansionRequests, hn tv htv]
        · simp [Walk.finish, nfmTruleWalk, nfmTruleApply, hn tv htv]
    · push Not at hsr
      obtain ⟨r, hr, hn⟩ := hsr
      have hc : current tags self.tags r = [] := by rw [← hit, Walk.items, hn]
      rw [choose_eq_nil hr hc]
      exact .inr ⟨rfl, applyTag_missing (nfmTruleWalk fw tags self type false none) s (fun _ h => h) hr hn⟩
  · rw [walkRequests, if_neg hl]
    exact .inr ⟨rfl, applyTag_tooMany (nfmTruleWalk fw tags self type false none) s (fun _ h => h) (by decide)
      (by simpa using hl)⟩

end OpenSync.Nfm
