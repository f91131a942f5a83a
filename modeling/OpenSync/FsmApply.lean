import OpenSync.FsmPolicy

/-!
# Policies combined

`fsm_apply_policies` walks through the slots of a table. A policy that matches and has no action of its own is
remembered and the walk goes on; the first that has one ends it. The reply is written once, from the last policy
remembered: its report type is the only one that counts, and its tag for IPv6 is looked for only where it has one for
IPv4.

The outcomes of the checks are given for each policy. What the checks of categories and risk keep in the reply for
themselves is left out.
-/

namespace OpenSync.Fsm.Policy
open Option
open List hiding Vector

inductive ReplyAction
  | policy (a : Action) | observed | noMatch | redirect | forward
  deriving DecidableEq

def ReportType.level : ReportType → Nat
  | .none => 0
  | .blocked => 1
  | .all => 2

def redirectSize : Nat := 256

structure Reply where
  action : ReplyAction
  rdTtl : Int
  log : ReportType
  policy : Option Name
  policyIdx : Nat
  ruleName : Option Name
  updatev4Tag : Option Name
  updatev6Tag : Option Name
  excludedDevices : Option Name
  redirect : Bool
  redirects : Vector Name 2
  deriving DecidableEq

/-- `fsm_policy_initialize_reply`, where -1 is stored in a `bool`. -/
def fsmPolicyInitializeReply : Reply := ⟨.policy .none, -1, .none, none, 0, none, none, none, none, true, #v[[], []]⟩

structure Request where
  report : Bool
  ruleName : Option Name
  policyIndex : Nat
  action : ReplyAction
  policy : Option FsmPolicy

structure Checks where
  mac : FsmPolicy → Bool
  fqdn : FsmPolicy → Bool
  ip : FsmPolicy → Bool
  cat : FsmPolicy → Bool
  risk : FsmPolicy → Bool

structure Verdict where
  ok : Bool
  action : Option ReplyAction
  redirect : Option (Bool × Int × Vector Name 2)

def Verdict.write (v : Verdict) (reply : Reply) : Reply :=
  let reply := { reply with action := v.action.getD reply.action }
  match v.redirect with
  | none => reply
  | some (redirect, rdTtl, redirects) => { reply with redirect, rdTtl, redirects }

/-! ## Writing the reply -/

def configOf (p : FsmPolicy) (key : String) : Option Name :=
  (Keyed.find Prod.fst key.toList p.content.otherConfig).map Prod.snd

def setReporting (p : FsmPolicy) (reply : Reply) : Reply :=
  if reply.log.level < p.content.reportType.level then { reply with log := p.content.reportType } else reply

def setTagUpdate (p : FsmPolicy) (reply : Reply) : Reply :=
  match configOf p "tagv4_name" with
  | none => reply
  | some v4 =>
    let reply := { reply with updatev4Tag := some v4 }
    match configOf p "tagv6_name" with
    | none => reply
    | some v6 => { reply with updatev6Tag := some v6 }

def setExcludedDevicesTag (p : FsmPolicy) (reply : Reply) : Reply :=
  match configOf p "excluded_devices" with
  | none => reply
  | some devices => { reply with excludedDevices := some devices }

def setAction (p : FsmPolicy) (reply : Reply) : Reply :=
  if p.content.action = .gatekeeperReq then reply
  else if p.content.action = .none then { reply with action := .observed }
  else { reply with action := .policy p.content.action }

def setPolicyRecord (tableName : Name) (p : FsmPolicy) (reply : Reply) : Reply :=
  { reply with policy := some tableName, policyIdx := p.idx, ruleName := some p.content.ruleName }

def writeRedirects (redirects : List Name) (slots : Vector Name 2) : Vector Name 2 :=
  redirects.zipIdx.foldl (fun slots r => slots.setIfInBounds r.2 (r.1.take (redirectSize - 1))) slots

/-- A policy with other configuration has to have a time to live in it. Sets and maps without elements are not there. -/
def setPolicyRedirects (strtol : Name → Option Int) (p : FsmPolicy) (reply : Reply) : Reply :=
  if p.content.action = .gatekeeperReq then reply
  else
    let reply := { reply with redirect := false, rdTtl := -1 }
    let rdTtl := if p.content.otherConfig = [] then some (-1) else (configOf p "rd_ttl").bind strtol
    match rdTtl with
    | none => reply
    | some rdTtl =>
      if p.content.redirects = [] then reply
      else { reply with redirect := true, rdTtl, redirects := writeRedirects p.content.redirects reply.redirects }

/-- `fsm_gk_check_required`, with the gatekeeper to be asked. -/
def fsmGkCheckRequired (gatekeeper : Option Verdict) (p : FsmPolicy) : Option Verdict :=
  if p.content.action = .gatekeeperReq then gatekeeper else none

def fsmGatekeeperCheck (v : Verdict) (p : FsmPolicy) (req : Request) (reply : Reply) : Request × Reply :=
  let req := { req with policy := some p }
  let reply := v.write reply
  (req, if v.ok then reply else { reply with action := .noMatch, log := .none })

/-! ## The walk -/

def Checks.pass (checks : Checks) (p : FsmPolicy) : Bool :=
  checks.mac p && checks.fqdn p && checks.ip p && checks.cat p && checks.risk p

def observe (p : FsmPolicy) (req : Request) : Request :=
  if p.content.action = .gatekeeperReq then req
  else
    { req with
      report := req.report || decide (p.content.reportType = .all)
      ruleName := some p.content.ruleName
      policyIndex := p.idx
      action := if p.content.action = .none then .observed else .policy p.content.action }

def applyLoop (checks : Checks) : List (Option FsmPolicy) → Option FsmPolicy × Request → Option FsmPolicy × Request
  | [], w => w
  | none :: slots, w => applyLoop checks slots w
  | some p :: slots, w =>
    if checks.pass p then
      let w := (some p, observe p w.2)
      if p.content.action = .none then applyLoop checks slots w else w
    else applyLoop checks slots w

def slots (table : PolicyTable) : List (Option FsmPolicy) := (List.finRange fsmMaxPolicies).map table.lookupArray

def writeReply (strtol : Name → Option Int) (tableName : Name) (p : FsmPolicy) (reply : Reply) : Reply :=
  setPolicyRedirects strtol p (setPolicyRecord tableName p (setAction p (setExcludedDevicesTag p (setTagUpdate p
    (setReporting p reply)))))

def fsmApplyPolicies (strtol : Name → Option Int) (checks : Checks) (gatekeeper : Option Verdict)
    (policyTable : Option PolicyTable) (req : Request) (reply : Reply) : Request × Reply :=
  match policyTable with
  | none => (req, { reply with action := .noMatch, log := .none })
  | some table =>
    let w := applyLoop checks (slots table) (none, { req with report := false })
    match w.1 with
    | none => (w.2, { reply with action := .noMatch, log := .none })
    | some p =>
      let asked := match fsmGkCheckRequired gatekeeper p with
        | some v => fsmGatekeeperCheck v p w.2 reply
        | none => (w.2, reply)
      (asked.1, writeReply strtol table.name p asked.2)

/-! ## The policy that applies -/

section

variable (checks : Checks)

/-- The policy between `before` and `after` matches, what matches before it has no action, and it has one itself or
nothing matches after it. -/
structure AppliedAt (before : List (Option FsmPolicy)) (p : FsmPolicy) (after : List (Option FsmPolicy)) : Prop where
  pass : checks.pass p = true
  earlier : ∀ q, some q ∈ before → checks.pass q = true → q.content.action = .none
  decides : p.content.action ≠ .none ∨ ∀ q, some q ∈ after → checks.pass q = false

def NoneMatches (slots : List (Option FsmPolicy)) : Prop := ∀ p, some p ∈ slots → checks.pass p = false

end

variable {checks : Checks} {before after l : List (Option FsmPolicy)} {p : FsmPolicy}

theorem applyLoop_noneMatches (h : NoneMatches checks l) (w : Option FsmPolicy × Request) : applyLoop checks l w = w := by
  induction l with
  | nil => rfl
  | cons slot l ih =>
    have hr : NoneMatches checks l := fun q hq => h q (mem_cons_of_mem _ hq)
    cases slot with
    | none => exact ih hr
    | some q =>
      rw [applyLoop, h q mem_cons_self, if_neg Bool.false_ne_true]
      exact ih hr

theorem applyLoop_appliedAt (h : AppliedAt checks before p after) (w : Option FsmPolicy × Request) :
    (applyLoop checks (before ++ some p :: after) w).1 = some p := by
  induction before generalizing w with
  | nil =>
    rw [nil_append, applyLoop, if_pos h.pass]
    rcases h.decides with ha | haf
    · simp [ha]
    · by_cases ha : p.content.action = .none
      · simp only [if_pos ha]
        rw [applyLoop_noneMatches haf]
      · simp [ha]
  | cons slot before ih =>
    have hr : AppliedAt checks before p after := ⟨h.pass, fun q hq => h.earlier q (mem_cons_of_mem _ hq), h.decides⟩
    cases slot with
    | none => exact ih hr w
    | some q =>
      rw [cons_append, applyLoop]
      by_cases hq : checks.pass q = true
      · simp only [if_pos hq, if_pos (h.earlier q mem_cons_self hq)]
        exact ih hr _
      · rw [if_neg hq]
        exact ih hr w

theorem exists_appliedAt (h : ¬ NoneMatches checks l) : ∃ before p after, l = before ++ some p :: after ∧
    AppliedAt checks before p after := by
  induction l with
  | nil => exact absurd (fun p hp => absurd hp not_mem_nil) h
  | cons slot l ih =>
    by_cases hre : NoneMatches checks l
    · -- only the first slot is left
      cases slot with
      | none => exact absurd (fun p hp => hre p (by simpa using hp)) h
      | some p =>
        refine ⟨[], p, l, rfl, ?_, fun q hq => absurd hq not_mem_nil, .inr hre⟩
        by_contra hpa
        refine h fun q hq => ?_
        rcases mem_cons.mp hq with heq | hq
        · exact some.inj heq ▸ Bool.eq_false_of_not_eq_true hpa
        · exact hre q hq
    · obtain ⟨before, p, after, rfl, ha⟩ := ih hre
      cases slot with
      | none =>
        exact ⟨none :: before, p, after, rfl, ha.pass, fun q hq => ha.earlier q (by simpa using hq), ha.decides⟩
      | some q =>
        by_cases hen : checks.pass q = true ∧ q.content.action ≠ .none
        · exact ⟨[], q, before ++ some p :: after, rfl, hen.1, fun r hr => absurd hr not_mem_nil, .inl hen.2⟩
        refine ⟨some q :: before, p, after, rfl, ha.pass, fun r hr hpa => ?_, ha.decides⟩
        rcases mem_cons.mp hr with heq | hr
        · rw [some.inj heq] at hpa ⊢
          by_contra hac
          exact hen ⟨hpa, hac⟩
        · exact ha.earlier r hr hpa

/-! ## The reply wanted -/

section

variable (strtol : Name → Option Int) (checks : Checks) (gatekeeper : Option Verdict)

def answered (p : FsmPolicy) : Reply :=
  ((fsmGkCheckRequired gatekeeper p).map (·.write fsmPolicyInitializeReply)).getD fsmPolicyInitializeReply

/-- The reply is the policy's: its action and redirects, or the gatekeeper's, its record, each of its tags, and the
highest report type among the policies that matched up to it. -/
structure Applies (tableName : Name) (before : List (Option FsmPolicy)) (p : FsmPolicy) (reply : Reply) : Prop where
  action : reply.action = (setAction p (answered gatekeeper p)).action
  record : (reply.policy, reply.policyIdx, reply.ruleName) = (some tableName, p.idx, some p.content.ruleName)
  redirects : (reply.redirect, reply.rdTtl, reply.redirects) =
    let r := setPolicyRedirects strtol p (answered gatekeeper p); (r.redirect, r.rdTtl, r.redirects)
  v4 : reply.updatev4Tag = configOf p "tagv4_name"
  v6 : reply.updatev6Tag = configOf p "tagv6_name"
  excluded : reply.excludedDevices = configOf p "excluded_devices"
  log_le : ∀ q, some q ∈ before ++ [some p] → checks.pass q = true → q.content.reportType.level ≤ reply.log.level
  log_mem : ∃ q, some q ∈ before ++ [some p] ∧ checks.pass q = true ∧ q.content.reportType = reply.log

structure Combined (table : PolicyTable) (reply : Reply) : Prop where
  noMatch : reply.action = .noMatch ↔ NoneMatches checks (slots table)
  silent : NoneMatches checks (slots table) → reply.log = .none
  applied : ∀ before p after, slots table = before ++ some p :: after → AppliedAt checks before p after →
    Applies strtol checks gatekeeper table.name before p reply

/-- No policy that matched earlier reports more than the one that applies, its tags leave the IPv4 one out only with
the IPv6 one, and a gatekeeper that is asked answers with a match. -/
structure Combinable (table : PolicyTable) : Prop where
  report : ∀ before p after, slots table = before ++ some p :: after → AppliedAt checks before p after →
    ∀ q, some q ∈ before → checks.pass q = true → q.content.reportType.level ≤ p.content.reportType.level
  tags : ∀ before p after, slots table = before ++ some p :: after → AppliedAt checks before p after →
    configOf p "tagv4_name" = none → configOf p "tagv6_name" = none
  answer : ∀ before p after, slots table = before ++ some p :: after → AppliedAt checks before p after →
    ∀ v, fsmGkCheckRequired gatekeeper p = some v → v.ok = true ∧ v.action ≠ some .noMatch

end

section

variable (strtol : Name → Option Int) (gatekeeper : Option Verdict) (tableName : Name) (p : FsmPolicy)

/-! Each of the writers has its own fields of the reply. -/

variable (r : Reply)

theorem setReporting_eq : setReporting p r = { r with log := (setReporting p r).log } := by
  unfold setReporting
  split <;> rfl

theorem setTagUpdate_eq : setTagUpdate p r =
    { r with
      updatev4Tag := (configOf p "tagv4_name").or r.updatev4Tag
      updatev6Tag := ((configOf p "tagv4_name").bind fun _ => configOf p "tagv6_name").or r.updatev6Tag } := by
  unfold setTagUpdate
  rcases configOf p "tagv4_name" with _ | v4
  · rfl
  · rcases configOf p "tagv6_name" with _ | v6 <;> rfl

theorem setExcludedDevicesTag_eq : setExcludedDevicesTag p r =
    { r with excludedDevices := (configOf p "excluded_devices").or r.excludedDevices } := by
  unfold setExcludedDevicesTag
  rcases configOf p "excluded_devices" with _ | devices <;> rfl

theorem setAction_eq : setAction p r =
    { r with
      action := if p.content.action = .gatekeeperReq then r.action
        else if p.content.action = .none then .observed else .policy p.content.action } := by
  unfold setAction
  split
  · rfl
  · split <;> rfl

theorem setPolicyRedirects_eq {s : Reply} (hr : s.redirect = r.redirect) (ht : s.rdTtl = r.rdTtl)
    (hs : s.redirects = r.redirects) : setPolicyRedirects strtol p r =
    { r with
      redirect := (setPolicyRedirects strtol p s).redirect
      rdTtl := (setPolicyRedirects strtol p s).rdTtl
      redirects := (setPolicyRedirects strtol p s).redirects } := by
  unfold setPolicyRedirects
  by_cases hg : p.content.action = .gatekeeperReq
  · simp [hg, hr, ht, hs]
  simp only [if_neg hg]
  rcases if p.content.otherConfig = [] then some (-1) else (configOf p "rd_ttl").bind strtol with _ | ttl
  · simp [hs]
  · by_cases hn : p.content.redirects = []
    · simp [hn, hs]
    · simp [hn, hs]

theorem writeReply_eq : writeReply strtol tableName p r =
    { action := (setAction p r).action
      rdTtl := (setPolicyRedirects strtol p r).rdTtl
      log := (setReporting p r).log
      policy := some tableName
      policyIdx := p.idx
      ruleName := some p.content.ruleName
      updatev4Tag := (configOf p "tagv4_name").or r.updatev4Tag
      updatev6Tag := ((configOf p "tagv4_name").bind fun _ => configOf p "tagv6_name").or r.updatev6Tag
      excludedDevices := (configOf p "excluded_devices").or r.excludedDevices
      redirect := (setPolicyRedirects strtol p r).redirect
      redirects := (setPolicyRedirects strtol p r).redirects } := by
  rw [writeReply, setReporting_eq, setTagUpdate_eq, setExcludedDevicesTag_eq, setAction_eq, setAction_eq p r,
    setPolicyRecord]
  exact setPolicyRedirects_eq strtol p _ rfl rfl rfl

end

section

variable {strtol : Name → Option Int} {gatekeeper : Option Verdict} {table : PolicyTable} {req : Request}

variable (strtol gatekeeper req) in
theorem fsmApplyPolicies_appliedAt (hs : slots table = before ++ some p :: after)
    (h : AppliedAt checks before p after) :
    ∃ r, (fsmApplyPolicies strtol checks gatekeeper (some table) req fsmPolicyInitializeReply).2 =
        writeReply strtol table.name p r ∧
      (r = answered gatekeeper p ∧ (∀ v, fsmGkCheckRequired gatekeeper p = some v → v.ok = true) ∨
        r = { answered gatekeeper p with action := .noMatch, log := .none } ∧
          ∃ v, fsmGkCheckRequired gatekeeper p = some v ∧ v.ok = false) := by
  have hl := applyLoop_appliedAt h (none, { req with report := false })
  rw [← hs] at hl
  simp only [fsmApplyPolicies, hl]
  refine ⟨_, rfl, ?_⟩
  rcases hv : fsmGkCheckRequired gatekeeper p with _ | v
  · exact .inl ⟨by rw [answered, hv]; rfl, nofun⟩
  have ha : answered gatekeeper p = v.write fsmPolicyInitializeReply := by
    rw [answered, hv]
    rfl
  cases hok : v.ok with
  | true =>
    refine .inl ⟨?_, fun w hw => some.inj hw ▸ hok⟩
    simp [fsmGatekeeperCheck, hok, ha]
  | false =>
    refine .inr ⟨?_, v, rfl, hok⟩
    simp only [fsmGatekeeperCheck, hok, ha]
    rfl

theorem fsmApplyPolicies_noneMatches (h : NoneMatches checks (slots table)) (reply : Reply) :
    (fsmApplyPolicies strtol checks gatekeeper (some table) req reply).2 =
      { reply with action := .noMatch, log := .none } := by
  simp [fsmApplyPolicies, applyLoop_noneMatches h]

theorem setReporting_log {r : Reply} (h : r.log = .none) : (setReporting p r).log = p.content.reportType := by
  unfold setReporting
  split
  · rfl
  · next hle =>
    rw [h] at hle ⊢
    cases ht : p.content.reportType with
    | none => rfl
    | blocked | all => simp [ht, ReportType.level] at hle

theorem answered_rest (gatekeeper : Option Verdict) (p : FsmPolicy) :
    (answered gatekeeper p).log = .none ∧ (answered gatekeeper p).updatev4Tag = none ∧
      (answered gatekeeper p).updatev6Tag = none ∧ (answered gatekeeper p).excludedDevices = none := by
  unfold answered
  rcases fsmGkCheckRequired gatekeeper p with _ | v
  · exact ⟨rfl, rfl, rfl, rfl⟩
  · rcases hr : v.redirect with _ | ⟨redirect, rdTtl, redirects⟩ <;> simp [Verdict.write, hr] <;>
      exact ⟨rfl, rfl, rfl, rfl⟩

variable (strtol gatekeeper req) in
theorem reply_appliedAt (hs : slots table = before ++ some p :: after) (h : AppliedAt checks before p after) :
    ∃ action, (fsmApplyPolicies strtol checks gatekeeper (some table) req fsmPolicyInitializeReply).2 =
        { action
          rdTtl := (setPolicyRedirects strtol p (answered gatekeeper p)).rdTtl
          log := p.content.reportType
          policy := some table.name
          policyIdx := p.idx
          ruleName := some p.content.ruleName
          updatev4Tag := configOf p "tagv4_name"
          updatev6Tag := (configOf p "tagv4_name").bind fun _ => configOf p "tagv6_name"
          excludedDevices := configOf p "excluded_devices"
          redirect := (setPolicyRedirects strtol p (answered gatekeeper p)).redirect
          redirects := (setPolicyRedirects strtol p (answered gatekeeper p)).redirects } ∧
      (action = (setAction p (answered gatekeeper p)).action ∧
          (∀ v, fsmGkCheckRequired gatekeeper p = some v → v.ok = true) ∨
        action = .noMatch ∧ ∃ v, fsmGkCheckRequired gatekeeper p = some v ∧ v.ok = false) := by
  obtain ⟨hl, hv4, hv6, hex⟩ := answered_rest gatekeeper p
  obtain ⟨r, hr, ⟨rfl, hok⟩ | ⟨rfl, v, hv, hf⟩⟩ := fsmApplyPolicies_appliedAt strtol gatekeeper req hs h
  · refine ⟨_, ?_, .inl ⟨rfl, hok⟩⟩
    rw [hr, writeReply_eq, setReporting_log hl, hv4, hv6, hex, or_none, or_none, or_none]
  · refine ⟨.noMatch, ?_, .inr ⟨rfl, v, hv, hf⟩⟩
    have ha : p.content.action = .gatekeeperReq := by
      by_contra hne
      rw [fsmGkCheckRequired, if_neg hne] at hv
      exact nomatch hv
    rw [hr, writeReply_eq, setReporting_log rfl]
    simp [setAction_eq, setPolicyRedirects, ha, hv4, hv6, hex, or_none]

theorem setAction_noMatch_iff (gatekeeper : Option Verdict) (p : FsmPolicy) :
    (setAction p (answered gatekeeper p)).action = .noMatch ↔
      ∃ v, fsmGkCheckRequired gatekeeper p = some v ∧ v.action = some .noMatch := by
  rw [setAction_eq, fsmGkCheckRequired, answered, fsmGkCheckRequired]
  by_cases ha : p.content.action = .gatekeeperReq
  · simp only [if_pos ha]
    rcases gatekeeper with _ | v
    · simp [fsmPolicyInitializeReply]
    · have hac : (v.write fsmPolicyInitializeReply).action = v.action.getD (.policy .none) := by
        unfold Verdict.write
        rcases v.redirect with _ | ⟨redirect, rdTtl, redirects⟩ <;> rfl
      rw [map_some, getD_some, hac]
      rcases hv : v.action with _ | a <;> simp [hv]
  · simp only [if_neg ha]
    split <;> simp

/-- Matches are combined into the reply exactly where the condition holds. -/
theorem policies_combined_iff (strtol : Name → Option Int) (checks : Checks) (gatekeeper : Option Verdict)
    (table : PolicyTable) (req : Request) :
    Combined strtol checks gatekeeper table
        (fsmApplyPolicies strtol checks gatekeeper (some table) req fsmPolicyInitializeReply).2 ↔
      Combinable checks gatekeeper table := by
  constructor
  · intro h
    refine ⟨fun before p after hs ha q hq hp => ?_, fun before p after hs ha hv4 => ?_,
      fun before p after hs ha v hv => ?_⟩
    all_goals
      obtain ⟨action, hr, hac⟩ := reply_appliedAt strtol gatekeeper req hs ha
      have hap := h.applied before p after hs ha
    · have hle := hap.log_le q (mem_append_left _ hq) hp
      rwa [hr] at hle
    · have hv6 := hap.v6
      rw [hr, hv4] at hv6
      exact hv6.symm
    · have hm : action ≠ .noMatch := by
        rintro rfl
        have hn := h.noMatch.mp (by rw [hr])
        have hf := hn p (hs ▸ mem_append_right _ mem_cons_self)
        exact Bool.false_ne_true (hf.symm.trans ha.pass)
      rcases hac with ⟨rfl, hok⟩ | ⟨rfl, -⟩
      · exact ⟨hok v hv, fun hno => hm ((setAction_noMatch_iff gatekeeper p).mpr ⟨v, hv, hno⟩)⟩
      · exact absurd rfl hm
  · intro h
    refine ⟨⟨fun hno => ?_, fun hn => by rw [fsmApplyPolicies_noneMatches hn]⟩,
      fun hn => by rw [fsmApplyPolicies_noneMatches hn], fun before p after hs ha => ?_⟩
    · by_contra hm
      obtain ⟨before, p, after, hs, ha⟩ := exists_appliedAt hm
      obtain ⟨action, hr, hac⟩ := reply_appliedAt strtol gatekeeper req hs ha
      rw [hr] at hno
      rcases hac with ⟨rfl, -⟩ | ⟨-, v, hv, hfa⟩
      · obtain ⟨v, hv, hno⟩ := (setAction_noMatch_iff gatekeeper p).mp hno
        exact (h.answer before p after hs ha v hv).2 hno
      · rw [(h.answer before p after hs ha v hv).1] at hfa
        exact nomatch hfa
    · obtain ⟨action, hr, hac⟩ := reply_appliedAt strtol gatekeeper req hs ha
      rw [hr]
      refine ⟨?_, rfl, rfl, rfl, ?_, rfl, fun q hq hp => ?_, p, mem_append_right _ mem_cons_self, ha.pass, rfl⟩
      · rcases hac with ⟨rfl, -⟩ | ⟨-, v, hv, hfa⟩
        · rfl
        · rw [(h.answer before p after hs ha v hv).1] at hfa
          exact nomatch hfa
      · rcases hv4 : configOf p "tagv4_name" with _ | v4
        · exact (h.tags before p after hs ha hv4).symm
        · rfl
      · rcases mem_append.mp hq with hq | hq
        · exact h.report before p after hs ha q hq hp
        · rw [some.inj (mem_singleton.mp hq)]

/-- The first reports everything it sees, the second allows and names a tag for IPv6 only. -/
def reporting : FsmPolicy := ⟨0, ⟨"watch".toList, ⟨none, none, none, none, none⟩, [], [], [], .none, .all⟩, 0, 0⟩

def allowing : FsmPolicy :=
  ⟨1, ⟨"pass".toList, ⟨none, none, none, none, none⟩, [], [], [("tagv6_name".toList, "seen".toList)], .allow, .none⟩,
    0, 0⟩

def twoPolicies : PolicyTable := ⟨0, "table".toList, fun i =>
  if i.val = 0 then some reporting else if i.val = 1 then some allowing else none⟩

def everyCheck : Checks :=
  ⟨fun _ => true, fun _ => true, fun _ => true, fun _ => true, fun _ => true⟩

/-- What is allowed is not reported, and its tag is not set. -/
theorem report_lost :
    ¬ Combined (fun _ => none) everyCheck none twoPolicies (fsmApplyPolicies (fun _ => none) everyCheck none
      (some twoPolicies) ⟨false, none, 0, .noMatch, none⟩ fsmPolicyInitializeReply).2 := by
  intro h
  have ha : AppliedAt everyCheck [some reporting] allowing (replicate 58 none) := by
    refine ⟨rfl, fun q hq _ => ?_, .inl nofun⟩
    rw [some.inj (mem_singleton.mp hq)]
    rfl
  have hap := h.applied _ _ _ rfl ha
  have hle := hap.log_le reporting mem_cons_self rfl
  revert hle
  decide +kernel

end

end OpenSync.Fsm.Policy
