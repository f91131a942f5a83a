import OpenSync.Osfw

/-!
# Applying the firewall

`osfw_apply` prints the tables of a modified family and hands them to `iptables-restore`, which installs each
table as a whole or not at all. The kernel is modelled as the tables it was last given. A failed restore clears
the modified flag like a successful one, so the next apply reports success without having installed anything.
-/

namespace OpenSync.Osfw
open Function

structure Line where
  chain : Text
  target : Text
  mtch : Text
  deriving DecidableEq, Repr

/-- What a table is in the kernel; the built-in chains and their policies are constant. -/
structure Image where
  chains : List Text
  rules : List Line
  deriving DecidableEq, Repr

abbrev Kernel := Family → Table → Image

def nfruleLine (r : NfRule) : Line := ⟨r.chain, r.target, r.mtch⟩

def nftablePrint (t : NfTable) : Image := ⟨t.chains, t.rules.map nfruleLine⟩

def allTables : List Table := [.filter, .nat, .mangle, .raw, .security]

theorem mem_allTables (t : Table) : t ∈ allTables := by cases t <;> decide

/-- What the system does during an apply: opening the file of a family, and restoring each of its tables. -/
structure ApplyEnv where
  opens : Family → Bool
  restores : Family → Table → Bool

def installs (env : ApplyEnv) (family : Family) (self : NfInet) (table : Table) : Bool :=
  (self.tables table).issupported && env.restores family table

/-- `iptables-restore` reports success: every printed table was installed. -/
def restored (env : ApplyEnv) (family : Family) (self : NfInet) : Bool :=
  allTables.all fun table => !(self.tables table).issupported || env.restores family table

def nfinetApply (env : ApplyEnv) (family : Family) (self : NfInet) (kernel : Table → Image) :
    Bool × NfInet × (Table → Image) :=
  if !self.ismodified then (true, self, kernel)
  else if !env.opens family then (false, self, kernel)
  else (restored env family self, { self with ismodified := false }, fun table =>
    if installs env family self table then nftablePrint (self.tables table) else kernel table)

structure State where
  base : NfBase
  kernel : Kernel

/-- One family of `osfw_nfbase_apply`. -/
def applyFamily (env : ApplyEnv) (s : State) (family : Family) : Bool × State :=
  let applied := nfinetApply env family (s.base family) (s.kernel family)
  (applied.1, ⟨Function.update s.base family applied.2.1, Function.update s.kernel family applied.2.2⟩)

def osfwApply (env : ApplyEnv) (s : State) : Bool × State :=
  let first := applyFamily env s .inet
  if !first.1 then (false, first.2) else applyFamily env first.2 .inet6

/-! ## Runs -/

inductive Op
  | chainAdd (check : Bool) (family : Family) (table : Table) (chain : Text)
  | chainDel (family : Family) (table : Table) (chain : Text)
  | ruleAdd (check : Bool) (family : Family) (table : Table) (chain : Text) (prio : Int) (mtch target : Text)
  | ruleDel (family : Family) (table : Table) (chain : Text) (prio : Int) (mtch target : Text)
  | apply (env : ApplyEnv)

def step (s : State) : Op → Bool × State
  | .chainAdd check family table chain =>
    let r := osfwChainAdd check s.base family table chain
    (r.1, { s with base := r.2 })
  | .chainDel family table chain =>
    let r := osfwChainDel s.base family table chain
    (r.1, { s with base := r.2 })
  | .ruleAdd check family table chain prio mtch target =>
    let r := osfwRuleAdd check s.base family table chain prio mtch target
    (r.1, { s with base := r.2 })
  | .ruleDel family table chain prio mtch target =>
    let r := osfwRuleDel s.base family table chain prio mtch target
    (r.1, { s with base := r.2 })
  | .apply env => osfwApply env s

def run (s : State) (ops : List Op) : State := ops.foldl (fun s op => (step s op).2) s

/-- The state after `osfw_nfbase_set`, over whatever the kernel holds in the tables it has. -/
def init (supported : Family → Table → Bool) (kernel : Kernel) : State :=
  ⟨nfbaseSet supported, fun family table => if supported family table then kernel family table else ⟨[], []⟩⟩

def Installed (s : State) : Prop :=
  ∀ family table, s.kernel family table = nftablePrint ((s.base family).tables table)

/-! ## Restores that failed -/

def failedBy (env : ApplyEnv) (s : State) (family : Family) : Bool :=
  (s.base family).ismodified && env.opens family && !restored env family (s.base family) &&
    (family = .inet || (applyFamily env s .inet).1)

/-- Which families are left with a failed restore: an apply may add one, a change of the family clears it. -/
def failedAfter (s : State) (failed : Family → Bool) : Op → Family → Bool
  | .apply env, family => failed family || failedBy env s family
  | op, family => failed family && !((step s op).2.base family).ismodified

/-- No apply is made while the last restore of a family failed and the family was not changed since. -/
def OpSafe (failed : Family → Bool) : Op → Prop
  | .apply _ => ∀ family, failed family = false
  | _ => True

def RunSafe (s : State) (failed : Family → Bool) : List Op → Prop
  | [] => True
  | op :: ops => OpSafe failed op ∧ RunSafe (step s op).2 (failedAfter s failed op) ops

/-! ## One family -/

structure FamilyInv (net : NfInet) (kernel : Table → Image) (failed : Bool) : Prop where
  empty : ∀ t, (net.tables t).issupported = false →
    (net.tables t).chains = [] ∧ (net.tables t).rules = [] ∧ kernel t = ⟨[], []⟩
  installed : net.ismodified = false → failed = false → ∀ t, kernel t = nftablePrint (net.tables t)

section Families

variable {net net' : NfInet} {kernel : Table → Image} {env : ApplyEnv} {family : Family}

theorem restored_iff : restored env family net = true ↔
    ∀ t, (net.tables t).issupported = true → env.restores family t = true := by
  simp only [restored, List.all_eq_true, mem_allTables, forall_true_left, Bool.or_eq_true, Bool.not_eq_true']
  exact forall_congr' fun t => by cases (net.tables t).issupported <;> simp

theorem FamilyInv.of_restored {failed : Bool} (h : FamilyInv net kernel failed)
    (hre : restored env family net = true) (t : Table) :
    (if installs env family net t then nftablePrint (net.tables t) else kernel t) = nftablePrint (net.tables t) := by
  cases hs : (net.tables t).issupported with
  | false =>
    obtain ⟨hc, hr, hk⟩ := h.empty t hs
    simp [installs, hs, hk, nftablePrint, hc, hr]
  | true => simp [installs, hs, restored_iff.mp hre t hs]

theorem FamilyInv.applied (h : FamilyInv net kernel false) :
    FamilyInv (nfinetApply env family net kernel).2.1 (nfinetApply env family net kernel).2.2
        (net.ismodified && env.opens family && !restored env family net) ∧
      ((nfinetApply env family net kernel).1 = true → ∀ t, (nfinetApply env family net kernel).2.2 t =
          nftablePrint ((nfinetApply env family net kernel).2.1.tables t)) := by
  unfold nfinetApply
  cases hmo : net.ismodified with
  | false => exact ⟨⟨h.empty, fun _ _ => h.installed hmo rfl⟩, fun _ => h.installed hmo rfl⟩
  | true =>
    cases ho : env.opens family with
    | false => exact ⟨⟨h.empty, fun hm => absurd hm (by simp [hmo])⟩, by simp⟩
    | true =>
      refine ⟨⟨fun t hs => ?_, fun _ hf => ?_⟩, fun hre => h.of_restored hre⟩
      · obtain ⟨hc, hr, hk⟩ := h.empty t hs
        refine ⟨hc, hr, ?_⟩
        have hn : (net.tables t).issupported = false := hs
        simpa [installs, hn] using hk
      · exact h.of_restored (by simpa using hf)

structure Moves (net net' : NfInet) : Prop where
  kept : net' = net ∨ net'.ismodified = true
  issupported : ∀ t, (net'.tables t).issupported = (net.tables t).issupported
  unsupported : ∀ t, (net.tables t).issupported = false → (net.tables t).chains = [] →
    (net.tables t).rules = [] → net'.tables t = net.tables t

theorem Moves.refl (net : NfInet) : Moves net net := ⟨.inl rfl, fun _ => rfl, fun _ _ _ _ => rfl⟩

theorem FamilyInv.moves {failed : Bool} (h : FamilyInv net kernel failed) (hm : Moves net net') :
    FamilyInv net' kernel (failed && !net'.ismodified) := by
  constructor
  · intro t hs
    rw [hm.issupported t] at hs
    obtain ⟨hc, hr, hk⟩ := h.empty t hs
    rw [hm.unsupported t hs hc hr]
    exact ⟨hc, hr, hk⟩
  · intro hmo hf
    rcases hm.kept with rfl | ht
    · exact h.installed hmo (by simpa [hmo] using hf)
    · rw [hmo] at ht
      simp at ht

theorem nfinetChange_moves {change : NfTable → Bool × NfTable} (hs : ∀ t, Sound t (change t)) (net : NfInet)
    (table : Table) : Moves net (nfinetChange net table change).2 := by
  have hso := hs (net.tables table)
  have hta : (nfinetChange net table change).2.tables = update net.tables table (change (net.tables table)).2 := by
    simp only [nfinetChange]
    split <;> rfl
  constructor
  · simp only [nfinetChange]
    split
    · exact Or.inr rfl
    · rename_i hr
      apply Or.inl
      rw [hso.refused (by simpa using hr), update_eq_self]
  · intro t
    rw [hta]
    by_cases ht : t = table
    · subst ht
      rw [update_self, hso.issupported]
    · rw [update_of_ne ht]
  · intro t hsu hc hru
    rw [hta]
    by_cases ht : t = table
    · subst ht
      rw [update_self, hso.unsupported hsu hc hru]
    · rw [update_of_ne ht]

end Families

/-! ## Both families -/

def Inv (s : State) (failed : Family → Bool) : Prop :=
  ∀ family, FamilyInv (s.base family) (s.kernel family) (failed family)

open Moves

theorem nfbaseChange_moves {change : NfTable → Bool × NfTable} (hs : ∀ t, Sound t (change t)) (base : NfBase)
    (family : Family) (table : Table) (f : Family) : Moves (base f) ((nfbaseChange base family table change).2 f) := by
  simp only [nfbaseChange]
  by_cases hf : f = family
  · subst hf
    rw [update_self]
    exact nfinetChange_moves hs _ _
  · rw [update_of_ne hf]
    exact refl _

theorem step_moves (s : State) (op : Op) (hop : ∀ env, op ≠ .apply env) :
    (step s op).2.kernel = s.kernel ∧ ∀ f, Moves (s.base f) ((step s op).2.base f) := by
  cases op with
  | chainAdd check family table chain =>
    refine ⟨rfl, fun f => ?_⟩
    simp only [step, osfwChainAdd]
    split_ifs
    · exact refl _
    · exact refl _
    · exact refl _
    · exact nfbaseChange_moves (fun t => nftableAddNfchain_sound check t chain) _ _ _ f
  | chainDel family table chain =>
    refine ⟨rfl, fun f => ?_⟩
    simp only [step, osfwChainDel]
    split_ifs
    · exact refl _
    · exact refl _
    · exact refl _
    · exact nfbaseChange_moves (fun t => nftableDelNfchain_sound t chain) _ _ _ f
  | ruleAdd check family table chain prio mtch target =>
    refine ⟨rfl, fun f => ?_⟩
    simp only [step, osfwRuleAdd]
    split_ifs
    · exact refl _
    · exact nfbaseChange_moves (fun t => nftableAddNfrule_sound check t chain prio mtch target) _ _ _ f
  | ruleDel family table chain prio mtch target =>
    refine ⟨rfl, fun f => ?_⟩
    simp only [step, osfwRuleDel]
    split_ifs
    · exact refl _
    · exact nfbaseChange_moves (fun t => nftableDelNfrule_sound t chain prio mtch target) _ _ _ f
  | apply env => exact absurd rfl (hop env)

section Apply

variable {s : State} {failed : Family → Bool} {env : ApplyEnv}

theorem applyFamily_other (env : ApplyEnv) (s : State) {f family : Family} (hf : f ≠ family) :
    (applyFamily env s family).2.base f = s.base f ∧ (applyFamily env s family).2.kernel f = s.kernel f :=
  ⟨update_of_ne hf _ _, update_of_ne hf _ _⟩

theorem applyFamily_self (family : Family) :
    (applyFamily env s family).2.base family = (nfinetApply env family (s.base family) (s.kernel family)).2.1 ∧
      (applyFamily env s family).2.kernel family = (nfinetApply env family (s.base family) (s.kernel family)).2.2 :=
  ⟨update_self _ _ _, update_self _ _ _⟩

theorem FamilyInv.onFamily (env : ApplyEnv) {family : Family} (h : FamilyInv (s.base family) (s.kernel family) false) :
    FamilyInv ((applyFamily env s family).2.base family) ((applyFamily env s family).2.kernel family)
        ((s.base family).ismodified && env.opens family && !restored env family (s.base family)) ∧
      ((applyFamily env s family).1 = true → ∀ t, (applyFamily env s family).2.kernel family t =
        nftablePrint (((applyFamily env s family).2.base family).tables t)) := by
  rw [(applyFamily_self family).1, (applyFamily_self family).2]
  exact h.applied

theorem Inv.applied (h : Inv s failed) (hs : ∀ family, failed family = false) :
    Inv (osfwApply env s).2 (failedAfter s failed (.apply env)) ∧
      ((osfwApply env s).1 = true → Installed (osfwApply env s).2) := by
  have hin : FamilyInv (s.base .inet) (s.kernel .inet) false := hs .inet ▸ h .inet
  have hi6 : FamilyInv (s.base .inet6) (s.kernel .inet6) false := hs .inet6 ▸ h .inet6
  obtain ⟨hf, hd⟩ := hin.onFamily env
  obtain ⟨hb6, hk6⟩ := applyFamily_other env s (f := .inet6) (show _ ≠ Family.inet by decide)
  have hfa (family : Family) : failedAfter s failed (.apply env) family = failedBy env s family := by
    simp [failedAfter, hs]
  cases hok : (applyFamily env s .inet).1 with
  | false =>
    simp only [osfwApply, hok, Bool.not_false, if_true, Bool.false_eq_true, false_imp_iff, and_true]
    intro family
    rw [hfa]
    cases family with
    | inet => simpa [failedBy] using hf
    | inet6 =>
      rw [hb6, hk6]
      simpa [failedBy, hok] using hi6
  | true =>
    simp only [osfwApply, hok, Bool.not_true, Bool.false_eq_true, if_false]
    rw [← hb6, ← hk6] at hi6
    obtain ⟨hse, hd6⟩ := hi6.onFamily env
    obtain ⟨hb, hk⟩ := applyFamily_other env (applyFamily env s .inet).2 (f := .inet) (show _ ≠ Family.inet6 by decide)
    constructor
    · intro family
      rw [hfa]
      cases family with
      | inet =>
        rw [hb, hk]
        simpa [failedBy] using hf
      | inet6 =>
        rw [hb6] at hse
        simpa [failedBy, hok] using hse
    · intro hr family table
      cases family with
      | inet =>
        exact hd hok table
      | inet6 => exact hd6 hr table

end Apply

variable {failed : Family → Bool}

theorem Inv.changed {s : State} (h : Inv s failed) (op : Op)
    (hop : ∀ env, op ≠ .apply env) : Inv (step s op).2 (failedAfter s failed op) := by
  obtain ⟨hk, hm⟩ := step_moves s op hop
  intro f
  have hf : failedAfter s failed op f = (failed f && !((step s op).2.base f).ismodified) := by
    cases op with
    | apply env => exact absurd rfl (hop env)
    | _ => rfl
  rw [hk, hf]
  exact (h f).moves (hm f)

theorem Inv.stepped {s : State} (h : Inv s failed) (op : Op) (hs : OpSafe failed op) :
    Inv (step s op).2 (failedAfter s failed op) := by
  cases op with
  | apply env => exact (h.applied hs).1
  | _ => exact h.changed _ (by simp)

theorem Inv.run_apply {s : State} (h : Inv s failed) (ops : List Op) (env : ApplyEnv)
    (hs : RunSafe s failed (ops ++ [.apply env])) (hr : (step (run s ops) (.apply env)).1 = true) :
    Installed (step (run s ops) (.apply env)).2 := by
  induction ops generalizing s failed with
  | nil => exact (h.applied hs.1).2 hr
  | cons op ops ih => exact ih (h.stepped op hs.1) hs.2 hr

theorem inv_init (supported : Family → Table → Bool) (kernel : Kernel) : Inv (init supported kernel) fun _ => false := by
  intro family
  refine ⟨fun t hs => ⟨rfl, rfl, ?_⟩, by simp [init, nfbaseSet]⟩
  have hs : supported family t = false := hs
  simp [init, hs]

/-- Whenever an apply returns true, every table of both families is in the kernel as it is in memory, as long as
no apply was made over a failed restore that no change of the family followed. -/
theorem apply_installs (supported : Family → Table → Bool) (kernel : Kernel) (ops : List Op) (env : ApplyEnv)
    (hsafe : RunSafe (init supported kernel) (fun _ => false) (ops ++ [.apply env]))
    (hret : (step (run (init supported kernel) ops) (.apply env)).1 = true) :
    Installed (step (run (init supported kernel) ops) (.apply env)).2 :=
  (inv_init supported kernel).run_apply ops env hsafe hret

def emptyKernel : Kernel := fun _ _ => ⟨[], []⟩

def working : ApplyEnv := ⟨fun _ => true, fun _ _ => true⟩

def failing : ApplyEnv := ⟨fun _ => true, fun family _ => decide (family = .inet6)⟩

def acceptInput : Op := .ruleAdd true .inet .filter "INPUT".toList 0 [] "ACCEPT".toList

theorem changed_after_failure_installed :
    Installed (step (run (init (fun _ _ => true) emptyKernel) [acceptInput, .apply failing, acceptInput])
      (.apply working)).2 := by
  refine apply_installs (fun _ _ => true) emptyKernel [acceptInput, .apply failing, acceptInput] working
    ⟨trivial, ?_, trivial, ?_, trivial⟩ rfl
  · intro family
    cases family <;> rfl
  · intro family
    cases family <;> rfl

/-- After a failed restore, the next apply returns true and installs nothing. -/
theorem second_apply_installs_nothing :
    (step (run (init (fun _ _ => true) emptyKernel) [acceptInput, .apply failing]) (.apply working)).1 = true ∧
      ¬ Installed (step (run (init (fun _ _ => true) emptyKernel) [acceptInput, .apply failing])
        (.apply working)).2 := by
  refine ⟨rfl, fun h => ?_⟩
  have hf := h .inet .filter
  revert hf
  decide

end OpenSync.Osfw
