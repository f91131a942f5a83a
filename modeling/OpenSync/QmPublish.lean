import OpenSync.Qm

/-!
# Publishing the queue

`qm_mqtt.c` first merges the reports of statistics in the queue into one, takes them out of the queue and publishes the
merged report, and then publishes the other messages. Topic and quality of service of a message change nothing here.
-/

namespace OpenSync.Qm
open List Option

inductive RecordKind
  | survey | neighbors | capacity | clients | device | rssiReport | bsReport | clientAuthFailsReport
  deriving DecidableEq

structure Report (ρ : Type) where
  nodeId : List Byte
  records : RecordKind → List ρ

/-- What zlib and the broker answer to one publication. -/
structure Answers where
  compress : ℤ
  publish : Bool

/-- A message in the queue, what its data unpack to and whether the merged report unpacks when it is appended. -/
structure Queued (ρ : Type) where
  req : Request
  report : Option (Report ρ)
  rptUnpacks : Bool
  answers : Answers

def qmDataStats : Byte := 2

def zOk : ℤ := 0

variable {ρ : Type}

def Queued.stats (m : Queued ρ) : Bool := m.req.dataType = qmDataStats

def qmReqCompressIfCfg : Byte := 0

def doCompress (qmMqttCompress : Bool) (compress : Byte) : Bool :=
  if compress = 1 then false else if compress = 2 then true else qmMqttCompress

def compressFails (cfg : Bool) (compress : Byte) (a : Answers) : Bool := doCompress cfg compress && a.compress ≠ zOk

/-- The result, and whether `mosqev_publish` reported success; an error of zlib is the result as it is. -/
def qmMqttPublish (cfg : Bool) (compress : Byte) (a : Answers) : Bool × Bool :=
  if compressFails cfg compress a then (a.compress ≠ 0, false) else (a.publish, a.publish)

/-- The merged report after one more message; its buffer is empty at first. -/
def qmAppendReport (rep : Option (Report ρ)) (m : Queued ρ) : Option (Report ρ) :=
  match m.report, rep with
  | none, _ => rep
  | some rqi, none => some rqi
  | some rqi, some rpt =>
    if m.rptUnpacks then
      some ⟨rpt.nodeId, fun kind =>
        if kind = .clientAuthFailsReport then rpt.records kind else rpt.records kind ++ rqi.records kind⟩
    else rep

def qmQueueMergeStats (q : List (Queued ρ)) : Option (Report ρ) × List (Queued ρ) :=
  ((q.filter Queued.stats).foldl qmAppendReport none, q.filter fun m => !m.stats)

/-- The queue afterwards, and the report and the messages that `mosqev_publish` reported success for. -/
def qmMqttPublishQueue (cfg : Bool) (a : Answers) (q : List (Queued ρ)) :
    List (Queued ρ) × Option (Report ρ) × List (Queued ρ) :=
  let (rep, rest) := qmQueueMergeStats q
  let publish (m : Queued ρ) := qmMqttPublish cfg m.req.compress m.answers
  (rest.filter fun m => !(publish m).1, rep.filter fun _ => (qmMqttPublish cfg qmReqCompressIfCfg a).2,
    rest.filter fun m => (publish m).2)

def Queued.records (m : Queued ρ) (kind : RecordKind) : List ρ := m.report.elim [] fun r => r.records kind

/-- A message leaves the queue only when it was published, or a report with all records of the merged messages. -/
def LeavesPublished (cfg : Bool) (a : Answers) (q : List (Queued ρ)) : Prop :=
  let (left, report, sent) := qmMqttPublishQueue cfg a q
  ∀ m ∈ q, m ∉ left → m ∈ sent ∨ m.stats ∧ m.report.isSome ∧ ∃ rep ∈ report, ∀ kind,
    ((q.filter Queued.stats).flatMap (·.records kind)).Sublist (rep.records kind)

def appended (m : Queued ρ) (kind : RecordKind) : Bool := m.rptUnpacks && kind ≠ .clientAuthFailsReport

/-- No message fails to be compressed; if there are reports, all unpack, their merger is published, and those after the
first have no records that are not appended. -/
def NothingFails (cfg : Bool) (a : Answers) (q : List (Queued ρ)) : Prop :=
  (∀ m ∈ q, ¬ m.stats → compressFails cfg m.req.compress m.answers = false) ∧ match q.filter Queued.stats with
    | [] => True
    | m :: l => compressFails cfg qmReqCompressIfCfg a = false ∧ a.publish ∧ m.report.isSome ∧
      ∀ m ∈ l, m.report.isSome ∧ ∀ kind, appended m kind ∨ m.records kind = []

theorem records_eq {m : Queued ρ} {r : Report ρ} (hm : m.report = some r) : m.records = r.records := by
  funext kind
  rw [Queued.records, hm, elim_some]

theorem foldl_qmAppendReport (rpt : Report ρ) (l : List (Queued ρ)) :
    l.foldl qmAppendReport (some rpt) = some ⟨rpt.nodeId, fun kind =>
      rpt.records kind ++ l.flatMap fun m => if appended m kind then m.records kind else []⟩ := by
  induction l generalizing rpt with
  | nil => simp
  | cons m l ih =>
    have hm : qmAppendReport (some rpt) m = some ⟨rpt.nodeId, fun kind =>
        rpt.records kind ++ if appended m kind then m.records kind else []⟩ := by
      cases hr : m.report with
      | none => simp [qmAppendReport, Queued.records, hr]
      | some r =>
        simp only [qmAppendReport, hr, records_eq hr, appended]
        cases m.rptUnpacks
        · simp
        · simp only [Bool.true_and, if_true, some.injEq, Report.mk.injEq, true_and]
          funext kind
          split_ifs <;> simp_all
    simp [hm, ih]

theorem flatMap_sublist_ite {α : Type} {p : α → Bool} {f : α → List ρ} {l : List α} :
    (l.flatMap f).Sublist (l.flatMap fun m => if p m then f m else []) ↔ ∀ m ∈ l, p m ∨ f m = [] := by
  induction l with
  | nil => simp
  | cons m l ih =>
    by_cases hm : p m
    · simp [hm, ih]
    have hle : (l.flatMap fun m => if p m then f m else []).Sublist (l.flatMap f) :=
      .flatMap_right l fun m _ => by split_ifs <;> simp
    simp only [flatMap_cons, forall_mem_cons, if_neg hm, nil_append, or_iff_right hm, ← ih]
    refine ⟨fun h => ?_, fun h => by simpa [h.1] using h.2⟩
    have hl := Nat.le_trans h.length_le hle.length_le
    have hn : f m = [] := length_eq_zero_iff.mp (by rw [length_append] at hl; omega)
    exact ⟨hn, by simpa [hn] using h⟩

theorem qmMqttPublish_eq (cfg : Bool) (compress : Byte) (a : Answers) : qmMqttPublish cfg compress a =
    (compressFails cfg compress a || a.publish, !compressFails cfg compress a && a.publish) := by
  rw [qmMqttPublish]
  split_ifs with h
  · have hr : a.compress ≠ 0 := of_decide_eq_true (Bool.and_eq_true_iff.mp h).2
    simp [h, hr]
  · simp [h]

theorem leavesPublished_iff (cfg : Bool) (a : Answers) (q : List (Queued ρ)) :
    LeavesPublished cfg a q ↔ NothingFails cfg a q := by
  have hsp : LeavesPublished cfg a q ↔ (∀ m ∈ q, ¬ m.stats → compressFails cfg m.req.compress m.answers = false) ∧
      ∀ m ∈ q, m.stats → m.report.isSome ∧ ∃ rep ∈ (qmMqttPublishQueue cfg a q).2.1, ∀ kind,
        ((q.filter Queued.stats).flatMap (·.records kind)).Sublist (rep.records kind) := by
    refine (forall₂_congr fun m hm => ?_).trans forall₂_and
    cases hs : m.stats
    · cases hc : compressFails cfg m.req.compress m.answers <;>
        simp [qmMqttPublishQueue, qmQueueMergeStats, qmMqttPublish_eq, hm, hs, hc]
    · simp [qmMqttPublishQueue, qmQueueMergeStats, hm, hs]
  rw [hsp, NothingFails, qmMqttPublishQueue, qmQueueMergeStats]
  refine and_congr_right fun _ => ?_
  simp only [← forall_mem_filter]
  cases q.filter Queued.stats with
  | nil => simp
  | cons m l =>
    cases hm : m.report with
    | none => simp [hm]
    | some r =>
      have hr : (m :: l).foldl qmAppendReport none = l.foldl qmAppendReport (some r) := by simp [qmAppendReport, hm]
      simp only [hr, foldl_qmAppendReport, mem_def, filter_eq_some_iff, some.injEq,
        qmMqttPublish_eq, flatMap_cons, records_eq hm, ↓existsAndEq, true_and, append_sublist_append_left, flatMap_sublist_ite,
        forall_mem_cons, hm, isSome_some, Bool.and_eq_true, Bool.not_eq_true']
      grind

/-- A message that cannot be compressed is dropped. -/
theorem message_lost : ∃ m : Queued ℕ, ¬ LeavesPublished true ⟨0, true⟩ [m] := by
  refine ⟨⟨Request.ofBytes [], none, true, ⟨-4, true⟩⟩, fun h => ?_⟩
  obtain hs | ⟨hst, -⟩ := h _ (.head _) (not_mem_nil : _ ∉ [])
  · exact nomatch hs
  · exact absurd hst (by decide)

end OpenSync.Qm
