import OpenSync.TemplateWalk

/-!
# Template flows

The template flows of `om_tflows.c` and the system flows that `om_template.c` makes of them. A system flow
is known by the token of its template and the values it was expanded with. Adding and deleting a flow
succeed; adding a flow that is there changes nothing.
-/

namespace OpenSync.Om

open Tags Product Template

/-- A row of `Openflow_Config` whose rule is a template: other rows never come here. -/
structure FlowRow where
  token : Text
  rule : Text
  is_template : isTemplate rule = true

structure Tflow where
  token : Text
  rule : Text
  tags : List Entry
  deriving DecidableEq

abbrev Flow := Text × List Binding

structure State where
  tflows : List Tflow
  flows : List Flow

def tflowFindByToken (tflows : List Tflow) (token : Text) : Option Tflow :=
  Keyed.find Tflow.token token tflows

def tflowAllocFromSchema (row : FlowRow) : Tflow := ⟨row.token, row.rule, detectRefs row.rule⟩

def addFlow (flows : List Flow) (f : Flow) : List Flow := if f ∈ flows then flows else f :: flows

def delFlow (flows : List Flow) (f : Flow) : List Flow := flows.filter (· ≠ f)

def changeFlow : Action → List Flow → Flow → List Flow
  | .add => addFlow
  | .delete => delFlow

def templateApply (type : Action) (tflow : Tflow) (flows : List Flow) (tv : List Binding) : Bool × List Flow :=
  match expand tv tflow.rule with
  | none => (false, flows)
  | some _ => (true, changeFlow type flows (tflow.token, tv))

/-- A walk over the references of a template flow. -/
def tflowWalk (tags : List Tag) (tflow : Tflow) (type : Action) (ignoreErr : Bool)
    (override : Option Override) : Walk (List Flow) :=
  ⟨tags, tflow.tags, override, false, ignoreErr, templateApply type tflow⟩

def templateApplyTags (tags : List Tag) (tflow : Tflow) (type : Action) (ignoreErr : Bool)
    (override : Option Override) (flows : List Flow) : List Flow :=
  (applyTag (tflowWalk tags tflow type ignoreErr override) tflow.tags [] flows).2

def templateTflowUpdate (tags : List Tag) (type : Action) (tflow : Tflow) (flows : List Flow) : List Flow :=
  if tflow.tags = [] then flows else templateApplyTags tags tflow type false none flows

/-- `om_template_tag_update` for one template flow. -/
def tflowTagUpdate (pick : Pick) (n : Note) (flows : List Flow) (tflow : Tflow) : List Flow :=
  if (entryFindByValue pick tflow.tags n.tag.name).isNone then flows
  else tagPasses (fun type ign o => templateApplyTags n.tags tflow type ign (some o)) n flows

def templateTagUpdate (pick : Pick) (om : State) (n : Note) : State :=
  { om with flows := om.tflows.foldl (tflowTagUpdate pick n) om.flows }

def tflowAddFromSchema (tags : List Tag) (om : State) (row : FlowRow) : Bool × State :=
  if (tflowFindByToken om.tflows row.token).isSome then (false, om)
  else
    let tflow := tflowAllocFromSchema row
    (true, ⟨Keyed.insert Tflow.token strLt tflow om.tflows, templateTflowUpdate tags .add tflow om.flows⟩)

def tflowRemoveFromSchema (tags : List Tag) (om : State) (token : Text) : Bool × State :=
  match tflowFindByToken om.tflows token with
  | none => (false, om)
  | some tflow =>
    (true, ⟨Keyed.drop Tflow.token token om.tflows, templateTflowUpdate tags .delete tflow om.flows⟩)

/-! ## Events -/

inductive OmEvent where
  | tag (e : Event)
  | tflowAdd (row : FlowRow)
  | tflowRemove (token : Text)

structure World where
  sys : Sys
  om : State

def World.empty : World := ⟨Tags.empty, ⟨[], []⟩⟩

/-- One event. The tag tables report each change to the templates. -/
def World.step (pick : Pick) (w : World) : OmEvent → World
  | .tag e =>
    let sys := Tags.step pick w.sys e
    ⟨sys, sys.notes.foldl (templateTagUpdate pick) w.om⟩
  | .tflowAdd row => { w with om := (tflowAddFromSchema w.sys.tags w.om row).2 }
  | .tflowRemove token => { w with om := (tflowRemoveFromSchema w.sys.tags w.om token).2 }

/-- A run from the start. Which of equal entries a lookup finds may change from event to event. -/
def run (es : List (Pick × OmEvent)) : World := es.foldl (fun w e => w.step e.1 e.2) World.empty

end OpenSync.Om
