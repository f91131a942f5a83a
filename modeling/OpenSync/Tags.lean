import OpenSync.TagList

/-!
# Tags and tag groups

The tables of `policy_tags.c` and `policy_tag_groups.c`. A group has a tag of its own, which is updated
whenever one of the group's members changes. Each change of a tag is reported to the service that uses
the tags; the reports are logged in the order of the calls, with the table as the service sees it. A
missing list in a report is the empty list, which no service tells apart.
-/

namespace OpenSync.Tags

structure Tag where
  name : Text
  group : Bool
  values : List Entry
  deriving DecidableEq

def Tag.key (t : Tag) : Text × Bool := (t.name, t.group)

structure Group where
  name : Text
  tags : List Entry
  deriving DecidableEq

/-- A call of `service_tag_update`. -/
structure Note where
  tags : List Tag
  tag : Tag
  removed : List Entry
  added : List Entry
  updated : List Entry
  deriving DecidableEq

structure Sys where
  tags : List Tag
  groups : List Group
  notes : List Note

/-- The tree of tags is ordered by name only. -/
def tagLt (a b : Text × Bool) : Bool := strLt a.1 b.1

def tagFindByName (tags : List Tag) (name : Text) (group : Bool) : Option Tag :=
  Keyed.find Tag.key (name, group) tags

def groupFindByName (groups : List Group) (name : Text) : Option Group :=
  Keyed.find Group.name name groups

def Sys.call (s : Sys) (tag : Tag) (removed added updated : List Entry) : Sys :=
  { s with notes := s.notes ++ [⟨s.tags, tag, removed, added, updated⟩] }

def Sys.put (s : Sys) (tag : Tag) : Sys :=
  Sys.call { s with tags := Keyed.insert Tag.key tagLt tag s.tags } tag [] tag.values []

def Sys.cut (s : Sys) (tag : Tag) : Sys :=
  Sys.call { s with tags := Keyed.drop Tag.key tag.key s.tags } tag tag.values [] []

variable (pick : Pick)

/-- `om_tag_update` without its last step, which is only for plain tags. -/
def tagReplace (s : Sys) (tag : Tag) (new : List Entry) : Sys :=
  let diff := listDiff pick tag.values new
  let s := s.call tag diff.removed diff.added diff.updated
  let tag := { tag with values := applyDiff pick tag.values diff }
  { s with tags := Keyed.replace Tag.key tag s.tags }

def appendMember (tags : List Tag) (dest : List Entry) (m : Entry) : List Entry :=
  match tagFindByName tags m.value false with
  | some tag => appendList pick dest tag.values m.flags
  | none => dest

def groupAppendMembers (tags : List Tag) (group : Group) (dest : List Entry) : List Entry :=
  group.tags.foldl (appendMember pick tags) dest

def groupUpdate (s : Sys) (group : Group) : Sys :=
  match tagFindByName s.tags group.name true with
  | some gtag => tagReplace pick s gtag (groupAppendMembers pick s.tags group [])
  | none => s

def groupUpdateIf (tagName : Text) (s : Sys) (group : Group) : Sys :=
  if (entryFindByValue pick group.tags tagName).isSome then groupUpdate pick s group else s

def groupUpdateByTag (s : Sys) (tagName : Text) : Sys :=
  s.groups.foldl (groupUpdateIf pick tagName) s

def tagUpdate (s : Sys) (tag : Tag) (new : List Entry) : Sys :=
  let s := tagReplace pick s tag new
  if tag.group then s else groupUpdateByTag pick s tag.name

def tagAdd (s : Sys) (tag : Tag) : Bool × Sys :=
  if (tagFindByName s.tags tag.name tag.group).isSome then (false, s)
  else
    let s := s.put tag
    (true, if tag.group then s else groupUpdateByTag pick s tag.name)

def tagRemove (s : Sys) (tag : Tag) : Sys :=
  let s := s.cut tag
  if tag.group then s else groupUpdateByTag pick s tag.name

/-! ## Rows -/

/-- A row of `Openflow_Tag`. Its columns are sets. -/
structure TagRow where
  name : Text
  device : List Text
  cloud : List Text
  device_nodup : device.Nodup

structure LocalTagRow where
  name : Text
  values : List Text
  nodup : values.Nodup

structure GroupRow where
  name : Text
  tags : List Text

def cloudStep (l : List Entry) (v : Text) : List Entry :=
  if (entryFindByValue pick l v).isSome then entrySetFlags pick l v fun f => f ||| flagCloud
  else entryAdd l ⟨v, flagCloud⟩

def tagListFromSchema (row : TagRow) : List Entry :=
  let l := row.device.foldl (fun l v => entryAdd l ⟨v, flagDevice⟩) []
  row.cloud.foldl (cloudStep pick) l

def localTagListFromSchema (row : LocalTagRow) : List Entry :=
  row.values.foldl (fun l v => entryAdd l ⟨v, flagLocal⟩) []

/-- A member reference: the prefix becomes flags. -/
def memberRef : Text → Entry
  | '@' :: name => ⟨name, flagDevice⟩
  | '#' :: name => ⟨name, flagCloud⟩
  | '*' :: name => ⟨name, flagLocal⟩
  | name => ⟨name, 0⟩

def groupListFromSchema (row : GroupRow) : List Entry :=
  (row.tags.map memberRef).foldl entryAdd []

/-- Add, remove or update a plain tag with the given values. -/
def plainAdd (s : Sys) (name : Text) (values : List Entry) : Bool × Sys :=
  tagAdd pick s ⟨name, false, values⟩

def plainRemove (s : Sys) (name : Text) : Bool × Sys :=
  match tagFindByName s.tags name false with
  | some tag => (true, tagRemove pick s tag)
  | none => (false, s)

def plainUpdate (s : Sys) (name : Text) (values : List Entry) : Bool × Sys :=
  match tagFindByName s.tags name false with
  | some tag => (true, tagUpdate pick s tag values)
  | none => (false, s)

def tagAddFromSchema (s : Sys) (row : TagRow) : Bool × Sys :=
  plainAdd pick s row.name (tagListFromSchema pick row)

def tagRemoveFromSchema (s : Sys) (name : Text) : Bool × Sys := plainRemove pick s name

def tagUpdateFromSchema (s : Sys) (row : TagRow) : Bool × Sys :=
  plainUpdate pick s row.name (tagListFromSchema pick row)

def localTagAddFromSchema (s : Sys) (row : LocalTagRow) : Bool × Sys :=
  plainAdd pick s row.name (localTagListFromSchema row)

def localTagRemoveFromSchema (s : Sys) (name : Text) : Bool × Sys := plainRemove pick s name

def localTagUpdateFromSchema (s : Sys) (row : LocalTagRow) : Bool × Sys :=
  plainUpdate pick s row.name (localTagListFromSchema row)

def groupAddFromSchema (s : Sys) (row : GroupRow) : Bool × Sys :=
  if (groupFindByName s.groups row.name).isSome then (false, s)
  else
    let group : Group := ⟨row.name, groupListFromSchema row⟩
    let s := { s with groups := Keyed.insert Group.name strLt group s.groups }
    tagAdd pick s ⟨group.name, true, groupAppendMembers pick s.tags group []⟩

def groupRemoveFromSchema (s : Sys) (name : Text) : Bool × Sys :=
  match groupFindByName s.groups name with
  | none => (false, s)
  | some group =>
    let s := { s with groups := Keyed.drop Group.name name s.groups }
    match tagFindByName s.tags group.name true with
    | some gtag => (true, tagRemove pick s gtag)
    | none => (true, s)

def groupUpdateFromSchema (s : Sys) (row : GroupRow) : Bool × Sys :=
  match groupFindByName s.groups row.name with
  | none => (false, s)
  | some group =>
    let diff := listDiff pick group.tags (groupListFromSchema row)
    let group := { group with tags := applyDiff pick group.tags diff }
    let s := { s with groups := Keyed.replace Group.name group s.groups }
    (true, groupUpdate pick s group)

/-! ## Events -/

inductive Event where
  | tagAdd (row : TagRow)
  | tagUpdate (row : TagRow)
  | tagRemove (name : Text)
  | localTagAdd (row : LocalTagRow)
  | localTagUpdate (row : LocalTagRow)
  | localTagRemove (name : Text)
  | groupAdd (row : GroupRow)
  | groupUpdate (row : GroupRow)
  | groupRemove (name : Text)

def handle (s : Sys) : Event → Bool × Sys
  | .tagAdd row => tagAddFromSchema pick s row
  | .tagUpdate row => tagUpdateFromSchema pick s row
  | .tagRemove name => tagRemoveFromSchema pick s name
  | .localTagAdd row => localTagAddFromSchema pick s row
  | .localTagUpdate row => localTagUpdateFromSchema pick s row
  | .localTagRemove name => localTagRemoveFromSchema pick s name
  | .groupAdd row => groupAddFromSchema pick s row
  | .groupUpdate row => groupUpdateFromSchema pick s row
  | .groupRemove name => groupRemoveFromSchema pick s name

def step (s : Sys) (e : Event) : Sys := (handle pick { s with notes := [] } e).2

def empty : Sys := ⟨[], [], []⟩

end OpenSync.Tags
