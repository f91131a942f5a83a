import OpenSync.RbTree

/-!
# The intrusive tree of `ds_tree.c`

Nodes live in a memory indexed by their addresses, `none` is `NULL`, and an operation that would
dereference `NULL` has the result `none`. Loops take the number of rounds they may run. The
comparison function is a parameter with values in `ℤ`. The element that contains a node and the
node are not told apart.
-/

namespace OpenSync.DsTree
open RbTree (Color)

structure Node (A K : Type) where
  key : K
  prop : Color
  parent : Option A
  child : Bool → Option A

namespace Node

variable {A K : Type} (n : Node A K)

def setProp (c : Color) : Node A K := { n with prop := c }

def setParent (p : Option A) : Node A K := { n with parent := p }

def setChild (d : Bool) (p : Option A) : Node A K := { n with child := Function.update n.child d p }

end Node

/-- `ds_tree_t` and the memory its nodes live in. -/
structure Ds (A K : Type) where
  mem : A → Node A K
  root : Option A
  ndel : UInt32

variable {A K : Type} [DecidableEq A]

namespace Ds

def setNode (t : Ds A K) (a : A) (n : Node A K) : Ds A K :=
  { t with mem := Function.update t.mem a n }

def setProp (t : Ds A K) (a : A) (c : Color) : Ds A K := t.setNode a ((t.mem a).setProp c)

def setParent (t : Ds A K) (a : A) (p : Option A) : Ds A K :=
  t.setNode a ((t.mem a).setParent p)

def setChild (t : Ds A K) (a : A) (d : Bool) (p : Option A) : Ds A K :=
  t.setNode a ((t.mem a).setChild d p)

/-- `if (p != NULL) p->otn_parent = par;` -/
def setParentOpt (t : Ds A K) (p par : Option A) : Ds A K :=
  match p with
  | none => t
  | some a => t.setParent a par

def isRed (t : Ds A K) (p : Option A) : Bool := p.any fun a => (t.mem a).prop = .red

def side (t : Ds A K) (par a : A) : Bool := (t.mem par).child true = some a

/-- The link to `old` in its parent, or the root pointer, becomes `new`. -/
def relink (t : Ds A K) (par : Option A) (old : A) (new : Option A) : Ds A K :=
  match par with
  | none => { t with root := new }
  | some p => t.setChild p (t.side p old) new

def blackenRoot (t : Ds A K) : Ds A K :=
  match t.root with
  | none => t
  | some r => t.setProp r .black

end Ds

def bstRotate (t : Ds A K) (node : A) (dir : Bool) : Option (Ds A K × A) := do
  let save ← (t.mem node).child dir
  let t := t.setParent save (t.mem node).parent
  let t := t.setChild node dir ((t.mem save).child (!dir))
  let t := t.setParentOpt ((t.mem node).child dir) (some node)
  let t := t.setChild save (!dir) (some node)
  let t := t.setParent node (some save)
  let t := t.relink (t.mem save).parent node (some save)
  some (t, save)

def rbtRotate (t : Ds A K) (node : A) (dir : Bool) : Option (Ds A K × A) := do
  let (t, save) ← bstRotate t node dir
  let t := t.setProp node .red
  let t := t.setProp save .black
  some (t, save)

def rbtRotateDouble (t : Ds A K) (node : A) (dir : Bool) : Option (Ds A K × A) := do
  let child ← (t.mem node).child dir
  let (t, _) ← rbtRotate t child (!dir)
  rbtRotate t node dir

/-! ## Insertion -/

def insertRebalance (t : Ds A K) (base : A) : Option (Ds A K) :=
  if t.isRed (some base) && t.isRed (t.mem base).parent then do
    let parent ← (t.mem base).parent
    let gbase ← (t.mem parent).parent
    let gdir := t.side gbase parent
    let pdir := t.side parent base
    if gdir = pdir then (rbtRotate t gbase gdir).map Prod.fst
    else (rbtRotateDouble t gbase gdir).map Prod.fst
  else some t

def flipColors (t : Ds A K) (base : A) : Option (Ds A K) :=
  if t.isRed ((t.mem base).child false) && t.isRed ((t.mem base).child true) then do
    let t := t.setProp base .red
    let c₀ ← (t.mem base).child false
    let t := t.setProp c₀ .black
    let c₁ ← (t.mem base).child true
    some (t.setProp c₁ .black)
  else some t

variable (cmp : K → K → ℤ)

def dirOf (t : Ds A K) (a : A) (key : K) : Bool := cmp (t.mem a).key key < 0

def insertLoop (key : K) : ℕ → Ds A K → A → Bool → Option (Ds A K × A × Bool)
  | 0, _, _, _ => none
  | fuel + 1, t, base, dir =>
    match (t.mem base).child dir with
    | none => some (t, base, dir)
    | some _ => do
      let t ← flipColors t base
      let t ← insertRebalance t base
      let base ← (t.mem base).child dir
      insertLoop key fuel t base (dirOf cmp t base key)

def nodeInsert (fuel : ℕ) (t : Ds A K) (node : A) (key : K) : Option (Ds A K) :=
  let t := t.setNode node { key, prop := .red, parent := none, child := fun _ => none }
  match t.root with
  | none =>
    let t := { t with root := some node }
    some (t.setProp node .black)
  | some base => do
    let (t, base, dir) ← insertLoop cmp key fuel t base (dirOf cmp t base key)
    let t := t.setChild base dir (some node)
    let t := t.setParent node (some base)
    let child ← (t.mem base).child dir
    let t ← insertRebalance t child
    let root ← t.root
    some (t.setProp root .black)

/-! ## Removal -/

def removeLeaf (t : Ds A K) (node : A) : Ds A K × Option A :=
  let dir : Bool := (t.mem node).child false = none
  let child := (t.mem node).child dir
  let (t, retval) :=
    if t.isRed (some node) then (t, none)
    else
      match child with
      | some c => if t.isRed child then (t.setProp c .black, none) else (t, (t.mem node).parent)
      | none => (t, (t.mem node).parent)
  let t := t.relink (t.mem node).parent node child
  let t := t.setParentOpt child (t.mem node).parent
  (t, retval)

def nodeReplace (t : Ds A K) (pold pnew : A) : Ds A K :=
  let t := t.setProp pnew (t.mem pold).prop
  let t := t.setParent pnew (t.mem pold).parent
  let t := t.setChild pnew false ((t.mem pold).child false)
  let t := t.setChild pnew true ((t.mem pold).child true)
  let t := t.setParentOpt ((t.mem pold).child false) (some pnew)
  let t := t.setParentOpt ((t.mem pold).child true) (some pnew)
  t.relink (t.mem pold).parent pold (some pnew)

/-- The node that a rotation has put on top takes the old colour, and its children are black. -/
def repaint (t : Ds A K) (node : A) (prop : Color) : Option (Ds A K) := do
  let t := t.setProp node prop
  let c₀ ← (t.mem node).child false
  let t := t.setProp c₀ .black
  let c₁ ← (t.mem node).child true
  some (t.setProp c₁ .black)

/-- What `ds_tree_remove_rebalance` does once the sibling is not red. -/
def repairSibling (t : Ds A K) (node : A) (dir : Bool) : Option (Ds A K × Bool) :=
  match (t.mem node).child (!dir) with
  | none => some (t, true)
  | some s =>
    if !t.isRed ((t.mem s).child false) && !t.isRed ((t.mem s).child true) then
      let t := t.setProp s .red
      if t.isRed (some node) then some (t.setProp node .black, false) else some (t, true)
    else do
      let prop := (t.mem node).prop
      let (t, node) ← if t.isRed ((t.mem s).child (!dir)) then rbtRotate t node (!dir)
        else rbtRotateDouble t node (!dir)
      (repaint t node prop).map fun t => (t, false)

/-- The result is whether rebalancing goes on at the parent. -/
def removeRebalance (t : Ds A K) (node : A) (dir : Bool) : Option (Ds A K × Bool) := do
  let t ← if t.isRed ((t.mem node).child (!dir)) then (rbtRotate t node (!dir)).map Prod.fst
    else some t
  repairSibling t node dir

def removeLoop : ℕ → Ds A K → Option A → Bool → Option (Ds A K)
  | _, t, none, _ => some t
  | 0, _, some _, _ => none
  | fuel + 1, t, some base, dir => do
    let (t, more) ← removeRebalance t base dir
    if more then
      match (t.mem base).parent with
      | none => some t
      | some p => removeLoop fuel t (some p) (t.side p base)
    else some t

def endLoop (t : Ds A K) (d : Bool) : ℕ → A → Option A
  | 0, _ => none
  | fuel + 1, a =>
    match (t.mem a).child d with
    | none => some a
    | some b => endLoop t d fuel b

/-- The first half of `ds_tree_node_remove`: the node is out of the tree, rebalancing is to start at
the pointer, in the given direction. The initial direction `-1` of the source is never used; here it
is `false`. -/
def removeStart (fuel : ℕ) (t : Ds A K) (node : A) : Option (Ds A K × Option A × Bool) :=
  match (t.mem node).child false, (t.mem node).child true with
  | some l, some _ => do
    let rnode ← endLoop t true fuel l
    let parent ← (t.mem rnode).parent
    let dir := t.side parent rnode
    let (t, base) := removeLeaf t rnode
    let t := nodeReplace t node rnode
    some (t, if base = some node then some rnode else base, dir)
  | _, _ =>
    let dir := (t.mem node).parent.any fun p => t.side p node
    let (t, base) := removeLeaf t node
    some (t, base, dir)

def nodeRemove (fuel : ℕ) (t : Ds A K) (node : A) : Option (Ds A K) := do
  let (t, base, dir) ← removeStart fuel t node
  let t ← removeLoop fuel t base dir
  let t := t.blackenRoot
  let t := t.setChild node true none
  let t := t.setChild node false none
  some { t with ndel := t.ndel + 1 }

/-! ## Lookup and traversal -/

/-- The outer `none` is running out of rounds, the inner one `NULL`. -/
def findLoop (t : Ds A K) (key : K) : ℕ → Option A → Option (Option A)
  | _, none => some none
  | 0, some _ => none
  | fuel + 1, some node =>
    let c := cmp (t.mem node).key key
    if c = 0 then some (some node) else findLoop t key fuel ((t.mem node).child (c < 0))

def find (fuel : ℕ) (t : Ds A K) (key : K) : Option (Option A) := findLoop cmp t key fuel t.root

def nodeEnd (d : Bool) (fuel : ℕ) (t : Ds A K) (p : Option A) : Option (Option A) :=
  match p with
  | none => some none
  | some a => (endLoop t d fuel a).map some

def nodeMin (fuel : ℕ) (t : Ds A K) (p : Option A) : Option (Option A) := nodeEnd false fuel t p

def nodeMax (fuel : ℕ) (t : Ds A K) (p : Option A) : Option (Option A) := nodeEnd true fuel t p

def head (fuel : ℕ) (t : Ds A K) : Option (Option A) := nodeMin fuel t t.root

def tail (fuel : ℕ) (t : Ds A K) : Option (Option A) := nodeMax fuel t t.root

/-- Climb until the step up does not come from side `d`. -/
def climbLoop (t : Ds A K) (d : Bool) : ℕ → A → Option (Option A)
  | 0, _ => none
  | fuel + 1, node =>
    match (t.mem node).parent with
    | none => some none
    | some p => if (t.mem p).child d = some node then climbLoop t d fuel p else some (some p)

def nodeStep (d : Bool) (fuel : ℕ) (t : Ds A K) (node : A) : Option (Option A) :=
  match (t.mem node).child d with
  | some c => nodeEnd (!d) fuel t (some c)
  | none => climbLoop t d fuel node

def next (fuel : ℕ) (t : Ds A K) (node : A) : Option (Option A) := nodeStep true fuel t node

def prev (fuel : ℕ) (t : Ds A K) (node : A) : Option (Option A) := nodeStep false fuel t node

def visitLoop (step : A → Option (Option A)) : ℕ → Option A → Option (List A)
  | _, none => some []
  | 0, some _ => none
  | rounds + 1, some a => do
    let p ← step a
    let rest ← visitLoop step rounds p
    some (a :: rest)

/-- `ds_tree_foreach` -/
def foreach (fuel : ℕ) (t : Ds A K) : Option (List A) := do
  let p ← head fuel t
  visitLoop (next fuel t) fuel p

def foreachReverse (fuel : ℕ) (t : Ds A K) : Option (List A) := do
  let p ← tail fuel t
  visitLoop (prev fuel t) fuel p

end OpenSync.DsTree
