import Velr.IndexStats.Sampler

/-!
# The page plan of an index

`page_plan.rs`: the number of pages an index will take, from the lengths of its records alone. A
level of the tree is the list of the boundaries of its pages, the lengths of the cells that separate
them; the spool of a level is that list.
-/

namespace Velr.Sort

open IndexStats (Failure)

/-- `Descriptors` -/
structure Descriptors where
  boundaries : List Nat
  count : Nat
deriving DecidableEq

/-- `Descriptors::create` -/
def Descriptors.create : Descriptors := ⟨[], 0⟩

/-- `Descriptors::push` -/
def Descriptors.push (children : Descriptors) (boundary : Nat) : Except Failure Descriptors :=
  if 2 ^ 32 ≤ children.count + 1 then
    .error (.error "planned database page space exhausted")
  else .ok ⟨children.boundaries ++ [boundary], children.count + 1⟩

/-- `Group` -/
structure Group where
  children : Nat
  last : Nat
  penultimate : Nat
deriving DecidableEq

/-- `Group::default` -/
def Group.default : Group := ⟨0, 0, 0⟩

/-- `Group::push` -/
def Group.push (group : Group) (boundary : Nat) : Group :=
  ⟨group.children + 1, boundary, group.last⟩

/-- The variables of `plan_level`. -/
structure LevelState where
  next : Descriptors
  previous : Option Group
  group : Group
  used : Nat

/-- `plan_level`: one child. A child behind the first one of its group turns the boundary before it
into an interior cell. -/
def LevelState.child (pageSize : Nat) (st : LevelState) (boundary : Nat) :
    Except Failure LevelState := do
  let additional := if st.group.children = 0 then 0 else 6 + st.group.last
  if pageSize < st.used + additional then
    let next ← match st.previous with
      | some previous => st.next.push previous.last
      | none => .ok st.next
    .ok { next, previous := some st.group, group := Group.default.push boundary, used := 12 }
  else .ok { st with used := st.used + additional, group := st.group.push boundary }

/-- `plan_level`: the last two groups. A group of one child borrows one of the group before it. -/
def LevelState.close (st : LevelState) : Except Failure (Option Descriptors) :=
  match st.previous with
  | none => .ok none
  | some previous =>
      if st.group.children = 1 then
        if previous.children < 3 then
          .error (.error "planned interior group cannot lend a child")
        else do
          let next ← st.next.push previous.penultimate
          let next ← next.push st.group.last
          .ok (some next)
      else do
        let next ← st.next.push previous.last
        let next ← next.push st.group.last
        .ok (some next)

/-- `plan_level` -/
def planLevel (pageSize : Nat) (children : Descriptors) : Except Failure (Option Descriptors) := do
  let st ← children.boundaries.foldlM (LevelState.child pageSize)
    { next := .create, previous := none, group := .default, used := 12 }
  st.close

/-- `IndexPagePlan` -/
structure IndexPagePlan where
  pageSize : Nat
  maximum : Nat
  leaves : Option Descriptors
  used : Nat
  lastCell : Nat
deriving DecidableEq

namespace IndexPagePlan

/-- `IndexPagePlan::new` -/
def new (pageSize : Nat) : Except Failure IndexPagePlan :=
  if 512 ≤ pageSize ∧ pageSize ≤ 32768 ∧ pageSize.isPowerOfTwo then
    .ok {
      pageSize, maximum := (pageSize - 12) * 64 / 255 - 23, leaves := none, used := 8,
      lastCell := 0 }
  else .error (.error "unsupported planned page size")

/-- `IndexPagePlan::push` -/
def push (plan : IndexPagePlan) (length : Nat) : Except Failure IndexPagePlan :=
  if plan.maximum < length then
    .error (.error "planned index record requires overflow pages")
  else do
    let pre := if length < 128 then 1 else if length < 16384 then 2 else 3
    let cell := length + pre
    if plan.pageSize < plan.used + 2 + cell then
      let leaves ← (plan.leaves.getD .create).push (plan.lastCell % 2 ^ 16)
      .ok { plan with leaves := some leaves, used := 8 + (2 + cell), lastCell := cell }
    else .ok { plan with used := plan.used + (2 + cell), lastCell := cell }

/-- `finish`: the levels above the leaves. Each of them has fewer pages than the one below. -/
def levels (pageSize : Nat) : Nat → Descriptors → Nat → Except Failure Nat
  | 0, _, pages => .ok pages
  | fuel + 1, children, pages => do
      match ← planLevel pageSize children with
      | none => .ok pages
      | some next =>
          if 2 ^ 32 ≤ pages + next.count then
            .error (.error "planned database page space exhausted")
          else levels pageSize fuel next (pages + next.count)

/-- `IndexPagePlan::finish` -/
def finish (plan : IndexPagePlan) : Except Failure Nat :=
  match plan.leaves with
  | none => .ok 0
  | some children => do
      let children ← children.push 0
      levels plan.pageSize children.count children children.count

end IndexPagePlan

/-- The plan of the lengths of some records. -/
def IndexPagePlan.pushAll (plan : IndexPagePlan) : List Nat → Except Failure IndexPagePlan
  | [] => .ok plan
  | length :: lengths => do
      let plan ← plan.push length
      plan.pushAll lengths

/-- `plan_index_lengths` -/
def planIndexLengths (pageSize : Nat) (lengths : List Nat) : Except Failure Nat := do
  let plan ← IndexPagePlan.new pageSize
  let plan ← plan.pushAll lengths
  plan.finish

end Velr.Sort
