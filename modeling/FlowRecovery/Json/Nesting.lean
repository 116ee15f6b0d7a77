import FlowRecovery.Json.Basic

/-!
# Nesting

Arrays and objects are nested in each other, and a reader of documents goes only so deep:
`Json.upTo` gives up what is nested deeper, by putting `Json.buried` in its place. A document that
is nested no deeper stays as it is (`Json.upTo_of_depth_le`).

What is buried is no value of any kind. So it matters only to those who look at it: a document that
has it in a place nobody looks at is read like any other.
-/

namespace FlowRecovery

namespace Json

mutual

/-- How deep arrays and objects are nested; other documents have the depth zero. -/
def depth : Json → Nat
  | array items => depthOfItems items + 1
  | object members => depthOfMembers members + 1
  | _ => 0

/-- The greatest depth of items. -/
def depthOfItems : List Json → Nat
  | [] => 0
  | j :: rest => max (depth j) (depthOfItems rest)

/-- The greatest depth of the values of members. -/
def depthOfMembers : List (Literal × Json) → Nat
  | [] => 0
  | (_, j) :: rest => max (depth j) (depthOfMembers rest)

end

mutual

/-- Buries the arrays and objects that are inside `levels` others. -/
def upTo (levels : Nat) : Json → Json
  | array items =>
      match levels with
      | 0 => buried
      | levels + 1 => array (itemsUpTo levels items)
  | object members =>
      match levels with
      | 0 => buried
      | levels + 1 => object (membersUpTo levels members)
  | j => j

/-- Buries the arrays and objects in items that are inside `levels` others. -/
def itemsUpTo (levels : Nat) : List Json → List Json
  | [] => []
  | j :: rest => upTo levels j :: itemsUpTo levels rest

/-- Buries the arrays and objects in members that are inside `levels` others. -/
def membersUpTo (levels : Nat) : List (Literal × Json) → List (Literal × Json)
  | [] => []
  | (key, j) :: rest => (key, upTo levels j) :: membersUpTo levels rest

end

mutual

theorem upTo_of_depth_le {levels : Nat} {j : Json} (h : j.depth ≤ levels) : j.upTo levels = j := by
  cases j with
  | array items =>
    cases levels with
    | zero => simp [depth] at h
    | succ levels =>
      simp only [depth, Nat.add_le_add_iff_right] at h
      simp only [upTo, itemsUpTo_of_depth_le h]
  | object members =>
    cases levels with
    | zero => simp [depth] at h
    | succ levels =>
      simp only [depth, Nat.add_le_add_iff_right] at h
      simp only [upTo, membersUpTo_of_depth_le h]
  | null | bool _ | number _ | string _ | buried => simp [upTo]

theorem itemsUpTo_of_depth_le {levels : Nat} {items : List Json} (h : depthOfItems items ≤ levels) :
    itemsUpTo levels items = items := by
  cases items with
  | nil => rfl
  | cons j rest =>
    simp only [depthOfItems, Nat.max_le] at h
    simp only [itemsUpTo, upTo_of_depth_le h.1, itemsUpTo_of_depth_le h.2]

theorem membersUpTo_of_depth_le {levels : Nat} {members : List (Literal × Json)}
    (h : depthOfMembers members ≤ levels) : membersUpTo levels members = members := by
  match members with
  | [] => rfl
  | (key, j) :: rest =>
    simp only [depthOfMembers, Nat.max_le] at h
    simp only [membersUpTo, upTo_of_depth_le h.1, membersUpTo_of_depth_le h.2]

end

end Json

end FlowRecovery
