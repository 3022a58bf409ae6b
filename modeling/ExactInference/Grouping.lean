/-!
# Groups of linked items

Items that share a link belong to one group. Groups are kept in the order of their first items,
and a new link merges every group that it touches into the first of them.
-/

namespace ExactInference

variable {α : Type} [BEq α]

/-- Whether a link names an item of a group. -/
def touches (link group : List α) : Bool := group.any link.contains

/-- Merge all groups that a link touches into the first of them. -/
def mergeLinked (link : List α) : List (List α) → List (List α)
  | [] => []
  | group :: rest =>
    if touches link group then
      (group ++ (rest.filter (touches link)).flatten) :: rest.filter fun g => !touches link g
    else group :: mergeLinked link rest

/-- The groups of some items under some links. -/
def groupsOf (items : List α) (links : List (List α)) : List (List α) :=
  links.foldl (fun groups link => mergeLinked link groups) (items.map ([·]))

end ExactInference
