import Glean.Library.SortedMap
import Glean.Ownership.Uset
import Glean.RTS.Fact

/-! Computed ownership and its interval encoding (`ownership.h`).
Owners of ascending fact ids are stored as the points where the owner changes.
-/

namespace Glean.RTS

/-- Reading ownership data: the virtual methods of `Ownership` that computations use. -/
structure Ownership where
  getOwner : Id → UsetId
  nextSetId : UsetId
  lookupSet : SetExpr → UsetId

/-- An ownership without stored sets. -/
def Ownership.unitsOnly (units : UsetId) : Ownership where
  getOwner _ := invalidUset
  nextSetId := units
  lookupSet _ := invalidUset

/-- `OwnershipUnit`: a raw record, with the first and last ids of the ranges that a unit owns. -/
structure OwnershipUnit where
  unit : UnitId
  ids : List (Id × Id)

/-- `ComputedOwnership`: sets numbered from `firstId`, and owner intervals. -/
structure ComputedOwnership where
  firstId : UsetId
  sets : List SetExpr
  facts : List (Id × UsetId)

/-- The loop that starts an interval at each fact whose owner differs from `current`. -/
def intervalsFrom (current : UsetId) : List (Id × UsetId) → List (Id × UsetId)
  | [] => []
  | (id, usetid) :: rest =>
      if usetid ≠ current then
        (id, usetid) :: intervalsFrom usetid rest
      else
        intervalsFrom current rest

/-- Owner intervals of a list of facts with their owners. -/
def intervals (owners : List (Id × UsetId)) : List (Id × UsetId) :=
  intervalsFrom invalidUset owners

/-- The owner an interval list gives to a fact: that of the last interval starting at or
before the fact.
-/
def intervalOwner (starts : List (Id × UsetId)) (id : Id) : UsetId :=
  ((starts.filter (fun start => start.1 ≤ id)).getLast?.map Prod.snd).getD invalidUset

/-- The owner computed for a fact. -/
def ComputedOwnership.owner (computed : ComputedOwnership) (id : Id) : UsetId :=
  intervalOwner computed.facts id

/-- Owner lists in strictly ascending order of fact ids. -/
def AscendingOwners (owners : List (Id × UsetId)) : Prop :=
  owners.Pairwise (fun left right => left.1 < right.1)

/-- Interval starts are among the encoded facts. -/
theorem intervalsFrom_sublist (current : UsetId) (owners : List (Id × UsetId))
    : (intervalsFrom current owners).Sublist owners := by
  induction owners generalizing current with
  | nil => exact .slnil
  | cons head rest ih =>
      obtain ⟨id, usetid⟩ := head
      unfold intervalsFrom
      split
      · exact (ih usetid).cons_cons _
      · exact (ih current).cons _

/-- No interval start lies at or before an id below all encoded facts. -/
theorem filter_intervalsFrom_eq_nil {owners : List (Id × UsetId)} {id : Id}
    (above : ∀ owner ∈ owners, id < owner.1) (current : UsetId)
    : (intervalsFrom current owners).filter (fun start => start.1 ≤ id) = [] := by
  refine List.filter_eq_nil_iff.mpr (fun start member => ?_)
  have later := above start ((intervalsFrom_sublist current owners).subset member)
  simpa using later

/-- Decoding finds the encoded owner of every listed fact, by induction on the list with the
current owner as the answer before the first start.
-/
theorem getLast?_intervalsFrom {owners : List (Id × UsetId)} (ascending : AscendingOwners owners)
    {id : Id} {usetid : UsetId} (member : (id, usetid) ∈ owners) (current : UsetId)
    : (((intervalsFrom current owners).filter (fun start => start.1 ≤ id)).getLast?.map
        Prod.snd).getD current = usetid := by
  induction owners generalizing current with
  | nil => simp at member
  | cons head rest ih =>
      obtain ⟨first, owner⟩ := head
      obtain ⟨below, restAscending⟩ := List.pairwise_cons.mp ascending
      rcases List.mem_cons.mp member with here | later
      · obtain ⟨rfl, rfl⟩ := Prod.mk.inj here
        have nothing := filter_intervalsFrom_eq_nil below
        unfold intervalsFrom
        split
        · simp [nothing usetid]
        · have same : usetid = current := not_not.mp ‹_›
          subst same
          simp [nothing usetid]
      · have before : first ≤ id := Nat.le_of_lt (below _ later)
        unfold intervalsFrom
        split
        · have decoded := ih restAscending later owner
          rw [List.filter_cons_of_pos (by simpa using before), List.getLast?_cons]
          cases found : ((intervalsFrom owner rest).filter (fun start => start.1 ≤ id)).getLast? with
          | none => simpa [found] using decoded
          | some start => simpa [found] using decoded
        · exact ih restAscending later current

/-- The interval encoding of ascending facts gives each of them its owner. -/
theorem intervalOwner_intervals {owners : List (Id × UsetId)}
    (ascending : AscendingOwners owners) {id : Id} {usetid : UsetId}
    (member : (id, usetid) ∈ owners)
    : intervalOwner (intervals owners) id = usetid :=
  getLast?_intervalsFrom ascending member invalidUset

end Glean.RTS
