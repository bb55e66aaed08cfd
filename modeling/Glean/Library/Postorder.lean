import Mathlib.Data.Finset.Card
import Mathlib.Logic.Relation

/-! Depth-first traversals in post order. Nodes have a key and a label, and are told apart by their
keys.
-/

namespace Glean.Postorder

variable {Key Label : Type*} [DecidableEq Key]

/-- The list is visited when some keys were seen before: what is put out, and what is seen then. -/
inductive Visits (children : Key → List (Key × Label))
    : Finset Key → List (Key × Label) → List (Key × Label) → Finset Key → Prop
  | nil {seen : Finset Key} : Visits children seen [] [] seen
  | skip {seen last : Finset Key} {key : Key} {label : Label}
      {nodes out : List (Key × Label)} (known : key ∈ seen)
      (others : Visits children seen nodes out last)
      : Visits children seen ((key, label) :: nodes) out last
  | visit {seen after last : Finset Key} {key : Key} {label : Label}
      {nodes inner out : List (Key × Label)} (new : key ∉ seen)
      (below : Visits children (insert key seen) (children key) inner after)
      (others : Visits children after nodes out last)
      : Visits children seen ((key, label) :: nodes) (inner ++ (key, label) :: out) last

/-- A key has another one among its children. -/
def Edge (children : Key → List (Key × Label)) (source target : Key) : Prop :=
  ∃ label, (target, label) ∈ children source

/-- The graph has no cycle. -/
def Acyclic (children : Key → List (Key × Label)) : Prop :=
  ∀ key, ¬ Relation.TransGen (Edge children) key key

/-- Each node comes after its children, but for those that are known before. -/
def Follows (children : Key → List (Key × Label)) : Finset Key → List (Key × Label) → Prop
  | _, [] => True
  | known, node :: nodes =>
      (∀ child ∈ children node.1, child.1 ∈ known) ∧ Follows children (insert node.1 known) nodes

variable {children : Key → List (Key × Label)} {seen last known : Finset Key}
variable {nodes out : List (Key × Label)} {node : Key × Label}

namespace Visits

/-- What is seen in the end was seen before or is put out. -/
theorem mem_last_iff (visits : Visits children seen nodes out last) {key : Key}
    : key ∈ last ↔ key ∈ seen ∨ key ∈ out.map Prod.fst := by
  induction visits with
  | nil => simp
  | skip _ _ ih => exact ih
  | visit _ _ _ ihBelow ihOthers =>
      rw [ihOthers, ihBelow, Finset.mem_insert]
      simp only [List.map_append, List.map_cons, List.mem_append, List.mem_cons]
      grind

theorem mem_last_of_mem_nodes (visits : Visits children seen nodes out last)
    (member : node ∈ nodes)
    : node.1 ∈ last := by
  induction visits with
  | nil => exact absurd member List.not_mem_nil
  | skip isKnown others ih =>
      rcases List.mem_cons.mp member with rfl | later
      · exact others.mem_last_iff.mpr (.inl isKnown)
      · exact ih later
  | visit _ below others _ ihOthers =>
      rcases List.mem_cons.mp member with rfl | later
      · exact others.mem_last_iff.mpr
          (.inl (below.mem_last_iff.mpr (.inl (Finset.mem_insert_self _ _))))
      · exact ihOthers later

theorem notMem_seen (visits : Visits children seen nodes out last) {key : Key}
    (member : key ∈ out.map Prod.fst)
    : key ∉ seen := by
  induction visits with
  | nil => exact absurd member List.not_mem_nil
  | skip _ _ ih => exact ih member
  | visit isNew below _ ihBelow ihOthers =>
      rw [List.map_append, List.map_cons] at member
      rcases List.mem_append.mp member with inner | outer
      · exact fun isSeen => ihBelow inner (Finset.mem_insert_of_mem isSeen)
      · rcases List.mem_cons.mp outer with rfl | later
        · exact isNew
        · exact fun isSeen => ihOthers later
            (below.mem_last_iff.mpr (.inl (Finset.mem_insert_of_mem isSeen)))

/-- Nothing is put out twice. -/
theorem nodup (visits : Visits children seen nodes out last) : (out.map Prod.fst).Nodup := by
  induction visits with
  | nil => exact List.nodup_nil
  | skip _ _ ih => exact ih
  | visit _ below others ihBelow ihOthers =>
      rw [List.map_append, List.map_cons, List.nodup_append]
      refine ⟨ihBelow, List.nodup_cons.mpr ⟨fun again => ?_, ihOthers⟩, ?_⟩
      · exact others.notMem_seen again
          (below.mem_last_iff.mpr (.inl (Finset.mem_insert_self _ _)))
      · intro key inner other outer same
        subst same
        rcases List.mem_cons.mp outer with rfl | later
        · exact below.notMem_seen inner (Finset.mem_insert_self _ _)
        · exact others.notMem_seen later (below.mem_last_iff.mpr (.inr inner))

/-- A property of the list that children share holds of what is put out. -/
theorem forall_out {property : Key × Label → Prop}
    (visits : Visits children seen nodes out last) (ofNodes : ∀ node ∈ nodes, property node)
    (ofChildren : ∀ node, property node → ∀ child ∈ children node.1, property child)
    : ∀ node ∈ out, property node := by
  induction visits with
  | nil => exact fun node member => absurd member List.not_mem_nil
  | skip _ _ ih => exact ih (fun node member => ofNodes node (List.mem_cons_of_mem _ member))
  | visit _ _ _ ihBelow ihOthers =>
      have isFirst := ofNodes _ List.mem_cons_self
      intro node member
      rcases List.mem_append.mp member with inner | outer
      · exact ihBelow (ofChildren _ isFirst) node inner
      · rcases List.mem_cons.mp outer with rfl | later
        · exact isFirst
        · exact ihOthers (fun node member => ofNodes node (List.mem_cons_of_mem _ member)) node
            later

theorem subset_last (visits : Visits children seen nodes out last) : seen ⊆ last :=
  fun _ isSeen => visits.mem_last_iff.mpr (.inl isSeen)

/-- With a node, its children are seen. -/
theorem closed (visits : Visits children seen nodes out last) (member : node ∈ out)
    {child : Key × Label} (isChild : child ∈ children node.1)
    : child.1 ∈ last := by
  induction visits with
  | nil => exact absurd member List.not_mem_nil
  | skip _ _ ih => exact ih member
  | visit _ below others ihBelow ihOthers =>
      rcases List.mem_append.mp member with inner | outer
      · exact others.subset_last (ihBelow inner)
      · rcases List.mem_cons.mp outer with rfl | later
        · exact others.subset_last (below.mem_last_of_mem_nodes isChild)
        · exact ihOthers later

/-- What is seen when nothing was seen before is what the nodes lead to. -/
theorem mem_last_iff_reaches (visits : Visits children ∅ nodes out last) {key : Key}
    : key ∈ last ↔ ∃ node ∈ nodes, Relation.ReflTransGen (Edge children) node.1 key := by
  constructor
  · intro member
    have isOut := (visits.mem_last_iff.mp member).resolve_left (Finset.notMem_empty _)
    obtain ⟨node, inOut, rfl⟩ := List.mem_map.mp isOut
    have reached
        : ∀ node ∈ out, ∃ root ∈ nodes, Relation.ReflTransGen (Edge children) root.1 node.1 := by
      refine visits.forall_out (fun node member => ⟨node, member, .refl⟩) ?_
      intro node ⟨root, isRoot, leads⟩ child isChild
      exact ⟨root, isRoot, leads.tail ⟨child.2, isChild⟩⟩
    exact reached node inOut
  · rintro ⟨root, isRoot, leads⟩
    induction leads with
    | refl => exact visits.mem_last_of_mem_nodes isRoot
    | tail _ edge ih =>
        obtain ⟨label, isChild⟩ := edge
        have isOut := (visits.mem_last_iff.mp ih).resolve_left (Finset.notMem_empty _)
        obtain ⟨node, inOut, rfl⟩ := List.mem_map.mp isOut
        exact visits.closed inOut isChild

/-- Nodes with different keys, and the children among them, are put out once each. -/
theorem perm (visits : Visits children ∅ nodes out last)
    (distinct : (nodes.map Prod.fst).Nodup)
    (closed : ∀ node ∈ nodes, ∀ child ∈ children node.1, child ∈ nodes)
    : out.Perm nodes := by
  have subset : ∀ node ∈ out, node ∈ nodes :=
    visits.forall_out (fun _ member => member) closed
  rw [List.perm_ext_iff_of_nodup visits.nodup.of_map distinct.of_map]
  intro node
  refine ⟨subset node, fun member => ?_⟩
  have isSeen := visits.mem_last_iff.mp (visits.mem_last_of_mem_nodes member)
  rcases isSeen with before | inOut
  · exact absurd before (Finset.notMem_empty _)
  · obtain ⟨other, isOut, sameKey⟩ := List.mem_map.mp inOut
    have same : other = node :=
      List.inj_on_of_nodup_map distinct (subset other isOut) member sameKey
    exact same ▸ isOut

end Visits

/-- A graph on finitely many keys can be traversed, whatever its cycles. -/
theorem exists_visits (keys : Finset Key)
    (closed : ∀ key, ∀ child ∈ children key, child.1 ∈ keys)
    (seen : Finset Key) (nodes : List (Key × Label)) (inKeys : ∀ node ∈ nodes, node.1 ∈ keys)
    : ∃ out last, Visits children seen nodes out last := by
  suffices all
      : ∀ measure (nodes : List (Key × Label)) (seen : Finset Key),
          (keys \ seen).card ≤ measure → (∀ node ∈ nodes, node.1 ∈ keys) →
            ∃ out last, Visits children seen nodes out last from
    all _ nodes seen le_rfl inKeys
  intro measure
  induction measure using Nat.strongRecOn with
  | ind measure ihMeasure =>
      intro nodes
      induction nodes with
      | nil => exact fun seen _ _ => ⟨[], seen, .nil⟩
      | cons node nodes ih =>
          intro seen bounded inKeys
          have isKey := inKeys node List.mem_cons_self
          have inRest : ∀ other ∈ nodes, other.1 ∈ keys :=
            fun other member => inKeys other (List.mem_cons_of_mem _ member)
          by_cases known : node.1 ∈ seen
          · obtain ⟨out, last, others⟩ := ih seen bounded inRest
            exact ⟨out, last, .skip known others⟩
          · have fewer : (keys \ insert node.1 seen).card < (keys \ seen).card := by
              apply Finset.card_lt_card
              refine Finset.ssubset_iff_of_subset ?_ |>.mpr
                ⟨node.1, Finset.mem_sdiff.mpr ⟨isKey, known⟩, fun member => ?_⟩
              · exact Finset.sdiff_subset_sdiff subset_rfl (Finset.subset_insert _ _)
              · exact (Finset.mem_sdiff.mp member).2 (Finset.mem_insert_self _ _)
            obtain ⟨inner, after, below⟩ := ihMeasure _ (lt_of_lt_of_le fewer bounded)
              (children node.1) (insert node.1 seen) le_rfl (closed node.1)
            have seenAfter : seen ⊆ after := fun key isSeen =>
              below.mem_last_iff.mpr (.inl (Finset.mem_insert_of_mem isSeen))
            have boundedAfter : (keys \ after).card ≤ measure :=
              (Finset.card_le_card (Finset.sdiff_subset_sdiff subset_rfl seenAfter)).trans bounded
            obtain ⟨out, last, others⟩ := ih after boundedAfter inRest
            exact ⟨_, last, .visit known below others⟩

theorem Follows.append {more : List (Key × Label)} (follows : Follows children known nodes)
    (later : Follows children (known ∪ (nodes.map Prod.fst).toFinset) more)
    : Follows children known (nodes ++ more) := by
  induction nodes generalizing known with
  | nil => simpa using later
  | cons node nodes ih =>
      refine ⟨follows.1, ih follows.2 ?_⟩
      rw [List.map_cons, List.toFinset_cons, Finset.union_insert, ← Finset.insert_union] at later
      exact later

/-- What is known may be forgotten when it is no child. -/
theorem Follows.forget {key : Key} (follows : Follows children (insert key known) nodes)
    (notChild : ∀ node ∈ nodes, ∀ child ∈ children node.1, child.1 ≠ key)
    : Follows children known nodes := by
  induction nodes generalizing known with
  | nil => trivial
  | cons node nodes ih =>
      refine ⟨fun child member => ?_, ih ?_ fun other member => ?_⟩
      · exact Finset.mem_of_mem_insert_of_ne (follows.1 child member)
          (notChild node List.mem_cons_self child member)
      · rw [Finset.insert_comm]
        exact follows.2
      · exact notChild other (List.mem_cons_of_mem _ member)

/-- The children of a node come before it. -/
theorem Follows.mem_before {before after : List (Key × Label)}
    (follows : Follows children known (before ++ node :: after)) {child : Key × Label}
    (isChild : child ∈ children node.1)
    : child.1 ∈ known ∨ child.1 ∈ before.map Prod.fst := by
  induction before generalizing known with
  | nil => exact .inl (follows.1 child isChild)
  | cons first before ih =>
      rcases ih follows.2 with isKnown | isBefore
      · rcases Finset.mem_insert.mp isKnown with same | old
        · exact .inr (same ▸ List.mem_cons_self)
        · exact .inl old
      · exact .inr (List.mem_cons_of_mem _ isBefore)

/-- Without cycles, nodes come after their children. A child that is not put out before its parent
was seen before: it is not the parent, nor anything above it.
-/
theorem Visits.follows (visits : Visits children seen nodes out last)
    (acyclic : Acyclic children)
    : Follows children seen out := by
  induction visits with
  | nil => trivial
  | skip _ _ ih => exact ih
  | @visit seen after last key label nodes inner out isNew below others ihBelow ihOthers =>
      have isBelow : ∀ node ∈ inner, Relation.TransGen (Edge children) key node.1 :=
        below.forall_out (fun child member => .single ⟨child.2, member⟩)
          (fun node leads child member => leads.tail ⟨child.2, member⟩)
      refine (ihBelow.forget fun node member child isChild same => ?_).append ⟨?_, ?_⟩
      · exact acyclic key (same ▸ (isBelow node member).tail ⟨child.2, isChild⟩)
      · intro child isChild
        have isSeen := below.mem_last_iff.mp (below.mem_last_of_mem_nodes isChild)
        rw [Finset.mem_union, List.mem_toFinset]
        refine isSeen.imp_left fun isKnown => ?_
        refine Finset.mem_of_mem_insert_of_ne isKnown fun same => ?_
        exact acyclic key (.single ⟨child.2, same ▸ isChild⟩)
      · have isAfter : after = insert key (seen ∪ (inner.map Prod.fst).toFinset) := by
          ext other
          rw [below.mem_last_iff]
          simp only [Finset.mem_insert, Finset.mem_union, List.mem_toFinset]
          exact or_assoc
        exact isAfter ▸ ihOthers

end Glean.Postorder
